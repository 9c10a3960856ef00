import SequoiaDB.Rc
import SequoiaDB.Lib.Bytes

/-!
# The store of LOB pieces

`dmsStorageLob`: a piece of a large object takes one page.  The page's block (`_dmsLobDataMapBlk`) names the collection,
the object and the sequence number of the piece, and links the page into the chain of a bucket, by which the piece is
found.  `write`, `update`, `writeOrUpdate`, `remove`, `truncate` and `rebuildBME` are modelled with the places at which
they can fail: `fails` tells for each check whether it finds an error.  `ossPanic`, which ends the process, is `none`.
-/

namespace SequoiaDB.Dms

open Lib

/-- `_dmsLobDataMapBlk`, without the padding. -/
structure LobBlk where
  oid : BitVec 96
  sequence : Nat
  dataLen : Nat
  prevPageInBucket : Option Nat
  nextPageInBucket : Option Nat
  clLogicalID : Nat
  mbID : Nat
  removed : Bool
  deriving DecidableEq, Repr

def invalidCLID : Nat := 0xFFFFFFFF

def invalidMBID : Nat := 0xFFFF

def mmeSlots : Nat := 4096

def lobMetaSequence : Nat := 0

def LobBlk.reset : LobBlk :=
  ⟨0, 0, 0, none, none, invalidCLID, invalidMBID, true⟩

def LobBlk.isUndefined (blk : LobBlk) : Prop :=
  blk.sequence = 0 ∧ blk.dataLen = 0 ∧ blk.clLogicalID = 0 ∧ blk.mbID = 0 ∧ blk.oid = 0

instance (blk : LobBlk) : Decidable blk.isUndefined := inferInstanceAs (Decidable (_ ∧ _))

/-- What a piece is known by: the collection, the object and the sequence number. -/
structure LobKey where
  clID : Nat
  oid : BitVec 96
  sequence : Nat
  deriving DecidableEq, Repr

def LobBlk.key (blk : LobBlk) : LobKey :=
  ⟨blk.clLogicalID, blk.oid, blk.sequence⟩

/-- `_totalLobs` and `_totalLobPages` of a collection. -/
structure LobStat where
  totalLobs : Nat
  totalLobPages : Nat
  deriving DecidableEq, Repr

inductive LobLog
  | write (mb : Nat) (oid : BitVec 96) (sequence offset : Nat) (data : List UInt8)
  | update (mb : Nat) (oid : BitVec 96) (sequence offset : Nat) (data oldData : List UInt8)
  | remove (mb : Nat) (oid : BitVec 96) (sequence offset : Nat) (data : List UInt8)
  | truncate (mb : Nat)
  deriving DecidableEq, Repr

/-- The files of the store: the blocks and the contents of the pages, the pages in use (the space management extent),
the heads of the buckets; the counters of the collections; and the log. -/
structure LobStore where
  blk : Nat → LobBlk
  data : Nat → Mem
  used : Finset Nat
  pageNum : Nat
  bucket : Nat → Option Nat
  stat : Nat → LobStat
  log : List LobLog

inductive LobCheck
  /-- before anything is done: log space, the lock, the open file, the mode of the collection -/
  | prepare
  | findFreeSpace
  | findExtent (page : Nat)
  | pageChecks
  | writeData
  | fillExtent
  | pushRead (page : Nat)
  | pushWrite (page : Nat)
  | prepareLog
  | rollbackExtent
  | prevExtent (page : Nat)
  | nextExtent (page : Nat)
  | updateExtent
  | readData
  | removeExtent
  | truncateExtent (page : Nat)
  | rebuildExtent (page : Nat)

/-- What surrounds the store: the hash of a piece, the size of a page, the collections of the collection space with their
logical identifiers, and the choice of a free page. -/
structure LobEnv where
  hash : BitVec 96 → Nat → Nat
  lobdPageSize : Nat
  mbs : Finset Nat
  logicalID : Nat → Nat
  findFreeSpace : LobStore → Nat
  mbs_lt : ∀ {mb}, mb ∈ mbs → mb < mmeSlots
  logicalID_inj : ∀ {mb mb'}, mb ∈ mbs → mb' ∈ mbs → logicalID mb = logicalID mb' → mb = mb'
  findFreeSpace_notMem : ∀ s, findFreeSpace s ∉ s.used

structure LobRecord where
  oid : BitVec 96
  sequence : Nat
  offset : Nat
  data : List UInt8
  deriving DecidableEq, Repr

namespace LobStore

variable (s : LobStore)

def setBlk (p : Nat) (f : LobBlk → LobBlk) : LobStore :=
  { s with blk := Function.update s.blk p (f (s.blk p)) }

def setStat (mb : Nat) (f : LobStat → LobStat) : LobStore :=
  { s with stat := Function.update s.stat mb (f (s.stat mb)) }

def setBucket (b : Nat) (p : Option Nat) : LobStore :=
  { s with bucket := Function.update s.bucket b p }

def writeData (p offset : Nat) (bs : List UInt8) : LobStore :=
  { s with data := Function.update s.data p ((s.data p).write offset bs) }

def append (dps : Bool) (r : LobLog) : LobStore :=
  if dps then { s with log := s.log ++ [r] } else s

def findFrom (key : LobKey) (fails : LobCheck → Bool) : Nat → Option Nat → Except Rc (Option Nat)
  | _, none => .ok none
  | 0, some _ => .error .sys
  | fuel + 1, some p =>
    if fails (.findExtent p) then .error .sys
    else if (s.blk p).key = key then .ok (some p)
    else findFrom key fails fuel (s.blk p).nextPageInBucket

def pushBehind (page : Nat) (oid : BitVec 96) (sequence : Nat) (fails : LobCheck → Bool) : Nat → Nat → Rc × LobStore
  | 0, _ => (.sys, s)
  | fuel + 1, p =>
    if fails (.pushRead p) then (.sys, s)
    else if (s.blk p).key = ⟨(s.blk page).clLogicalID, oid, sequence⟩ then (.lobSequenceExists, s)
    else match (s.blk p).nextPageInBucket with
      | none =>
        if fails (.pushWrite p) then (.sys, s)
        else (.ok, (s.setBlk p fun blk => { blk with nextPageInBucket := some page }).setBlk page fun blk =>
          { blk with prevPageInBucket := some p, nextPageInBucket := none, removed := false })
      | some q => pushBehind page oid sequence fails fuel q

def push2Bucket (b page : Nat) (oid : BitVec 96) (sequence : Nat) (fails : LobCheck → Bool) : Rc × LobStore :=
  match s.bucket b with
  | none => (.ok, (s.setBucket b (some page)).setBlk page fun blk =>
      { blk with prevPageInBucket := none, nextPageInBucket := none, removed := false })
  | some p => s.pushBehind page oid sequence fails s.pageNum p

def allocatePage (mb page : Nat) : LobStore :=
  { s with used := insert page s.used, pageNum := max s.pageNum (page + 1) }.setStat mb fun st =>
    { st with totalLobPages := st.totalLobPages + 1 }

def releasePage (mb page : Nat) : LobStore :=
  { s with used := s.used.erase page }.setStat mb fun st => { st with totalLobPages := st.totalLobPages - 1 }

def unlinkPage (b page : Nat) (fails : LobCheck → Bool) : Rc × LobStore :=
  match (s.blk page).prevPageInBucket with
  | none =>
    let s' := s.setBucket b (s.blk page).nextPageInBucket
    match (s.blk page).nextPageInBucket with
    | none => (.ok, s')
    | some n =>
      if fails (.nextExtent n) then (.sys, s')
      else (.ok, s'.setBlk n fun blk => { blk with prevPageInBucket := none })
  | some p =>
    if fails (.prevExtent p) then (.sys, s)
    else
      let s' := s.setBlk p fun blk => { blk with nextPageInBucket := (s.blk page).nextPageInBucket }
      match (s.blk page).nextPageInBucket with
      | none => (.ok, s')
      | some n =>
        if fails (.nextExtent n) then (.sys, s')
        else (.ok, s'.setBlk n fun blk => { blk with prevPageInBucket := some p })

end LobStore

namespace LobEnv

variable (E : LobEnv) (s : LobStore)

def getBucket (oid : BitVec 96) (sequence : Nat) : Nat :=
  E.hash oid sequence &&& 16777215

def bucketOf (blk : LobBlk) : Nat :=
  E.getBucket blk.oid blk.sequence

def find (mb : Nat) (oid : BitVec 96) (sequence : Nat) (fails : LobCheck → Bool) : Except Rc (Option Nat) :=
  s.findFrom ⟨E.logicalID mb, oid, sequence⟩ fails s.pageNum (s.bucket (E.getBucket oid sequence))

def newBlk (mb : Nat) (r : LobRecord) : LobBlk :=
  ⟨r.oid, r.sequence, r.data.length + r.offset, none, none, E.logicalID mb, mb, true⟩

def fillPage (mb page : Nat) (r : LobRecord) (fails : LobCheck → Bool) : Rc × LobStore :=
  if fails .fillExtent then (.sys, s)
  else
    andThen ((s.setBlk page fun _ => E.newBlk mb r).push2Bucket (E.getBucket r.oid r.sequence) page r.oid r.sequence
      fails) fun s =>
        (.ok, if r.sequence = lobMetaSequence
          then s.setStat mb fun st => { st with totalLobs := st.totalLobs + 1 } else s)

def removePage (mb page : Nat) (bucket : Option Nat) (fails : LobCheck → Bool) : Rc × LobStore :=
  andThen (s.unlinkPage (bucket.getD (E.bucketOf (s.blk page))) page fails) fun s' =>
    let s' := if (s.blk page).sequence = lobMetaSequence
      then s'.setStat mb fun st => { st with totalLobs := st.totalLobs - 1 } else s'
    (.ok, (s'.setBlk page fun _ => .reset).releasePage mb page)

def rollbackPage (mb page : Nat) (pageFilled : Bool) (fails : LobCheck → Bool) : LobStore :=
  if pageFilled then
    if fails .rollbackExtent then s else (E.removePage s mb page none fails).2
  else s.releasePage mb page

def writeWithPage (mb page : Nat) (r : LobRecord) (dps : Bool) (fails : LobCheck → Bool) : Rc × LobStore :=
  if fails .pageChecks ∨ E.lobdPageSize < r.offset + r.data.length then (.sys, E.rollbackPage s mb page false fails)
  else if fails .writeData then (.sys, E.rollbackPage s mb page false fails)
  else
    let filled := E.fillPage (s.writeData page r.offset r.data) mb page r fails
    if filled.1 ≠ .ok then (filled.1, E.rollbackPage filled.2 mb page false fails)
    else if dps ∧ fails .prepareLog then (.sys, E.rollbackPage filled.2 mb page true fails)
    else (.ok, filled.2.append dps (.write mb r.oid r.sequence r.offset r.data))

def oldData (page : Nat) (r : LobRecord) : List UInt8 :=
  if (s.blk page).dataLen ≤ r.offset then []
  else if (s.blk page).dataLen < r.offset + r.data.length then
    (s.data page).read r.offset ((s.blk page).dataLen - r.offset)
  else (s.data page).read r.offset r.data.length

def updateWithPage (mb page : Nat) (r : LobRecord) (dps : Bool) (fails : LobCheck → Bool) : Rc × LobStore :=
  if fails .pageChecks ∨ E.lobdPageSize < r.offset + r.data.length then (.sys, s)
  else if fails .updateExtent ∨ (dps ∧ fails .readData) ∨ fails .writeData then (.sys, s)
  else
    let s' := (s.writeData page r.offset r.data).setBlk page fun blk =>
      if blk.dataLen < r.data.length + r.offset then { blk with dataLen := r.data.length + r.offset } else blk
    if dps ∧ fails .prepareLog then (.sys, s')
    else (.ok, s'.append dps (.update mb r.oid r.sequence r.offset r.data (oldData s page r)))

def update (mb : Nat) (r : LobRecord) (dps : Bool) (fails : LobCheck → Bool) : Rc × LobStore :=
  if fails .prepare then (.sys, s)
  else match E.find s mb r.oid r.sequence fails with
    | .error rc => (rc, s)
    | .ok none => (.lobSequenceNotExist, s)
    | .ok (some page) => E.updateWithPage s mb page r dps fails

def writeInner (mb : Nat) (r : LobRecord) (dps updateWhenExist : Bool) (fails : LobCheck → Bool) : Rc × LobStore :=
  if fails .prepare then (.sys, s)
  else if fails .findFreeSpace then (.dmsNoSpc, s)
  else
    let page := E.findFreeSpace s
    let s := s.allocatePage mb page
    match if updateWhenExist then E.find s mb r.oid r.sequence fails else .ok none with
    | .error rc => (rc, s.releasePage mb page)
    | .ok none => E.writeWithPage s mb page r dps fails
    | .ok (some foundPage) => E.updateWithPage (s.releasePage mb page) mb foundPage r dps fails

def write (mb : Nat) (r : LobRecord) (dps : Bool) (fails : LobCheck → Bool) : Rc × LobStore :=
  E.writeInner s mb r dps false fails

def writeOrUpdate (mb : Nat) (r : LobRecord) (dps : Bool) (fails : LobCheck → Bool) : Rc × LobStore :=
  E.writeInner s mb r dps true fails

/-- `remove`: once the page is taken out of the chain an error is a panic. -/
def remove (mb : Nat) (oid : BitVec 96) (sequence : Nat) (dps : Bool) (fails : LobCheck → Bool) :
    Option (Rc × LobStore) :=
  if fails .prepare then some (.sys, s)
  else match E.find s mb oid sequence fails with
    | .error rc => some (rc, s)
    | .ok none => some (.ok, s)
    | .ok (some page) =>
      if fails .removeExtent ∨ (dps ∧ fails .readData) then some (.sys, s)
      else
        let old := (s.data page).read 0 (s.blk page).dataLen
        let removed := E.removePage s mb page (some (E.getBucket oid sequence)) fails
        if removed.1 ≠ .ok then some removed
        else if dps ∧ fails .prepareLog then none
        else some (.ok, removed.2.append dps (.remove mb oid sequence 0 old))

/-- The loop of `truncate` over the pages: those of the collection are removed, and every error is a panic. -/
def truncatePages (mb : Nat) (fails : LobCheck → Bool) : List Nat → LobStore → Option LobStore
  | [], s => some s
  | current :: pages, s =>
    if current ∉ s.used then truncatePages mb fails pages s
    else if fails (.truncateExtent current) then none
    else if (s.blk current).isUndefined ∨ E.logicalID mb ≠ (s.blk current).clLogicalID then
      truncatePages mb fails pages s
    else
      let removed := E.removePage s mb current none fails
      if removed.1 ≠ .ok then none else truncatePages mb fails pages removed.2

def truncate (mb : Nat) (dps : Bool) (fails : LobCheck → Bool) : Option (Rc × LobStore) :=
  if fails .prepare then some (.sys, s)
  else (E.truncatePages mb fails (List.range s.pageNum) s).bind fun s' =>
    if dps ∧ fails .prepareLog then none
    else some (.ok, (s'.setStat mb fun _ => ⟨0, 0⟩).append dps (.truncate mb))

def rebuildPages (fails : LobCheck → Bool) : List Nat → LobStore → Rc × LobStore
  | [], s => (.ok, s)
  | current :: pages, s =>
    if current ∉ s.used then rebuildPages fails pages s
    else if fails (.rebuildExtent current) then (.sys, s)
    else
      let blk := s.blk current
      if mmeSlots ≤ blk.mbID ∨ blk.isUndefined ∨ E.logicalID blk.mbID ≠ blk.clLogicalID then
        rebuildPages fails pages { s with used := s.used.erase current }
      else
        let pushed := s.push2Bucket (E.bucketOf blk) current blk.oid blk.sequence fails
        if pushed.1 ≠ .ok then pushed
        else rebuildPages fails pages (pushed.2.setStat blk.mbID fun st =>
          ⟨if blk.sequence = lobMetaSequence then st.totalLobs + 1 else st.totalLobs, st.totalLobPages + 1⟩)

def rebuildBME (fails : LobCheck → Bool) : Rc × LobStore :=
  E.rebuildPages fails (List.range s.pageNum) { s with bucket := fun _ => none, stat := fun _ => ⟨0, 0⟩ }

end LobEnv

end SequoiaDB.Dms

import SequoiaDB.Rc
import SequoiaDB.Bson.Path
import SequoiaDB.Bson.Md5

/-!
# The replay of log records

`_clsReplayer::replay` for the records that change documents and pieces of LOBs, and the choice of a unit for a record in
`replayByBucket` and `calcIndex`.  The documents of a collection are a multiset, since a scan may return them in any
order.  The raw bytes of an `_id` are kept beside the document: the hash is taken from them, and numbers that are equal
to the index, and even equal decimals, have different bytes.

How a modifier changes a document and what the other kinds of records do is left open in `Replayer`.
-/

namespace SequoiaDB.Cls

open Bson

def DMS_ID_KEY_NAME : Name := [0x5f, 0x69, 0x64]

/-- The element `_id` of a document: its value and the bytes `value()` of the length `valuesize()`. -/
structure IdEle where
  element : Element
  value : List UInt8

def IdEle.same (i j : IdEle) : Bool := i.element.woCompare j.element = .eq

/-- A document, with the bytes of its `_id`. -/
structure Doc where
  obj : Obj
  idValue : List UInt8

namespace Doc

def idEle (d : Doc) : Option IdEle := (d.obj.getField DMS_ID_KEY_NAME).map fun e => ⟨e, d.idValue⟩

def hasId (i : IdEle) (d : Doc) : Bool :=
  match d.idEle with
  | some j => j.same i
  | none => false

def sameId (d e : Doc) : Bool :=
  match e.idEle with
  | some i => d.hasId i
  | none => false

def isEmpty (d : Doc) : Bool :=
  match d.obj with
  | .nil => true
  | .cons _ _ _ => false

def hasPosition (d : Doc) : Bool :=
  match d.idEle with
  | some ⟨.long _, _⟩ => true
  | _ => false

end Doc

/-- A collection: its documents; `DMS_MB_ATTR_NOIDINDEX`; its unique indexes other than `$id`, each given by whether two
documents have a key in common; `_textIdxNum`; `DMS_STORAGE_CAPPED`; `getLobdPageSize()`. -/
structure Collection where
  docs : Multiset Doc
  noIdIndex : Bool
  unique : List (Doc → Doc → Bool)
  textIdxNum : Nat
  capped : Bool
  lobdPageSize : Nat

instance decidableExistsMem {α : Type*} (m : Multiset α) (p : α → Prop) [DecidablePred p] :
    Decidable (∃ a ∈ m, p a) :=
  Multiset.decidableExistsMultiset

namespace Collection

variable (c : Collection)

def uniqueIdxNum : Nat := (if c.noIdIndex then 0 else 1) + c.unique.length

def collides (d e : Doc) : Bool :=
  (!c.noIdIndex && d.sameId e) || c.unique.any fun x => x d e

def insertRecord (obj : Doc) : Rc × Collection :=
  if c.capped && !obj.hasPosition then (.sys, c)
  else if ∃ d ∈ c.docs, c.collides d obj then (.ixmDupKey, c)
  else (.ok, { c with docs := obj ::ₘ c.docs })

def delete (i : IdEle) : Rc × Collection :=
  if c.noIdIndex && !c.capped then (.rtnAutoindexidIsFalse, c)
  else (.ok, { c with docs := c.docs.filter fun d => ¬ d.hasId i })

def update (modify : Doc → Option Doc) (i : IdEle) : Rc × Collection :=
  let matched := c.docs.filter fun d => d.hasId i
  let rest := c.docs.filter fun d => ¬ d.hasId i
  let changed := matched.filterMap modify
  if c.noIdIndex then (.rtnAutoindexidIsFalse, c)
  else if ∃ d ∈ matched, (modify d).isNone then (.invalidArg, c)
  else if ∃ d ∈ changed, ∃ e ∈ rest, c.collides e d then (.ixmDupKey, c)
  else (.ok, { c with docs := changed + rest })

end Collection

structure LobPiece where
  oid : List UInt8
  sequence : Nat
  deriving DecidableEq

/-- The bytes of a piece that have been written. -/
abbrev LobData := Nat → Option UInt8

def LobData.write (d : LobData) (offset : Nat) (data : List UInt8) : LobData :=
  fun i => if offset ≤ i ∧ i < offset + data.length then data[i - offset]? else d i

/-- What a replica stores: its collections and the pieces of LOBs, by the full name of the collection. -/
structure Store where
  collections : Name → Option Collection
  lobs : Name × LobPiece → Option LobData

namespace Store

variable (s : Store)

def onCollection (fullname : Name) (f : Collection → Rc × Collection) : Rc × Store :=
  match s.collections fullname with
  | none => (.dmsNotexist, s)
  | some c => ((f c).1, { s with collections := Function.update s.collections fullname (some (f c).2) })

def onPiece (fullname : Name) (piece : LobPiece) (len : Nat) (f : Option LobData → Rc × Option LobData) : Rc × Store :=
  match s.collections fullname with
  | none => (.dmsNotexist, s)
  | some c =>
    if len > c.lobdPageSize then (.sys, s)
    else
      let r := f (s.lobs (fullname, piece))
      (r.1, { s with lobs := Function.update s.lobs (fullname, piece) r.2 })

end Store

/-- The records of the log; `other` are the kinds that the session thread replays alone. -/
inductive Record (μ κ : Type*)
  | dataInsert (fullname : Name) (obj : Doc)
  | dataDelete (fullname : Name) (obj : Doc)
  | dataUpdate (fullname : Name) (oldMatch newMatch : IdEle) (modifier : μ)
  | lobWrite (fullname : Name) (piece : LobPiece) (offset : Nat) (data : List UInt8)
  | lobUpdate (fullname : Name) (piece : LobPiece) (offset : Nat) (data : List UInt8)
  | lobRemove (fullname : Name) (piece : LobPiece)
  | dummy
  | other (kind : κ)

/-- What is left open: modifiers, and the other kinds of records, which bring no new documents. -/
structure Replayer (μ κ : Type*) where
  isEmpty : μ → Bool
  modify : μ → Doc → Option Doc
  other : κ → Store → Rc × Store
  other_docs : ∀ k s n c d, (other k s).2.collections n = some c → d ∈ c.docs →
    ∃ n' c', s.collections n' = some c' ∧ d ∈ c'.docs

variable {μ κ : Type*}

def writePiece (offset : Nat) (data : List UInt8) : Option LobData → Rc × Option LobData
  | some old => (.lobSequenceExists, some old)
  | none => (.ok, some (LobData.write (fun _ => none) offset data))

def updatePiece (offset : Nat) (data : List UInt8) : Option LobData → Rc × Option LobData
  | some old => (.ok, some (old.write offset data))
  | none => (.lobSequenceNotExist, none)

def removePiece : Option LobData → Rc × Option LobData
  | some _ => (.ok, none)
  | none => (.lobSequenceNotExist, none)

def forgive (code : Rc) {σ : Type*} (r : Rc × σ) : Rc × σ := if r.1 = code then (.ok, r.2) else r

namespace Replayer

variable (R : Replayer μ κ)

def replay (s : Store) : Record μ κ → Rc × Store
  | .dataInsert fullname obj =>
    if obj.isEmpty then (.invalidArg, s)
    else forgive .ixmDupKey (s.onCollection fullname fun c => c.insertRecord obj)
  | .dataDelete fullname obj =>
    match obj.idEle with
    | none => (.invalidArg, s)
    | some i => s.onCollection fullname fun c => c.delete i
  | .dataUpdate fullname oldMatch _ modifier =>
    if R.isEmpty modifier then (.ok, s)
    else s.onCollection fullname fun c => c.update (R.modify modifier) oldMatch
  | .lobWrite fullname piece offset data =>
    forgive .lobSequenceExists (s.onPiece fullname piece (offset + data.length) (writePiece offset data))
  | .lobUpdate fullname piece offset data =>
    s.onPiece fullname piece (offset + data.length) (updatePiece offset data)
  | .lobRemove fullname piece => forgive .lobSequenceNotExist (s.onPiece fullname piece 0 removePiece)
  | .dummy => (.ok, s)
  | .other kind => R.other kind s

def exec (s : Store) (r : Record μ κ) : Option Store :=
  if (R.replay s r).1 = .ok then some (R.replay s r).2 else none

end Replayer

/-! ### The unit of a record -/

def hashValue (data : List UInt8) : Nat :=
  ((Md5.md5 data).take 4).foldl (fun n x => n * 2 ^ 8 + x.toNat) 0

def calcIndex (bitSize : Nat) (data : List UInt8) : Fin (2 ^ bitSize) :=
  if bitSize = 0 then ⟨0, Nat.two_pow_pos _⟩
  else ⟨hashValue data / 2 ^ (32 - bitSize) % 2 ^ bitSize, Nat.mod_lt _ (Nat.two_pow_pos _)⟩

def LobPiece.bytes (p : LobPiece) : List UInt8 := p.oid ++ Md5.littleEndian p.sequence 4

def Store.paralla (s : Store) (fullname : Name) : Bool :=
  match s.collections fullname with
  | some c => c.uniqueIdxNum ≤ 1 && c.textIdxNum = 0 && !c.capped
  | none => false

/-- The unit that `replayByBucket` chooses, or none if the record is replayed when the bucket is empty. -/
def Store.bucketID (s : Store) (bitSize : Nat) : Record μ κ → Option (Fin (2 ^ bitSize))
  | .dataInsert fullname obj | .dataDelete fullname obj =>
    if s.paralla fullname then obj.idEle.map fun i => calcIndex bitSize i.value else none
  | .dataUpdate fullname oldMatch newMatch _ =>
    if oldMatch.same newMatch && s.paralla fullname then some (calcIndex bitSize oldMatch.value) else none
  | .lobWrite _ piece _ _ | .lobUpdate _ piece _ _ | .lobRemove _ piece => some (calcIndex bitSize piece.bytes)
  | .dummy => some ⟨0, Nat.two_pow_pos _⟩
  | .other _ => none

end SequoiaDB.Cls

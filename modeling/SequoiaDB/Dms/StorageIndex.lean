import SequoiaDB.Dms.DataOps
import SequoiaDB.Lib.TwoViews

/-!
# The indexes of a collection

`_dmsStorageIndex` keeps the indexes of a collection in step with its records.  An index is modelled as the set of its
entries, a key and the address of a record each.  Keys occur in two forms: as objects, which key sets and the merge of
an update compare with `woCompare`, and as `ixmKey`, which is what an index stores and compares.
-/

namespace SequoiaDB.Dms.StorageIndex

open Lib

variable {O K E : Type*}

def IXM_KEY_MAX_SIZE : Nat := 1000

/-- Key objects with their comparison, and the keys of an index. -/
structure KeyOrder (K E : Type*) where
  /-- `BSONObj::woCompare` -/
  woCompare : K → K → Ordering
  /-- `ixmKeyOwned`, up to the equality of keys in an index -/
  key : K → E
  dataSize : E → Nat
  isUndefined : E → Bool
  compare_of_key : ∀ a b, key a = key b → woCompare a b = .eq

/-- An index: `getKeysFromObject`, its two flags and its entries.  The keys of an object are in a `std::set`, which is
sorted if the comparison orders them. -/
structure Index (ko : KeyOrder K E) (O : Type*) where
  keys : O → List K
  unique : Bool
  enforced : Bool
  sorted : ∀ obj, TotalPreorderOn ko.woCompare {k | k ∈ keys obj} →
    (keys obj).Pairwise fun a b => ko.woCompare a b = .lt
  entries : Finset (E × RID)

variable {ko : KeyOrder K E} [DecidableEq E]

/-! ### One key -/

def Index.insertKey (ix : Index ko O) (rid : RID) (e : E) (es : Finset (E × RID)) : Rc × Finset (E × RID) :=
  if IXM_KEY_MAX_SIZE ≤ ko.dataSize e then (.ixmKeyTooLarge, es)
  else if ko.dataSize e = 0 then (.invalidArg, es)
  else if (e, rid) ∈ es then (.ixmIdenticalKey, es)
  else if ix.unique ∧ (ix.enforced ∨ ko.isUndefined e = false) ∧ ∃ x ∈ es, x.1 = e then (.ixmDupKey, es)
  else (.ok, insert (e, rid) es)

def unindexKey (rid : RID) (e : E) (es : Finset (E × RID)) : Bool × Finset (E × RID) :=
  (decide ((e, rid) ∈ es), es.erase (e, rid))

/-! ### The keys of an object -/

def Index.insertKeys (ix : Index ko O) (rid : RID) : List K → Finset (E × RID) → Rc × Finset (E × RID)
  | [], es => (.ok, es)
  | k :: ks, es => andThen (ix.insertKey rid (ko.key k) es) (ix.insertKeys rid ks)

def deleteKeys (ko : KeyOrder K E) (rid : RID) : List K → Finset (E × RID) → Finset (E × RID)
  | [], es => es
  | k :: ks, es => deleteKeys ko rid ks (unindexKey rid (ko.key k) es).2

/-- A key of the original object that the new one does not have; a rollback stops at one that is not found. -/
def dropOriginal (rid : RID) (isRollback : Bool) (e : E) (es : Finset (E × RID))
    (next : Finset (E × RID) → Rc × Finset (E × RID)) : Rc × Finset (E × RID) :=
  let (found, es) := unindexKey rid e es
  if !found && isRollback then (.ok, es) else next es

/-- A key of the new object that the original one does not have; a rollback stops at one that is there. -/
def Index.addNew (ix : Index ko O) (rid : RID) (isRollback : Bool) (e : E) (es : Finset (E × RID))
    (next : Finset (E × RID) → Rc × Finset (E × RID)) : Rc × Finset (E × RID) :=
  match ix.insertKey rid e es with
  | (.ok, es) => next es
  | (rc, es) => if rc = .ixmIdenticalKey && isRollback then (.ok, es) else (rc, es)

/-- The loops of `_indexUpdate` over the two key sets; the first argument bounds the number of steps. -/
def Index.updateLoop (ix : Index ko O) (rid : RID) (isRollback : Bool) :
    Nat → List K → List K → Finset (E × RID) → Rc × Finset (E × RID)
  | 0, _, _, es => (.ok, es)
  | n + 1, a :: as, b :: bs, es =>
    match ko.woCompare a b with
    | .eq => ix.updateLoop rid isRollback n as bs es
    | .lt => dropOriginal rid isRollback (ko.key a) es (ix.updateLoop rid isRollback n as (b :: bs))
    | .gt => ix.addNew rid isRollback (ko.key b) es (ix.updateLoop rid isRollback n (a :: as) bs)
  | n + 1, a :: as, [], es => dropOriginal rid isRollback (ko.key a) es (ix.updateLoop rid isRollback n as [])
  | n + 1, [], b :: bs, es => ix.addNew rid isRollback (ko.key b) es (ix.updateLoop rid isRollback n [] bs)
  | _ + 1, [], [], es => (.ok, es)

def Index.indexUpdate (ix : Index ko O) (rid : RID) (isRollback : Bool) (originalObj newObj : O) : Rc × Index ko O :=
  let keySetOri := ix.keys originalObj
  let keySetNew := ix.keys newObj
  let (rc, es) := ix.updateLoop rid isRollback (keySetOri.length + keySetNew.length) keySetOri keySetNew ix.entries
  (rc, { ix with entries := es })

def Index.indexInsert (ix : Index ko O) (rid : RID) (obj : O) : Rc × Index ko O :=
  let (rc, es) := ix.insertKeys rid (ix.keys obj) ix.entries
  (rc, { ix with entries := es })

def Index.indexDelete (ix : Index ko O) (rid : RID) (obj : O) : Index ko O :=
  { ix with entries := deleteKeys ko rid (ix.keys obj) ix.entries }

/-! ### All indexes -/

def eachIndex (f : Index ko O → Rc × Index ko O) : List (Index ko O) → Rc × List (Index ko O)
  | [] => (.ok, [])
  | ix :: ixs =>
    match f ix with
    | (.ok, ix) =>
      let (rc, ixs) := eachIndex f ixs
      (rc, ix :: ixs)
    | (rc, ix) => (rc, ix :: ixs)

def indexSU (ko : KeyOrder K E) (O : Type*) : Data.IndexSU O (List (Index ko O)) where
  indexesInsert ixs obj rid := eachIndex (fun ix => ix.indexInsert rid obj) ixs
  indexesUpdate ixs originalObj newObj rid isRollback :=
    eachIndex (fun ix => ix.indexUpdate rid isRollback originalObj newObj) ixs
  indexesDelete ixs obj rid := eachIndex (fun ix => (.ok, ix.indexDelete rid obj)) ixs

end SequoiaDB.Dms.StorageIndex

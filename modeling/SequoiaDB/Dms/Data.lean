import SequoiaDB.Dms.Basic

/-!
# Records in data extents

`_dmsStorageData` keeps the records of a collection in extents.  The area behind the header of an extent is divided
into records; space that is not in use is a deleted record, on one of twenty delete lists by its size.  A record
that outgrows its space becomes an overflow-from record (`ovf`) that refers to an overflow target (`ovt`).
Records that are neither deleted nor overflow targets are linked by offsets, per extent.

The functions return codes as the source does.  Where the source checks for an error that does not follow from the
state modelled here (a lock, a page that cannot be addressed, the log), the failure is an input: a field of one of
the `Faults` structures.  The indexes are a parameter.
-/

namespace SequoiaDB.Dms.Data

/-! ### Constants -/

def DMS_MIN_RECORD_SZ : Nat := 36

def DMS_MIN_DELETEDRECORD_SZ : Nat := 36

def DMS_MIN_RECORD_DATA_SZ : Nat := 5

def DMS_PAGE_SIZE4K : Nat := 4096

def DMS_SEGMENT_SZ : Nat := 128 * 1024 * 1024

def DMS_BEST_UP_EXTENT_SZ : Nat := 16 * 1024 * 1024

def DMS_RECORDS_PER_EXTENT_SQUARE : Nat := 4

def DMS_COMPRESS_RATIO_THRESHOLD : Nat := 95

def DELETE_LIST_MAX : Nat := 20

def S_MAX_SEARCH : Nat := 3

/-! ### State -/

variable {O : Type*}

/-- `dmsRecordData`: the object, the length of its data, and the original length. -/
structure RecordData (O : Type*) where
  obj : O
  len : Nat
  orgLen : Nat
  isCompressed : Bool

/-- The state of a record, the lower half of its flag. -/
inductive RecState
  | normal
  | ovf
  | ovt
  | deleted
  deriving DecidableEq, Repr

/-- The header of a record and what follows it: `dmsRecord` and, for a deleted record, `dmsDeletedRecord`. -/
structure Record (O : Type*) where
  size : Nat
  state : RecState
  compressed : Bool
  deleting : Bool
  myOffset : Nat
  previousOffset : Option Nat
  nextOffset : Option Nat
  nextRID : Option RID
  ovfRID : Option RID
  data : Option (RecordData O)

def Record.isDeleted (r : Record O) : Bool := r.state = .deleted && !r.compressed && !r.deleting

def Record.setNormalReset (r : Record O) : Record O :=
  { r with state := .normal, compressed := false, deleting := false }

def Record.setData (r : Record O) (data : RecordData O) : Record O :=
  { r with
    data := some data
    ovfRID := none
    compressed := data.isCompressed
    deleting := if data.isCompressed then false else r.deleting }

def Record.setDeleting (r : Record O) : Record O := { r with deleting := true, compressed := false }

def Record.setOvfTo (r : Record O) (rid : RID) : Record O :=
  { r with state := .ovf, ovfRID := some rid, data := none }

structure Extent where
  blockSize : Nat
  recCount : Int
  firstRecordOffset : Option Nat
  lastRecordOffset : Option Nat
  freeSpace : Int
  deriving DecidableEq, Repr

/-- What a collection is created with: the sizes of objects, the compressor if it is ready (the size and the ratio it
gives), the overflow ratio and the page size. -/
structure Config (O : Type*) where
  objsize : O → Nat
  compress : Option (O → Option (Nat × Nat))
  overflowRatio : Nat
  pageSizeSquareRoot : Nat
  objsize_ge : ∀ o, DMS_MIN_RECORD_DATA_SZ ≤ objsize o
  pageSize_ge : 12 ≤ pageSizeSquareRoot
  pageSize_le : pageSizeSquareRoot ≤ 16

def Config.segmentPages (cfg : Config O) : Nat := DMS_SEGMENT_SZ / 2 ^ cfg.pageSizeSquareRoot

/-- The extents of a collection, the records in them, the delete lists and the counters. -/
structure Store (O : Type*) where
  extentIDs : List Nat
  extents : Nat → Extent
  records : RID → Record O
  deleteList : Nat → Option RID
  totalRecords : Int
  totalDataFreeSpace : Int
  totalOrgDataLen : Int
  totalDataLen : Int

def Store.setRecord (st : Store O) (rid : RID) (r : Record O) : Store O :=
  { st with records := Function.update st.records rid r }

def Store.setExtent (st : Store O) (id : Nat) (e : Extent) : Store O :=
  { st with extents := Function.update st.extents id e }

def Store.new (extents : Nat → Extent) (records : RID → Record O) : Store O where
  extentIDs := []
  extents := extents
  records := records
  deleteList := fun _ => none
  totalRecords := 0
  totalDataFreeSpace := 0
  totalOrgDataLen := 0
  totalDataLen := 0

/-- How a function without a handler ends: with a code, or with an exception. -/
inductive Outcome
  | done (rc : Rc)
  | thrown
  deriving DecidableEq, Repr

def Outcome.rc : Outcome → Rc
  | .done rc => rc
  | .thrown => .sys

/-! ### Delete lists -/

def slotLoop : Nat → Nat → Nat
  | 0, _ => 0
  | fuel + 1, n => if n = 0 then 0 else slotLoop fuel (n / 2) + 1

def deleteRecordSlot (size : Nat) : Nat := slotLoop 32 ((size - 1) / 2 ^ 5)

def Store.markDeleted (st : Store O) (rid : RID) (recordSize : Nat) : Store O :=
  let r := st.records rid
  st.setRecord rid { r with
    state := .deleted
    compressed := false
    deleting := false
    size := if recordSize > 0 then recordSize else r.size
    myOffset := rid.offset }

def Store.pushDeleted (st : Store O) (rid : RID) : Store O :=
  let r := st.records rid
  let extent := st.extents rid.extent
  let slot := deleteRecordSlot r.size
  { (st.setExtent rid.extent { extent with freeSpace := extent.freeSpace + r.size }).setRecord rid
      { r with nextRID := st.deleteList slot } with
    totalDataFreeSpace := st.totalDataFreeSpace + r.size
    deleteList := Function.update st.deleteList slot (some rid) }

def Store.saveDeletedRecord (st : Store O) (rid : RID) (recordSize : Nat) : Store O :=
  (st.markDeleted rid recordSize).pushDeleted rid

def mapLoop (id deleteRecordSize : Nat) : Nat → Nat × Nat × Store O → Nat × Nat × Store O
  | 0, s => s
  | fuel + 1, (cur, offset, st) =>
    if cur ≥ deleteRecordSize + DMS_MIN_DELETEDRECORD_SZ then
      mapLoop id deleteRecordSize fuel
        (cur - deleteRecordSize, offset + deleteRecordSize, st.saveDeletedRecord ⟨id, offset⟩ deleteRecordSize)
    else (cur, offset, st)

/-- `_mapExtent2DelList` behind its loop: a page, if the rest is too large for a record, and the rest. -/
def mapRest (id deleteRecordSize : Nat) : Nat × Nat × Store O → Store O
  | (cur, offset, st) =>
    let (cur, offset, st) :=
      if cur > deleteRecordSize then
        (cur - DMS_PAGE_SIZE4K, offset + DMS_PAGE_SIZE4K, st.saveDeletedRecord ⟨id, offset⟩ DMS_PAGE_SIZE4K)
      else (cur, offset, st)
    if cur > 0 then st.saveDeletedRecord ⟨id, offset⟩ cur else st

def Store.mapExtent2DelList (st : Store O) (cfg : Config O) (id : Nat) : Store O :=
  let extent := st.extents id
  if extent.freeSpace < DMS_MIN_RECORD_SZ then st
  else
    let useable := extent.freeSpace.toNat
    let extentSize := extent.blockSize * 2 ^ cfg.pageSizeSquareRoot
    let deleteRecordSize := min useable DMS_RECORD_MAX_SZ
    mapRest id deleteRecordSize (mapLoop id deleteRecordSize useable
      (useable, extentSize - useable, st.setExtent id { extent with freeSpace := 0 }))

/-- `_allocateExtent` with the pages that the space manager found at `id`; the list of extents only grows. -/
def Store.allocateExtent (st : Store O) (cfg : Config O) (id numPages : Nat) : Store O :=
  let extent : Extent := {
    blockSize := numPages
    recCount := 0
    firstRecordOffset := none
    lastRecordOffset := none
    freeSpace := (numPages * 2 ^ cfg.pageSizeSquareRoot - DMS_EXTENT_METADATA_SZ : Nat) }
  Store.mapExtent2DelList { st.setExtent id extent with extentIDs := st.extentIDs ++ [id] } cfg id

/-! ### Reserving space -/

def searchList (st : Store O) (locked : RID → Bool) (requiredSize : Nat) :
    Nat → Nat → Option RID → Option RID → Option (Option RID × RID)
  | 0, _, _, _ => none
  | _ + 1, _, _, none => none
  | fuel + 1, i, pre, some rid =>
    if i < S_MAX_SEARCH then
      let r := st.records rid
      if r.isDeleted && requiredSize ≤ r.size then
        -- a record that is locked does not count as searched
        if locked rid then searchList st locked requiredSize fuel i (some rid) r.nextRID else some (pre, rid)
      else searchList st locked requiredSize fuel (i + 1) (some rid) r.nextRID
    else none

def searchSlots (st : Store O) (locked : RID → Bool) (requiredSize : Nat) : List Nat → Option (Nat × Option RID × RID)
  | [] => none
  | j :: js =>
    match searchList st locked requiredSize (st.totalDataFreeSpace.toNat + 1) 0 none (st.deleteList j) with
    | some (pre, rid) => some (j, pre, rid)
    | none => searchSlots st locked requiredSize js

def Store.unlinkDeleted (st : Store O) (j : Nat) (pre : Option RID) (rid : RID) : Store O :=
  let next := (st.records rid).nextRID
  match pre with
  | none => { st with deleteList := Function.update st.deleteList j next }
  | some p => st.setRecord p { st.records p with nextRID := next }

def Store.takeSpace (st : Store O) (rid : RID) : Store O :=
  let size := (st.records rid).size
  let extent := st.extents rid.extent
  { st.setExtent rid.extent { extent with freeSpace := extent.freeSpace - size } with
    totalDataFreeSpace := st.totalDataFreeSpace - size }

def reqPages (cfg : Config O) (requiredSize : Nat) : Nat :=
  let expandSize := requiredSize * 2 ^ DMS_RECORDS_PER_EXTENT_SQUARE
  let expandSize :=
    if expandSize > DMS_BEST_UP_EXTENT_SZ then
      if requiredSize < DMS_BEST_UP_EXTENT_SZ then DMS_BEST_UP_EXTENT_SZ else requiredSize
    else expandSize
  let pages := (expandSize + DMS_EXTENT_METADATA_SZ + 2 ^ cfg.pageSizeSquareRoot - 1) / 2 ^ cfg.pageSizeSquareRoot
  max (min pages cfg.segmentPages) 1

/-- Failures while space is reserved: in front of the search, or when the extent of the record found cannot be
written, which is after the record was taken off its list. -/
structure ReserveFaults where
  entry : Option Failure := none
  extent : Bool := false

/-- `_reserveFromDeleteList`; `allocs` are the extents that the space manager finds, one after the other. -/
def reserveFromDeleteList (cfg : Config O) (locked : RID → Bool) (requiredSize : Nat) (f : ReserveFaults) :
    List Nat → Store O → Rc × Store O × Option RID
  | allocs, st =>
    match f.entry with
    | some rc => (rc.val, st, none)
    | none =>
      let slot := deleteRecordSlot requiredSize
      if slot ≥ DELETE_LIST_MAX then (.sys, st, none)
      else
        match searchSlots st locked requiredSize ((List.range DELETE_LIST_MAX).drop slot) with
        | some (j, pre, rid) =>
          let st := st.unlinkDeleted j pre rid
          if f.extent then (.sys, st, none) else (.ok, st.takeSpace rid, some rid)
        | none =>
          match allocs with
          | [] => (.dmsNoSpc, st, none)
          | id :: allocs =>
            reserveFromDeleteList cfg locked requiredSize f allocs
              (st.allocateExtent cfg id (reqPages cfg requiredSize))

end SequoiaDB.Dms.Data

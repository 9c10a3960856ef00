import SequoiaDB.Dms.Data

/-!
# Operations on records

`insertRecord`, `updateRecord` and `deleteRecord` of `_dmsStorageDataCommon` with the routines of
`_dmsStorageData` below them.  Locks of other sessions, the extents that the space manager finds and the failures are
inputs of an operation.
-/

namespace SequoiaDB.Dms.Data

variable {O ι : Type*}

/-! ### Putting a record into reserved space -/

/-- Failures of `_extentInsertRecord`: the lock, the address of the record, saving the rest of the space, the address
of the extent, the address of the last record. -/
structure InsertFaults where
  lock : Option Failure := none
  pointer : Bool := false
  split : Bool := false
  extent : Bool := false
  last : Bool := false

def Store.splitRecord (st : Store O) (rid : RID) (needRecordSize : Nat) : Store O :=
  let r := st.records rid
  let st := st.saveDeletedRecord ⟨rid.extent, r.myOffset + needRecordSize⟩ (r.size - needRecordSize)
  st.setRecord rid { st.records rid with size := needRecordSize }

def Store.setLast (st : Store O) (id offset : Nat) : Store O :=
  let extent := st.extents id
  st.setExtent id { extent with
    lastRecordOffset := some offset
    firstRecordOffset := some (extent.firstRecordOffset.getD offset) }

def Store.countRecord (st : Store O) (id : Nat) : Store O :=
  let extent := st.extents id
  { st.setExtent id { extent with recCount := extent.recCount + 1 } with totalRecords := st.totalRecords + 1 }

def Store.linkLast (st : Store O) (id : Nat) (rid : RID) : Store O :=
  let myOffset := (st.records rid).myOffset
  let last := (st.extents id).lastRecordOffset
  let st := st.countRecord id
  match last with
  | none => st.setLast id myOffset
  | some offset =>
    let prev : RID := ⟨id, offset⟩
    let st := st.setRecord prev { st.records prev with nextOffset := some myOffset }
    let st := st.setRecord rid { st.records rid with previousOffset := some offset }
    st.setLast id myOffset

/-- The part of `_extentInsertRecord` that links the record; an exception at the last record comes behind the
counters. -/
def Store.linkRecord (st : Store O) (id : Nat) (rid : RID) (f : InsertFaults) : Outcome × Store O :=
  if f.extent then (.thrown, st)
  else if (st.extents id).lastRecordOffset ≠ none ∧ f.last then (.thrown, st.countRecord id)
  else (.done .ok, st.linkLast id rid)

def Store.addData (st : Store O) (data : RecordData O) : Store O :=
  { st with
    totalOrgDataLen := st.totalOrgDataLen + data.orgLen
    totalDataLen := st.totalDataLen + data.len }

def Store.placeRecord (st : Store O) (rid : RID) (data : RecordData O) (needRecordSize : Nat) : Store O :=
  let r := st.records rid
  let st := st.setRecord rid r.setNormalReset
  let st := if r.size - needRecordSize > DMS_MIN_RECORD_SZ then st.splitRecord rid needRecordSize else st
  st.setRecord rid { (st.records rid).setData data with
    nextOffset := none
    previousOffset := none }

def Store.extentInsertRecord (st : Store O) (id : Nat) (rid : RID) (data : RecordData O) (needRecordSize : Nat)
    (isInsert : Bool) (f : InsertFaults) : Outcome × Store O :=
  match f.lock with
  | some rc => (.done rc.val, st)
  | none =>
    if f.pointer then (.thrown, st)
    else
      let r := st.records rid
      if r.size < needRecordSize then (.done .invalidArg, st)
      else if !data.isCompressed && data.len < DMS_MIN_RECORD_DATA_SZ then (.done .invalidArg, st)
      else if r.size - needRecordSize > DMS_MIN_RECORD_SZ && f.split then (.done .sys, st.setRecord rid r.setNormalReset)
      else
        let st := st.placeRecord rid data needRecordSize
        if isInsert then
          match st.linkRecord id rid f with
          | (.done .ok, st) => (.done .ok, st.addData data)
          | s => s
        else (.done .ok, st.addData data)

/-! ### Removing a record -/

/-- Failures of `_extentRemoveRecord`: the lock, the address of the extent, of the record or of the one in front of
it, the address of the record behind it (after the one in front was changed), saving the space. -/
structure RemoveFaults where
  lock : Bool := false
  pointer : Bool := false
  next : Bool := false
  save : Bool := false

def Store.relinkPrev (st : Store O) (id : Nat) (prevOffset nextOffset : Option Nat) : Store O :=
  match prevOffset with
  | none => st
  | some o => st.setRecord ⟨id, o⟩ { st.records ⟨id, o⟩ with nextOffset := nextOffset }

def Store.relinkNext (st : Store O) (id : Nat) (prevOffset nextOffset : Option Nat) : Store O :=
  match nextOffset with
  | none => st
  | some o => st.setRecord ⟨id, o⟩ { st.records ⟨id, o⟩ with previousOffset := prevOffset }

def Store.relinkEnds (st : Store O) (id offset : Nat) (prevOffset nextOffset : Option Nat) (decCount : Bool) : Store O :=
  let extent := st.extents id
  let extent := if extent.firstRecordOffset = some offset then { extent with firstRecordOffset := nextOffset } else extent
  let extent := if extent.lastRecordOffset = some offset then { extent with lastRecordOffset := prevOffset } else extent
  if decCount then
    { st.setExtent id { extent with recCount := extent.recCount - 1 } with totalRecords := st.totalRecords - 1 }
  else st.setExtent id extent

def Store.extentRemoveRecord (st : Store O) (id : Nat) (rid : RID) (decCount : Bool) (f : RemoveFaults) :
    Outcome × Store O :=
  if f.lock then (.done .sys, st)
  else if f.pointer then (.thrown, st)
  else
    let r := st.records rid
    let save := fun st : Store O => if f.save then (Outcome.done .sys, st) else (.done .ok, st.saveDeletedRecord rid 0)
    if r.state = .ovt then save st
    else
      let st := st.relinkPrev rid.extent r.previousOffset r.nextOffset
      if r.nextOffset ≠ none ∧ f.next then (.thrown, st)
      else
        let st := st.relinkNext rid.extent r.previousOffset r.nextOffset
        save (st.relinkEnds id rid.offset r.previousOffset r.nextOffset decCount)

/-! ### Records and indexes -/

/-- The index operations of `_dmsStorageIndex`. -/
structure IndexSU (O ι : Type*) where
  indexesInsert : ι → O → RID → Rc × ι
  indexesUpdate : ι → O → O → RID → Bool → Rc × ι
  indexesDelete : ι → O → RID → Rc × ι

/-- A collection: its records and its indexes. -/
structure State (O ι : Type*) where
  store : Store O
  index : ι

def Config.recordData (cfg : Config O) (obj : O) : RecordData O :=
  let size := cfg.objsize obj
  match cfg.compress.bind fun c => c obj with
  | some (compressedSize, ratio) =>
    if compressedSize + 4 < size ∧ ratio < DMS_COMPRESS_RATIO_THRESHOLD then ⟨obj, compressedSize, size, true⟩
    else ⟨obj, size, size, false⟩
  | none => ⟨obj, size, size, false⟩

def RecordData.diskLen (data : RecordData O) : Nat := if data.isCompressed then data.len + 4 else data.len

def Config.overflowSize (cfg : Config O) (size : Nat) : Nat :=
  if cfg.overflowRatio > 0 then (size + (size * cfg.overflowRatio + 50) % 2 ^ 32 / 100) % 2 ^ 32 else size

def Config.finalRecordSize (cfg : Config O) (size : Nat) : Nat :=
  min DMS_RECORD_MAX_SZ (align4 (cfg.overflowSize size + DMS_RECORD_METADATA_SZ))

def Store.ovfTarget (st : Store O) (rid : RID) : Option RID :=
  if (st.records rid).state = .ovf then (st.records rid).ovfRID else none

def Store.dataRecord (st : Store O) (rid : RID) : Record O :=
  let r := st.records rid
  if r.state = .ovf then st.records (r.ovfRID.getD rid) else r

def Store.extractData (st : Store O) (cfg : Config O) (rid : RID) : Option (RecordData O) :=
  let r := st.dataRecord rid
  r.data.map fun d => ⟨d.obj, if r.compressed then cfg.objsize d.obj else d.len, d.len, false⟩

/-- The old data of a record, as `updateRecord` and `deleteRecord` take it from the caller or from the record. -/
def Store.oldData (st : Store O) (cfg : Config O) (rid : RID) (dataPtr : Option O) : Option (RecordData O) :=
  match dataPtr with
  | none => st.extractData cfg rid
  | some obj =>
    let orgLen :=
      if (st.records rid).compressed then ((st.dataRecord rid).data.map RecordData.len).getD 0 else cfg.objsize obj
    some ⟨obj, cfg.objsize obj, orgLen, false⟩

/-- The data counters when data goes away; the two lengths are exchanged in the data that was read. -/
def Store.subData (st : Store O) (old : RecordData O) : Store O :=
  { st with
    totalDataLen := st.totalDataLen - old.orgLen
    totalOrgDataLen := st.totalOrgDataLen - old.len }

/-! ### Deleting -/

/-- Failures of `deleteRecord`: in front of everything, before the indexes are touched, while the record or its
overflow target is removed; and the code of writing the log, if there is one. -/
structure DeleteFaults where
  entry : Option Failure := none
  extract : Option Failure := none
  remove : RemoveFaults := {}
  removeOvf : RemoveFaults := {}
  log : Option Rc := none

/-- The first half of `deleteRecord`: the index entries and the data counters.  The code of the indexes is kept, but
does not stop the function. -/
def State.deleteKeys (s : State O ι) (cfg : Config O) (idx : IndexSU O ι) (rid : RID) (dataPtr : Option O)
    (f : DeleteFaults) : Except Rc (Rc × State O ι) :=
  match f.extract with
  | some rc => .error rc.val
  | none =>
    match s.store.oldData cfg rid dataPtr with
    | none => .error .corruptedRecord
    | some old =>
      let (rc, ix) := idx.indexesDelete s.index old.obj rid
      .ok (rc, ⟨s.store.subData old, ix⟩)

def Store.removeRecord (st : Store O) (rid : RID) (decCount : Bool) (f : DeleteFaults) : Rc × Store O :=
  let ovfRID := st.ovfTarget rid
  match st.extentRemoveRecord rid.extent rid decCount f.remove with
  | (.done .ok, st) =>
    match ovfRID with
    | none => (.ok, st)
    | some ovf =>
      match st.extentRemoveRecord rid.extent ovf false f.removeOvf with
      | (.done _, st) => (.ok, st)
      | (.thrown, st) => (.sys, st)
  | (o, st) => (o.rc, st)

def Store.markDeleting (st : Store O) (rid : RID) : Store O :=
  let extent := st.extents rid.extent
  { (st.setRecord rid (st.records rid).setDeleting).setExtent rid.extent
      { extent with recCount := extent.recCount - 1 } with
    totalRecords := st.totalRecords - 1 }

def State.dropRecord (s : State O ι) (rid : RID) (isDeleting hasWait : Bool) (f : DeleteFaults) (rc : Rc) :
    Rc × State O ι :=
  if hasWait then (f.log.getD rc, { s with store := s.store.markDeleting rid })
  else
    match s.store.removeRecord rid (!isDeleting) f with
    | (.ok, st) => (if isDeleting then .ok else f.log.getD .ok, { s with store := st })
    | (rc, st) => (rc, { s with store := st })

def State.deleteRecord (s : State O ι) (cfg : Config O) (idx : IndexSU O ι) (rid : RID) (dataPtr : Option O)
    (hasWait : Bool) (f : DeleteFaults) : Rc × State O ι :=
  match f.entry with
  | some rc => (rc.val, s)
  | none =>
    let r := s.store.records rid
    match r.state with
    | .ovt =>
      match s.store.extentRemoveRecord rid.extent rid true f.remove with
      | (.done _, st) => (.ok, { s with store := st })
      | (.thrown, st) => (.sys, { s with store := st })
    | .deleted => (.dmsRecordNotexist, s)
    | _ =>
      if hasWait && r.deleting then (.ok, s)
      else
        match if r.deleting then .ok (.ok, s) else s.deleteKeys cfg idx rid dataPtr f with
        | .error rc => (rc, s)
        | .ok (rc, s) => s.dropRecord rid r.deleting hasWait f rc

/-! ### Inserting -/

/-- Failures of `insertRecord`: before space is reserved, while it is reserved, before and while the record is put
there, when the log is written; then of `_onInsertFail`: giving the space back, or deleting the record. -/
structure InsertOpFaults where
  entry : Option Failure := none
  reserve : ReserveFaults := {}
  validate : Option Failure := none
  insert : InsertFaults := {}
  log : Option Rc := none
  giveBack : Bool := false
  rollback : DeleteFaults := {}

/-- What the environment contributes to an operation: the locks that other sessions hold, the extents that the space
manager finds, and whether another session waits for the record. -/
structure Env where
  locked : RID → Bool
  allocs : List Nat
  hasWait : Bool

def State.giveBack (s : State O ι) (rid : RID) (f : InsertOpFaults) : State O ι :=
  if f.giveBack then s else { s with store := s.store.saveDeletedRecord rid 0 }

def State.insertReserved (s : State O ι) (cfg : Config O) (idx : IndexSU O ι) (env : Env) (obj : O)
    (f : InsertOpFaults) (rid : RID) : Rc × State O ι :=
  match f.validate with
  | some rc => (rc.val, s.giveBack rid f)
  | none =>
    let data := cfg.recordData obj
    match s.store.extentInsertRecord rid.extent rid data (cfg.finalRecordSize data.diskLen) true f.insert with
    | (.done .ok, st) =>
      let (rc, ix) := idx.indexesInsert s.index obj rid
      let s : State O ι := ⟨st, ix⟩
      let rc := if rc = .ok then f.log.getD .ok else rc
      if rc = .ok then (.ok, s)
      else (rc, (s.deleteRecord cfg idx rid (some obj) env.hasWait f.rollback).2)
    | (o, st) => (o.rc, State.giveBack { s with store := st } rid f)

def State.insertRecord (s : State O ι) (cfg : Config O) (idx : IndexSU O ι) (env : Env) (obj : O)
    (f : InsertOpFaults) : Rc × State O ι :=
  match f.entry with
  | some rc => (rc.val, s)
  | none =>
    if cfg.objsize obj + DMS_RECORD_METADATA_SZ > DMS_RECORD_USER_MAX_SZ then (.dmsRecordTooBig, s)
    else
      let size := cfg.finalRecordSize (cfg.recordData obj).diskLen
      match reserveFromDeleteList cfg env.locked size f.reserve env.allocs s.store with
      | (.ok, st, some rid) => State.insertReserved { s with store := st } cfg idx env obj f rid
      | (rc, st, _) => (rc, { s with store := st })

/-! ### Updating -/

/-- Failures of `updateRecord`: before the indexes are touched, the address of the overflow target, while space is
reserved, the extent of the new overflow target, while it is put there, while the old overflow target is removed,
when the log is written. -/
structure UpdateFaults where
  entry : Option Failure := none
  ovfPointer : Bool := false
  reserve : ReserveFaults := {}
  newExtent : Bool := false
  insert : InsertFaults := {}
  removeOvf : RemoveFaults := {}
  log : Option Rc := none

/-- Removing the old overflow target of an updated record, if there is one; only an exception stops the update. -/
def Store.removeTarget (st : Store O) (ovfRID : Option RID) (f : RemoveFaults) : Bool × Store O :=
  match ovfRID with
  | none => (true, st)
  | some ovf =>
    match st.extentRemoveRecord ovf.extent ovf false f with
    | (.done _, st) => (true, st)
    | (.thrown, st) => (false, st)

def Store.updateInPlace (st : Store O) (rid : RID) (old data : RecordData O) (ovfRID : Option RID) (f : UpdateFaults) :
    Rc × Store O :=
  let st := st.setRecord rid ((st.records rid).setData data)
  match st.removeTarget ovfRID f.removeOvf with
  | (false, st) => (.sys, st)
  | (true, st) =>
    let st := if ovfRID = none then st else st.setRecord rid { st.records rid with state := .normal }
    (.ok, (st.subData old).addData data)

def Store.updateToNew (st : Store O) (cfg : Config O) (env : Env) (rid : RID) (old data : RecordData O)
    (ovfRID : Option RID) (f : UpdateFaults) : Rc × Store O :=
  let size := cfg.finalRecordSize data.diskLen
  match reserveFromDeleteList cfg env.locked size f.reserve env.allocs st with
  | (.ok, st, some new) =>
    if f.newExtent then (.sys, st)
    else
      match st.extentInsertRecord new.extent new data size false f.insert with
      | (.done .ok, st) =>
        let st := st.setRecord new { st.records new with state := .ovt }
        let st := st.setRecord rid ((st.records rid).setOvfTo new)
        match st.removeTarget ovfRID f.removeOvf with
        | (false, st) => (.sys, st)
        | (true, st) => (.ok, st.subData old)
      | (o, st) => (o.rc, st)
  | (rc, st, _) => (rc, st)

def Store.updateData (st : Store O) (cfg : Config O) (env : Env) (rid : RID) (old : RecordData O) (obj : O)
    (f : UpdateFaults) : Rc × Store O :=
  let r := st.records rid
  let ovfRID := st.ovfTarget rid
  if ovfRID ≠ none ∧ f.ovfPointer then (.sys, st)
  else
    let data := cfg.recordData obj
    let dmsRecordSize := data.diskLen + DMS_RECORD_METADATA_SZ
    if dmsRecordSize ≤ r.size then st.updateInPlace rid old data ovfRID f
    else
      match ovfRID with
      | some ovf =>
        if dmsRecordSize ≤ (st.records ovf).size then
          (.ok, ((st.setRecord ovf ((st.records ovf).setData data)).subData old).addData data)
        else st.updateToNew cfg env rid old data (some ovf) f
      | none => st.updateToNew cfg env rid old data none f

def State.extentUpdatedRecord (s : State O ι) (cfg : Config O) (idx : IndexSU O ι) (env : Env) (rid : RID)
    (old : RecordData O) (obj : O) (f : UpdateFaults) : Rc × State O ι :=
  if cfg.objsize obj + DMS_RECORD_METADATA_SZ > DMS_RECORD_USER_MAX_SZ then (.dmsRecordTooBig, s)
  else
    let (rc, ix) := idx.indexesUpdate s.index old.obj obj rid false
    let (rc, st) := if rc = .ok then s.store.updateData cfg env rid old obj f else (rc, s.store)
    if rc = .ok then (.ok, ⟨st, ix⟩)
    else (rc, ⟨st, (idx.indexesUpdate ix obj old.obj rid true).2⟩)

def State.updateRecord (s : State O ι) (cfg : Config O) (idx : IndexSU O ι) (env : Env) (rid : RID)
    (dataPtr : Option O) (obj : O) (f : UpdateFaults) : Rc × State O ι :=
  match f.entry with
  | some rc => (rc.val, s)
  | none =>
    match s.store.oldData cfg rid dataPtr with
    | none => (.corruptedRecord, s)
    | some old => andThen (s.extentUpdatedRecord cfg idx env rid old obj f) fun s => (f.log.getD .ok, s)

end SequoiaDB.Dms.Data

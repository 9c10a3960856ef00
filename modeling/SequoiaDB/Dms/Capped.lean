import SequoiaDB.Dms.Basic
import SequoiaDB.Lib.Bytes
import SequoiaDB.Lib.Chain
import SequoiaDB.Lib.Run

/-!
# Capped collections

`_dmsStorageDataCapped` stores records one behind the other in extents of 32MB.  A record is addressed by a
logical id, computed from the logical id of its extent and its place in the extent; records are removed from
either end only (`popRecord`).  The extents form a doubly linked list.  The last one is the working extent, and
its current description is kept in `ExtentInfo` and written to its header when it is left or popped from.

The bytes of the extents are modelled as memory: a record head is 16 bytes that are read wherever an offset
points, and memory that is not overwritten keeps what was there before.
-/

namespace SequoiaDB.Dms.Capped

open SequoiaDB.Lib

/-! ### Constants -/

def DMS_CAP_EXTENT_SZ : Nat := 32 * 1024 * 1024

def DMS_CAP_EXTENT_BODY_SZ : Nat := DMS_CAP_EXTENT_SZ - DMS_EXTENT_METADATA_SZ

def LOGICAL_ID_TO_INSERT_SZ : Nat := 13

def DMS_INVALID_OFFSET : Int := -1

def DMS_INVALID_LOGICALID : Int := -1

/-! ### State -/

/-- The header of an extent (`dmsExtent`); `inUse` is the flag that `validate` checks. -/
structure Extent where
  inUse : Bool
  logicID : Int
  prevExtent : Option Nat
  nextExtent : Option Nat
  recCount : Nat
  firstRecordOffset : Int
  lastRecordOffset : Int
  freeSpace : Nat
  deriving DecidableEq, Repr

def Extent.init : Extent where
  inUse := true
  logicID := -1
  prevExtent := none
  nextExtent := none
  recCount := 0
  firstRecordOffset := DMS_INVALID_OFFSET
  lastRecordOffset := DMS_INVALID_OFFSET
  freeSpace := DMS_CAP_EXTENT_BODY_SZ

/-- `dmsExtentInfo`, the description of the working extent. -/
structure ExtentInfo where
  id : Option Nat
  extLogicID : Int
  recCount : Nat
  freeSpace : Nat
  firstRecordOffset : Int
  lastRecordOffset : Int
  writePos : Nat
  recNo : Nat
  deriving DecidableEq, Repr

def ExtentInfo.reset : ExtentInfo where
  id := none
  extLogicID := -1
  recCount := 0
  freeSpace := 0
  firstRecordOffset := DMS_INVALID_OFFSET
  lastRecordOffset := DMS_INVALID_OFFSET
  writePos := 0
  recNo := 0

variable (info : ExtentInfo) (cl : Collection)

def ExtentInfo.getNextRecOffset : Nat :=
  info.writePos + DMS_EXTENT_METADATA_SZ

def ExtentInfo.getRecordLogicID : Int :=
  info.extLogicID * DMS_CAP_EXTENT_BODY_SZ + info.writePos

def ExtentInfo.seek (offset : Nat) : ExtentInfo :=
  { info with writePos := offset - DMS_EXTENT_METADATA_SZ, freeSpace := DMS_CAP_EXTENT_SZ - offset }

/-- The counters of `dmsMBStatInfo`. -/
structure Stat where
  totalRecords : Int
  totalDataPages : Int
  totalDataFreeSpace : Int
  totalOrgDataLen : Int
  totalDataLen : Int
  deriving DecidableEq, Repr

/-- `dmsCappedCLOptions`, and the page size of the storage unit. -/
structure Options where
  maxSize : Nat
  maxRecNum : Nat
  overwrite : Bool
  pageSizeSquareRoot : Nat
  deriving DecidableEq, Repr

/-- One capped collection: the headers and the bytes of the extents of the file, the ends of its list of extents,
the working extent and the counters. -/
structure Collection where
  options : Options
  extents : Nat → Extent
  mem : Nat → Mem
  firstExtentID : Option Nat
  lastExtentID : Option Nat
  work : ExtentInfo
  stat : Stat

def Collection.new (options : Options) (extents : Nat → Extent) (mem : Nat → Mem) : Collection where
  options := options
  extents := extents
  mem := mem
  firstExtentID := none
  lastExtentID := none
  work := .reset
  stat := ⟨0, 0, 0, 0, 0⟩

def Collection.setExtent (id : Nat) (e : Extent) : Collection :=
  { cl with extents := Function.update cl.extents id e }

/-! ### Record heads -/

/-- The head of a record (`dmsCappedRecord`): one byte of flags and three bytes with the size less one, the
number of the record in its extent, the logical id. -/
structure RecordHead where
  flagAndSize : Nat
  recNo : Nat
  logicalID : Int
  deriving DecidableEq, Repr

def RecordHead.isNormal (r : RecordHead) : Bool := r.flagAndSize % 16 = 0

def RecordHead.getSize (r : RecordHead) : Nat := r.flagAndSize / 256 + 1

def int64 (n : Nat) : Int := if n < 2 ^ 63 then n else n - 2 ^ 64

def headBytes (size recNo : Nat) (logicalID : Int) : List UInt8 :=
  leBytes 4 ((size - 1) * 256) ++ leBytes 4 recNo ++ leBytes 8 (logicalID % 2 ^ 64).toNat

def Collection.readHead (id : Nat) (offset : Nat) : RecordHead where
  flagAndSize := leNat ((cl.mem id).read offset 4)
  recNo := leNat ((cl.mem id).read (offset + 4) 4)
  logicalID := int64 (leNat ((cl.mem id).read (offset + 8) 8))

/-! ### Logical ids -/

def int32 (x : Int) : Int := Int.bmod x (2 ^ 32)

def recLid2ExtLidAndOffset (logicalID : Int) : Int × Int :=
  if logicalID < 0 then (-1, DMS_INVALID_OFFSET)
  else (int32 (logicalID / DMS_CAP_EXTENT_BODY_SZ), logicalID % DMS_CAP_EXTENT_BODY_SZ + DMS_EXTENT_METADATA_SZ)

def extLidAndOffset2RecLid (extLID offset : Int) : Int :=
  if extLID = -1 ∨ offset < DMS_EXTENT_METADATA_SZ then DMS_INVALID_LOGICALID
  else extLID * DMS_CAP_EXTENT_BODY_SZ + offset - DMS_EXTENT_METADATA_SZ

def Collection.chainBound : Nat :=
  match cl.firstExtentID, cl.lastExtentID with
  | some f, some l => ((cl.extents l).logicID - (cl.extents f).logicID + 2).toNat
  | _, _ => 1

def logicID2ExtIDLoop (cl : Collection) (extLID : Int) : Nat → Option Nat → Option Nat
  | 0, _ => none
  | _ + 1, none => none
  | fuel + 1, some id =>
    let extent := cl.extents id
    if extLID < extent.logicID then none
    else if extLID = extent.logicID then some id
    else if some id = cl.work.id then none
    else logicID2ExtIDLoop cl extLID fuel extent.nextExtent

def Collection.logicID2ExtID (logicalID : Int) : Option Nat :=
  if logicalID < 0 then none
  else logicID2ExtIDLoop cl (recLid2ExtLidAndOffset logicalID).1 cl.chainBound cl.firstExtentID

def Collection.extractRecLID (logicalID : Int) : Except Rc (Nat × Nat) :=
  if logicalID < 0 then .error .invalidArg
  else
    match cl.logicID2ExtID logicalID with
    | none => .error .invalidArg
    | some id =>
      let offset := (recLid2ExtLidAndOffset logicalID).2
      let invalid : Bool :=
        if some id = cl.work.id then
          offset < cl.work.firstRecordOffset || offset > cl.work.lastRecordOffset
        else
          offset < (cl.extents id).firstRecordOffset || offset > (cl.extents id).lastRecordOffset
      if invalid then .error .invalidArg
      else
        let record := cl.readHead id offset.toNat
        if !record.isNormal || record.recNo = 0 || logicalID ≠ record.logicalID then .error .invalidArg
        else .ok (id, offset.toNat)

/-! ### The list of extents -/

def Collection.addExtent2Meta (id : Nat) : Collection :=
  let extent := { cl.extents id with prevExtent := cl.lastExtentID }
  let cl := if cl.firstExtentID = none then { cl with firstExtentID := some id } else cl
  let cl := match extent.prevExtent with
    | some p =>
      let prev := cl.extents p
      (cl.setExtent p { prev with nextExtent := some id }).setExtent id
        { extent with logicID := int32 (prev.logicID + 1) }
    | none => cl.setExtent id { extent with logicID := -1 + 1 }
  let pages := DMS_CAP_EXTENT_SZ / 2 ^ cl.options.pageSizeSquareRoot
  { cl with
    lastExtentID := some id
    stat := { cl.stat with totalDataPages := cl.stat.totalDataPages + pages } }

def Collection.unlinkPrev (id : Nat) (prevExtent nextExtent : Option Nat) : Collection :=
  match prevExtent with
  | some p => cl.setExtent p { cl.extents p with nextExtent := nextExtent }
  | none => if cl.firstExtentID = some id then { cl with firstExtentID := nextExtent } else cl

def Collection.unlinkNext (id : Nat) (prevExtent nextExtent : Option Nat) : Collection :=
  match nextExtent with
  | some n => cl.setExtent n { cl.extents n with prevExtent := prevExtent }
  | none => if cl.lastExtentID = some id then { cl with lastExtentID := prevExtent } else cl

def Collection.removeExtentFromMeta (id : Nat) : Collection :=
  let extent := cl.extents id
  let cl := cl.unlinkPrev id extent.prevExtent extent.nextExtent
  let cl := cl.unlinkNext id extent.prevExtent extent.nextExtent
  let pages := DMS_CAP_EXTENT_SZ / 2 ^ cl.options.pageSizeSquareRoot
  { cl with stat := { cl.stat with totalDataPages := cl.stat.totalDataPages - pages } }

def Collection.allocateExtent (found : Option Nat) : Rc × Collection :=
  match found with
  | none => (.dmsNoSpc, cl)
  | some id =>
    let cl := (cl.setExtent id .init).addExtent2Meta id
    -- _onAllocExtent
    (.ok, { cl with stat := { cl.stat with
      totalDataFreeSpace := cl.stat.totalDataFreeSpace + DMS_CAP_EXTENT_BODY_SZ } })

def Collection.freeExtent (id : Nat) : Rc × Collection :=
  if (cl.extents id).inUse = false then (.sys, cl)
  else
    let cl := cl.removeExtentFromMeta id
    (.ok, cl.setExtent id { cl.extents id with inUse := false, logicID := -1 })

/-! ### The working extent -/

def Collection.syncWorkExtInfo : Collection :=
  match cl.work.id with
  | none => cl
  | some id => cl.setExtent id { cl.extents id with
      recCount := cl.work.recCount
      freeSpace := cl.work.freeSpace
      firstRecordOffset := cl.work.firstRecordOffset
      lastRecordOffset := cl.work.lastRecordOffset }

def Collection.attachWorkExt (id : Nat) : Rc × Collection :=
  let extent := cl.extents id
  let work : ExtentInfo := { cl.work with
    id := some id
    extLogicID := extent.logicID
    recCount := extent.recCount
    freeSpace := extent.freeSpace
    firstRecordOffset := extent.firstRecordOffset
    lastRecordOffset := extent.lastRecordOffset }
  if extent.lastRecordOffset = DMS_INVALID_OFFSET then
    (.ok, { cl with work := { work with writePos := 0, recNo := 0 } })
  else
    let record := cl.readHead id extent.lastRecordOffset.toNat
    if record.isNormal then
      (.ok, { cl with work := { work with
        writePos := align4 (extent.lastRecordOffset.toNat + record.getSize - DMS_EXTENT_METADATA_SZ)
        recNo := record.recNo } })
    else (.sys, { cl with work := work })

def Collection.detachWorkExt : Collection :=
  if cl.work.id = none then cl else { cl.syncWorkExtInfo with work := .reset }

def Collection.switchWorkExt (id : Option Nat) : Rc × Collection :=
  match id with
  | none => (.invalidArg, cl)
  | some id =>
    let r := cl.detachWorkExt.attachWorkExt id
    if r.1 = .ok then r
    else
      match cl.work.id with
      | some old => (r.1, (r.2.attachWorkExt old).2)
      | none => r

def Collection.attachNextExt : Rc × Collection :=
  match cl.work.id with
  | none => cl.switchWorkExt cl.firstExtentID
  | some id =>
    if (cl.extents id).inUse then cl.switchWorkExt (cl.extents id).nextExtent else (.sys, cl)

/-! ### Removing records -/

def Collection.countRecNumAndSize (id : Nat) (beginOffset endOffset : Int) :
    Except Rc (Nat × Nat) :=
  if beginOffset = DMS_INVALID_OFFSET ∨ beginOffset > endOffset then .ok (0, 0)
  else
    let beginRec := cl.readHead id beginOffset.toNat
    let endRec := cl.readHead id endOffset.toNat
    if beginRec.isNormal = false ∨ endRec.isNormal = false then .error .sys
    else .ok (((endRec.recNo : Int) - beginRec.recNo + 1) % 2 ^ 32 |>.toNat,
      (endOffset - beginOffset + endRec.getSize).toNat)

def Stat.remove (st : Stat) (recNum totalSize : Nat) : Stat :=
  { st with
    totalRecords := st.totalRecords - recNum
    totalOrgDataLen := st.totalOrgDataLen - totalSize
    totalDataLen := st.totalDataLen - totalSize }

def Collection.recycleActiveExt (id : Nat) : Rc × Collection :=
  let extent := cl.extents id
  match cl.countRecNumAndSize id extent.firstRecordOffset extent.lastRecordOffset with
  | .error rc => (rc, cl)
  | .ok (recNum, totalSize) =>
    let stat := cl.stat.remove recNum totalSize
    let stat := { stat with totalDataFreeSpace := stat.totalDataFreeSpace - extent.freeSpace }
    { cl with stat := stat }.freeExtent id

def recycleLoop (target : Nat) (endExtID : Option Nat) : Nat → Collection → Option Nat → Rc × Collection
  | 0, cl, _ => (.sys, cl)
  | _ + 1, cl, none => (.ok, cl)
  | fuel + 1, cl, some beginExtID =>
    if beginExtID = target then (.ok, cl)
    else
      andThen (cl.recycleActiveExt beginExtID) fun cl =>
        if some beginExtID = endExtID then (.ok, cl)
        else recycleLoop target endExtID fuel cl (cl.extents beginExtID).nextExtent

def Collection.recycleExtents (target : Nat) (direction : Int) : Rc × Collection :=
  let extent := cl.extents target
  if direction ≥ 0 then
    let beginExtID := cl.firstExtentID
    let endExtID := some (extent.prevExtent.getD target)
    recycleLoop target endExtID cl.chainBound { cl with firstExtentID := some target } beginExtID
  else
    let beginExtID := some (extent.nextExtent.getD target)
    let endExtID := cl.lastExtentID
    recycleLoop target endExtID cl.chainBound { cl with lastExtentID := some target } beginExtID

def prevRecLoop (cl : Collection) (id : Nat) (offset : Int) : Nat → Int → Int → Except Rc Int
  | 0, _, _ => .error .sys
  | fuel + 1, searchOffset, prev =>
    if searchOffset < offset then
      let record := cl.readHead id searchOffset.toNat
      if record.isNormal then prevRecLoop cl id offset fuel (searchOffset + record.getSize) searchOffset
      else .error .sys
    else if searchOffset = offset then .ok prev
    else .error .sys

def Collection.getPrevRecOffset (id : Nat) (offset : Int) : Except Rc Int :=
  let (firstOffset, lastOffset) :=
    if cl.work.id = some id then (cl.work.firstRecordOffset, cl.work.lastRecordOffset)
    else ((cl.extents id).firstRecordOffset, (cl.extents id).lastRecordOffset)
  if cl.work.id ≠ some id ∧ (cl.extents id).inUse = false then .error .sys
  else if offset = DMS_INVALID_OFFSET ∨ offset < firstOffset ∨ offset > lastOffset then .error .invalidArg
  else prevRecLoop cl id offset ((offset - firstOffset).toNat + 1) firstOffset DMS_INVALID_OFFSET

def sub32 (a b : Nat) : Nat := (a + 2 ^ 32 - b) % 2 ^ 32

def Collection.finishPop (id : Nat) (extent : Extent) (stat : Stat) (recNum totalSize : Nat) :
    Collection :=
  { cl.setExtent id { extent with recCount := sub32 extent.recCount recNum } with
    stat := stat.remove recNum totalSize }

def Collection.popCounted (id : Nat) (offset : Nat) (direction : Int) (recNum totalSize : Nat) : Rc × Collection :=
  let extent := cl.extents id
  let popAll : Bool :=
    if direction ≥ 0 then (offset : Int) = extent.lastRecordOffset else (offset : Int) = extent.firstRecordOffset
  if popAll then
    (.ok, cl.finishPop id { extent with
      firstRecordOffset := DMS_INVALID_OFFSET
      lastRecordOffset := DMS_INVALID_OFFSET
      freeSpace := if direction < 0 then extent.freeSpace + totalSize else extent.freeSpace }
      cl.stat recNum totalSize)
  else if direction ≥ 0 then
    (.ok, cl.finishPop id { extent with firstRecordOffset := extent.firstRecordOffset + totalSize }
      cl.stat recNum totalSize)
  else
    match cl.getPrevRecOffset id offset with
    | .error rc => (rc, cl)
    | .ok prevOffset =>
      (.ok, cl.finishPop id { extent with lastRecordOffset := prevOffset, freeSpace := extent.freeSpace + totalSize }
        { cl.stat with totalDataFreeSpace := cl.stat.totalDataFreeSpace + totalSize } recNum totalSize)

def Collection.popFromActiveExt (id : Nat) (offset : Nat) (direction : Int) : Rc × Collection :=
  let extent := cl.extents id
  if extent.inUse = false then (.sys, cl)
  else
    let (startOffset, endOffset) : Int × Int :=
      if direction ≥ 0 then (extent.firstRecordOffset, offset) else (offset, extent.lastRecordOffset)
    match cl.countRecNumAndSize id startOffset endOffset with
    | .error rc => (rc, cl)
    | .ok (recNum, totalSize) => cl.popCounted id offset direction recNum totalSize

def Collection.shrinkForward (id : Nat) (offset : Nat) : Rc × Collection :=
  let popWorkExt : Bool := cl.work.id = some id
  let cl := if popWorkExt then cl.syncWorkExtInfo else cl
  let expectOffset := cl.work.getNextRecOffset
  andThen (if cl.firstExtentID = some id then (.ok, cl) else cl.recycleExtents id 1) fun cl =>
    if (cl.extents id).inUse = false then (.sys, cl)
    else
      andThen (if (offset : Int) = (cl.extents id).lastRecordOffset ∧ popWorkExt = false then
          match (cl.extents id).nextExtent with
          | none => (.sys, cl)
          | some next => cl.recycleExtents next 1
        else cl.popFromActiveExt id offset 1)
        fun cl =>
          if popWorkExt then
            match cl.lastExtentID with
            | none => (.invalidArg, cl)
            | some last => andThen (cl.attachWorkExt last) fun cl =>
                (.ok, { cl with work := cl.work.seek expectOffset })
          else (.ok, cl)

def Collection.shrinkBackward (id : Nat) (offset : Nat) : Rc × Collection :=
  let cl := cl.syncWorkExtInfo
  andThen (if cl.lastExtentID = some id then (.ok, cl) else cl.recycleExtents id (-1)) fun cl =>
    if (cl.extents id).inUse = false then (.sys, cl)
    else
      andThen (cl.popFromActiveExt id offset (-1)) fun cl =>
        andThen (cl.attachWorkExt id) fun cl => (.ok, { cl with work := cl.work.seek offset })

def Collection.popRecord (logicalID : Int) (direction : Int) : Rc × Collection :=
  match cl.extractRecLID logicalID with
  | .error rc => (rc, cl)
  | .ok (id, offset) =>
    if cl.stat.totalRecords = 0 then (.ok, cl)
    else if direction ≥ 0 then cl.shrinkForward id offset
    else cl.shrinkBackward id offset

/-! ### Inserting records -/

/-- `_prepareInsertData` for a record whose elements behind `_id` are the bytes `body`, with the logical id that
`_extentInsertRecord` fills in. -/
def recordData (body : List UInt8) (logicalID : Int) : List UInt8 :=
  leBytes 4 (4 + LOGICAL_ID_TO_INSERT_SZ + body.length) ++ [18, 95, 105, 100, 0] ++
    leBytes 8 (logicalID % 2 ^ 64).toNat ++ body

def recordDataLen (body : List UInt8) : Nat := 4 + LOGICAL_ID_TO_INSERT_SZ + body.length

def finalRecordSize (size : Nat) : Nat :=
  min DMS_RECORD_MAX_SZ (align4 (size + LOGICAL_ID_TO_INSERT_SZ + DMS_RECORD_METADATA_SZ))

def Collection.recycleWorkExt (id : Nat) : Rc × Collection :=
  match cl.countRecNumAndSize id cl.work.firstRecordOffset cl.work.lastRecordOffset with
  | .error rc => (rc, cl)
  | .ok (_, totalSize) =>
    let currExtLID := (cl.extents id).logicID
    let cl := cl.setExtent id { Extent.init with logicID := int32 (currExtLID + 1) }
    let stat := cl.stat.remove cl.work.recCount totalSize
    { cl with stat := { stat with totalDataFreeSpace := DMS_CAP_EXTENT_BODY_SZ } }.attachWorkExt id

def Collection.recycleOneExtent : Rc × Collection :=
  match cl.firstExtentID with
  | none => (.sys, cl)
  | some id => if cl.work.id = some id then cl.recycleWorkExt id else cl.recycleActiveExt id

def Collection.numExceedLimit : Bool :=
  0 < cl.options.maxRecNum ∧ cl.stat.totalRecords + 1 > cl.options.maxRecNum

def Collection.sizeExceedLimit : Bool :=
  cl.stat.totalDataPages * 2 ^ cl.options.pageSizeSquareRoot + DMS_CAP_EXTENT_SZ > cl.options.maxSize

def Collection.limitCheck (exceeded : Bool) : Rc × Collection :=
  if exceeded then
    if cl.options.overwrite then cl.recycleOneExtent else (.ossUpToLimit, cl)
  else (.ok, cl)

def Collection.limitProcess (sizeReq : Nat) : Rc × Collection :=
  andThen (cl.limitCheck cl.numExceedLimit) fun cl =>
    if cl.work.freeSpace < sizeReq then cl.limitCheck cl.sizeExceedLimit else (.ok, cl)

/-- `_allocateExtent` and `_attachNextExt`, as both branches of `_allocRecordSpace` call them. -/
def Collection.appendExtent (size : Nat) (found : Option Nat) : Rc × Collection :=
  andThen (cl.allocateExtent found) fun cl =>
    if cl.work.id = none ∨ cl.work.freeSpace < size then cl.attachNextExt else (.ok, cl)

def Collection.allocRecordSpace (size : Nat) (found : Option Nat) : Rc × Collection :=
  if cl.work.id = none then cl.appendExtent size found
  else
    andThen (cl.limitProcess size) fun cl =>
      if cl.work.freeSpace < size then cl.appendExtent size found else (.ok, cl)

def ExtentInfo.updateWorkExtStat (totalSize : Nat) : ExtentInfo :=
  { info with
    recCount := info.recCount + 1
    recNo := info.recNo + 1
    freeSpace := info.freeSpace - totalSize
    firstRecordOffset :=
      if info.firstRecordOffset = DMS_INVALID_OFFSET then info.writePos + DMS_EXTENT_METADATA_SZ
      else info.firstRecordOffset
    lastRecordOffset := info.writePos + DMS_EXTENT_METADATA_SZ
    writePos := align4 (info.writePos + totalSize) }

def Collection.extentInsertRecord (id : Nat) (body : List UInt8) (recordSize : Nat) :
    Collection :=
  let offset := cl.work.getNextRecOffset
  let lid := cl.work.getRecordLogicID
  let bytes := headBytes recordSize (cl.work.recNo + 1) lid ++ recordData body lid
  let cl := { cl with
    mem := Function.update cl.mem id ((cl.mem id).write offset bytes)
    work := cl.work.updateWorkExtStat recordSize
    stat := { cl.stat with
      totalRecords := cl.stat.totalRecords + 1
      totalDataFreeSpace := cl.stat.totalDataFreeSpace - recordSize
      totalOrgDataLen := cl.stat.totalOrgDataLen + recordSize
      totalDataLen := cl.stat.totalDataLen + recordSize } }
  if cl.work.recCount = 1 then
    cl.setExtent id { cl.extents id with firstRecordOffset := cl.work.firstRecordOffset }
  else cl

/-- `insertRecord` of a record with the elements `body`; `found` is the extent that the space manager would find. -/
def Collection.insertRecord (body : List UInt8) (found : Option Nat) : Rc × Collection :=
  if recordDataLen body + DMS_RECORD_METADATA_SZ > DMS_RECORD_USER_MAX_SZ then (.dmsRecordTooBig, cl)
  else
    let size := finalRecordSize (recordDataLen body)
    andThen (cl.allocRecordSpace size found) fun cl =>
      match cl.work.id with
      | none => (.sys, cl)
      | some id => if (cl.extents id).inUse then (.ok, cl.extentInsertRecord id body size) else (.sys, cl)

/-! ### Reading the collection -/

/-- A stored record: where it is, its logical id and the bytes of its elements. -/
structure Stored where
  extLID : Int
  offset : Nat
  logicalID : Int
  body : List UInt8
  deriving DecidableEq, Repr

/-- The records of extent `id` from `offset` up to the one at `last`, each found behind the one before. -/
def recordsFrom (cl : Collection) (id : Nat) (last : Int) : Nat → Nat → List Stored
  | 0, _ => []
  | fuel + 1, offset =>
    if (offset : Int) > last then []
    else
      let head := cl.readHead id offset
      let dataLen := leNat ((cl.mem id).read (offset + DMS_RECORD_METADATA_SZ) 4)
      let elements := offset + DMS_RECORD_METADATA_SZ + 4 + LOGICAL_ID_TO_INSERT_SZ
      { extLID := (cl.extents id).logicID
        offset := offset
        logicalID := head.logicalID
        body := (cl.mem id).read elements (dataLen - 4 - LOGICAL_ID_TO_INSERT_SZ) } ::
        recordsFrom cl id last fuel (offset + head.getSize)

def Collection.recordRange (id : Nat) : Int × Int :=
  if cl.work.id = some id then (cl.work.firstRecordOffset, cl.work.lastRecordOffset)
  else ((cl.extents id).firstRecordOffset, (cl.extents id).lastRecordOffset)

def Collection.extentRecords (id : Nat) : List Stored :=
  let (first, last) := cl.recordRange id
  if first = DMS_INVALID_OFFSET then [] else recordsFrom cl id last ((last - first).toNat + 1) first.toNat

def recordsOfChain (cl : Collection) : Nat → Option Nat → List Stored
  | 0, _ => []
  | _ + 1, none => []
  | fuel + 1, some id => cl.extentRecords id ++ recordsOfChain cl fuel (cl.extents id).nextExtent

def Collection.storedRecords : List Stored :=
  recordsOfChain cl cl.chainBound cl.firstExtentID

end SequoiaDB.Dms.Capped

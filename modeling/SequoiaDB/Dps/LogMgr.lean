import SequoiaDB.Dps.LogRecord

/-!
# The log buffer

`_dpsReplicaLogMgr` keeps the end of the log in a ring of pages.  `preparePages` gives a record its place in
the ring and its log sequence number; `_mergeLogs` copies the bytes of the record to that place afterwards.  A
record never crosses the end of a log file: the rest of the file is filled with a dummy record instead.

The waits for free space are part of the model: another thread flushes full pages while a caller waits, and
how many of them it flushes is an input.  A call that waits in vain does not return (`none`).
-/

namespace SequoiaDB.Dps

open Lib

abbrev DPS_DEFAULT_PAGE_SIZE : Nat := 64 * 1024

@[ext]
structure Lsn where
  offset : Nat
  version : Nat
  deriving DecidableEq, Repr

namespace Lsn

def invalid (l : Lsn) : Bool :=
  l.offset = DPS_INVALID_LSN_OFFSET || l.version = DPS_INVALID_LSN_VERSION

def none (version : Nat) : Lsn := { offset := DPS_INVALID_LSN_OFFSET, version := version }

/-- Comparison of versions or of offsets, where the invalid one comes first. -/
def compareWith (invalid a b : Nat) : Ordering :=
  if a = invalid ∧ b = invalid then .eq
  else if a ≠ invalid ∧ b = invalid then .gt
  else if a = invalid ∧ b ≠ invalid then .lt
  else Ord.compare a b

def compareVersion (l : Lsn) (version : Nat) : Ordering := compareWith DPS_INVALID_LSN_VERSION l.version version

def compareOffset (l : Lsn) (offset : Nat) : Ordering := compareWith DPS_INVALID_LSN_OFFSET l.offset offset

theorem compareOffset_of_valid {l : Lsn} {n : Nat} (hl : l.offset ≠ DPS_INVALID_LSN_OFFSET)
    (hn : n ≠ DPS_INVALID_LSN_OFFSET) : l.compareOffset n = Ord.compare l.offset n := by
  rw [compareOffset, compareWith, if_neg fun h => hl h.1, if_neg fun h => hn h.2, if_neg fun h => hl h.1]

def compare (l m : Lsn) : Ordering := (l.compareVersion m.version).then (l.compareOffset m.offset)

end Lsn

/-- `_dpsLogPage`: the buffer of the page, of which the first `length` bytes are allocated. -/
structure LogPage where
  length : Nat
  beginLSN : Lsn
  buf : Mem

def LogPage.getLastSize (p : LogPage) : Nat := DPS_DEFAULT_PAGE_SIZE - p.length

structure LogConf where
  pageNum : Nat
  logFileSz : Nat
  pageNum_pos : 0 < pageNum
  totalSize_lt : pageNum * DPS_DEFAULT_PAGE_SIZE < 2 ^ 32
  header_lt : HEADER_LEN < logFileSz
  element_le : HEADER_LEN + DPS_RECORD_ELE_HEADER_LEN ≤ logFileSz
  aligned : 4 ∣ logFileSz

namespace LogConf

variable (c : LogConf)

def totalSize : Nat := c.pageNum * DPS_DEFAULT_PAGE_SIZE

/-- `DPS_SUB_BIT`: the complement of a number of pages that is a power of 2, and 0 otherwise. -/
def subBit : Nat :=
  if c.pageNum &&& (c.pageNum - 1) = 0 then 2 ^ 32 - 1 - c.pageNum else 0

def page (n : Nat) : Nat :=
  if c.subBit = 0 then n % c.pageNum else n &&& c.subBit

def incPageID (pageID : Nat) : Nat :=
  if c.pageNum ≤ pageID + 1 then 0 else pageID + 1

end LogConf

/-- The state of `_dpsReplicaLogMgr`. -/
structure LogMgr where
  pages : Nat → LogPage
  idleSize : Nat
  work : Nat
  beginSub : Nat
  rollFlag : Bool
  lsn : Lsn
  currentLsn : Lsn
  incVersion : Bool
  queue : List Nat

/-- `dpsPageMeta`: the place of a record in the ring. -/
structure PageMeta where
  offset : Nat
  beginSub : Nat
  pageNum : Nat
  totalLen : Nat
  deriving DecidableEq, Repr

namespace LogMgr

def new (c : LogConf) (buf : Nat → Mem) : LogMgr where
  pages i := { length := 0, beginLSN := Lsn.none DPS_INVALID_LSN_VERSION, buf := buf i }
  idleSize := c.totalSize
  work := 0
  beginSub := 0
  rollFlag := false
  lsn := { offset := 0, version := 0 }
  currentLsn := Lsn.none DPS_INVALID_LSN_VERSION
  incVersion := false
  queue := []

def setPage (s : LogMgr) (i : Nat) (p : LogPage) : LogMgr :=
  { s with pages := Function.update s.pages i p }

def flushPage (s : LogMgr) : LogMgr :=
  match s.queue with
  | [] => s
  | p :: q =>
    { s with
      pages := Function.update s.pages p { s.pages p with length := 0 }
      idleSize := s.idleSize + (s.pages p).length
      queue := q }

/-- The wait for free space, during which `k` pages are flushed. -/
def awaitIdle (k need : Nat) (s : LogMgr) : Option LogMgr :=
  let s := flushPage^[k] s
  if s.idleSize < need then none else some s

/-- The LSN at which a page begins is set, for the first page of a record and for the ones behind it. -/
def setBeginLSN (first : Bool) (s : LogMgr) : LogMgr :=
  let p := s.pages s.work
  if first then
    if p.beginLSN.invalid ∨
        DPS_DEFAULT_PAGE_SIZE < (s.lsn.offset + 2 ^ 64 - p.beginLSN.offset) % 2 ^ 64 then
      s.setPage s.work { p with beginLSN := s.lsn }
    else s
  else s.setPage s.work { p with beginLSN := Lsn.none s.lsn.version }

def nextPage (c : LogConf) (s : LogMgr) : LogMgr :=
  let work := c.incPageID s.work
  if s.rollFlag = false ∧ s.beginSub ≠ work then { s with work := work, rollFlag := true }
  else if s.beginSub = work ∧ s.rollFlag = true then
    { s with work := work, beginSub := c.incPageID s.beginSub }
  else { s with work := work }

def allocateInPage (c : LogConf) (first : Bool) (need : Nat) (s : LogMgr) : Nat × LogMgr :=
  let s := s.setBeginLSN first
  let p := s.pages s.work
  let allocLen := min p.getLastSize need
  let p := { p with length := p.length + allocLen }
  let s := s.setPage s.work p
  (allocLen, if p.getLastSize = 0 then s.nextPage c else s)

def allocateLoop (c : LogConf) : Nat → Nat → Nat → LogMgr → Option (Nat × LogMgr)
  | 0, _, _, _ => none
  | fuel + 1, pageNum, need, s =>
    let r := s.allocateInPage c (pageNum = 0) need
    if need - r.1 = 0 then some (pageNum + 1, r.2)
    else allocateLoop c fuel (pageNum + 1) (need - r.1) r.2

/-- `_allocate`: `len` bytes from the working page on.  In a sound ring every round but the
last one takes a byte, so that more rounds than bytes mean that the loop does not end. -/
def allocate (c : LogConf) (len : Nat) (s : LogMgr) : Option (PageMeta × LogMgr) := do
  let r ← allocateLoop c (len + 1) 0 len s
  some ({ offset := (s.pages s.work).length, beginSub := s.work, pageNum := r.1, totalLen := len },
    { r.2 with idleSize := r.2.idleSize - len })

def push2SendQueue (c : LogConf) (pageMeta : PageMeta) (s : LogMgr) : LogMgr :=
  let full := (List.range pageMeta.pageNum).map (fun i => c.page (pageMeta.beginSub + i))
    |>.filter fun p => (s.pages p).getLastSize = 0
  { s with queue := s.queue ++ full }

def append (c : LogConf) (k len : Nat) (s : LogMgr) : Option (PageMeta × LogMgr) := do
  let s ← s.awaitIdle k len
  let (pageMeta, s) ← s.allocate c len
  let s := s.push2SendQueue c pageMeta
  some (pageMeta, { s with currentLsn := s.lsn, lsn := { s.lsn with offset := s.lsn.offset + len } })

def newVersion (s : LogMgr) : LogMgr :=
  if s.lsn.version = DPS_INVALID_LSN_VERSION ∨ s.incVersion = true then
    { s with lsn := { s.lsn with version := s.lsn.version + 1 }, incVersion := false }
  else s

def stamp (s : LogMgr) (head : LogRecordHeader) : LogRecordHeader :=
  { head with lsn := s.lsn.offset, preLsn := s.currentLsn.offset, version := s.lsn.version }

end LogMgr

/-- The length that a record of `len` bytes gets at `offset`: the rest of the log file, if the record would
leave room for no more than a header. -/
def fillLength (c : LogConf) (offset len : Nat) : Nat :=
  if (offset + len) / c.logFileSz ≠ (offset + len + HEADER_LEN) / c.logFileSz then
    c.logFileSz - offset % c.logFileSz
  else len

def crossesFile (c : LogConf) (offset len : Nat) : Prop :=
  offset / c.logFileSz ≠ (offset + len - 1) / c.logFileSz

instance (c : LogConf) (offset len : Nat) : Decidable (crossesFile c offset len) :=
  inferInstanceAs (Decidable (_ ≠ _))

/-- The number of pages that are flushed during the waits of `preparePages`. -/
structure Waits where
  start : Nat
  dummy : Nat
  record : Nat

/-- What `preparePages` leaves in `dpsMergeInfo`: the header and the place of the record, and those of the
dummy record in front of it. -/
structure Prepared where
  dummy : Option (LogRecordHeader × PageMeta)
  head : LogRecordHeader
  pageMeta : PageMeta

namespace LogMgr

/-- The dummy record that fills the log file, if a record of `len` bytes does not fit into it. -/
def closeFile (c : LogConf) (k len : Nat) (s : LogMgr) :
    Option (Option (LogRecordHeader × PageMeta) × LogMgr) :=
  if crossesFile c s.lsn.offset len then do
    let dummyLogSize := c.logFileSz - s.lsn.offset % c.logFileSz
    let head := s.stamp { LogRecordHeader.clear with length := dummyLogSize, type := LOG_TYPE_DUMMY }
    let (pageMeta, s) ← s.append c k dummyLogSize
    some (some (head, pageMeta), s)
  else some (none, s)

def prepareNew (c : LogConf) (w : Waits) (head : LogRecordHeader) (s : LogMgr) :
    Option (Prepared × LogMgr) := do
  let s := s.newVersion
  let (dummy, s) ← s.closeFile c w.dummy head.length
  let head := { head with length := fillLength c s.lsn.offset head.length }
  let (pageMeta, s') ← s.append c w.record head.length
  some ({ dummy := dummy, head := s.stamp head, pageMeta := pageMeta }, s')

/-- `preparePages` for a row of another node, behind the first wait and the check of its LSN. -/
def prepareRow (c : LogConf) (w : Waits) (head : LogRecordHeader) (s : LogMgr) :
    Option (Prepared × LogMgr) := do
  let s := s.newVersion
  let (pageMeta, s) ← s.append c w.record head.length
  -- the version of the row is taken behind `_allocate`, before `_currentLsn` is set
  some ({ dummy := none, head := head, pageMeta := pageMeta },
    { s with lsn.version := head.version, currentLsn.version := head.version })

def preparePages (c : LogConf) (w : Waits) (isRow : Bool) (head : LogRecordHeader) (s : LogMgr) :
    Option ((Rc × Option Prepared) × LogMgr) :=
  if c.totalSize < head.length then some ((.sys, none), s)
  else do
    let s ← s.awaitIdle w.start head.length
    if isRow then
      if s.lsn.offset ≠ head.lsn then some ((.sys, none), s)
      else do
        let (p, s) ← s.prepareRow c w head
        some ((.ok, some p), s)
    else do
      let (p, s) ← s.prepareNew c w head
      some ((.ok, some p), s)

end LogMgr

/-! ### Copying a record into the ring -/

/-- The pages and the place behind the bytes copied so far. -/
structure Cursor where
  pages : Nat → LogPage
  workSub : Nat
  offset : Nat

namespace Cursor

def fill (c : LogConf) (src : List UInt8) (x : Cursor) : Cursor :=
  let i := c.page x.workSub
  let p := x.pages i
  let cpylen := min (DPS_DEFAULT_PAGE_SIZE - x.offset) src.length
  let pages := Function.update x.pages i { p with buf := p.buf.write x.offset (src.take cpylen) }
  if x.offset + cpylen = DPS_DEFAULT_PAGE_SIZE then
    { pages := pages, workSub := x.workSub + 1, offset := 0 }
  else { pages := pages, workSub := x.workSub, offset := x.offset + cpylen }

def mergePageLoop (c : LogConf) : Nat → List UInt8 → Cursor → Cursor
  | 0, _, x => x
  | fuel + 1, src, x =>
    if src = [] then x
    else mergePageLoop c fuel (src.drop (min (DPS_DEFAULT_PAGE_SIZE - x.offset) src.length)) (x.fill c src)

def mergePage (c : LogConf) (src : List UInt8) (x : Cursor) : Cursor :=
  mergePageLoop c src.length src x

def mergeEle (c : LogConf) (x : Cursor) (e : Ele) : Cursor :=
  (x.mergePage c (e.tag :: leBytes 4 e.value.length)).mergePage c e.value

/-- A stop marker is written if there is room for it; the difference is computed without sign. -/
def mergeStop (c : LogConf) (head : LogRecordHeader) (es : List Ele) (x : Cursor) : Cursor :=
  if bodySize es % 2 ^ 32 ≤ (head.length + 2 ^ 64 - DPS_RECORD_ELE_HEADER_LEN - HEADER_LEN) % 2 ^ 64 then
    x.mergePage c (List.replicate DPS_RECORD_ELE_HEADER_LEN 0)
  else x

end Cursor

def mergeLogs (c : LogConf) (head : LogRecordHeader) (es : List Ele) (pageMeta : PageMeta)
    (pages : Nat → LogPage) : Nat → LogPage :=
  let x : Cursor := { pages := pages, workSub := pageMeta.beginSub, offset := pageMeta.offset }
  let x := x.mergePage c head.bytes
  if head.type = LOG_TYPE_DUMMY then x.pages
  else ((es.foldl (Cursor.mergeEle c) x).mergeStop c head es).pages

/-- `writeData`: the dummy record, if there is one, and the record are copied to their places. -/
def writeData (c : LogConf) (p : Prepared) (es : List Ele) (s : LogMgr) : LogMgr :=
  let pages := match p.dummy with
    | none => s.pages
    | some (head, pageMeta) => mergeLogs c head [] pageMeta s.pages
  { s with pages := mergeLogs c p.head es p.pageMeta pages }

def bytesFrom (c : LogConf) (s : LogMgr) (pageMeta : PageMeta) : Mem := fun i =>
  let x := pageMeta.beginSub * DPS_DEFAULT_PAGE_SIZE + pageMeta.offset + i
  (s.pages (x / DPS_DEFAULT_PAGE_SIZE % c.pageNum)).buf (x % DPS_DEFAULT_PAGE_SIZE)

end SequoiaDB.Dps

import SequoiaDB.Rc
import SequoiaDB.Lib.Bytes

/-!
# Log records

A log record is a header of 32 bytes and a list of elements, each of them a tag, a length and a value.  The
number of elements is not stored: `load` walks over the bytes behind the header until it meets the tag 0 or
has used up the length in the header.
-/

namespace SequoiaDB.Dps

open Lib

abbrev DPS_MERGE_BLOCK_MAX_DATA : Nat := 20
abbrev DPS_INVALID_TAG : UInt8 := 0
abbrev DPS_RECORD_ELE_HEADER_LEN : Nat := 5
abbrev DPS_INVALID_LSN_OFFSET : Nat := 2 ^ 64 - 1
abbrev DPS_INVALID_LSN_VERSION : Nat := 0
abbrev LOG_TYPE_DUMMY : Nat := 0

abbrev HEADER_LEN : Nat := 32

abbrev DMS_RECORD_USER_MAX_SZ : Nat := 0x01000000 - 4096

/-- The longest record that `load` accepts. -/
abbrev DPS_RECORD_MAX_LEN : Nat := 127 + 127 + 2 + HEADER_LEN + DMS_RECORD_USER_MAX_SZ * 2

def ossRoundUpToMultipleX (x y : Nat) : Nat :=
  x + (y - 1) - (x + (y - 1)) % y

structure LogRecordHeader where
  lsn : Nat
  preLsn : Nat
  length : Nat
  version : Nat
  type : Nat
  reserved1 : Nat
  reserved2 : Nat
  deriving DecidableEq, Repr

def LogRecordHeader.clear : LogRecordHeader :=
  { lsn := DPS_INVALID_LSN_OFFSET, preLsn := DPS_INVALID_LSN_OFFSET, length := 0,
    version := DPS_INVALID_LSN_VERSION, type := LOG_TYPE_DUMMY, reserved1 := 0, reserved2 := 0 }

def LogRecordHeader.bytes (h : LogRecordHeader) : List UInt8 :=
  leBytes 8 h.lsn ++ (leBytes 8 h.preLsn ++ (leBytes 4 h.length ++ (leBytes 4 h.version ++
    (leBytes 2 h.type ++ (leBytes 2 h.reserved1 ++ leBytes 4 h.reserved2)))))

def LogRecordHeader.read (m : Mem) : LogRecordHeader where
  lsn := leNat (m.read 0 8)
  preLsn := leNat (m.read 8 8)
  length := leNat (m.read 16 4)
  version := leNat (m.read 20 4)
  type := leNat (m.read 24 2)
  reserved1 := leNat (m.read 26 2)
  reserved2 := leNat (m.read 28 4)

structure Ele where
  tag : UInt8
  value : List UInt8
  deriving DecidableEq, Repr

namespace Ele

def size (e : Ele) : Nat := DPS_RECORD_ELE_HEADER_LEN + e.value.length

def bytes (e : Ele) : List UInt8 :=
  e.tag :: (leBytes 4 e.value.length ++ e.value)

end Ele

def bodyBytes (es : List Ele) : List UInt8 := es.flatMap Ele.bytes

def bodySize (es : List Ele) : Nat := (es.map Ele.size).sum

@[simp] theorem LogRecordHeader.length_bytes (h : LogRecordHeader) : h.bytes.length = HEADER_LEN := by
  simp [bytes]

@[simp] theorem Ele.length_bytes (e : Ele) : e.bytes.length = e.size := by
  simp only [bytes, size, DPS_RECORD_ELE_HEADER_LEN, List.length_cons, List.length_append, length_leBytes]
  omega

theorem bodySize_cons (e : Ele) (es : List Ele) : bodySize (e :: es) = e.size + bodySize es := by
  simp [bodySize]

@[simp] theorem length_bodyBytes (es : List Ele) : (bodyBytes es).length = bodySize es := by
  simp [bodyBytes, bodySize, List.length_flatMap]

/-- `dpsLogRecord`: the header and the elements in use. -/
structure LogRecord where
  head : LogRecordHeader
  eles : List Ele
  deriving DecidableEq, Repr

namespace LogRecord

def clear (r : LogRecord) : LogRecord where
  head := if r.head.lsn ≠ DPS_INVALID_LSN_OFFSET then .clear else r.head
  eles := []

def push (r : LogRecord) (e : Ele) : Rc × LogRecord :=
  if r.eles.length = DPS_MERGE_BLOCK_MAX_DATA then (.dpsCorruptedLog, r)
  else (.ok, { r with eles := r.eles ++ [e] })

def alignedLen (es : List Ele) : Nat :=
  ossRoundUpToMultipleX (bodySize es % 2 ^ 32 + HEADER_LEN) 4 % 2 ^ 32

def findEle (tag : UInt8) : List Ele → Option Ele
  | [] => none
  | e :: es =>
    if e.tag = DPS_INVALID_TAG then none
    else if e.tag = tag then some e
    else findEle tag es

def find (r : LogRecord) (tag : UInt8) : Option Ele := findEle tag r.eles

/-- The loop of `loadBody` behind the first `loadSize` bytes, with `slots` free places for elements. -/
def loadBody (m : Mem) (totalSize : Int) (slots loadSize : Nat) : Rc × List Ele :=
  if totalSize ≤ loadSize then (.ok, [])
  else
    let tag := m (HEADER_LEN + loadSize)
    let valueSize := leNat (m.read (HEADER_LEN + loadSize + 1) 4)
    match slots with
    | 0 => (.dpsCorruptedLog, [])
    | slots + 1 =>
      if tag = DPS_INVALID_TAG then (.ok, [])
      else if totalSize - loadSize < valueSize then (.dpsCorruptedLog, [])
      else
        let value := m.read (HEADER_LEN + loadSize + DPS_RECORD_ELE_HEADER_LEN) valueSize
        let r := loadBody m totalSize slots (loadSize + (valueSize + DPS_RECORD_ELE_HEADER_LEN))
        (r.1, { tag := tag, value := value } :: r.2)

def load (m : Mem) : Rc × LogRecord :=
  let head := LogRecordHeader.read m
  if head.length < HEADER_LEN ∨ DPS_RECORD_MAX_LEN < head.length then
    (.dpsCorruptedLog, { head := head, eles := [] })
  else if head.type = LOG_TYPE_DUMMY then (.ok, { head := head, eles := [] })
  else
    let totalSize : Int := head.length - HEADER_LEN - DPS_RECORD_ELE_HEADER_LEN
    let r := loadBody m totalSize DPS_MERGE_BLOCK_MAX_DATA 0
    (r.1, { head := head, eles := r.2 })

end LogRecord

end SequoiaDB.Dps

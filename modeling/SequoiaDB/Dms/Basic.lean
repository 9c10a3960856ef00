import SequoiaDB.Rc

/-!
# Sizes and addresses of records
-/

namespace SequoiaDB.Dms

def DMS_EXTENT_METADATA_SZ : Nat := 36

def DMS_RECORD_METADATA_SZ : Nat := 16

def DMS_RECORD_MAX_SZ : Nat := 0x01000000

def DMS_RECORD_USER_MAX_SZ : Nat := DMS_RECORD_MAX_SZ - 4096

def align4 (x : Nat) : Nat := (x + 3) / 4 * 4

/-- `dmsRecordID`: the extent of a record and its offset there. -/
@[ext]
structure RID where
  extent : Nat
  offset : Nat
  deriving DecidableEq, Repr

end SequoiaDB.Dms

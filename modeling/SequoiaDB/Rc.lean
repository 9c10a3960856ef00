import Mathlib

/-!
# Return codes

The `INT32 rc` of the engine, restricted to the codes that the modelled functions return, and the check
`PD_RC_CHECK` that leaves a function with the first code that is not `SDB_OK`.
-/

namespace SequoiaDB

/-- The `SDB_*` return codes of the modelled functions. -/
inductive Rc
  | ok
  | sys
  | oom
  | noSpc
  | invalidArg
  | dmsNoSpc
  | dmsRecordTooBig
  | ossUpToLimit
  | dmsRecordNotexist
  | dmsNotexist
  | corruptedRecord
  | ixmDupKey
  | ixmKeyTooLarge
  | ixmIdenticalKey
  | ixmKeyNotexist
  | ixmMultipleArray
  | dpsCorruptedLog
  | dpsLogFileOutOfSize
  | dpsTransLockIncompatible
  | dpsTransAppendToWait
  | timeout
  | interrupt
  | perm
  | rtnAutoindexidIsFalse
  | lobSequenceExists
  | lobSequenceNotExist
  | lobIsInUse
  | lobLockConflicted
  | catNoMatchCatalog
  | catCorruption
  | clsNodeNotEnough
  | clsNotPrimary
  | dpsTransNoTrans
  | clsWaitSyncFailed
  | clsReplayLogFailed
  | utilCompressAbort
  | dmsIncompatibleMode
  deriving DecidableEq, Repr

abbrev Failure := { rc : Rc // rc ≠ .ok }

variable {σ : Type*}

/-- `PD_RC_CHECK`: continue with the state reached, or return the code together with the state reached. -/
def andThen (r : Rc × σ) (f : σ → Rc × σ) : Rc × σ :=
  if r.1 = .ok then f r.2 else r

@[simp] theorem andThen_ok (s : σ) (f : σ → Rc × σ) : andThen (.ok, s) f = f s := rfl

theorem andThen_of_ne {x : Rc × σ} (h : x.1 ≠ .ok) (f : σ → Rc × σ) : andThen x f = x := if_neg h

end SequoiaDB

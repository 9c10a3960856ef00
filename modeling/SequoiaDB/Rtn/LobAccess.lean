import SequoiaDB.Rc
import SequoiaDB.Rtn.LobSections

/-!
# Access to a LOB

`_rtnLobAccessManager` keeps one entry for each LOB that is open.  Creating, removing and truncating a LOB excludes
everybody else; any number of readers, or any number of writers, share an entry that counts them.  A writer can lock
sections of the LOB, or the whole LOB, in which case its access id becomes the access id of the entry.

The model is one LOB: its entry, the privileges that are held, and the sections that have been locked with success.
Each call runs under the latch of the bucket or of the entry and is one step.  A run is any sequence of calls by any
access ids; only the holder of a privilege can release it, and it gives it up whatever `releaseAccessPrivilege`
returns, as the LOB streams do.
-/

namespace SequoiaDB.Rtn

open Lib

inductive LobMode
  | createOnly
  | read
  | write
  | remove
  | truncate
  deriving DecidableEq, Repr

namespace LobMode

def ofUInt32 (mode : UInt32) : Option LobMode :=
  if mode = 0x04 then some .read
  else if mode = 0x01 then some .createOnly
  else if mode = 0x08 then some .write
  else if mode = 0x10 then some .remove
  else if mode = 0x20 then some .truncate
  else none

def shared : LobMode → Bool
  | .read | .write => true
  | .createOnly | .remove | .truncate => false

end LobMode

structure LobAccessInfo where
  mode : LobMode
  refCount : Int
  accessId : Int
  lockSections : Option (List LobSection)
  deriving DecidableEq

namespace LobAccessInfo

def new (mode : LobMode) (accessId : Int) : LobAccessInfo where
  mode := mode
  refCount := 0
  accessId := if mode.shared then -1 else accessId
  lockSections := none

variable (info : LobAccessInfo)

def incRefCount : LobAccessInfo :=
  { info with refCount := (info.refCount + 1).bmod (2 ^ 32) }

def decRefCount : LobAccessInfo :=
  { info with refCount := (info.refCount - 1).bmod (2 ^ 32) }

def sections : List LobSection := info.lockSections.getD []

def markWhole (section_ : LobSection) : LobAccessInfo :=
  if section_.whole then { info with accessId := section_.accessId } else info

def lockSection (section_ : LobSection) : Rc × LobAccessInfo :=
  if info.mode ≠ .write then (.sys, info)
  else if info.accessId ≠ -1 then
    if section_.accessId ≠ info.accessId then (.lobLockConflicted, info) else (.ok, info)
  else if section_.whole = true ∧ conflicted info.sections section_.accessId = true then (.lobLockConflicted, info)
  else
    let info := info.markWhole section_
    match addSection info.sections section_ with
    | some sections => (.ok, { info with lockSections := some sections })
    | none => (.lobLockConflicted, { info with lockSections := some info.sections })

def unlockSectionByAccessId (accessId : Int) : Rc × LobAccessInfo :=
  if info.mode ≠ .write then (.sys, info)
  else
    let info := if info.accessId ≠ -1 ∧ accessId = info.accessId then { info with accessId := -1 } else info
    (.ok, { info with lockSections := info.lockSections.map fun l => delSectionById l accessId })

end LobAccessInfo

open LobAccessInfo

def getAccessPrivilege (entry : Option LobAccessInfo) (mode : LobMode) (accessId : Int) : Rc × Option LobAccessInfo :=
  if mode = .write ∧ accessId ≤ -1 then (.sys, entry)
  else
    match entry with
    | some info =>
      match info.mode with
      | .createOnly | .remove | .truncate => (.lobIsInUse, entry)
      | .read => if mode ≠ .read then (.lobIsInUse, entry) else (.ok, some info.incRefCount)
      | .write => if mode ≠ .write then (.lobIsInUse, entry) else (.ok, some info.incRefCount)
    | none =>
      let info := LobAccessInfo.new mode accessId
      (.ok, some (if mode = .read ∨ mode = .write then info.incRefCount else info))

def dropReference (info : LobAccessInfo) : Option LobAccessInfo :=
  if info.decRefCount.refCount ≤ 0 then none else some info.decRefCount

def releaseAccessPrivilege (entry : Option LobAccessInfo) (mode : LobMode) (accessId : Int) :
    Rc × Option LobAccessInfo :=
  match entry with
  | none => (.ok, none)
  | some info =>
    if mode ≠ info.mode then (.sys, entry)
    else if accessId ≠ -1 ∧ info.accessId ≠ -1 ∧ accessId ≠ info.accessId then (.sys, entry)
    else
      match info.mode with
      | .createOnly | .remove | .truncate => (.ok, none)
      | .read => (.ok, dropReference info)
      | .write =>
        if accessId ≤ -1 then (.sys, entry)
        else
          let r := info.unlockSectionByAccessId accessId
          if r.1 = .ok then (.ok, dropReference r.2) else (r.1, some r.2)

/-! ### Runs -/

structure Grant where
  mode : LobMode
  accessId : Int
  deriving DecidableEq

/-- One LOB: its entry, the privileges held, and the sections locked by their holders. -/
structure LobSystem where
  entry : Option LobAccessInfo := none
  grants : List Grant := []
  locked : List LobSection := []
  deriving DecidableEq

inductive LobCall
  | getAccessPrivilege (mode : UInt32) (accessId : Int)
  | lockSection (section_ : LobSection)
  | releaseAccessPrivilege (mode : LobMode) (accessId : Int)
  deriving DecidableEq

namespace LobSystem

variable (s : LobSystem)

def get (mode : UInt32) (accessId : Int) : LobSystem :=
  match LobMode.ofUInt32 mode with
  | none => s
  | some mode =>
    let r := getAccessPrivilege s.entry mode accessId
    if r.1 = .ok then { s with entry := r.2, grants := ⟨mode, accessId⟩ :: s.grants } else { s with entry := r.2 }

def lock (section_ : LobSection) : LobSystem :=
  match s.entry with
  | none => s
  | some info =>
    if ⟨.write, section_.accessId⟩ ∈ s.grants then
      let r := info.lockSection section_
      if r.1 = .ok then { s with entry := some r.2, locked := section_ :: s.locked } else { s with entry := some r.2 }
    else s

def release (mode : LobMode) (accessId : Int) : LobSystem :=
  if ⟨mode, accessId⟩ ∈ s.grants then
    { entry := (releaseAccessPrivilege s.entry mode accessId).2
      grants := s.grants.erase ⟨mode, accessId⟩
      locked := s.locked.filter fun sec => sec.accessId ≠ accessId }
  else s

def step : LobCall → LobSystem
  | .getAccessPrivilege mode accessId => s.get mode accessId
  | .lockSection section_ => s.lock section_
  | .releaseAccessPrivilege mode accessId => s.release mode accessId

def LockedBy (offset : Nat) (accessId : Int) : Prop :=
  ∃ info ∈ s.entry, ∃ sec ∈ info.sections, sec.accessId = accessId ∧ sec.includes offset

def wholeLockedByOther (accessId : Int) : Bool :=
  s.entry.any fun info => info.mode = .write && info.accessId ≠ -1 && info.accessId ≠ accessId

def countFits : Bool := s.entry.all fun info => info.refCount < 2 ^ 31 - 1

def Counted : LobCall → Prop
  | .getAccessPrivilege _ _ => s.countFits = true
  | _ => True

/-- Moreover, a privilege is released only while no other access id has locked the whole LOB. -/
def Orderly : LobCall → Prop
  | .getAccessPrivilege _ _ => s.countFits = true
  | .lockSection _ => True
  | .releaseAccessPrivilege _ accessId => s.wholeLockedByOther accessId = false

instance (s : LobSystem) : ∀ c, Decidable (s.Orderly c)
  | .getAccessPrivilege _ _ => inferInstanceAs (Decidable (s.countFits = true))
  | .lockSection _ => inferInstanceAs (Decidable True)
  | .releaseAccessPrivilege _ accessId => inferInstanceAs (Decidable (s.wholeLockedByOther accessId = false))

/-- Access is exclusive: an entry in a mode that excludes everybody has one holder, all privileges that are held are of
one mode, the sections that have been locked are locked, no byte is locked by two access ids, and when the whole LOB is
locked every locked byte is locked by the access id that has done it. -/
structure Exclusive (s : LobSystem) : Prop where
  oneHolder : ∀ info ∈ s.entry, info.mode.shared = false → ∃ id, s.grants = [⟨info.mode, id⟩]
  oneMode : ∀ g ∈ s.grants, ∀ g' ∈ s.grants, g.mode = g'.mode
  locked : ∀ sec ∈ s.locked, ∀ offset, sec.includes offset → s.LockedBy offset sec.accessId
  oneOwner : ∀ offset id id', s.LockedBy offset id → s.LockedBy offset id' → id = id'
  whole : ∀ info ∈ s.entry, info.mode = .write → info.accessId ≠ -1 →
    ∀ offset id, s.LockedBy offset id → id = info.accessId

/-- Privileges can be given back: the release of a privilege that is held succeeds exactly when no other access id has
locked the whole LOB, and when no privilege is held there is no entry and the LOB can be opened in any mode. -/
structure Releasable (s : LobSystem) : Prop where
  release : ∀ g ∈ s.grants,
    (releaseAccessPrivilege s.entry g.mode g.accessId).1 = .ok ↔ s.wholeLockedByOther g.accessId = false
  open_ : s.grants = [] → s.entry = none ∧
    ∀ mode id, (mode = .write → 0 ≤ id) → (getAccessPrivilege s.entry mode id).1 = .ok

end LobSystem

end SequoiaDB.Rtn

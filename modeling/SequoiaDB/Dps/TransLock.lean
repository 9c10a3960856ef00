import SequoiaDB.Rc
import SequoiaDB.Lib.Run

/-!
# Transaction locks

`dpsTransLock` locks collection spaces, collections and records.  A lock unit holds the sessions that have a lock
(the run list) and the first session that waits for one; the waiting sessions are linked through their own lock
infos.  A lock is taken from the collection space down, with intention locks on the way; if one of the locks is
refused, the ones above it are given back.

The sessions run at the same time.  What a session does while it has the latch of a bucket is one step, together
with what it does to its own lock infos before and behind it.  A session that waits is woken up by an event, and
then tries again; the wait can also end without one.
-/

namespace SequoiaDB.Dps

open Lib Function

/-! ### Lock types and lock ids -/

inductive LockType
  | IS
  | IX
  | S
  | X
  deriving DecidableEq, Repr

namespace LockType

def code : LockType → Nat
  | IS => 0
  | IX => 1
  | S => 2
  | X => 3

def isLockCompatible (first second : LockType) : Bool :=
  first.code ||| second.code != X.code

def upgradeCheck (srcType dstType : LockType) : Bool :=
  ((dstType.code : Int) - srcType.code == 1 && srcType != IX) ||
    ((dstType.code : Int) - srcType.code == 2 && dstType != X)

def isLockMatch (lockType type : LockType) : Bool :=
  lockType == type || type == IS || lockType == X

end LockType

/-- `dpsTransLockId`: a collection space, a collection or a record. -/
inductive LockId
  | collectionSpace (logicCSID : Nat)
  | collection (logicCSID collectionID : Nat)
  | record (logicCSID collectionID recordExtentID recordOffset : Nat)
  deriving DecidableEq, Repr

namespace LockId

def parent : LockId → Option LockId
  | collectionSpace _ => none
  | collection logicCSID _ => some (collectionSpace logicCSID)
  | record logicCSID collectionID _ _ => some (collection logicCSID collectionID)

def space : LockId → LockId
  | collectionSpace logicCSID => collectionSpace logicCSID
  | collection logicCSID _ => collectionSpace logicCSID
  | record logicCSID _ _ _ => collectionSpace logicCSID

def isRecord : LockId → Bool
  | record .. => true
  | _ => false

def path : LockId → List LockId
  | collectionSpace c => [collectionSpace c]
  | collection c m => [collection c m, collectionSpace c]
  | record c m e o => [record c m e o, collection c m, collectionSpace c]

theorem isRecord_of_parent {id p : LockId} (h : id.parent = some p) : p.isRecord = false := by
  cases id <;> cases h <;> rfl

end LockId

/-! ### The calls -/

/-- What is done when a lock is not compatible with the locks of other sessions: wait for it, give up, or be
appended to the waiting sessions and return. -/
inductive How
  | acquire
  | tryAcquire
  | tryAcquireOrAppend
  deriving DecidableEq, Repr

structure Level where
  how : How
  type : LockType
  id : LockId
  deriving DecidableEq, Repr

def acquireIS (how : How) (lockId : LockId) : List Level :=
  (if lockId.parent = none then [] else [⟨how, .IS, lockId.space⟩]) ++ [⟨how, .IS, lockId⟩]

def acquireIX (how : How) (lockId : LockId) : List Level :=
  (if lockId.parent = none then [] else acquireIS how lockId.space) ++ [⟨how, .IX, lockId⟩]

def acquireS (how : How) (lockId : LockId) : List Level :=
  (match lockId.parent with
    | none => []
    | some iLockId => acquireIS how iLockId) ++ [⟨how, .S, lockId⟩]

def acquireX (how : How) (lockId : LockId) : List Level :=
  (match lockId.parent with
    | none => []
    | some iLockId => acquireIX how iLockId) ++ [⟨how, .X, lockId⟩]

def tryOrAppendX (lockId : LockId) : List Level :=
  (match lockId.parent with
    | none => []
    | some iLockId => acquireIX .tryAcquire iLockId) ++ [⟨.tryAcquireOrAppend, .X, lockId⟩]

inductive LockCall
  | acquireX (lockId : LockId)
  | acquireS (lockId : LockId)
  | acquireIX (lockId : LockId)
  | acquireIS (lockId : LockId)
  | tryX (lockId : LockId)
  | tryS (lockId : LockId)
  | tryIX (lockId : LockId)
  | tryIS (lockId : LockId)
  | tryOrAppendX (lockId : LockId)
  | wait (lockId : LockId)
  | release (lockId : LockId)
  deriving DecidableEq, Repr

/-- A session that waits, behind the first section of the function that waits: the type that it sets back if it
gives up (an upgrade) or none (a new lock) and the locks that come next, or `waitLockX`. -/
inductive Resume
  | level (last : Option LockType) (rest : List Level)
  | waitLockX
  deriving DecidableEq, Repr

/-- `gen` tells the lock unit from others that are made for the same id later. -/
structure Waiter where
  id : LockId
  type : LockType
  gen : Nat
  resume : Resume
  deriving DecidableEq, Repr

inductive Doing
  /-- Between two calls, with the return code of the last one. -/
  | idle (rc : Rc)
  | locking (level : Level) (rest : List Level)
  | finding (lockId : LockId)
  | waiting (w : Waiter)
  /-- Woken up, before the next try. -/
  | awake (w : Waiter)
  /-- The wait has ended without a wake-up. -/
  | gaveUp (w : Waiter) (rc : Rc)
  | releasing (lockId : LockId) (rc : Rc)
  deriving DecidableEq, Repr

def Doing.start : List Level → Doing
  | [] => .idle .ok
  | level :: rest => .locking level rest

def Doing.above (lockId : LockId) (rc : Rc) : Doing :=
  match lockId.parent with
  | none => .idle rc
  | some iLockId => .releasing iLockId rc

def LockCall.start : LockCall → Doing
  | .acquireX lockId => .start (Dps.acquireX .acquire lockId)
  | .acquireS lockId => .start (Dps.acquireS .acquire lockId)
  | .acquireIX lockId => .start (Dps.acquireIX .acquire lockId)
  | .acquireIS lockId => .start (Dps.acquireIS .acquire lockId)
  | .tryX lockId => .start (Dps.acquireX .tryAcquire lockId)
  | .tryS lockId => .start (Dps.acquireS .tryAcquire lockId)
  | .tryIX lockId => .start (Dps.acquireIX .tryAcquire lockId)
  | .tryIS lockId => .start (Dps.acquireIS .tryAcquire lockId)
  | .tryOrAppendX lockId => .start (Dps.tryOrAppendX lockId)
  | .wait lockId => .finding lockId
  | .release lockId => .releasing lockId .ok

def LockCall.asserted : LockCall → Bool
  | .acquireIX lockId | .acquireIS lockId | .tryIX lockId | .tryIS lockId => !lockId.isRecord
  | .tryOrAppendX lockId => lockId.isRecord
  | _ => true

/-- `queued` is the id that the session has been appended to wait for, and has neither been granted nor given up.
`owned` are the locks that the session has references for: the last one on the way down of each call that was not
given back. -/
structure Session where
  doing : Doing
  queued : Option LockId
  owned : List LockId
  deriving DecidableEq, Repr

namespace Session

def initial : Session where
  doing := .idle .ok
  queued := none
  owned := []

/-- `wait` is called exactly behind `tryOrAppendX` that has appended the session. -/
def allows (x : Session) (call : LockCall) : Bool :=
  match x.doing, x.queued, call with
  | .idle _, none, .wait _ => false
  | .idle _, none, call => call.asserted
  | .idle _, some lockId, .wait lockId' => lockId == lockId'
  | _, _, _ => false

def own (x : Session) (lockId : LockId) : Session :=
  { x with owned := lockId :: (match lockId.parent with
      | none => x.owned
      | some iLockId => x.owned.erase iLockId) }

def disown (x : Session) (lockId : LockId) : Session :=
  { x with owned := lockId.parent.toList ++ x.owned.erase lockId }

def succeed (x : Session) (lockId : LockId) (rest : List Level) : Session :=
  { x.own lockId with doing := .start rest }

def releaseAbove (x : Session) (lockId : LockId) (rc : Rc) : Session :=
  { x with doing := .above lockId rc }

end Session

/-! ### The lock table -/

structure LockInfo (n : Nat) where
  type : LockType
  ref : Int
  nextWaitCB : Option (Fin n)
  deriving DecidableEq, Repr

structure LockUnit (n : Nat) where
  runList : Fin n → Option LockType
  pWaitCB : Option (Fin n)

/-- The lock units of all buckets, and the sessions with their lock infos and with the wake-up events that they
have not taken yet.  `gen` counts the units of an id that were deleted; `crashed` says that a null pointer or a
deleted unit was used, or that a loop does not end. -/
structure LockSystem (n : Nat) where
  units : LockId → Option (LockUnit n)
  gen : LockId → Nat
  infos : Fin n → LockId → Option (LockInfo n)
  wakeUps : Fin n → Nat
  sessions : Fin n → Session
  crashed : Bool

/-- A session calls the lock manager or goes on, or a wait ends without a wake-up. -/
inductive LockAct (n : Nat)
  | call (t : Fin n) (call : LockCall)
  | go (t : Fin n)
  | timeout (t : Fin n)
  | interrupt (t : Fin n)
  deriving DecidableEq

variable {n : Nat}

def checkLoop (t : Fin n) (lockType : LockType) (runList : Fin n → Option LockType) : List (Fin n) → Bool
  | [] => true
  | u :: us =>
    match runList u with
    | none => checkLoop t lockType runList us
    | some type =>
      if type = lockType ∧ lockType ≠ .X then true
      else if u ≠ t ∧ type.isLockCompatible lockType = false then false
      else checkLoop t lockType runList us

def checkCompatible (t : Fin n) (lockType : LockType) (runList : Fin n → Option LockType) : Bool :=
  checkLoop t lockType runList (List.finRange n)

namespace LockSystem

def initial : LockSystem n where
  units _ := none
  gen _ := 0
  infos _ _ := none
  wakeUps _ := 0
  sessions _ := .initial
  crashed := false

variable (s : LockSystem n)

def runEntry (id : LockId) (t : Fin n) : Option LockType :=
  (s.units id).bind fun u => u.runList t

def waitCB (id : LockId) : Option (Fin n) :=
  (s.units id).bind fun u => u.pWaitCB

def unit (id : LockId) : LockUnit n :=
  (s.units id).getD ⟨fun _ => none, none⟩

def setUnit (id : LockId) (u : LockUnit n) : LockSystem n :=
  { s with units := update s.units id (some u) }

def setWaitCB (id : LockId) (h : Option (Fin n)) : LockSystem n :=
  s.setUnit id { s.unit id with pWaitCB := h }

def setRun (id : LockId) (t : Fin n) (type : Option LockType) : LockSystem n :=
  s.setUnit id { s.unit id with runList := update (s.unit id).runList t type }

def setSession (t : Fin n) (x : Session) : LockSystem n :=
  { s with sessions := update s.sessions t x }

def setInfo (t : Fin n) (id : LockId) (info : Option (LockInfo n)) : LockSystem n :=
  { s with infos := update s.infos t (update (s.infos t) id info) }

def addLockInfo (t : Fin n) (id : LockId) (type : LockType) : LockSystem n :=
  s.setInfo t id (some ⟨type, 0, none⟩)

def delLockInfo (t : Fin n) (id : LockId) : LockSystem n :=
  s.setInfo t id none

def setType (t : Fin n) (id : LockId) (type : LockType) : LockSystem n :=
  s.setInfo t id ((s.infos t id).map fun info => { info with type := type })

def addRef (t : Fin n) (id : LockId) (d : Int) : LockSystem n :=
  s.setInfo t id ((s.infos t id).map fun info => { info with ref := info.ref + d })

def getNextWaitCB (t : Fin n) (id : LockId) : Option (Fin n) :=
  (s.infos t id).bind fun info => info.nextWaitCB

def setNextWaitCB (t : Fin n) (id : LockId) (next : Option (Fin n)) : LockSystem n :=
  s.setInfo t id ((s.infos t id).map fun info => { info with nextWaitCB := next })

def wakeUp (t : Fin n) : LockSystem n :=
  { s with wakeUps := update s.wakeUps t (s.wakeUps t + 1) }

/-! ### The sections with the latch of a bucket -/

def appendToRun (t : Fin n) (id : LockId) (lockType : LockType) : Option (LockSystem n) :=
  if checkCompatible t lockType (fun u => s.runEntry id u) then some (s.setRun id t (some lockType)) else none

/-- The loop of `appendToWait`; with `n` sessions, a walk of more than `n` steps does not end. -/
def lastWaitCB (s : LockSystem n) (id : LockId) : Nat → Fin n → Option (Fin n)
  | 0, _ => none
  | k + 1, waitCB =>
    match s.infos waitCB id with
    | none => none
    | some info =>
      match info.nextWaitCB with
      | none => some waitCB
      | some next => s.lastWaitCB id k next

def appendToWait (t : Fin n) (id : LockId) : Option (LockSystem n) :=
  match s.waitCB id with
  | none => some (s.setWaitCB id (some t))
  | some head => (s.lastWaitCB id n head).map fun last => s.setNextWaitCB last id (some t)

def appendHeadToWait (t : Fin n) (id : LockId) : LockSystem n :=
  match s.waitCB id with
  | none => s.setWaitCB id (some t)
  | some head => (s.setWaitCB id (some t)).setNextWaitCB t id (some head)

def removeLoop (s : LockSystem n) (t : Fin n) (id : LockId) : Nat → Fin n → Option (LockSystem n)
  | 0, _ => none
  | k + 1, waitCB =>
    match s.infos waitCB id with
    | none => none
    | some info =>
      match info.nextWaitCB with
      | none => some s
      | some next =>
        if next = t then some (s.setNextWaitCB waitCB id (s.getNextWaitCB t id))
        else s.removeLoop t id k next

def removeFromWait (t : Fin n) (id : LockId) : Option (LockSystem n) :=
  match s.waitCB id with
  | none => none
  | some head =>
    if head = t then
      match s.getNextWaitCB t id with
      | some next => some ((s.setWaitCB id (some next)).wakeUp next)
      | none => some (s.setWaitCB id none)
    else s.removeLoop t id n head

def removeFromRun (t : Fin n) (id : LockId) : LockSystem n :=
  match s.waitCB id with
  | none => s.setRun id t none
  | some head => (s.setRun id t none).wakeUp head

def deleteUnused (id : LockId) : LockSystem n :=
  if s.waitCB id = none ∧ ∀ u, s.runEntry id u = none then
    { s with units := update s.units id none, gen := update s.gen id (s.gen id + 1) }
  else s

def bucketRelease (t : Fin n) (id : LockId) : LockSystem n :=
  if s.units id = none then s else (s.removeFromRun t id).deleteUnused id

def hasWait (id : LockId) : Bool :=
  (s.waitCB id).isSome

/-! ### The steps of a session -/

def await (t : Fin n) (level : Level) (last : Option LockType) (rest : List Level) :
    LockSystem n :=
  s.setSession t { s.sessions t with
      doing := .waiting ⟨level.id, level.type, s.gen level.id, .level last rest⟩
      queued := some level.id }

/-- A lock that the session has no lock info for: `acquire`, `tryAcquire` and `tryAcquireOrAppend` of the
bucket. -/
def lockNew (t : Fin n) (level : Level) (rest : List Level) : Option (LockSystem n) :=
  let s := s.addLockInfo t level.id level.type
  match s.appendToRun t level.id level.type with
  | some s => some (s.setSession t ((s.sessions t).succeed level.id rest))
  | none =>
    match level.how with
    | .acquire => (s.appendToWait t level.id).map fun s => s.await t level none rest
    | .tryAcquire =>
      some ((s.delLockInfo t level.id).setSession t ((s.sessions t).releaseAbove level.id .dpsTransLockIncompatible))
    | .tryAcquireOrAppend =>
      (s.appendToWait t level.id).map fun s =>
        s.setSession t { (s.sessions t).own level.id with
            doing := .idle .dpsTransAppendToWait
            queued := some level.id }

def lockUpgrade (t : Fin n) (level : Level) (rest : List Level) (last : LockType) :
    LockSystem n :=
  if last.upgradeCheck level.type = false then s.setSession t ((s.sessions t).releaseAbove level.id .perm)
  else
    let s := s.setType t level.id level.type
    match s.appendToRun t level.id level.type with
    | some s => (s.addRef t level.id 1).setSession t ((s.sessions t).succeed level.id rest)
    | none =>
      match level.how with
      | .acquire => (s.appendHeadToWait t level.id).await t level (some last) rest
      | .tryAcquire =>
        (s.setType t level.id last).setSession t ((s.sessions t).releaseAbove level.id .dpsTransLockIncompatible)
      | .tryAcquireOrAppend =>
        -- the code is not SDB_OK, so that the intention lock is released
        (s.appendHeadToWait t level.id).setSession t
          { (s.sessions t).releaseAbove level.id .dpsTransAppendToWait with queued := some level.id }

def lock (t : Fin n) (level : Level) (rest : List Level) : Option (LockSystem n) :=
  match s.infos t level.id with
  | none => s.lockNew t level rest
  | some info =>
    if info.type.isLockMatch level.type then
      some ((s.addRef t level.id 1).setSession t ((s.sessions t).succeed level.id rest))
    else some (s.lockUpgrade t level rest info.type)

def release (t : Fin n) (id : LockId) (rc : Rc) : LockSystem n :=
  match s.infos t id with
  | none => s.setSession t { s.sessions t with doing := .idle rc }
  | some info =>
    let s := if info.ref ≤ 0 then (s.bucketRelease t id).delLockInfo t id else s.addRef t id (-1)
    s.setSession t (((s.sessions t).disown id).releaseAbove id rc)

def find (t : Fin n) (id : LockId) : LockSystem n :=
  if s.units id = none then s.setSession t { s.sessions t with doing := .idle .sys }
  else s.setSession t { s.sessions t with doing := .waiting ⟨id, .X, s.gen id, .waitLockX⟩ }

def valid (w : Waiter) : Bool :=
  (s.units w.id).isSome && s.gen w.id == w.gen

def granted (t : Fin n) (w : Waiter) : LockSystem n :=
  let x := { s.sessions t with queued := none }
  match w.resume with
  | .waitLockX => s.setSession t { x with doing := .idle .ok }
  | .level none rest => s.setSession t (x.succeed w.id rest)
  | .level (some _) rest => (s.addRef t w.id 1).setSession t (x.succeed w.id rest)

def refused (t : Fin n) (w : Waiter) (rc : Rc) : LockSystem n :=
  let x := { s.sessions t with queued := none }
  match w.resume with
  | .waitLockX => s.setSession t { x with doing := .idle rc }
  | .level none _ => (s.delLockInfo t w.id).setSession t (x.releaseAbove w.id rc)
  | .level (some last) _ => (s.setType t w.id last).setSession t (x.releaseAbove w.id rc)

def retry (t : Fin n) (w : Waiter) : Option (LockSystem n) :=
  if s.valid w then
    match s.appendToRun t w.id w.type with
    | none => some (s.setSession t { s.sessions t with doing := .waiting w })
    | some s => (s.removeFromWait t w.id).map fun s => s.granted t w
  else none

def giveUp (t : Fin n) (w : Waiter) (rc : Rc) : Option (LockSystem n) :=
  if s.valid w then (s.removeFromWait t w.id).map fun s => s.refused t w rc else none

def takeEvent (t : Fin n) (w : Waiter) : LockSystem n :=
  if s.wakeUps t = 0 then s
  else
    { s with wakeUps := update s.wakeUps t (s.wakeUps t - 1) }.setSession t { s.sessions t with doing := .awake w }

def go (t : Fin n) : Option (LockSystem n) :=
  match (s.sessions t).doing with
  | .idle _ => some s
  | .locking level rest => s.lock t level rest
  | .finding id => some (s.find t id)
  | .waiting w => some (s.takeEvent t w)
  | .awake w => s.retry t w
  | .gaveUp w rc => s.giveUp t w rc
  | .releasing id rc => some (s.release t id rc)

def call (s : LockSystem n) (t : Fin n) (call : LockCall) : LockSystem n :=
  if (s.sessions t).allows call then s.setSession t { s.sessions t with doing := call.start } else s

def endWait (t : Fin n) (rc : Rc) : LockSystem n :=
  match (s.sessions t).doing with
  | .waiting w => s.setSession t { s.sessions t with doing := .gaveUp w rc }
  | _ => s

def step (a : LockAct n) : LockSystem n :=
  if s.crashed then s
  else
    match a with
    | .call t call => s.call t call
    | .go t => (s.go t).getD { s with crashed := true }
    | .timeout t => s.endWait t .timeout
    | .interrupt t => s.endWait t .interrupt

end LockSystem

end SequoiaDB.Dps

import SequoiaDB.Rc
import SequoiaDB.Lib.Run

/-!
# The commit of a distributed transaction

A coordinator commits a transaction in two phases (`_coord2PhaseCommit`) on the data groups that took part in it, and
issues a rollback if a phase fails.  Requests to one group are delivered in the order they are sent.  A send may fail, a
reply may be lost, the log of a group may refuse the commit record, and a group may lose its primary, after which its new
primary rolls its unfinished transactions back; the transaction of the session is stopped, and the node of the session may
be elected again.  The first phase asks a group only whether its session has a transaction, and the second phase of a
session without transaction succeeds.
-/

namespace SequoiaDB.Coord

open Lib Function

/-- What became of the changes of the transaction in a group; `clean` if there are none. -/
inductive Fate
  | clean
  | pending
  | committed
  | rolledBack
  deriving DecidableEq, Repr

/-- A data group: the transaction of the session that the coordinator has with it, with changes (`some true`) or without
any, whether the node of this session is the primary, and the fate of the changes. -/
structure DataGroup where
  trans : Option Bool
  primary : Bool
  fate : Fate
  deriving DecidableEq, Repr

inductive Request
  | commitPre
  | commit
  | rollback
  deriving DecidableEq, Repr

namespace DataGroup

variable (d : DataGroup)

def rtnTransRollback : Rc × DataGroup :=
  (.ok, { d with trans := none, fate := if d.trans = some true then .rolledBack else d.fate })

def rtnTransCommit (logRc : Rc) : Rc × DataGroup :=
  if d.trans = some true then
    -- changes that a new primary has rolled back stay so
    if logRc = .ok then (.ok, { d with trans := none, fate := if d.fate = .pending then .committed else d.fate })
    else (logRc, d)
  else (.ok, { d with trans := none })

def onTransCommitPreMsg : Rc × DataGroup :=
  if d.trans = none then (.dpsTransNoTrans, d) else (.ok, d)

/-- `_onTransCommitMsg`, and the rollback by the session if it fails on the primary. -/
def onTransCommitMsg (logRc : Rc) : Rc × DataGroup :=
  if d.primary = true then
    let r := d.rtnTransCommit logRc
    if r.1 = .ok then r else (r.1, r.2.rtnTransRollback.2)
  else (.clsNotPrimary, d)

def onTransRollbackMsg : Rc × DataGroup :=
  if d.primary = true then d.rtnTransRollback else (.clsNotPrimary, d)

def handle (logRc : Rc) : Request → Rc × DataGroup
  | .commitPre => d.onTransCommitPreMsg
  | .commit => d.onTransCommitMsg logRc
  | .rollback => d.onTransRollbackMsg

def rtnTransRollbackAll : DataGroup :=
  if d.primary = false ∧ d.fate = .pending then { d with fate := .rolledBack } else d

end DataGroup

/-- What the coordinator is doing: one of the two phases, the rollback, or nothing any more. -/
inductive Stage
  | phase1
  | phase2
  | rollback
  | finished
  deriving DecidableEq, Repr

def Stage.request : Stage → Option Request
  | .phase1 => some .commitPre
  | .phase2 => some .commit
  | .rollback => some .rollback
  | .finished => none

/-- The coordinator, the groups, and the messages between them. -/
structure System (G : Type) where
  nodes : List G
  stage : Stage
  unsent : List G
  waiting : List G
  rc : Rc
  groups : G → DataGroup
  requests : G → List Request
  replies : G → List (Request × Rc)

inductive Action (G : Type)
  | send
  | sendFails (rc : Failure)
  | deliver (g : G) (logRc : Rc)
  | receive (g : G)
  | loseReply (g : G) (rc : Failure)
  | endStage
  | losePrimary (g : G)
  | rollbackAll (g : G)
  | becomePrimary (g : G)
  | stopTrans (g : G)

namespace System

variable {G : Type} [DecidableEq G] (s : System G)

/-- `rc = rc ? rc : rcTmp`; failures of the rollback are only warned of. -/
def note (rcTmp : Rc) : Rc := if s.rc = .ok ∧ s.stage ≠ .rollback then rcTmp else s.rc

def enter (stage : Stage) (unsent : List G) : System G := { s with stage, unsent }

def endStage : System G :=
  if s.unsent = [] ∧ s.waiting = [] then
    match s.stage with
    | .phase1 => if s.rc = .ok then s.enter .phase2 s.nodes else s.enter .rollback s.nodes
    | .phase2 => if s.rc = .ok then s.enter .finished [] else s.enter .rollback s.nodes
    | .rollback => s.enter .finished []
    | .finished => s
  else s

def send : System G :=
  match s.unsent with
  | [] => s
  | g :: unsent =>
    match s.stage.request with
    | none => s
    | some req =>
      { s with unsent, waiting := g :: s.waiting, requests := update s.requests g (s.requests g ++ [req]) }

def sendFails (rc : Failure) : System G :=
  match s.unsent with
  | [] => s
  | _ :: unsent => { s with unsent, rc := s.note rc.1 }

/-- A request is handled by the node that the coordinator has a session with. -/
def deliver (g : G) (logRc : Rc) : System G :=
  match s.requests g with
  | [] => s
  | req :: reqs =>
    let r := (s.groups g).handle logRc req
    { s with
      groups := update s.groups g r.2
      requests := update s.requests g reqs
      replies := update s.replies g (s.replies g ++ [(req, r.1)]) }

/-- A reply arrives; one that is not awaited is dropped. -/
def receive (g : G) : System G :=
  match s.replies g with
  | [] => s
  | (req, rc) :: reps =>
    let s' := { s with replies := update s.replies g reps }
    if s.stage.request = some req ∧ g ∈ s.waiting then { s' with waiting := s.waiting.erase g, rc := s.note rc } else s'

def loseReply (g : G) (rc : Failure) : System G :=
  if g ∈ s.waiting then { s with waiting := s.waiting.erase g, rc := s.note rc.1 } else s

def step (s : System G) : Action G → System G
  | .send => s.send
  | .sendFails rc => s.sendFails rc
  | .deliver g logRc => s.deliver g logRc
  | .receive g => s.receive g
  | .loseReply g rc => s.loseReply g rc
  | .endStage => s.endStage
  | .losePrimary g => { s with groups := update s.groups g { s.groups g with primary := false } }
  | .rollbackAll g => { s with groups := update s.groups g (s.groups g).rtnTransRollbackAll }
  | .becomePrimary g => { s with groups := update s.groups g { (s.groups g).rtnTransRollbackAll with primary := true } }
  | .stopTrans g => { s with groups := update s.groups g (s.groups g).rtnTransRollback.2 }

/-- The commit begins: every group is led by the node that has the session, and the groups with changes are among the
nodes of the coordinator. -/
structure Start : Prop where
  stage : s.stage = .phase1
  unsent : s.unsent = s.nodes
  rc : s.rc = .ok
  requests : ∀ g, s.requests g = []
  primary : ∀ g, (s.groups g).primary = true
  fate : ∀ g, (s.groups g).fate = if (s.groups g).trans = some true then .pending else .clean
  nodes : ∀ g, (s.groups g).trans = some true → g ∈ s.nodes

def Mixed : Prop := ∃ g h, (s.groups g).fate = .committed ∧ (s.groups h).fate = .rolledBack

def CommitAhead (g : G) : Prop := (s.stage = .phase1 ∧ s.rc = .ok) ∨ s.stage = .phase2 ∨ .commit ∈ s.requests g

instance (g : G) : Decidable (s.CommitAhead g) := inferInstanceAs (Decidable (_ ∨ _))

/-- The steps that do no harm: no request of the second phase fails to be sent to a group with pending changes, no commit
record is refused, and no group loses its primary or its transaction while it has pending changes and may still have to
commit. -/
def Harmless (s : System G) : Action G → Prop
  | .sendFails _ => s.stage = .phase2 → ∀ g ∈ s.unsent.head?, (s.groups g).fate ≠ .pending
  | .deliver g logRc => (s.requests g).head? = some .commit → (s.groups g).fate = .pending → logRc = .ok
  | .losePrimary g | .stopTrans g => (s.groups g).fate = .pending → ¬ s.CommitAhead g
  | _ => True

end System

end SequoiaDB.Coord

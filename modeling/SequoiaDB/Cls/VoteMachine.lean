import SequoiaDB.Dps.LogMgr
import SequoiaDB.Lib.Run

/-!
# The vote machine

Every node of a replica group runs `_clsVoteMachine`.  A node that sees no primary asks the other nodes for their
promise (`VOTE`, stage one) and, when a majority has promised, for their acceptance (`ANNOUNCE`, stage two); with the
acceptance of a majority it becomes the primary.  A node that accepts keeps silent for a while.

What a node reads from the rest of the engine in one call (the heartbeats of the other nodes, the end of its own log,
the state of its start-up) is an input of the call, so that it may have changed in any way since the call before.  The
nodes of the group are numbered in the order of their route ids.

The fields `era`, `announced` and `counted` of a node, `era` of a ballot and `answered` of an answer record what has
happened for the statements; no function reads them.
-/

namespace SequoiaDB.Cls

open Dps

inductive Status
  | silence
  | sec
  | vote
  | announce
  | primary
  deriving DecidableEq, Repr

inductive Round
  | stageOne
  | stageTwo
  deriving DecidableEq, Repr

inductive ServiceStatus
  | normal
  | abnormal
  | unknown
  deriving DecidableEq, Repr

structure Beat where
  endLsn : Lsn
  weight : UInt8
  beatID : Nat
  serviceStatus : ServiceStatus

/-- What a node reads in one call: the group as it sees it (`_clsGroupInfo`), its start-up (`pmdGetStartup`), its log,
its weights and options. -/
structure View (n : Nat) where
  primary : Option (Fin n)
  alive : Fin n → Bool
  beat : Fin n → Beat
  startupOK : Bool
  bucketEmpty : Bool
  needSyncTrans : Bool
  expectLsn : Lsn
  weight : UInt8
  shadowWeight : UInt8
  sharingBreakTime : Nat
  startShiftTime : Int

/-- The acceptance of a candidate by a member: the era of the candidate whose ballot it answers, the LSN of that ballot,
and the end of the log and the service of the member when it answers. -/
structure Acceptance (n : Nat) where
  member : Fin n
  candidate : Fin n
  era : Nat
  announced : Lsn
  logEnd : Lsn
  normal : Bool
  deriving DecidableEq

inductive Msg (n : Nat)
  | ballot (src dst : Fin n) (round : Round) (weights : Lsn) (era : Nat)
  | res (src dst : Fin n) (round : Round) (ok : Bool) (answered : Acceptance n)
  deriving DecidableEq

structure Node (n : Nat) where
  current : Option Status
  time : Nat
  accepted : Nat
  forceMillis : Nat
  startShiftTime : Int
  era : Nat
  announced : Lsn
  counted : List (Acceptance n)

abbrev CLS_VOTE_CS_TIME : Nat := 3000

def isMajority (now total : Nat) : Bool := total / 2 < now

def getWeight (weight shadowWeight : UInt8) : UInt8 :=
  if shadowWeight = 0 then shadowWeight else if weight < shadowWeight then shadowWeight else weight

variable {n : Nat}

def others (i : Fin n) : List (Fin n) := (List.finRange n).filter (· ≠ i)

def groupSize (i : Fin n) : Nat := (others i).length + 1

namespace View

variable (e : View n) (i : Fin n)

def alives : List (Fin n) := (others i).filter e.alive

def aliveSize : Nat := (e.alives i).length + 1

def isAllNodeBeat : Bool := (others i).all fun j => (e.beat j).beatID ≠ 0

def isAllNodeAbnormal : Bool := (others i).all fun j => (e.beat j).serviceStatus = .abnormal

def canLaunch : Bool :=
  e.primary = none && isMajority (e.aliveSize i) (groupSize i) &&
    !(!e.startupOK && !e.isAllNodeAbnormal i) && e.bucketEmpty && !(e.needSyncTrans && e.startupOK) &&
    (e.alives i).all fun j =>
      ((e.beat j).serviceStatus = .abnormal && e.startupOK) || e.expectLsn.compare (e.beat j).endLsn ≠ .lt

def launch (round : Round) (era : Nat) : List (Msg n) :=
  if e.canLaunch i then (e.alives i).map fun j => .ballot i j round e.expectLsn era else []

/-- The decision of `_launch( lsn, id, round )`: `none` when it sends nothing, else whether it accepts. -/
def decision (lsn : Lsn) (id : Fin n) : Option Bool :=
  let peerAbnormal := (e.beat id).serviceStatus ≠ .normal
  let localAbnormal := !e.startupOK
  if id ∉ others i then none
  else if e.primary ≠ none then some false
  else if !isMajority (e.aliveSize i) (groupSize i) then none
  else if (e.alives i).any fun j => !(!peerAbnormal && (e.beat j).serviceStatus = .abnormal) &&
      lsn.compare (e.beat j).endLsn = .lt then some false
  else if !localAbnormal || peerAbnormal then
    match e.expectLsn.compare lsn with
    | .lt => some true
    | .gt => some false
    | .eq =>
      let weight := getWeight e.weight e.shadowWeight
      let remoteWeight := (e.beat id).weight
      if weight < remoteWeight then some true
      else if remoteWeight < weight then some false
      else if remoteWeight < e.weight then some false
      else if id < i then some false
      else some true
  else some true

def answer (lsn : Lsn) (id : Fin n) (round : Round) (era : Nat) : Bool × List (Msg n) :=
  match e.decision i lsn id with
  | none => (false, [])
  | some ok => (ok, [.res i id round ok ⟨i, id, era, lsn, e.expectLsn, e.startupOK⟩])

end View

namespace Node

variable (e : View n) (i : Fin n) (nd : Node n)

def isAccepted : Bool := isMajority (nd.accepted + 1) (groupSize i)

def statusInput (st : Status) (msg : Msg n) : Node n × Status × List (Msg n) :=
  match st, msg with
  | .silence, _ => (nd, .silence, [])
  | .sec, .res .. => (nd, .sec, [])
  | .sec, .ballot src _ .stageOne weights era =>
    ({ nd with startShiftTime := -1 }, .sec, (e.answer i weights src .stageOne era).2)
  | .sec, .ballot src _ .stageTwo weights era =>
    let r := e.answer i weights src .stageTwo era
    ({ nd with startShiftTime := -1 }, if r.1 then .silence else .sec, r.2)
  | .vote, .ballot src _ .stageOne weights era =>
    let r := e.answer i weights src .stageOne era
    (nd, if r.1 then .sec else .vote, r.2)
  | .vote, .ballot src _ .stageTwo weights era =>
    let r := e.answer i weights src .stageTwo era
    (nd, if r.1 then .silence else .vote, r.2)
  | .vote, .res _ _ .stageOne ok _ =>
    if ok then
      let nd := { nd with accepted := nd.accepted + 1 }
      (nd, if groupSize i ≤ nd.accepted + 1 then .announce else .vote, [])
    else (nd, .sec, [])
  | .vote, .res _ _ .stageTwo _ _ => (nd, .vote, [])
  | .announce, .ballot .. => (nd, .announce, [])
  | .announce, .res _ _ .stageOne _ _ => (nd, .announce, [])
  | .announce, .res _ _ .stageTwo ok answered =>
    if ok then
      let nd := { nd with accepted := nd.accepted + 1, counted := nd.counted ++ [answered] }
      (nd, if groupSize i ≤ nd.accepted + 1 then .primary else .announce, [])
    else (nd, .silence, [])
  | .primary, _ => (nd, .primary, [])

def statusTimeout (st : Status) (millisec : Nat) : Node n × Status :=
  let nd := { nd with time := nd.time + millisec }
  match st with
  | .silence => (nd, if e.sharingBreakTime + 1000 ≤ nd.time ∨ 30 * 1000 ≤ nd.time then .sec else .silence)
  | .sec =>
    let nd := if nd.startShiftTime > 0 ∧ e.isAllNodeBeat i then { nd with startShiftTime := -1 } else nd
    if (nd.startShiftTime < 0 ∨ nd.startShiftTime ≤ nd.time) ∧ CLS_VOTE_CS_TIME ≤ nd.time then
      ({ nd with startShiftTime := -1 }, .vote)
    else (nd, .sec)
  | .vote =>
    if CLS_VOTE_CS_TIME ≤ nd.time then
      if !e.startupOK && e.isAllNodeAbnormal i then (nd, .sec)
      else if nd.isAccepted i then (nd, .announce)
      else (nd, .sec)
    else (nd, .vote)
  | .announce =>
    if CLS_VOTE_CS_TIME ≤ nd.time then
      if nd.isAccepted i then (nd, .primary) else (nd, .silence)
    else (nd, .announce)
  | .primary =>
    if CLS_VOTE_CS_TIME ≤ nd.time then
      if isMajority (e.aliveSize i) (groupSize i) then ({ nd with time := 0 }, .primary) else (nd, .silence)
    else (nd, .primary)

def active (st : Status) : Node n × Status × List (Msg n) :=
  let nd := { nd with time := 0 }
  match st with
  | .silence => (nd, if groupSize i = 1 then .sec else .silence, [])
  | .sec => if groupSize i = 1 then ({ nd with startShiftTime := -1 }, .vote, []) else (nd, .sec, [])
  | .vote =>
    let nd := { nd with accepted := 0 }
    if groupSize i = 1 ∧ e.startupOK then (nd, .announce, []) else (nd, .vote, e.launch i .stageOne nd.era)
  | .announce =>
    let nd := { nd with accepted := 0, era := nd.era + 1, announced := e.expectLsn, counted := [] }
    if groupSize i = 1 then (nd, .primary, []) else (nd, .announce, e.launch i .stageTwo nd.era)
  | .primary => (nd, .primary, [])

def deactive (st : Option Status) : View n :=
  if st = some .primary ∧ e.primary = some i then { e with primary := none } else e

/-- The loop of `CLS_VOTE_ACTIVE_STATUS`: the node, the messages sent and the changes of the status made. -/
def activate (i : Fin n) : Nat → View n → Node n → Option Status → Status →
    Node n × List (Msg n) × List (Option Status × Status)
  | 0, _, nd, _, next => ({ nd with current := some next }, [], [])
  | fuel + 1, e, nd, now, next =>
    if now = some next then ({ nd with current := some next }, [], [])
    else
      let e := deactive e i now
      let r := active e i nd next
      let rest := activate i fuel e r.1 (some next) r.2.1
      (rest.1, r.2.2 ++ rest.2.1, (now, next) :: rest.2.2)

/-- `CLS_VOTE_ACTIVE_STATUS( next )`.  No status is entered twice, so five rounds are enough. -/
def changeTo (next : Status) : Node n × List (Msg n) × List (Option Status × Status) :=
  let r := activate i 5 e nd nd.current next
  ({ r.1 with forceMillis := 0 }, r.2)

def handleInput (msg : Msg n) : Node n × List (Msg n) × List (Option Status × Status) :=
  match nd.current with
  | none => (nd, [], [])
  | some st =>
    let r := statusInput e i nd st msg
    let r' := changeTo e i r.1 r.2.1
    (r'.1, r.2.2 ++ r'.2.1, r'.2.2)

def handleTimeout (millisec : Nat) : Node n × List (Msg n) × List (Option Status × Status) :=
  match nd.current with
  | none => (nd, [], [])
  | some st =>
    if 0 < nd.forceMillis then
      ({ nd with forceMillis := if nd.forceMillis ≤ millisec then 0 else nd.forceMillis - millisec }, [], [])
    else
      let r := statusTimeout e i nd st millisec
      changeTo e i r.1 r.2

def force (id : Status) (millis : Nat) : Node n × List (Msg n) × List (Option Status × Status) :=
  let r := changeTo e i nd id
  (if 0 < millis then { r.1 with forceMillis := millis } else r.1, r.2)

def init : Node n × List (Msg n) × List (Option Status × Status) :=
  changeTo e i { nd with startShiftTime := e.startShiftTime } .silence

end Node

/-! ### The group -/

def acceptances (msgs : List (Msg n)) : List (Acceptance n) :=
  msgs.filterMap fun
    | .res _ _ .stageTwo true answered => some answered
    | _ => none

/-- The group: its nodes, the messages in flight, the acceptances that have been sent so far, and the changes of status
in the last step. -/
structure Group (n : Nat) where
  nodes : Fin n → Node n
  net : List (Msg n)
  accepts : List (Acceptance n)
  moved : List (Fin n × Option Status × Status)

/-- What can happen: a node is started, a message arrives, a node gets its timer, an operator forces a status. -/
inductive Action (n : Nat)
  | init (i : Fin n) (e : View n)
  | deliver (msg : Msg n) (e : View n)
  | timeout (i : Fin n) (millisec : Nat) (e : View n)
  | force (i : Fin n) (id : Status) (millis : Nat) (e : View n)

def Msg.dst : Msg n → Fin n
  | .ballot _ dst .. => dst
  | .res _ dst .. => dst

namespace Group

def start (n : Nat) : Group n where
  nodes _ := ⟨none, 0, 0, 0, 0, 0, ⟨0, 0⟩, []⟩
  net := []
  accepts := []
  moved := []

def put (s : Group n) (i : Fin n) (nd : Node n) (sent : List (Msg n)) : Group n where
  nodes := Function.update s.nodes i nd
  net := s.net ++ sent
  accepts := s.accepts ++ acceptances sent
  moved := []

def finish (s : Group n) (i : Fin n) (r : Node n × List (Msg n) × List (Option Status × Status)) : Group n :=
  { s.put i r.1 r.2.1 with moved := r.2.2.map fun m => (i, m) }

def take (s : Group n) (msg : Msg n) : Group n := { s with net := s.net.erase msg }

def step (s : Group n) : Action n → Group n
  | .init i e => if (s.nodes i).current = none then s.finish i ((s.nodes i).init e i) else { s with moved := [] }
  | .deliver msg e =>
    if msg ∈ s.net then (s.take msg).finish msg.dst ((s.nodes msg.dst).handleInput e msg.dst msg)
    else { s with moved := [] }
  | .timeout i millisec e => s.finish i ((s.nodes i).handleTimeout e i millisec)
  | .force i id millis e => s.finish i ((s.nodes i).force e i id millis)

/-- Node `i` is backed by a majority: different members have sent acceptances in answer to the ballots of its present
era, with the LSN it has announced, and no normal one of them had a log that ended behind that LSN. -/
def Backed (s : Group n) (i : Fin n) : Prop :=
  ∃ as : List (Acceptance n), (as.map Acceptance.member).Nodup ∧ n < 2 * (as.length + 1) ∧
    ∀ a ∈ as, a ∈ s.accepts ∧ a.candidate = i ∧ a.member ≠ i ∧ a.era = (s.nodes i).era ∧
      a.announced = (s.nodes i).announced ∧ (a.normal = true → a.logEnd.compare a.announced ≠ .gt)

/-- A node in `ANNOUNCE` gets no acceptance that answers ballots of an earlier era, and it is not forced to be the
primary. -/
def Fresh (s : Group n) : Action n → Prop
  | .deliver (.res _ dst .stageTwo true answered) _ =>
    (s.nodes dst).current = some .announce → answered.era = (s.nodes dst).era
  | .force i id _ _ => (s.nodes i).current = some .announce → id ≠ .primary
  | _ => True

instance (s : Group n) : ∀ a, Decidable (s.Fresh a)
  | .deliver (.res _ dst .stageTwo true answered) _ =>
    inferInstanceAs (Decidable ((s.nodes dst).current = some .announce → answered.era = (s.nodes dst).era))
  | .force i id _ _ => inferInstanceAs (Decidable ((s.nodes i).current = some .announce → id ≠ .primary))
  | .deliver (.res _ _ .stageTwo false _) _ => inferInstanceAs (Decidable True)
  | .deliver (.res _ _ .stageOne _ _) _ => inferInstanceAs (Decidable True)
  | .deliver (.ballot ..) _ => inferInstanceAs (Decidable True)
  | .init .. => inferInstanceAs (Decidable True)
  | .timeout .. => inferInstanceAs (Decidable True)

end Group

end SequoiaDB.Cls

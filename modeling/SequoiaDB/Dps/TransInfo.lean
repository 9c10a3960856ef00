import SequoiaDB.Lib.Run
import SequoiaDB.Dps.LogRecord

/-!
# The table of open transactions

`dpsTransCB` keeps, for each transaction that is not finished, the LSN of its last operation and the LSN of its
first one.  A node that only receives the log rebuilds the table from the records (`saveTransInfoFromLog`), and
takes a record back when it is removed from the log (`rollbackTransInfoFromLog`).

The records come from transactions that run at the same time.  An operation refers to the one before it by
PRETRANS.  A rollback follows these references: for each operation it writes a record that carries the PRETRANS
of the operation and its LSN (RELATED).  A rollback that is interrupted goes on at another node, from the LSN
that is found in the table there.
-/

namespace SequoiaDB.Dps

open Lib Function

/-! ### Transaction ids -/

abbrev TransID := BitVec 64

def DPS_INVALID_TRANS_ID : TransID := 0
def DPS_TRANSID_ROLLBACKTAG_BIT : TransID := 0x0000800000000000
def DPS_TRANSID_FIRSTOP_BIT : TransID := 0x0000400000000000
def DPS_TRANSID_VALID_BIT : TransID := 0xFFFF00FFFFFFFFFF

namespace TransID

def getRollbackID (t : TransID) : TransID := t ||| DPS_TRANSID_ROLLBACKTAG_BIT

def getTransID (t : TransID) : TransID := t &&& DPS_TRANSID_VALID_BIT

def isRollback (t : TransID) : Prop := t &&& DPS_TRANSID_ROLLBACKTAG_BIT ≠ 0

def isFirstOp (t : TransID) : Prop := t &&& DPS_TRANSID_FIRSTOP_BIT ≠ 0

def clearFirstOpTag (t : TransID) : TransID := t &&& ~~~DPS_TRANSID_FIRSTOP_BIT

def firstOp (t : TransID) : TransID := t ||| DPS_TRANSID_FIRSTOP_BIT

def Plain (t : TransID) : Prop := getTransID t = t ∧ t ≠ DPS_INVALID_TRANS_ID

instance (t : TransID) : Decidable t.isRollback := inferInstanceAs (Decidable (_ ≠ _))
instance (t : TransID) : Decidable t.isFirstOp := inferInstanceAs (Decidable (_ ≠ _))
instance (t : TransID) : Decidable t.Plain := inferInstanceAs (Decidable (_ ∧ _))

end TransID

/-! ### The table -/

/-- The types of the records that a transaction writes; the record of an update holds the modifier that takes it
back, which may be empty. -/
inductive TransLogType
  | dataInsert
  | dataUpdate (emptyModifier : Bool)
  | dataDelete
  | tsCommit
  | other
  deriving DecidableEq, Repr

/-- The parts of a log record that the table and the rollback depend on. -/
structure TransRecord where
  lsn : Nat
  type : TransLogType
  transID : Option TransID
  preTrans : Option Nat
  relatedTrans : Option Nat
  firstTrans : Option Nat
  deriving DecidableEq

/-- `_TransMap`, `_beginLsnIdMap` and `_idBeginLsnMap`. -/
@[ext]
structure TransTable where
  transMap : TransID → Option Nat
  beginLsnIdMap : Nat → Option TransID
  idBeginLsnMap : TransID → Option Nat

namespace TransTable

def empty : TransTable where
  transMap _ := none
  beginLsnIdMap _ := none
  idBeginLsnMap _ := none

def updateTransInfo (active : Bool) (transID : TransID) (lsnOffset : Nat) (T : TransTable) : TransTable :=
  if transID = DPS_INVALID_TRANS_ID ∨ active = false then T
  else
    let transID := transID.getTransID
    let lsn := if lsnOffset = DPS_INVALID_LSN_OFFSET then none else some lsnOffset
    { T with transMap := update T.transMap transID lsn }

def addBeginLsn (beginLsn : Nat) (transID : TransID) (T : TransTable) : TransTable :=
  let transID := transID.getTransID
  { T with
    beginLsnIdMap := update T.beginLsnIdMap beginLsn (some transID)
    idBeginLsnMap := update T.idBeginLsnMap transID (some beginLsn) }

def delBeginLsn (transID : TransID) (T : TransTable) : TransTable :=
  let transID := transID.getTransID
  match T.idBeginLsnMap transID with
  | none => T
  | some beginLsn =>
    { T with
      beginLsnIdMap := update T.beginLsnIdMap beginLsn none
      idBeginLsnMap := update T.idBeginLsnMap transID none }

def getBeginLsn (transID : TransID) (T : TransTable) : Nat :=
  (T.idBeginLsnMap transID.getTransID).getD DPS_INVALID_LSN_OFFSET

def saveTransInfoFromLog (active : Bool) (record : TransRecord) (T : TransTable) : TransTable :=
  match record.transID with
  | none => T
  | some transID =>
    if transID = DPS_INVALID_TRANS_ID then T
    else
      let lsnOffset :=
        if transID.isRollback then record.preTrans.getD DPS_INVALID_LSN_OFFSET
        else if record.type = .tsCommit then DPS_INVALID_LSN_OFFSET
        else record.lsn
      let T :=
        if ¬ transID.isRollback ∧ record.type ≠ .tsCommit ∧ transID.isFirstOp then T.addBeginLsn lsnOffset transID
        else T
      let T := if lsnOffset = DPS_INVALID_LSN_OFFSET then T.delBeginLsn transID else T
      T.updateTransInfo active transID lsnOffset

def rollbackTransInfoFromLog (active : Bool) (record : TransRecord) (T : TransTable) : Bool × TransTable :=
  match record.transID with
  | none => (true, T)
  | some transID =>
    if transID = DPS_INVALID_TRANS_ID then (true, T)
    else
      let lsnOffset := record.preTrans.getD DPS_INVALID_LSN_OFFSET
      if record.type = .tsCommit then
        match record.firstTrans with
        | none => (false, T)
        | some firstLsn =>
          if lsnOffset = DPS_INVALID_LSN_OFFSET then (false, T)
          else (true, (T.addBeginLsn firstLsn transID).updateTransInfo active transID lsnOffset)
      else if ¬ transID.isRollback then
        let T := if transID.isFirstOp then T.delBeginLsn transID else T
        (true, T.updateTransInfo active transID lsnOffset)
      else
        match record.relatedTrans with
        | none => (false, T)
        | some relatedLsn =>
          let T := if lsnOffset = DPS_INVALID_LSN_OFFSET then T.addBeginLsn relatedLsn transID else T
          (true, T.updateTransInfo active transID relatedLsn)

def ofLog (active : Bool) (log : List TransRecord) : TransTable :=
  log.foldl (fun T r => saveTransInfoFromLog active r T) empty

end TransTable

/-! ### The transactions -/

/-- A transaction runs, is rolled back, or was left by its session when it ended without a commit. -/
inductive TransPhase
  | idle
  | running
  | rolling
  | abandoned
  deriving DecidableEq, Repr

/-- The session of a transaction: its id with tags, and the LSN of its last operation (or of the next one to
undo). -/
structure TransSession where
  phase : TransPhase
  transID : TransID
  curLsn : Nat
  deriving DecidableEq

inductive TransOp
  | insert
  | update (emptyModifier : Bool)
  | delete
  deriving DecidableEq, Repr

def TransOp.type : TransOp → TransLogType
  | .insert => .dataInsert
  | .update emptyModifier => .dataUpdate emptyModifier
  | .delete => .dataDelete

theorem TransOp.type_ne : ∀ kind : TransOp, kind.type ≠ .tsCommit
  | .insert | .update _ | .delete => nofun

/-- What the replayer meets when it takes an operation back: the record that it looks for and no other one with
its keys, no such record, another record with one of its keys, or an error before or after the log is written. -/
inductive UndoMeets
  | fits
  | noRecord
  | dupKey
  | failure (wrote : Bool)
  deriving DecidableEq, Repr

/-- What `rollback` of the replayer did with one operation: its return code is SDB_OK, and it has written a
record. -/
structure Undone where
  ok : Bool
  wrote : Bool
  deriving DecidableEq, Repr

def TransLogType.inverse : TransLogType → TransOp
  | .dataInsert => .delete
  | .dataDelete => .insert
  | _ => .update false

/-- `rollback` of the replayer: an insert is taken back by `rtnDelete`, an update by `rtnUpdate` and a delete by
`rtnInsert`. -/
def rollback : TransLogType → UndoMeets → Undone
  | .dataInsert, .failure wrote => ⟨false, wrote⟩
  -- a delete that selects nothing succeeds
  | .dataInsert, .noRecord => ⟨true, false⟩
  | .dataInsert, _ => ⟨true, true⟩
  | .dataUpdate true, _ => ⟨true, false⟩
  | .dataUpdate false, .failure wrote => ⟨false, wrote⟩
  | .dataUpdate false, .noRecord => ⟨true, false⟩
  | .dataUpdate false, .dupKey => ⟨false, false⟩
  | .dataUpdate false, .fits => ⟨true, true⟩
  | .dataDelete, .failure wrote => ⟨false, wrote⟩
  -- SDB_IXM_DUP_KEY is ignored
  | .dataDelete, .dupKey => ⟨true, false⟩
  | .dataDelete, _ => ⟨true, true⟩
  | .tsCommit, _ => ⟨true, false⟩
  | .other, _ => ⟨true, false⟩

/-- The log, the sessions, and the operations of each transaction that are neither committed nor undone, the
last one first. -/
structure TransSystem where
  log : List TransRecord
  nextLsn : Nat
  sessions : TransID → TransSession
  live : TransID → List Nat

/-- What happens; `body` is the length of the record behind its header. -/
inductive TransAct
  | begin (t : TransID)
  | op (t : TransID) (kind : TransOp) (body : Nat)
  | commit (t : TransID) (body : Nat)
  | startRollback (t : TransID)
  | undo (t : TransID) (meets : UndoMeets) (body : Nat)
  /-- The session ends, because of a crash or because the node is no longer primary. -/
  | interrupt (t : TransID)
  /-- `rtnTransRollbackAll` finds the transaction in the table of a node. -/
  | resume (t : TransID)
  /-- A record of no transaction. -/
  | other (body : Nat)
  deriving DecidableEq

namespace TransSystem

def initial : TransSystem where
  log := []
  nextLsn := 0
  sessions _ := { phase := .idle, transID := 0, curLsn := DPS_INVALID_LSN_OFFSET }
  live _ := []

variable (s : TransSystem)

def setSession (t : TransID) (x : TransSession) : TransSystem :=
  { s with sessions := update s.sessions t x }

def setLive (t : TransID) (l : List Nat) : TransSystem :=
  { s with live := update s.live t l }

def write (body : Nat) (r : TransRecord) : TransSystem :=
  { s with log := s.log ++ [r], nextLsn := s.nextLsn + HEADER_LEN + body }

def pushed (lsn : Nat) : Option Nat :=
  if lsn = DPS_INVALID_LSN_OFFSET then none else some lsn

def search (lsn : Nat) : Option TransRecord :=
  s.log.find? fun r => r.lsn = lsn

def opRecord (x : TransSession) (kind : TransOp) : TransRecord where
  lsn := s.nextLsn
  type := kind.type
  transID := some x.transID
  preTrans := pushed x.curLsn
  relatedTrans := none
  firstTrans := none

def commitRecord (x : TransSession) : TransRecord where
  lsn := s.nextLsn
  type := .tsCommit
  transID := some x.transID
  preTrans := some x.curLsn
  relatedTrans := none
  firstTrans := some ((TransTable.ofLog false s.log).getBeginLsn x.transID)

def undoRecord (x : TransSession) (kind : TransOp) (cur related : Nat) : TransRecord where
  lsn := s.nextLsn
  type := kind.type
  transID := some x.transID
  preTrans := pushed cur
  relatedTrans := pushed related
  firstTrans := none

def begin (t : TransID) : TransSystem :=
  if t.Plain ∧ (s.sessions t).phase = .idle then
    s.setSession t { phase := .running, transID := t.firstOp, curLsn := DPS_INVALID_LSN_OFFSET }
  else s

def op (t : TransID) (kind : TransOp) (body : Nat) : TransSystem :=
  let x := s.sessions t
  if x.phase = .running then
    (s.write body (s.opRecord x kind)).setSession t { x with
          curLsn := s.nextLsn
          transID := if x.transID.isFirstOp then x.transID.clearFirstOpTag else x.transID }
      |>.setLive t (s.nextLsn :: s.live t)
  else s

def commit (t : TransID) (body : Nat) : TransSystem :=
  let x := s.sessions t
  if x.phase = .running then
    if x.curLsn = DPS_INVALID_LSN_OFFSET then s.setSession t { x with phase := .idle }
    else ((s.write body (s.commitRecord x)).setSession t { x with phase := .idle }).setLive t []
  else s

def startRollback (t : TransID) : TransSystem :=
  let x := s.sessions t
  if x.phase = .running then
    if x.curLsn = DPS_INVALID_LSN_OFFSET then s.setSession t { x with phase := .idle }
    else s.setSession t { x with phase := .rolling, transID := x.transID.getRollbackID }
  else s

def undoWith (t : TransID) (x : TransSession) (r : TransRecord) (meets : UndoMeets) (body : Nat) : TransSystem :=
  let related := x.curLsn
  let cur := r.preTrans.getD DPS_INVALID_LSN_OFFSET
  let undone := rollback r.type meets
  let s := if undone.wrote then s.write body (s.undoRecord x r.type.inverse cur related) else s
  if undone.ok then
    (s.setSession t
        { x with curLsn := cur, phase := if cur = DPS_INVALID_LSN_OFFSET then .idle else .rolling }).setLive t
      (s.live t).tail
  else s

def undo (t : TransID) (meets : UndoMeets) (body : Nat) : TransSystem :=
  let x := s.sessions t
  if x.phase = .rolling then
    match s.search x.curLsn with
    | none => s.setSession t { x with phase := .abandoned }
    | some r =>
      if r.transID.map TransID.getTransID = some t then s.undoWith t x r meets body
      else s.setSession t { x with phase := .abandoned }
  else s

def interrupt (t : TransID) : TransSystem :=
  let x := s.sessions t
  if x.phase = .idle then s else s.setSession t { x with phase := .abandoned }

def resume (t : TransID) : TransSystem :=
  if (s.sessions t).phase = .abandoned then
    match (TransTable.ofLog true s.log).transMap t with
    | none => s.setSession t { phase := .idle, transID := 0, curLsn := DPS_INVALID_LSN_OFFSET }
    | some lsn => s.setSession t { phase := .rolling, transID := t.getRollbackID, curLsn := lsn }
  else s

def other (s : TransSystem) (body : Nat) : TransSystem :=
  s.write body
    { lsn := s.nextLsn
      type := .other
      transID := none
      preTrans := none
      relatedTrans := none
      firstTrans := none }

def step (a : TransAct) : TransSystem :=
  if s.nextLsn < DPS_INVALID_LSN_OFFSET then
    match a with
    | .begin t => s.begin t
    | .op t kind body => s.op t kind body
    | .commit t body => s.commit t body
    | .startRollback t => s.startRollback t
    | .undo t meets body => s.undo t meets body
    | .interrupt t => s.interrupt t
    | .resume t => s.resume t
    | .other body => s.other body
  else s

end TransSystem

/-- What the replayer meets lets it take back an operation of the given type with a record of its own: the record
of an insert or an update is still there, the modifier of an update is not empty, no other record has a key of a
deleted one, and there is no error behind the write of the log. -/
def UndoMeets.Lets : UndoMeets → TransLogType → Prop
  | .fits, ty => ty = .dataInsert ∨ ty = .dataUpdate false ∨ ty = .dataDelete
  | .noRecord, ty => ty = .dataDelete
  | .dupKey, ty => ty = .dataInsert ∨ ty = .dataUpdate false
  | .failure wrote, ty => wrote = false ∧ (ty = .dataInsert ∨ ty = .dataUpdate false ∨ ty = .dataDelete)

instance : ∀ (m : UndoMeets) (ty : TransLogType), Decidable (m.Lets ty)
  | .fits, _ => inferInstanceAs (Decidable (_ ∨ _))
  | .noRecord, _ => inferInstanceAs (Decidable (_ = _))
  | .dupKey, _ => inferInstanceAs (Decidable (_ ∨ _))
  | .failure _, _ => inferInstanceAs (Decidable (_ ∧ _))

theorem rollback_ok {meets : UndoMeets} {ty : TransLogType} (h : meets.Lets ty) :
    (rollback ty meets).ok = (rollback ty meets).wrote := by
  cases meets with
  | fits => rcases h with rfl | rfl | rfl <;> rfl
  | noRecord => rw [show ty = .dataDelete from h]; rfl
  | dupKey => rcases h with rfl | rfl <;> rfl
  | failure wrote =>
    obtain ⟨rfl, rfl | rfl | rfl⟩ := h <;> rfl

/-- A rollback meets what lets it take back the next operation. -/
def TransSystem.Recorded (s : TransSystem) : TransAct → Prop
  | .undo t meets _ => ∀ r ∈ s.search (s.sessions t).curLsn, meets.Lets r.type
  | _ => True

instance (s : TransSystem) : ∀ a, Decidable (s.Recorded a)
  | .undo t meets _ => inferInstanceAs (Decidable (∀ r ∈ s.search (s.sessions t).curLsn, meets.Lets r.type))
  | .begin _ | .op _ _ _ | .commit _ _ | .startRollback _ | .interrupt _ | .resume _ | .other _ => .isTrue trivial

end SequoiaDB.Dps

import SequoiaDB.Dps.LogRing

/-!
# Reserved log space

With transactions on, an operation reserves the length of its log record before it changes anything and gives
it back at its end.  `_accquiredSpace` is the sum of what all sessions have reserved.  The sessions run at the
same time, so an operation is a program whose steps are taken one by one: each error check of the source is a
step that may fail, and what it reads from the rest of the system is an input.

The operations differ in how they remember what they reserved.  Those on records use a variable that is 0
unless the reservation was made.  Those that write LOB pieces use the length in the header of the log record,
which is set before the reservation, is not cleared when the reservation fails, and is changed by
`preparePages`.  `popRecord` of a capped collection remembers nothing.
-/

namespace SequoiaDB.Dps

open Lib Finset
open LogMgr (recordOffset recordLength)

/-- What an operation gives back its space by. -/
inductive Keeper
  | variable
  | header
  | nobody
  deriving DecidableEq, Repr

/-- The places where the operations check an error. -/
inductive Point
  | delayOpen | permission | mbLock | access | exception
  | prepareInsertData | recordSize | buildRecord
  | syncControl (k : Keeper)
  | allocRecordSpace | extentValid | transLock | extentInsertRecord | indexesInsert
  | recordState | extractData | extentRemoveRecord | modify | extentUpdatedRecord
  | extractRecLID | popRecord
  | pageID | opened | pageSize | extentAddress | allocBuff | readData | writeData | fillPage
  | allocatePage | find | pieceExists | removePage
  deriving DecidableEq, Repr

/-- The other conditions the operations depend on. -/
inductive Branch
  | isOvt | deletingWithWait | isDeleting | isNeedToSetDeleting
  | newChgEmpty | noRecords | foundPage | pageMissing
  deriving DecidableEq, Repr

/-- An operation, as far as it deals with log space. -/
inductive Prog
  | done
  | panic
  | check (p : Point) (fail next : Prog)
  | cond (b : Branch) (yes no : Prog)
  | reserve (k : Keeper) (len : Nat) (refused granted : Prog)
  | test (k : Keeper) (len : Nat) (refused granted : Prog)
  | undo (len : Nat) (refused : Prog)
  | release (len : Nat) (next : Prog)
  | prepare (k : Keeper) (head : LogRecordHeader) (fail : Prog) (next : LogRecordHeader → Prog)

namespace Prog

def checks (ps : List Point) (fail next : Prog) : Prog :=
  ps.foldr (fun p q => .check p fail q) next

def releaseIf (len : Nat) (next : Prog) : Prog :=
  if len = 0 then next else .release len next

def built (len : Nat) : LogRecordHeader := { LogRecordHeader.clear with length := len }

def cleared (head : LogRecordHeader) : LogRecordHeader :=
  (LogRecord.clear { head := head, eles := [] }).head

def insertRecord (alignedLen : Nat) : Prog :=
  let logRecSize := ossRoundUpToMultipleX alignedLen 4
  let out := releaseIf logRecSize .done
  checks [.prepareInsertData, .recordSize, .buildRecord, .syncControl .variable] .done <|
  .reserve .variable logRecSize .done <|
  checks [.mbLock, .access, .allocRecordSpace, .extentValid, .transLock, .extentInsertRecord, .indexesInsert,
    .exception] out <|
  .prepare .variable (built alignedLen) out fun _ => out

def deleteRecord (alignedLen : Nat) : Prog :=
  let out := releaseIf alignedLen .done
  .check .mbLock .done <|
  .cond .isOvt .done <|
  .check .recordState .done <|
  .cond .deletingWithWait .done <|
  .cond .isDeleting (.check .extentRemoveRecord .done .done) <|
  checks [.extractData, .buildRecord, .syncControl .variable] .done <|
  .reserve .variable alignedLen .done <|
  .check .exception out <|
  let log := Prog.prepare .variable (built alignedLen) out fun _ => out
  .cond .isNeedToSetDeleting log (.check .extentRemoveRecord out log)

def updateRecord (alignedLen : Nat) : Prog :=
  let out := releaseIf alignedLen .done
  checks [.permission, .mbLock, .extractData] .done <|
  .cond .newChgEmpty .done <|
  checks [.modify, .buildRecord, .syncControl .variable] .done <|
  .reserve .variable alignedLen .done <|
  checks [.extentUpdatedRecord, .exception] out <|
  .prepare .variable (built alignedLen) out fun _ => out

def popRecord (alignedLen : Nat) : Prog :=
  checks [.extractRecLID, .mbLock] .done <|
  .cond .noRecords .done <|
  checks [.buildRecord, .syncControl .nobody] .done <|
  .reserve .nobody alignedLen .done <|
  .check .popRecord .done <|
  .prepare .nobody (built alignedLen) .done fun _ => .done

def updateWithPage (len : Nat) (ret : Prog) : Prog :=
  let done (head : LogRecordHeader) := releaseIf head.length ret
  let head := built len
  checks [.pageID, .mbLock, .opened, .pageSize, .access, .extentAddress, .allocBuff, .readData, .buildRecord]
    (done .clear) <|
  .check (.syncControl .header) (done head) <|
  .reserve .header len (done (cleared head)) <|
  .check .writeData (done head) <|
  .prepare .header head (done head) done

/-- `_dmsStorageLob::_writeInner`; the record is `lenW` bytes long if a piece is written and `lenU` bytes if it
is updated. -/
def writeInner (updateWhenExist : Bool) (lenW lenU : Nat) : Prog :=
  let done (head : LogRecordHeader) := releaseIf head.length .done
  let head := built lenW
  let writeWithPage :=
    checks [.pageID, .mbLock, .opened, .pageSize, .access, .writeData, .fillPage] (done head) <|
    .prepare .header head (done head) done
  checks [.delayOpen, .buildRecord] (done .clear) <|
  .check (.syncControl .header) (done head) <|
  .reserve .header lenW (done (cleared head)) <|
  checks [.mbLock, .allocatePage] (done head) <|
  if updateWhenExist then
    .check .find (done head) <|
    .cond .foundPage (.release head.length (updateWithPage lenU (done (cleared head)))) writeWithPage
  else writeWithPage

def lobUpdate (len : Nat) : Prog :=
  checks [.delayOpen, .mbLock, .find, .pieceExists] .done (updateWithPage len .done)

def lobRemove (len lenOld : Nat) : Prog :=
  let out := releaseIf len .done
  checks [.delayOpen, .buildRecord, .syncControl .variable] .done <|
  .reserve .variable len .done <|
  checks [.mbLock, .opened, .access, .find] out <|
  .cond .pageMissing out <|
  checks [.extentAddress, .allocBuff, .readData, .removePage] out <|
  .check .buildRecord .panic <|
  .prepare .variable (built lenOld) .panic fun _ => out

end Prog

/-- The operations, with the lengths of their log records. -/
inductive SpaceOp
  | insert (alignedLen : Nat)
  | delete (alignedLen : Nat)
  | update (alignedLen : Nat)
  | pop (alignedLen : Nat)
  | lobWrite (len : Nat)
  | lobWriteOrUpdate (lenW lenU : Nat)
  | lobUpdate (len : Nat)
  | lobRemove (len lenOld : Nat)
  deriving DecidableEq, Repr

def SpaceOp.prog : SpaceOp → Prog
  | .insert n => .insertRecord n
  | .delete n => .deleteRecord n
  | .update n => .updateRecord n
  | .pop n => .popRecord n
  | .lobWrite n => .writeInner false n 0
  | .lobWriteOrUpdate n m => .writeInner true n m
  | .lobUpdate n => .lobUpdate n
  | .lobRemove n m => .lobRemove n m

/-! ### The sessions -/

structure SpaceConf where
  log : LogConf
  logFileTotalSize : Nat
  maxUsedSize : Nat

/-- A session: what is left of its operation, and the lengths it has reserved and not released. -/
structure SpaceSession where
  prog : Prog
  held : Nat

/-- `_accquiredSpace`, the end of the log, and the sessions. -/
structure SpaceState (σ : Type*) where
  acquired : Nat
  lsn : Nat
  sessions : σ → SpaceSession

/-- What a step reads from the rest of the system: how a check ends, and the begin of the oldest open
transaction. -/
structure Answer where
  ok : Bool
  oldest : Option Nat
  deriving DecidableEq, Repr

def usedLogSpace (c : SpaceConf) (oldest : Option Nat) (lsn : Nat) : Nat :=
  match oldest with
  | none => 0
  | some b => (lsn % c.logFileTotalSize + c.logFileTotalSize - b % c.logFileTotalSize) % c.logFileTotalSize

def releaseLogSpace (len acquired : Nat) : Nat :=
  if len ≤ acquired then acquired - len else 0

namespace SpaceState

variable {σ : Type*} [DecidableEq σ]

def initial (lsn : Nat) : SpaceState σ where
  acquired := 0
  lsn := lsn
  sessions _ := { prog := .done, held := 0 }

def setSession (s : SpaceState σ) (i : σ) (x : SpaceSession) : SpaceState σ :=
  { s with sessions := Function.update s.sessions i x }

def advance (c : SpaceConf) (s : SpaceState σ) (i : σ) (a : Answer) : SpaceState σ :=
  let x := s.sessions i
  match x.prog with
  | .done => s
  | .panic => s
  | .check _ fail next => s.setSession i { x with prog := if a.ok then next else fail }
  | .cond _ yes no => s.setSession i { x with prog := if a.ok then yes else no }
  | .reserve k n refused granted =>
    { s with acquired := s.acquired + n }.setSession i { prog := .test k n refused granted, held := x.held + n }
  | .test _ n refused granted =>
    s.setSession i { x with
      prog := if c.maxUsedSize ≤ usedLogSpace c a.oldest s.lsn + s.acquired then .undo n refused else granted }
  | .undo n refused =>
    { s with acquired := releaseLogSpace n s.acquired }.setSession i { prog := refused, held := x.held - n }
  | .release n next =>
    { s with acquired := releaseLogSpace n s.acquired }.setSession i { prog := next, held := x.held - n }
  | .prepare _ head fail next =>
    if c.log.totalSize < head.length then s.setSession i { x with prog := fail }
    else
      let offset := recordOffset c.log s.lsn head.length
      let length := recordLength c.log s.lsn head.length
      { s with lsn := offset + length }.setSession i
        { x with prog := next { head with lsn := offset, length := length } }

end SpaceState

/-- A session starts an operation, or takes a step. -/
inductive SpaceAct (σ : Type*)
  | start (i : σ) (op : SpaceOp)
  | run (i : σ) (a : Answer)

namespace SpaceState

variable {σ : Type*} [DecidableEq σ]

def Busy (s : SpaceState σ) (i : σ) : Prop := (s.sessions i).prog ≠ .done

def step (c : SpaceConf) (s : SpaceState σ) : SpaceAct σ → SpaceState σ
  | .start i op =>
    match (s.sessions i).prog with
    | .done => s.setSession i { prog := op.prog, held := 0 }
    | _ => s
  | .run i a => s.advance c i a

def outstanding [Fintype σ] (s : SpaceState σ) : Nat :=
  ∑ i, match (s.sessions i).prog with
    | .done => 0
    | _ => (s.sessions i).held

/-- The step does not meet one of the places where an operation loses count: the sync control fails in the
operation of a LOB piece, or the reservation is refused there; its record is stretched to the end of a log
file; a piece that is to be written is found; or a pop gets its reservation. -/
def Counted (c : SpaceConf) (s : SpaceState σ) : SpaceAct σ → Prop
  | .start _ _ => True
  | .run i a =>
    match (s.sessions i).prog with
    | .check (.syncControl .header) _ _ => a.ok = true
    | .cond .foundPage _ _ => a.ok = false
    | .test .header _ _ _ => usedLogSpace c a.oldest s.lsn + s.acquired < c.maxUsedSize
    | .test .nobody _ _ _ => c.maxUsedSize ≤ usedLogSpace c a.oldest s.lsn + s.acquired
    | .prepare .header head _ _ =>
      head.length ≤ c.log.totalSize → recordLength c.log s.lsn head.length = head.length
    | _ => True

instance (c : SpaceConf) (s : SpaceState σ) (a : SpaceAct σ) : Decidable (s.Counted c a) := by
  unfold Counted
  split
  · infer_instance
  · split <;> infer_instance

end SpaceState

/-! ### Operations that keep count -/

/-- An operation that has reserved `held` gives back exactly that by its end, as long as its steps are
`Counted`. -/
def Prog.Balanced : Prog → Nat → Prop
  | .done, held => held = 0
  | .panic, _ => True
  | .check p fail next, held => (p ≠ .syncControl .header → fail.Balanced held) ∧ next.Balanced held
  | .cond b yes no, held => (b ≠ .foundPage → yes.Balanced held) ∧ no.Balanced held
  | .reserve k n refused granted, held =>
    (k ≠ .header → refused.Balanced held) ∧ (k ≠ .nobody → granted.Balanced (held + n))
  | .test k n refused granted, held =>
    n ≤ held ∧ (k ≠ .header → refused.Balanced (held - n)) ∧ (k ≠ .nobody → granted.Balanced held)
  | .undo n refused, held => n ≤ held ∧ refused.Balanced (held - n)
  | .release n next, held => n ≤ held ∧ next.Balanced (held - n)
  | .prepare k head fail next, held =>
    fail.Balanced held ∧ ∀ head', (k = .header → head'.length = head.length) → (next head').Balanced held

namespace Prog

variable {fail next : Prog} {held : Nat}

theorem balanced_checks {ps : List Point} (hps : .syncControl .header ∉ ps) (hf : fail.Balanced held)
    (hn : next.Balanced held) : (checks ps fail next).Balanced held := by
  induction ps with
  | nil => exact hn
  | cons p ps ih => exact ⟨fun _ => hf, ih fun h => hps (List.mem_cons_of_mem p h)⟩

theorem balanced_releaseIf {len : Nat} (h : next.Balanced 0) : (releaseIf len next).Balanced len := by
  unfold releaseIf
  split_ifs with hl
  · rwa [hl]
  · exact ⟨le_rfl, by rwa [Nat.sub_self]⟩

theorem balanced_done : Prog.done.Balanced 0 := rfl

theorem balanced_out (len : Nat) : (releaseIf len .done).Balanced (0 + len) := by
  rw [Nat.zero_add]
  exact balanced_releaseIf balanced_done

theorem balanced_insertRecord (n : Nat) : (insertRecord n).Balanced 0 := by
  refine balanced_checks (by decide) balanced_done ⟨fun _ => balanced_done, fun _ => ?_⟩
  have ho := balanced_out (ossRoundUpToMultipleX n 4)
  exact balanced_checks (by decide) ho ⟨ho, fun _ _ => ho⟩

theorem balanced_deleteRecord (n : Nat) : (deleteRecord n).Balanced 0 := by
  have ho := balanced_out n
  have hl : (Prog.prepare .variable (built n) (releaseIf n .done) fun _ => releaseIf n .done).Balanced (0 + n) :=
    ⟨ho, fun _ _ => ho⟩
  refine ⟨fun _ => balanced_done, fun _ => balanced_done, fun _ => balanced_done, fun _ => balanced_done,
    fun _ => ⟨fun _ => balanced_done, balanced_done⟩, ?_⟩
  refine balanced_checks (by decide) balanced_done ⟨fun _ => balanced_done, fun _ => ?_⟩
  exact ⟨fun _ => ho, fun _ => hl, fun _ => ho, hl⟩

theorem balanced_updateRecord (n : Nat) : (updateRecord n).Balanced 0 := by
  have ho := balanced_out n
  refine balanced_checks (by decide) balanced_done ⟨fun _ => balanced_done, ?_⟩
  refine balanced_checks (by decide) balanced_done ⟨fun _ => balanced_done, fun _ => ?_⟩
  exact balanced_checks (by decide) ho ⟨ho, fun _ _ => ho⟩

theorem balanced_popRecord (n : Nat) : (popRecord n).Balanced 0 := by
  refine balanced_checks (by decide) balanced_done ⟨fun _ => balanced_done, ?_⟩
  exact balanced_checks (by decide) balanced_done ⟨fun _ => balanced_done, fun h => absurd rfl h⟩

theorem balanced_updateWithPage {ret : Prog} (n : Nat) (hr : ret.Balanced 0) : (updateWithPage n ret).Balanced 0 := by
  have ho : (releaseIf n ret).Balanced (0 + n) := by
    rw [Nat.zero_add]
    exact balanced_releaseIf hr
  refine balanced_checks (by decide) hr ⟨fun h => absurd rfl h, fun h => absurd rfl h, fun _ => ?_⟩
  refine ⟨fun _ => ho, ho, fun head' hl => ?_⟩
  show (releaseIf head'.length ret).Balanced (0 + n)
  rw [hl rfl]
  exact ho

theorem balanced_writeInner (b : Bool) (n m : Nat) : (writeInner b n m).Balanced 0 := by
  have ho := balanced_out n
  have hw : (checks [.pageID, .mbLock, .opened, .pageSize, .access, .writeData, .fillPage] (releaseIf n .done)
      (.prepare .header (built n) (releaseIf n .done) fun he => releaseIf he.length .done)).Balanced (0 + n) := by
    refine balanced_checks (by decide) ho ⟨ho, fun head' hl => ?_⟩
    show (releaseIf head'.length .done).Balanced (0 + n)
    rw [hl rfl]
    exact ho
  refine balanced_checks (by decide) balanced_done ⟨fun h => absurd rfl h, fun h => absurd rfl h, fun _ => ?_⟩
  refine balanced_checks (by decide) ho ?_
  cases b with
  | false => exact hw
  | true => exact ⟨fun _ => ho, fun h => absurd rfl h, hw⟩

theorem balanced_lobUpdate (n : Nat) : (lobUpdate n).Balanced 0 :=
  balanced_checks (by decide) balanced_done (balanced_updateWithPage n balanced_done)

theorem balanced_lobRemove (n m : Nat) : (lobRemove n m).Balanced 0 := by
  have ho := balanced_out n
  refine balanced_checks (by decide) balanced_done ⟨fun _ => balanced_done, fun _ => ?_⟩
  refine balanced_checks (by decide) ho ⟨fun _ => ho, ?_⟩
  exact balanced_checks (by decide) ho ⟨fun _ => trivial, trivial, fun _ _ => ho⟩

theorem balanced_op (op : SpaceOp) : op.prog.Balanced 0 := by
  cases op with
  | insert n => exact balanced_insertRecord n
  | delete n => exact balanced_deleteRecord n
  | update n => exact balanced_updateRecord n
  | pop n => exact balanced_popRecord n
  | lobWrite n => exact balanced_writeInner false n 0
  | lobWriteOrUpdate n m => exact balanced_writeInner true n m
  | lobUpdate n => exact balanced_lobUpdate n
  | lobRemove n m => exact balanced_lobRemove n m

end Prog

/-! ### All sessions together -/

namespace SpaceState

variable {σ : Type*} [Fintype σ] {c : SpaceConf} {s : SpaceState σ}

/-- The counter is the sum of what the sessions hold, and every session is going to give back what it holds. -/
structure Inv (s : SpaceState σ) : Prop where
  acquired : s.acquired = ∑ i, (s.sessions i).held
  balanced : ∀ i, (s.sessions i).prog.Balanced (s.sessions i).held

theorem Inv.held_le (h : s.Inv) (i : σ) : (s.sessions i).held ≤ s.acquired := by
  rw [h.acquired]
  exact single_le_sum (f := fun j => (s.sessions j).held) (fun _ _ => Nat.zero_le _) (mem_univ i)

theorem inv_initial (lsn : Nat) : (initial lsn : SpaceState σ).Inv where
  acquired := by simp [initial]
  balanced _ := rfl

theorem Inv.outstanding_eq (h : s.Inv) : s.outstanding = s.acquired := by
  rw [h.acquired, outstanding]
  refine sum_congr rfl fun i _ => ?_
  have hb := h.balanced i
  split
  next hprog =>
    rw [hprog] at hb
    exact hb.symm
  next => rfl

variable [DecidableEq σ]

theorem sum_setSession (s : SpaceState σ) (i : σ) (x : SpaceSession) :
    ∑ j, ((s.setSession i x).sessions j).held + (s.sessions i).held = ∑ j, (s.sessions j).held + x.held := by
  have hold := add_sum_erase univ (fun j => (s.sessions j).held) (mem_univ i)
  have hh (j) : ((s.setSession i x).sessions j).held = Function.update (fun j => (s.sessions j).held) i x.held j :=
    Function.apply_update (fun _ => SpaceSession.held) ..
  rw [sum_congr rfl fun j _ => hh j, sum_update_of_mem (mem_univ i), sdiff_singleton_eq_erase]
  omega

theorem Inv.setSession {t : SpaceState σ} {i : σ} {x : SpaceSession} (h : s.Inv)
    (hs : t.sessions = s.sessions) (hacquired : t.acquired + (s.sessions i).held = s.acquired + x.held)
    (hx : x.prog.Balanced x.held) : (t.setSession i x).Inv where
  acquired := by
    have hsum := sum_setSession t i x
    have hold := h.acquired
    rw [hs] at hsum
    show t.acquired = _
    omega
  balanced := (Function.forall_update_iff t.sessions fun _ x => x.prog.Balanced x.held).2
    ⟨hx, fun j _ => hs ▸ h.balanced j⟩

theorem releaseLogSpace_add {n acquired : Nat} (h : n ≤ acquired) : releaseLogSpace n acquired + n = acquired := by
  rw [releaseLogSpace, if_pos h]
  omega

theorem Inv.advance {i : σ} {a : Answer} (h : s.Inv) (ha : s.Counted c (.run i a)) : (s.advance c i a).Inv := by
  have hb := h.balanced i
  have hh := h.held_le i
  rw [Counted] at ha
  unfold SpaceState.advance
  dsimp only
  revert hb ha
  cases (s.sessions i).prog with
  | done | panic => exact fun _ _ => h
  | check p fail next =>
    intro ha hb
    refine h.setSession rfl rfl ?_
    by_cases hok : a.ok = true
    · simp only [hok, if_true]
      exact hb.2
    · simp only [hok]
      refine hb.1 ?_
      rintro rfl
      exact hok ha
  | cond b yes no =>
    intro ha hb
    refine h.setSession rfl rfl ?_
    by_cases hok : a.ok = true
    · simp only [hok, if_true]
      refine hb.1 ?_
      rintro rfl
      simp [hok] at ha
    · simp only [hok]
      exact hb.2
  | reserve k n refused granted =>
    intro _ hb
    refine h.setSession rfl (by dsimp only; omega) ⟨Nat.le_add_left n _, fun hk => ?_, hb.2⟩
    rw [Nat.add_sub_cancel]
    exact hb.1 hk
  | test k n refused granted =>
    intro ha hb
    refine h.setSession rfl rfl ?_
    dsimp only
    split_ifs with hf
    · refine ⟨hb.1, hb.2.1 ?_⟩
      rintro rfl
      exact absurd ha (Nat.not_lt.2 hf)
    · refine hb.2.2 ?_
      rintro rfl
      exact hf ha
  | undo n refused | release n next =>
    intro _ hb
    have hrel := releaseLogSpace_add (hb.1.trans hh)
    have hle := hb.1
    exact h.setSession rfl (by dsimp only; omega) hb.2
  | prepare k head fail next =>
    intro ha hb
    dsimp only
    split_ifs with hl
    · exact h.setSession rfl rfl hb.1
    · refine h.setSession rfl rfl (hb.2 _ ?_)
      rintro rfl
      exact ha (Nat.le_of_not_lt hl)

theorem Inv.step {a : SpaceAct σ} (h : s.Inv) (ha : s.Counted c a) : (s.step c a).Inv := by
  cases a with
  | run i a => exact h.advance ha
  | start i op =>
    rw [SpaceState.step]
    split
    next hprog =>
      have hb := h.balanced i
      rw [hprog] at hb
      refine h.setSession rfl ?_ (Prog.balanced_op op)
      rw [show (s.sessions i).held = 0 from hb]
    next => exact h

end SpaceState

/-- As long as all steps are `Counted`, the reserved log space is what the operations in progress have reserved
and not yet released, and it is 0 when no operation is in progress. -/
theorem logSpace_exact {σ : Type*} [DecidableEq σ] [Fintype σ] (c : SpaceConf) (lsn : Nat)
    (as : List (SpaceAct σ)) (has : Meets (SpaceState.Counted c) (SpaceState.step c) (.initial lsn) as) :
    let s := run (SpaceState.step c) (.initial lsn) as
    s.acquired = s.outstanding ∧ ((∀ i, ¬ s.Busy i) → s.acquired = 0) := by
  intro s
  have hinv : s.Inv := run_invariant (fun _ _ h ha => h.step ha) (SpaceState.inv_initial lsn) has
  refine ⟨hinv.outstanding_eq.symm, fun hidle => ?_⟩
  rw [hinv.acquired]
  refine sum_eq_zero fun i _ => ?_
  have hbal := hinv.balanced i
  rw [not_not.1 (hidle i)] at hbal
  exact hbal

def smallSpace : SpaceConf where
  log := smallConf
  logFileTotalSize := 1000
  maxUsedSize := 500

def well : Answer := { ok := true, oldest := none }

def badly : Answer := { ok := false, oldest := none }

def twoSessions : List (SpaceAct Bool) :=
  [.start false (.insert 64), .start true (.lobWrite 64)] ++
    (List.replicate 6 [.run false well, .run true well]).flatten

theorem logSpace_exact_twoSessions :
    Meets (SpaceState.Counted smallSpace) (SpaceState.step smallSpace) (.initial 0) twoSessions ∧
      (run (SpaceState.step smallSpace) (.initial 0) twoSessions).outstanding = 128 ∧
      (run (SpaceState.step smallSpace) (.initial 0) twoSessions).acquired = 128 := by
  have hmeets : Meets (SpaceState.Counted smallSpace) (SpaceState.step smallSpace) (.initial 0) twoSessions := by
    decide +kernel
  have hsum : (run (SpaceState.step smallSpace) (.initial 0) twoSessions).outstanding = 128 := by decide +kernel
  exact ⟨hmeets, hsum, (logSpace_exact smallSpace 0 twoSessions hmeets).1.trans hsum⟩

def onePop : List (SpaceAct Bool) :=
  .start false (.pop 64) :: [well, well, badly, well, well, well, well, well, well].map (.run false)

def failedWrite : List (SpaceAct Bool) :=
  (.start false (.insert 64) :: List.replicate 6 (.run false well)) ++
    (.start true (.lobWrite 64) :: [well, well, badly, well].map (.run true))

/-- A pop leaves its reservation behind; a write of a LOB piece takes away the reservation of another session. -/
theorem logSpace_notExact :
    (run (SpaceState.step smallSpace) (.initial 0) onePop).outstanding = 0 ∧
      (run (SpaceState.step smallSpace) (.initial 0) onePop).acquired = 64 ∧
      (run (SpaceState.step smallSpace) (.initial 0) failedWrite).outstanding = 64 ∧
      (run (SpaceState.step smallSpace) (.initial 0) failedWrite).acquired = 0 := by
  decide +kernel

end SequoiaDB.Dps

import SequoiaDB.Dps.LockView

/-!
# The lock table

The type of a lock is stored twice, in the run list of the unit and in the lock info of the session.  The run lists
are compatible in every run.  The two types agree between the calls if no wait behind `tryOrAppendX` fails and
`tryOrAppendX` finds no S lock of its own session; otherwise the lock info says X for a lock that the session does
not have.
-/

namespace SequoiaDB.Dps

open Lib List LockSystem Function

namespace LockType

theorem isLockCompatible_comm (a b : LockType) : a.isLockCompatible b = b.isLockCompatible a := by
  cases a <;> cases b <;> rfl

variable {a : LockType}

theorem isLockCompatible_self (h : a ≠ X) : a.isLockCompatible a := by
  cases a <;> first | rfl | exact absurd rfl h

theorem eq_S_of_upgradeCheck (h : a.upgradeCheck X) : a = S := by
  cases a <;> first | rfl | exact absurd h (by decide)

end LockType

variable {n : Nat}

/-! ### The run lists -/

theorem checkLoop_iff {t : Fin n} {type : LockType} {r : Fin n → Option LockType}
    (hr : ∀ u v a b, u ≠ v → r u = some a → r v = some b → a.isLockCompatible b) (us : List (Fin n))
    (hall : ∀ u, u ∉ us → u ≠ t → ∀ a, r u = some a → a.isLockCompatible type) :
    checkLoop t type r us = true ↔ ∀ u, u ≠ t → ∀ a, r u = some a → a.isLockCompatible type := by
  induction us with
  | nil => simpa [checkLoop] using hall
  | cons u us ih =>
    have hskip : (u ≠ t → ∀ a, r u = some a → a.isLockCompatible type = true) →
        ∀ v, v ∉ us → v ≠ t → ∀ a, r v = some a → a.isLockCompatible type = true := by
      intro hu v hv hvt a ha
      by_cases huv : v = u
      · subst huv
        exact hu hvt a ha
      · exact hall v (by simp [huv, hv]) hvt a ha
    cases hru : r u with
    | none =>
      simp only [checkLoop, hru]
      exact ih (hskip fun _ a ha => by simp [hru] at ha)
    | some b =>
      simp only [checkLoop, hru]
      by_cases hs : b = type ∧ type ≠ .X
      · simp only [if_pos hs, true_iff]
        obtain ⟨rfl, hX⟩ := hs
        intro v hv a ha
        by_cases huv : v = u
        · subst huv
          rw [hru] at ha
          cases ha
          exact LockType.isLockCompatible_self hX
        · exact hr v u a b huv ha hru
      · rw [if_neg hs]
        by_cases hb : u ≠ t ∧ b.isLockCompatible type = false
        · simp only [if_pos hb, Bool.false_eq_true, false_iff]
          intro h
          exact absurd (h u hb.1 b hru) (by rw [hb.2]; exact Bool.false_ne_true)
        · rw [if_neg hb]
          refine ih (hskip fun hut a ha => ?_)
          rw [hru] at ha
          cases ha
          simpa using fun h => hb ⟨hut, h⟩

namespace LockSystem

variable {s : LockSystem n}

def RunsCompatible (s : LockSystem n) : Prop :=
  ∀ id t u a b, t ≠ u → s.runEntry id t = some a → s.runEntry id u = some b → a.isLockCompatible b = true

theorem compatible_iff (h : s.RunsCompatible) (t : Fin n) (id : LockId) (type : LockType) :
    s.compatible t id type ↔ ∀ u, u ≠ t → ∀ a, s.runEntry id u = some a → a.isLockCompatible type :=
  checkLoop_iff (h id) _ fun u hu => absurd (mem_finRange u) hu

end LockSystem

def Doing.wants : Doing → Option (LockId × LockType)
  | .locking level _ => some (level.id, level.type)
  | .awake w => some (w.id, w.type)
  | _ => none

namespace LockView

variable {v : LockView} {id : LockId}

theorem run_lock (level : Level) (rest : List Level) (ok : Bool) (gen : Nat) :
    (v.lock level rest ok gen).run = v.run ∨
      ok ∧ (v.lock level rest ok gen).run = update v.run level.id (some level.type) := by
  unfold lock
  split
  · unfold lockNew
    split
    next hok => exact .inr ⟨hok, rfl⟩
    next => split <;> exact .inl rfl
  · split
    · exact .inl rfl
    · unfold lockUpgrade
      split
      · exact .inl rfl
      · split
        next hok => exact .inr ⟨hok, rfl⟩
        next => split <;> exact .inl rfl

theorem run_granted (w : Waiter) : (v.granted w).run = update v.run w.id (some w.type) := by
  unfold granted
  split <;> rfl

theorem run_refused (w : Waiter) (rc : Rc) : (v.refused w rc).run = v.run := by
  unfold refused
  split <;> rfl

theorem run_go (ok : Bool) (gen : Nat) : (v.go ok gen).run = v.run ∨
    (∃ id, (v.go ok gen).run = update v.run id none) ∨
      ∃ id type, ok ∧ v.session.doing.wants = some (id, type) ∧ (v.go ok gen).run = update v.run id (some type) := by
  unfold go
  cases hdoing : v.session.doing with
  | idle rc => exact .inl rfl
  | locking level rest =>
    exact (run_lock level rest ok gen).imp_right fun h => .inr ⟨level.id, level.type, h.1, rfl, h.2⟩
  | finding id => exact .inl rfl
  | waiting w => cases ok <;> exact .inl rfl
  | awake w =>
    cases ok with
    | false => exact .inl rfl
    | true => exact .inr (.inr ⟨w.id, w.type, rfl, rfl, run_granted w⟩)
  | gaveUp w rc => exact .inl (run_refused w rc)
  | releasing id rc =>
    simp only [release]
    split
    · exact .inl rfl
    · split
      · exact .inr (.inl ⟨id, rfl⟩)
      · exact .inl rfl

theorem run_call (c : LockCall) : (v.call c).run = v.run := by
  unfold call
  split <;> rfl

theorem run_endWait (rc : Rc) : (v.endWait rc).run = v.run := by
  unfold endWait
  split <;> rfl

end LockView

namespace LockSystem

variable {s : LockSystem n}

theorem answer_of_wants {t : Fin n} {id : LockId} {type : LockType}
    (h : (s.sessions t).doing.wants = some (id, type)) : s.answer t = s.compatible t id type := by
  unfold answer
  cases hd : (s.sessions t).doing with
  | locking level rest | awake w =>
    rw [hd] at h
    cases h
    rfl
  | idle _ | finding _ | waiting _ | gaveUp _ _ | releasing _ _ =>
    rw [hd] at h
    cases h

theorem RunsCompatible.initial : (initial : LockSystem n).RunsCompatible :=
  nofun

theorem RunsCompatible.of_moves {s' : LockSystem n} {t : Fin n} {v : LockView} (h : s.RunsCompatible)
    (hm : Moves s s' t v)
    (hv : v.run = (s.view t).run ∨ (∃ id, v.run = update (s.view t).run id none) ∨
      ∃ id type, s.compatible t id type ∧ v.run = update (s.view t).run id (some type)) :
    s'.RunsCompatible := by
  -- an entry of `t` is an old one, or compatible with all others
  have hn : ∀ id a, s'.runEntry id t = some a →
      s.runEntry id t = some a ∨ ∀ u ≠ t, ∀ b, s.runEntry id u = some b → b.isLockCompatible a = true := by
    intro id a ha
    rw [show s'.runEntry id t = v.run id from congrFun (congrArg LockView.run hm.1) id] at ha
    obtain hv | ⟨id', hv⟩ | ⟨id', type, hok, hv⟩ := hv <;> simp only [hv, update_apply] at ha
    · exact .inl ha
    · split at ha
      · cases ha
      · exact .inl ha
    · split at ha
      next hid =>
        subst hid
        cases ha
        exact .inr ((compatible_iff h t id _).1 hok)
      · exact .inl ha
  have hold : ∀ id u, u ≠ t → s'.runEntry id u = s.runEntry id u :=
    fun id u hu => congrFun (congrArg LockView.run (hm.2 u hu)) id
  intro id u w a b huw hua hwb
  by_cases hut : u = t
  · subst hut
    rw [hold id w huw.symm] at hwb
    rcases hn id a hua with hua | hua
    · exact h id u w a b huw hua hwb
    · rw [LockType.isLockCompatible_comm]
      exact hua w huw.symm b hwb
  · rw [hold id u hut] at hua
    by_cases hwt : w = t
    · subst hwt
      rcases hn id b hwb with hwb | hwb
      · exact h id u w a b huw hua hwb
      · exact hwb u huw a hua
    · rw [hold id w hwt] at hwb
      exact h id u w a b huw hua hwb

theorem RunsCompatible.step (h : s.RunsCompatible) (a : LockAct n) : (s.step a).RunsCompatible := by
  rcases step_cases s a with hs | ⟨t, c, -, hm⟩ | ⟨t, gen, -, hm⟩ | ⟨t, rc, -, hm⟩
  · intro id t u a b htu hta hub
    exact h id t u a b htu ((congrFun (congrArg LockView.run (hs t)) id).symm.trans hta)
      ((congrFun (congrArg LockView.run (hs u)) id).symm.trans hub)
  · exact h.of_moves hm (.inl (LockView.run_call c))
  · refine h.of_moves hm ((LockView.run_go (s.answer t) gen).imp_right (Or.imp_right ?_))
    rintro ⟨id, type, hok, hw, hr⟩
    exact ⟨id, type, (answer_of_wants hw).symm.trans hok, hr⟩
  · exact h.of_moves hm (.inl (LockView.run_endWait rc))

end LockSystem

/-! ### The lock infos -/

def Level.Appends (level : Level) : Prop :=
  level.how = .tryAcquireOrAppend → level.id.isRecord = true ∧ level.type = .X

variable {level : Level}

theorem Level.appends_of_how (h : level.how ≠ .tryAcquireOrAppend) : level.Appends :=
  fun h' => absurd h' h

variable {how : How} {id : LockId}

theorem how_of_mem_acquireIS (h : level ∈ acquireIS how id) : level.how = how := by
  unfold acquireIS at h
  split_ifs at h <;> simp at h <;> rcases h with rfl | rfl <;> rfl

theorem how_of_mem_acquireIX (h : level ∈ acquireIX how id) : level.how = how := by
  rcases mem_append.1 h with h | h
  · split_ifs at h
    · cases h
    · exact how_of_mem_acquireIS h
  · rw [mem_singleton.1 h]

theorem how_of_mem_acquireS (h : level ∈ acquireS how id) : level.how = how := by
  rcases mem_append.1 h with h | h
  · split at h
    · cases h
    · exact how_of_mem_acquireIS h
  · rw [mem_singleton.1 h]

theorem how_of_mem_acquireX (h : level ∈ acquireX how id) : level.how = how := by
  rcases mem_append.1 h with h | h
  · split at h
    · cases h
    · exact how_of_mem_acquireIX h
  · rw [mem_singleton.1 h]

theorem appends_of_mem_tryOrAppendX (hid : id.isRecord) (h : level ∈ tryOrAppendX id) : level.Appends := by
  rcases mem_append.1 h with h | h
  · split at h
    · cases h
    · exact Level.appends_of_how (by rw [how_of_mem_acquireIX h]; exact nofun)
  · rw [mem_singleton.1 h]
    exact fun _ => ⟨hid, rfl⟩

theorem LockCall.start_cases {c : LockCall} (hc : c.asserted) :
    (∃ id, c = .wait id) ∨ (∃ id, c.start = .releasing id .ok) ∨
      ∃ levels, c.start = .start levels ∧ ∀ l ∈ levels, l.Appends := by
  have ha : ∀ (how : How) {levels : List Level}, how ≠ .tryAcquireOrAppend → (∀ l ∈ levels, l.how = how) →
      ∀ l ∈ levels, l.Appends :=
    fun _ _ hh hlevels l hl => Level.appends_of_how (by rw [hlevels l hl]; exact hh)
  cases c with
  | wait id => exact .inl ⟨id, rfl⟩
  | release id => exact .inr (.inl ⟨id, rfl⟩)
  | acquireX id | tryX id => exact .inr (.inr ⟨_, rfl, ha _ (by nofun) fun _ => how_of_mem_acquireX⟩)
  | acquireS id | tryS id => exact .inr (.inr ⟨_, rfl, ha _ (by nofun) fun _ => how_of_mem_acquireS⟩)
  | acquireIX id | tryIX id => exact .inr (.inr ⟨_, rfl, ha _ (by nofun) fun _ => how_of_mem_acquireIX⟩)
  | acquireIS id | tryIS id => exact .inr (.inr ⟨_, rfl, ha _ (by nofun) fun _ => how_of_mem_acquireIS⟩)
  | tryOrAppendX id => exact .inr (.inr ⟨_, rfl, fun _ => appends_of_mem_tryOrAppendX hc⟩)

def Doing.waiter : Doing → Option Waiter
  | .waiting w | .awake w | .gaveUp w _ => some w
  | .idle _ | .locking _ _ | .finding _ | .releasing _ _ => none

namespace LockView

variable {lax up : Prop} {v : LockView}

def Ahead (v : LockView) (id : LockId) (up : Prop) : Prop :=
  ∃ h, v.hold id = some h ∧ h.type = .X ∧ (v.run id = none ∨ up ∧ v.run id = some .S)

def WaitsFor (up : Prop) (v : LockView) (w : Waiter) : Prop :=
  v.session.queued = some w.id ∧
    match w.resume with
    | .waitLockX => w.id.isRecord = true ∧ w.type = .X ∧ v.Ahead w.id up
    | .level last rest => (∃ h, v.hold w.id = some h ∧ h.type = w.type) ∧ v.run w.id = last ∧
        (∀ l ∈ last, l.upgradeCheck w.type = true) ∧ ∀ level ∈ rest, level.Appends

def Appended (up : Prop) (v : LockView) : Prop :=
  ∀ id, v.session.queued = some id → id.isRecord = true ∧ v.Ahead id up

def Placed (lax up : Prop) (v : LockView) : Prop :=
  match v.session.doing with
  | .idle _ => v.Appended up
  | .locking level rest => v.session.queued = none ∧ ∀ l ∈ level :: rest, l.Appends
  | .finding id => v.session.queued = some id ∧ id.isRecord = true ∧ v.Ahead id up
  | .waiting w | .awake w => v.WaitsFor up w
  | .gaveUp w _ => v.WaitsFor up w ∧ (lax ∨ w.resume ≠ .waitLockX)
  | .releasing id _ => v.Appended up ∧ (id.isRecord = true → v.session.queued = none)

/-- The lock infos agree with the run lists; `lax` admits locks that a failed wait has left behind, and `up` admits
an upgrade by `tryOrAppendX`. -/
structure Agrees (lax up : Prop) (v : LockView) : Prop where
  free : ∀ id, v.session.queued ≠ some id → v.run id = (v.hold id).map Hold.type ∨ lax ∧ v.Ahead id True
  placed : v.Placed lax up

theorem placed_start {rest : List Level} (hd : v.session.doing = .start rest) (hq : v.session.queued = none)
    (hr : ∀ l ∈ rest, l.Appends) : v.Placed lax up := by
  unfold Placed
  rw [hd]
  cases rest with
  | nil => exact fun id h => by simp [hq] at h
  | cons level rest => exact ⟨hq, hr⟩

theorem placed_above {id : LockId} {rc : Rc} (hd : v.session.doing = .above id rc) (ha : v.Appended up) :
    v.Placed lax up := by
  unfold Placed
  rw [hd, Doing.above]
  cases hparent : id.parent with
  | none => exact ha
  | some p =>
    refine ⟨ha, fun hp => ?_⟩
    rw [LockId.isRecord_of_parent hparent] at hp
    cases hp

theorem appended_of_none (hq : v.session.queued = none) : v.Appended up :=
  fun id h => by simp [hq] at h

namespace Agrees

theorem change {v' : LockView} (h : v.Agrees lax up) (id : LockId)
    (ho : ∀ id', id' ≠ id → v'.hold id' = v.hold id' ∧ v'.run id' = v.run id')
    (hq : v.session.queued = none ∨ v.session.queued = some id ∨ v'.session.queued = v.session.queued)
    (hid : v'.session.queued ≠ some id → v'.run id = (v'.hold id).map Hold.type ∨ lax ∧ v'.Ahead id True)
    (hp : v'.Placed lax up) : v'.Agrees lax up where
  free id' hid' := by
    by_cases hne : id' = id
    · subst hne
      exact hid hid'
    · have := h.free id' fun hv => by
        rcases hq with hq | hq | hq
        · cases hq.symm.trans hv
        · exact hne (Option.some.inj (hv.symm.trans hq))
        · exact hid' (hq.trans hv)
      unfold Ahead at this ⊢
      rwa [(ho id' hne).1, (ho id' hne).2]
  placed := hp

variable {x : Session}

theorem setSession (h : v.Agrees lax up) (hq : x.queued = v.session.queued) (hp : (v.setSession x).Placed lax up) :
    (v.setSession x).Agrees lax up where
  free id hid := h.free id fun hv => hid (hq.trans hv)
  placed := hp

variable {id : LockId} {hold : Hold}

theorem run_of_hold (h : v.Agrees lax up) (hh : v.hold id = some hold) (hq : v.session.queued ≠ some id) :
    v.run id = some hold.type ∨ lax ∧ v.Ahead id True := by
  simpa [hh] using h.free id hq

theorem run_of_none (h : v.Agrees lax up) (hh : v.hold id = none) (hq : v.session.queued ≠ some id) :
    v.run id = none := by
  rcases h.free id hq with hr | ⟨-, h', hh', -⟩
  · rw [hr, hh]
    rfl
  · rw [hh] at hh'
    cases hh'

variable {level : Level} {rest : List Level} (h : v.Agrees lax up)

include h

theorem waitsFor {w : Waiter} (hw : v.session.doing.waiter = some w) : v.WaitsFor up w := by
  have hp := h.placed
  unfold Placed at hp
  cases hd : v.session.doing <;> rw [hd] at hp hw <;> cases hw
  case waiting | awake => exact hp
  case gaveUp => exact hp.1

theorem of_queued {id : LockId} (hq : v.session.queued = some id) :
    (id.isRecord = true ∧ v.Ahead id up) ∨ ∃ w, v.session.doing.waiter = some w ∧ w.id = id ∧ v.WaitsFor up w := by
  have hp := h.placed
  unfold Placed at hp
  revert hp
  have hwait : ∀ w, v.WaitsFor up w → w.id = id := fun w hw => Option.some.inj (hw.1.symm.trans hq)
  cases hdoing : v.session.doing with
  | waiting w | awake w => exact fun hp => .inr ⟨w, rfl, hwait w hp, hp⟩
  | gaveUp w rc => exact fun hp => .inr ⟨w, rfl, hwait w hp.1, hp.1⟩
  | idle rc => exact fun hp => .inl (hp id hq)
  | locking level rest => simp [hq]
  | finding id' =>
    intro hp
    cases hq.symm.trans hp.1
    exact .inl hp.2
  | releasing id' rc => exact fun hp => .inl (hp.1 id hq)

theorem lockNew (hh : v.hold level.id = none) (hq : v.session.queued = none)
    (hlevels : ∀ l ∈ level :: rest, l.Appends) (ok : Bool) (gen : Nat) :
    (v.lockNew level rest ok gen).Agrees lax up := by
  have hr : ∀ l ∈ rest, l.Appends := fun l hl => hlevels l (mem_cons_of_mem _ hl)
  have hrun : v.run level.id = none := h.run_of_none hh (by simp [hq])
  unfold LockView.lockNew
  cases ok with
  | true =>
    refine h.change level.id (fun id' hid => by simp [hid]) (.inl hq) (fun _ => .inl (by simp)) ?_
    exact placed_start rfl hq hr
  | false =>
    simp only [Bool.false_eq_true, if_false]
    cases hhow : level.how with
    | acquire =>
      refine h.change level.id (fun id' hid => by simp [hid]) (.inl hq) (fun hne => absurd rfl hne) ?_
      exact ⟨rfl, ⟨_, hold_setHold_self .., rfl⟩, hrun, by simp, hr⟩
    | tryAcquire => exact h.setSession rfl (placed_above rfl (appended_of_none hq))
    | tryAcquireOrAppend =>
      obtain ⟨hrecord, hX⟩ := hlevels level mem_cons_self hhow
      refine h.change level.id (fun id' hid => by simp [hid]) (.inl hq) (fun hne => absurd rfl hne) ?_
      rintro id ⟨rfl⟩
      exact ⟨hrecord, _, hold_setHold_self .., hX, .inl hrun⟩

theorem lockUpgrade (hh : v.hold level.id = some hold)
    (hm : ¬ hold.type.isLockMatch level.type) (hq : v.session.queued = none)
    (hlevels : ∀ l ∈ level :: rest, l.Appends) (hup : up ∨ level.how ≠ .tryAcquireOrAppend) (ok : Bool) (gen : Nat) :
    (v.lockUpgrade level rest hold ok gen).Agrees lax up := by
  have hr : ∀ l ∈ rest, l.Appends := fun l hl => hlevels l (mem_cons_of_mem _ hl)
  -- a lock info that is ahead of the run list has type X, and that matches
  have hrun : v.run level.id = some hold.type := by
    rcases h.run_of_hold hh (by simp [hq]) with hrun | ⟨-, h', hh', hX, -⟩
    · exact hrun
    · rw [hh] at hh'
      cases hh'
      exact absurd (by simp [LockType.isLockMatch, hX]) hm
  unfold LockView.lockUpgrade
  split
  · exact h.setSession rfl (placed_above rfl (appended_of_none hq))
  next hcheck =>
    rw [Bool.not_eq_false] at hcheck
    cases ok with
    | true =>
      refine h.change level.id (fun id' hid => by simp [hid]) (.inl hq) (fun _ => .inl (by simp)) ?_
      exact placed_start rfl hq hr
    | false =>
      simp only [Bool.false_eq_true, if_false]
      cases hhow : level.how with
      | acquire =>
        refine h.change level.id (fun id' hid => by simp [hid]) (.inl hq) (fun hne => absurd rfl hne) ?_
        exact ⟨rfl, ⟨_, hold_setHold_self .., rfl⟩, hrun, by simpa using hcheck, hr⟩
      | tryAcquire => exact h.setSession rfl (placed_above rfl (appended_of_none hq))
      | tryAcquireOrAppend =>
        obtain ⟨hrecord, hX⟩ := hlevels level mem_cons_self hhow
        refine h.change level.id (fun id' hid => by simp [hid]) (.inl hq) (fun hne => absurd rfl hne) ?_
        refine placed_above rfl ?_
        rintro id ⟨rfl⟩
        rw [hX] at hcheck
        rw [LockType.eq_S_of_upgradeCheck hcheck] at hrun
        exact ⟨hrecord, _, hold_setHold_self .., hX, .inr ⟨hup.resolve_right (by simp [hhow]), hrun⟩⟩

theorem addRef (hh : v.hold id = some hold) (hq : v.session.queued ≠ some id) (d : Int)
    (hx : x.queued = v.session.queued)
    (hp : ((v.setHold id (some ⟨hold.type, hold.ref + d⟩)).setSession x).Placed lax up) :
    ((v.setHold id (some ⟨hold.type, hold.ref + d⟩)).setSession x).Agrees lax up := by
  refine h.change id (fun id' hid => by simp [hid]) (.inr (.inr hx)) ?_ hp
  intro _
  refine (h.run_of_hold hh hq).imp (fun hr => by simpa using hr) (And.imp_right ?_)
  rintro ⟨h', hh', hX, hor⟩
  rw [hh] at hh'
  cases hh'
  exact ⟨_, hold_setHold_self .., hX, hor⟩

theorem lock (hq : v.session.queued = none) (hlevels : ∀ l ∈ level :: rest, l.Appends)
    (hup : up ∨ ∀ hold, v.hold level.id = some hold → level.how = .tryAcquireOrAppend → hold.type = .X) (ok : Bool)
    (gen : Nat) : (v.lock level rest ok gen).Agrees lax up := by
  unfold LockView.lock
  cases hh : v.hold level.id with
  | none => exact h.lockNew hh hq hlevels ok gen
  | some hold =>
    simp only
    split
    · refine h.addRef hh (by simp [hq]) 1 rfl ?_
      exact placed_start rfl hq fun l hl => hlevels l (mem_cons_of_mem _ hl)
    next hm =>
      refine h.lockUpgrade hh hm hq hlevels ?_ ok gen
      refine hup.imp_right fun hX hhow => hm ?_
      simp [LockType.isLockMatch, hX hold hh hhow]

omit h

variable {rc : Rc}

theorem release (h : v.Agrees lax up) (happ : v.Appended up) (hid : id.isRecord → v.session.queued = none) :
    (v.release id rc).Agrees lax up := by
  have hq : v.session.queued ≠ some id := by
    intro hq
    have := hid (happ id hq).1
    rw [hq] at this
    cases this
  -- the lock that the session waits for is another one
  have happ' : ∀ {v' : LockView}, (∀ id', id' ≠ id → v'.hold id' = v.hold id' ∧ v'.run id' = v.run id') →
      v'.session.queued = v.session.queued → v'.Appended up := by
    intro v' ho hq' id' hid'
    have hne : id' ≠ id := fun heq => hq (by rw [← hq', hid', heq])
    obtain ⟨hr, ha⟩ := happ id' (hq' ▸ hid')
    unfold Ahead at ha ⊢
    rw [(ho id' hne).1, (ho id' hne).2]
    exact ⟨hr, ha⟩
  unfold LockView.release
  cases hh : v.hold id with
  | none => exact h.setSession rfl happ
  | some hold =>
    simp only
    split
    · have ho : ∀ id', id' ≠ id → ((v.setRun id none).setHold id none).hold id' = v.hold id' ∧
          ((v.setRun id none).setHold id none).run id' = v.run id' := fun id' hid => by simp [hid]
      refine h.change id ho (.inr (.inr rfl)) (fun _ => .inl (by simp)) ?_
      exact placed_above rfl (happ' ho rfl)
    · refine h.addRef hh hq (-1) rfl ?_
      exact placed_above rfl (happ' (fun id' hid => by simp [hid]) rfl)

variable {w : Waiter} (h : v.Agrees lax up)

include h

theorem granted (hw : v.WaitsFor up w) : (v.granted w).Agrees lax up := by
  obtain ⟨hq, hw⟩ := hw
  unfold LockView.granted
  cases hr : w.resume with
  | waitLockX =>
    simp only [hr] at hw
    obtain ⟨-, hX, hold, hh, ht, -⟩ := hw
    refine h.change w.id (fun id' hid => by simp [hid]) (.inr (.inl hq)) (fun _ => .inl (by simp [hh, ht, hX])) ?_
    exact appended_of_none rfl
  | level last rest =>
    simp only [hr] at hw
    obtain ⟨⟨hold, hh, ht⟩, -, -, hrest⟩ := hw
    cases last with
    | none | some last =>
      refine h.change w.id (fun id' hid => by simp [hid]) (.inr (.inl hq)) (fun _ => .inl (by simp [hh, ht])) ?_
      exact placed_start rfl rfl hrest

theorem refused (hw : v.WaitsFor up w) (hl : lax ∨ w.resume ≠ .waitLockX) : (v.refused w rc).Agrees lax up := by
  obtain ⟨hq, hw⟩ := hw
  unfold LockView.refused
  cases hr : w.resume with
  | waitLockX =>
    simp only [hr] at hw
    obtain ⟨-, -, hold, hh, ht, hor⟩ := hw
    refine h.change w.id (fun _ _ => ⟨rfl, rfl⟩) (.inr (.inl hq)) (fun _ => .inr ⟨?_, hold, hh, ht, ?_⟩) ?_
    · exact hl.resolve_right fun hne => hne hr
    · exact hor.imp_right fun hS => ⟨trivial, hS.2⟩
    · exact appended_of_none rfl
  | level last rest =>
    simp only [hr] at hw
    obtain ⟨⟨hold, hh, ht⟩, hrun, -⟩ := hw
    cases last with
    | none | some last =>
      refine h.change w.id (fun id' hid => by simp [hid]) (.inr (.inl hq)) (fun _ => .inl (by simp [hrun, hh])) ?_
      exact placed_above rfl (appended_of_none rfl)

theorem go (hup : up ∨ ∀ level rest hold, v.session.doing = .locking level rest → v.hold level.id = some hold →
      level.how = .tryAcquireOrAppend → hold.type = .X) (ok : Bool) (gen : Nat) : (v.go ok gen).Agrees lax up := by
  have hp := h.placed
  unfold Placed at hp
  unfold LockView.go
  revert hp
  cases hd : v.session.doing with
  | idle rc => exact fun _ => h
  | locking level rest =>
    intro hp
    exact h.lock hp.1 hp.2 (hup.imp_right fun hX hold => hX level rest hold hd) ok gen
  | finding id =>
    intro hp
    refine h.setSession rfl ?_
    cases ok with
    | false =>
      intro id' hid'
      cases hp.1.symm.trans hid'
      exact hp.2
    | true => exact ⟨hp.1, hp.2.1, rfl, hp.2.2⟩
  | waiting w =>
    cases ok with
    | false => exact fun _ => h
    | true => exact fun hp => h.setSession rfl hp
  | awake w =>
    cases ok with
    | false => exact fun hp => h.setSession rfl hp
    | true => exact h.granted
  | gaveUp w rc => exact fun hp => h.refused hp.1 hp.2
  | releasing id rc => exact fun hp => h.release hp.1 hp.2

theorem call (c : LockCall) : (v.call c).Agrees lax up := by
  have hp := h.placed
  unfold Placed at hp
  unfold LockView.call
  split
  next hallows =>
    refine h.setSession rfl ?_
    cases hd : v.session.doing with
    | idle rc =>
      rw [hd] at hp
      cases hq : v.session.queued with
      | none =>
        obtain ⟨hw, ha⟩ : (∀ id, c ≠ .wait id) ∧ c.asserted = true := by
          cases c <;> simp_all [Session.allows]
        rcases LockCall.start_cases ha with ⟨id, rfl⟩ | ⟨id, hs⟩ | ⟨levels, hs, hl⟩
        · exact absurd rfl (hw id)
        · unfold Placed
          rw [session_setSession, hs]
          exact ⟨appended_of_none hq, fun _ => hq⟩
        · exact placed_start hs hq hl
      | some id =>
        obtain rfl : c = .wait id := by
          cases c <;> simp [Session.allows, hd, hq] at hallows
          rw [hallows]
        exact ⟨hq, hp id hq⟩
    | locking _ _ | finding _ | waiting _ | awake _ | gaveUp _ _ | releasing _ _ =>
      simp [Session.allows, hd] at hallows
  next => exact h

theorem endWait (hl : lax ∨ ∀ w, v.session.doing = .waiting w → w.resume ≠ .waitLockX) :
    (v.endWait rc).Agrees lax up := by
  unfold LockView.endWait
  split
  next w hd =>
    have hp := h.placed
    rw [Placed, hd] at hp
    exact h.setSession rfl ⟨hp, hl.imp_right fun hne => hne w hd⟩
  next => exact h

omit h

end Agrees

end LockView

/-! ### Runs -/

def Doing.isIdle : Doing → Bool
  | .idle _ => true
  | _ => false

def Doing.inWaitLockX : Doing → Bool
  | .waiting w => w.resume == .waitLockX
  | _ => false

namespace LockSystem

variable {s : LockSystem n} {lax up : Prop}

def waitsOut (s : LockSystem n) : LockAct n → Bool
  | .timeout t | .interrupt t => !(s.sessions t).doing.inWaitLockX
  | .call _ _ | .go _ => true

/-- A session has no S lock on the record that it is appended to wait for by `tryOrAppendX`. -/
def appendsNew (s : LockSystem n) : LockAct n → Bool
  | .go t =>
    match (s.sessions t).doing with
    | .locking level _ =>
      level.how != .tryAcquireOrAppend || (s.infos t level.id).all fun info => info.type == .X
    | _ => true
  | .call _ _ | .timeout _ | .interrupt _ => true

theorem agrees_initial (t : Fin n) : ((initial : LockSystem n).view t).Agrees lax up where
  free _ _ := .inl rfl
  placed _ h := by cases h

theorem agrees_step {a : LockAct n} (hl : lax ∨ s.waitsOut a) (hup : up ∨ s.appendsNew a)
    (h : ∀ t, (s.view t).Agrees lax up) (t : Fin n) : ((s.step a).view t).Agrees lax up := by
  refine view_step a (fun t c _ ht => ht.call c) ?_ ?_ h t
  · rintro t gen rfl ht
    refine ht.go (hup.imp_right fun hn level rest hold hd hh hhow => ?_) _ _
    obtain ⟨info, hi, rfl⟩ := Option.map_eq_some_iff.1 hh
    have hdoing' : (s.sessions t).doing = .locking level rest := hd
    simpa [appendsNew, hdoing', hhow, hi] using hn
  · intro t rc ha ht
    refine ht.endWait (hl.imp_right fun ho w hd hr => ?_)
    have hdoing' : (s.sessions t).doing = .waiting w := hd
    rcases ha with rfl | rfl <;> simp [waitsOut, hdoing', Doing.inWaitLockX, hr] at ho

theorem runsCompatible_run (as : List (LockAct n)) : (run step .initial as).RunsCompatible :=
  have hm : Meets (fun _ _ => True) step (initial : LockSystem n) as :=
    Meets.of_forall fun _ _ => trivial
  run_invariant (fun _ a h _ => h.step a) RunsCompatible.initial hm

theorem runEntry_giveUp {t : Fin n} {w : Waiter} {rc : Rc} (h : (s.sessions t).doing = .gaveUp w rc) (id : LockId) :
    (s.step (.go t)).runEntry id t = s.runEntry id t := by
  rcases step_cases s (.go t) with hs | ⟨u, c, hgo, -⟩ | ⟨u, gen, hgo, hm⟩ | ⟨u, rc, hgo | hgo, -⟩
  · exact congrFun (congrArg LockView.run (hs t)) id
  · cases hgo
  · cases hgo
    have hr : ((s.view t).go (s.answer t) gen).run = (s.view t).run := by
      unfold LockView.go
      rw [show (s.view t).session.doing = .gaveUp w rc from h]
      exact LockView.run_refused w rc
    exact congrFun ((congrArg LockView.run hm.1).trans hr) id
  · cases hgo
  · cases hgo

/-- **Whatever times out**, the locks that two sessions have of one unit are compatible, and a session has a lock info for
every entry that it has in a run list, with the type of the entry, or with X in place of S after a failed wait. -/
theorem runs_backed (as : List (LockAct n)) :
    let s := run step .initial as
    s.RunsCompatible ∧ ∀ t id type, (s.sessions t).queued ≠ some id → s.runEntry id t = some type →
      ∃ info, s.infos t id = some info ∧ (info.type = type ∨ info.type = .X ∧ type = .S) := by
  intro s
  have hall : Meets (fun _ _ => True) step (initial : LockSystem n) as := Meets.of_forall fun _ _ => trivial
  have hagrees : ∀ t, (s.view t).Agrees True True := run_invariant
    (I := fun s => ∀ t, (s.view t).Agrees True True) (fun _ _ h _ => agrees_step (.inl trivial) (.inl trivial) h)
    agrees_initial hall
  refine ⟨runsCompatible_run as, fun t id type hq htype => ?_⟩
  have hhold : (s.view t).hold id = (s.infos t id).map fun info => ⟨info.type, info.ref⟩ := rfl
  have hrun : (s.view t).run id = some type := htype
  obtain h | ⟨-, h, hh, hx, hno | ⟨-, hS⟩⟩ := (hagrees t).free id hq
  · rw [hrun, hhold, Option.map_map] at h
    obtain ⟨info, hinfo, htype'⟩ := Option.map_eq_some_iff.1 h.symm
    exact ⟨info, hinfo, .inl htype'⟩
  · simp [hrun] at hno
  · obtain ⟨info, hinfo, rfl⟩ := Option.map_eq_some_iff.1 (hhold ▸ hh)
    exact ⟨info, hinfo, .inr ⟨hx, Option.some_inj.1 (hrun.symm.trans hS)⟩⟩

end LockSystem

/-- The run lists are compatible, and between the calls of a session its lock infos have the types of its entries;
a session has a lock info exactly for the locks that it has or waits for, and giving up a wait changes no entry. -/
theorem lockTable_agreement (as : List (LockAct n))
    (has : Meets (fun s a => s.waitsOut a = true ∧ s.appendsNew a = true) step .initial as) :
    let s := run step .initial as
    s.RunsCompatible ∧
      (∀ t id, (s.sessions t).doing.isIdle = true →
        (∀ info type, s.infos t id = some info → s.runEntry id t = some type → info.type = type) ∧
          (s.infos t id ≠ none ↔ s.runEntry id t ≠ none ∨ (s.sessions t).queued = some id)) ∧
      ∀ t w rc, (s.sessions t).doing = .gaveUp w rc → ∀ id, (s.step (.go t)).runEntry id t = s.runEntry id t := by
  intro s
  have hagrees : ∀ t, (s.view t).Agrees False False :=
    run_invariant (I := fun s => ∀ t, (s.view t).Agrees False False)
      (fun _ _ h ha => agrees_step (.inr ha.1) (.inr ha.2) h) agrees_initial has
  refine ⟨runsCompatible_run as, fun t id hidle => ?_, fun t w rc => runEntry_giveUp⟩
  have hhold : (s.view t).hold id = (s.infos t id).map fun info => ⟨info.type, info.ref⟩ := rfl
  by_cases hq : (s.sessions t).queued = some id
  · obtain ⟨rc, hdoing⟩ : ∃ rc, (s.sessions t).doing = .idle rc := by
      cases hdoing : (s.sessions t).doing <;> simp_all [Doing.isIdle]
    have hplaced := (hagrees t).placed
    rw [LockView.Placed, show (s.view t).session.doing = .idle rc from hdoing] at hplaced
    obtain ⟨-, h, hh, -, hrun | ⟨hfalse, -⟩⟩ := hplaced id hq
    · have hrun' : s.runEntry id t = none := hrun
      obtain ⟨info, hinfo, -⟩ := Option.map_eq_some_iff.1 hh
      exact ⟨fun _ _ _ h => by simp [hrun'] at h, by simp [hinfo, hq]⟩
    · exact hfalse.elim
  · rcases (hagrees t).free id hq with hrun | ⟨hfalse, -⟩
    · have hrun' : s.runEntry id t = (s.infos t id).map LockInfo.type := by
        rw [show s.runEntry id t = (s.view t).run id from rfl, hrun, hhold, Option.map_map]
        rfl
      refine ⟨fun info type hinfo htype => ?_, ?_⟩
      · rw [hrun', hinfo] at htype
        exact Option.some.inj htype
      · simp [hrun', hq]
    · exact hfalse.elim

def someRecord : LockId := .record 1 2 3 4

-- for the numerals of the runs below
local instance neZero_table : NeZero 2 := ⟨two_ne_zero⟩

def handOver : List (LockAct 2) :=
  [.call 0 (.acquireS someRecord), .go 0, .go 0, .go 0, .call 0 (.acquireX someRecord), .go 0, .go 0, .go 0,
    .call 1 (.tryOrAppendX someRecord), .go 1, .go 1, .go 1, .call 1 (.wait someRecord), .go 1,
    .call 0 (.release someRecord), .go 0, .go 0, .go 0, .call 0 (.release someRecord), .go 0, .go 1, .go 1]

theorem lockTable_agreement_handOver :
    Meets (fun s a => s.waitsOut a = true ∧ s.appendsNew a = true) step .initial handOver ∧
      (run step .initial handOver).runEntry someRecord 1 = some .X ∧
      (run step .initial handOver).infos 1 someRecord ≠ none := by
  have hmeets : Meets (fun s a => s.waitsOut a = true ∧ s.appendsNew a = true) step .initial handOver := by
    decide +kernel
  have hidle : ((run step .initial handOver).sessions 1).doing.isIdle = true := by decide +kernel
  have hrun : (run step .initial handOver).runEntry someRecord 1 = some .X := by decide +kernel
  refine ⟨hmeets, hrun, ?_⟩
  refine (((lockTable_agreement handOver hmeets).2.1 1 someRecord hidle).2).2 (.inl ?_)
  rw [hrun]
  exact nofun

def timedOut : List (LockAct 2) :=
  [.call 0 (.acquireX someRecord), .go 0, .go 0, .go 0, .call 1 (.tryOrAppendX someRecord), .go 1, .go 1, .go 1,
    .call 1 (.wait someRecord), .go 1, .timeout 1, .go 1]

def sharedAppend : List (LockAct 2) :=
  [.call 0 (.acquireS someRecord), .go 0, .go 0, .go 0, .call 1 (.acquireS someRecord), .go 1, .go 1, .go 1,
    .call 1 (.tryOrAppendX someRecord), .go 1, .go 1, .go 1, .go 1, .go 1]

/-- Behind the time-out the session has a lock info with X, but no entry, and does not wait; appended to wait, it has
one with X and an entry with S. -/
theorem lockTable_ahead :
    ((run step .initial timedOut).sessions 1).doing = .idle .timeout ∧
      ((run step .initial timedOut).sessions 1).queued = none ∧
      (run step .initial timedOut).infos 1 someRecord = some ⟨.X, 0, none⟩ ∧
      (run step .initial timedOut).runEntry someRecord 1 = none ∧
      ((run step .initial sharedAppend).sessions 1).doing = .idle .dpsTransAppendToWait ∧
      (run step .initial sharedAppend).infos 1 someRecord = some ⟨.X, 0, none⟩ ∧
      (run step .initial sharedAppend).runEntry someRecord 1 = some .S := by
  decide +kernel

end SequoiaDB.Dps

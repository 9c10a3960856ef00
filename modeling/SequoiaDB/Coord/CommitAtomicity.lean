import SequoiaDB.Coord.TwoPhaseCommit

/-!
# A commit without harm is all or nothing

As long as no commit request has been sent, nothing is committed (`Undecided`).  Once the second phase has begun, nothing is
rolled back (`Committing`): every group with pending changes is led by the node that has the session, and its commit request
is still to be sent or comes before any rollback.
-/

namespace SequoiaDB.Coord.System

open Lib Function List DataGroup

variable {G : Type} {s : System G} {reqs : List Request} {s' : System G}

def CommitFirst : List Request → Prop
  | [] => False
  | .commit :: _ => True
  | .commitPre :: reqs => CommitFirst reqs
  | .rollback :: _ => False

theorem CommitFirst.append (h : CommitFirst reqs) (reqs' : List Request) : CommitFirst (reqs ++ reqs') := by
  induction reqs with
  | nil => exact h.elim
  | cons req reqs ih =>
    cases req with
    | commit => trivial
    | commitPre => exact ih h
    | rollback => exact h.elim

theorem CommitFirst.mem (h : CommitFirst reqs) : .commit ∈ reqs := by
  induction reqs with
  | nil => exact h.elim
  | cons req reqs ih =>
    cases req with
    | commit => exact mem_cons_self
    | commitPre => exact mem_cons_of_mem _ (ih h)
    | rollback => exact h.elim

theorem commitFirst_concat (h : .rollback ∉ reqs) : CommitFirst (reqs ++ [.commit]) := by
  induction reqs with
  | nil => trivial
  | cons req reqs ih =>
    cases req with
    | commit => trivial
    | commitPre => exact ih fun hm => h (mem_cons_of_mem _ hm)
    | rollback => exact absurd mem_cons_self h

structure Undecided (s : System G) : Prop where
  stage : s.stage ≠ .phase2
  requests : ∀ g, .commit ∉ s.requests g
  fate : ∀ g, (s.groups g).fate ≠ .committed
  calm : s.stage = .phase1 → s.rc = .ok → ∀ g, (s.groups g).fate ≠ .rolledBack ∧ .rollback ∉ s.requests g ∧
    ((s.groups g).trans = some true ↔ (s.groups g).fate = .pending) ∧
    ((s.groups g).fate = .pending → (s.groups g).primary = true ∧ g ∈ s.nodes)

def Ahead (s : System G) (g : G) : Prop :=
  (s.stage = .phase2 ∧ g ∈ s.unsent ∧ .rollback ∉ s.requests g) ∨ CommitFirst (s.requests g)

structure Committing (s : System G) : Prop where
  stage : s.stage ≠ .phase1
  fate : ∀ g, (s.groups g).fate ≠ .rolledBack
  trans : ∀ g, (s.groups g).trans = some true ↔ (s.groups g).fate = .pending
  ahead : ∀ g, (s.groups g).fate = .pending → (s.groups g).primary = true ∧ s.Ahead g

theorem Undecided.not_mixed (h : s.Undecided) : ¬ s.Mixed := fun ⟨g, _, hg, _⟩ => h.fate g hg

theorem Committing.not_mixed (h : s.Committing) : ¬ s.Mixed := fun ⟨_, g, _, hg⟩ => h.fate g hg

theorem Start.undecided (h : s.Start) : s.Undecided where
  stage := by simp [h.stage]
  requests g := by simp [h.requests g]
  fate g := by
    rw [h.fate g]
    split_ifs <;> simp
  calm _ _ g := by
    have htrans : (s.groups g).trans = some true ↔ (s.groups g).fate = .pending := by
      rw [h.fate g]
      split_ifs with ht <;> simp [ht]
    refine ⟨?_, by simp [h.requests g], htrans, fun hp => ⟨h.primary g, h.nodes g (htrans.2 hp)⟩⟩
    rw [h.fate g]
    split_ifs <;> simp

theorem note_eq_ok {rcTmp : Rc} (h : s.note rcTmp = .ok) : s.rc = .ok := by
  unfold note at h
  split_ifs at h with hc
  · exact hc.1
  · exact h

theorem handle_cases (d : DataGroup) (logRc : Rc) (req : Request) :
    ((req = .commitPre ∨ d.primary = false) ∧ (d.handle logRc req).2 = d) ∨
      (req ≠ .commitPre ∧ (d.handle logRc req).2 =
      ⟨none, true, if d.trans = some true then
        if req = .commit ∧ logRc = .ok then if d.fate = .pending then .committed else d.fate else .rolledBack
        else d.fate⟩) := by
  obtain ⟨trans, primary, fate⟩ := d
  cases req with
  | commitPre =>
    unfold handle onTransCommitPreMsg
    split_ifs <;> exact .inl ⟨.inl rfl, rfl⟩
  | commit =>
    cases primary with
    | false => exact .inl ⟨.inr rfl, rfl⟩
    | true =>
      refine .inr ⟨by simp, ?_⟩
      by_cases ht : trans = some true
      · by_cases hl : logRc = .ok
        · simp [handle, onTransCommitMsg, rtnTransCommit, ht, hl]
        · simp [handle, onTransCommitMsg, rtnTransCommit, rtnTransRollback, ht, hl]
      · simp [handle, onTransCommitMsg, rtnTransCommit, ht]
  | rollback =>
    cases primary with
    | false => exact .inl ⟨.inr rfl, rfl⟩
    | true => exact .inr ⟨by simp, by simp [handle, onTransRollbackMsg, rtnTransRollback]⟩

/-- A new primary has nothing to roll back if pending changes are led by the node of the session. -/
theorem rtnTransRollbackAll_eq {d : DataGroup} (h : d.fate = .pending → d.primary = true) : d.rtnTransRollbackAll = d :=
  if_neg fun hc => absurd (h hc.2) (by simp [hc.1])

theorem rtnTransRollbackAll_ne_committed {d : DataGroup} (h : d.fate ≠ .committed) :
    d.rtnTransRollbackAll.fate ≠ .committed := by
  unfold rtnTransRollbackAll
  split_ifs
  · simp
  · exact h

theorem Undecided.coordinator (h : s.Undecided) (hs : s'.stage ≠ .phase2)
    (hg : s'.groups = s.groups) (hr : s'.requests = s.requests)
    (hc : s'.stage = .phase1 → s'.rc = .ok → s.stage = .phase1 ∧ s.rc = .ok ∧ s'.nodes = s.nodes) : s'.Undecided where
  stage := hs
  requests := hr ▸ h.requests
  fate := hg ▸ h.fate
  calm h1 h2 := by
    obtain ⟨h3, h4, h5⟩ := hc h1 h2
    rw [hg, hr, h5]
    exact h.calm h3 h4

theorem Committing.coordinator (h : s.Committing) (hs : s'.stage ≠ .phase1)
    (hg : s'.groups = s.groups) (hr : s'.requests = s.requests)
    (hu : ∀ g, (s.groups g).fate = .pending → s.stage = .phase2 → g ∈ s.unsent → s'.stage = .phase2 ∧ g ∈ s'.unsent) :
    s'.Committing where
  stage := hs
  fate := hg ▸ h.fate
  trans := hg ▸ h.trans
  ahead g hp := by
    rw [hg] at hp ⊢
    obtain ⟨hprimary, ha⟩ := h.ahead g hp
    rw [System.Ahead, hr]
    refine ⟨hprimary, ha.imp (fun ⟨h1, h2, h3⟩ => ?_) id⟩
    obtain ⟨h4, h5⟩ := hu g hp h1 h2
    exact ⟨h4, h5, h3⟩

variable [DecidableEq G] {g : G} {d : DataGroup} {a : Action G}

theorem Undecided.group (h : s.Undecided) (unsent waiting : List G)
    (replies : G → List (Request × Rc)) (hr : .commit ∉ reqs) (hf : d.fate ≠ .committed)
    (hc : s.stage = .phase1 → s.rc = .ok → d.fate ≠ .rolledBack ∧ .rollback ∉ reqs ∧
      (d.trans = some true ↔ d.fate = .pending) ∧ (d.fate = .pending → d.primary ∧ g ∈ s.nodes)) :
    Undecided { s with
      unsent, waiting, replies, groups := update s.groups g d, requests := update s.requests g reqs } where
  stage := h.stage
  requests := forall_update (P := (Request.commit ∉ ·)) h.requests hr
  fate := forall_update (P := fun d : DataGroup => d.fate ≠ .committed) h.fate hf
  calm hstage hrc g' := by
    by_cases hg : g' = g
    · subst hg
      simpa using hc hstage hrc
    · simpa [hg] using h.calm hstage hrc g'

theorem Undecided.deliver (h : s.Undecided) (g : G) (logRc : Rc) : (s.deliver g logRc).Undecided := by
  unfold System.deliver
  cases hr : s.requests g with
  | nil => exact h
  | cons req reqs =>
    have hno : .commit ∉ req :: reqs := hr ▸ h.requests g
    have hcases := handle_cases (s.groups g) logRc req
    have hcommit : req ≠ .commit := fun e => hno (e ▸ mem_cons_self)
    refine h.group _ _ _ (fun hm => hno (mem_cons_of_mem _ hm)) ?_ fun hs hrc => ?_
    · obtain ⟨-, hd⟩ | ⟨-, hd⟩ := hcases
      · rw [hd]
        exact h.fate g
      · rw [hd]
        simp only [hcommit, false_and, if_false]
        split_ifs
        · simp
        · exact h.fate g
    · obtain ⟨h1, h2, h3⟩ := h.calm hs hrc g
      rw [hr] at h2
      have hd : ((s.groups g).handle logRc req).2 = s.groups g := by
        refine (hcases.resolve_right fun hc => ?_).2
        cases req with
        | commitPre => exact hc.1 rfl
        | commit => exact hcommit rfl
        | rollback => exact h2 mem_cons_self
      rw [hd]
      exact ⟨h1, fun hm => h2 (mem_cons_of_mem _ hm), h3⟩

theorem Undecided.send (h : s.Undecided) : s.send.Undecided := by
  unfold System.send
  cases s.unsent with
  | nil => exact h
  | cons g unsent =>
    cases hr : s.stage.request with
    | none => exact h
    | some req =>
      dsimp only
      have hc : req ≠ .commit := by
        rintro rfl
        cases hs : s.stage <;> simp [Stage.request, hs] at hr
        exact h.stage hs
      rw [← update_eq_self g s.groups]
      refine h.group _ _ _ ?_ (h.fate g) fun hstage hrc => ?_
      · simpa [hc.symm] using h.requests g
      · obtain ⟨h1, h2, h3⟩ := h.calm hstage hrc g
        rw [hstage] at hr
        obtain rfl : .commitPre = req := Option.some.inj hr
        exact ⟨h1, by simpa using h2, h3⟩

theorem Committing.group (h : s.Committing) {unsent : List G}
    (waiting : List G) (replies : G → List (Request × Rc)) (hu : ∀ g' ≠ g, g' ∈ s.unsent → g' ∈ unsent)
    (hf : d.fate ≠ .rolledBack) (ht : d.trans = some true ↔ d.fate = .pending)
    (ha : d.fate = .pending → d.primary ∧ ((s.stage = .phase2 ∧ g ∈ unsent ∧ .rollback ∉ reqs) ∨ CommitFirst reqs)) :
    Committing { s with
      unsent, waiting, replies, groups := update s.groups g d, requests := update s.requests g reqs } where
  stage := h.stage
  fate := forall_update (P := fun d : DataGroup => d.fate ≠ .rolledBack) h.fate hf
  trans := forall_update (P := fun d : DataGroup => d.trans = some true ↔ d.fate = .pending) h.trans ht
  ahead g' hp := by
    by_cases hg : g' = g
    · subst hg
      simp only [update_self] at hp
      simpa [System.Ahead] using ha hp
    · simp only [update_of_ne hg] at hp
      obtain ⟨hprimary, ha⟩ := h.ahead g' hp
      simp only [System.Ahead, update_of_ne hg]
      exact ⟨hprimary, ha.imp (fun ⟨h1, h2, h3⟩ => ⟨h1, hu g' hg h2, h3⟩) id⟩

theorem Committing.deliver (h : s.Committing) {logRc : Rc}
    (hl : (s.requests g).head? = some .commit → (s.groups g).fate = .pending → logRc = .ok) :
    (s.deliver g logRc).Committing := by
  unfold System.deliver
  cases hr : s.requests g with
  | nil => exact h
  | cons req reqs =>
    rw [hr] at hl
    have ha := h.ahead g
    rw [System.Ahead, hr] at ha
    have hc := handle_cases (s.groups g) logRc req
    dsimp only
    generalize ((s.groups g).handle logRc req).2 = d at hc
    obtain ⟨hk, rfl⟩ | ⟨hpre, rfl⟩ := hc
    · refine h.group _ _ (fun _ _ => id) (h.fate g) (h.trans g) fun hp => ?_
      obtain ⟨hprimary, ha⟩ := ha hp
      obtain rfl : req = .commitPre := hk.resolve_right (by simp [hprimary])
      exact ⟨hprimary, ha.imp_left fun ⟨h1, h2, h3⟩ => ⟨h1, h2, fun hm => h3 (mem_cons_of_mem _ hm)⟩⟩
    · by_cases ht : (s.groups g).trans = some true
      · have hp := (h.trans g).1 ht
        -- a group with pending changes is not asked for a rollback
        obtain rfl : req = .commit := by
          cases req with
          | commitPre => exact absurd rfl hpre
          | commit => rfl
          | rollback =>
            obtain ⟨-, ⟨-, -, hno⟩ | hfirst⟩ := ha hp
            · exact absurd mem_cons_self hno
            · exact hfirst.elim
        simp only [ht, hp, hl rfl hp, and_self, if_true]
        exact h.group _ _ (fun _ _ => id) nofun (by simp) nofun
      · have hne : (s.groups g).fate ≠ .pending := fun hp => ht ((h.trans g).2 hp)
        simp only [ht, if_false]
        exact h.group _ _ (fun _ _ => id) (h.fate g) (by simp [hne]) fun hp => absurd hp hne

theorem Undecided.step (h : s.Undecided) (ha : s.Harmless a) (he : a ≠ .endStage) : (s.step a).Undecided := by
  cases a with
  | send => exact h.send
  | sendFails rc =>
    change (s.sendFails rc).Undecided
    unfold System.sendFails
    cases s.unsent with
    | nil => exact h
    | cons g unsent => exact h.coordinator h.stage rfl rfl fun h1 h2 => ⟨h1, note_eq_ok h2, rfl⟩
  | deliver g logRc => exact h.deliver g logRc
  | receive g =>
    change (s.receive g).Undecided
    unfold System.receive
    cases hr : s.replies g with
    | nil => exact h
    | cons r reps =>
      dsimp only
      split_ifs
      · exact h.coordinator h.stage rfl rfl fun h1 h2 => ⟨h1, note_eq_ok h2, rfl⟩
      · exact h.coordinator h.stage rfl rfl fun h1 h2 => ⟨h1, h2, rfl⟩
  | loseReply g rc =>
    change (s.loseReply g rc).Undecided
    unfold System.loseReply
    split_ifs
    · exact h.coordinator h.stage rfl rfl fun h1 h2 => ⟨h1, note_eq_ok h2, rfl⟩
    · exact h
  | endStage => exact absurd rfl he
  | losePrimary g =>
    simp only [System.step]
    rw [← update_eq_self g s.requests]
    refine h.group _ _ _ (h.requests g) (h.fate g) fun hs hrc => ?_
    obtain ⟨h1, h2, h3, -⟩ := h.calm hs hrc g
    exact ⟨h1, h2, h3, fun hp => absurd (.inl ⟨hs, hrc⟩) (ha hp)⟩
  | rollbackAll g =>
    simp only [System.step]
    rw [← update_eq_self g s.requests]
    refine h.group _ _ _ (h.requests g) (rtnTransRollbackAll_ne_committed (h.fate g)) fun hs hrc => ?_
    have hcalm := h.calm hs hrc g
    rwa [rtnTransRollbackAll_eq fun hp => (hcalm.2.2.2 hp).1]
  | becomePrimary g =>
    simp only [System.step]
    rw [← update_eq_self g s.requests]
    refine h.group _ _ _ (h.requests g) (rtnTransRollbackAll_ne_committed (h.fate g)) fun hs hrc => ?_
    obtain ⟨h1, h2, h3, h4⟩ := h.calm hs hrc g
    rw [rtnTransRollbackAll_eq fun hp => (h4 hp).1]
    exact ⟨h1, h2, h3, fun hp => ⟨rfl, (h4 hp).2⟩⟩
  | stopTrans g =>
    simp only [System.step, rtnTransRollback]
    rw [← update_eq_self g s.requests]
    refine h.group _ _ _ (h.requests g) ?_ fun hs hrc => ?_
    · split_ifs
      · simp
      · exact h.fate g
    · obtain ⟨h1, h2, h3, -⟩ := h.calm hs hrc g
      have hp : (s.groups g).fate ≠ .pending := fun hp => ha hp (.inl ⟨hs, hrc⟩)
      rw [if_neg fun ht => hp (h3.1 ht)]
      exact ⟨h1, h2, by simp [hp], fun hp' => absurd hp' hp⟩

theorem Committing.send (h : s.Committing) : s.send.Committing := by
  unfold System.send
  cases hu : s.unsent with
  | nil => exact h
  | cons g unsent =>
    cases hr : s.stage.request with
    | none => exact h
    | some req =>
      dsimp only
      rw [← update_eq_self g s.groups]
      refine h.group _ _ (fun g' hg hm => ?_) (h.fate g) (h.trans g) fun hp => ?_
      · rw [hu] at hm
        exact (mem_cons.1 hm).resolve_left hg
      · obtain ⟨hprimary, ⟨hs, -, hno⟩ | hfirst⟩ := h.ahead g hp
        · rw [hs] at hr
          obtain rfl : .commit = req := Option.some.inj hr
          exact ⟨hprimary, .inr (commitFirst_concat hno)⟩
        · exact ⟨hprimary, .inr (hfirst.append _)⟩

omit [DecidableEq G] in
theorem Committing.endStage (h : s.Committing) : s.endStage.Committing := by
  unfold System.endStage
  by_cases hd : s.unsent = [] ∧ s.waiting = []
  · rw [if_pos hd]
    have hn {stage : Stage} (unsent : List G) (hne : stage ≠ .phase1) : (s.enter stage unsent).Committing :=
      h.coordinator hne rfl rfl fun g _ _ hg => by simp [hd.1] at hg
    cases hs : s.stage with
    | phase1 => exact absurd hs h.stage
    | phase2 =>
      dsimp only
      split_ifs
      · exact hn [] nofun
      · exact hn s.nodes nofun
    | rollback => exact hn [] nofun
    | finished => exact h
  · rwa [if_neg hd]

omit [DecidableEq G] in
theorem Undecided.endStage (h : s.Undecided) : s.endStage.Undecided ∨ s.endStage.Committing := by
  unfold System.endStage
  by_cases hd : s.unsent = [] ∧ s.waiting = []
  · rw [if_pos hd]
    cases hs : s.stage with
    | phase1 =>
      dsimp only
      split_ifs with hrc
      · refine .inr ⟨by simp [enter], fun g => (h.calm hs hrc g).1, fun g => (h.calm hs hrc g).2.2.1, fun g hp => ?_⟩
        obtain ⟨-, hno, -, hr⟩ := h.calm hs hrc g
        exact ⟨(hr hp).1, .inl ⟨rfl, (hr hp).2, hno⟩⟩
      · exact .inl (h.coordinator (by simp [enter]) rfl rfl (by simp [enter]))
    | phase2 => exact absurd hs h.stage
    | rollback => exact .inl (h.coordinator (by simp [enter]) rfl rfl (by simp [enter]))
    | finished => exact .inl h
  · rw [if_neg hd]
    exact .inl h

omit [DecidableEq G] in
theorem Committing.ne_pending (h : s.Committing) (ha : (s.groups g).fate = .pending → ¬ s.CommitAhead g) :
    (s.groups g).fate ≠ .pending := fun hp => by
  obtain ⟨hstage, -, -⟩ | hfirst := (h.ahead g hp).2
  · exact ha hp (.inr (.inl hstage))
  · exact ha hp (.inr (.inr hfirst.mem))

theorem Committing.step (h : s.Committing) (ha : s.Harmless a) : (s.step a).Committing := by
  cases a with
  | send => exact h.send
  | sendFails rc =>
    change (s.sendFails rc).Committing
    unfold System.sendFails
    cases hu : s.unsent with
    | nil => exact h
    | cons g unsent =>
      refine h.coordinator h.stage rfl rfl fun g' hp hs hmem => ⟨hs, ?_⟩
      rw [hu] at hmem
      obtain rfl | hmem := mem_cons.1 hmem
      · exact absurd hp (ha hs g' (by simp [hu]))
      · exact hmem
  | deliver g logRc => exact h.deliver ha
  | receive g =>
    change (s.receive g).Committing
    unfold System.receive
    cases hr : s.replies g with
    | nil => exact h
    | cons r reps =>
      dsimp only
      split_ifs
      · exact h.coordinator h.stage rfl rfl fun _ _ h1 h2 => ⟨h1, h2⟩
      · exact h.coordinator h.stage rfl rfl fun _ _ h1 h2 => ⟨h1, h2⟩
  | loseReply g rc =>
    change (s.loseReply g rc).Committing
    unfold System.loseReply
    split_ifs
    · exact h.coordinator h.stage rfl rfl fun _ _ h1 h2 => ⟨h1, h2⟩
    · exact h
  | endStage => exact h.endStage
  | losePrimary g =>
    simp only [System.step]
    rw [← update_eq_self g s.requests]
    exact h.group _ _ (fun _ _ => id) (h.fate g) (h.trans g) fun hp => absurd hp (h.ne_pending ha)
  | rollbackAll g =>
    simp only [System.step]
    rwa [rtnTransRollbackAll_eq fun hp => (h.ahead g hp).1, update_eq_self]
  | becomePrimary g =>
    simp only [System.step]
    rw [rtnTransRollbackAll_eq fun hp => (h.ahead g hp).1, ← update_eq_self g s.requests]
    exact h.group _ _ (fun _ _ => id) (h.fate g) (h.trans g) fun hp => ⟨rfl, (h.ahead g hp).2⟩
  | stopTrans g =>
    have hp := h.ne_pending ha
    simp only [System.step, rtnTransRollback]
    rw [if_neg fun ht => hp ((h.trans g).1 ht), ← update_eq_self g s.requests]
    exact h.group _ _ (fun _ _ => id) (h.fate g) (by simp [hp]) fun hp' => absurd hp' hp

/-- **A distributed commit is all or nothing**: no run of harmless steps reaches a state in which the changes are committed
in one group and rolled back in another. -/
theorem commit_not_mixed (hs : s.Start) {as : List (Action G)} (has : Meets Harmless System.step s as) :
    ¬ (run System.step s as).Mixed := by
  have hinv := run_invariant (I := fun s => s.Undecided ∨ s.Committing) (fun s a h ha => ?_) (.inl hs.undecided) has
  · exact hinv.elim (·.not_mixed) (·.not_mixed)
  · obtain h | h := h
    · by_cases hend : a = .endStage
      · subst hend
        exact h.endStage
      · exact .inl (h.step ha hend)
    · exact .inr (h.step ha)

def two : System Bool where
  nodes := [false, true]
  stage := .phase1
  unsent := [false, true]
  waiting := []
  rc := .ok
  groups _ := ⟨some true, true, .pending⟩
  requests _ := []
  replies _ := []

theorem two_start : two.Start := ⟨rfl, rfl, rfl, fun _ => rfl, fun _ => rfl, fun _ => rfl, by simp [two]⟩

def firstPhase : List (Action Bool) :=
  [.send, .send, .deliver false .ok, .deliver true .ok, .receive false, .receive true, .endStage]

/-- A reply of the second phase is lost; the rollback that follows finds nothing to undo. -/
theorem commit_with_lost_reply :
    ¬ (run System.step two (firstPhase ++ [.send, .send, .loseReply true ⟨.timeout, by decide⟩, .deliver false .ok,
      .receive false, .endStage, .send, .send, .deliver false .ok, .deliver true .ok, .deliver true .ok])).Mixed :=
  commit_not_mixed two_start (by simp [Meets, firstPhase, Harmless])

/-- A commit request cannot be sent to the second group: the first one commits, the second one is rolled back. -/
theorem mixed_after_send_failure :
    two.Start ∧ (run System.step two (firstPhase ++ [.send, .sendFails ⟨.timeout, by decide⟩, .deliver false .ok,
      .receive false, .endStage, .send, .send, .deliver false .ok, .deliver true .ok])).Mixed :=
  ⟨two_start, false, true, by decide, by decide⟩

end SequoiaDB.Coord.System

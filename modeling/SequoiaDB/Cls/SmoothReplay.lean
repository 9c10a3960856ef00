import SequoiaDB.Cls.BucketSpec

/-!
# Replay without failures

As long as no replay fails (`Smooth`), the records of a unit that have been replayed are the first ones of the unit
(`Smooth.split`).  So what has been replayed since the session thread last replayed a record alone can be completed to an
interleaving of the units (`Progress.completion`).
-/

namespace SequoiaDB.Cls

open Dps Lib Function List Entry

variable {δ : Type*} {b w : Nat}

theorem Entry.exists_touches (e : Entry δ b) (hb : 0 < b) : ∃ u, e.touches u := by
  cases hid : e.unitID with
  | none => exact ⟨⟨0, hb⟩, touches_of_none hid⟩
  | some u => exact ⟨u, by rw [touches_of_unit hid, decide_eq_true rfl]⟩

theorem pair_sublist_of_pairwise {l : List (Entry δ b)} (h : l.Pairwise fun x y => x.lsn < y.lsn) {x y : Entry δ b}
    (hx : x ∈ l) (hy : y ∈ l) (hlt : x.lsn < y.lsn) : [x, y].Sublist l := by
  obtain ⟨front, back, rfl⟩ := append_of_mem hx
  obtain ⟨-, -, hf⟩ := pairwise_append.1 h
  have hb : y ∈ back := by
    rcases mem_append.1 hy with hy | hy
    · exact absurd (hf y hy x mem_cons_self) (Nat.lt_asymm hlt)
    · exact (mem_cons.1 hy).resolve_left fun heq => absurd (heq ▸ hlt) (Nat.lt_irrefl _)
  exact (cons_sublist_cons.2 (singleton_sublist.2 hb)).trans (sublist_append_right front _)

namespace BucketSystem

variable {s s' : BucketSystem δ b w} {u : Fin b} {i : Fin w} {e : Entry δ b} {ver len : Nat}
  (hrec : s.isRecord ver len = true) (hempty : s.bucket.emptyEvent = true)
  (hcmp : ¬ (¬ s.bucket.expectLSN.invalid = true ∧ s.bucket.expectLSN.compareOffset s.next ≠ .eq)) (data : δ)

def nextEntry (s : BucketSystem δ b w) (unitID : Option (Fin b)) (version length : Nat) (data : δ) : Entry δ b :=
  ⟨s.next, version, length, unitID, data⟩

theorem Normal.lsn_ne_next (h : Normal s) (he : e ∈ s.history.pushed) : e.lsn ≠ s.next :=
  Nat.ne_of_lt (h.contiguous.lsn_lt_endOf he)

structure Smooth (s : BucketSystem δ b w) : Prop where
  normal : Normal s
  status : s.bucket.status = .normal
  ok : ∀ i u e rc, s.workers i = .replayed u e rc → rc = .ok
  taken : ∀ u, ∀ e ∈ s.history.seen u, s.history.applied e.lsn = true ∨ ∃ i, s.workers i = .holds u e

namespace Smooth

theorem ok_update (h : Smooth s) {x : Worker δ b} (hx : ∀ u e rc, x = .replayed u e rc → rc = .ok) (j : Fin w) :
    ∀ u e rc, update s.workers i x j = .replayed u e rc → rc = .ok :=
  forall_update (P := fun y => ∀ u e rc, y = Worker.replayed u e rc → rc = .ok) h.ok hx j

theorem holds_update (hi : s.workers i ≠ .holds u e) {x : Worker δ b} (h : ∃ j, s.workers j = .holds u e) :
    ∃ j, update s.workers i x j = .holds u e := by
  obtain ⟨j, hj⟩ := h
  have hji : j ≠ i := fun heq => hi (heq ▸ hj)
  exact ⟨j, by rwa [update_of_ne hji]⟩

theorem quiet (h : Smooth s) (hq : Quiet s s') : Smooth s' := by
  have hn := h.normal.quiet hq
  obtain ⟨B', i, x, rfl, hB, -, ho, hx⟩ := hq
  refine ⟨hn, hB.status.trans h.status, h.ok_update ?_, fun u e he => (h.taken u e he).imp_right (holds_update ?_)⟩
  · rintro u e rc rfl
    cases hx
  · intro hi
    rw [hi] at ho
    cases ho

theorem popData (h : Smooth s) (hi : s.workers i = .inside u) : Smooth (s.popData i u) := by
  have hn := h.normal.popData hi
  have hs : s.bucket.status ≠ .waitRollback := by rw [h.status]; decide
  cases hq : (s.bucket.units u).queue with
  | nil =>
    rw [popData_of_drop (.inr hq)] at hn ⊢
    refine ⟨hn, h.status, h.ok, fun v e he => ?_⟩
    by_cases hv : v = u
    · subst hv
      simp only [hq, append_nil, update_self] at he
      exact h.taken v e he
    · simp only [update_of_ne hv] at he
      exact h.taken v e he
  | cons a queue =>
    have ho {v e} (he : e ∈ s.history.seen v) :=
      (h.taken v e he).imp_right (holds_update (i := i) (x := .holds u a) (by rw [hi]; nofun))
    rw [popData_of_cons hs hq] at hn ⊢
    refine ⟨hn, h.status, h.ok_update nofun, fun v e he => ?_⟩
    by_cases hv : v = u
    · subst hv
      simp only [update_self, mem_append, mem_singleton] at he
      rcases he with he | rfl
      · exact ho he
      · exact .inr ⟨i, update_self ..⟩
    · simp only [update_of_ne hv] at he
      exact ho he

theorem replay (h : Smooth s) (hi : s.workers i = .holds u e) : Smooth (s.replay i u e .ok) := by
  have hn := h.normal.replay hi .ok
  rw [BucketSystem.replay, if_pos rfl] at hn ⊢
  refine ⟨hn, h.status, h.ok_update ?_, fun v a ha => ?_⟩
  · rintro _ _ _ ⟨⟩
    rfl
  · by_cases heq : a.lsn = e.lsn
    · left
      simp only [heq, update_self]
    · simp only [update_of_ne heq]
      refine (h.taken v a ha).imp_right (holds_update fun hj => heq ?_)
      cases hi.symm.trans hj
      rfl

theorem submit (h : Smooth s) {rc : Rc} (hi : s.workers i = .replayed u e rc) : Smooth (s.submit i u e rc) := by
  obtain rfl := h.ok i u e rc hi
  refine ⟨h.normal.submit_ok hi, ?_, h.ok_update nofun, fun v a ha => (h.taken v a ha).imp_right (holds_update ?_)⟩
  · exact (Bucket.submitResult_frame e).1.trans h.status
  · rw [hi]
    nofun

theorem workerStep (h : Smooth s) (i : Fin w) {a : BucketAction δ b w} (ha : ∀ j results, a ≠ .replay j results) :
    Smooth (s.workerStep i a (s.workers i)) ∧ (s.workerStep i a (s.workers i)).history.pushed = s.history.pushed ∧
      (s.workerStep i a (s.workers i)).history.effect = s.history.effect ∧
      (s.workerStep i a (s.workers i)).history.applied = s.history.applied := by
  refine workerStep_ind (P := fun t => Smooth t ∧ t.history.pushed = s.history.pushed ∧
    t.history.effect = s.history.effect ∧ t.history.applied = s.history.applied) h.normal.units ⟨h, rfl, rfl, rfl⟩
    (fun t ht => ?_) (fun u hw => ⟨h.popData hw, ?_⟩) ?_ fun u e rc hw => ⟨h.submit hw, rfl, rfl, rfl⟩
  · refine ⟨h.quiet ht, ?_⟩
    obtain ⟨B', j, x, rfl, -⟩ := ht
    exact ⟨rfl, rfl, rfl⟩
  · simp only [BucketSystem.popData]
    split <;> exact ⟨rfl, rfl, rfl⟩
  · exact fun u e j results _ hr => absurd hr (ha j results)

theorem start {base : Lsn} (h : base.invalid = false) : Smooth (start base : BucketSystem δ b w) where
  normal := start_normal h
  status := rfl
  ok _ _ _ _ hi := by cases hi
  taken _ _ he := absurd he not_mem_nil

variable (h : Smooth s)

include h

theorem setSession {x : Session δ b} (hx : x.forward) (hne : x ≠ .failed) : Smooth { s with session := x } :=
  ⟨h.normal.setSession hx hne, h.status, h.ok, h.taken⟩

theorem proceed : Smooth s.proceed ∧ s.proceed.history = s.history := by
  have hr : s.bucket.status ≠ .waitRollback := by rw [h.status]; decide
  have hf := h.normal.session
  unfold BucketSystem.proceed
  cases hs : s.session with
  | ready | failed => exact ⟨h, rfl⟩
  | waiting =>
    simp only [if_neg hr]
    split
    · exact ⟨h.setSession rfl (by simp), rfl⟩
    · exact ⟨h, rfl⟩
  | waitingAll =>
    simp only
    split
    · exact ⟨h.setSession rfl (by simp), rfl⟩
    · exact ⟨h, rfl⟩
  | pushing rest | undoing =>
    rw [hs] at hf
    cases hf

include hrec in
theorem push : Smooth (s.push u ver len data) ∧
      (s.push u ver len data).history.pushed = s.history.pushed ++ [s.nextEntry (some u) ver len data] ∧
      (s.push u ver len data).history.effect = s.history.effect ∧
      (s.push u ver len data).history.applied = update s.history.applied s.next false := by
  have hn := h.normal.push (u := u) hrec data
  have hs : (s.bucket.ensureExpect s.expectLsn).status = .normal := by
    rw [Bucket.ensureExpect_eq]
    exact h.status
  simp only [BucketSystem.push, Bucket.pushData, hs, ne_eq, not_true, if_false, if_true] at hn ⊢
  refine ⟨⟨hn, hs, h.ok, fun v a ha => ?_⟩, rfl, trivial, trivial⟩
  have hm : a ∈ s.history.pushed := h.normal.batch ▸ (h.normal.units.mem_of_seen ha).1
  simp only [update_of_ne (h.normal.lsn_ne_next hm)]
  exact h.taken v a ha

include hrec hempty hcmp in
theorem barrier : Smooth (s.barrier ver len data .ok) ∧
      (s.barrier ver len data .ok).history.pushed = s.history.pushed ++ [s.nextEntry none ver len data] ∧
      (s.barrier ver len data .ok).history.effect = s.history.effect ++ [s.nextEntry none ver len data] ∧
      (s.barrier ver len data .ok).history.applied = update s.history.applied s.next true := by
  have hn := h.normal.barrier hrec hempty data .ok
  have hz := h.normal.units.empty hempty
  simp only [BucketSystem.barrier, if_neg hcmp, ne_eq, not_true, if_false] at hn ⊢
  refine ⟨⟨hn, ?_, h.ok, fun v a ha => ?_⟩, rfl, rfl, trivial⟩
  · split
    · exact h.status
    · exact h.status
  · left
    rcases mem_append.1 ha with ha | ha
    · have hm : a ∈ s.history.pushed := h.normal.batch ▸ (h.normal.units.mem_of_seen ha).1
      simp only [update_of_ne (h.normal.lsn_ne_next hm)]
      refine (h.taken v a ha).resolve_right ?_
      rintro ⟨j, hj⟩
      exact h.normal.units.not_has hz (i := j) (u := v) (e := a) (by rw [hj]; exact ⟨rfl, rfl⟩)
    · rw [mem_singleton.1 ha]
      exact update_self ..

theorem applied_of_empty (hb : 0 < b) (hz : s.bucket.totalCount = 0) (he : e ∈ s.history.pushed) :
    s.history.applied e.lsn := by
  obtain ⟨u, hu⟩ := e.exists_touches hb
  have hm : e ∈ s.history.batch.filter (touches u) :=
    mem_filter.2 ⟨h.normal.batch.symm ▸ he, hu⟩
  rw [h.normal.units.split u, h.normal.units.queue_eq_nil hz u, append_nil] at hm
  refine (h.taken u e hm).resolve_right ?_
  rintro ⟨i, hi⟩
  exact h.normal.units.not_has hz (i := i) (u := u) (e := e) (by rw [hi]; exact ⟨rfl, rfl⟩)

theorem mem_of_effect (hb : 0 < b) (he : e ∈ s.history.effect) : e ∈ s.history.pushed := by
  obtain ⟨u, hu⟩ := e.exists_touches hb
  have hm := h.normal.effect_eq u ▸ mem_filter.2 ⟨he, hu⟩
  exact (mem_filter.1 hm).1

theorem split (u : Fin b) : s.history.pushed.filter (touches u) =
    (s.history.pushed.filter fun e => s.history.applied e.lsn && e.touches u) ++
      s.history.pushed.filter fun e => !s.history.applied e.lsn && e.touches u := by
  have hf : ∃ front back, s.history.pushed.filter (touches u) = front ++ back ∧
      (∀ e ∈ front, s.history.applied e.lsn = true) ∧ ∀ e ∈ back, s.history.applied e.lsn = false := by
    have hs := h.normal.batch ▸ h.normal.units.split u
    by_cases hh : ∃ i e, s.workers i = .holds u e
    · obtain ⟨i, e, hi⟩ := hh
      have hhas : (s.workers i).Has u e := by rw [hi]; exact ⟨rfl, rfl⟩
      obtain ⟨-, -, front, hseen⟩ := h.normal.units.has i u e hhas
      have hd := (pairwise_append.1 (h.normal.units.distinct_unit u)).1
      rw [hseen] at hd
      refine ⟨front, e :: (s.bucket.units u).queue, ?_, fun a ha => ?_, fun a ha => ?_⟩
      · rw [hs, hseen, append_assoc, singleton_append]
      · have hm : a ∈ s.history.seen u := hseen ▸ mem_append_left _ ha
        refine (h.taken u a hm).resolve_right ?_
        -- the record that a worker of the unit holds is the last one taken
        rintro ⟨j, hj⟩
        have hji : j = i := h.normal.units.alone j i u (by rw [hj]; rfl) (by rw [hi]; rfl)
        rw [hji, hi] at hj
        obtain ⟨-, hae⟩ := Worker.holds.inj hj
        exact (pairwise_append.1 hd).2.2 a ha e (mem_singleton_self e) (congrArg lsn hae.symm)
      · rcases mem_cons.1 ha with rfl | ha
        · have hfits := h.normal.workers i
          rwa [hi] at hfits
        · exact h.normal.queued u a ha
    · refine ⟨s.history.seen u, (s.bucket.units u).queue, hs, fun a ha => ?_, h.normal.queued u⟩
      exact (h.taken u a ha).resolve_right fun ⟨i, hi⟩ => hh ⟨i, a, hi⟩
  obtain ⟨front, back, hs, hdone, hr⟩ := hf
  simp only [← filter_filter]
  rw [hs, filter_append, filter_append, filter_eq_self.2 hdone,
    filter_eq_nil_iff.2 fun a ha => by rw [hr a ha]; exact Bool.false_ne_true, append_nil,
    filter_eq_nil_iff.2 fun a ha => by rw [hdone a ha]; exact Bool.false_ne_true, nil_append,
    filter_eq_self.2 fun a ha => by rw [hr a ha]; rfl]

theorem order {x y : Entry δ b} (hx : x ∈ s.history.pushed) (hxu : x.touches u)
    (hy : y ∈ s.history.effect) (hyu : y.touches u) (hlt : x.lsn < y.lsn) :
    [x, y].Sublist s.history.effect := by
  have hp := h.normal.contiguous.pairwise_lt.filter (touches u)
  rw [h.split u] at hp
  obtain ⟨hf, -, hc⟩ := pairwise_append.1 hp
  have hy' := h.normal.effect_eq u ▸ mem_filter.2 ⟨hy, hyu⟩
  have hx' : x ∈ s.history.pushed.filter fun e => s.history.applied e.lsn && e.touches u := by
    have hm := h.split u ▸ mem_filter.2 ⟨hx, hxu⟩
    refine (mem_append.1 hm).resolve_right fun hx => ?_
    exact absurd (hc y hy' x hx) (Nat.lt_asymm hlt)
  have hs := pair_sublist_of_pairwise hf hx' hy' hlt
  rw [← h.normal.effect_eq u] at hs
  exact hs.trans filter_sublist

omit h

end Smooth

/-- How far the replay has come: `P1` are the records up to the last one that the session thread has replayed itself, and
`P2` the ones behind it; `E1` and `E2` are the same in the order in which they have been replayed. -/
structure Progress (s : BucketSystem δ b w) (P1 P2 E1 E2 : List (Entry δ b)) : Prop where
  smooth : Smooth s
  pushed : s.history.pushed = P1 ++ P2
  effect : s.history.effect = E1 ++ E2
  settled : ∀ u, E1.filter (touches u) = P1.filter (touches u)
  done : ∀ e ∈ P1, s.history.applied e.lsn = true
  units : ∀ e ∈ P2, e.unitID ≠ none

namespace Progress

variable {P1 P2 E1 E2 : List (Entry δ b)}

theorem start {base : Lsn} (h : base.invalid = false) :
    Progress (BucketSystem.start base : BucketSystem δ b w) [] [] [] [] :=
  ⟨Smooth.start h, rfl, rfl, fun _ => rfl, nofun, nofun⟩

variable (h : Progress s P1 P2 E1 E2)

include h

theorem congr (hs : Smooth s') (hp : s'.history.pushed = s.history.pushed)
    (he : s'.history.effect = s.history.effect) (ha : s'.history.applied = s.history.applied) :
    Progress s' P1 P2 E1 E2 :=
  ⟨hs, hp.trans h.pushed, he.trans h.effect, h.settled, ha ▸ h.done, h.units⟩

theorem filter_done (u : Fin b) :
    (P1.filter fun e => s.history.applied e.lsn && e.touches u) = P1.filter (touches u) :=
  filter_congr fun e he => by rw [h.done e he, Bool.true_and]

theorem effect_eq (u : Fin b) :
    E2.filter (touches u) = P2.filter fun e => s.history.applied e.lsn && e.touches u := by
  have heq := h.smooth.normal.effect_eq u
  rw [h.effect, h.pushed, filter_append, filter_append, h.filter_done, h.settled] at heq
  exact append_cancel_left heq

theorem split (u : Fin b) : P2.filter (touches u) = (P2.filter fun e => s.history.applied e.lsn && e.touches u) ++
      P2.filter fun e => !s.history.applied e.lsn && e.touches u := by
  have heq := h.smooth.split u
  have hn : (P1.filter fun e => !s.history.applied e.lsn && e.touches u) = [] :=
    filter_eq_nil_iff.2 fun e he => by rw [h.done e he]; exact Bool.false_ne_true
  rw [h.pushed, filter_append, filter_append, filter_append, h.filter_done, hn, nil_append, append_assoc] at heq
  exact append_cancel_left heq

theorem mem_of_effect (hb : 0 < b) (he : e ∈ E2) : e ∈ P2 := by
  obtain ⟨u, hu⟩ := e.exists_touches hb
  have hm := h.effect_eq u ▸ mem_filter.2 ⟨he, hu⟩
  exact (mem_filter.1 hm).1

theorem completion (hb : 0 < b) (c : Option (Fin b)) :
    ((E2 ++ P2.filter fun e => !s.history.applied e.lsn).filter fun e => e.unitID = c) =
      P2.filter fun e => e.unitID = c := by
  have hu : ∀ u, ∀ e : Entry δ b, e.unitID ≠ none → decide (e.unitID = some u) = e.touches u := by
    intro u e he
    rw [touches, decide_eq_false he, Bool.false_or]
  have heffect : ∀ e ∈ E2, e.unitID ≠ none := fun e he => h.units e (h.mem_of_effect hb he)
  cases c with
  | none =>
    have hn : (P2.filter fun e => e.unitID = none) = [] :=
      filter_eq_nil_iff.2 fun e he => by simpa using h.units e he
    rw [hn, filter_eq_nil_iff]
    intro e he
    rcases mem_append.1 he with he | he
    · simpa using heffect e he
    · simpa using h.units e (mem_filter.1 he).1
  | some u =>
    rw [filter_append, filter_filter, filter_congr fun e he => hu u e (heffect e he),
      filter_congr (l := P2) fun e he => hu u e (h.units e he), h.effect_eq u, h.split u]
    congr 1
    exact filter_congr fun e he => by rw [hu u e (h.units e he), Bool.and_comm]

theorem complete (hb : 0 < b) (hz : s.bucket.totalCount = 0) (c : Option (Fin b)) :
    (E2.filter fun e => e.unitID = c) = P2.filter fun e => e.unitID = c := by
  have hn : (P2.filter fun e => !s.history.applied e.lsn) = [] :=
    filter_eq_nil_iff.2 fun e he => by
      rw [h.smooth.applied_of_empty hb hz (h.pushed ▸ mem_append_right _ he)]
      exact Bool.false_ne_true
  have hc := h.completion hb c
  rwa [hn, append_nil] at hc

include hrec in
theorem push : Progress (s.push u ver len data) P1 (P2 ++ [s.nextEntry (some u) ver len data]) E1 E2 := by
  obtain ⟨hs, hp, heffect, ha⟩ := h.smooth.push (u := u) hrec data
  refine ⟨hs, ?_, heffect.trans h.effect, h.settled, fun e he => ?_,
    forall_mem_append.2 ⟨h.units, forall_mem_singleton.2 (Option.some_ne_none u)⟩⟩
  · rw [hp, h.pushed, append_assoc]
  · have hm : e ∈ s.history.pushed := h.pushed ▸ mem_append_left _ he
    rw [ha, update_of_ne (h.smooth.normal.lsn_ne_next hm)]
    exact h.done e he

include hrec hempty hcmp in
theorem barrier (hb : 0 < b) : Progress (s.barrier ver len data .ok) (P1 ++ P2 ++ [s.nextEntry none ver len data]) []
      (E1 ++ E2 ++ [s.nextEntry none ver len data]) [] := by
  obtain ⟨hs, hp, heffect, ha⟩ := h.smooth.barrier hrec hempty hcmp data
  have hd : ∀ e ∈ (s.barrier ver len data .ok).history.pushed,
      (s.barrier ver len data .ok).history.applied e.lsn = true := by
    intro e he
    rw [ha]
    rcases mem_append.1 (hp ▸ he) with he | he
    · rw [update_of_ne (h.smooth.normal.lsn_ne_next he)]
      exact h.smooth.applied_of_empty hb (h.smooth.normal.units.empty hempty) he
    · rw [mem_singleton.1 he]
      exact update_self ..
  rw [h.pushed] at hp
  rw [h.effect] at heffect
  refine ⟨hs, by rw [hp, append_nil], by rw [heffect, append_nil], fun u => ?_, fun e he => hd e (hp ▸ he), nofun⟩
  rw [← heffect, hs.normal.effect_eq u, ← hp]
  exact filter_congr fun e he => by rw [hd e he, Bool.true_and]

theorem replay (hi : s.workers i = .holds u e) : Progress (s.replay i u e .ok) P1 P2 E1 (E2 ++ [e]) := by
  have hs := h.smooth.replay hi
  rw [BucketSystem.replay, if_pos rfl] at hs ⊢
  refine ⟨hs, h.pushed, ?_, h.settled, fun a ha => ?_, h.units⟩
  · rw [← append_assoc, ← h.effect]
  · by_cases heq : a.lsn = e.lsn
    · simp only [heq, update_self]
    · simp only [update_of_ne heq]
      exact h.done a ha

omit h

end Progress

end BucketSystem

end SequoiaDB.Cls

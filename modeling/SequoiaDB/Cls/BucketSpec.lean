import SequoiaDB.Cls.BucketForward

/-!
# The completion point is a replayed prefix

While the bucket goes back (`Rolling`), the records put into the units are the ones of `_completeMap`, from the last one
to the first one, and what is left of their effect are the ones that are still to be undone.

`run_correct` says what holds in every state of a run in which every rollback succeeds in the end;
`rollback_given_up` is a run with one that does not.
-/

namespace SequoiaDB.Cls

open Dps Lib Function List Bucket Entry

variable {δ : Type*} {b w : Nat}

theorem Distinct.filter_done_perm {l : List (Entry δ b)} {e : Entry δ b} {p : Nat → Bool} (h : Distinct l) (he : e ∈ l)
    (hp : p e.lsn) :
    ((l.filter fun x => !p x.lsn) ++ [e]).Perm (l.filter fun x => !update p e.lsn false x.lsn) := by
  obtain ⟨rest, hperm, hr⟩ := h.exists_perm he
  have hs : (rest.filter fun x => !update p e.lsn false x.lsn) = rest.filter fun x => !p x.lsn :=
    filter_congr fun x hx => by rw [update_of_ne (hr x hx)]
  refine ((hperm.filter _).append_right [e]).trans (.trans ?_ (hperm.filter _).symm)
  rw [filter_cons_of_neg (by simp [hp]), filter_cons_of_pos (by simp), hs]
  exact perm_append_singleton e _

namespace BucketSystem

variable {s : BucketSystem δ b w} {B' : Bucket δ b} {u : Fin b} {i : Fin w} {e : Entry δ b} {x : Worker δ b}
  {pre suf rest : List (Entry δ b)} {handed : List (Fin w × Entry δ b)} {a : BucketAction δ b w}

/-- The invariant while the bucket goes back: the records before the point are `pre`, and the session thread has still
to put `rest` into the units. -/
structure Rolling (s : BucketSystem δ b w) (pre suf rest : List (Entry δ b)) : Prop where
  units : Queues s.bucket s.workers s.history.batch s.history.seen s.history.pending
  handed : Handed s.history.handed s.history.seen
  status : s.bucket.status = .rollbacking
  session : s.session = .pushing rest ∨ s.session = .undoing ∧ rest = [] ∧ s.bucket.completeMap = []
  base : s.base.version ≠ DPS_INVALID_LSN_VERSION
  pushed : s.history.pushed = pre ++ suf
  contiguous : Contiguous s.base.offset s.history.pushed
  bounded : s.history.pushed ≠ [] → s.next < DPS_INVALID_LSN_OFFSET
  expect : s.bucket.expectLSN.offset = endOf s.base.offset pre ∧
      s.bucket.expectLSN.version ≠ DPS_INVALID_LSN_VERSION ∨
    s.bucket.expectLSN.offset = DPS_INVALID_LSN_OFFSET ∧ suf = [] ∧ ∀ e ∈ pre, e.unitID = none
  pre_good : ∀ e ∈ pre, s.history.good e.lsn = true ∧ s.history.applied e.lsn = true ∧ s.history.pending e.lsn = false
  sub : s.history.toUndo.Sublist suf
  unit : ∀ e ∈ s.history.toUndo, e.unitID ≠ none
  order : s.history.toUndo.reverse = s.history.batch ++ rest
  applied : ∀ e ∈ rest, s.history.applied e.lsn = true
  pending : ∀ e ∈ s.history.batch, s.history.applied e.lsn = s.history.pending e.lsn
  effect : ∀ u, s.history.effect.filter (touches u) =
    (pre ++ s.history.toUndo).filter fun e => s.history.applied e.lsn && e.touches u
  all : s.bucket.allCount = s.bucket.totalCount + rest.length
  undone : s.history.undone.Perm (s.history.batch.filter fun e => !s.history.pending e.lsn)
  workers : ∀ i u e rc, s.workers i ≠ .replayed u e rc

namespace Rolling

variable (h : Rolling s pre suf rest)

include h

theorem frame {W' : Fin w → Worker δ b} (hB : s.bucket.Alike B')
    (hunits : Queues B' W' s.history.batch s.history.seen s.history.pending)
    (hw : ∀ i u e rc, W' i ≠ .replayed u e rc) : Rolling { s with bucket := B', workers := W' } pre suf rest :=
  { h with
    units := hunits
    status := by rw [hB.status]; exact h.status
    session := by rw [hB.completeMap]; exact h.session
    expect := by rw [hB.expectLSN]; exact h.expect
    all := by rw [hB.allCount, hB.totalCount]; exact h.all
    workers := hw }

omit h in
theorem workers_update (h : ∀ i u e rc, s.workers i ≠ .replayed u e rc) (hx : ∀ u e rc, x ≠ .replayed u e rc)
    (j : Fin w) : ∀ u e rc, update s.workers i x j ≠ .replayed u e rc :=
  forall_update (P := fun y => ∀ u e rc, y ≠ Worker.replayed u e rc) h hx j

theorem mem_suf (he : e ∈ s.history.batch ++ rest) : e ∈ suf :=
  h.sub.subset (mem_reverse.1 (h.order ▸ he))

theorem distinct_batch : Distinct (s.history.batch ++ rest) := by
  have hs : Distinct suf := by
    have := h.contiguous.distinct
    rw [h.pushed] at this
    exact (pairwise_append.1 this).2.1
  have hu : Distinct s.history.toUndo := List.Pairwise.sublist h.sub hs
  rw [← h.order]
  exact pairwise_reverse.2 (List.Pairwise.imp (fun {_ _} hne => hne.symm) hu)

theorem lsn_ne_of_pre {a : Entry δ b} (ha : a ∈ pre) (he : e ∈ s.history.batch ++ rest) : a.lsn ≠ e.lsn := by
  have := h.contiguous.distinct
  rw [h.pushed] at this
  exact (pairwise_append.1 this).2.2 a ha e (h.mem_suf he)

theorem popData (hi : s.workers i = .inside u) : Rolling (s.popData i u) pre suf rest := by
  cases hq : (s.bucket.units u).queue with
  | nil =>
    have hunits := h.units.drop (C := s.bucket.dropUnit u (s.bucket.units u).queue.length) hi rfl rfl rfl
    have hh := h.handed.mono (Handed.sublist_update (u := u) (s.bucket.units u).queue)
    rw [popData_of_drop (.inr hq)]
    simp only [hq] at hunits hh ⊢
    exact { h with
        units := hunits
        handed := hh
        all := by
          have := h.all
          simp only [dropUnit, Bucket.setUnit, length_nil]
          omega }
  | cons e queue =>
    have he : e ∈ (s.bucket.units u).queue := hq ▸ mem_cons_self
    rw [popData_of_cons (by rw [h.status]; decide) hq]
    exact { h with
        units := h.units.take hi hq
        handed := h.handed.take (h.units.queued u e he).1 (h.units.not_handed h.handed he)
        workers := workers_update h.workers fun _ _ _ hc => by cases hc }

theorem undo (hi : s.workers i = .holds u e) : Rolling (s.undo i u e .ok) pre suf rest := by
  have hh : (s.workers i).Has u e := by rw [hi]; exact ⟨rfl, rfl⟩
  obtain ⟨hid, hp, -⟩ := h.units.has i u e hh
  have hm := (h.units.mem_of_seen (h.units.mem_of_has hh)).1
  have hmem' : e ∈ s.history.batch ++ rest := mem_append_left _ hm
  have hr : ∀ a ∈ rest, a.lsn ≠ e.lsn := fun a ha =>
    ((pairwise_append.1 h.distinct_batch).2.2 e hm a ha).symm
  rw [BucketSystem.undo, if_pos rfl]
  exact { h with
      units := h.units.finish hh rfl rfl rfl
      pre_good := fun a ha => by
        have hne := h.lsn_ne_of_pre ha hmem'
        simp only [update_of_ne hne]
        exact h.pre_good a ha
      applied := fun a ha => by
        simp only [update_of_ne (hr a ha)]
        exact h.applied a ha
      pending := fun a ha => by
        by_cases heq : a.lsn = e.lsn
        · simp only [heq, update_self]
        · simp only [update_of_ne heq]
          exact h.pending a ha
      effect := fun v => by
        simp only [filter_filter]
        have he := congrArg (filter fun a : Entry δ b => decide (a.lsn ≠ e.lsn)) (h.effect v)
        simp only [filter_filter] at he
        have hs : (fun a : Entry δ b => a.touches v && decide (a.lsn ≠ e.lsn)) =
            fun a => decide (a.lsn ≠ e.lsn) && a.touches v := funext fun a => Bool.and_comm _ _
        rw [hs, he]
        refine filter_congr fun a _ => ?_
        by_cases heq : a.lsn = e.lsn
        · simp [heq]
        · simp [heq]
      all := by
        have := h.all
        simp only [submitRollback]
        omega
      undone := (h.undone.append_right [e]).trans (h.units.distinct.filter_done_perm hm hp)
      workers := workers_update h.workers nofun }

omit h in
theorem pushBack (h : Rolling s pre suf (e :: rest)) (hid : e.unitID = some u) :
    Rolling (s.pushBack u e rest) pre suf rest := by
  have hd := pairwise_append.1 h.distinct_batch
  have hf : ∀ a ∈ s.history.batch, a.lsn ≠ e.lsn := fun a ha => hd.2.2 a ha e mem_cons_self
  have hm : e ∈ s.history.batch ++ e :: rest := mem_append_right _ mem_cons_self
  exact { h with
      units := h.units.pushUnit hid hf false
      session := .inl rfl
      pre_good := fun a ha => by
        refine ⟨(h.pre_good a ha).1, (h.pre_good a ha).2.1, ?_⟩
        exact (update_of_ne (h.lsn_ne_of_pre ha hm) _ _).trans (h.pre_good a ha).2.2
      order := by
        change _ = (s.history.batch ++ [e]) ++ rest
        rw [append_assoc]
        exact h.order
      applied := fun a ha => h.applied a (mem_cons_of_mem _ ha)
      pending := fun a ha => by
        change s.history.applied a.lsn = update s.history.pending e.lsn true a.lsn
        rcases mem_append.1 ha with ha | ha
        · rw [update_of_ne (hf a ha)]
          exact h.pending a ha
        · rw [mem_singleton.1 ha, update_self]
          exact h.applied e mem_cons_self
      all := by
        have := h.all
        rw [length_cons] at this
        simp only [BucketSystem.pushBack, Bucket.pushUnit, Bucket.setUnit]
        change s.bucket.allCount = _
        omega
      undone := by
        have ho : (s.history.batch.filter fun a => !update s.history.pending e.lsn true a.lsn) =
            s.history.batch.filter fun a => !s.history.pending a.lsn :=
          filter_congr fun a ha => by rw [update_of_ne (hf a ha)]
        simp only [BucketSystem.pushBack, filter_append, ho]
        simpa using h.undone }

omit h in
theorem wait (h : Rolling s pre suf []) :
    Rolling { s with bucket := { s.bucket with completeMap := [] }, session := .undoing } pre suf [] :=
  { h with units := h.units.congr rfl rfl h.units.empty, session := .inr ⟨rfl, rfl, rfl⟩ }

theorem merged_eq : (s.history.pushed.takeWhile fun e => e.lsn < s.bucket.expectLSN.offset) = pre := by
  have hc := h.contiguous
  rw [h.pushed] at hc ⊢
  rcases h.expect with ⟨hx, -⟩ | ⟨hx, rfl, -⟩
  · rw [hx]
    exact hc.takeWhile_lt
  · rw [takeWhile_append_of_pos, takeWhile_nil, append_nil]
    intro a ha
    have hm : a ∈ s.history.pushed := by rw [h.pushed, append_nil]; exact ha
    have hlt := h.contiguous.lsn_lt_endOf hm
    have hb := h.bounded (ne_nil_of_mem hm)
    rw [hx]
    exact decide_eq_true (Nat.lt_trans hlt hb)

theorem finish (hsession : s.session = .undoing) (hempty : s.bucket.emptyEvent) : Normal s.finishRollback := by
  have hz := h.units.empty hempty
  obtain ⟨rfl, hm⟩ : rest = [] ∧ s.bucket.completeMap = [] := by
    rcases h.session with hs | ⟨-, hr, hm⟩
    · rw [hsession] at hs
      cases hs
    · exact ⟨hr, hm⟩
  have hd : ∀ e ∈ s.history.batch, s.history.pending e.lsn = false := fun e he => h.units.pending_eq_false hz he
  have hb : s.history.toUndo.reverse = s.history.batch := by rw [h.order, append_nil]
  have hu : ∀ e ∈ s.history.toUndo, s.history.applied e.lsn = false := fun e he => by
    have hmem : e ∈ s.history.batch := hb ▸ mem_reverse.2 he
    rw [h.pending e hmem, hd e hmem]
  have hc : Contiguous s.base.offset pre := (contiguous_append.1 (h.pushed ▸ h.contiguous)).1
  have hunits : Queues s.finishRollback.bucket s.workers pre (fun u => pre.filter (touches u))
      s.history.pending :=
    h.units.restart s.finishRollback.bucket hz rfl rfl hc.distinct fun e he => (h.pre_good e he).2.2
  unfold finishRollback at hunits ⊢
  rw [h.merged_eq] at hunits ⊢
  exact
    { units := hunits
      handed := Handed.nil _
      status := .inl rfl
      session := rfl
      base := h.base
      batch := rfl
      contiguous := hc
      bounded := fun hne => by
        have hbound := h.bounded (by rw [h.pushed]; simp [hne])
        have hle : endOf s.base.offset pre ≤ endOf s.base.offset s.history.pushed := by
          rw [h.pushed, endOf_append]
          exact le_endOf
        exact Nat.lt_of_le_of_lt hle hbound
      merged := by
        refine ⟨pre, [], (append_nil _).symm, fun e he => (h.pre_good e he).1, hm, ?_, ?_, ?_⟩
        · exact nofun
        · exact nofun
        · exact h.expect.imp id fun hx => ⟨hx.1, rfl, hx.2.2⟩
      good_done := fun e he _ => ⟨(h.pre_good e he).2.2, (h.pre_good e he).2.1⟩
      applied := fun e he _ => .inl (h.pre_good e he).1
      queued := fun v e he => by
        change e ∈ (s.bucket.units v).queue at he
        rw [h.units.queue_eq_nil hz v] at he
        cases he
      workers := fun i => by
        change (s.workers i).Fits s.history.applied
        cases hw : s.workers i with
        | out | inside v | leaving => trivial
        | holds v a => exact absurd (by rw [hw]; exact ⟨rfl, rfl⟩) (h.units.not_has (i := i) (u := v) (e := a) hz)
        | replayed v a rc => exact absurd hw (h.workers i v a rc)
      effect := fun v => by
        have hn : (s.history.toUndo.filter fun e => s.history.applied e.lsn && e.touches v) = [] :=
          filter_eq_nil_iff.2 fun a ha => by simp [hu a ha]
        simp only [filter_filter]
        rw [h.effect v, filter_append, hn, append_nil]
      all := by
        have := h.all
        simp only [hm]
        exact this
      failed := fun _ => by
        refine ⟨fun e he => (h.pre_good e he).1, h.undone.trans ?_⟩
        rw [filter_eq_self.2 fun e he => by simp [hd e he], ← hb]
        exact reverse_perm _ }

omit h

end Rolling

theorem Normal.startRollback (h : Normal s) (hempty : s.bucket.emptyEvent) :
    ∃ pre suf, Rolling s.startRollback pre suf s.bucket.completeMap.reverse := by
  have hz := h.units.empty hempty
  obtain ⟨pre, suf, hm⟩ := h.merged
  have hpre : ∀ e ∈ pre, e ∈ s.history.pushed := fun e he => hm.pushed_eq ▸ mem_append_left _ he
  have hsuf : ∀ e ∈ suf, e ∈ s.history.pushed := fun e he => hm.pushed_eq ▸ mem_append_right _ he
  have hmap : ∀ e ∈ s.bucket.completeMap, e ∈ suf ∧ s.history.good e.lsn = true := fun e he => by
    rw [hm.complete] at he
    exact mem_filter.1 he
  refine ⟨pre, suf, ?_⟩
  exact
    { units := h.units.restart s.startRollback.bucket hz rfl rfl List.Pairwise.nil fun e he =>
        absurd he not_mem_nil
      handed := Handed.nil _
      status := rfl
      session := .inl rfl
      base := h.base
      pushed := hm.pushed_eq
      contiguous := h.contiguous
      bounded := h.bounded
      expect := hm.expect
      pre_good := fun e he =>
        have hg := hm.pre_good e he
        ⟨hg, (h.good_done e (hpre e he) hg).2, (h.good_done e (hpre e he) hg).1⟩
      sub := by
        change s.bucket.completeMap.Sublist suf
        rw [hm.complete]
        exact filter_sublist
      unit := fun e he => hm.units e (hmap e he).1
      order := rfl
      applied := fun e he => by
        obtain ⟨hs, hg⟩ := hmap e (mem_reverse.1 he)
        exact (h.good_done e (hsuf e hs) hg).2
      pending := nofun
      effect := fun v => by
        have hseen : s.history.seen v = s.history.pushed.filter (touches v) := by
          rw [← h.batch, h.units.split v, h.units.queue_eq_nil hz v, append_nil]
        change s.history.effect.filter (touches v) =
          (pre ++ s.bucket.completeMap).filter fun e => s.history.applied e.lsn && e.touches v
        rw [h.effect v, hseen, filter_filter, hm.pushed_eq, filter_append, filter_append, hm.complete, filter_filter]
        congr 1
        -- nothing is pending, so a record that has been replayed has been submitted
        refine filter_congr fun e he => ?_
        by_cases ha : s.history.applied e.lsn = true
        · have hg : s.history.good e.lsn := by
            rcases h.applied e (hsuf e he) ha with hg | hp
            · exact hg
            · rw [h.units.pending_eq_false hz (h.batch ▸ hsuf e he)] at hp
              cases hp
          simp [hg]
        · simp [ha]
      all := by
        rw [length_reverse]
        exact h.all
      undone := List.Perm.nil
      workers := fun i v e rc hw => by
        change s.workers i = _ at hw
        exact h.units.not_has (i := i) (u := v) (e := e) hz (by rw [hw]; exact ⟨rfl, rfl⟩) }

/-! ### The steps that hand over no record -/

def Quiet (s s' : BucketSystem δ b w) : Prop :=
  ∃ B' i x, s' = { s with bucket := B', workers := update s.workers i x } ∧ s.bucket.Alike B' ∧
    Queues B' (update s.workers i x) s.history.batch s.history.seen s.history.pending ∧
    (s.workers i).held? = none ∧ x.held? = none

section Quiet

variable {s' : BucketSystem δ b w}

theorem Normal.quiet (h : Normal s) (hq : Quiet s s') : Normal s' := by
  obtain ⟨B', i, x, rfl, hB, hunits, -, hx⟩ := hq
  refine h.frame hB hunits (forall_update h.workers ?_)
  cases x with
  | out | inside v | leaving => trivial
  | holds v a | replayed v a rc => cases hx

theorem Rolling.quiet (h : Rolling s pre suf rest) (hq : Quiet s s') : Rolling s' pre suf rest := by
  obtain ⟨B', i, x, rfl, hB, hunits, -, hx⟩ := hq
  refine h.frame hB hunits (workers_update h.workers fun v a rc heq => ?_)
  rw [heq] at hx
  cases hx

variable (hunits : Queues s.bucket s.workers s.history.batch s.history.seen s.history.pending)
include hunits

theorem quiet_beginUnit (hi : s.workers i = .out) (j : Fin w) : Quiet s (s.workerStep i (.beginUnit j) .out) := by
  have hs : { s with workers := update s.workers i .out } = s := by rw [← hi, update_eq_self]
  simp only [workerStep]
  cases hids : s.bucket.ntyQueue with
  | nil =>
    refine ⟨s.bucket, i, .out, hs.symm, ⟨rfl, rfl, rfl, rfl, rfl, fun _ => rfl⟩, ?_, by rw [hi]; rfl, rfl⟩
    rwa [← hi, update_eq_self]
  | cons u ids =>
    by_cases ha : (s.bucket.units u).attached = true
    · have hr : s.bucket.beginUnit u ids = (false, { s.bucket with ntyQueue := ids }) := if_pos ha
      refine ⟨(s.bucket.beginUnit u ids).2, i, .out, ?_, beginUnit_alike ids, ?_, by rw [hi]; rfl, rfl⟩
      · simp only [hr, Bool.false_eq_true, if_false]
        rw [← hi, update_eq_self]
      · rw [← hi, update_eq_self, hr]
        exact hunits.congr rfl rfl hunits.empty
    · have hr : (s.bucket.beginUnit u ids).1 := by rw [Bucket.beginUnit, if_neg ha]
      refine ⟨(s.bucket.beginUnit u ids).2, i, .inside u, ?_, beginUnit_alike ids, ?_, by rw [hi]; rfl, rfl⟩
      · simp only [hr, if_true]
        rfl
      · exact hunits.beginUnit (by rw [hi]; rfl) (by simpa using ha) ids

theorem quiet_endUnit (hi : s.workers i = .inside u) (j : Fin w) :
    Quiet s (s.workerStep i (.endUnit j) (.inside u)) := by
  refine ⟨s.bucket.endUnit u, i, .leaving, rfl, endUnit_alike, ?_, by rw [hi]; rfl, rfl⟩
  have ho : ∀ v ≠ u, (s.bucket.endUnit u).units v = s.bucket.units v := by
    intro v hv
    unfold Bucket.endUnit
    split
    · exact update_of_ne hv _ _
    · exact update_of_ne hv _ _
  have he : (s.bucket.endUnit u).emptyEvent = s.bucket.emptyEvent := by
    unfold Bucket.endUnit
    split <;> rfl
  exact hunits.leave hi ho (endUnit_alike.queue u) endUnit_alike.totalCount he

theorem quiet_signal (hi : s.workers i = .leaving) (j : Fin w) : Quiet s (s.workerStep i (.signal j) .leaving) := by
  refine ⟨s.bucket.signal, i, .out, rfl, signal_alike, ?_, by rw [hi]; rfl, rfl⟩
  refine (hunits.congr_worker (by rw [hi]; rfl) (by rw [hi]; rfl)).congr rfl rfl fun he => ?_
  rcases Bool.or_eq_true _ _ ▸ he with he | he
  · exact hunits.empty he
  · exact of_decide_eq_true he

theorem workerStep_ind {P : BucketSystem δ b w → Prop} {a : BucketAction δ b w} (hs : P s)
    (hq : ∀ t, Quiet s t → P t) (hp : ∀ u, s.workers i = .inside u → P (s.popData i u))
    (hr : ∀ u e j results, s.workers i = .holds u e → a = .replay j results → P (s.workerStep i a (.holds u e)))
    (hsubmit : ∀ u e rc, s.workers i = .replayed u e rc → P (s.submit i u e rc)) :
    P (s.workerStep i a (s.workers i)) := by
  cases hw : s.workers i with
  | out =>
    cases a with
    | beginUnit j => exact hq _ (quiet_beginUnit hunits hw j)
    | _ => exact hs
  | inside u =>
    cases a with
    | popData j => exact hp u hw
    | endUnit j => exact hq _ (quiet_endUnit hunits hw j)
    | _ => exact hs
  | holds u e =>
    cases a with
    | replay j results => exact hr u e j results hw rfl
    | _ => exact hs
  | replayed u e rc =>
    cases a with
    | submit j => exact hsubmit u e rc hw
    | _ => exact hs
  | leaving =>
    cases a with
    | signal j => exact hq _ (quiet_signal hunits hw j)
    | _ => exact hs

end Quiet

/-! ### Runs -/

def Inv (s : BucketSystem δ b w) : Prop := Normal s ∨ ∃ pre suf rest, Rolling s pre suf rest

def UndoSucceeds (s : BucketSystem δ b w) : BucketAction δ b w → Prop
  | .replay _ results => s.bucket.status = .rollbacking → rollbackResult results = .ok
  | _ => True

instance (s : BucketSystem δ b w) (a : BucketAction δ b w) : Decidable (s.UndoSucceeds a) :=
  match a with
  | .replay _ results => inferInstanceAs (Decidable (s.bucket.status = .rollbacking → rollbackResult results = .ok))
  | .push .. | .barrier .. | .wait | .proceed | .beginUnit _ | .popData _ | .submit _ | .endUnit _ | .signal _ =>
    inferInstanceAs (Decidable True)

theorem Normal.popData (h : Normal s) (hi : s.workers i = .inside u) : Normal (s.popData i u) := by
  by_cases hd : s.bucket.status = .waitRollback ∨ (s.bucket.units u).queue = []
  · exact h.drop hd hi
  · obtain ⟨hs, hne⟩ := not_or.1 hd
    obtain ⟨e, queue, hq⟩ := exists_cons_of_ne_nil hne
    exact h.take hs hi hq

theorem Normal.workerStep (h : Normal s) (i : Fin w) (a : BucketAction δ b w) :
    Normal (s.workerStep i a (s.workers i)) := by
  have hstatus : s.bucket.status ≠ .rollbacking := by
    rcases h.status with hs | hs <;> rw [hs] <;> decide
  refine workerStep_ind (P := Normal) h.units h (fun _ => h.quiet) (fun _ => h.popData) ?_ ?_
  · rintro u e j results hw rfl
    simp only [BucketSystem.workerStep, if_neg hstatus]
    exact h.replay hw _
  · intro u e rc hw
    by_cases hrc : rc = .ok
    · subst hrc
      exact h.submit_ok hw
    · exact h.submit_failed hw hrc

theorem Rolling.workerStep (h : Rolling s pre suf rest) (i : Fin w) (ha : s.UndoSucceeds a) :
    Rolling (s.workerStep i a (s.workers i)) pre suf rest := by
  refine workerStep_ind (P := fun t => Rolling t pre suf rest) h.units h (fun _ => h.quiet) (fun _ => h.popData) ?_ ?_
  · rintro u e j results hw rfl
    simp only [BucketSystem.workerStep, if_pos h.status]
    rw [ha h.status]
    exact h.undo hw
  · exact fun u e rc hw => absurd hw (h.workers i u e rc)

theorem Normal.proceed (h : Normal s) : Inv s.proceed := by
  have hf := h.session
  unfold BucketSystem.proceed
  cases hs : s.session with
  | ready | failed => exact .inl h
  | waiting =>
    by_cases he : s.bucket.emptyEvent = true
    · by_cases hroll : s.bucket.status = .waitRollback
      · simp only [if_pos he, if_pos hroll]
        obtain ⟨pre, suf, hr⟩ := h.startRollback he
        exact .inr ⟨pre, suf, _, hr⟩
      · simp only [if_pos he, if_neg hroll]
        exact .inl (h.setSession rfl (by simp))
    · simp only [if_neg he]
      exact .inl h
  | waitingAll =>
    by_cases he : s.bucket.allEmptyEvent = true
    · simp only [if_pos he]
      exact .inl (h.setSession rfl (by simp))
    · simp only [if_neg he]
      exact .inl h
  | pushing rest | undoing =>
    rw [hs] at hf
    cases hf

theorem Rolling.proceed (h : Rolling s pre suf rest) : Inv s.proceed := by
  unfold BucketSystem.proceed
  rcases h.session with hs | ⟨hs, -⟩
  · cases rest with
    | nil =>
      simp only [hs]
      exact .inr ⟨pre, suf, [], h.wait⟩
    | cons e rest =>
      have hm : e ∈ s.history.toUndo := by
        refine mem_reverse.1 ?_
        rw [h.order]
        exact mem_append_right _ mem_cons_self
      obtain ⟨u, hu⟩ := Option.ne_none_iff_exists'.1 (h.unit e hm)
      simp only [hs, hu]
      exact .inr ⟨pre, suf, rest, h.pushBack hu⟩
  · simp only [hs]
    by_cases he : s.bucket.emptyEvent = true
    · rw [if_pos he]
      exact .inl (h.finish hs he)
    · rw [if_neg he]
      exact .inr ⟨pre, suf, rest, h⟩

theorem Rolling.not_free (h : Rolling s pre suf rest) : s.free = false := by
  rcases h.session with hs | ⟨hs, -⟩ <;> simp [free, hs]

theorem Inv.step (h : Inv s) (ha : s.UndoSucceeds a) : Inv (s.step a) := by
  rcases h with h | ⟨pre, suf, rest, h⟩
  · cases a with
    | push u version length data =>
      simp only [BucketSystem.step]
      split
      · exact .inl (h.push (And.right ‹_›) data)
      · exact .inl h
    | barrier version length data rc =>
      simp only [BucketSystem.step]
      split
      · rename_i hc
        exact .inl (h.barrier hc.2.1 hc.2.2.1 data rc)
      · exact .inl h
    | wait =>
      simp only [BucketSystem.step]
      split
      · exact .inl (h.setSession rfl (by simp))
      · exact .inl h
    | proceed => exact h.proceed
    | beginUnit i | popData i | replay i results | submit i | endUnit i | signal i => exact .inl (h.workerStep i _)
  · have hf := h.not_free
    cases a with
    | push u version length data | barrier version length data rc | wait =>
      exact .inr ⟨pre, suf, rest, by simpa [BucketSystem.step, hf] using h⟩
    | proceed => exact h.proceed
    | beginUnit i | popData i | replay i results | submit i | endUnit i | signal i =>
      exact .inr ⟨pre, suf, rest, h.workerStep i ha⟩

theorem start_normal {base : Lsn} (h : base.invalid = false) : Normal (start base : BucketSystem δ b w) where
  units :=
    { split := fun _ => rfl
      queued := nofun
      taken := nofun
      has := fun _ _ _ hx => by cases hx.1
      attached := nofun
      alone := nofun
      distinct := List.Pairwise.nil
      total := rfl
      empty := fun _ => rfl }
  handed := Handed.nil _
  status := .inl rfl
  session := rfl
  base := by
    intro hv
    simp [Lsn.invalid, show base.version = DPS_INVALID_LSN_VERSION from hv] at h
  batch := rfl
  contiguous := trivial
  bounded hne := absurd rfl hne
  merged := by
    refine ⟨[], [], rfl, ?_, rfl, ?_, ?_, .inr ⟨rfl, rfl, ?_⟩⟩ <;> intro e he <;> cases he
  good_done _ he := absurd he not_mem_nil
  applied _ he := absurd he not_mem_nil
  queued _ _ he := absurd he not_mem_nil
  workers _ := trivial
  effect _ := rfl
  all := rfl
  failed hf := by cases hf

/-- What a reader of the bucket relies on.

* `point`: the records pushed are contiguous, `_expectLSN` is the end of a prefix of them that has been replayed, and
  `_completeMap` has the replayed records behind it, unless it is being undone; there is no `_expectLSN` before the
  first record for a unit.
* `once`, `order`: no record is handed out twice, and the records of a unit are handed out in the order in which they
  were put into it.
* `returned`: after a failure the records of `_completeMap` have been undone, what is left in effect is the prefix, and
  the counters are zero. -/
structure Correct (s : BucketSystem δ b w) : Prop where
  contiguous : Contiguous s.base.offset s.history.pushed
  point : ∃ pre suf, s.history.pushed = pre ++ suf ∧ (s.bucket.expectLSN.offset = endOf s.base.offset pre ∨
      s.bucket.expectLSN.offset = DPS_INVALID_LSN_OFFSET ∧ suf = [] ∧ ∀ e ∈ pre, e.unitID = none) ∧
    (∀ e ∈ pre, s.history.applied e.lsn = true ∧ s.history.pending e.lsn = false) ∧
    (s.bucket.status ≠ .rollbacking →
      s.bucket.completeMap = suf.filter fun e => s.history.applied e.lsn && !s.history.pending e.lsn)
  once : (s.history.handed.map (·.2.lsn)).Nodup
  order : ∀ u, ((s.history.handed.map (·.2)).filter (touches u)).Sublist (s.history.batch.filter (touches u))
  batch : s.bucket.status ≠ .rollbacking → s.history.batch = s.history.pushed
  replayed : s.bucket.status ≠ .rollbacking → ∀ u, s.history.effect.filter (touches u) =
      s.history.pushed.filter fun e => s.history.applied e.lsn && e.touches u
  returned : s.session = .failed → s.history.undone.Perm s.history.toUndo ∧ s.bucket.completeMap = [] ∧
    (s.bucket.expectLSN.offset = s.next ∨ s.bucket.expectLSN.offset = DPS_INVALID_LSN_OFFSET) ∧
    (∀ u, s.history.effect.filter (touches u) = s.history.pushed.filter (touches u)) ∧
    s.bucket.totalCount = 0 ∧ s.bucket.allCount = 0 ∧ ∀ u, (s.bucket.units u).queue = []

theorem handed_order (hh : Handed handed s.history.seen)
    (hunits : Queues s.bucket s.workers s.history.batch s.history.seen s.history.pending) (u : Fin b) :
    ((handed.map (·.2)).filter (touches u)).Sublist (s.history.batch.filter (touches u)) := by
  rw [hunits.split u]
  exact (hh.order u).trans (sublist_append_left _ _)

theorem handed_nodup (h : Distinct (handed.map (·.2))) : (handed.map (·.2.lsn)).Nodup := by
  have hm : (handed.map (·.2)).map lsn = handed.map (·.2.lsn) := map_map
  rw [← hm]
  exact pairwise_map.2 h

namespace Normal

theorem good_iff (h : Normal s) (he : e ∈ s.history.pushed) :
    s.history.good e.lsn = (s.history.applied e.lsn && !s.history.pending e.lsn) := by
  rw [Bool.eq_iff_iff, Bool.and_eq_true, Bool.not_eq_true']
  constructor
  · exact fun hg => ⟨(h.good_done e he hg).2, (h.good_done e he hg).1⟩
  · rintro ⟨ha, hp⟩
    refine (h.applied e he ha).resolve_right ?_
    rw [hp]
    exact Bool.false_ne_true

theorem effect_eq (h : Normal s) (u : Fin b) : s.history.effect.filter (touches u) =
    s.history.pushed.filter fun e => s.history.applied e.lsn && e.touches u := by
  have hn : ((s.bucket.units u).queue.filter fun e => s.history.applied e.lsn) = [] :=
    filter_eq_nil_iff.2 fun a ha => by rw [h.queued u a ha]; exact Bool.false_ne_true
  calc s.history.effect.filter (touches u)
      = (s.history.seen u).filter fun e => s.history.applied e.lsn := h.effect u
    _ = (s.history.seen u ++ (s.bucket.units u).queue).filter fun e => s.history.applied e.lsn := by
        rw [filter_append, hn, append_nil]
    _ = s.history.pushed.filter fun e => s.history.applied e.lsn && e.touches u := by
        rw [← h.units.split u, h.batch, filter_filter]

theorem correct (h : Normal s) : Correct s := by
  obtain ⟨pre, suf, hm⟩ := h.merged
  have hp : ∀ e ∈ pre, e ∈ s.history.pushed := fun e he => hm.pushed_eq ▸ mem_append_left _ he
  have hs : ∀ e ∈ suf, e ∈ s.history.pushed := fun e he => hm.pushed_eq ▸ mem_append_right _ he
  refine ⟨h.contiguous, ⟨pre, suf, hm.pushed_eq, hm.expect.imp And.left id, ?_, ?_⟩, handed_nodup h.handed.once,
    handed_order h.handed h.units, fun _ => h.batch, fun _ => h.effect_eq, fun hf => ?_⟩
  · intro e he
    have := h.good_done e (hp e he) (hm.pre_good e he)
    exact ⟨this.2, this.1⟩
  · intro _
    rw [hm.complete]
    exact filter_congr fun e he => h.good_iff (hs e he)
  · obtain ⟨hg, hperm⟩ := h.failed hf
    have hn : suf = [] := by
      cases suf with
      | nil => rfl
      | cons a suf =>
        have hb := hm.head_bad a rfl
        rw [hg a (hs a mem_cons_self)] at hb
        cases hb
    have hmap : s.bucket.completeMap = [] := by rw [hm.complete, hn, filter_nil]
    have hz : s.bucket.totalCount = 0 := by
      rw [h.units.total, h.batch, Nat.cast_eq_zero, countP_eq_zero]
      intro e he
      rw [(h.good_done e he (hg e he)).1]
      exact Bool.false_ne_true
    refine ⟨hperm, hmap, ?_, ?_, hz, ?_, h.units.queue_eq_nil hz⟩
    · refine hm.expect.imp (fun hx => ?_) And.left
      rw [hx.1, next, hm.pushed_eq, hn, append_nil]
    · intro u
      rw [h.effect_eq u]
      refine filter_congr fun e he => ?_
      rw [(h.good_done e he (hg e he)).2, Bool.true_and]
    · rw [h.all, hz, hmap]
      rfl

end Normal

theorem Rolling.correct (h : Rolling s pre suf rest) : Correct s := by
  refine ⟨h.contiguous, ⟨pre, suf, h.pushed, h.expect.imp And.left id, fun e he => (h.pre_good e he).2, ?_⟩,
    handed_nodup h.handed.once, handed_order h.handed h.units, ?_, ?_, ?_⟩
  · exact fun hs => absurd h.status hs
  · exact fun hs => absurd h.status hs
  · exact fun hs => absurd h.status hs
  · intro hf
    rcases h.session with hs | ⟨hs, -⟩ <;> cases hs.symm.trans hf

/-- In every interleaving of the session thread and the workers, with any replay failing, the completion point is the
end of a replayed prefix, and a failure leaves that prefix, as long as no rollback is given up. -/
theorem run_correct {base : Lsn} (hbase : base.invalid = false) {as : List (BucketAction δ b w)}
    (h : Meets UndoSucceeds step (start base) as) : Correct (run step (start base) as) := by
  have hinv : Inv (run step (start base) as) :=
    run_invariant (I := Inv) (fun _ _ hs ha => hs.step ha) (.inl (start_normal hbase)) h
  rcases hinv with hn | ⟨pre, suf, rest, hr⟩
  · exact hn.correct
  · exact hr.correct

section Example

def failingRun (results : Nat → Rc) : List (BucketAction Unit 2 2) :=
  [.push 0 1 10 (), .push 1 1 10 (), .beginUnit 0, .beginUnit 1, .popData 0, .popData 1, .replay 1 fun _ => .ok, .submit 1,
    .popData 1, .endUnit 1, .signal 1, .replay 0 fun _ => .noSpc, .submit 0, .popData 0, .endUnit 0, .signal 0,
    .wait, .proceed, .proceed, .proceed, .beginUnit 1, .popData 1, .replay 1 results, .popData 1, .endUnit 1, .signal 1,
    .proceed]

theorem run_correct_second_try :
    Correct (run step (start ⟨0, 1⟩) (failingRun fun n => if n = 0 then .noSpc else .ok)) ∧
      (run step (start ⟨0, 1⟩) (failingRun fun n => if n = 0 then .noSpc else .ok)).session = .failed :=
  ⟨run_correct (by decide) (by decide +kernel), rfl⟩

/-- The rollback runs out of space ten times: `waitEmptyAndRollback` returns, and the record is still there. -/
theorem rollback_given_up : ¬ Correct (run step (start ⟨0, 1⟩) (failingRun fun _ => .noSpc)) := by
  intro h
  have hlength := (h.returned rfl).1.length_eq
  revert hlength
  decide +kernel

end Example

end BucketSystem

end SequoiaDB.Cls

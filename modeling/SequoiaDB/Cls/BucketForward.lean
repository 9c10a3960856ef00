import SequoiaDB.Cls.BucketMerge

/-!
# The replay bucket while it goes forward

While nothing is undone (`Normal`), the records put into the units are the records of the log, `_expectLSN` cuts them in
two, and what has been replayed is, for each unit, a part of what has been taken from it.  Each step of a worker and of
the session thread keeps this.
-/

namespace SequoiaDB.Cls

open Dps Lib Function List Bucket

variable {δ : Type*} {b w : Nat}

def Worker.Fits (applied : Nat → Bool) : Worker δ b → Prop
  | .holds _ e => applied e.lsn = false
  | .replayed _ e rc => applied e.lsn = decide (rc = .ok)
  | .out | .inside _ | .leaving => True

theorem Worker.Fits.update {applied : Nat → Bool} {worker : Worker δ b} (h : worker.Fits applied) {lsn : Nat}
    (hne : ∀ {u e}, worker.Has u e → e.lsn ≠ lsn) (x : Bool) : worker.Fits (update applied lsn x) := by
  cases worker with
  | out | inside u | leaving => trivial
  | holds u e | replayed u e rc => exact (update_of_ne (hne (u := u) ⟨rfl, rfl⟩) _ _).trans h

def Session.forward : Session δ b → Bool
  | .pushing _ | .undoing => false
  | .ready | .waiting | .waitingAll | .failed => true

namespace Bucket

variable {B : Bucket δ b} {u : Fin b} {e : Entry δ b} {queue : List (Entry δ b)}

/-- The two buckets differ at most in the units' flags, in the queue of units and in the events. -/
structure Alike (B B' : Bucket δ b) : Prop where
  status : B'.status = B.status
  expectLSN : B'.expectLSN = B.expectLSN
  completeMap : B'.completeMap = B.completeMap
  totalCount : B'.totalCount = B.totalCount
  allCount : B'.allCount = B.allCount
  queue : ∀ v, (B'.units v).queue = (B.units v).queue

theorem queue_setUnit {x : BucketUnit δ b} (h : x.queue = (B.units u).queue) (v : Fin b) :
    ((B.setUnit u x).units v).queue = (B.units v).queue := by
  by_cases hv : v = u
  · subst hv
    rw [← h]
    exact congrArg BucketUnit.queue (update_self ..)
  · exact congrArg BucketUnit.queue (update_of_ne hv _ _)

theorem beginUnit_alike (ids : List (Fin b)) : B.Alike (B.beginUnit u ids).2 := by
  unfold beginUnit
  split
  · exact ⟨rfl, rfl, rfl, rfl, rfl, fun _ => rfl⟩
  · exact ⟨rfl, rfl, rfl, rfl, rfl, queue_setUnit rfl⟩

theorem endUnit_alike : B.Alike (B.endUnit u) := by
  unfold endUnit
  split
  · exact ⟨rfl, rfl, rfl, rfl, rfl, queue_setUnit rfl⟩
  · exact ⟨rfl, rfl, rfl, rfl, rfl, queue_setUnit rfl⟩

theorem signal_alike : B.Alike B.signal := ⟨rfl, rfl, rfl, rfl, rfl, fun _ => rfl⟩

def dropUnit (B : Bucket δ b) (u : Fin b) (n : Nat) : Bucket δ b :=
  { B.setUnit u { B.units u with queue := [] } with totalCount := B.totalCount - n, allCount := B.allCount - n }

theorem ensureExpect_eq (y : Lsn) : B.ensureExpect y =
    { B with expectLSN := if B.expectLSN.offset = DPS_INVALID_LSN_OFFSET then y else B.expectLSN } := by
  unfold ensureExpect
  split <;> rfl

theorem popLoop_of_waitRollback (h : B.status = .waitRollback) :
    popLoop u queue B = (none, B.dropUnit u queue.length) := by
  induction queue generalizing B with
  | nil => simp [popLoop, dropUnit, setUnit]
  | cons e queue ih =>
    rw [popLoop, if_pos h]
    refine (ih (B := { B with totalCount := B.totalCount - 1, allCount := B.allCount - 1 }) h).trans ?_
    have hc : ∀ n : Int, n - 1 - (queue.length : Int) = n - ((queue.length + 1 : Nat) : Int) := by omega
    simp only [dropUnit, setUnit, length_cons, hc]

theorem popData_of_drop (h : B.status = .waitRollback ∨ (B.units u).queue = []) :
    B.popData u = (none, B.dropUnit u (B.units u).queue.length) := by
  rcases h with h | h
  · exact popLoop_of_waitRollback h
  · rw [popData, h]
    simp [popLoop, dropUnit, setUnit]

theorem popData_of_cons (h : B.status ≠ .waitRollback) (hq : (B.units u).queue = e :: queue) :
    B.popData u = (some e, B.setUnit u { B.units u with queue := queue }) := by
  rw [popData, hq, popLoop, if_neg h]

theorem submitResult_frame (e : Entry δ b) : (B.submitResult e).status = B.status ∧ (B.submitResult e).units = B.units ∧
    (B.submitResult e).totalCount = B.totalCount ∧ (B.submitResult e).emptyEvent = B.emptyEvent := by
  unfold submitResult
  split
  · exact ⟨rfl, rfl, rfl, rfl⟩
  · split <;> exact ⟨rfl, rfl, rfl, rfl⟩

end Bucket

namespace BucketSystem

variable {s : BucketSystem δ b w} {B' : Bucket δ b} {u : Fin b} {i : Fin w} {e : Entry δ b} {x : Worker δ b} {rc : Rc}
  {pre suf rest : List (Entry δ b)}

/-- The invariant while the bucket goes forward. -/
structure Normal (s : BucketSystem δ b w) : Prop where
  units : Queues s.bucket s.workers s.history.batch s.history.seen s.history.pending
  handed : Handed s.history.handed s.history.seen
  status : s.bucket.status = .normal ∨ s.bucket.status = .waitRollback
  session : s.session.forward = true
  base : s.base.version ≠ DPS_INVALID_LSN_VERSION
  batch : s.history.batch = s.history.pushed
  contiguous : Contiguous s.base.offset s.history.pushed
  bounded : s.history.pushed ≠ [] → s.next < DPS_INVALID_LSN_OFFSET
  merged : ∃ pre suf, Merged s.base.offset s.history.pushed s.history.good s.bucket.completeMap s.bucket.expectLSN pre suf
  good_done : ∀ e ∈ s.history.pushed, s.history.good e.lsn = true →
    s.history.pending e.lsn = false ∧ s.history.applied e.lsn = true
  applied : ∀ e ∈ s.history.pushed, s.history.applied e.lsn = true →
    s.history.good e.lsn = true ∨ s.history.pending e.lsn = true
  queued : ∀ u, ∀ e ∈ (s.bucket.units u).queue, s.history.applied e.lsn = false
  workers : ∀ i, (s.workers i).Fits s.history.applied
  effect : ∀ u, s.history.effect.filter (Entry.touches u) = (s.history.seen u).filter fun e => s.history.applied e.lsn
  all : s.bucket.allCount = s.bucket.totalCount + s.bucket.completeMap.length
  failed : s.session = .failed →
    (∀ e ∈ s.history.pushed, s.history.good e.lsn = true) ∧ s.history.undone.Perm s.history.toUndo

theorem popData_of_cons (hs : s.bucket.status ≠ .waitRollback) {queue : List (Entry δ b)}
    (hq : (s.bucket.units u).queue = e :: queue) :
    s.popData i u = { s.setWorker i (.holds u e) with
        bucket := s.bucket.setUnit u { s.bucket.units u with queue := queue }
        history :=
          { s.history with
            seen := update s.history.seen u (s.history.seen u ++ [e])
            handed := s.history.handed ++ [(i, e)] } } := by
  simp only [BucketSystem.popData, Bucket.popData_of_cons hs hq]

theorem popData_of_drop (h : s.bucket.status = .waitRollback ∨ (s.bucket.units u).queue = []) : s.popData i u =
      { s with
        bucket := s.bucket.dropUnit u (s.bucket.units u).queue.length
        history :=
          { s.history with
            seen := update s.history.seen u (s.history.seen u ++ (s.bucket.units u).queue)
            pending := doneWith s.history.pending (s.bucket.units u).queue } } := by
  simp only [BucketSystem.popData, Bucket.popData_of_drop h, doneWith]

namespace Normal

theorem frame (h : Normal s) {W' : Fin w → Worker δ b} (hB : s.bucket.Alike B')
    (hu : Queues B' W' s.history.batch s.history.seen s.history.pending)
    (hw : ∀ i, (W' i).Fits s.history.applied) : Normal { s with bucket := B', workers := W' } :=
  { h with
    units := hu
    status := by rw [hB.status]; exact h.status
    merged := by rw [hB.completeMap, hB.expectLSN]; exact h.merged
    queued := fun v e he => h.queued v e (hB.queue v ▸ he)
    workers := hw
    all := by rw [hB.allCount, hB.totalCount, hB.completeMap]; exact h.all }

theorem pushed_of_has (h : Normal s) (hi : (s.workers i).Has u e) : e ∈ s.history.pushed :=
  h.batch ▸ (h.units.mem_of_seen (h.units.mem_of_has hi)).1

theorem bad_of_has (h : Normal s) (hi : (s.workers i).Has u e) : s.history.good e.lsn = false := by
  by_contra hgood
  have := (h.good_done e (h.pushed_of_has hi) (by simpa using hgood)).1
  rw [(h.units.has i u e hi).2.1] at this
  cases this

theorem ne_of_good (h : Normal s) (hi : (s.workers i).Has u e) {a : Entry δ b} (hg : s.history.good a.lsn) :
    a.lsn ≠ e.lsn := by
  intro heq
  rw [heq, h.bad_of_has hi] at hg
  cases hg

/-! ### The steps of the workers -/

variable (h : Normal s) {ver len : Nat}

include h

theorem take (hs : s.bucket.status ≠ .waitRollback) (hi : s.workers i = .inside u) {queue : List (Entry δ b)}
    (hq : (s.bucket.units u).queue = e :: queue) : Normal (s.popData i u) := by
  have he : e ∈ (s.bucket.units u).queue := hq ▸ mem_cons_self
  have hid := (h.units.queued u e he).1
  have hn := h.queued u e he
  rw [popData_of_cons hs hq]
  exact { h with
      units := h.units.take hi hq
      handed := h.handed.take hid (h.units.not_handed h.handed he)
      queued := fun v a ha => by
        by_cases hv : v = u
        · subst hv
          simp only [Bucket.setUnit, update_self] at ha
          exact h.queued v a (hq ▸ mem_cons_of_mem _ ha)
        · simp only [Bucket.setUnit, update_of_ne hv] at ha
          exact h.queued v a ha
      workers := forall_update h.workers hn
      effect := fun v => by
        by_cases hv : v = u
        · subst hv
          simp [h.effect, hn]
        · simp [h.effect, hv] }

theorem drop (hd : s.bucket.status = .waitRollback ∨ (s.bucket.units u).queue = []) (hi : s.workers i = .inside u) :
    Normal (s.popData i u) := by
  rw [popData_of_drop hd]
  exact { h with
      units := h.units.drop hi rfl rfl rfl
      handed := h.handed.mono (Handed.sublist_update _)
      good_done := fun e he hg => ⟨doneWith_of_false (h.good_done e he hg).1, (h.good_done e he hg).2⟩
      applied := fun e he happ => by
        rcases h.applied e he happ with hg | hp
        · exact .inl hg
        · right
          -- a record that has been replayed is not in the unit
          refine (doneWith_of_fresh fun a ha heq => ?_).trans hp
          have := h.queued u a ha
          rw [heq, happ] at this
          cases this
      queued := fun v a ha => by
        by_cases hv : v = u
        · subst hv
          simp [dropUnit, Bucket.setUnit] at ha
        · simp only [dropUnit, Bucket.setUnit, update_of_ne hv] at ha
          exact h.queued v a ha
      effect := fun v => by
        by_cases hv : v = u
        · subst hv
          have hn : ((s.bucket.units v).queue.filter fun e => s.history.applied e.lsn) = [] :=
            filter_eq_nil_iff.2 fun a ha => by rw [h.queued v a ha]; exact Bool.false_ne_true
          simp only [update_self, filter_append, hn, append_nil]
          exact h.effect v
        · simp only [update_of_ne hv]
          exact h.effect v
      all := by
        have := h.all
        simp only [dropUnit, Bucket.setUnit]
        omega }

theorem fits_replay (hi : s.workers i = .holds u e) (j : Fin w) (hj : j ≠ i) :
    (s.workers j).Fits (update s.history.applied e.lsn true) := by
  have hh : (s.workers i).Has u e := by rw [hi]; exact ⟨rfl, rfl⟩
  have hm := (h.units.mem_of_seen (h.units.mem_of_has hh)).1
  refine (h.workers j).update (fun {v a} ha heq => ?_) true
  have hae := h.units.distinct.eq_of_lsn (h.units.mem_of_seen (h.units.mem_of_has ha)).1 hm heq
  have hv := (h.units.has j v a ha).1
  rw [hae, (h.units.has i u e hh).1] at hv
  obtain rfl := Option.some.inj hv
  exact hj (h.units.alone j i u ha.1 hh.1)

theorem replay (hi : s.workers i = .holds u e) (rc : Rc) : Normal (s.replay i u e rc) := by
  have hh : (s.workers i).Has u e := by rw [hi]; exact ⟨rfl, rfl⟩
  obtain ⟨hid, hp, front, hf⟩ := h.units.has i u e hh
  have hn : s.history.applied e.lsn = false := by
    have := h.workers i
    rwa [hi] at this
  have hu : Queues s.bucket (update s.workers i (.replayed u e rc)) s.history.batch s.history.seen
      s.history.pending := h.units.congr_worker (by rw [hi]; rfl) (by rw [hi]; rfl)
  unfold BucketSystem.replay
  split
  · rename_i hrc
    have hm := (h.units.mem_of_seen (h.units.mem_of_has hh)).1
    exact { h with
        units := hu
        good_done := fun a ha hg => by
          simp only [update_of_ne (h.ne_of_good hh hg)]
          exact h.good_done a ha hg
        applied := fun a ha happ => by
          by_cases heq : a.lsn = e.lsn
          · rw [heq]
            exact .inr hp
          · simp only [update_of_ne heq] at happ
            exact h.applied a ha happ
        queued := fun v a ha => by
          simp only [update_of_ne (h.units.lsn_ne_of_unit (h.units.mem_of_has hh) hid ha)]
          exact h.queued v a ha
        workers := fun j => by
          by_cases hj : j = i
          · subst hj
            simp only [setWorker, update_self]
            simp [Worker.Fits, hrc]
          · simp only [setWorker, update_of_ne hj]
            exact h.fits_replay hi j hj
        effect := fun v => by
          by_cases hv : u = v
          · subst hv
            have hd := (pairwise_append.1 (h.units.distinct_unit u)).1
            rw [hf] at hd
            have hfresh : ∀ a ∈ front, a.lsn ≠ e.lsn :=
              fun a ha => (pairwise_append.1 hd).2.2 a ha e (mem_singleton_self _)
            have he := h.effect u
            simp only [hf, filter_append] at he ⊢
            rw [he, filter_update_of_fresh hfresh]
            simp [Entry.touches_of_unit hid, hn]
          · have hfresh : ∀ a ∈ s.history.seen v, a.lsn ≠ e.lsn := by
              intro a ha heq
              obtain ⟨hmem', ht⟩ := h.units.mem_of_seen ha
              rw [h.units.distinct.eq_of_lsn hmem' hm heq, Entry.touches_of_unit hid] at ht
              exact hv (of_decide_eq_true ht)
            simp only [filter_append]
            rw [filter_update_of_fresh hfresh, h.effect v]
            simp [Entry.touches_of_unit hid, hv] }
  · rename_i hrc
    exact { h with
        units := hu
        workers := forall_update h.workers (by simp [Worker.Fits, hn, hrc]) }

theorem submit_failed (hi : s.workers i = .replayed u e rc) (hrc : rc ≠ .ok) : Normal (s.submit i u e rc) := by
  have hh : (s.workers i).Has u e := by rw [hi]; exact ⟨rfl, rfl⟩
  have hn : s.history.applied e.lsn = false := by
    have := h.workers i
    rw [hi] at this
    exact this.trans (decide_eq_false hrc)
  have hB : s.bucket.submitReplay e rc = { s.bucket with
        status := .waitRollback
        submitRC := (s.bucket.submitReplay e rc).submitRC
        allCount := s.bucket.allCount - 1
        totalCount := s.bucket.totalCount - 1 } := by
    unfold submitReplay
    rw [if_pos hrc]
    rcases h.status with hs | hs
    · rw [if_pos (by rw [hs]; decide)]
    · rw [if_neg (by rw [hs]; decide)]
      simp only [← hs]
  unfold BucketSystem.submit
  rw [hB, if_neg hrc]
  exact { h with
      units := h.units.finish hh rfl rfl rfl
      status := .inr rfl
      good_done := fun a ha hg => by
        simp only [update_of_ne (h.ne_of_good hh hg)]
        exact h.good_done a ha hg
      applied := fun a ha happ => by
        have hne : a.lsn ≠ e.lsn := fun heq => by
          rw [heq, hn] at happ
          cases happ
        simp only [update_of_ne hne]
        exact h.applied a ha happ
      workers := forall_update h.workers trivial
      all := by
        have := h.all
        simp only
        omega }

theorem submit_ok (hi : s.workers i = .replayed u e .ok) : Normal (s.submit i u e .ok) := by
  have hh : (s.workers i).Has u e := by rw [hi]; exact ⟨rfl, rfl⟩
  have happlied : s.history.applied e.lsn := by
    have := h.workers i
    rwa [hi] at this
  have hmem := h.pushed_of_has hh
  obtain ⟨pre, suf, hm⟩ := h.merged
  obtain ⟨pre', suf', hm', hall⟩ :=
    hm.submit h.contiguous (h.bounded (ne_nil_of_mem hmem)) hmem (h.bad_of_has hh)
  obtain ⟨hs, hu, ht, he⟩ := submitResult_frame (B := s.bucket) e
  exact { h with
      units := h.units.finish hh hu (congrArg (· - 1) ht) he
      status := by
        change (s.bucket.submitResult e).status = _ ∨ (s.bucket.submitResult e).status = _
        rw [hs]
        exact h.status
      merged := ⟨pre', suf', hm'⟩
      good_done := fun a ha hg => by
        by_cases heq : a.lsn = e.lsn
        · rw [heq]
          exact ⟨update_self .., happlied⟩
        · change update s.history.good e.lsn true a.lsn = true at hg
          rw [update_of_ne heq] at hg
          refine ⟨?_, (h.good_done a ha hg).2⟩
          exact (update_of_ne heq _ _).trans (h.good_done a ha hg).1
      applied := fun a ha happ => by
        by_cases heq : a.lsn = e.lsn
        · left
          rw [heq]
          exact update_self ..
        · change update s.history.good e.lsn true a.lsn = true ∨
            update s.history.pending e.lsn false a.lsn = true
          rw [update_of_ne heq, update_of_ne heq]
          exact h.applied a ha happ
      queued := fun v a ha => by
        change a ∈ ((s.bucket.submitResult e).units v).queue at ha
        rw [hu] at ha
        exact h.queued v a ha
      workers := forall_update h.workers trivial
      all := by
        have hold := h.all
        change (s.bucket.submitResult e).allCount =
          (s.bucket.submitResult e).totalCount - 1 + (s.bucket.submitResult e).completeMap.length
        omega
      failed := fun hf => by
        refine ⟨fun a ha => ?_, (h.failed hf).2⟩
        change update s.history.good e.lsn true a.lsn = true
        by_cases heq : a.lsn = e.lsn
        · rw [heq, update_self]
        · rw [update_of_ne heq]
          exact (h.failed hf).1 a ha }

omit h

/-! ### The steps of the session thread -/

theorem of_isRecord (h : s.isRecord ver len) :
    ver ≠ DPS_INVALID_LSN_VERSION ∧ 0 < len ∧ s.next + len < DPS_INVALID_LSN_OFFSET := by
  simp only [isRecord, Bool.and_eq_true, decide_eq_true_eq, and_assoc] at h
  exact h

variable (h : Normal s)

include h

theorem expectLsn_version : s.expectLsn.version ≠ DPS_INVALID_LSN_VERSION := by
  have hb := h.base
  have hc := h.contiguous
  unfold expectLsn
  cases hl : s.history.pushed.getLast? with
  | none => exact hb
  | some a =>
    obtain ⟨front, hf⟩ := getLast?_eq_some_iff.1 hl
    rw [hf] at hc
    exact (contiguous_append.1 hc).2.2.1

theorem ensureExpect (hb : s.next < DPS_INVALID_LSN_OFFSET) :
    Normal { s with bucket := s.bucket.ensureExpect s.expectLsn } := by
  obtain ⟨pre, suf, hm⟩ := h.merged
  have hm' := hm.ensure hb s.expectLsn rfl h.expectLsn_version
  rw [ensureExpect_eq]
  exact { h with units := h.units.congr rfl rfl h.units.empty, merged := ⟨pre, suf, hm'⟩ }

theorem pushUnit (hl : e.lsn = s.next) (hid : e.unitID = some u)
    (hversion : e.version ≠ DPS_INVALID_LSN_VERSION) (hp : 0 < e.length)
    (hbound : s.next + e.length < DPS_INVALID_LSN_OFFSET)
    (hvalid : s.bucket.expectLSN.offset ≠ DPS_INVALID_LSN_OFFSET) :
    Normal { s with
        bucket := s.bucket.pushUnit u e true
        session := .ready
        history :=
          { s.history with
            pushed := s.history.pushed ++ [e]
            batch := s.history.batch ++ [e]
            pending := update s.history.pending e.lsn true
            good := update s.history.good e.lsn false
            applied := update s.history.applied e.lsn false } } := by
  obtain ⟨pre, suf, hm⟩ := h.merged
  have hf := h.contiguous.fresh hl
  have hb : ∀ a ∈ s.history.batch, a.lsn ≠ e.lsn := h.batch ▸ hf
  exact { h with
      units := h.units.pushUnit hid hb true
      session := rfl
      batch := congrArg (· ++ [e]) h.batch
      contiguous := h.contiguous.snoc hl hversion hp
      bounded := fun _ => by
        change endOf s.base.offset (s.history.pushed ++ [e]) < _
        rw [endOf_snoc]
        exact hbound
      merged := ⟨pre, suf ++ [e], hm.push h.contiguous hl (by rw [hid]; simp) hvalid⟩
      good_done := forall_mem_append.2
        ⟨fun a ha => by simpa only [update_of_ne (hf a ha)] using h.good_done a ha, forall_mem_singleton.2 (by simp)⟩
      applied := forall_mem_append.2
        ⟨fun a ha => by simpa only [update_of_ne (hf a ha)] using h.applied a ha, forall_mem_singleton.2 (by simp)⟩
      queued := fun v a ha => by
        by_cases heq : a.lsn = e.lsn
        · simp only [heq, update_self]
        · simp only [update_of_ne heq]
          by_cases hv : v = u
          · subst hv
            simp only [Bucket.pushUnit, Bucket.setUnit, update_self, mem_append, mem_singleton] at ha
            rcases ha with ha | rfl
            · exact h.queued v a ha
            · exact absurd rfl heq
          · simp only [Bucket.pushUnit, Bucket.setUnit, update_of_ne hv] at ha
            exact h.queued v a ha
      workers := fun i => (h.workers i).update (fun ha => hb _ (h.units.mem_of_seen (h.units.mem_of_has ha)).1) false
      effect := fun v => by
        have hs : ∀ a ∈ s.history.seen v, a.lsn ≠ e.lsn := fun a ha => hb a (h.units.mem_of_seen ha).1
        simp only [filter_update_of_fresh hs]
        exact h.effect v
      all := by
        have := h.all
        simp only [Bucket.pushUnit, Bucket.setUnit, if_true]
        omega
      failed := nofun }

theorem push (hr : s.isRecord ver len) (data : δ) : Normal (s.push u ver len data) := by
  obtain ⟨hv, hp, hb⟩ := of_isRecord hr
  have he := h.ensureExpect (by omega)
  have hvalid : (s.bucket.ensureExpect s.expectLsn).expectLSN.offset ≠ DPS_INVALID_LSN_OFFSET := by
    rw [ensureExpect_eq]
    simp only
    split
    · exact Nat.ne_of_lt (by change s.next < _; omega)
    · assumption
  unfold BucketSystem.push pushData
  by_cases hs : (s.bucket.ensureExpect s.expectLsn).status ≠ .normal
  · simp only [if_pos hs]
    rw [if_neg]
    · exact he
    · split
      · decide
      · assumption
  · simp only [if_neg hs, if_true]
    exact he.pushUnit (e := ⟨s.next, ver, len, some u, data⟩) rfl rfl hv hp hb hvalid

theorem replayHere (hl : e.lsn = s.next) (hid : e.unitID = none)
    (hv : e.version ≠ DPS_INVALID_LSN_VERSION) (hp : 0 < e.length)
    (hbound : s.next + e.length < DPS_INVALID_LSN_OFFSET) (he : s.bucket.emptyEvent)
    (hc : s.bucket.expectLSN.invalid ∨ s.bucket.expectLSN.compareOffset e.lsn = .eq) :
    Normal { s with
        bucket :=
          { s.bucket with
            expectLSN := if s.bucket.expectLSN.invalid then s.bucket.expectLSN
              else behind s.bucket.expectLSN e }
        session := .ready
        history :=
          { s.history with
            pushed := s.history.pushed ++ [e]
            batch := s.history.batch ++ [e]
            seen := fun u => s.history.seen u ++ [e]
            pending := update s.history.pending e.lsn false
            good := update s.history.good e.lsn true
            applied := update s.history.applied e.lsn true
            effect := s.history.effect ++ [e] } } := by
  obtain ⟨pre, suf, hm⟩ := h.merged
  have hz := h.units.empty he
  have hf := h.contiguous.fresh hl
  have hb : ∀ a ∈ s.history.batch, a.lsn ≠ e.lsn := h.batch ▸ hf
  have hm' := hm.barrier h.contiguous hl hid hv (by change s.next < _; omega) hc
  exact { h with
      units := h.units.barrier hid hb rfl rfl rfl hz
      handed := h.handed.mono fun v => sublist_append_left _ _
      session := rfl
      batch := congrArg (· ++ [e]) h.batch
      contiguous := h.contiguous.snoc hl hv hp
      bounded := fun _ => by
        change endOf s.base.offset (s.history.pushed ++ [e]) < _
        rw [endOf_snoc]
        exact hbound
      merged := ⟨pre ++ [e], [], hm'⟩
      good_done := forall_mem_append.2
        ⟨fun a ha => by simpa only [update_of_ne (hf a ha)] using h.good_done a ha, forall_mem_singleton.2 (by simp)⟩
      applied := forall_mem_append.2
        ⟨fun a ha => by simpa only [update_of_ne (hf a ha)] using h.applied a ha, forall_mem_singleton.2 (by simp)⟩
      queued := fun v a ha => by
        change a ∈ (s.bucket.units v).queue at ha
        rw [h.units.queue_eq_nil hz v] at ha
        cases ha
      workers := fun i => (h.workers i).update (fun ha => absurd ha (h.units.not_has hz)) true
      effect := fun v => by
        have hs : ∀ a ∈ s.history.seen v, a.lsn ≠ e.lsn := fun a ha => hb a (h.units.mem_of_seen ha).1
        simp only [filter_append]
        rw [filter_update_of_fresh hs, h.effect v]
        simp [Entry.touches_of_none hid]
      failed := nofun }

theorem barrier (hr : s.isRecord ver len)
    (he : s.bucket.emptyEvent) (data : δ) (rc : Rc) : Normal (s.barrier ver len data rc) := by
  obtain ⟨hv, hp, hb⟩ := of_isRecord hr
  simp only [BucketSystem.barrier]
  by_cases hc : ¬ s.bucket.expectLSN.invalid = true ∧ s.bucket.expectLSN.compareOffset s.next ≠ .eq
  · rw [if_pos hc]
    exact h
  · by_cases hrc : rc ≠ .ok
    · rw [if_neg hc, if_pos hrc]
      exact h
    · have hcmp' : s.bucket.expectLSN.invalid = true ∨ s.bucket.expectLSN.compareOffset s.next = .eq := by
        by_contra hno
        rw [not_or] at hno
        exact hc hno
      have hn := h.replayHere (e := ⟨s.next, ver, len, none, data⟩) rfl rfl hv hp hb he hcmp'
      rw [if_neg hc, if_neg hrc]
      by_cases hi : s.bucket.expectLSN.invalid = true
      · simp only [if_pos hi] at hn ⊢
        exact hn
      · simp only [if_neg hi] at hn ⊢
        exact hn

theorem setSession {x : Session δ b} (hx : x.forward) (hne : x ≠ .failed) : Normal { s with session := x } :=
  { h with session := hx, failed := fun hf => absurd hf hne }

omit h

end Normal

end BucketSystem

end SequoiaDB.Cls

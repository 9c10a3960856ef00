import SequoiaDB.Cls.ReplBucket

/-!
# The units of the replay bucket

What holds of the units, whatever is done with their records.  `batch` are the records put into the units, in this
order.  The records of a unit are the ones taken from it, followed by the ones in it (`Queues.split`); a unit has at
most one worker, and a record that has been taken and is not done with is with the worker of its unit and is the last
one taken.  The total count is the number of records that are not done with.
-/

namespace SequoiaDB.Cls

open Function List Option Bucket Entry

variable {δ : Type*} {b w : Nat}

namespace Worker

def unit? : Worker δ b → Option (Fin b)
  | .inside u | .holds u _ | .replayed u _ _ => some u
  | .out | .leaving => none

def held? : Worker δ b → Option (Entry δ b)
  | .holds _ e | .replayed _ e _ => some e
  | .out | .inside _ | .leaving => none

def Has (x : Worker δ b) (u : Fin b) (e : Entry δ b) : Prop := x.unit? = some u ∧ x.held? = some e

end Worker

theorem Entry.touches_of_unit {e : Entry δ b} {u v : Fin b} (h : e.unitID = some u) :
    e.touches v = decide (u = v) := by
  simp [touches, h]

theorem Entry.touches_of_none {e : Entry δ b} {v : Fin b} (h : e.unitID = none) : e.touches v := by
  simp [touches, h]

def Distinct (l : List (Entry δ b)) : Prop := l.Pairwise fun x y => x.lsn ≠ y.lsn

namespace Distinct

variable {l : List (Entry δ b)} {e x : Entry δ b}

theorem eq_of_lsn (h : Distinct l) (hx : x ∈ l) (he : e ∈ l) (heq : x.lsn = e.lsn) : x = e :=
  inj_on_of_nodup_map (pairwise_map.2 h) hx he heq

theorem snoc (h : Distinct l) (he : ∀ x ∈ l, x.lsn ≠ e.lsn) : Distinct (l ++ [e]) := by
  refine pairwise_append.2 ⟨h, pairwise_singleton _ _, fun x hx y hy => ?_⟩
  rw [mem_singleton.1 hy]
  exact he x hx

theorem exists_perm (h : Distinct l) (he : e ∈ l) : ∃ rest, l.Perm (e :: rest) ∧ ∀ x ∈ rest, x.lsn ≠ e.lsn := by
  obtain ⟨front, back, rfl⟩ := append_of_mem he
  have hp : (front ++ e :: back).Perm (e :: (front ++ back)) := perm_middle
  exact ⟨_, hp, fun x hx => ((pairwise_cons.1 ((hp.pairwise_iff Ne.symm).1 h)).1 x hx).symm⟩

end Distinct

variable {l : List (Entry δ b)} {e : Entry δ b} {p : Nat → Bool} {v : Bool}

theorem countP_update_of_fresh (h : ∀ x ∈ l, x.lsn ≠ e.lsn) :
    l.countP (fun x => update p e.lsn v x.lsn) = l.countP fun x => p x.lsn :=
  countP_congr fun x hx => by rw [update_of_ne (h x hx)]

theorem filter_update_of_fresh (h : ∀ x ∈ l, x.lsn ≠ e.lsn) :
    l.filter (fun x => update p e.lsn v x.lsn) = l.filter fun x => p x.lsn :=
  filter_congr fun x hx => by rw [update_of_ne (h x hx)]

theorem Distinct.countP_update_false (h : Distinct l) (he : e ∈ l) (hp : p e.lsn) :
    l.countP (fun x => update p e.lsn false x.lsn) + 1 = l.countP fun x => p x.lsn := by
  obtain ⟨rest, hperm, hr⟩ := h.exists_perm he
  rw [hperm.countP_eq, hperm.countP_eq, countP_cons, countP_cons, countP_update_of_fresh hr]
  simp [hp]

def doneWith (p : Nat → Bool) (l : List (Entry δ b)) : Nat → Bool :=
  l.foldl (fun p e => update p e.lsn false) p

theorem doneWith_apply (p : Nat → Bool) (l : List (Entry δ b)) (n : Nat) :
    doneWith p l n = (p n && l.all fun x => x.lsn ≠ n) := by
  induction l generalizing p with
  | nil => simp [doneWith]
  | cons a l ih =>
    refine (ih (update p a.lsn false)).trans ?_
    by_cases hn : n = a.lsn
    · simp [hn]
    · simp [hn, Ne.symm hn]

theorem doneWith_of_fresh {n : Nat} (h : ∀ x ∈ l, x.lsn ≠ n) : doneWith p l n = p n := by
  rw [doneWith_apply, all_eq_true.2 fun x hx => decide_eq_true (h x hx), Bool.and_true]

theorem doneWith_of_false {n : Nat} (h : p n = false) : doneWith p l n = false := by
  rw [doneWith_apply, h, Bool.false_and]

theorem doneWith_of_mem (h : e ∈ l) : doneWith p l e.lsn = false := by
  rw [doneWith_apply, all_eq_false.2 ⟨e, h, by simp⟩, Bool.and_false]

theorem countP_doneWith {batch : List (Entry δ b)} (hb : Distinct batch) (hl : Distinct l) (hs : ∀ x ∈ l, x ∈ batch)
    (hp : ∀ x ∈ l, p x.lsn) :
    batch.countP (fun x => doneWith p l x.lsn) + l.length = batch.countP fun x => p x.lsn := by
  induction l generalizing p with
  | nil => rfl
  | cons a l ih =>
    obtain ⟨ha, hl'⟩ := pairwise_cons.1 hl
    have hr : ∀ x ∈ l, update p a.lsn false x.lsn := fun x hx => by
      rw [update_of_ne (ha x hx).symm]
      exact hp x (mem_cons_of_mem _ hx)
    have htail := ih hl' (fun x hx => hs x (mem_cons_of_mem _ hx)) hr
    have hhead := hb.countP_update_false (hs a mem_cons_self) (hp a mem_cons_self)
    rw [length_cons]
    change batch.countP (fun x => doneWith (update p a.lsn false) l x.lsn) + (l.length + 1) = _
    omega

/-- The invariant of the units and their workers. -/
structure Queues (B : Bucket δ b) (W : Fin w → Worker δ b) (batch : List (Entry δ b))
    (seen : Fin b → List (Entry δ b)) (pending : Nat → Bool) : Prop where
  split : ∀ u, batch.filter (touches u) = seen u ++ (B.units u).queue
  queued : ∀ u, ∀ e ∈ (B.units u).queue, e.unitID = some u ∧ pending e.lsn = true
  taken : ∀ u, ∀ e ∈ seen u, pending e.lsn = true → ∃ i, (W i).Has u e
  has : ∀ i u e, (W i).Has u e → e.unitID = some u ∧ pending e.lsn = true ∧ ∃ front, seen u = front ++ [e]
  attached : ∀ i u, (W i).unit? = some u → (B.units u).attached = true
  alone : ∀ i j u, (W i).unit? = some u → (W j).unit? = some u → i = j
  distinct : Distinct batch
  total : B.totalCount = batch.countP fun e => pending e.lsn
  empty : B.emptyEvent = true → B.totalCount = 0

namespace Queues

variable {B C : Bucket δ b} {W : Fin w → Worker δ b} {batch : List (Entry δ b)}
  {seen : Fin b → List (Entry δ b)} {pend : Nat → Bool} {u : Fin b} {i : Fin w} {x : Worker δ b}

variable (h : Queues B W batch seen pend)

include h

theorem mem_of_seen (he : e ∈ seen u) : e ∈ batch ∧ e.touches u :=
  mem_filter.1 (h.split u ▸ mem_append_left _ he)

theorem mem_of_queue (he : e ∈ (B.units u).queue) : e ∈ batch :=
  (mem_filter.1 (h.split u ▸ mem_append_right (seen u) he)).1

theorem mem_of_has (he : (W i).Has u e) : e ∈ seen u := by
  obtain ⟨-, -, front, hs⟩ := h.has i u e he
  rw [hs]
  exact mem_append_right _ (mem_singleton_self _)

theorem distinct_unit (u : Fin b) : Distinct (seen u ++ (B.units u).queue) :=
  h.split u ▸ List.Pairwise.filter _ h.distinct

theorem lsn_ne {x : Entry δ b} (he : e ∈ seen u) (hx : x ∈ (B.units u).queue) : x.lsn ≠ e.lsn :=
  ((pairwise_append.1 (h.distinct_unit u)).2.2 e he x hx).symm

theorem lsn_ne_of_unit {v : Fin b} {x : Entry δ b} (he : e ∈ seen u) (hid : e.unitID = some u)
    (hx : x ∈ (B.units v).queue) : x.lsn ≠ e.lsn := by
  intro heq
  have hv := (h.queued v x hx).1
  rw [h.distinct.eq_of_lsn (h.mem_of_queue hx) (h.mem_of_seen he).1 heq, hid] at hv
  obtain rfl := some.inj hv
  exact h.lsn_ne he hx heq

theorem total_pos (he : e ∈ batch) (hp : pend e.lsn) : 0 < B.totalCount := by
  rw [h.total]
  exact_mod_cast countP_pos_iff.2 ⟨e, he, hp⟩

theorem pending_eq_false (htotal : B.totalCount = 0) (he : e ∈ batch) : pend e.lsn = false := by
  by_contra hp
  have := h.total_pos he (by simpa using hp)
  omega

theorem queue_eq_nil (ht : B.totalCount = 0) (u : Fin b) : (B.units u).queue = [] := by
  refine eq_nil_iff_forall_not_mem.2 fun e he => ?_
  have hp := (h.queued u e he).2
  rw [h.pending_eq_false ht (h.mem_of_queue he)] at hp
  cases hp

theorem not_has (ht : B.totalCount = 0) : ¬ (W i).Has u e := by
  intro hh
  have hp := (h.has i u e hh).2.1
  rw [h.pending_eq_false ht (h.mem_of_seen (h.mem_of_has hh)).1] at hp
  cases hp

theorem at_unit (u : Fin b) (i : Fin w) (x : Worker δ b)
    {seen' : List (Entry δ b)} {pending' : Nat → Bool} (hu : ∀ v ≠ u, C.units v = B.units v)
    (ha : ∀ j ≠ i, (W j).unit? ≠ some u) (ho : ∀ v, (W i).unit? = some v → v = u)
    (hn : ∀ v, x.unit? = some v → v = u)
    (hpending : ∀ e ∈ batch, e.unitID ≠ some u → pending' e.lsn = pend e.lsn)
    (hs : batch.filter (touches u) = seen' ++ (C.units u).queue)
    (hq : ∀ e ∈ (C.units u).queue, e.unitID = some u ∧ pending' e.lsn)
    (htaken : ∀ e ∈ seen', pending' e.lsn → x.Has u e)
    (hh : ∀ e, x.Has u e → e.unitID = some u ∧ pending' e.lsn ∧ ∃ front, seen' = front ++ [e])
    (hattached : x.unit? = some u → (C.units u).attached)
    (htotal : C.totalCount = batch.countP fun e => pending' e.lsn)
    (hempty : C.emptyEvent → C.totalCount = 0) :
    Queues C (update W i x) batch (update seen u seen') pending' where
  split v := by
    by_cases hv : v = u
    · subst hv
      rw [update_self]
      exact hs
    · rw [update_of_ne hv, hu v hv]
      exact h.split v
  queued v e he := by
    by_cases hv : v = u
    · subst hv
      exact hq e he
    · rw [hu v hv] at he
      obtain ⟨hid, hp⟩ := h.queued v e he
      refine ⟨hid, ?_⟩
      rw [hpending e (h.mem_of_queue he) (by rw [hid]; simpa using hv), hp]
  taken v e he hp := by
    by_cases hv : v = u
    · subst hv
      rw [update_self] at he
      exact ⟨i, by rw [update_self]; exact htaken e he hp⟩
    · rw [update_of_ne hv] at he
      obtain ⟨hm, ht⟩ := h.mem_of_seen he
      have hne : e.unitID ≠ some u := by
        intro heq
        rw [touches_of_unit heq] at ht
        exact hv (of_decide_eq_true ht).symm
      obtain ⟨j, hj⟩ := h.taken v e he (by rwa [hpending e hm hne] at hp)
      have hji : j ≠ i := fun heq => hv (ho v (heq ▸ hj.1))
      exact ⟨j, by rwa [update_of_ne hji]⟩
  has j v e hj := by
    by_cases hji : j = i
    · subst hji
      rw [update_self] at hj
      obtain rfl := hn v hj.1
      rw [update_self]
      exact hh e hj
    · rw [update_of_ne hji] at hj
      have hv : v ≠ u := fun heq => ha j hji (heq ▸ hj.1)
      obtain ⟨hid, hp, hseen⟩ := h.has j v e hj
      rw [update_of_ne hv]
      refine ⟨hid, ?_, hseen⟩
      rw [hpending e (h.mem_of_seen (h.mem_of_has hj)).1 (by rw [hid]; simpa using hv), hp]
  attached j v hj := by
    by_cases hji : j = i
    · subst hji
      rw [update_self] at hj
      obtain rfl := hn v hj
      exact hattached hj
    · rw [update_of_ne hji] at hj
      have hv : v ≠ u := fun heq => ha j hji (heq ▸ hj)
      rw [hu v hv]
      exact h.attached j v hj
  alone j k v hj hk := by
    by_cases hji : j = i <;> by_cases hki : k = i
    · exact hji.trans hki.symm
    · subst hji
      rw [update_self] at hj
      rw [update_of_ne hki] at hk
      exact absurd (hn v hj ▸ hk) (ha k hki)
    · subst hki
      rw [update_self] at hk
      rw [update_of_ne hji] at hj
      exact absurd (hn v hk ▸ hj) (ha j hji)
    · rw [update_of_ne hji] at hj
      rw [update_of_ne hki] at hk
      exact h.alone j k v hj hk
  distinct := h.distinct
  total := htotal
  empty := hempty

omit h

/-! ### The steps of the session thread -/

variable (h : Queues B W batch seen pend)

include h

theorem pushUnit (hid : e.unitID = some u) (hf : ∀ x ∈ batch, x.lsn ≠ e.lsn) (incAllCount : Bool) :
    Queues (B.pushUnit u e incAllCount) W (batch ++ [e]) seen (update pend e.lsn true) where
  split v := by
    rw [filter_append, h.split v, append_assoc]
    congr 1
    by_cases hv : u = v
    · subst hv
      simp [Bucket.pushUnit, setUnit, touches_of_unit hid]
    · have hv' : v ≠ u := Ne.symm hv
      simp [Bucket.pushUnit, setUnit, touches_of_unit hid, hv, hv']
  queued v x hx := by
    by_cases hv : v = u
    · subst hv
      simp only [Bucket.pushUnit, setUnit, update_self, mem_append, mem_singleton] at hx
      rcases hx with hx | rfl
      · rw [update_of_ne (hf x (h.mem_of_queue hx))]
        exact h.queued v x hx
      · exact ⟨hid, update_self ..⟩
    · simp only [Bucket.pushUnit, setUnit, update_of_ne hv] at hx
      rw [update_of_ne (hf x (h.mem_of_queue hx))]
      exact h.queued v x hx
  taken v x hx hp := by
    rw [update_of_ne (hf x (h.mem_of_seen hx).1)] at hp
    exact h.taken v x hx hp
  has i v x hx := by
    rw [update_of_ne (hf x (h.mem_of_seen (h.mem_of_has hx)).1)]
    exact h.has i v x hx
  attached i v hi := by
    have := h.attached i v hi
    by_cases hv : v = u
    · subst hv
      simpa [Bucket.pushUnit, setUnit] using this
    · simpa [Bucket.pushUnit, setUnit, hv] using this
  alone := h.alone
  distinct := h.distinct.snoc hf
  total := by
    rw [countP_append, countP_update_of_fresh hf]
    simp [Bucket.pushUnit, h.total]
  empty hempty := absurd hempty (by simp [Bucket.pushUnit])

theorem barrier (hid : e.unitID = none) (hf : ∀ x ∈ batch, x.lsn ≠ e.lsn)
    (hu : C.units = B.units) (ht : C.totalCount = B.totalCount) (hempty : C.emptyEvent = B.emptyEvent)
    (hz : B.totalCount = 0) :
    Queues C W (batch ++ [e]) (fun u => seen u ++ [e]) (update pend e.lsn false) where
  split v := by
    rw [filter_append, h.split v, hu, h.queue_eq_nil hz v]
    simp [touches_of_none hid]
  queued v x hx := by
    rw [hu, h.queue_eq_nil hz v] at hx
    cases hx
  taken v x hx hp := by
    rcases mem_append.1 hx with hx | hx
    · obtain ⟨hm, -⟩ := h.mem_of_seen hx
      rw [update_of_ne (hf x hm), h.pending_eq_false hz hm] at hp
      cases hp
    · rw [mem_singleton.1 hx, update_self] at hp
      cases hp
  has i v x hx := absurd hx (h.not_has hz)
  attached i v hi := by
    rw [hu]
    exact h.attached i v hi
  alone := h.alone
  distinct := h.distinct.snoc hf
  total := by
    rw [countP_append, countP_update_of_fresh hf, ht, h.total]
    simp
  empty he := by
    rw [ht]
    exact h.empty (hempty ▸ he)

theorem restart (C : Bucket δ b) (hz : B.totalCount = 0)
    (hu : C.units = B.units) (ht : C.totalCount = B.totalCount) {batch' : List (Entry δ b)} (hdistinct : Distinct batch')
    (hd : ∀ e ∈ batch', pend e.lsn = false) :
    Queues C W batch' (fun u => batch'.filter (touches u)) pend where
  split v := by rw [hu, h.queue_eq_nil hz v, append_nil]
  queued v x hx := by
    rw [hu, h.queue_eq_nil hz v] at hx
    cases hx
  taken v x hx hp := by
    rw [hd x (mem_filter.1 hx).1] at hp
    cases hp
  has i v x hx := absurd hx (h.not_has hz)
  attached i v hi := by
    rw [hu]
    exact h.attached i v hi
  alone := h.alone
  distinct := hdistinct
  total := by
    rw [ht, hz, eq_comm, Nat.cast_eq_zero, countP_eq_zero]
    intro x hx
    rw [hd x hx]
    exact Bool.false_ne_true
  empty _ := ht.trans hz

theorem congr (hu : C.units = B.units) (ht : C.totalCount = B.totalCount) (he : C.emptyEvent → C.totalCount = 0) :
    Queues C W batch seen pend where
  __ := h
  split v := hu ▸ h.split v
  queued v x hx := h.queued v x (hu ▸ hx)
  attached i v hi := hu ▸ h.attached i v hi
  total := ht.trans h.total
  empty := he

omit h

/-! ### The steps of the workers -/

variable (h : Queues B W batch seen pend)

include h

theorem not_pending_of_inside (hi : W i = .inside u) (he : e ∈ seen u) : pend e.lsn = false := by
  by_contra hp
  obtain ⟨j, hj⟩ := h.taken u e he (by simpa using hp)
  have hji : j = i := h.alone j i u hj.1 (by rw [hi]; rfl)
  rw [hji, hi] at hj
  cases hj.2

theorem other_units (hi : (W i).unit? = some u) : ∀ j ≠ i, (W j).unit? ≠ some u :=
  fun j hji hj => hji (h.alone j i u hj hi)

omit h in
theorem unit_unique (hx : x.unit? = some u) (v : Fin b) (hv : x.unit? = some v) : v = u :=
  some.inj (hv.symm.trans hx)

theorem beginUnit (hi : (W i).unit? = none) (hf : (B.units u).attached = false) (queue : List (Fin b)) :
    Queues (B.beginUnit u queue).2 (update W i (.inside u)) batch seen pend := by
  have hB : (B.beginUnit u queue).2 =
      { B.setUnit u { B.units u with attached := true, inQue := false } with ntyQueue := queue } := by
    rw [Bucket.beginUnit, if_neg (by rw [hf]; exact Bool.false_ne_true)]
  have ha : ∀ j, (W j).unit? ≠ some u := fun j hj => by
    rw [h.attached j u hj] at hf
    cases hf
  rw [hB, ← update_eq_self u seen]
  refine h.at_unit u i (.inside u) ?_ (fun j _ => ha j) ?_ (unit_unique rfl) (fun _ _ _ => rfl) ?_ ?_ ?_ ?_ ?_ h.total
    h.empty
  · intro v hv
    exact update_of_ne hv _ _
  · intro v hv
    rw [hi] at hv
    cases hv
  · simpa [setUnit] using h.split u
  · simpa [setUnit] using h.queued u
  · intro x hx hp
    obtain ⟨j, hj⟩ := h.taken u x hx hp
    exact absurd hj.1 (ha j)
  · rintro x ⟨-, hx⟩
    cases hx
  · intro _
    simp [setUnit]

theorem take (hi : W i = .inside u) {queue : List (Entry δ b)} (hq : (B.units u).queue = e :: queue) :
    Queues (B.setUnit u { B.units u with queue := queue }) (update W i (.holds u e)) batch
      (update seen u (seen u ++ [e])) pend := by
  have hu : (W i).unit? = some u := by rw [hi]; rfl
  have he : e.unitID = some u ∧ pend e.lsn = true := h.queued u e (hq ▸ mem_cons_self)
  refine h.at_unit u i (.holds u e) ?_ (h.other_units hu) (unit_unique hu) (unit_unique rfl) (fun _ _ _ => rfl)
    ?_ ?_ ?_ ?_ ?_ h.total h.empty
  · intro v hv
    exact update_of_ne hv _ _
  · simpa [setUnit, hq] using h.split u
  · intro x hx
    simp only [setUnit, update_self] at hx
    exact h.queued u x (hq ▸ mem_cons_of_mem _ hx)
  · intro x hx hp
    rcases mem_append.1 hx with hx | hx
    · rw [h.not_pending_of_inside hi hx] at hp
      cases hp
    · rw [mem_singleton.1 hx]
      exact ⟨rfl, rfl⟩
  · rintro x ⟨-, hx⟩
    obtain rfl := some.inj hx
    exact ⟨he.1, he.2, seen u, rfl⟩
  · intro _
    simpa [setUnit] using h.attached i u hu

theorem drop (hi : W i = .inside u) (hu : C.units = update B.units u { B.units u with queue := [] })
    (ht : C.totalCount = B.totalCount - (B.units u).queue.length) (hempty : C.emptyEvent = B.emptyEvent) :
    Queues C W batch (update seen u (seen u ++ (B.units u).queue)) (doneWith pend (B.units u).queue) := by
  have hunit : (W i).unit? = some u := by rw [hi]; rfl
  have hcount := countP_doneWith h.distinct (pairwise_append.1 (h.distinct_unit u)).2.1 (fun x hx => h.mem_of_queue hx) fun x hx => (h.queued u x hx).2
  have hn : Queues C (update W i (W i)) batch (update seen u (seen u ++ (B.units u).queue))
      (doneWith pend (B.units u).queue) := by
    refine h.at_unit u i (W i) ?_ (h.other_units hunit) (unit_unique hunit) (unit_unique hunit) ?_ ?_ ?_ ?_ ?_ ?_ ?_ ?_
    · intro v hv
      rw [hu, update_of_ne hv]
    · intro x hx hne
      refine doneWith_of_fresh fun y hy heq => hne ?_
      rw [← h.distinct.eq_of_lsn (h.mem_of_queue hy) hx heq]
      exact (h.queued u y hy).1
    · rw [hu, update_self, append_nil]
      exact h.split u
    · intro x hx
      rw [hu, update_self] at hx
      cases hx
    · intro x hx hp
      rcases mem_append.1 hx with hx | hx
      · rw [doneWith_of_false (h.not_pending_of_inside hi hx)] at hp
        cases hp
      · rw [doneWith_of_mem hx] at hp
        cases hp
    · rintro x ⟨-, hx⟩
      rw [hi] at hx
      cases hx
    · intro _
      rw [hu, update_self]
      exact h.attached i u hunit
    · rw [ht, h.total]
      omega
    · intro he
      have h0 := h.empty (hempty ▸ he)
      rw [ht, h0, h.queue_eq_nil h0 u]
      rfl
  rwa [update_eq_self] at hn

theorem finish (hi : (W i).Has u e) (hu : C.units = B.units)
    (ht : C.totalCount = B.totalCount - 1) (hempty : C.emptyEvent = B.emptyEvent) :
    Queues C (update W i (.inside u)) batch seen (update pend e.lsn false) := by
  obtain ⟨hid, hpend, front, hfront⟩ := h.has i u e hi
  have hm := (h.mem_of_seen (h.mem_of_has hi)).1
  have hcount := h.distinct.countP_update_false hm hpend
  rw [← update_eq_self u seen]
  refine h.at_unit u i (.inside u) (fun v _ => hu ▸ rfl) (h.other_units hi.1) (unit_unique hi.1) (unit_unique rfl)
    ?_ ?_ ?_ ?_ ?_ ?_ ?_ ?_
  · intro x hx hne
    refine update_of_ne (fun heq => hne ?_) _ _
    rw [h.distinct.eq_of_lsn hx hm heq, hid]
  · rw [hu]
    exact h.split u
  · intro x hx
    rw [hu] at hx
    rw [update_of_ne (h.lsn_ne (h.mem_of_has hi) hx)]
    exact h.queued u x hx
  · intro x hx hp
    by_cases heq : x.lsn = e.lsn
    · rw [heq, update_self] at hp
      cases hp
    · rw [update_of_ne heq] at hp
      obtain ⟨j, hj⟩ := h.taken u x hx hp
      have hji : j = i := h.alone j i u hj.1 hi.1
      rw [hji] at hj
      have hxe : e = x := some.inj (hi.2.symm.trans hj.2)
      exact absurd (congrArg lsn hxe.symm) heq
  · rintro x ⟨-, hx⟩
    cases hx
  · intro _
    rw [hu]
    exact h.attached i u hi.1
  · rw [ht, h.total]
    omega
  · intro he
    have h0 := h.empty (hempty ▸ he)
    have := h.total_pos hm hpend
    omega

theorem leave (hi : W i = .inside u)
    (hunits : ∀ v ≠ u, C.units v = B.units v) (hq : (C.units u).queue = (B.units u).queue)
    (ht : C.totalCount = B.totalCount) (hempty : C.emptyEvent = B.emptyEvent) :
    Queues C (update W i .leaving) batch seen pend := by
  have hu : (W i).unit? = some u := by rw [hi]; rfl
  rw [← update_eq_self u seen]
  refine h.at_unit u i .leaving hunits (h.other_units hu) (unit_unique hu) nofun (fun _ _ _ => rfl) ?_ ?_ ?_ ?_ ?_ ?_
    ?_
  · rw [hq]
    exact h.split u
  · rw [hq]
    exact h.queued u
  · intro x hx hp
    rw [h.not_pending_of_inside hi hx] at hp
    cases hp
  · rintro x ⟨hx, -⟩
    cases hx
  · intro hx
    cases hx
  · rw [ht, h.total]
  · intro he
    rw [ht]
    exact h.empty (hempty ▸ he)

theorem congr_worker (hu : x.unit? = (W i).unit?)
    (hh : x.held? = (W i).held?) : Queues B (update W i x) batch seen pend := by
  have hunit' : ∀ j, (update W i x j).unit? = (W j).unit? := fun j => by
    rw [apply_update (fun _ => Worker.unit?), hu, update_eq_self]
  have hhas : ∀ j v e, (update W i x j).Has v e ↔ (W j).Has v e := fun j v e => by
    rw [Worker.Has, hunit', apply_update (fun _ => Worker.held?), hh, update_eq_self, Worker.Has]
  exact { h with
      taken := fun v e he hp => (h.taken v e he hp).imp fun j hj => (hhas j v e).2 hj
      has := fun j v e hj => h.has j v e ((hhas j v e).1 hj)
      attached := fun j v hj => h.attached j v ((hunit' j).symm.trans hj)
      alone := fun j k v hj hk => h.alone j k v ((hunit' j).symm.trans hj) ((hunit' k).symm.trans hk) }

omit h

end Queues

/-- The records handed to workers: no record twice, and the ones of a unit in the order in which they were taken. -/
structure Handed (handed : List (Fin w × Entry δ b)) (seen : Fin b → List (Entry δ b)) : Prop where
  once : Distinct (handed.map (·.2))
  mem : ∀ p ∈ handed, ∃ u, p.2.unitID = some u ∧ p.2 ∈ seen u
  order : ∀ u, ((handed.map (·.2)).filter (touches u)).Sublist (seen u)

namespace Handed

variable {handed : List (Fin w × Entry δ b)} {seen : Fin b → List (Entry δ b)} {u : Fin b} {i : Fin w}

theorem nil (seen : Fin b → List (Entry δ b)) : Handed ([] : List (Fin w × Entry δ b)) seen where
  once := List.Pairwise.nil
  mem _ hp := absurd hp not_mem_nil
  order _ := nil_sublist _

theorem mono (h : Handed handed seen) {seen' : Fin b → List (Entry δ b)} (hs : ∀ u, (seen u).Sublist (seen' u)) :
    Handed handed seen' where
  once := h.once
  mem p hp := (h.mem p hp).imp fun u hu => ⟨hu.1, (hs u).subset hu.2⟩
  order u := (h.order u).trans (hs u)

theorem sublist_update (l : List (Entry δ b)) (v : Fin b) : (seen v).Sublist (update seen u (seen u ++ l) v) := by
  by_cases hv : v = u
  · subst hv
    rw [update_self]
    exact sublist_append_left _ _
  · rw [update_of_ne hv]

theorem take (h : Handed handed seen) (hid : e.unitID = some u) (hf : ∀ p ∈ handed, p.2.lsn ≠ e.lsn) :
    Handed (handed ++ [(i, e)]) (update seen u (seen u ++ [e])) := by
  have hm := h.mono (sublist_update (u := u) [e])
  constructor
  · rw [map_append]
    refine h.once.snoc fun x hx => ?_
    obtain ⟨p, hp, rfl⟩ := mem_map.1 hx
    exact hf p hp
  · exact forall_mem_append.2 ⟨hm.mem, forall_mem_singleton.2 ⟨u, hid, by simp⟩⟩
  · intro v
    rw [map_append, filter_append]
    by_cases hv : u = v
    · subst hv
      rw [update_self]
      exact (h.order u).append (filter_sublist)
    · have hn : ([(i, e)].map (·.2)).filter (touches v) = [] := by
        simp [touches_of_unit hid, hv]
      rw [hn, append_nil]
      exact hm.order v

end Handed

namespace Queues

variable {B : Bucket δ b} {W : Fin w → Worker δ b} {batch : List (Entry δ b)} {seen : Fin b → List (Entry δ b)}
  {pend : Nat → Bool} {u : Fin b} {i : Fin w} {handed : List (Fin w × Entry δ b)}

theorem not_handed (h : Queues B W batch seen pend) (hh : Handed handed seen) (he : e ∈ (B.units u).queue) :
    ∀ p ∈ handed, p.2.lsn ≠ e.lsn := by
  intro p hp
  obtain ⟨v, hv, hs⟩ := hh.mem p hp
  exact (h.lsn_ne_of_unit hs hv he).symm

end Queues

end SequoiaDB.Cls

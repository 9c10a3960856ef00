import SequoiaDB.Dms.CappedInv

/-!
# Recycling extents and popping inside one extent

The building blocks of `popRecord`: freeing a stretch of consecutive extents, removing the records of one extent
up to or from a given one on, and attaching the working extent again.
-/

namespace SequoiaDB.Dms.Capped

open SequoiaDB.Lib Function List Collection Content

variable {cl cl' : Collection} {cs pre suf : List Content} {c x : Content} {id : Nat} {a : Collection}

/-! ### What stays the same -/

/-- The fields of an extent header that describe its contents. -/
structure SameFields (e e' : Extent) : Prop where
  inUse : e'.inUse = e.inUse
  logicID : e'.logicID = e.logicID
  firstRecordOffset : e'.firstRecordOffset = e.firstRecordOffset
  lastRecordOffset : e'.lastRecordOffset = e.lastRecordOffset

theorem ContentAt.congr (h : ContentAt cl c) (he : SameFields (cl.extents c.id) (cl'.extents c.id))
    (hm : cl'.mem c.id = cl.mem c.id) : ContentAt cl' c where
  __ := h
  inUse := by rw [he.inUse, h.inUse]
  logicID := by rw [he.logicID, h.logicID]
  layout := by rw [hm]; exact h.layout

theorem HeaderAt.congr (h : HeaderAt cl c) (he : SameFields (cl.extents c.id) (cl'.extents c.id)) : HeaderAt cl' c :=
  ⟨by rw [he.firstRecordOffset, h.1], by rw [he.lastRecordOffset, h.2]⟩

theorem CappedLinks.congr (h : CappedLinks cl cs) (he : cl'.extents = cl.extents) (hm : cl'.mem = cl.mem) :
    CappedLinks cl' cs where
  chain := by
    have hchain := h.chain
    unfold Collection.next Collection.prev at hchain ⊢
    rwa [he]
  nodup := h.nodup
  contents c hc := (h.contents c hc).congr (by rw [he]; exact ⟨rfl, rfl, rfl, rfl⟩) (by rw [hm])

theorem CappedLinks.id_ne (h : CappedLinks cl (pre ++ x :: suf)) : ∀ c ∈ pre ++ suf, c.id ≠ x.id := by
  intro c hc heq
  have hnd := h.nodup
  rw [map_append, map_cons, perm_middle.nodup_iff, ← map_append] at hnd
  exact (nodup_cons.1 hnd).1 (heq ▸ mem_map_of_mem hc)

/-- The parts of a collection that recycling does not touch. -/
structure SameRest (cl cl' : Collection) : Prop where
  mem : cl'.mem = cl.mem
  work : cl'.work = cl.work
  options : cl'.options = cl.options

theorem SameRest.trans {b c : Collection} (h : SameRest a b) (h' : SameRest b c) : SameRest a c :=
  ⟨by rw [h'.mem, h.mem], by rw [h'.work, h.work], by rw [h'.options, h.options]⟩

def Options.extentPages (o : Options) : Int := (DMS_CAP_EXTENT_SZ / 2 ^ o.pageSizeSquareRoot : Nat)

/-- What freeing `k` extents does to the counters. -/
structure Freed (k : Nat) (cl cl' : Collection) : Prop where
  recCount : ∀ i, (cl'.extents i).recCount = (cl.extents i).recCount
  pages : cl'.stat.totalDataPages = cl.stat.totalDataPages - k * cl.options.extentPages

theorem Freed.trans {k m : Nat} {b c : Collection} (h : Freed k a b) (h' : Freed m b c)
    (ho : b.options = a.options) : Freed (k + m) a c where
  recCount i := (h'.recCount i).trans (h.recCount i)
  pages := by
    rw [h'.pages, h.pages, ho]
    push_cast
    ring

/-! ### Unlinking an extent -/

theorem unlinkPrev_eq (cl : Collection) (id : Nat) (p n : Option Nat) : cl.unlinkPrev id p n = { cl with
    extents := fun i => { cl.extents i with nextExtent := if p = some i then n else cl.next i }
    firstExtentID := if p = none ∧ cl.firstExtentID = some id then n else cl.firstExtentID } := by
  unfold unlinkPrev
  cases p with
  | none =>
    simp only [reduceCtorEq, if_false, true_and]
    split_ifs <;> rfl
  | some p =>
    simp only [setExtent, reduceCtorEq, false_and, if_false, Collection.mk.injEq, true_and, and_true]
    refine update_eq_iff.2 ⟨by rw [if_pos rfl], fun i hi => ?_⟩
    rw [if_neg fun h => hi (Option.some.inj h).symm]
    rfl

theorem unlinkNext_eq (cl : Collection) (id : Nat) (p n : Option Nat) : cl.unlinkNext id p n = { cl with
    extents := fun i => { cl.extents i with prevExtent := if n = some i then p else cl.prev i }
    lastExtentID := if n = none ∧ cl.lastExtentID = some id then p else cl.lastExtentID } := by
  unfold unlinkNext
  cases n with
  | none =>
    simp only [reduceCtorEq, if_false, true_and]
    split_ifs <;> rfl
  | some n =>
    simp only [setExtent, reduceCtorEq, false_and, if_false, Collection.mk.injEq, true_and, and_true]
    refine update_eq_iff.2 ⟨by rw [if_pos rfl], fun i hi => ?_⟩
    rw [if_neg fun h => hi (Option.some.inj h).symm]
    rfl

theorem removeExtentFromMeta_eq (cl : Collection) (id : Nat) : cl.removeExtentFromMeta id = { cl with
    extents := fun i => { cl.extents i with
      nextExtent := if cl.prev id = some i then cl.next id else cl.next i
      prevExtent := if cl.next id = some i then cl.prev id else cl.prev i }
    firstExtentID := if cl.prev id = none ∧ cl.firstExtentID = some id then cl.next id else cl.firstExtentID
    lastExtentID := if cl.next id = none ∧ cl.lastExtentID = some id then cl.prev id else cl.lastExtentID
    stat := { cl.stat with totalDataPages := cl.stat.totalDataPages - cl.options.extentPages } } := by
  unfold removeExtentFromMeta
  simp only [unlinkPrev_eq, unlinkNext_eq]
  rfl

theorem freeExtent_spec (h : CappedLinks cl (pre ++ x :: suf)) :
    ∃ cl', cl.freeExtent x.id = (.ok, cl') ∧ SameRest cl cl' ∧
      cl'.stat.totalRecords = cl.stat.totalRecords ∧
      (cl.firstExtentID ≠ some x.id → cl'.firstExtentID = cl.firstExtentID) ∧
      (cl.lastExtentID ≠ some x.id → cl'.lastExtentID = cl.lastExtentID) ∧
      cl'.next x.id = cl.next x.id ∧
      (∀ c ∈ pre ++ suf, SameFields (cl.extents c.id) (cl'.extents c.id)) ∧
      ChainTo cl'.next cl'.prev none ((pre ++ suf).map Content.id) none := by
  have hx := h.contents x (by simp)
  have hnd := h.nodup
  rw [map_append, map_cons] at hnd
  have hn : cl.next x.id = (suf.map Content.id).head? := h.next rfl
  have hp : cl.prev x.id = (pre.map Content.id).getLast? := h.prev rfl
  have hne := h.id_ne
  have hpx : cl.prev x.id ≠ some x.id := by
    intro heq
    rw [hp] at heq
    obtain ⟨c, hc, hid⟩ := mem_map.1 (List.mem_of_getLast? heq)
    exact hne c (mem_append_left _ hc) hid
  refine ⟨(cl.removeExtentFromMeta x.id).setExtent x.id
    { (cl.removeExtentFromMeta x.id).extents x.id with inUse := false, logicID := -1 }, ?_, ?_⟩
  · rw [freeExtent, if_neg (by simp [hx.inUse])]
  simp only [removeExtentFromMeta_eq]
  refine ⟨⟨rfl, rfl, rfl⟩, rfl, fun hf => if_neg fun hf' => hf hf'.2, fun hl => if_neg fun hl' => hl hl'.2, ?_, ?_, ?_⟩
  · simp only [Collection.next, setExtent, update_self]
    exact if_neg hpx
  · intro c hc
    simp only [setExtent, update_of_ne (hne c hc)]
    exact ⟨rfl, rfl, rfl, rfl⟩
  · have hch := h.chain
    rw [map_append, map_cons] at hch
    rw [map_append]
    refine hch.unlink hnd ?_ ?_
    all_goals
      intro y hy
      rw [← map_append] at hy
      obtain ⟨c, hc, rfl⟩ := mem_map.1 hy
      simp only [Collection.next, Collection.prev, setExtent, update_of_ne (hne c hc)] at hp hn ⊢
      simp only [hp, hn]

theorem freeExtent_ok (h : cl.freeExtent id = (.ok, cl')) : cl' = (cl.removeExtentFromMeta id).setExtent id
      { (cl.removeExtentFromMeta id).extents id with inUse := false, logicID := -1 } := by
  unfold freeExtent at h
  split at h
  · cases h
  · exact (Prod.mk.inj h).2.symm

theorem freeExtent_freed (h : cl.freeExtent id = (.ok, cl')) : Freed 1 cl cl' := by
  rw [freeExtent_ok h, removeExtentFromMeta_eq]
  refine ⟨fun i => ?_, by simp [setExtent]⟩
  by_cases hi : i = id
  · subst hi
    simp only [setExtent, update_self]
  · simp only [setExtent, update_of_ne hi]

/-! ### Counting records -/

theorem countRecNumAndSize_eq (h : ContentAt cl c) {as ms bs : List (List UInt8)}
    (hb : c.bodies = as ++ (ms ++ bs)) (hms : ms ≠ []) :
    cl.countRecNumAndSize c.id (c.start + span as : Nat) (c.start + span as + span ms.dropLast : Nat) =
      .ok (ms.length, span ms) := by
  obtain ⟨ini, l, rfl⟩ := (eq_nil_or_concat' ms).resolve_left hms
  obtain ⟨m, ms', hm⟩ : ∃ m ms', ini ++ [l] = m :: ms' := exists_cons_of_ne_nil (by simp)
  have hf : c.bodies = as ++ m :: (ms' ++ bs) := by rw [hb, hm]; simp
  have hl : c.bodies = (as ++ ini) ++ l :: bs := by rw [hb]; simp
  have hr1 := h.readHead hf
  have hr2 := h.readHead hl
  rw [span_append, ← Nat.add_assoc] at hr2
  have hno := (h.inRange hl).recNo_lt
  have hno0 := h.recNo_pos
  have hfit := (h.split hl).1
  have hs := h.start_ge
  unfold DMS_EXTENT_METADATA_SZ at hs
  rw [dropLast_concat]
  unfold countRecNumAndSize DMS_INVALID_OFFSET
  rw [if_neg (by omega)]
  simp only [Int.toNat_natCast, hr1, hr2, isNormal_recSize, getSize_recSize hfit]
  rw [if_neg (by simp)]
  simp only [length_append, length_singleton, span_append, span_cons, span_nil] at hno ⊢
  congr 2
  · rw [Int.emod_eq_of_lt (by omega) (by omega)]
    omega
  · omega

theorem countRecNumAndSize_all (h : ContentAt cl c) :
    cl.countRecNumAndSize c.id c.firstOffset c.lastOffset = .ok (c.bodies.length, span c.bodies) := by
  by_cases hb : c.bodies = []
  · rw [firstOffset_nil hb, hb]
    exact if_pos (Or.inl rfl)
  · have hc := countRecNumAndSize_eq h (show c.bodies = [] ++ (c.bodies ++ []) by simp) hb
    rw [span_nil, Nat.add_zero] at hc
    rw [firstOffset_eq hb, Content.lastOffset, if_neg hb]
    exact hc

theorem recycleActiveExt_spec (h : CappedCore cl (pre ++ x :: suf)) (hx : HeaderAt cl x) :
    ∃ cl', cl.recycleActiveExt x.id = (.ok, cl') ∧ SameRest cl cl' ∧
      (cl.firstExtentID ≠ some x.id → cl'.firstExtentID = cl.firstExtentID) ∧
      (cl.lastExtentID ≠ some x.id → cl'.lastExtentID = cl.lastExtentID) ∧
      cl'.next x.id = cl.next x.id ∧ CappedCore cl' (pre ++ suf) ∧
      ∀ c ∈ pre ++ suf, HeaderAt cl c → HeaderAt cl' c := by
  have hcount := countRecNumAndSize_all (h.contents x (by simp))
  rw [← hx.1, ← hx.2] at hcount
  unfold recycleActiveExt
  simp only [hcount]
  have hl : CappedLinks { cl with stat := { cl.stat.remove x.bodies.length (span x.bodies) with
      totalDataFreeSpace := cl.stat.totalDataFreeSpace - (cl.extents x.id).freeSpace } } (pre ++ x :: suf) :=
    h.toCappedLinks.congr rfl rfl
  obtain ⟨cl', hf, hr, ht, hfirst, hlast, hn, hs, hchain⟩ := freeExtent_spec hl
  refine ⟨cl', hf, ⟨hr.mem, hr.work, hr.options⟩, hfirst, hlast, hn, ⟨⟨hchain, ?_, ?_⟩, ?_⟩, ?_⟩
  · exact h.nodup.sublist (List.Sublist.map _ (List.Sublist.append_left (sublist_cons_self _ _) _))
  · intro c hc
    refine (h.contents c ?_).congr (hs c hc) (by rw [hr.mem])
    exact (List.Sublist.append_left (sublist_cons_self _ _) _).subset hc
  · have := h.total
    rw [ht]
    simp only [Stat.remove, recordNum, map_append, map_cons, sum_append, sum_cons] at this ⊢
    omega
  · exact fun c hc hh => hh.congr (hs c hc)

theorem countRecNumAndSize_ne_ok (cl : Collection) (id : Nat) (a b : Int) :
    cl.countRecNumAndSize id a b ≠ .error .ok := by
  unfold countRecNumAndSize
  simp only
  split_ifs <;> exact nofun

theorem recycleActiveExt_freed (h : cl.recycleActiveExt id = (.ok, cl')) : Freed 1 cl cl' := by
  unfold recycleActiveExt at h
  simp only at h
  split at h
  next rc hcount =>
    obtain ⟨rfl, -⟩ := Prod.mk.inj h
    exact absurd hcount (countRecNumAndSize_ne_ok _ _ _ _)
  next =>
    have hf := freeExtent_freed h
    exact ⟨hf.recCount, hf.pages⟩

variable {xs : List Content}

theorem recycleLoop_spec {t n : Nat} (h : CappedCore cl (pre ++ (xs ++ suf)))
    (hxs : xs ≠ []) (hheaders : ∀ c ∈ xs, HeaderAt cl c) (ht : ∀ c ∈ xs, c.id ≠ t)
    (hf : ∀ c ∈ xs, cl.firstExtentID ≠ some c.id) (hl : ∀ c ∈ xs, cl.lastExtentID ≠ some c.id)
    (hfuel : xs.length ≤ n) :
    ∃ cl', recycleLoop t (xs.map Content.id).getLast? n cl (xs.map Content.id).head? = (.ok, cl') ∧
      SameRest cl cl' ∧ Freed xs.length cl cl' ∧ cl'.firstExtentID = cl.firstExtentID ∧
      cl'.lastExtentID = cl.lastExtentID ∧ CappedCore cl' (pre ++ suf) ∧
      ∀ c ∈ pre ++ suf, HeaderAt cl c → HeaderAt cl' c := by
  induction xs generalizing cl n with
  | nil => exact absurd rfl hxs
  | cons x xs ih =>
    obtain ⟨n, rfl⟩ := Nat.exists_eq_succ_of_ne_zero (Nat.ne_zero_of_lt hfuel)
    rw [cons_append] at h
    have hx : x ∈ x :: xs := mem_cons_self ..
    obtain ⟨cl1, hs, hr1, hfirst1, hlast1, hn1, hc1, hh1⟩ :=
      recycleActiveExt_spec h (hheaders x hx)
    have hf1 := hfirst1 (hf x hx)
    have hl1 := hlast1 (hl x hx)
    have hfreed1 := recycleActiveExt_freed hs
    simp only [map_cons, head?_cons, recycleLoop]
    rw [if_neg (ht x hx), hs, andThen_ok]
    rcases xs with _ | ⟨y, ys⟩
    · rw [if_pos (by simp)]
      exact ⟨cl1, rfl, hr1, hfreed1, hf1, hl1, hc1, hh1⟩
    · have hlastne : some x.id ≠ ((y :: ys).map Content.id).getLast? := by
        intro heq
        obtain ⟨c, hc, hid⟩ := mem_map.1 (List.mem_of_getLast? heq.symm)
        exact h.id_ne c (mem_append_right _ (mem_append_left _ hc)) hid
      have hn := h.next (show _ = pre ++ x :: (y :: ys ++ suf) from rfl)
      have hnext : (cl1.extents x.id).nextExtent = ((y :: ys).map Content.id).head? := hn1.trans hn
      rw [map_cons, getLast?_cons_cons, ← map_cons, if_neg hlastne, hnext]
      obtain ⟨cl2, hloop, hr2, hfreed2, hf2, hl2, hc2, hh2⟩ := ih (n := n) hc1 (cons_ne_nil _ _)
        (fun c hc => hh1 c (mem_append_right _ (mem_append_left _ hc)) (hheaders c (mem_cons_of_mem _ hc)))
        (fun c hc => ht c (mem_cons_of_mem _ hc))
        (fun c hc => by rw [hf1]; exact hf c (mem_cons_of_mem _ hc))
        (fun c hc => by rw [hl1]; exact hl c (mem_cons_of_mem _ hc))
        (Nat.le_of_succ_le_succ hfuel)
      have hfreed := hfreed1.trans hfreed2 hr1.options
      refine ⟨cl2, hloop, hr1.trans hr2, ?_, by rw [hf2, hf1], by rw [hl2, hl1], hc2, ?_⟩
      · rwa [length_cons, Nat.add_comm]
      intro c hc hh
      refine hh2 c hc (hh1 c ?_ hh)
      rcases mem_append.1 hc with hc | hc
      · exact mem_append_left _ hc
      · exact mem_append_right _ (mem_append_right _ hc)

variable {t : Content}

theorem recycleStretch_spec {n : Nat} (h : CappedCore cl (pre ++ (xs ++ suf)))
    (hheaders : ∀ c ∈ xs, HeaderAt cl c) (ht : t ∈ pre ++ suf)
    (hfirst : ∃ c ∈ pre ++ suf, cl.firstExtentID = some c.id) (hl : ∃ c ∈ pre ++ suf, cl.lastExtentID = some c.id)
    (hf : xs.length < n) :
    ∃ cl', recycleLoop t.id (some ((xs.map Content.id).getLast?.getD t.id)) n cl
        (some ((xs.map Content.id).head?.getD t.id)) = (.ok, cl') ∧
      SameRest cl cl' ∧ Freed xs.length cl cl' ∧ cl'.firstExtentID = cl.firstExtentID ∧
      cl'.lastExtentID = cl.lastExtentID ∧ CappedCore cl' (pre ++ suf) ∧
      ∀ c ∈ pre ++ suf, HeaderAt cl c → HeaderAt cl' c := by
  by_cases hxs : xs = []
  · subst hxs
    obtain ⟨n, rfl⟩ := Nat.exists_eq_add_of_lt hf
    exact ⟨cl, if_pos rfl, ⟨rfl, rfl, rfl⟩, ⟨fun _ => rfl, by simp⟩, rfl, rfl, h, fun _ _ hh => hh⟩
  · have hnd := ((perm_append_comm_assoc pre xs suf).map Content.id).nodup_iff.1 h.nodup
    rw [map_append] at hnd
    have hout {c d : Content} (hc : c ∈ xs) (hd : d ∈ pre ++ suf) : c.id ≠ d.id :=
      (nodup_append.1 hnd).2.2 _ (mem_map_of_mem hc) _ (mem_map_of_mem hd)
    have hs {o : Option Nat} (ho : o ≠ none) : some (o.getD t.id) = o := by
      obtain ⟨i, rfl⟩ := Option.ne_none_iff_exists'.1 ho
      rfl
    obtain ⟨d, hd, hd'⟩ := hfirst
    obtain ⟨e, he, he'⟩ := hl
    rw [hs (by simpa using hxs), hs (by simpa using hxs)]
    exact recycleLoop_spec h hxs hheaders (fun c hc => hout hc ht)
      (fun c hc heq => hout hc hd (Option.some.inj (heq.symm.trans hd')))
      (fun c hc heq => hout hc he (Option.some.inj (heq.symm.trans he'))) hf.le

theorem recycleExtents_forward (h : CappedList cl (xs ++ t :: suf)) (hheaders : ∀ c ∈ xs, HeaderAt cl c) :
    ∃ cl', cl.recycleExtents t.id 1 = (.ok, cl') ∧ SameRest cl cl' ∧ Freed xs.length cl cl' ∧
      CappedList cl' (t :: suf) ∧ ∀ c ∈ t :: suf, HeaderAt cl c → HeaderAt cl' c := by
  have hb := h.length_le_chainBound
  rw [length_append, length_cons] at hb
  have hfirst : cl.firstExtentID = some ((xs.map Content.id).head?.getD t.id) := by
    rw [h.first]
    cases xs <;> rfl
  have hlast : cl.lastExtentID = ((t :: suf).map Content.id).getLast? := by
    rw [h.last, map_append, getLast?_append_of_ne_nil _ (by simp)]
  obtain ⟨z, hz⟩ : ∃ z, (t :: suf).getLast? = some z := ⟨_, getLast?_eq_some_getLast (cons_ne_nil _ _)⟩
  have hcore : CappedCore { cl with firstExtentID := some t.id } ([] ++ (xs ++ t :: suf)) :=
    ⟨h.toCappedLinks.congr rfl rfl, h.total⟩
  obtain ⟨cl', hloop, hr, hfreed, hf, hl, hcore', hhead⟩ := recycleStretch_spec (n := cl.chainBound) hcore
    (fun c hc => (hheaders c hc).congr ⟨rfl, rfl, rfl, rfl⟩) mem_cons_self ⟨t, mem_cons_self, rfl⟩
    ⟨z, List.mem_of_getLast? hz, by rw [hlast, getLast?_map, hz]; rfl⟩ (by omega)
  refine ⟨cl', ?_, ⟨hr.mem, hr.work, hr.options⟩, ⟨hfreed.recCount, hfreed.pages⟩,
    ⟨hcore', hf, hl.trans hlast, h.suffix_lids rfl⟩, fun c hc hh => hhead c hc (hh.congr ⟨rfl, rfl, rfl, rfl⟩)⟩
  unfold recycleExtents
  rw [if_pos (by decide), h.prev rfl, hfirst]
  exact hloop

theorem recycleExtents_backward (h : CappedList cl (pre ++ t :: xs)) (hheaders : ∀ c ∈ xs, HeaderAt cl c) :
    ∃ cl', cl.recycleExtents t.id (-1) = (.ok, cl') ∧ SameRest cl cl' ∧ Freed xs.length cl cl' ∧
      CappedList cl' (pre ++ [t]) ∧ ∀ c ∈ pre ++ [t], HeaderAt cl c → HeaderAt cl' c := by
  have hb := h.length_le_chainBound
  rw [length_append, length_cons] at hb
  have hfirst : cl.firstExtentID = ((pre ++ [t]).map Content.id).head? := by
    rw [h.first]
    cases pre <;> rfl
  have hlast : cl.lastExtentID = some ((xs.map Content.id).getLast?.getD t.id) := by
    rw [h.last, map_append, getLast?_append_of_ne_nil _ (by simp), map_cons, getLast?_cons]
  obtain ⟨z, zs, hz⟩ := exists_cons_of_ne_nil (show pre ++ [t] ≠ [] by simp)
  have hi : (pre ++ [t]) ++ (xs ++ []) = pre ++ t :: xs := by simp
  have hcore : CappedCore { cl with lastExtentID := some t.id } ((pre ++ [t]) ++ (xs ++ [])) :=
    ⟨hi ▸ h.toCappedLinks.congr rfl rfl, hi ▸ h.total⟩
  obtain ⟨cl', hloop, hr, hfreed, hf, hl, hcore', hhead⟩ := recycleStretch_spec (t := t) (n := cl.chainBound) hcore
    (fun c hc => (hheaders c hc).congr ⟨rfl, rfl, rfl, rfl⟩) (by simp)
    ⟨z, by simp [hz], by rw [hfirst, hz]; rfl⟩ ⟨t, by simp, rfl⟩ (by omega)
  rw [append_nil] at hcore' hhead
  refine ⟨cl', ?_, ⟨hr.mem, hr.work, hr.options⟩, ⟨hfreed.recCount, hfreed.pages⟩,
    ⟨hcore', hf.trans hfirst, by rw [hl]; simp, ?_⟩, fun c hc hh => hhead c hc (hh.congr ⟨rfl, rfl, rfl, rfl⟩)⟩
  · unfold recycleExtents
    rw [if_neg (by decide), h.next rfl, hlast]
    exact hloop
  · have hlids := h.lids
    rw [← singleton_append, ← append_assoc] at hlids
    exact hlids.left_of_append

/-! ### Popping inside one extent -/

theorem CappedList.replace (h : CappedList cl (pre ++ c :: suf)) {c' : Content} {e : Extent} {st : Stat}
    (hid : c'.id = c.id) (hlid : c'.lid = c.lid) (hn : e.nextExtent = cl.next c.id)
    (hp : e.prevExtent = cl.prev c.id)
    (hc' : ContentAt { cl.setExtent c.id e with stat := st } c')
    (hst : st.totalRecords = recordNum (pre ++ c' :: suf)) :
    CappedList { cl.setExtent c.id e with stat := st } (pre ++ c' :: suf) ∧
      ∀ d ∈ pre ++ suf, SameFields (cl.extents d.id) ((cl.setExtent c.id e).extents d.id) := by
  have hids : (pre ++ c' :: suf).map Content.id = (pre ++ c :: suf).map Content.id := by simp [hid]
  have hlids : (pre ++ c' :: suf).map Content.lid = (pre ++ c :: suf).map Content.lid := by simp [hlid]
  have hne := h.toCappedLinks.id_ne
  have hs : ∀ d ∈ pre ++ suf, (cl.setExtent c.id e).extents d.id = cl.extents d.id :=
    fun d hd => update_of_ne (hne d hd) _ _
  have hf : ∀ d ∈ pre ++ suf, SameFields (cl.extents d.id) ((cl.setExtent c.id e).extents d.id) := by
    intro d hd
    rw [hs d hd]
    exact ⟨rfl, rfl, rfl, rfl⟩
  have hlinks : ∀ i, ((cl.setExtent c.id e).extents i).nextExtent = cl.next i ∧
      ((cl.setExtent c.id e).extents i).prevExtent = cl.prev i := by
    intro i
    by_cases hi : i = c.id
    · subst hi
      simp only [Collection.setExtent, update_self]
      exact ⟨hn, hp⟩
    · simp only [Collection.setExtent, update_of_ne hi]
      exact ⟨rfl, rfl⟩
  refine ⟨⟨⟨⟨?_, by rw [hids]; exact h.nodup, ?_⟩, hst⟩, by rw [hids]; exact h.first,
    by rw [hids]; exact h.last, ?_⟩, hf⟩
  · rw [hids]
    exact h.chain.congr (fun i _ => (hlinks i).1) (fun i _ => (hlinks i).2)
  · refine forall_mem_append.2 ⟨fun d hd => ?_, forall_mem_cons.2 ⟨hc', fun d hd => ?_⟩⟩
    all_goals exact (h.contents d (by simp [hd])).congr (hf d (by simp [hd])) rfl
  · have hl := (isChain_map Content.lid (R := fun i j => j = i + 1)).2 h.lids
    rw [← hlids] at hl
    exact (isChain_map _).1 hl

def Content.dropTo (c : Content) (as : List (List UInt8)) (b : List UInt8) (bs : List (List UInt8)) : Content :=
  if bs = [] then { c with start := c.finish, recNo := 1, bodies := [] }
  else { c with start := c.start + span as + recSize b, recNo := c.recNo + as.length + 1, bodies := bs }

def Content.takeTo (c : Content) (as : List (List UInt8)) : Content :=
  if as = [] then { c with recNo := 1, bodies := [] } else { c with bodies := as }

section DropTake

variable {as bs : List (List UInt8)} {b : List UInt8}

@[simp] theorem Content.dropTo_id : (c.dropTo as b bs).id = c.id := by unfold Content.dropTo; split <;> rfl

@[simp] theorem Content.dropTo_lid : (c.dropTo as b bs).lid = c.lid := by unfold Content.dropTo; split <;> rfl

@[simp] theorem Content.dropTo_bodies : (c.dropTo as b bs).bodies = bs := by
  unfold Content.dropTo
  split_ifs with h
  · exact h.symm
  · rfl

@[simp] theorem Content.takeTo_id : (c.takeTo as).id = c.id := by unfold Content.takeTo; split <;> rfl

@[simp] theorem Content.takeTo_lid : (c.takeTo as).lid = c.lid := by unfold Content.takeTo; split <;> rfl

@[simp] theorem Content.takeTo_bodies : (c.takeTo as).bodies = as := by
  unfold Content.takeTo
  split_ifs with h
  · exact h.symm
  · rfl

theorem ContentAt.emptied (h : ContentAt cl c) {o : Nat} (ho : c.start ≤ o) (ho' : o ≤ c.finish) (hm : o % 4 = 0) :
    ContentAt cl { c with start := o, recNo := 1, bodies := [] } := by
  have hs := h.start_ge
  have hf := h.finish_le
  refine ⟨h.inUse, h.logicID, trivial, h.lid_nonneg, h.lid_lt, ?_, hm, Nat.one_pos, ?_, ?_⟩
  · simp only
    omega
  · simp only
    unfold DMS_EXTENT_METADATA_SZ at hs
    omega
  · simp only [Content.finish, span_nil] at hf ho' ⊢
    omega

theorem ContentAt.dropTo (h : ContentAt cl c) (hb : c.bodies = as ++ b :: bs) :
    ContentAt cl (c.dropTo as b bs) ∧ (c.dropTo as b bs).finish = c.finish := by
  obtain ⟨hf, -, he⟩ := h.split hb
  have hsize := recSize_bounds hf
  have hall := length_le_span h.layout.forall_fits
  have has := length_le_span (show ∀ x ∈ as, Fits x from fun x hx => h.layout.forall_fits x (by rw [hb]; simp [hx]))
  have hmod := h.start_mod
  unfold Content.dropTo
  by_cases hbs : bs = []
  · rw [if_pos hbs]
    refine ⟨h.emptied (by omega) le_rfl ?_, by simp [Content.finish]⟩
    unfold Content.finish
    omega
  · rw [if_neg hbs]
    have hl := h.layout
    rw [hb, layout_append] at hl
    have hno := h.recNo_le
    have hfin : ({ c with start := c.start + span as + recSize b, recNo := c.recNo + as.length + 1, bodies := bs } :
        Content).finish = c.finish := by
      rw [← he]
      rfl
    refine ⟨⟨h.inUse, h.logicID, hl.2.2.2, h.lid_nonneg, h.lid_lt, ?_, ?_, Nat.succ_pos _, ?_, ?_⟩, hfin⟩
    · exact h.start_ge.trans (by simp only; omega)
    · simp only
      omega
    · simp only
      omega
    · rw [hfin]
      exact h.finish_le

theorem ContentAt.takeTo (h : ContentAt cl c) (hb : c.bodies = as ++ bs) :
    ContentAt cl (c.takeTo as) ∧ (c.takeTo as).finish = c.start + span as := by
  have hf := h.finish_le
  unfold Content.takeTo
  by_cases has : as = []
  · rw [if_pos has, has]
    exact ⟨h.emptied le_rfl (Nat.le_add_right _ _) h.start_mod, rfl⟩
  · rw [if_neg has]
    have hl := h.layout
    rw [hb, layout_append] at hl
    refine ⟨⟨h.inUse, h.logicID, hl.1, h.lid_nonneg, h.lid_lt, h.start_ge, h.start_mod, h.recNo_pos, h.recNo_le,
      ?_⟩, rfl⟩
    unfold Content.finish at hf ⊢
    rw [hb, span_append] at hf
    simp only
    omega

end DropTake

section Pop

variable {as bs : List (List UInt8)} {b : List UInt8} {tot num : Nat}

theorem finishPop_spec (h : CappedList cl (pre ++ c :: suf)) {c' : Content} {e : Extent} {st : Stat}
    (hid : c'.id = c.id) (hl : c'.lid = c.lid) (hc' : ContentAt cl c')
    (he : e.inUse = (cl.extents c.id).inUse ∧ e.logicID = (cl.extents c.id).logicID ∧
      e.nextExtent = cl.next c.id ∧ e.prevExtent = cl.prev c.id)
    (ho : e.firstRecordOffset = c'.firstOffset ∧ e.lastRecordOffset = c'.lastOffset)
    (hst : st.totalRecords = cl.stat.totalRecords) (hnum : c'.bodies.length + num = c.bodies.length) :
    SameRest cl (cl.finishPop c.id e st num tot) ∧
      CappedList (cl.finishPop c.id e st num tot) (pre ++ c' :: suf) ∧
      HeaderAt (cl.finishPop c.id e st num tot) c' ∧
      ∀ d ∈ pre ++ suf, HeaderAt cl d → HeaderAt (cl.finishPop c.id e st num tot) d := by
  have hs : (cl.finishPop c.id e st num tot).extents c.id =
      { e with recCount := sub32 e.recCount num } := update_self ..
  have hc : ContentAt (cl.finishPop c.id e st num tot) c' := by
    refine { hc' with inUse := ?_, logicID := ?_ }
    · rw [hid, hs, ← hc'.inUse, hid]
      exact he.1
    · rw [hid, hs, ← hc'.logicID, hid]
      exact he.2.1
  have ht : (st.remove num tot).totalRecords = (recordNum (pre ++ c' :: suf) : Nat) := by
    have htot := h.total
    simp only [recordNum, map_append, map_cons, sum_append, sum_cons, Stat.remove, hst] at htot ⊢
    omega
  obtain ⟨hlist, hf⟩ := h.replace (e := { e with recCount := sub32 e.recCount num })
    hid hl he.2.2.1 he.2.2.2 hc ht
  refine ⟨⟨rfl, rfl, rfl⟩, hlist, ?_, fun d hd hh => hh.congr (hf d hd)⟩
  unfold HeaderAt
  rw [hid, hs]
  exact ho

/-- What popping inside one extent does to the counters. -/
structure Popped (id recNum : Nat) (cl cl' : Collection) : Prop where
  recCount : (cl'.extents id).recCount = sub32 (cl.extents id).recCount recNum
  others : ∀ i ≠ id, (cl'.extents i).recCount = (cl.extents i).recCount
  pages : cl'.stat.totalDataPages = cl.stat.totalDataPages
  total : cl'.stat.totalRecords = cl.stat.totalRecords - recNum

theorem finishPop_popped {id : Nat} {e : Extent} {st : Stat}
    (he : e.recCount = (cl.extents id).recCount) (hp : st.totalDataPages = cl.stat.totalDataPages)
    (ht : st.totalRecords = cl.stat.totalRecords) :
    Popped id num cl (cl.finishPop id e st num tot) where
  recCount := by
    rw [← he]
    show (update cl.extents id _ id).recCount = _
    rw [update_self]
  others i hi := by
    show (update cl.extents id _ i).recCount = _
    rw [update_of_ne hi]
  pages := hp
  total := congrArg (· - (num : Int)) ht

theorem getPrevRecOffset_ne_ok (cl : Collection) (id : Nat) (offset : Int) :
    cl.getPrevRecOffset id offset ≠ .error .ok := by
  have hl : ∀ fuel a p, prevRecLoop cl id offset fuel a p ≠ .error .ok := by
    intro fuel
    induction fuel with
    | zero => exact fun _ _ => nofun
    | succ fuel ih =>
      intro a p
      unfold prevRecLoop
      simp only
      split_ifs <;> first | exact ih _ _ | exact nofun
  unfold getPrevRecOffset
  simp only
  split_ifs <;> first | exact hl _ _ _ | exact nofun

theorem popFromActiveExt_popped {id offset : Nat} {direction : Int}
    (h : cl.popFromActiveExt id offset direction = (.ok, cl')) : ∃ num, Popped id num cl cl' := by
  unfold popFromActiveExt at h
  simp only at h
  split at h
  · cases h
  · split at h
    next rc hcount =>
      obtain ⟨rfl, -⟩ := Prod.mk.inj h
      exact absurd hcount (countRecNumAndSize_ne_ok _ _ _ _)
    next num tot hcount =>
      refine ⟨num, ?_⟩
      unfold popCounted at h
      simp only at h
      generalize (if direction ≥ 0 then decide ((offset : Int) = (cl.extents id).lastRecordOffset)
        else decide ((offset : Int) = (cl.extents id).firstRecordOffset)) = popAll at h
      cases popAll with
      | true =>
        cases h
        exact finishPop_popped rfl rfl rfl
      | false =>
        simp only [Bool.false_eq_true, if_false] at h
        split at h
        · cases h
          exact finishPop_popped rfl rfl rfl
        · split at h
          next rc hprev =>
            obtain ⟨rfl, -⟩ := Prod.mk.inj h
            exact absurd hprev (getPrevRecOffset_ne_ok _ _ _)
          next =>
            cases h
            exact finishPop_popped rfl rfl rfl

theorem popFromActiveExt_forward (h : CappedList cl (pre ++ c :: suf)) (hh : HeaderAt cl c)
    (hb : c.bodies = as ++ b :: bs) :
    ∃ cl', cl.popFromActiveExt c.id (c.start + span as) 1 = (.ok, cl') ∧ SameRest cl cl' ∧
      CappedList cl' (pre ++ c.dropTo as b bs :: suf) ∧ HeaderAt cl' (c.dropTo as b bs) ∧
      ∀ d ∈ pre ++ suf, HeaderAt cl d → HeaderAt cl' d := by
  have hat := h.contents c (by simp)
  have hd := (hat.dropTo hb).1
  have hne : c.bodies ≠ [] := by simp [hb]
  have hn : (c.dropTo as b bs).bodies.length + (as.length + 1) = c.bodies.length := by
    simp [hb]
    omega
  have hc := countRecNumAndSize_eq hat (show c.bodies = [] ++ ((as ++ [b]) ++ bs) by simp [hb]) (by simp)
  simp only [dropLast_concat, span_nil, Nat.add_zero, length_append, length_singleton, span_append, span_cons] at hc
  have hf : (cl.extents c.id).firstRecordOffset = c.start := by rw [hh.1, firstOffset_eq hne]
  unfold popFromActiveExt
  rw [if_neg (by simp [hat.inUse])]
  simp only [hf, ge_iff_le, zero_le_one, if_true, hc, popCounted, decide_eq_true_eq]
  by_cases hbs : bs = []
  · have hl : ((c.start + span as : Nat) : Int) = (cl.extents c.id).lastRecordOffset := by
      subst hbs
      rw [hh.2, lastOffset_eq hb]
    rw [if_pos hl]
    refine ⟨_, rfl, finishPop_spec h (by simp) (by simp) hd ⟨rfl, rfl, rfl, rfl⟩ ⟨?_, ?_⟩ rfl hn⟩
    · rw [firstOffset_nil (by simp [hbs])]
    · rw [lastOffset_nil (by simp [hbs])]
  · obtain ⟨bs', z, rfl⟩ := (eq_nil_or_concat' bs).resolve_left hbs
    have hsize := recSize_bounds (hat.split hb).1
    have hl : (cl.extents c.id).lastRecordOffset = (c.start + (span as + (recSize b + span bs')) : Nat) := by
      rw [hh.2, lastOffset_eq (show c.bodies = (as ++ b :: bs') ++ [z] by rw [hb]; simp), span_append, span_cons]
    rw [if_neg (by rw [hl]; omega)]
    refine ⟨_, rfl, finishPop_spec h (by simp) (by simp) hd ⟨rfl, rfl, rfl, rfl⟩ ⟨?_, ?_⟩ rfl hn⟩
    · rw [firstOffset_eq (by simp), Content.dropTo, if_neg hbs]
      simp only
      omega
    · rw [lastOffset_eq (show (c.dropTo as b _).bodies = bs' ++ [z] by simp), Content.dropTo, if_neg hbs]
      simp only [hl]
      omega

theorem prevRecLoop_eq (h : ContentAt cl c) {ds : List (List UInt8)} {fuel : Nat} {p : Int}
    (hb : c.bodies = as ++ (ds ++ b :: bs)) (hf : span ds < fuel) :
    prevRecLoop cl c.id (c.start + span as + span ds : Nat) fuel (c.start + span as : Nat) p =
      .ok (if ds = [] then p else (c.start + span as + span ds.dropLast : Nat)) := by
  induction ds generalizing as fuel p with
  | nil =>
    obtain ⟨fuel, rfl⟩ : ∃ k, fuel = k + 1 := ⟨fuel - 1, by omega⟩
    rw [prevRecLoop, span_nil, Nat.add_zero, if_neg (by omega), if_pos rfl, if_pos rfl]
  | cons d ds ih =>
    obtain ⟨fuel, rfl⟩ : ∃ k, fuel = k + 1 := ⟨fuel - 1, by omega⟩
    have hb' : c.bodies = as ++ d :: (ds ++ b :: bs) := by rw [hb]; simp
    have hfit := (h.split hb').1
    have hsize := recSize_bounds hfit
    rw [span_cons] at hf
    have hn := ih (p := (c.start + span as : Nat)) (show c.bodies = (as ++ [d]) ++ (ds ++ b :: bs) by rw [hb]; simp)
      (show span ds < fuel by omega)
    rw [span_append, span_cons, span_nil, Nat.add_zero] at hn
    rw [prevRecLoop, span_cons, if_pos (by omega)]
    simp only [Int.toNat_natCast, h.readHead hb', isNormal_recSize, getSize_recSize hfit, if_true]
    rw [show ((c.start + span as : Nat) : Int) + (recSize d : Nat) = (c.start + (span as + recSize d) : Nat) by omega,
      show c.start + span as + (recSize d + span ds) = c.start + (span as + recSize d) + span ds by omega, hn]
    cases ds with
    | nil => simp
    | cons e ds => simp [Nat.add_assoc]

theorem popFromActiveExt_backward (h : CappedList cl (pre ++ c :: suf)) (hh : HeaderAt cl c) (hr : RangeAt cl c)
    (hb : c.bodies = as ++ b :: bs) :
    ∃ cl', cl.popFromActiveExt c.id (c.start + span as) (-1) = (.ok, cl') ∧ SameRest cl cl' ∧
      CappedList cl' (pre ++ c.takeTo as :: suf) ∧ HeaderAt cl' (c.takeTo as) ∧
      ∀ d ∈ pre ++ suf, HeaderAt cl d → HeaderAt cl' d := by
  have hat := h.contents c (by simp)
  have ht := (hat.takeTo hb).1
  have hne : c.bodies ≠ [] := by simp [hb]
  have hn : (c.takeTo as).bodies.length + (b :: bs).length = c.bodies.length := by simp [hb]
  have hc := countRecNumAndSize_eq hat (show c.bodies = as ++ ((b :: bs) ++ []) by simp [hb]) (by simp)
  have hlast : (cl.extents c.id).lastRecordOffset = (c.start + span as + span (b :: bs).dropLast : Nat) := by
    rw [hh.2, Content.lastOffset, if_neg hne, hb, dropLast_append_of_ne_nil (cons_ne_nil _ _),
      span_append, Nat.add_assoc]
  have hf : (cl.extents c.id).firstRecordOffset = c.start := by rw [hh.1, firstOffset_eq hne]
  have hs := hat.start_ge
  unfold DMS_EXTENT_METADATA_SZ at hs
  unfold popFromActiveExt
  rw [if_neg (by simp [hat.inUse])]
  simp only [hlast, ge_iff_le, show ¬ (0 : Int) ≤ -1 by decide, if_false, hc, popCounted,
    decide_eq_true_eq, hf]
  by_cases has : as = []
  · rw [if_pos (by simp [has])]
    refine ⟨_, rfl, finishPop_spec h (by simp) (by simp) ht ⟨rfl, rfl, rfl, rfl⟩ ⟨?_, ?_⟩ rfl hn⟩
    · rw [firstOffset_nil (by simp [has])]
    · rw [lastOffset_nil (by simp [has])]
  · obtain ⟨as', z, hz⟩ := (eq_nil_or_concat' as).resolve_left has
    have hsize := recSize_bounds (hat.layout.forall_fits z (by rw [hb, hz]; simp))
    have hspan : span as = span as' + recSize z := by rw [hz]; simp
    rw [if_neg (by omega)]
    have hp : cl.getPrevRecOffset c.id (c.start + span as : Nat) = .ok (c.start + span as' : Nat) := by
      have ho := offset_range hb
      have hl := prevRecLoop_eq hat (p := DMS_INVALID_OFFSET)
        (show c.bodies = [] ++ (as ++ b :: bs) from hb) (show span as < span as + 1 by omega)
      rw [span_nil, Nat.add_zero, if_neg has, hz, dropLast_concat, ← hz] at hl
      unfold getPrevRecOffset
      unfold RangeAt recordRange at hr
      simp only [hr, firstOffset_eq hne]
      rw [if_neg (by simp [hat.inUse]), if_neg]
      · rw [show (((c.start + span as : Nat) : Int) - (c.start : Nat)).toNat + 1 = span as + 1 by omega, hl]
      · rw [firstOffset_eq hne] at ho
        unfold DMS_INVALID_OFFSET
        omega
    simp only [hp]
    refine ⟨_, rfl, finishPop_spec h (by simp) (by simp) ht ⟨rfl, rfl, rfl, rfl⟩ ⟨?_, ?_⟩ rfl hn⟩
    · rw [firstOffset_eq (by simp [has]), Content.takeTo, if_neg has]
    · rw [lastOffset_eq (show (c.takeTo as).bodies = as' ++ [z] by simp [hz]), Content.takeTo, if_neg has]

end Pop

end SequoiaDB.Dms.Capped

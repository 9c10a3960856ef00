import SequoiaDB.Dms.CappedWork

/-!
# Popping a stored record

`popRecord` of the logical id of a stored record removes, forwards, the record and everything in front of it, and,
backwards, the record and everything behind it.  The working extent is written to its header before the list of
extents is changed and is attached again afterwards; the invariant is lost and found again in between.
-/

namespace SequoiaDB.Dms.Capped

open SequoiaDB.Lib List Content

variable {cl cl' : Collection} {cs pre suf : List Content} {c : Content}

/-! ### Shrinking the list of extents -/

theorem recycleFront_spec (h : CappedList cl (pre ++ c :: suf)) (hheaders : ∀ d ∈ pre, HeaderAt cl d) :
    ∃ cl', (if cl.firstExtentID = some c.id then (Rc.ok, cl) else cl.recycleExtents c.id 1) = (.ok, cl') ∧
      SameRest cl cl' ∧ Freed pre.length cl cl' ∧ CappedList cl' (c :: suf) ∧
      ∀ d ∈ c :: suf, HeaderAt cl d → HeaderAt cl' d := by
  by_cases hf : cl.firstExtentID = some c.id
  · rw [if_pos hf]
    obtain rfl : pre = [] := by
      rcases pre with _ | ⟨p, pre⟩
      · rfl
      · rw [h.first] at hf
        have hnd := h.nodup
        simp_all
    exact ⟨cl, rfl, ⟨rfl, rfl, rfl⟩, ⟨fun _ => rfl, by simp⟩, h, fun _ _ hh => hh⟩
  · rw [if_neg hf]
    exact recycleExtents_forward h hheaders

theorem recycleBack_spec (h : CappedList cl (pre ++ c :: suf)) (hheaders : ∀ d ∈ suf, HeaderAt cl d) :
    ∃ cl', (if cl.lastExtentID = some c.id then (Rc.ok, cl) else cl.recycleExtents c.id (-1)) = (.ok, cl') ∧
      SameRest cl cl' ∧ Freed suf.length cl cl' ∧ CappedList cl' (pre ++ [c]) ∧
      ∀ d ∈ pre ++ [c], HeaderAt cl d → HeaderAt cl' d := by
  by_cases hlast : cl.lastExtentID = some c.id
  · rw [if_pos hlast]
    obtain rfl : suf = [] := by
      rcases eq_nil_or_concat' suf with rfl | ⟨suf', l, rfl⟩
      · rfl
      · have hnd := h.nodup
        have hl := h.last
        rw [hlast, ← cons_append, ← append_assoc, map_append, getLast?_append_of_ne_nil _ (by simp)] at hl
        simp only [map_append, map_cons, map_nil] at hnd hl
        have hn := (nodup_cons.1 (nodup_append.1 hnd).2.1).1
        have heq : c.id = l.id := by simpa using hl
        exact absurd (heq ▸ by simp) hn
    exact ⟨cl, rfl, ⟨rfl, rfl, rfl⟩, ⟨fun _ => rfl, by simp⟩, h, fun _ _ hh => hh⟩
  · rw [if_neg hlast]
    exact recycleExtents_backward h hheaders

section Shrink

variable {as bs : List (List UInt8)} {b : List UInt8}

theorem Content.dropTo_recNo (h : bs = []) : (c.dropTo as b bs).recNo = 1 := by
  rw [Content.dropTo, if_pos h]

theorem Content.takeTo_recNo (h : as = []) : (c.takeTo as).recNo = 1 := by
  rw [Content.takeTo, if_pos h]

theorem shrinkForward_work (h : CappedInv cl (pre ++ [c])) (hb : c.bodies = as ++ b :: bs) :
    ∃ cl', cl.shrinkForward c.id (c.start + span as) = (.ok, cl') ∧ CappedInv cl' [c.dropTo as b bs] ∧
      cl'.options = cl.options ∧ (Counted cl (pre ++ [c]) → Counted cl' [c.dropTo as b bs]) := by
  have hw := h.work c (by simp)
  obtain ⟨hr0, hl0, hh0⟩ := syncWorkExtInfo_spec h
  obtain ⟨cl1, hcl1, hr1, hf, hl1, hhead1⟩ :=
    recycleFront_spec hl0 fun d hd => hh0 d (mem_append_left _ hd)
  have hh1 : HeaderAt cl1 c := hhead1 c (by simp) (hh0 c (by simp))
  obtain ⟨cl2, hcl2, hr2, hl2, hh2, -⟩ := popFromActiveExt_forward (show CappedList cl1 ([] ++ [c]) from hl1) hh1 hb
  have hat1 := hl1.contents c (by simp)
  have hfin := (hat1.dropTo hb).2
  obtain ⟨cl3, hcl3, hi, ho⟩ := attachWorkExt_seek (show CappedList cl2 ([] ++ [c.dropTo as b bs]) from hl2) (by simpa using hh2)
    (fun hn => dropTo_recNo (by simpa using hn))
  have hl : cl2.lastExtentID = some c.id := by
    rw [hl2.last]
    simp
  have hoff : cl.syncWorkExtInfo.work.getNextRecOffset = c.finish := by
    rw [hr0.work]
    exact hw.writePos
  rw [dropTo_id, hfin] at hcl3
  unfold Collection.shrinkForward
  simp only [hw.id, decide_true, if_true, hcl1, andThen_ok, hat1.inUse, Bool.true_eq_false, and_false,
    if_false, hcl2, hl, hoff, hcl3]
  refine ⟨cl3, rfl, hi, by rw [ho, hr2.options, hr1.options, hr0.options], fun hc => ?_⟩
  obtain ⟨hp, hcounts⟩ := hc.sync h
  rw [length_append] at hp
  obtain ⟨recNum, hpopped⟩ := popFromActiveExt_popped hcl2
  refine counted_of_popped (show CappedCore cl1 ([] ++ [c]) from hl1.toCappedCore)
    (hp.freed hf hr1.options) ?_ hpopped hr2.options hl2.toCappedCore (by simp) (show _ + (as.length + 1) = _ by simp [hb]; omega) (attachSeek_counts hcl3)
  intro d hd
  rw [nil_append, mem_singleton] at hd
  subst hd
  exact (hcounts d (by simp)).congr (hf.recCount _)

theorem shrinkForward_active (h : CappedInv cl (pre ++ c :: suf)) (hsuf : suf ≠ []) (hb : c.bodies = as ++ b :: bs) :
    ∃ cl', cl.shrinkForward c.id (c.start + span as) = (.ok, cl') ∧
      CappedInv cl' (if bs = [] then suf else c.dropTo as b bs :: suf) ∧ cl'.options = cl.options ∧
      (Counted cl (pre ++ c :: suf) → Counted cl' (if bs = [] then suf else c.dropTo as b bs :: suf)) := by
  obtain ⟨mid, l, rfl⟩ := (eq_nil_or_concat' suf).resolve_left hsuf
  have hw : cl.work.id ≠ some c.id := fun heq => hsuf ((h.work_id_iff rfl).1 heq)
  have hh : ∀ d ∈ pre ++ c :: mid, HeaderAt cl d := by
    intro d hd
    refine h.headers d ?_
    rw [← cons_append, ← append_assoc, dropLast_concat]
    exact hd
  obtain ⟨cl1, hcl1, hr1, hf1, hl1, hhead1⟩ :=
    recycleFront_spec h.toCappedList fun d hd => hh d (mem_append_left _ hd)
  have hh1 : ∀ d ∈ c :: mid, HeaderAt cl1 d := by
    intro d hd
    refine hhead1 d ?_ (hh d (mem_append_right _ hd))
    rw [← cons_append]
    exact mem_append_left _ hd
  have hat1 := hl1.contents c (by simp)
  have hl : CappedInv cl ((pre ++ c :: mid) ++ [l]) := by simpa using h
  have hs : Counted cl (pre ++ c :: (mid ++ [l])) → PagesAt cl (pre.length + 1 + (mid.length + 1)) ∧
      (∀ d ∈ c :: mid, CountAt cl d) ∧ Counted cl ((pre ++ c :: mid) ++ [l]) := by
    intro hc
    have hcounted' : Counted cl ((pre ++ c :: mid) ++ [l]) := by simpa using hc
    refine ⟨?_, fun d hd => hcounted'.headers d ?_, hcounted'⟩
    · have hp := hc.pages
      rw [length_append, length_cons, length_append, length_singleton] at hp
      rwa [Nat.add_assoc, Nat.add_comm 1]
    · rw [dropLast_concat]
      exact mem_append_right _ hd
  unfold Collection.shrinkForward
  simp only [hw, decide_false, Bool.false_eq_true, if_false, hcl1, andThen_ok, hat1.inUse, Bool.true_eq_false, and_true]
  by_cases hbs : bs = []
  · rw [if_pos (by rw [(hh1 c (by simp)).2, lastOffset_eq (hbs ▸ hb)]), if_pos hbs]
    obtain ⟨d, ds, hd⟩ : ∃ d ds, mid ++ [l] = d :: ds := exists_cons_of_ne_nil hsuf
    have hn : (cl1.extents c.id).nextExtent = some d.id := by
      rw [hl1.next (show c :: (mid ++ [l]) = [] ++ c :: (mid ++ [l]) from rfl), hd]
      rfl
    rw [hd] at hl1
    obtain ⟨cl2, hcl2, hr2, hf2, hl2, hhead2⟩ := recycleExtents_forward
      (show CappedList cl1 ([c] ++ d :: ds) from hl1) (fun d hd => hh1 d (by simp_all))
    rw [← hd] at hl2
    simp only [hn, hcl2, andThen_ok]
    refine ⟨cl2, rfl, hl.of_rest (hr1.trans hr2) hl2 (fun e he => ?_), by rw [hr2.options, hr1.options], fun hc => ?_⟩
    · exact hhead2 e (hd ▸ mem_append_left _ he) (hh1 e (mem_cons_of_mem _ he))
    · have hf := hf1.trans hf2 hr1.options
      obtain ⟨hp, hcounts, hw⟩ := hs hc
      refine hw.of_rest (hr1.trans hr2) (hp.freed hf (hr1.trans hr2).options) fun e he => ?_
      exact (hcounts e (mem_cons_of_mem _ he)).congr (hf.recCount _)
  · have hlast : ((c.start + span as : Nat) : Int) ≠ (cl1.extents c.id).lastRecordOffset := by
      obtain ⟨bs', z, rfl⟩ := (eq_nil_or_concat' bs).resolve_left hbs
      have hsize := recSize_bounds (hat1.split hb).1
      rw [(hh1 c (by simp)).2, lastOffset_eq (show c.bodies = (as ++ b :: bs') ++ [z] by rw [hb]; simp),
        span_append, span_cons]
      omega
    rw [if_neg hlast, if_neg hbs]
    obtain ⟨cl2, hcl2, hr2, hl2, hh2, ho⟩ :=
      popFromActiveExt_forward (show CappedList cl1 ([] ++ c :: (mid ++ [l])) from hl1) (hh1 c (by simp)) hb
    rw [hcl2, andThen_ok]
    rw [nil_append, ← cons_append] at hl2
    refine ⟨cl2, rfl, hl.of_rest (hr1.trans hr2) hl2 (forall_mem_cons.2 ⟨hh2, fun e he => ?_⟩),
      by rw [hr2.options, hr1.options], fun hc => ?_⟩
    · exact ho e (by simp [he]) (hh1 e (mem_cons_of_mem _ he))
    · obtain ⟨hp, hcounts, hw⟩ := hs hc
      obtain ⟨recNum, hpopped⟩ := popFromActiveExt_popped hcl2
      obtain rfl : recNum = as.length + 1 := hpopped.recNum_eq hl1.toCappedCore hl2.toCappedCore (by
        simp only [recordNum, cons_append, map_cons, sum_cons, dropTo_bodies, hb, length_append, length_cons]
        omega)
      show Counted cl2 ((c.dropTo as b bs :: mid) ++ [l])
      refine hw.of_rest (hr1.trans hr2) ?_ fun e he => ?_
      · unfold PagesAt
        rw [hpopped.pages, hr2.options, length_cons]
        refine PagesAt.freed (k := pre.length) ?_ hf1 hr1.options
        rwa [Nat.add_assoc, Nat.add_comm 1] at hp
      · rcases mem_cons.1 he with rfl | he
        · exact hpopped.countAt ((hcounts c (by simp)).congr (hf1.recCount _)) rfl (by simp) (by simp [hb]; omega)
            hat1.length_lt
        · have hne : e.id ≠ c.id := by
            intro heq
            have hnd := hl1.nodup
            rw [map_cons, nodup_cons] at hnd
            exact hnd.1 (heq ▸ mem_map_of_mem (mem_append_left _ he))
          refine (hcounts e (mem_cons_of_mem _ he)).congr ?_
          rw [hpopped.others _ hne, hf1.recCount]

theorem shrinkBackward_spec (h : CappedInv cl (pre ++ c :: suf)) (hb : c.bodies = as ++ b :: bs) :
    ∃ cl', cl.shrinkBackward c.id (c.start + span as) = (.ok, cl') ∧ CappedInv cl' (pre ++ [c.takeTo as]) ∧
      cl'.options = cl.options ∧ (Counted cl (pre ++ c :: suf) → Counted cl' (pre ++ [c.takeTo as])) := by
  obtain ⟨hr0, hl0, hh0⟩ := syncWorkExtInfo_spec h
  obtain ⟨cl1, hcl1, hr1, hf, hl1, hhead1⟩ :=
    recycleBack_spec hl0 fun d hd => hh0 d (by simp [hd])
  have hh1 : ∀ d ∈ pre ++ [c], HeaderAt cl1 d := by
    intro d hd
    refine hhead1 d hd (hh0 d ?_)
    rcases mem_append.1 hd with hd | hd
    · exact mem_append_left _ hd
    · exact mem_append_right _ (by simp_all)
  have hat1 := hl1.contents c (by simp)
  have hrange : RangeAt cl1 c := by
    have hr := h.rangeAt (c := c) (by simp)
    unfold RangeAt Collection.recordRange at hr ⊢
    rw [hr1.work, hr0.work]
    split_ifs at hr ⊢ with hid
    · exact hr
    · rw [(hh1 c (by simp)).1, (hh1 c (by simp)).2]
  obtain ⟨cl2, hcl2, hr2, hl2, hh2, ho⟩ := popFromActiveExt_backward hl1 (hh1 c (by simp)) hrange hb
  obtain ⟨cl3, hcl3, hi, hopt⟩ := attachWorkExt_seek hl2
    (forall_mem_append.2 ⟨fun d hd => ho d (by simpa using hd) (hh1 d (mem_append_left _ hd)),
      forall_mem_singleton.2 hh2⟩)
    (fun hn => takeTo_recNo (by simpa using hn))
  rw [takeTo_id, (hat1.takeTo hb).2] at hcl3
  unfold Collection.shrinkBackward
  simp only [hcl1, andThen_ok, hat1.inUse, Bool.true_eq_false, if_false, hcl2, hcl3]
  refine ⟨cl3, rfl, hi, by rw [hopt, hr2.options, hr1.options, hr0.options], fun hc => ?_⟩
  obtain ⟨hp, hcounts⟩ := hc.sync h
  obtain ⟨recNum, hpopped⟩ := popFromActiveExt_popped hcl2
  have hp1 : PagesAt cl1 (pre.length + 1) := by
    refine PagesAt.freed (k := suf.length) ?_ hf hr1.options
    rw [length_append, length_cons] at hp
    rwa [Nat.add_comm suf.length, Nat.add_assoc, Nat.add_comm 1]
  refine counted_of_popped hl1.toCappedCore hp1 (fun d hd => ?_) hpopped hr2.options
    hl2.toCappedCore (by simp) (show _ + (bs.length + 1) = _ by simp [hb]) (attachSeek_counts hcl3)
  refine (hcounts d ?_).congr (hf.recCount _)
  rcases mem_append.1 hd with hd | hd
  · exact mem_append_left _ hd
  · exact mem_append_right _ (by simp_all)

end Shrink

/-! ### Popping -/

section Filter

variable {α : Type*} {l1 l2 : List α} {x : α} {f : α → Int}

theorem filter_of_pairwise (h : (l1 ++ x :: l2).Pairwise fun a b => f a < f b) :
    (l1 ++ x :: l2).filter (fun a => f x < f a) = l2 ∧ (l1 ++ x :: l2).filter (fun a => f a < f x) = l1 := by
  obtain ⟨-, h2, h12⟩ := pairwise_append.1 h
  have hf : ∀ a ∈ l1, f a < f x := fun a ha => h12 a ha x (mem_cons_self ..)
  have hb : ∀ a ∈ l2, f x < f a := (pairwise_cons.1 h2).1
  constructor
  · rw [filter_append, filter_cons_of_neg (by simp), filter_eq_self.2 fun a ha => decide_eq_true (hb a ha),
      append_left_eq_self, filter_eq_nil_iff]
    exact fun a ha => by simpa using (hf a ha).le
  · rw [filter_append, filter_cons_of_neg (by simp), filter_eq_self.2 fun a ha => decide_eq_true (hf a ha),
      append_right_eq_self, filter_eq_nil_iff]
    exact fun a ha => by simpa using (hb a ha).le

end Filter

def keptByPop (direction lid : Int) (rs : List Stored) : List Stored :=
  if direction ≥ 0 then rs.filter fun r => lid < r.logicalID else rs.filter fun r => r.logicalID < lid

section Kept

variable {as bs : List (List UInt8)} {b : List UInt8}

theorem stored_split (hb : c.bodies = as ++ b :: bs) : (pre ++ c :: suf).flatMap Content.stored =
      (pre.flatMap Content.stored ++ storedFrom c.lid c.start as) ++
        ⟨c.lid, c.start + span as, lidOf c.lid (c.start + span as), b⟩ ::
          (storedFrom c.lid (c.start + span as + recSize b) bs ++ suf.flatMap Content.stored) := by
  rw [flatMap_append, flatMap_cons, Content.stored, hb, storedFrom_append, storedFrom]
  simp

theorem stored_dropTo : (c.dropTo as b bs).stored = storedFrom c.lid (c.start + span as + recSize b) bs := by
  unfold Content.stored Content.dropTo
  split_ifs with hbs
  · rw [hbs]
    rfl
  · rfl

theorem stored_takeTo : (c.takeTo as).stored = storedFrom c.lid c.start as := by
  unfold Content.stored Content.takeTo
  split_ifs with has
  · rw [has]
  · rfl

def popContents (direction : Int) (pre : List Content) (c : Content) (suf : List Content) (as : List (List UInt8))
    (b : List UInt8) (bs : List (List UInt8)) : List Content :=
  if direction ≥ 0 then
    if suf = [] then [c.dropTo as b bs] else if bs = [] then suf else c.dropTo as b bs :: suf
  else pre ++ [c.takeTo as]

theorem recordNum_ne_zero (hb : c.bodies = as ++ b :: bs) : recordNum (pre ++ c :: suf) ≠ 0 := by
  have hlen : 0 < c.bodies.length := by
    rw [hb, length_append, length_cons]
    omega
  rw [recordNum, map_append, map_cons, sum_append, sum_cons]
  omega

theorem popRecord_at (h : CappedInv cl (pre ++ c :: suf)) (hb : c.bodies = as ++ b :: bs) (dir : Int) :
    ∃ cl', cl.popRecord (lidOf c.lid (c.start + span as)) dir = (.ok, cl') ∧
      CappedInv cl' (popContents dir pre c suf as b bs) ∧ cl'.options = cl.options ∧
      (Counted cl (pre ++ c :: suf) → Counted cl' (popContents dir pre c suf as b bs)) := by
  have ht : cl.stat.totalRecords ≠ 0 := by
    rw [h.total]
    exact Int.natCast_ne_zero.2 (recordNum_ne_zero hb)
  unfold Collection.popRecord popContents
  simp only [h.extractRecLID_stored rfl hb, if_neg ht]
  by_cases hd : dir ≥ 0
  · rw [if_pos hd, if_pos hd]
    by_cases hs : suf = []
    · subst hs
      rw [if_pos rfl]
      exact shrinkForward_work h hb
    · rw [if_neg hs]
      exact shrinkForward_active h hs hb
  · rw [if_neg hd, if_neg hd]
    exact shrinkBackward_spec h hb

theorem stored_popContents (h : CappedInv cl (pre ++ c :: suf)) (hb : c.bodies = as ++ b :: bs) (dir : Int) :
    (popContents dir pre c suf as b bs).flatMap Content.stored =
      keptByPop dir (lidOf c.lid (c.start + span as)) ((pre ++ c :: suf).flatMap Content.stored) := by
  have hs := h.stored_sorted
  rw [stored_split hb] at hs
  unfold popContents keptByPop
  rw [stored_split hb]
  by_cases hd : dir ≥ 0
  · rw [if_pos hd, if_pos hd, (filter_of_pairwise hs).1]
    split_ifs with hsuf hbs
    · simp [stored_dropTo, hsuf]
    · rw [hbs]
      rfl
    · rw [flatMap_cons, stored_dropTo]
  · rw [if_neg hd, if_neg hd, (filter_of_pairwise hs).2]
    simp [stored_takeTo]

theorem popRecord_stored (h : CappedInv cl cs) {r : Stored} (hr : r ∈ cs.flatMap Content.stored) (dir : Int) :
    ∃ cl' cs', cl.popRecord r.logicalID dir = (.ok, cl') ∧ CappedInv cl' cs' ∧
      cs'.flatMap Content.stored = keptByPop dir r.logicalID (cs.flatMap Content.stored) ∧
      cl'.options = cl.options := by
  obtain ⟨pre, c, suf, as, b, bs, rfl, hb, rfl⟩ := mem_stored.1 hr
  obtain ⟨cl', hcl', hi, ho, -⟩ := popRecord_at h hb dir
  exact ⟨cl', _, hcl', hi, stored_popContents h hb dir, ho⟩

end Kept

end SequoiaDB.Dms.Capped

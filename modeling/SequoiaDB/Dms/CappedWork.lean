import SequoiaDB.Dms.CappedRecycle

/-!
# The working extent

The working extent is described by `ExtentInfo`; the header of its extent is out of date until
`_syncWorkExtInfo` writes the description back.  `_attachWorkExt` reads the header, and the head of the last
record, to describe another extent.
-/

namespace SequoiaDB.Dms.Capped

open SequoiaDB.Lib List Collection

variable {cl cl' : Collection} {cs pre suf : List Content} {c l : Content}
  {id k recNum : Nat} {ini' ini : List Content} {c' : Content}

/-! ### Writing the description back -/

theorem WorkAt.congr (h : WorkAt cl c) (hw : cl'.work = cl.work) : WorkAt cl' c := by
  constructor
  all_goals rw [hw]
  · exact h.id
  · exact h.extLogicID
  · exact h.firstOffset
  · exact h.lastOffset
  · exact h.writePos
  · exact h.recNo
  · exact h.freeSpace

theorem syncWorkExtInfo_list (h : CappedList cl (pre ++ l :: suf)) (hw : WorkAt cl l) :
    SameRest cl cl.syncWorkExtInfo ∧ CappedList cl.syncWorkExtInfo (pre ++ l :: suf) ∧
      HeaderAt cl.syncWorkExtInfo l ∧ ∀ d ∈ pre ++ suf, HeaderAt cl d → HeaderAt cl.syncWorkExtInfo d := by
  have hat := h.contents l (by simp)
  unfold syncWorkExtInfo
  rw [hw.id]
  obtain ⟨e, he⟩ : ∃ e : Extent, e = { cl.extents l.id with
    recCount := cl.work.recCount
    freeSpace := cl.work.freeSpace
    firstRecordOffset := cl.work.firstRecordOffset
    lastRecordOffset := cl.work.lastRecordOffset } := ⟨_, rfl⟩
  simp only [← he]
  have hs : (cl.setExtent l.id e).extents l.id = e := Function.update_self ..
  have hc : ContentAt { cl.setExtent l.id e with stat := cl.stat } l := by
    refine ⟨?_, ?_, hat.layout, hat.lid_nonneg, hat.lid_lt, hat.start_ge, hat.start_mod, hat.recNo_pos,
      hat.recNo_le, hat.finish_le⟩
    · rw [← hat.inUse]
      exact (congrArg Extent.inUse hs).trans (by rw [he])
    · rw [← hat.logicID]
      exact (congrArg Extent.logicID hs).trans (by rw [he])
  obtain ⟨hl, hf⟩ := h.replace rfl rfl (by rw [he]; rfl) (by rw [he]; rfl) hc h.total
  refine ⟨⟨rfl, rfl, rfl⟩, hl, ?_, fun d hd hh => hh.congr (hf d hd)⟩
  unfold HeaderAt
  rw [hs, he]
  exact ⟨hw.firstOffset, hw.lastOffset⟩

theorem syncWorkExtInfo_spec (h : CappedInv cl cs) :
    SameRest cl cl.syncWorkExtInfo ∧ CappedList cl.syncWorkExtInfo cs ∧
      ∀ c ∈ cs, HeaderAt cl.syncWorkExtInfo c := by
  rcases eq_nil_or_concat' cs with rfl | ⟨ini, l, rfl⟩
  · unfold syncWorkExtInfo
    rw [h.empty rfl]
    exact ⟨⟨rfl, rfl, rfl⟩, h.toCappedList, by simp⟩
  · obtain ⟨hr, hl, hh, ho⟩ := syncWorkExtInfo_list h.toCappedList (h.work l (by simp))
    refine ⟨hr, hl, forall_mem_append.2 ⟨fun d hd => ?_, forall_mem_singleton.2 hh⟩⟩
    exact ho d (by simpa using hd) (h.headers d (by simpa using hd))

/-! ### Counters -/

def CountAt (cl : Collection) (c : Content) : Prop := (cl.extents c.id).recCount = c.bodies.length

def PagesAt (cl : Collection) (k : Nat) : Prop := cl.stat.totalDataPages = k * cl.options.extentPages

/-- The counters that the limits and `_recycleWorkExt` use: pages, and records of each extent. -/
structure Counted (cl : Collection) (cs : List Content) : Prop where
  pages : PagesAt cl cs.length
  headers : ∀ c ∈ cs.dropLast, CountAt cl c
  work : ∀ c, cs.getLast? = some c → cl.work.recCount = c.bodies.length

theorem CountAt.congr (h : CountAt cl c) (hc : (cl'.extents c.id).recCount = (cl.extents c.id).recCount) :
    CountAt cl' c :=
  hc.trans h

theorem PagesAt.freed {m : Nat} (h : PagesAt cl (k + m)) (hf : Freed k cl cl') (ho : cl'.options = cl.options) :
    PagesAt cl' m := by
  unfold PagesAt at h ⊢
  rw [hf.pages, h, ho]
  push_cast
  ring

theorem Counted.sync (h : Counted cl cs) (hi : CappedInv cl cs) :
    PagesAt cl.syncWorkExtInfo cs.length ∧ ∀ c ∈ cs, CountAt cl.syncWorkExtInfo c := by
  unfold syncWorkExtInfo
  rcases eq_nil_or_concat' cs with rfl | ⟨ini, l, rfl⟩
  · rw [hi.empty rfl]
    exact ⟨h.pages, by simp⟩
  · rw [(hi.work l (by simp)).id]
    refine ⟨h.pages, fun c hc => ?_⟩
    unfold CountAt setExtent
    by_cases hid : c.id = l.id
    · rw [hi.id_inj hc (by simp) hid]
      simp only [Function.update_self]
      exact h.work l (by simp)
    · simp only [Function.update_of_ne hid]
      refine h.headers c ?_
      rw [dropLast_concat]
      rcases mem_append.1 hc with hc | hc
      · exact hc
      · rw [mem_singleton.1 hc] at hid
        exact absurd rfl hid

theorem attachWorkExt_counts (h : cl.attachWorkExt id = (.ok, cl')) :
    cl'.work.recCount = (cl.extents id).recCount ∧ cl'.extents = cl.extents ∧ cl'.stat = cl.stat ∧
      cl'.options = cl.options := by
  unfold attachWorkExt at h
  simp only at h
  split_ifs at h <;> cases h <;> exact ⟨rfl, rfl, rfl, rfl⟩

theorem attachSeek_counts {offset : Nat}
    (h : andThen (cl.attachWorkExt id) (fun cl => (.ok, { cl with work := cl.work.seek offset })) = (.ok, cl')) :
    cl'.work.recCount = (cl.extents id).recCount ∧ cl'.extents = cl.extents ∧ cl'.stat = cl.stat ∧
      cl'.options = cl.options := by
  cases ha : cl.attachWorkExt id with
  | mk rc cl1 =>
    rw [ha] at h
    by_cases hrc : rc = .ok
    · subst hrc
      rw [andThen_ok] at h
      obtain ⟨-, rfl⟩ := Prod.mk.inj h
      obtain ⟨hc, he, hs, ho⟩ := attachWorkExt_counts ha
      exact ⟨hc, he, hs, ho⟩
    · rw [andThen_of_ne hrc] at h
      exact absurd (congrArg Prod.fst h) hrc

theorem Popped.recNum_eq {ds : List Content} (h : Popped id recNum cl cl') (hcl : CappedCore cl cs)
    (hcl' : CappedCore cl' ds) (hnum : recordNum ds + k = recordNum cs) : recNum = k := by
  have ht := h.total
  rw [hcl.total, hcl'.total] at ht
  omega

theorem Popped.countAt (h : Popped id k cl cl') (hc : CountAt cl c) (hid : c.id = id)
    (hid' : c'.id = id) (hnum : c'.bodies.length + k = c.bodies.length) (hlt : c.bodies.length < 2 ^ 32) :
    CountAt cl' c' := by
  unfold CountAt at hc ⊢
  rw [hid', h.recCount, ← hid, hc]
  unfold sub32
  omega

theorem Counted.of_rest (h : Counted cl (ini ++ [l])) (hr : SameRest cl cl')
    (hp : PagesAt cl' (ini'.length + 1)) (hcounts : ∀ c ∈ ini', CountAt cl' c) : Counted cl' (ini' ++ [l]) := by
  refine ⟨by simpa using hp, fun c hc => hcounts c (by simpa using hc), fun c hc => ?_⟩
  obtain rfl : l = c := by simpa using hc
  rw [hr.work]
  exact h.work l (by simp)

theorem ContentAt.length_lt (h : ContentAt cl c) : c.bodies.length < 2 ^ 32 := by
  have hspan := length_le_span h.layout.forall_fits
  have hf := h.finish_le
  unfold Content.finish DMS_CAP_EXTENT_SZ at hf
  omega

theorem counted_of_popped {cl1 cl2 cl3 : Collection} (hcl1 : CappedCore cl1 (pre ++ [c]))
    (hp : PagesAt cl1 (pre.length + 1)) (hc : ∀ d ∈ pre ++ [c], CountAt cl1 d)
    (hpopped : Popped c.id recNum cl1 cl2) (ho : cl2.options = cl1.options) (hcl2 : CappedCore cl2 (pre ++ [c']))
    (hid : c'.id = c.id) (hn : c'.bodies.length + k = c.bodies.length)
    (ha : cl3.work.recCount = (cl2.extents c.id).recCount ∧ cl3.extents = cl2.extents ∧ cl3.stat = cl2.stat ∧
      cl3.options = cl2.options) : Counted cl3 (pre ++ [c']) := by
  obtain ⟨hw, he, hs, hopt'⟩ := ha
  obtain rfl : recNum = k := hpopped.recNum_eq hcl1 hcl2 (by
    simp only [recordNum, map_append, map_cons, map_nil, sum_append, sum_cons, sum_nil]
    omega)
  have hcount : CountAt cl2 c' :=
    hpopped.countAt (hc c (by simp)) rfl hid hn (hcl1.contents c (by simp)).length_lt
  refine ⟨?_, fun d hd => ?_, fun d hd => ?_⟩
  · unfold PagesAt at hp ⊢
    rw [hs, hpopped.pages, hp, hopt', ho, length_append, length_singleton]
  · rw [dropLast_concat] at hd
    have hne : d.id ≠ c.id := by
      intro heq
      have hnd := hcl1.nodup
      rw [map_append] at hnd
      exact (nodup_append.1 hnd).2.2 _ (mem_map_of_mem hd) _ (mem_singleton_self _) heq
    refine (hc d (mem_append_left _ hd)).congr ?_
    rw [he, hpopped.others _ hne]
  · obtain rfl : c' = d := by simpa using hd
    rw [hw, ← hid]
    exact hcount

/-! ### Describing another extent -/

theorem CappedList.withWork (h : CappedList cl (pre ++ [l])) (hh : ∀ c ∈ pre, HeaderAt cl c) {w : ExtentInfo}
    (hw : WorkAt { cl with work := w } l) : CappedInv { cl with work := w } (pre ++ [l]) := by
  refine ⟨⟨⟨h.toCappedLinks.congr rfl rfl, h.total⟩, h.first,
    h.last, h.lids⟩, fun c hc => ?_, fun c hc => ?_, by simp⟩
  · rw [dropLast_concat] at hc
    exact (hh c hc).congr ⟨rfl, rfl, rfl, rfl⟩
  · obtain rfl : l = c := by simpa using hc
    exact hw

theorem attachWorkExt_seek (h : CappedList cl (pre ++ [l]))
    (hheaders : ∀ c ∈ pre ++ [l], HeaderAt cl c) (hno : l.bodies = [] → l.recNo = 1) :
    ∃ cl', andThen (cl.attachWorkExt l.id) (fun cl => (.ok, { cl with work := cl.work.seek l.finish })) = (.ok, cl') ∧
      CappedInv cl' (pre ++ [l]) ∧ cl'.options = cl.options := by
  have hat := h.contents l (by simp)
  have hh := hheaders l (by simp)
  have hp : l.finish - DMS_EXTENT_METADATA_SZ + DMS_EXTENT_METADATA_SZ = l.finish := by
    have := hat.start_ge
    unfold Content.finish
    omega
  have hpre : ∀ c ∈ pre, HeaderAt cl c := fun c hc => hheaders c (mem_append_left _ hc)
  unfold attachWorkExt
  rcases eq_nil_or_concat' l.bodies with hb | ⟨as, b, hb⟩
  · simp only [hh.2, Content.lastOffset_nil hb, if_true, andThen_ok]
    refine ⟨_, rfl, h.withWork hpre ⟨rfl, hat.logicID, hh.1, ?_, hp, ?_, rfl⟩, rfl⟩
    · exact (Content.lastOffset_nil hb).symm
    · show 0 + 1 = l.recNo + l.bodies.length
      rw [hb, hno hb]
      rfl
  · have hr := hat.readHead hb
    simp only [hh.2, Content.lastOffset_eq hb, Int.toNat_natCast, hr, isNormal_recSize, if_true]
    rw [if_neg (by unfold DMS_INVALID_OFFSET; omega), andThen_ok]
    refine ⟨_, rfl, h.withWork hpre ⟨rfl, hat.logicID, hh.1, ?_, hp, ?_, rfl⟩, rfl⟩
    · exact (Content.lastOffset_eq hb).symm
    · show l.recNo + as.length + 1 = l.recNo + l.bodies.length
      rw [hb]
      simp [Nat.add_assoc]

theorem CappedInv.of_rest (h : CappedInv cl (ini ++ [l]))
    (hr : SameRest cl cl') (hl : CappedList cl' (ini' ++ [l])) (hh : ∀ c ∈ ini', HeaderAt cl' c) :
    CappedInv cl' (ini' ++ [l]) := by
  refine ⟨hl, fun c hc => hh c (by simpa using hc), fun c hc => ?_, by simp⟩
  obtain rfl : l = c := by simpa using hc
  exact (h.work l (by simp)).congr hr.work

end SequoiaDB.Dms.Capped

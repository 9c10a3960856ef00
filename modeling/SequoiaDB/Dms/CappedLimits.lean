import SequoiaDB.Dms.CappedInsert

/-!
# The limits of a capped collection

`_limitProcess` compares the number of records and the number of pages with the limits of the collection.  When a
limit is hit it recycles the eldest extent, if overwriting is allowed, and refuses the record otherwise.  An eldest
extent that is not the working extent is taken out of the list; the working extent is emptied and gets the next
logical id.  What this does to the contents is a function of the contents alone.
-/

namespace SequoiaDB.Dms.Capped

open SequoiaDB.Lib List Option Collection Options Extent

variable {cl cl' : Collection} {cs ds pre suf : List Content} {c l x : Content}

/-- The state of a collection between operations, with its counters. -/
structure Holding (cl : Collection) (cs : List Content) : Prop extends CappedInv cl cs where
  counted : Counted cl cs

/-! ### Recycling the eldest extent -/

def recycleOne : List Content → List Content
  | [] => []
  | [c] => [.fresh c.id (c.lid + 1)]
  | _ :: c :: cs => c :: cs

theorem recycleOne_cons (h : suf ≠ []) : recycleOne (x :: suf) = suf := by
  obtain ⟨c, cs, rfl⟩ := exists_cons_of_ne_nil h
  rfl

theorem ids_recycleOne (cs : List Content) : (recycleOne cs).map Content.id ⊆ cs.map Content.id := by
  unfold recycleOne
  split
  · exact List.Subset.refl _
  · exact List.Subset.refl _
  · exact subset_cons_self _ _

variable {id : Nat}

theorem freeExtent_first (h : cl.freeExtent id = (.ok, cl')) (hf : cl.firstExtentID = some id)
    (hp : cl.prev id = none) : cl'.firstExtentID = cl.next id := by
  rw [freeExtent_ok h, removeExtentFromMeta_eq]
  exact if_pos ⟨hp, hf⟩

theorem recycleActiveExt_first (h : cl.recycleActiveExt id = (.ok, cl')) (hf : cl.firstExtentID = some id)
    (hp : cl.prev id = none) : cl'.firstExtentID = cl.next id := by
  unfold recycleActiveExt at h
  simp only at h
  split at h
  next rc hcount =>
    obtain ⟨rfl, -⟩ := Prod.mk.inj h
    exact absurd hcount (countRecNumAndSize_ne_ok _ _ _ _)
  next =>
    have hn := freeExtent_first h hf hp
    exact hn

theorem recycleActiveExt_holding (h : Holding cl (x :: suf)) (hs : suf ≠ []) :
    ∃ cl', cl.recycleActiveExt x.id = (.ok, cl') ∧ Holding cl' suf ∧ cl'.options = cl.options := by
  obtain ⟨mid, l, rfl⟩ := (eq_nil_or_concat' suf).resolve_left hs
  have hm : (x :: (mid ++ [l])).dropLast = x :: mid := by
    rw [← cons_append, dropLast_concat]
  have hh := h.headers
  have hc := h.counted.headers
  rw [hm] at hh hc
  obtain ⟨cl', hcl', hr, -, hlast, -, hcore, hhead⟩ :=
    recycleActiveExt_spec (show CappedCore cl ([] ++ x :: (mid ++ [l])) from h.toCappedCore) (hh x (by simp))
  have hf := recycleActiveExt_freed hcl'
  have hfirst := (recycleActiveExt_first hcl' h.first (h.prev (show _ = [] ++ x :: (mid ++ [l]) from rfl))).trans
    (h.next (show _ = [] ++ x :: (mid ++ [l]) from rfl))
  have hl : cl.lastExtentID = ((mid ++ [l]).map Content.id).getLast? := by
    rw [h.last, show x :: (mid ++ [l]) = (x :: mid) ++ [l] from rfl, map_append, map_append,
      getLast?_append_of_ne_nil _ (by simp), getLast?_append_of_ne_nil _ (by simp)]
  have hx : cl.lastExtentID ≠ some x.id := by
    intro heq
    have hnd := h.nodup
    rw [map_cons] at hnd
    exact (nodup_cons.1 hnd).1 (List.mem_of_getLast? (hl ▸ heq))
  have hlist : CappedList cl' (mid ++ [l]) :=
    ⟨hcore, hfirst, (hlast hx).trans hl, h.suffix_lids (show _ = [x] ++ (mid ++ [l]) from rfl)⟩
  have hi : CappedInv cl ((x :: mid) ++ [l]) := h.toCappedInv
  have hcounted : Counted cl ((x :: mid) ++ [l]) := h.counted
  refine ⟨cl', hcl', ⟨hi.of_rest hr hlist fun d hd => ?_, hcounted.of_rest hr ?_ fun d hd => ?_⟩, hr.options⟩
  · exact hhead d (by simp [hd]) (hh d (mem_cons_of_mem _ hd))
  · refine PagesAt.freed ?_ hf hr.options
    have hp := h.counted.pages
    rw [length_cons, length_append, length_singleton] at hp
    rwa [Nat.add_comm 1]
  · exact (hc d (mem_cons_of_mem _ hd)).congr (hf.recCount _)

theorem attachWorkExt_emptied (h : Holding cl [c]) (hl : c.lid + 1 < 2 ^ 31) {st : Stat}
    (ht : st.totalRecords = 0) (hp : st.totalDataPages = cl.stat.totalDataPages) :
    ∃ cl', attachWorkExt { cl.setExtent c.id { init with logicID := c.lid + 1 } with stat := st } c.id = (.ok, cl') ∧
      Holding cl' [.fresh c.id (c.lid + 1)] ∧ cl'.options = cl.options := by
  have hnonneg := (h.contents c (by simp)).lid_nonneg
  obtain ⟨cl1, hcl1⟩ : ∃ cl1 : Collection,
    cl1 = { cl.setExtent c.id { init with logicID := c.lid + 1 } with stat := st } := ⟨_, rfl⟩
  have hs : cl1.extents c.id = { init with logicID := c.lid + 1 } := by
    rw [hcl1]
    exact Function.update_self ..
  rw [← hcl1]
  have hlist : CappedList cl1 ([] ++ [.fresh c.id (c.lid + 1)]) := by
    refine ⟨⟨⟨?_, nodup_singleton _, fun d hd => ?_⟩, ?_⟩, ?_, ?_, isChain_singleton _⟩
    · exact ⟨congrArg prevExtent hs, congrArg nextExtent hs, trivial⟩
    · obtain rfl : d = .fresh c.id (c.lid + 1) := by simpa using hd
      exact contentAt_fresh (congrArg inUse hs) (congrArg logicID hs) (by omega) hl
    · rw [hcl1]
      exact ht
    · rw [hcl1]
      exact h.first
    · rw [hcl1]
      exact h.last
  obtain ⟨cl2, hcl2, hi, ho⟩ := attachWorkExt_fresh hlist (by simp)
    ⟨congrArg firstRecordOffset hs, congrArg lastRecordOffset hs⟩ (congrArg freeSpace hs)
  obtain ⟨hw, -, hstat, -⟩ := attachWorkExt_counts hcl2
  have ho1 : cl1.options = cl.options := by rw [hcl1]; rfl
  refine ⟨cl2, hcl2, ⟨hi, ⟨?_, by simp, fun d hd => ?_⟩⟩, ho.trans ho1⟩
  · have hold := h.counted.pages
    unfold PagesAt at hold ⊢
    rw [hstat, ho, ho1, hcl1]
    exact hp.trans hold
  · obtain rfl : Content.fresh c.id (c.lid + 1) = d := by simpa using hd
    rw [hw, hs]
    rfl

theorem recycleWorkExt_holding (h : Holding cl [c]) (hl : c.lid + 1 < 2 ^ 31) :
    ∃ cl', cl.recycleWorkExt c.id = (.ok, cl') ∧ Holding cl' [.fresh c.id (c.lid + 1)] ∧
      cl'.options = cl.options := by
  have hw := h.work c (by simp)
  have hat := h.contents c (by simp)
  have hnonneg := hat.lid_nonneg
  have hc := countRecNumAndSize_all hat
  rw [← hw.firstOffset, ← hw.lastOffset] at hc
  unfold recycleWorkExt
  simp only [hc, hat.logicID, int32_of_range (by omega : 0 ≤ c.lid + 1) hl]
  refine attachWorkExt_emptied h hl ?_ rfl
  have ht := h.total
  have hrec := h.counted.work c (by simp)
  simp only [recordNum, map_cons, map_nil, sum_cons, sum_nil] at ht
  show cl.stat.totalRecords - (cl.work.recCount : Int) = 0
  omega

theorem recycleOneExtent_holding (h : Holding cl cs) (hne : cs ≠ []) (hl : nextLid cs < 2 ^ 31) :
    ∃ cl', cl.recycleOneExtent = (.ok, cl') ∧ Holding cl' (recycleOne cs) ∧ cl'.options = cl.options := by
  obtain ⟨x, suf, rfl⟩ := exists_cons_of_ne_nil hne
  have hf : cl.firstExtentID = some x.id := h.first
  have hw := h.work_id_iff (show _ = [] ++ x :: suf from rfl)
  unfold recycleOneExtent
  simp only [hf]
  by_cases hs : suf = []
  · rw [if_pos (hw.2 hs)]
    subst hs
    exact recycleWorkExt_holding h (by simpa [nextLid] using hl)
  · rw [if_neg fun heq => hs (hw.1 heq), recycleOne_cons hs]
    exact recycleActiveExt_holding h hs

/-! ### The limits -/

def Options.numExceeded (o : Options) (cs : List Content) : Bool :=
  0 < o.maxRecNum ∧ (recordNum cs : Int) + 1 > o.maxRecNum

def Options.sizeExceeded (o : Options) (cs : List Content) : Bool :=
  cs.length * o.extentPages * 2 ^ o.pageSizeSquareRoot + DMS_CAP_EXTENT_SZ > o.maxSize

def room (cs : List Content) : Nat := (cs.getLast?.map fun c => DMS_CAP_EXTENT_SZ - c.finish).getD 0

theorem nextLid_append : nextLid (pre ++ [l]) = l.lid + 1 := by simp [nextLid]

theorem room_append : room (pre ++ [l]) = DMS_CAP_EXTENT_SZ - l.finish := by simp [room]

theorem room_fresh (pre : List Content) (id : Nat) (lid : Int) : room (pre ++ [.fresh id lid]) = DMS_CAP_EXTENT_BODY_SZ := by
  rw [room_append]
  rfl

theorem numExceedLimit_eq (h : CappedCore cl cs) : cl.numExceedLimit = cl.options.numExceeded cs := by
  unfold numExceedLimit numExceeded
  rw [h.total]

theorem sizeExceedLimit_eq (h : Counted cl cs) : cl.sizeExceedLimit = cl.options.sizeExceeded cs := by
  have hp := h.pages
  unfold PagesAt at hp
  unfold sizeExceedLimit sizeExceeded
  rw [hp]

theorem CappedInv.room_eq (h : CappedInv cl cs) (hne : cs ≠ []) : cl.work.freeSpace = room cs := by
  obtain ⟨ini, l, rfl⟩ := (eq_nil_or_concat' cs).resolve_left hne
  rw [room_append]
  exact (h.work l (by simp)).freeSpace

/-- What one of the two checks of `_limitProcess` does to the contents; nothing is left when it refuses. -/
def Options.checked (o : Options) (exceeded : Bool) (cs : List Content) : Option (List Content) :=
  if exceeded then if o.overwrite then some (recycleOne cs) else none else some cs

def Options.limited (o : Options) (size : Nat) (cs : List Content) : Option (List Content) :=
  (o.checked (o.numExceeded cs) cs).bind fun cs =>
    if room cs < size then o.checked (o.sizeExceeded cs) cs else some cs

/-- The room that a record needs: the limits, and a new extent if the last one is too small. -/
def Options.roomed (o : Options) (size : Nat) (found : Option Nat) (cs : List Content) : Option (List Content) :=
  (o.limited size cs).bind fun cs =>
    if room cs < size then found.map fun id => cs ++ [.fresh id (nextLid cs)] else some cs

theorem outcome_some {P : List Content → Prop} {Q : Prop} (h : P cs) :
    (∀ ds, some cs = some ds → P ds) ∧ (some cs = none → Q) :=
  ⟨fun _ hds => some.inj hds ▸ h, nofun⟩

theorem limitCheck_holding (h : Holding cl cs) (hne : cs ≠ []) (hl : nextLid cs < 2 ^ 31) (exc : Bool) :
    (∀ ds, cl.options.checked exc cs = some ds →
      ∃ cl', cl.limitCheck exc = (.ok, cl') ∧ Holding cl' ds ∧ cl'.options = cl.options) ∧
    (cl.options.checked exc cs = none → cl.limitCheck exc = (.ossUpToLimit, cl)) := by
  unfold checked limitCheck
  split_ifs with hex hover
  · refine ⟨fun ds hds => ?_, nofun⟩
    rw [← some.inj hds]
    exact recycleOneExtent_holding h hne hl
  · exact ⟨nofun, fun _ => rfl⟩
  · refine ⟨fun ds hds => ?_, nofun⟩
    rw [← some.inj hds]
    exact ⟨cl, rfl, h, rfl⟩

variable {o : Options} {exc : Bool}

theorem checked_cases (h : o.checked exc (pre ++ [l]) = some ds) :
    (∃ pre', ds = pre' ++ [l]) ∨ (ds = [.fresh l.id (l.lid + 1)]) := by
  unfold checked at h
  split_ifs at h
  · obtain rfl := some.inj h
    cases pre with
    | nil => exact .inr rfl
    | cons x pre =>
      rw [cons_append, recycleOne_cons (by simp)]
      exact .inl ⟨pre, rfl⟩
  · obtain rfl := some.inj h
    exact .inl ⟨pre, rfl⟩

theorem ids_checked (h : o.checked exc cs = some ds) : ds.map Content.id ⊆ cs.map Content.id := by
  unfold checked at h
  split_ifs at h
  · rw [← some.inj h]
    exact ids_recycleOne cs
  · rw [← some.inj h]
    exact List.Subset.refl _

variable {size : Nat}

theorem ids_limited (h : o.limited size cs = some ds) : ds.map Content.id ⊆ cs.map Content.id := by
  unfold limited at h
  obtain ⟨cs1, hn, h⟩ := bind_eq_some_iff.1 h
  split_ifs at h
  · exact List.Subset.trans (ids_checked h) (ids_checked hn)
  · rw [← some.inj h]
    exact ids_checked hn

theorem limitProcess_holding (h : Holding cl cs) (hne : cs ≠ []) (hl : nextLid cs < 2 ^ 31)
    (hsize : size ≤ DMS_CAP_EXTENT_BODY_SZ) :
    (∀ ds, cl.options.limited size cs = some ds →
      ∃ cl', cl.limitProcess size = (.ok, cl') ∧ Holding cl' ds ∧ cl'.options = cl.options) ∧
    (cl.options.limited size cs = none → cl.limitProcess size = (.ossUpToLimit, cl)) := by
  obtain ⟨hd, hrefused⟩ := limitCheck_holding h hne hl (cl.options.numExceeded cs)
  obtain ⟨pre, l, rfl⟩ := (eq_nil_or_concat' cs).resolve_left hne
  unfold limited limitProcess
  rw [numExceedLimit_eq h.toCappedCore]
  cases hnum : cl.options.checked (cl.options.numExceeded (pre ++ [l])) (pre ++ [l]) with
  | none =>
    rw [hrefused hnum]
    exact ⟨nofun, fun _ => rfl⟩
  | some cs1 =>
    obtain ⟨cl1, hcl1, hh1, ho1⟩ := hd cs1 hnum
    rw [hcl1, andThen_ok, bind_some]
    rcases checked_cases hnum with ⟨pre', rfl⟩ | rfl
    · rw [hh1.room_eq (by simp), sizeExceedLimit_eq hh1.counted, ho1]
      by_cases hr : room (pre' ++ [l]) < size
      · rw [if_pos hr, if_pos hr]
        obtain ⟨hd1, hr1⟩ := limitCheck_holding hh1 (by simp) (by simpa [nextLid] using hl)
          (cl.options.sizeExceeded (pre' ++ [l]))
        rw [ho1] at hd1 hr1
        refine ⟨hd1, fun hn => ?_⟩
        -- a refusal leaves the collection as it was, since the first check did not recycle either
        have hs : cl1 = cl := by
          unfold checked at hn
          split_ifs at hn with hex hover
          unfold limitCheck at hcl1
          split_ifs at hcl1
          · cases hcl1
          · exact (Prod.mk.inj hcl1).2.symm
        rw [hr1 hn, hs]
      · rw [if_neg hr, if_neg hr]
        exact outcome_some ⟨cl1, rfl, hh1, ho1⟩
    · have hr : ¬ room [.fresh l.id (l.lid + 1)] < size := by
        have := room_fresh [] l.id (l.lid + 1)
        rw [nil_append] at this
        omega
      rw [hh1.room_eq (by simp), if_neg hr, if_neg hr]
      exact outcome_some ⟨cl1, rfl, hh1, ho1⟩

theorem limited_cases (hsize : size ≤ DMS_CAP_EXTENT_BODY_SZ) (h : o.limited size (pre ++ [l]) = some ds) :
    (∃ pre', ds = pre' ++ [l]) ∨ (ds = [.fresh l.id (l.lid + 1)]) := by
  unfold limited at h
  obtain ⟨cs1, hn, h⟩ := bind_eq_some_iff.1 h
  split_ifs at h with hroom
  · rcases checked_cases hn with ⟨pre', rfl⟩ | rfl
    · exact checked_cases h
    · have hb := room_fresh [] l.id (l.lid + 1)
      rw [nil_append] at hb
      omega
  · obtain rfl := some.inj h
    exact checked_cases hn

variable {found : Option Nat}

theorem roomed_cases (hs : size ≤ DMS_CAP_EXTENT_BODY_SZ) (h : o.roomed size found (pre ++ [l]) = some ds) :
    (∃ pre', ds = pre' ++ [l] ∧ size ≤ room (pre ++ [l])) ∨ ∃ pre' id, ds = pre' ++ [.fresh id (l.lid + 1)] := by
  unfold roomed at h
  obtain ⟨cs1, hl, h⟩ := bind_eq_some_iff.1 h
  rcases limited_cases hs hl with ⟨pre', rfl⟩ | rfl
  · split_ifs at h with hr
    · obtain ⟨id, -, rfl⟩ := map_eq_some_iff.1 h
      exact .inr ⟨pre' ++ [l], id, by rw [nextLid_append]⟩
    · obtain rfl := some.inj h
      rw [room_append] at hr
      exact .inl ⟨pre', rfl, by rw [room_append]; omega⟩
  · have hb := room_fresh [] l.id (l.lid + 1)
    rw [nil_append] at hb
    rw [if_neg (by omega)] at h
    exact .inr ⟨[], l.id, (some.inj h).symm⟩

theorem le_room_of_roomed (hs : size ≤ DMS_CAP_EXTENT_BODY_SZ) (h : o.roomed size found cs = some ds) :
    size ≤ room ds := by
  unfold roomed at h
  obtain ⟨cs1, -, h⟩ := bind_eq_some_iff.1 h
  split_ifs at h with hroom
  · obtain ⟨id, -, rfl⟩ := map_eq_some_iff.1 h
    rw [room_fresh]
    exact hs
  · obtain rfl := some.inj h
    omega

/-- The eldest extent is recycled and is not the working extent, but the record goes into the working extent as it
is, or nowhere. -/
def Options.RecyclesAlone (o : Options) (size : Nat) (found : Option Nat) (cs : List Content) : Prop :=
  o.overwrite = true ∧ 2 ≤ cs.length ∧ ((size ≤ room cs ∧ o.numExceeded cs = true) ∨
      (room cs < size ∧ found = none ∧ (o.numExceeded cs = true ∨ o.sizeExceeded cs = true)))

section Alone

variable {o : Options} {size : Nat} {found : Option Nat} {exc : Bool}

theorem checked_eq_self (h : o.checked exc cs = some ds) (hno : o.overwrite → exc = false) : ds = cs := by
  unfold checked at h
  split_ifs at h with hex ho
  · exact absurd hex (by simp [hno ho])
  · exact (some.inj h).symm

theorem two_le_length (h : pre ≠ []) : 2 ≤ (pre ++ [l]).length := by
  have := length_pos_of_ne_nil h
  rw [length_append, length_singleton]
  omega

theorem le_room_of_checked (hs : size ≤ DMS_CAP_EXTENT_BODY_SZ) (h : o.checked exc [l] = some ds) :
    ds = [l] ∨ (ds = [.fresh l.id (l.lid + 1)] ∧ size ≤ room ds) := by
  unfold checked at h
  split_ifs at h
  · obtain rfl := some.inj h
    exact .inr ⟨rfl, hs.trans_eq (room_fresh [] l.id (l.lid + 1)).symm⟩
  · exact .inl (some.inj h).symm

theorem roomed_kept (hs : size ≤ DMS_CAP_EXTENT_BODY_SZ) {found' : Option Nat}
    (ha : ¬ o.RecyclesAlone size found' (pre ++ [l])) {pre' : List Content}
    (h : o.roomed size found (pre ++ [l]) = some (pre' ++ [l])) (hroom : size ≤ room (pre ++ [l])) : pre' = pre := by
  unfold roomed limited at h
  obtain ⟨cs1, hlimited, h⟩ := bind_eq_some_iff.1 h
  obtain ⟨cs2, hn, hlimited⟩ := bind_eq_some_iff.1 hlimited
  have hcs2 : cs2 = pre ++ [l] ∨ (cs2 = [.fresh l.id (l.lid + 1)] ∧ size ≤ room cs2) := by
    by_cases hp : pre = []
    · subst hp
      exact le_room_of_checked hs hn
    · have hlen : 2 ≤ (pre ++ [l]).length := two_le_length hp
      refine .inl (checked_eq_self hn fun ho => ?_)
      by_contra hex
      exact ha ⟨ho, hlen, .inl ⟨hroom, by simpa using hex⟩⟩
  have hroom2 : size ≤ room cs2 := by
    rcases hcs2 with rfl | ⟨-, hr⟩
    · exact hroom
    · exact hr
  rw [if_neg (by omega)] at hlimited
  obtain rfl := some.inj hlimited
  rw [if_neg (by omega)] at h
  have hds := some.inj h
  rcases hcs2 with heq | ⟨heq, -⟩
  · rw [heq] at hds
    exact (append_cancel_right hds).symm
  · rw [heq, ← nil_append [Content.fresh _ _]] at hds
    have hl := singleton_inj.1 (append_inj_right' hds rfl)
    have := congrArg Content.lid hl
    simp [Content.fresh] at this

theorem limited_of_roomed_none (hsize : size ≤ DMS_CAP_EXTENT_BODY_SZ)
    (ha : ¬ o.RecyclesAlone size found (pre ++ [l])) (h : o.roomed size found (pre ++ [l]) = none)
    (hl : o.limited size (pre ++ [l]) = some ds) : ds = pre ++ [l] := by
  unfold roomed at h
  rw [hl, bind_some] at h
  have hroom : room ds < size := by
    by_contra hroom
    rw [if_neg hroom] at h
    cases h
  rw [if_pos hroom, map_eq_none_iff] at h
  unfold limited at hl
  obtain ⟨cs1, hn, hs⟩ := bind_eq_some_iff.1 hl
  by_cases hp : pre = []
  · subst hp
    rcases le_room_of_checked hsize hn with rfl | ⟨-, hr⟩
    · split_ifs at hs
      · exact (le_room_of_checked hsize hs).resolve_right fun hds => absurd hds.2 (by omega)
      · exact (some.inj hs).symm
    · rw [if_neg (by omega)] at hs
      obtain rfl := some.inj hs
      omega
  · have hlen : 2 ≤ (pre ++ [l]).length := two_le_length hp
    obtain rfl : cs1 = pre ++ [l] := checked_eq_self hn fun ho => by
      by_contra hex
      rw [Bool.not_eq_false] at hex
      by_cases hr : size ≤ room (pre ++ [l])
      · exact ha ⟨ho, hlen, .inl ⟨hr, hex⟩⟩
      · exact ha ⟨ho, hlen, .inr ⟨by omega, h, .inl hex⟩⟩
    split_ifs at hs with hr
    · refine checked_eq_self hs fun ho => ?_
      by_contra hex
      rw [Bool.not_eq_false] at hex
      exact ha ⟨ho, hlen, .inr ⟨hr, h, .inr hex⟩⟩
    · exact (some.inj hs).symm

end Alone

/-! ### Making room -/

def Collection.makeRoom (cl : Collection) (size : Nat) (found : Option Nat) : Rc × Collection :=
  andThen (cl.limitProcess size) fun cl =>
    if cl.work.freeSpace < size then cl.appendExtent size found else (.ok, cl)

theorem makeRoom_holding (h : Holding cl cs) (hne : cs ≠ []) (hlid : nextLid cs < 2 ^ 31)
    (hs : size ≤ DMS_CAP_EXTENT_BODY_SZ) (hf : ∀ id ∈ found, id ∉ cs.map Content.id) :
    (∀ ds, cl.options.roomed size found cs = some ds →
      ∃ cl', cl.makeRoom size found = (.ok, cl') ∧ Holding cl' ds ∧ cl'.options = cl.options) ∧
    (cl.options.roomed size found cs = none → ∃ rc cl', rc ≠ .ok ∧ cl.makeRoom size found = (rc, cl') ∧
        Holding cl' ((cl.options.limited size cs).getD cs) ∧ cl'.options = cl.options) := by
  obtain ⟨hd, hrefused⟩ := limitProcess_holding h hne hlid hs
  unfold makeRoom roomed
  cases hlimited : cl.options.limited size cs with
  | none =>
    rw [hrefused hlimited]
    exact ⟨nofun, fun _ => ⟨.ossUpToLimit, cl, nofun, rfl, h, rfl⟩⟩
  | some ds =>
    obtain ⟨cl1, hcl1, hh, ho⟩ := hd ds hlimited
    obtain ⟨pre, l, rfl⟩ := (eq_nil_or_concat' cs).resolve_left hne
    have hds : ds ≠ [] := by
      rcases limited_cases hs hlimited with ⟨pre', rfl⟩ | rfl <;> simp
    rw [hcl1, andThen_ok, bind_some, hh.room_eq hds]
    by_cases hr : room ds < size
    · rw [if_pos hr, if_pos hr]
      -- the last extent is still the same one, so that the next logical id is the one checked
      obtain ⟨pre', rfl⟩ : ∃ pre', ds = pre' ++ [l] := by
        rcases limited_cases hs hlimited with hl | rfl
        · exact hl
        · exact absurd hr (by rw [← nil_append [Content.fresh _ _], room_fresh]; omega)
      cases found with
      | none => exact ⟨nofun, fun _ => ⟨.dmsNoSpc, cl1, nofun, rfl, hh, ho⟩⟩
      | some id =>
        obtain ⟨cl2, hcl2, hi, ho2, hc⟩ := appendExtent_spec hh.toCappedInv
          (fun hid => hf id rfl (ids_limited hlimited hid))
          (by rwa [nextLid_append] at hlid ⊢) (.inr (hh.room_eq (by simp) ▸ hr))
        exact outcome_some ⟨cl2, hcl2, ⟨hi, hc hh.counted⟩, ho2.trans ho⟩
    · rw [if_neg hr, if_neg hr]
      exact outcome_some ⟨cl1, rfl, hh, ho⟩

end SequoiaDB.Dms.Capped

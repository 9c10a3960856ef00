import SequoiaDB.Dms.CappedLayout

/-!
# The invariant of a capped collection

`Content` describes what one extent holds.  `CappedCore` ties a list of contents to the list of extents, their
headers and their bytes; `CappedList` adds the ends of the list and the consecutive logical ids, `CappedInv`
the working extent, whose header may be out of date.  Under the invariant, reading the collection gives the contents, and
the lookup of the logical id of a stored record finds its place.
-/

namespace SequoiaDB.Dms.Capped

open SequoiaDB.Lib List Collection

/-- What an extent holds: records with elements `bodies` from offset `start` on, numbered from `recNo` on. -/
structure Content where
  id : Nat
  lid : Int
  start : Nat
  recNo : Nat
  bodies : List (List UInt8)

namespace Content

variable (c : Content)

def finish : Nat := c.start + span c.bodies

def firstOffset : Int := if c.bodies = [] then DMS_INVALID_OFFSET else c.start

def lastOffset : Int := if c.bodies = [] then DMS_INVALID_OFFSET else (c.start + span c.bodies.dropLast : Nat)

def storedFrom (L : Int) : Nat → List (List UInt8) → List Stored
  | _, [] => []
  | o, b :: bs => ⟨L, o, lidOf L o, b⟩ :: storedFrom L (o + recSize b) bs

def stored : List Stored := storedFrom c.lid c.start c.bodies

end Content

open Content

/-- The content is in the bytes of its extent. -/
structure ContentAt (cl : Collection) (c : Content) : Prop where
  inUse : (cl.extents c.id).inUse = true
  logicID : (cl.extents c.id).logicID = c.lid
  layout : Layout (cl.mem c.id) c.lid c.start c.recNo c.bodies
  lid_nonneg : 0 ≤ c.lid
  lid_lt : c.lid < 2 ^ 31
  start_ge : DMS_EXTENT_METADATA_SZ ≤ c.start
  start_mod : c.start % 4 = 0
  recNo_pos : 0 < c.recNo
  recNo_le : 32 * c.recNo ≤ c.start
  finish_le : c.finish ≤ DMS_CAP_EXTENT_SZ

def HeaderAt (cl : Collection) (c : Content) : Prop :=
  (cl.extents c.id).firstRecordOffset = c.firstOffset ∧ (cl.extents c.id).lastRecordOffset = c.lastOffset

/-- The working extent is described by `c`. -/
structure WorkAt (cl : Collection) (c : Content) : Prop where
  id : cl.work.id = some c.id
  extLogicID : cl.work.extLogicID = c.lid
  firstOffset : cl.work.firstRecordOffset = c.firstOffset
  lastOffset : cl.work.lastRecordOffset = c.lastOffset
  writePos : cl.work.writePos + DMS_EXTENT_METADATA_SZ = c.finish
  recNo : cl.work.recNo + 1 = c.recNo + c.bodies.length
  freeSpace : cl.work.freeSpace = DMS_CAP_EXTENT_SZ - c.finish

def Collection.next (cl : Collection) (i : Nat) : Option Nat := (cl.extents i).nextExtent

def Collection.prev (cl : Collection) (i : Nat) : Option Nat := (cl.extents i).prevExtent

/-- The extents of the contents `cs` are linked, and their bytes agree with them. -/
structure CappedLinks (cl : Collection) (cs : List Content) : Prop where
  chain : ChainTo cl.next cl.prev none (cs.map Content.id) none
  nodup : (cs.map Content.id).Nodup
  contents : ∀ c ∈ cs, ContentAt cl c

def recordNum (cs : List Content) : Nat := (cs.map fun c => c.bodies.length).sum

/-- The contents `cs` are linked, and their bytes and the counter agree with them. -/
structure CappedCore (cl : Collection) (cs : List Content) : Prop extends CappedLinks cl cs where
  total : cl.stat.totalRecords = recordNum cs

/-- The list of extents of a collection, with consecutive logical ids. -/
structure CappedList (cl : Collection) (cs : List Content) : Prop extends CappedCore cl cs where
  first : cl.firstExtentID = (cs.map Content.id).head?
  last : cl.lastExtentID = (cs.map Content.id).getLast?
  lids : cs.IsChain fun c c' => c'.lid = c.lid + 1

/-- The state of a collection between operations. -/
structure CappedInv (cl : Collection) (cs : List Content) : Prop extends CappedList cl cs where
  headers : ∀ c ∈ cs.dropLast, HeaderAt cl c
  work : ∀ c, cs.getLast? = some c → WorkAt cl c
  empty : cs = [] → cl.work.id = none

/-! ### Places of records -/

section Places

variable {cl : Collection} {c : Content} {as bs : List (List UInt8)} {b : List UInt8}

theorem ContentAt.split (h : ContentAt cl c) (hb : c.bodies = as ++ b :: bs) :
    Fits b ∧ RecAt (cl.mem c.id) c.lid (c.start + span as) (c.recNo + as.length) b ∧
      c.start + span as + recSize b + span bs = c.finish := by
  have hl := h.layout
  rw [hb, layout_append] at hl
  refine ⟨hl.2.1, hl.2.2.1, ?_⟩
  rw [finish, hb, span_append, span_cons]
  omega

theorem ContentAt.inRange (h : ContentAt cl c) (hb : c.bodies = as ++ b :: bs) :
    InRange c.lid (c.start + span as) (c.recNo + as.length) := by
  have hf : ∀ x ∈ as, Fits x := fun x hx => h.layout.forall_fits x (by rw [hb]; simp [hx])
  obtain ⟨hfit, -, hend⟩ := h.split hb
  have hsize := recSize_bounds hfit
  have hlen := length_le_span hf
  have hstart := h.start_ge
  have hno := h.recNo_le
  have hfin := h.finish_le
  refine ⟨h.lid_nonneg, h.lid_lt, by omega, by omega, ?_⟩
  unfold DMS_CAP_EXTENT_SZ at hfin
  omega

theorem ContentAt.readHead (h : ContentAt cl c) (hb : c.bodies = as ++ b :: bs) :
    cl.readHead c.id (c.start + span as) =
      ⟨(recSize b - 1) * 256, c.recNo + as.length, lidOf c.lid (c.start + span as)⟩ :=
  RecAt.readHead (h.split hb).1 (h.split hb).2.1 (h.inRange hb)

theorem Content.firstOffset_eq (h : c.bodies ≠ []) : c.firstOffset = c.start := if_neg h

theorem Content.lastOffset_eq (hb : c.bodies = as ++ [b]) : c.lastOffset = (c.start + span as : Nat) := by
  rw [lastOffset, if_neg (by simp [hb]), hb, dropLast_concat]

theorem Content.firstOffset_nil (h : c.bodies = []) : c.firstOffset = DMS_INVALID_OFFSET := if_pos h

theorem Content.lastOffset_nil (h : c.bodies = []) : c.lastOffset = DMS_INVALID_OFFSET := if_pos h

theorem Content.offset_range (hb : c.bodies = as ++ b :: bs) :
    c.firstOffset ≤ (c.start + span as : Nat) ∧ ((c.start + span as : Nat) : Int) ≤ c.lastOffset := by
  have hne : c.bodies ≠ [] := by simp [hb]
  rw [firstOffset_eq hne]
  refine ⟨by omega, ?_⟩
  rcases eq_nil_or_concat' bs with rfl | ⟨bs', z, rfl⟩
  · rw [lastOffset_eq hb]
  · rw [lastOffset_eq (show c.bodies = (as ++ b :: bs') ++ [z] by rw [hb]; simp), span_append]
    omega

end Places

/-! ### Reading -/

variable {L : Int} {o : Nat}

theorem mem_storedFrom {bs : List (List UInt8)} {r : Stored} : r ∈ storedFrom L o bs ↔ ∃ as b cs, bs = as ++ b :: cs ∧
      r = ⟨L, o + span as, lidOf L (o + span as), b⟩ := by
  induction bs generalizing o with
  | nil => simp [storedFrom]
  | cons x xs ih =>
    rw [storedFrom, mem_cons, ih]
    constructor
    · rintro (rfl | ⟨as, b, cs, rfl, rfl⟩)
      · exact ⟨[], x, xs, rfl, rfl⟩
      · exact ⟨x :: as, b, cs, rfl, by simp [Nat.add_assoc]⟩
    · rintro ⟨as, b, cs, heq, rfl⟩
      cases as with
      | nil =>
        obtain ⟨rfl, rfl⟩ := List.cons.inj heq
        left
        rfl
      | cons a as =>
        obtain ⟨rfl, rfl⟩ := List.cons.inj heq
        right
        exact ⟨as, b, cs, rfl, by simp [Nat.add_assoc]⟩

variable {as bs : List (List UInt8)}

theorem storedFrom_append : storedFrom L o (as ++ bs) = storedFrom L o as ++ storedFrom L (o + span as) bs := by
  induction as generalizing o with
  | nil => rfl
  | cons a as ih =>
    rw [cons_append, storedFrom, ih, storedFrom, span_cons, cons_append, Nat.add_assoc]

variable {cl : Collection} {c : Content} {b : List UInt8}

theorem recordsFrom_step (h : ContentAt cl c) (hb : c.bodies = as ++ b :: bs) (fuel : Nat) :
    recordsFrom cl c.id c.lastOffset (fuel + 1) (c.start + span as) =
      ⟨c.lid, c.start + span as, lidOf c.lid (c.start + span as), b⟩ ::
        recordsFrom cl c.id c.lastOffset fuel (c.start + span as + recSize b) := by
  have hrange := offset_range hb
  obtain ⟨hf, hr, -⟩ := h.split hb
  rw [recordsFrom, if_neg (by omega)]
  simp only [h.readHead hb, getSize_recSize hf, hr.read_body hf, h.logicID]

theorem recordsFrom_eq (h : ContentAt cl c) (hb : c.bodies = as ++ b :: bs) {fuel : Nat}
    (hf : span (b :: bs).dropLast < fuel) :
    recordsFrom cl c.id c.lastOffset fuel (c.start + span as) = storedFrom c.lid (c.start + span as) (b :: bs) := by
  induction bs generalizing as b fuel with
  | nil =>
    obtain ⟨fuel, rfl⟩ : ∃ k, fuel = k + 1 := ⟨fuel - 1, by omega⟩
    have hs := recSize_bounds (h.split hb).1
    rw [recordsFrom_step h hb, lastOffset_eq hb]
    cases fuel with
    | zero => rfl
    | succ k =>
      rw [recordsFrom, if_pos (by omega)]
      rfl
  | cons b' bs ih =>
    obtain ⟨fuel, rfl⟩ : ∃ k, fuel = k + 1 := ⟨fuel - 1, by omega⟩
    have hs := recSize_bounds (h.split hb).1
    rw [dropLast_cons_cons, span_cons] at hf
    have hn := ih (show c.bodies = (as ++ [b]) ++ b' :: bs by rw [hb]; simp) (show _ < fuel by omega)
    rw [span_append, span_cons, span_nil, Nat.add_zero, ← Nat.add_assoc] at hn
    rw [recordsFrom_step h hb, hn]
    rfl

def RangeAt (cl : Collection) (c : Content) : Prop := cl.recordRange c.id = (c.firstOffset, c.lastOffset)

theorem extentRecords_eq (h : ContentAt cl c) (hr : RangeAt cl c) : cl.extentRecords c.id = c.stored := by
  unfold extentRecords stored
  rw [hr]
  cases hb : c.bodies with
  | nil => simp [firstOffset_nil hb, storedFrom]
  | cons b bs =>
    have hl : c.lastOffset = (c.start + span (b :: bs).dropLast : Nat) := by
      rw [lastOffset, if_neg (by simp [hb]), hb]
    have hs := h.start_ge
    unfold DMS_EXTENT_METADATA_SZ at hs
    have hrec := recordsFrom_eq h (show c.bodies = [] ++ b :: bs from hb)
      (show _ < (c.lastOffset - c.start).toNat + 1 by rw [hl]; omega)
    simp only [span_nil, Nat.add_zero] at hrec
    simp only [firstOffset_eq (c := c) (by simp [hb]), DMS_INVALID_OFFSET]
    rw [if_neg (by omega), Int.toNat_natCast, hrec]

/-! ### The list of extents -/

section Inv

variable {cl : Collection} {cs pre suf : List Content} {c : Content} {d : Content}

theorem lid_of_isChain (h : (c :: suf).IsChain fun c c' => c'.lid = c.lid + 1) {ps qs : List Content}
    (hd : c :: suf = ps ++ d :: qs) : d.lid = c.lid + ps.length := by
  induction ps generalizing c suf with
  | nil =>
    obtain ⟨rfl, -⟩ := List.cons.inj hd
    simp
  | cons p ps ih =>
    obtain ⟨rfl, hs⟩ := List.cons.inj hd
    cases suf with
    | nil => simp at hs
    | cons c' suf =>
      obtain ⟨hstep, ht⟩ := isChain_cons_cons.1 h
      have := ih ht hs
      rw [length_cons]
      omega

theorem lid_pairwise (h : cs.IsChain fun c c' => c'.lid = c.lid + 1) : cs.Pairwise fun c c' => c.lid < c'.lid := by
  let R (c c' : Content) : Prop := c.lid < c'.lid
  have : Trans R R R := ⟨Int.lt_trans⟩
  exact IsChain.pairwise (R := R) (h.imp fun c c' heq => by omega)

theorem CappedList.suffix_lids (h : CappedList cl cs) (hcs : cs = pre ++ suf) :
    suf.IsChain fun c c' => c'.lid = c.lid + 1 := by
  have := h.lids
  rw [hcs] at this
  exact this.right_of_append

theorem CappedList.length_le_chainBound (h : CappedList cl cs) : cs.length ≤ cl.chainBound := by
  unfold chainBound
  rcases eq_nil_or_concat' cs with rfl | ⟨ini, l, rfl⟩
  · simp
  · obtain ⟨f, rest, hf⟩ := exists_cons_of_ne_nil (concat_ne_nil l ini)
    have hfirst : cl.firstExtentID = some f.id := by rw [h.first, hf]; rfl
    have hl : cl.lastExtentID = some l.id := by rw [h.last]; simp
    have hlid := lid_of_isChain (hf ▸ h.lids) hf.symm
    have hl1 := (h.contents f (by rw [hf]; simp)).logicID
    have hl2 := (h.contents l (by simp)).logicID
    rw [hfirst, hl]
    simp only [hl1, hl2, hlid, length_append, length_singleton]
    omega

theorem CappedLinks.next (h : CappedLinks cl cs) (hcs : cs = pre ++ c :: suf) :
    (cl.extents c.id).nextExtent = (suf.map Content.id).head? := by
  have hch := h.chain
  rw [hcs, map_append] at hch
  exact hch.links.2

theorem CappedLinks.prev (h : CappedLinks cl cs) (hcs : cs = pre ++ c :: suf) :
    (cl.extents c.id).prevExtent = (pre.map Content.id).getLast? := by
  have hch := h.chain
  rw [hcs, map_append] at hch
  exact hch.links.1

theorem CappedLinks.id_inj (h : CappedLinks cl cs) {c d : Content} (hc : c ∈ cs) (hd : d ∈ cs) (hid : c.id = d.id) :
    c = d :=
  inj_on_of_nodup_map h.nodup hc hd hid

theorem CappedInv.work_id_iff (h : CappedInv cl cs) (hcs : cs = pre ++ c :: suf) :
    cl.work.id = some c.id ↔ suf = [] := by
  obtain ⟨l, hl⟩ : ∃ l, cs.getLast? = some l := by
    rw [hcs]
    exact ⟨_, getLast?_eq_some_getLast (by simp)⟩
  have hm : l ∈ cs := List.mem_of_getLast? hl
  rw [(h.work l hl).id]
  constructor
  · intro hid
    have heq : l = c := h.id_inj hm (by rw [hcs]; simp) (Option.some.inj hid)
    subst heq
    by_contra hne
    have hnd := h.nodup
    rw [hcs, map_append, map_cons] at hnd
    have hl' : suf.getLast? = some l := by
      cases suf with
      | nil => exact absurd rfl hne
      | cons d ds => rwa [hcs, getLast?_append_cons, getLast?_cons_cons] at hl
    exact (nodup_cons.1 (nodup_append.1 hnd).2.1).1 (mem_map_of_mem (List.mem_of_getLast? hl'))
  · rintro rfl
    rw [hcs] at hl
    simp only [getLast?_append, getLast?_singleton, Option.some_or, Option.some.injEq] at hl
    rw [hl]

theorem CappedInv.rangeAt (h : CappedInv cl cs) (hc : c ∈ cs) : RangeAt cl c := by
  obtain ⟨pre, suf, hcs⟩ := append_of_mem hc
  have hi := h.work_id_iff hcs
  unfold RangeAt recordRange
  by_cases hs : suf = []
  · have hw := h.work c (by rw [hcs, hs]; simp)
    rw [if_pos (hi.2 hs), hw.firstOffset, hw.lastOffset]
  · have hh : HeaderAt cl c := by
      refine h.headers c ?_
      rw [hcs, dropLast_append_of_ne_nil (cons_ne_nil _ _)]
      refine mem_append_right _ ?_
      cases suf with
      | nil => exact absurd rfl hs
      | cons d ds => rw [dropLast_cons_cons]; exact mem_cons_self ..
    rw [if_neg (fun hw => hs (hi.1 hw)), hh.1, hh.2]

variable {fuel : Nat}

@[elab_as_elim]
theorem walk {motive : Nat → List Content → Prop} (hf : cs.length ≤ fuel) (nil : ∀ fuel, motive fuel [])
    (cons : ∀ fuel pre c suf, cs = pre ++ c :: suf → motive fuel suf → motive (fuel + 1) (c :: suf)) :
    motive fuel cs := by
  have ha : ∀ pre suf fuel, cs = pre ++ suf → suf.length ≤ fuel → motive fuel suf := by
    intro pre suf fuel hcs hf
    induction suf generalizing pre fuel with
    | nil => exact nil fuel
    | cons c suf ih =>
      obtain ⟨fuel, rfl⟩ := Nat.exists_eq_succ_of_ne_zero (Nat.ne_zero_of_lt hf)
      exact cons fuel pre c suf hcs (ih (pre ++ [c]) fuel (by rw [hcs]; simp) (Nat.le_of_succ_le_succ hf))
  exact ha [] cs fuel rfl hf

theorem recordsOfChain_eq (h : CappedInv cl cs) (hf : cs.length ≤ fuel) :
    recordsOfChain cl fuel (cs.map Content.id).head? = cs.flatMap stored := by
  refine walk hf (fun fuel => by cases fuel <;> rfl) fun fuel pre c suf hcs ih => ?_
  have hc : c ∈ cs := by rw [hcs]; simp
  simp only [map_cons, head?_cons, recordsOfChain, flatMap_cons]
  rw [extentRecords_eq (h.contents c hc) (h.rangeAt hc), h.next hcs, ih]

theorem CappedInv.storedRecords (h : CappedInv cl cs) : cl.storedRecords = cs.flatMap stored := by
  unfold Collection.storedRecords
  rw [h.first]
  exact recordsOfChain_eq h h.length_le_chainBound

/-! ### Logical ids of stored records -/

theorem storedFrom_sorted (L : Int) (o : Nat) {bs : List (List UInt8)} (hf : ∀ b ∈ bs, Fits b) :
    (storedFrom L o bs).Pairwise fun r r' => r.logicalID < r'.logicalID := by
  induction bs generalizing o with
  | nil => exact List.Pairwise.nil
  | cons b bs ih =>
    refine List.Pairwise.cons ?_ (ih _ fun x hx => hf x (mem_cons_of_mem _ hx))
    intro r hr
    obtain ⟨as, x, ds, -, rfl⟩ := mem_storedFrom.1 hr
    have := recSize_bounds (hf b (mem_cons_self ..))
    exact lidOf_lt_of_offset (by omega)

variable {r : Stored}

theorem mem_stored : r ∈ cs.flatMap stored ↔ ∃ pre c suf as b bs, cs = pre ++ c :: suf ∧
    c.bodies = as ++ b :: bs ∧ r = ⟨c.lid, c.start + span as, lidOf c.lid (c.start + span as), b⟩ := by
  rw [mem_flatMap]
  constructor
  · rintro ⟨c, hc, hr⟩
    obtain ⟨pre, suf, hcs⟩ := append_of_mem hc
    obtain ⟨as, b, bs, hb, hr⟩ := mem_storedFrom.1 hr
    exact ⟨pre, c, suf, as, b, bs, hcs, hb, hr⟩
  · rintro ⟨pre, c, suf, as, b, bs, hcs, hb, hr⟩
    exact ⟨c, by rw [hcs]; simp, mem_storedFrom.2 ⟨as, b, bs, hb, hr⟩⟩

theorem CappedInv.stored_inRange (h : CappedInv cl cs) (hr : r ∈ cs.flatMap stored) :
    ∃ n, InRange r.extLID r.offset n ∧ r.logicalID = lidOf r.extLID r.offset := by
  obtain ⟨pre, c, suf, as, b, bs, hcs, hb, rfl⟩ := mem_stored.1 hr
  exact ⟨_, (h.contents c (by rw [hcs]; simp)).inRange hb, rfl⟩

theorem CappedInv.stored_sorted (h : CappedInv cl cs) :
    (cs.flatMap stored).Pairwise fun r r' => r.logicalID < r'.logicalID := by
  rw [pairwise_flatMap]
  constructor
  · intro c hc
    exact storedFrom_sorted _ _ (h.contents c hc).layout.forall_fits
  · refine (lid_pairwise h.lids).imp_of_mem ?_
    intro c d hc hd hlt r hr r' hr'
    obtain ⟨as, b, bs, hb, rfl⟩ := mem_storedFrom.1 hr
    obtain ⟨as', b', bs', hb', rfl⟩ := mem_storedFrom.1 hr'
    exact lidOf_lt_of_extent hlt ((h.contents c hc).inRange hb).offset_lt ((h.contents d hd).inRange hb').offset_ge

theorem logicID2ExtIDLoop_eq (h : CappedInv cl cs) (L : Int) (hf : cs.length ≤ fuel) :
    logicID2ExtIDLoop cl L fuel (cs.map Content.id).head? = (cs.find? fun c => decide (c.lid = L)).map Content.id := by
  refine walk hf (fun fuel => by cases fuel <;> rfl) fun fuel pre c suf hcs ih => ?_
  have hc : c ∈ cs := by rw [hcs]; simp
  simp only [map_cons, head?_cons, logicID2ExtIDLoop, (h.contents c hc).logicID]
  by_cases hlt : L < c.lid
  · rw [if_pos hlt, List.find?_eq_none.2]
    · rfl
    · intro d hd
      rw [decide_eq_true_eq]
      rcases mem_cons.1 hd with rfl | hd
      · omega
      · have := (pairwise_cons.1 (lid_pairwise (h.suffix_lids hcs))).1 d hd
        omega
  · rw [if_neg hlt]
    by_cases heq : L = c.lid
    · rw [if_pos heq, List.find?_cons_of_pos (by simp [heq])]
      rfl
    · rw [if_neg heq, List.find?_cons_of_neg (by simp [Ne.symm heq])]
      by_cases hs : suf = []
      · rw [if_pos ((h.work_id_iff hcs).2 hs).symm, hs]
        rfl
      · rw [if_neg (fun hw => hs ((h.work_id_iff hcs).1 hw.symm)), h.next hcs, ih]

theorem outOfRange_eq (cl : Collection) (id : Nat) (offset : Int) : (if some id = cl.work.id then
        decide (offset < cl.work.firstRecordOffset) || decide (offset > cl.work.lastRecordOffset)
      else decide (offset < (cl.extents id).firstRecordOffset) || decide (offset > (cl.extents id).lastRecordOffset)) =
      (decide (offset < (cl.recordRange id).1) || decide (offset > (cl.recordRange id).2)) := by
  unfold recordRange
  simp only [eq_comm (a := some id)]
  split <;> rfl

theorem CappedInv.extractRecLID_stored (h : CappedInv cl cs) (hcs : cs = pre ++ c :: suf)
    {as bs : List (List UInt8)} {b : List UInt8} (hb : c.bodies = as ++ b :: bs) :
    cl.extractRecLID (lidOf c.lid (c.start + span as)) = .ok (c.id, c.start + span as) := by
  have hc : c ∈ cs := by rw [hcs]; simp
  have hat := h.contents c hc
  have hin := hat.inRange hb
  have hlid := lidOf_bounds hin.lid_nonneg hin.lid_lt hin.offset_ge hin.offset_lt
  have hdec := recLid2ExtLidAndOffset_lidOf hin.lid_nonneg hin.lid_lt hin.offset_ge hin.offset_lt
  have hf : cs.find? (fun d => decide (d.lid = c.lid)) = some c := by
    rw [hcs, List.find?_append, List.find?_eq_none.2, Option.none_or, List.find?_cons_of_pos (by simp)]
    intro d hd
    have hpw := lid_pairwise h.lids
    rw [hcs] at hpw
    have := (pairwise_append.1 hpw).2.2 d hd c (mem_cons_self ..)
    rw [decide_eq_true_eq]
    omega
  have he : cl.logicID2ExtID (lidOf c.lid (c.start + span as)) = some c.id := by
    unfold logicID2ExtID
    rw [if_neg (by omega), hdec, h.first, logicID2ExtIDLoop_eq h _ h.length_le_chainBound, hf]
    rfl
  have ho := offset_range hb
  have hh := hat.readHead hb
  have hno := hat.recNo_pos
  unfold extractRecLID
  rw [if_neg (by omega), he]
  simp only [hdec, outOfRange_eq, show cl.recordRange c.id = _ from h.rangeAt hc, Int.toNat_natCast, hh,
    isNormal_recSize]
  rw [if_neg (by simp; omega), if_neg (by simp; omega)]

theorem extractRecLID_error {cl : Collection} {lid : Int} {rc : Rc} (h : cl.extractRecLID lid = .error rc) :
    rc = .invalidArg := by
  unfold extractRecLID at h
  split at h
  · cases h; rfl
  · split at h
    · cases h; rfl
    · simp only at h
      split_ifs at h <;> cases h <;> rfl

end Inv

end SequoiaDB.Dms.Capped

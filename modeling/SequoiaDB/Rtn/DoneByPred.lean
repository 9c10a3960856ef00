import SequoiaDB.Ixm.KeyCover
import SequoiaDB.Rtn.Predicate

/-!
# Conditions that are done by the predicate

A condition that is kept as a parameter of a plan and bound to a predicate is not evaluated again on the documents that
the scan of the index returns.  The ranges hold more than the condition accepts: with mixed types an array lies between
the values of other types, while the matcher never compares an array with them.
-/

namespace SequoiaDB.Rtn

open Bson Mth Ixm Lib Option Bool Element Condition

/-! ### Which conditions are marked -/

/-- `_mthMatchOpItem::_canDoneByPred`, for a field without `.$` and no functions -/
def canDoneByPred : OpType → Bool
  | .equality => true
  | .lt => true
  | .lte => true
  | .gt => true
  | .gte => true
  | _ => false

def canParameterize (opType : OpType) (e : Element) : Bool :=
  match opType with
  | .equality | .lt | .lte | .gt | .gte =>
    match e with
    | .double _ | .int _ | .long _ | .decimal _ | .date _ | .timestamp _ _ | .string _ | .oid _ => true
    | _ => false
  | _ => false

/-- The condition may be marked: only a parameter is, and `_execute` skips a condition only if it is one. -/
def Marked (c : Condition) : Prop := canDoneByPred c.opType = true ∧ canParameterize c.opType c.toMatch = true

variable {c : Condition} {mix : Bool} {name : Name} {v e : Element} {b : KeyBoundary}

def Ordinary (e : Element) : Prop :=
  e.canonicalType = 10 ∨ e.canonicalType = 15 ∨ e.canonicalType = 35 ∨ e.canonicalType = 45

theorem Marked.ordinary (h : Marked c) : Ordinary c.toMatch := by
  have h2 := h.2
  unfold canParameterize at h2
  unfold Ordinary
  split at h2
  all_goals first | cases h2 | skip
  all_goals cases hm : c.toMatch <;> simp_all [canonicalType]

/-! ### Values between two types -/

theorem woCompare_lt_of_type (h : v.canonicalType < e.canonicalType) : v.woCompare e = .lt := by
  rw [woCompare_of_ne h.ne]
  exact compare_lt_iff_lt.2 h

theorem woCompare_gt_of_type (h : e.canonicalType < v.canonicalType) : v.woCompare e = .gt := by
  rw [woCompare_of_ne h.ne']
  exact compare_gt_iff_gt.2 h

theorem compare_type_le (h : v.woCompare e ≠ .gt) : v.canonicalType ≤ e.canonicalType :=
  not_lt.1 fun hlt => h (woCompare_gt_of_type hlt)

theorem compare_type_ge (h : v.woCompare e ≠ .lt) : e.canonicalType ≤ v.canonicalType :=
  not_lt.1 fun hlt => h (woCompare_lt_of_type hlt)

theorem above_eq (b : KeyBoundary) (v : Element) :
    b.above v = if b.inclusive then v.woCompare b.bound != .lt else v.woCompare b.bound == .gt := by
  unfold KeyBoundary.above
  cases v.woCompare b.bound <;> cases b.inclusive <;> rfl

theorem below_eq (b : KeyBoundary) (v : Element) :
    b.below v = if b.inclusive then v.woCompare b.bound != .gt else v.woCompare b.bound == .lt := by
  unfold KeyBoundary.below
  cases v.woCompare b.bound <;> cases b.inclusive <;> rfl

theorem type_of_above (h : b.above v) : b.bound.canonicalType ≤ v.canonicalType := by
  refine compare_type_ge fun hlt => ?_
  unfold KeyBoundary.above at h
  rw [hlt] at h
  cases h

theorem type_of_below (h : b.below v) : v.canonicalType ≤ b.bound.canonicalType := by
  refine compare_type_le fun hgt => ?_
  unfold KeyBoundary.below at h
  rw [hgt] at h
  cases h

theorem type_of_below_object {n : Name} (h : KeyBoundary.below ⟨n, .object .nil, false⟩ v)
    (hs : 15 ≤ v.canonicalType) : v.canonicalType = 15 := by
  have hle := type_of_below h
  cases v with
  | object o =>
    have hn : compareElementValues (.object o) (.object .nil) ≠ .lt := by
      cases o <;> simp [compareElementValues, compareFields]
    have hlt : (object o).woCompare (.object .nil) = .lt := by
      rw [below_eq] at h
      exact beq_iff_eq.1 h
    exact absurd hlt hn
  | _ => simp_all [canonicalType]

theorem eq_minKey_of_type (h : v.canonicalType < 0) : v = .minKey := by
  cases v <;> simp [canonicalType] at h ⊢

theorem eq_undefined_of_type (h : v.canonicalType = 0) : v = .undefined := by
  cases v <;> simp [canonicalType] at h ⊢

theorem eq_maxKey_of_type (h : 65 < v.canonicalType) : v = .maxKey := by
  cases v <;> simp [canonicalType] at h ⊢

/-! ### What the matcher accepts -/

variable {below above : Element → Bool} {test : Ordering → Bool} {incl : Bool}

theorem orderMatch_eq (he : Ordinary e) (h : v.canonicalType = e.canonicalType ∨ mix ∧ isArray v = false) :
    orderMatch below above test mix v e = test (v.woCompare e) := by
  unfold orderMatch
  rw [if_neg (by unfold Ordinary at he; omega), if_neg (by unfold Ordinary at he; omega)]
  by_cases heq : v.canonicalType = e.canonicalType
  · rw [if_pos heq, woCompare_of_eq heq]
  · obtain ⟨rfl, hv⟩ := h.resolve_left heq
    rw [if_neg heq, if_pos rfl]
    cases v <;> first | rfl | cases hv

/-! ### What lies in the ranges -/

def ltTest (inclusive : Bool) (o : Ordering) : Bool := if inclusive then o != .gt else o == .lt

def gtTest (inclusive : Bool) (o : Ordering) : Bool := if inclusive then o != .lt else o == .gt

theorem woCompare_undefined (v : Element) : v.woCompare .undefined = compare v.canonicalType 0 := by
  by_cases h0 : v.canonicalType = 0
  · rw [h0, eq_undefined_of_type h0]
    rfl
  · exact woCompare_of_ne h0

theorem above_undefined {n : Name} : KeyBoundary.above ⟨n, .undefined, false⟩ v ↔ 0 < v.canonicalType := by
  rw [above_eq]
  show (v.woCompare .undefined == .gt) = true ↔ _
  rw [beq_iff_eq, woCompare_undefined, compare_gt_iff_gt]

theorem minRange_contains : (minRange true).contains v ↔ v = .minKey := by
  constructor
  · intro h
    have hb := (and_eq_true_iff.1 h).2
    rw [below_eq] at hb
    have hlt : v.woCompare .undefined = .lt := beq_iff_eq.1 hb
    rw [woCompare_undefined] at hlt
    exact eq_minKey_of_type (compare_lt_iff_lt.1 hlt)
  · rintro rfl
    decide

theorem inRanges_singleton (r : StartStopKey) : inRanges [r] v = r.contains v := by simp [inRanges]

theorem Ordinary.pos (he : Ordinary e) : 0 < e.canonicalType ∧ e.canonicalType < 127 := by
  unfold Ordinary at he
  omega

theorem ltRange_mix (he : Ordinary e) (incl : Bool) : inRanges (ltRange (name, e) incl true) v ↔
      v = .minKey ∨ 0 < v.canonicalType ∧ ltTest incl (v.woCompare e) := by
  have hp := he.pos.1
  unfold ltRange
  rw [Bool.true_or, if_pos rfl, if_neg hp.not_ge]
  show ((minRange true).contains v || (StartStopKey.contains _ v || false)) = true ↔ _
  rw [Bool.or_false, or_eq_true, minRange_contains]
  unfold StartStopKey.contains
  rw [and_eq_true, above_undefined, below_eq]
  rfl

theorem gtRange_mix (he : Ordinary e) (incl : Bool) :
    inRanges (gtRange (name, e) incl true) v ↔ gtTest incl (v.woCompare e) := by
  have hp := he.pos.1
  have hm : KeyBoundary.below ⟨[], .maxKey, true⟩ v := by
    rw [below_eq]
    refine bne_iff_ne.2 fun hgt => ?_
    have hge := compare_type_ge (e := .maxKey) (v := v) (by rw [hgt]; decide)
    rw [eq_maxKey_of_type (lt_of_lt_of_le (by decide) hge)] at hgt
    exact absurd hgt (by decide)
  unfold gtRange
  rw [if_neg hp.not_ge, inRanges_singleton]
  unfold StartStopKey.contains
  simp only [Bool.true_or, if_true]
  rw [hm, Bool.and_true, above_eq]
  rfl

theorem minForCmp_type (he : Ordinary e) : (rtnKeyGetMinForCmp e).canonicalType = e.canonicalType := by
  unfold Ordinary at he
  cases e <;> simp_all [canonicalType, rtnKeyGetMinForCmp]

theorem maxForCmp_type (he : Ordinary e) : (rtnKeyGetMaxForCmp e).canonicalType = e.canonicalType ∨
      rtnKeyGetMaxForCmp e = .object .nil ∧ e.canonicalType = 15 := by
  unfold Ordinary at he
  cases e <;> simp_all [canonicalType, rtnKeyGetMaxForCmp]

theorem ltRange_type (he : Ordinary e) (h : inRanges (ltRange (name, e) incl false) v) :
    v.canonicalType = e.canonicalType ∧ ltTest incl (v.woCompare e) := by
  unfold ltRange at h
  rw [Bool.false_or, if_neg (by simpa using he.pos.2.ne), inRanges_singleton] at h
  obtain ⟨ha, hb⟩ := and_eq_true_iff.1 h
  have hge := type_of_above ha
  rw [minForCmp_type he] at hge
  refine ⟨le_antisymm (type_of_below hb) hge, ?_⟩
  rwa [below_eq] at hb

theorem gtRange_type (he : Ordinary e) (h : inRanges (gtRange (name, e) incl false) v) :
    v.canonicalType = e.canonicalType ∧ gtTest incl (v.woCompare e) := by
  have hp := he.pos.1
  unfold gtRange at h
  rw [if_neg hp.not_ge, inRanges_singleton] at h
  obtain ⟨ha, hb⟩ := and_eq_true_iff.1 h
  have hge := type_of_above ha
  refine ⟨?_, by rwa [above_eq] at ha⟩
  rcases maxForCmp_type he with hm | ⟨hm, h15⟩
  · exact le_antisymm ((type_of_below hb).trans hm.le) hge
  · simp only [Bool.false_or, hm, h15, if_false, false_eq_true] at hb
    rw [h15]
    exact type_of_below_object hb (h15 ▸ hge)

/-! ### The ranges of a marked condition -/

def ranges (name : Name) (c : Condition) (mixCmp : Bool) : List StartStopKey :=
  (rtnPredicate (some (name, c.toMatch)) c.opType false mixCmp).getD []

/-- The ranges hold arrays: types are mixed, and arrays are on the side of the operand that the operator asks for. -/
def holdsArrays (c : Condition) (mixCmp : Bool) : Bool :=
  match c.opType with
  | .gt | .gte => mixCmp && decide (c.toMatch.canonicalType < 25)
  | .lt | .lte => mixCmp && decide (25 < c.toMatch.canonicalType)
  | _ => false

theorem Marked.cases (h : Marked c) (name : Name) (mix : Bool) :
    c.opType = .equality ∧ ranges name c mix = [pointKey (name, c.toMatch)] ∨
    (∃ incl, c.opType = (if incl then .lte else .lt) ∧
      ranges name c mix = ltRange (name, c.toMatch) incl mix) ∨
    ∃ incl, c.opType = (if incl then .gte else .gt) ∧
      ranges name c mix = gtRange (name, c.toMatch) incl mix := by
  have ha : isArray c.toMatch = false := by
    have ho := h.ordinary
    unfold Ordinary at ho
    cases hm : c.toMatch <;> first | rfl | simp_all [canonicalType]
  have hlt : ∀ incl, (rtnPredicate (some (name, c.toMatch)) (if incl then .lte else .lt) false mix).getD [] =
      ltRange (name, c.toMatch) incl mix := by
    intro incl
    cases incl
    all_goals
      simp only [rtnPredicate, initLT, ha, false_eq_true, if_false, if_true, map_some, getD_some]
      unfold ltRange
      split_ifs <;> rfl
  have hgt : ∀ incl, (rtnPredicate (some (name, c.toMatch)) (if incl then .gte else .gt) false mix).getD [] =
      gtRange (name, c.toMatch) incl mix := by
    intro incl
    cases incl
    all_goals
      simp only [rtnPredicate, initGT, ha, false_eq_true, if_false, if_true, map_some, getD_some]
      rw [gtRange, if_neg h.ordinary.pos.1.not_ge]
  unfold ranges
  have hd := h.1
  cases hop : c.opType <;> rw [hop] at hd
  case equality =>
    refine .inl ⟨rfl, ?_⟩
    simp [rtnPredicate, initET, ha]
  case lt => exact .inr (.inl ⟨false, rfl, hlt false⟩)
  case lte => exact .inr (.inl ⟨true, rfl, hlt true⟩)
  case gt => exact .inr (.inr ⟨false, rfl, hgt false⟩)
  case gte => exact .inr (.inr ⟨true, rfl, hgt true⟩)
  all_goals cases hd

theorem pointKey_contains : (pointKey (name, e)).contains v ↔ v.woCompare e = .eq := by
  unfold pointKey StartStopKey.contains
  rw [above_eq, below_eq]
  cases v.woCompare e <;> simp

theorem valueMatch_lt (incl : Bool) (hop : c.opType = if incl then .lte else .lt) (he : Ordinary c.toMatch)
    (h : v.canonicalType = c.toMatch.canonicalType ∨ mix ∧ isArray v = false) :
    c.valueMatch mix (some v) = ltTest incl (v.woCompare c.toMatch) := by
  unfold valueMatch
  cases incl <;> rw [hop] <;> exact orderMatch_eq he h

theorem valueMatch_gt (incl : Bool) (hop : c.opType = if incl then .gte else .gt) (he : Ordinary c.toMatch)
    (h : v.canonicalType = c.toMatch.canonicalType ∨ mix ∧ isArray v = false) :
    c.valueMatch mix (some v) = gtTest incl (v.woCompare c.toMatch) := by
  unfold valueMatch
  cases incl <;> rw [hop] <;> exact orderMatch_eq he h

theorem valueMatch_of_inRanges (h : Marked c) (hv : isArray v = false) (hin : inRanges (ranges name c mix) v) :
    c.valueMatch mix (some v) = true := by
  have he := h.ordinary
  rcases h.cases name mix with ⟨hop, hr⟩ | ⟨incl, hop, hr⟩ | ⟨incl, hop, hr⟩
  all_goals rw [hr] at hin
  · rw [inRanges_singleton, pointKey_contains, woCompare_eq_iff] at hin
    unfold valueMatch
    rw [hop]
    exact and_eq_true_iff.2 ⟨decide_eq_true hin.1, beq_iff_eq.2 hin.2⟩
  · cases mix with
    | true =>
      rw [valueMatch_lt incl hop he (.inr ⟨rfl, hv⟩)]
      rcases (ltRange_mix he incl).1 hin with rfl | ⟨-, ht⟩
      · rw [woCompare_lt_of_type (lt_trans (by decide) he.pos.1)]
        cases incl <;> rfl
      · exact ht
    | false =>
      obtain ⟨htype, ht⟩ := ltRange_type he hin
      rw [valueMatch_lt incl hop he (.inl htype)]
      exact ht
  · cases mix with
    | true =>
      rw [valueMatch_gt incl hop he (.inr ⟨rfl, hv⟩)]
      exact (gtRange_mix he incl).1 hin
    | false =>
      obtain ⟨htype, ht⟩ := gtRange_type he hin
      rw [valueMatch_gt incl hop he (.inl htype)]
      exact ht

theorem ltTest_of_ne (incl : Bool) (h : v.canonicalType ≠ e.canonicalType) :
    ltTest incl (v.woCompare e) ↔ v.canonicalType < e.canonicalType := by
  rcases h.lt_or_gt with hlt | hgt
  · rw [woCompare_lt_of_type hlt]
    exact iff_of_true (by cases incl <;> rfl) hlt
  · rw [woCompare_gt_of_type hgt]
    exact iff_of_false (by cases incl <;> exact Bool.false_ne_true) hgt.not_gt

theorem gtTest_of_ne (incl : Bool) (h : v.canonicalType ≠ e.canonicalType) :
    gtTest incl (v.woCompare e) ↔ e.canonicalType < v.canonicalType := by
  rcases h.lt_or_gt with hlt | hgt
  · rw [woCompare_lt_of_type hlt]
    exact iff_of_false (by cases incl <;> exact Bool.false_ne_true) hlt.not_gt
  · rw [woCompare_gt_of_type hgt]
    exact iff_of_true (by cases incl <;> rfl) hgt

theorem inRanges_of_ne (h : Marked c) (hv : v.canonicalType ≠ c.toMatch.canonicalType) (hm : v ≠ .minKey) :
    inRanges (ranges name c mix) v ↔ mix ∧
      ((c.opType = .lt ∨ c.opType = .lte) ∧ 0 < v.canonicalType ∧ v.canonicalType < c.toMatch.canonicalType ∨
        (c.opType = .gt ∨ c.opType = .gte) ∧ c.toMatch.canonicalType < v.canonicalType) := by
  have he := h.ordinary
  rcases h.cases name mix with ⟨hop, hr⟩ | ⟨incl, hop, hr⟩ | ⟨incl, hop, hr⟩
  all_goals rw [hr, hop]
  · rw [inRanges_singleton, pointKey_contains, woCompare_eq_iff]
    simp [hv]
  · cases mix with
    | true =>
      rw [ltRange_mix he, or_iff_right hm, ltTest_of_ne incl hv]
      cases incl <;> simp
    | false => exact iff_of_false (fun hin => hv (ltRange_type he hin).1) fun h => Bool.false_ne_true h.1
  · cases mix with
    | true =>
      rw [gtRange_mix he, gtTest_of_ne incl hv]
      cases incl <;> simp
    | false => exact iff_of_false (fun hin => hv (gtRange_type he hin).1) fun h => Bool.false_ne_true h.1

theorem inRanges_array (h : Marked c) (a : Obj) : inRanges (ranges name c mix) (.array a) ↔ holdsArrays c mix := by
  have hne : (array a).canonicalType ≠ c.toMatch.canonicalType := by
    have he := h.ordinary
    unfold Ordinary at he
    rw [show (array a).canonicalType = 25 from rfl]
    omega
  rw [inRanges_of_ne h hne nofun]
  unfold holdsArrays
  rw [show (array a).canonicalType = 25 from rfl]
  cases c.opType <;> simp

theorem not_inRanges_undefined (h : Marked c) : ¬ inRanges (ranges name c mix) .undefined = true := by
  have hp : undefined.canonicalType < c.toMatch.canonicalType := h.ordinary.pos.1
  rw [inRanges_of_ne h hp.ne nofun]
  rintro ⟨-, ⟨-, h0, -⟩ | ⟨-, hlt⟩⟩
  · exact absurd h0 (by decide)
  · exact absurd hlt hp.not_gt

/-! ### Documents -/

/-- Along the names of fields the path meets an array with an object or an array at the position that the next component
names, and goes on behind it. -/
def Strays (name : Name) : List Name → Obj → Prop
  | [], _ => False
  | name' :: rest, o =>
    match o.getField name with
    | some (.object sub) => Strays name' rest sub
    | some (.array a) =>
      (rest ≠ [] ∧ ∃ sub, a.getField name' = some (.object sub) ∨ a.getField name' = some (.array sub)) ∨
        ∃ sub ∈ objects a, Strays name' rest sub
    | _ => False

variable {t : Tested} {d : Option (Bool → Obj → List Tested)}

theorem mem_reachedArray {a o : Obj} (ho : o ∈ objects a) (h : t ∈ c.reachedObject mix d name o)
    (hd : d ≠ none → ∀ sub, a.getField name ≠ some (.object sub) ∧ a.getField name ≠ some (.array sub)) :
    t ∈ c.reachedArray mix d name a := by
  unfold reachedArray
  split
  · next sub hf => exact absurd hf (hd nofun sub).1
  · next sub hf => exact absurd hf (hd nofun sub).2
  · obtain ⟨⟨n, e⟩, hf, rfl⟩ := List.mem_map.1 (mem_objects.1 ho)
    exact List.mem_flatMap.2 ⟨_, hf, List.mem_append_right _ h⟩

/-- A value that is reached by the names of fields is looked at, unless the path strays or ends with a dot. -/
theorem exists_reached_of_named (hc : c.innerMixCmp mix = mix) {rest : List Name} (hdot : rest.getLast? ≠ some [])
    {o : Obj} (hs : ¬ Strays name rest o) (hv : v ∈ named name rest o) (harr : isArray v = false) :
    ∃ t ∈ c.reached mix name rest false o, t.mix = mix ∧ t.value = v := by
  have hself : ∀ {a : Obj} {l : List Element}, v ∈ orSelf a l → v ∈ l := by
    intro a l h
    unfold orSelf at h
    split at h
    · rw [List.mem_singleton.1 h] at harr
      cases harr
    · exact h
  induction rest generalizing name o with
  | nil =>
    unfold named at hv
    unfold reached reachedObject atField
    cases hf : o.getField name with
    | none => simp [hf] at hv
    | some e =>
      cases e with
      | array a =>
        rw [hf] at hv
        exact ⟨⟨mix, false, v⟩, List.mem_cons_of_mem _ (List.mem_map.2 ⟨v, hself hv, by rw [hc]⟩), rfl, rfl⟩
      | _ =>
        simp only [hf, List.mem_singleton] at hv
        simp [hv]
  | cons name' rest ih =>
    unfold named at hv
    unfold Strays at hs
    unfold reached reachedObject
    cases hf : o.getField name with
    | none => simp [hf] at hv
    | some e =>
      rw [not_atEnd hdot] at hv
      cases e with
      | object sub =>
        simp only [hf] at hs hv
        exact ih (getLast?_tail hdot) hs hv
      | array a =>
        simp only [hf] at hs hv
        obtain ⟨sub, hsub, hv'⟩ := List.mem_flatMap.1 (hself hv)
        obtain ⟨t, ht, htv⟩ := ih (getLast?_tail hdot) (fun h => hs (.inr ⟨sub, hsub, h⟩)) hv'
        refine ⟨t, ?_, htv⟩
        cases rest with
        | nil => exact mem_reachedArray (d := none) hsub ht fun h => absurd rfl h
        | cons n rest =>
          refine mem_reachedArray (d := some (c.reached mix n rest)) hsub ht fun _ x => ⟨fun h => hs ?_, fun h => hs ?_⟩
          · exact .inl ⟨List.cons_ne_nil _ _, x, .inl h⟩
          · exact .inl ⟨List.cons_ne_nil _ _, x, .inr h⟩
      | _ => simp [hf] at hv

theorem Marked.innerMixCmp (h : Marked c) (mix : Bool) : c.innerMixCmp mix = mix := by
  have he := h.ordinary
  unfold Ordinary at he
  unfold Condition.innerMixCmp
  cases hm : c.toMatch <;> simp_all [canonicalType]

theorem exists_key_iff (h : Marked c) (f : FieldName) (doc : Obj) :
    (∃ gen, getKeys [f] doc = .ok gen ∧ ∃ keys, Inserted Key.same [] gen keys ∧
        ∃ v, [v] ∈ keys ∧ inRanges (ranges name c mix) v) ↔
      ∃ v ∈ named f.name f.rest doc, inRanges (ranges name c mix) v := by
  have ht : ∀ {v}, inRanges (ranges name c mix) v = true → v.canonicalType ≠ 0 := fun hin h0 =>
    not_inRanges_undefined h (eq_undefined_of_type h0 ▸ hin)
  -- a value is a key exactly if it is reached by names
  have hm : ∀ {v : Element}, v.canonicalType ≠ 0 →
      ((∃ gen, getKeys [f] doc = .ok gen ∧ [v] ∈ gen) ↔ v ∈ named f.name f.rest doc) := by
    intro v hv
    obtain ⟨_, hk, vs, rfl, hvs⟩ := getKeys_keysOf hv f doc
    have hof : ∀ l : List Element, v ∈ ofType v.canonicalType l ↔ v ∈ l := fun l => by simp [ofType]
    rw [← hof, ← hvs, hof, hk]
    simp
  constructor
  · rintro ⟨gen, hg, keys, hi, v, hv, hin⟩
    have hvg := hi.mem hv
    rw [List.append_nil] at hvg
    exact ⟨v, (hm (ht hin)).1 ⟨gen, hg, hvg⟩, hin⟩
  · rintro ⟨v, hv, hin⟩
    obtain ⟨gen, hg, hvg⟩ := (hm (ht hin)).2 hv
    obtain ⟨keys, hi, hs⟩ := exists_inserted_subset Key.same [] gen
    exact ⟨gen, hg, keys, hi, v, hs hvg, hin⟩

theorem Marked.opType_ne (h : Marked c) {opType : OpType} (hop : canDoneByPred opType = false) : c.opType ≠ opType := by
  rintro rfl
  exact Bool.false_ne_true (hop.symm.trans h.1)

theorem accepts_iff (h : Marked c) (mix : Bool) (f : FieldName) (doc : Obj) : c.accepts mix f.name f.rest doc ↔
      ∃ t ∈ c.reached mix f.name f.rest false doc, c.valueMatch t.mix (some t.value) := by
  have hd : c.Direct := ⟨h.opType_ne rfl, h.opType_ne rfl, h.opType_ne rfl, h.opType_ne rfl⟩
  unfold Condition.accepts
  rw [if_neg (h.opType_ne rfl)]
  exact execute_iff mix hd f.name f.rest false doc

/-- **Conditions done by the predicate.**  A document with a key in the ranges of a marked condition is accepted by the
condition exactly if: whenever the ranges hold arrays and one of the keys is an array, or the path strays or ends with a dot
and another key is in the ranges, one of the values that the condition looks at is accepted. -/
theorem doneByPred_implied_iff (c : Condition) (h : Marked c) (name : Name) (mixCmp : Bool) (f : FieldName)
    (_hf : validateKeyDef f = true) (doc : Obj) :
    ((∃ generated, getKeys [f] doc = .ok generated ∧ ∃ keys, Inserted Key.same [] generated keys ∧
        ∃ v, [v] ∈ keys ∧ inRanges (ranges name c mixCmp) v = true) →
      c.accepts mixCmp f.name f.rest doc = true) ↔
    ((holdsArrays c mixCmp = true ∧ ∃ a, .array a ∈ named f.name f.rest doc) ∨
        ((f.rest.getLast? = some [] ∨ Strays f.name f.rest doc) ∧
          ∃ v ∈ named f.name f.rest doc, isArray v = false ∧ inRanges (ranges name c mixCmp) v = true) →
      ∃ t ∈ c.reached mixCmp f.name f.rest false doc, c.valueMatch t.mix (some t.value) = true) := by
  rw [exists_key_iff h, accepts_iff h]
  constructor
  · intro himp hcase
    refine himp ?_
    rcases hcase with ⟨hholds, a, ha⟩ | ⟨-, v, hv, -, hin⟩
    · exact ⟨_, ha, (inRanges_array h a).2 hholds⟩
    · exact ⟨v, hv, hin⟩
  · rintro hcase ⟨v, hv, hin⟩
    cases harr : isArray v with
    | true =>
      cases v with
      | array a => exact hcase (.inl ⟨(inRanges_array h a).1 hin, a, hv⟩)
      | _ => cases harr
    | false =>
      by_cases hpath : f.rest.getLast? = some [] ∨ Strays f.name f.rest doc
      · exact hcase (.inr ⟨hpath, v, hv, harr, hin⟩)
      · obtain ⟨hdot, hstray⟩ := not_or.1 hpath
        obtain ⟨t, ht, hmix, rfl⟩ := exists_reached_of_named (h.innerMixCmp mixCmp) hdot hstray hv harr
        refine ⟨t, ht, ?_⟩
        rw [hmix]
        exact valueMatch_of_inRanges h harr hin

/-- `{a: [7, []]}` and `$gt: 5` with mixed types: the empty array is a key in the range, and 7 is accepted. -/
theorem doneByPred_implied_by_member :
    (⟨.gt, .int 5, fun _ => false⟩ : Condition).accepts true [97] []
      (.cons [97] (.array (.cons [48] (.int 7) (.cons [49] (.array .nil) .nil))) .nil) = true :=
  (doneByPred_implied_iff ⟨.gt, .int 5, fun _ => false⟩ ⟨rfl, rfl⟩ [36, 103, 116] true ⟨[97], []⟩ rfl
      (.cons [97] (.array (.cons [48] (.int 7) (.cons [49] (.array .nil) .nil))) .nil)).2
    (fun _ => ⟨⟨true, false, .int 7⟩, List.mem_cons_of_mem _ List.mem_cons_self, by decide +kernel⟩)
    ((exists_key_iff ⟨rfl, rfl⟩ ⟨[97], []⟩ _).2 ⟨.int 7, List.mem_cons_self, by decide +kernel⟩)

/-- `{a: []}` and `$gt: 5` with mixed types: the only key is the empty array, which lies in the range, and the matcher
rejects the document.  `{a: [{0: {b: 7}}]}` and `$gt: 5` on the path `a.0.b`, without mixed types: the only key is 7, and
the matcher rejects the document because it takes `0` for a position. -/
theorem doneByPred_not_implied :
    ((∃ generated, getKeys [⟨[97], []⟩] (.cons [97] (.array .nil) .nil) = .ok generated ∧
        ∃ keys, Inserted Key.same [] generated keys ∧
          ∃ v, [v] ∈ keys ∧ inRanges (ranges [36, 103, 116] ⟨.gt, .int 5, fun _ => false⟩ true) v = true) ∧
      (⟨.gt, .int 5, fun _ => false⟩ : Condition).accepts true [97] [] (.cons [97] (.array .nil) .nil) = false) ∧
    ((∃ generated, getKeys [⟨[97], [[48], [98]]⟩] (.cons [97] (.array (.cons [48] (.object
        (.cons [48] (.object (.cons [98] (.int 7) .nil)) .nil)) .nil)) .nil) = .ok generated ∧
        ∃ keys, Inserted Key.same [] generated keys ∧
          ∃ v, [v] ∈ keys ∧ inRanges (ranges [36, 103, 116] ⟨.gt, .int 5, fun _ => false⟩ false) v = true) ∧
      (⟨.gt, .int 5, fun _ => false⟩ : Condition).accepts false [97] [[48], [98]] (.cons [97] (.array (.cons [48] (.object
        (.cons [48] (.object (.cons [98] (.int 7) .nil)) .nil)) .nil)) .nil) = false) := by
  refine ⟨⟨?_, by decide +kernel⟩, ?_, by decide +kernel⟩
  · exact (exists_key_iff ⟨rfl, rfl⟩ ⟨[97], []⟩ _).2 ⟨.array .nil, List.mem_cons_self, by decide +kernel⟩
  · exact (exists_key_iff ⟨rfl, rfl⟩ ⟨[97], [[48], [98]]⟩ _).2 ⟨.int 7, List.mem_cons_self, by decide +kernel⟩

end SequoiaDB.Rtn

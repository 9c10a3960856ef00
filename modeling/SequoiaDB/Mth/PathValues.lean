import SequoiaDB.Mth.Reached

/-!
# The values at the end of a path

A path is followed component by component, through the fields of objects, and in an array through the element at an
index or through its objects.  `{path: x}` and `{path: {$ne: x}}` are about the values at the end of the path.
`_execute` departs from them in two ways: an element at an index is compared although components remain, and an object
at the last index is compared but not noticed, so that `$ne` takes the path for undefined.
-/

namespace SequoiaDB.Mth

open Bson List

/-- What is collected along a path: from an element at the index that a component names, the flag saying whether it is
the last component, and from the field of an object at the end. -/
structure Collector where
  index : Bool → Element → List Element
  field : Option Element → List Element

namespace Collector

/-- What an element of an array gives: it may be at the index, and the component is resolved in an object. -/
def member (index : Element → List Element) (inObject : Obj → List Element) (name : Name) (f : Name × Element) :
    List Element :=
  (if f.1 = name then index f.2 else []) ++
    match f.2 with
    | .object o => inObject o
    | _ => []

section Step

variable (k : Collector) (last : Bool) (d : Bool → Obj → List Element) (name : Name) (obj : Obj)

def inObject : List Element :=
  if last then k.field (obj.getField name)
  else
    match obj.getField name with
    | some (.object o) => d false o
    | some (.array a) => d true a
    | _ => []

def inElements : List Element := obj.fields.flatMap (member (k.index last) (k.inObject last d name) name)

/-- In an array a component selects the element of that index if that can be followed, and is resolved in the elements
otherwise. -/
def inArray : List Element :=
  if last then k.inElements last d name obj
  else
    match obj.getField name with
    | some (.object o) => d false o
    | some (.array a) => d true a
    | _ => k.inElements last d name obj

def step (isArray : Bool) : List Element :=
  if isArray then k.inArray last d name obj else k.inObject last d name obj

end Step

def collect (k : Collector) (name : Name) : List Name → Bool → Obj → List Element
  | [], isArray, obj => k.step true (fun _ _ => []) name obj isArray
  | name' :: rest, isArray, obj => k.step false (k.collect name' rest) name obj isArray

def ends : Option Element → List Element
  | none => []
  | some (.array a) => .array a :: a.elements
  | some e => [e]

def whole : Collector := ⟨fun last e => if last then [e] else [], ends⟩

def early : Collector := ⟨fun last e => if last then [] else [e], fun _ => []⟩

def noticed : Collector where
  index _ e :=
    match e with
    | .object _ => []
    | e => [e]
  field := ends

def compared : Collector := ⟨fun _ e => [e], ends⟩

/-! ### What is compared -/

variable {k k1 k2 : Collector} {v : Element}

/-- `k` collects what `k1` and `k2` collect. -/
structure Joins (k k1 k2 : Collector) : Prop where
  index : ∀ b e v, v ∈ k.index b e ↔ v ∈ k1.index b e ∨ v ∈ k2.index b e
  field : ∀ e v, v ∈ k.field e ↔ v ∈ k1.field e ∨ v ∈ k2.field e

variable {d d1 d2 : Bool → Obj → List Element} (last : Bool)

theorem Joins.mem_inObject (h : k.Joins k1 k2) (hd : ∀ b o v, v ∈ d b o ↔ v ∈ d1 b o ∨ v ∈ d2 b o) (name : Name)
    (obj : Obj) :
    v ∈ k.inObject last d name obj ↔ v ∈ k1.inObject last d1 name obj ∨ v ∈ k2.inObject last d2 name obj := by
  unfold inObject
  cases last with
  | true => exact h.field _ v
  | false =>
    simp only [Bool.false_eq_true, if_false]
    split
    · exact hd ..
    · exact hd ..
    · simp only [not_mem_nil, or_self]

theorem Joins.mem_inElements (h : k.Joins k1 k2) (hd : ∀ b o v, v ∈ d b o ↔ v ∈ d1 b o ∨ v ∈ d2 b o) (name : Name)
    (obj : Obj) :
    v ∈ k.inElements last d name obj ↔ v ∈ k1.inElements last d1 name obj ∨ v ∈ k2.inElements last d2 name obj := by
  unfold inElements
  simp only [mem_flatMap, ← exists_or, ← and_or_left]
  refine exists_congr fun f => and_congr_right fun _ => ?_
  have hi : v ∈ (if f.1 = name then k.index last f.2 else []) ↔
      v ∈ (if f.1 = name then k1.index last f.2 else []) ∨ v ∈ (if f.1 = name then k2.index last f.2 else []) := by
    split
    · exact h.index ..
    · simp only [not_mem_nil, or_self]
  unfold member
  rw [mem_append, mem_append, mem_append, hi]
  cases f.2 with
  | object o =>
    dsimp only
    rw [h.mem_inObject last hd]
    exact or_or_or_comm
  | _ => simp only [not_mem_nil, or_false]

theorem Joins.mem_collect (h : k.Joins k1 k2) (name : Name) (rest : List Name) (arr : Bool) (obj : Obj) :
    v ∈ k.collect name rest arr obj ↔
      v ∈ k1.collect name rest arr obj ∨ v ∈ k2.collect name rest arr obj := by
  induction rest generalizing name arr obj v with
  | nil =>
    have hd : ∀ (b : Bool) (o : Obj) v, v ∈ ([] : List Element) ↔ v ∈ ([] : List Element) ∨ v ∈ ([] : List Element) :=
      fun _ _ _ => (or_self_iff).symm
    unfold collect
    cases arr with
    | false => exact h.mem_inObject true hd name obj
    | true => exact h.mem_inElements true hd name obj
  | cons name' rest ih =>
    have hd : ∀ b o v, v ∈ k.collect name' rest b o ↔ v ∈ k1.collect name' rest b o ∨ v ∈ k2.collect name' rest b o :=
      fun b o v => ih name' b o
    unfold collect
    cases arr with
    | false => exact h.mem_inObject false hd name obj
    | true =>
      simp only [step, inArray, if_true]
      simp only [Bool.false_eq_true, if_false]
      split
      · exact hd ..
      · exact hd ..
      · exact h.mem_inElements false hd name obj

theorem compared_joins : compared.Joins whole early where
  index b e v := by cases b <;> simp [compared, whole, early]
  field e v := by simp [compared, whole, early]

end Collector

namespace Condition

open Collector

variable {c : Condition} (mix : Bool)

def Equates (c : Condition) : Prop := c.opType = .equality ∨ c.opType = .ne

theorem Equates.valueMatch_iff (hc : c.Equates) (mix : Bool) (e : Element) :
    c.valueMatch mix (some e) ↔ e.woCompare c.toMatch = .eq := by
  have hm : c.valueMatch mix (some e) = etMatch e c.toMatch := by
    unfold valueMatch
    rcases hc with h | h <;> rw [h]
  rw [hm, Element.woCompare_eq_iff]
  simp [etMatch]

theorem Equates.not_accept (hc : c.Equates) : c.flagAcceptUndefined = false := by
  unfold flagAcceptUndefined
  rcases hc with h | h <;> rw [h] <;> rfl

theorem Equates.direct (hc : c.Equates) : c.Direct := by
  unfold Direct
  rcases hc with h | h <;> rw [h] <;> decide

/-! ### The answer of `_execute` -/

variable {last : Bool} {d : Bool → Obj → List Element}

theorem map_value_atField (e : Option Element) : (c.atField mix e).map Tested.value = ends e := by
  cases e with
  | none => rfl
  | some v =>
    cases v with
    | array a => simp [atField, ends, Function.comp_def]
    | _ => rfl

/-- Two ways to go on with the rest of a path, if there is one. -/
inductive Follows {α : Type} (R : α → List Element → Prop) (d : Bool → Obj → List Element) :
    Bool → Option (Bool → Obj → α) → Prop
  | atEnd : Follows R d true none
  | onward {r : Bool → Obj → α} : (∀ b o, R (r b o) (d b o)) → Follows R d false (some r)

def Tests (l : List Tested) (l' : List Element) : Prop := l.map Tested.value = l'

section Compared

variable {r : Option (Bool → Obj → List Tested)}

theorem map_value_reachedObject (h : Follows Tests d last r) (name : Name) (obj : Obj) :
    (c.reachedObject mix r name obj).map Tested.value = compared.inObject last d name obj := by
  unfold reachedObject inObject
  cases h with
  | atEnd => exact map_value_atField mix _
  | onward hd =>
    cases obj.getField name with
    | none => rfl
    | some v =>
      cases v with
      | object o => exact hd false o
      | array a => exact hd true a
      | _ => rfl

theorem map_value_reachedMembers (h : Follows Tests d last r) (name : Name) (obj : Obj) :
    (obj.fields.flatMap (reachedMember (c.reachedObject mix r name) name)).map Tested.value =
      compared.inElements last d name obj := by
  unfold inElements
  rw [map_flatMap]
  refine flatMap_congr fun f _ => ?_
  unfold reachedMember member
  rw [map_append]
  congr 1
  · split <;> rfl
  · cases f.2 with
    | object o => exact map_value_reachedObject mix h name o
    | _ => rfl

theorem map_value_reached (name : Name) (rest : List Name) (arr : Bool) (obj : Obj) :
    (c.reached mix name rest arr obj).map Tested.value = compared.collect name rest arr obj := by
  induction rest generalizing name arr obj with
  | nil =>
    have hd : Follows Tests (fun _ _ => []) true none := .atEnd
    unfold reached collect
    cases arr with
    | false => exact map_value_reachedObject mix hd name obj
    | true => exact map_value_reachedMembers mix hd name obj
  | cons name' rest ih =>
    have hd : Follows Tests (compared.collect name' rest) false (some (c.reached mix name' rest)) :=
      .onward (ih name')
    unfold reached collect
    cases arr with
    | false => exact map_value_reachedObject mix hd name obj
    | true =>
      simp only [step, inArray, reachedArray, if_true, Bool.false_eq_true, if_false]
      have hm := map_value_reachedMembers (c := c) mix hd name obj
      have hp : Tested.value ∘ Tested.place = Tested.value := rfl
      cases obj.getField name with
      | none => exact hm
      | some v =>
        cases v with
        | object o | array o => rw [map_map, hp, ih]
        | _ => exact hm

theorem execute_result_iff (hc : c.Equates) (name : Name) (rest : List Name) (obj : Obj) :
    (c.execute mix name rest false obj).result ↔
      (∃ v ∈ whole.collect name rest false obj, v.woCompare c.toMatch = .eq) ∨
        ∃ v ∈ early.collect name rest false obj, v.woCompare c.toMatch = .eq := by
  rw [execute_iff mix hc.direct]
  unfold Meets
  simp only [hc.valueMatch_iff, ← exists_or, ← or_and_right, ← compared_joins.mem_collect]
  rw [← map_value_reached (c := c) mix]
  simp only [mem_map, exists_exists_and_eq_and]

end Compared

/-! ### The flag of `_execute` -/

section Noticed

def Flags (out : Outcome) (noticed : List Element) : Prop :=
  out.result = false → (out.gotUndefined = true ↔ noticed = [])

variable {r : Option (Bool → Obj → Outcome)}

theorem flags_undefined : Flags ⟨false, true⟩ [] := fun _ => iff_of_true rfl rfl

theorem executeField_flags (hc : c.Equates) (e : Option Element) : Flags (c.executeField mix e) (ends e) := by
  unfold executeField
  rw [hc.not_accept]
  cases e with
  | none => exact flags_undefined
  | some v =>
    have hne : ends (some v) ≠ [] := by cases v <;> exact cons_ne_nil _ _
    intro _
    refine iff_of_false ?_ hne
    simp only [Option.isNone_some, Bool.false_and, Bool.false_eq_true, if_false]
    split
    · exact Bool.false_ne_true
    · split <;> exact Bool.false_ne_true

theorem executeObject_flags (hc : c.Equates) (h : Follows Flags d last r) (name : Name) (obj : Obj) :
    Flags (c.executeObject mix r name obj) (noticed.inObject last d name obj) := by
  unfold executeObject inObject
  cases h with
  | atEnd => exact executeField_flags mix hc _
  | onward hd =>
    rw [hc.not_accept]
    cases obj.getField name with
    | none => exact flags_undefined
    | some v =>
      cases v with
      | object o => exact hd false o
      | array a => exact hd true a
      | _ => exact flags_undefined

theorem arrayLoop_flags {inObj : Obj → Outcome} {ntc : Obj → List Element} (h : ∀ o, Flags (inObj o) (ntc o))
    (name : Name) (last : Bool) (fs : List (Name × Element)) (tmpUndefined : Bool) :
    (c.arrayLoop inObj name fs tmpUndefined).result = false →
      ((c.arrayLoop inObj name fs tmpUndefined).gotUndefined = true ↔
        tmpUndefined ∧ fs.flatMap (member (noticed.index last) ntc name) = []) := by
  induction fs generalizing tmpUndefined with
  | nil => simp [arrayLoop]
  | cons f fs ih =>
    obtain ⟨n, z⟩ := f
    unfold arrayLoop
    rw [flatMap_cons, append_eq_nil_iff, ← and_assoc]
    split
    · exact fun h' => absurd h'.symm Bool.false_ne_true
    · cases z with
      | object o =>
        dsimp only
        split
        · exact fun h' => absurd h'.symm Bool.false_ne_true
        · next ho =>
          have hm : member (noticed.index last) ntc name (n, .object o) = ntc o := by simp [member, noticed]
          rw [hm, ← h o (Bool.eq_false_iff.2 ho), ← Bool.and_eq_true]
          exact ih _
      | _ =>
        dsimp only
        have hm : ∀ z : Element, (if n = name then [z] else []) ++ [] = [] ↔ decide (n ≠ name) = true := by simp
        simp only [member, noticed, hm, ← Bool.and_eq_true]
        exact ih _

theorem executeArray_flags (hc : c.Equates) (h : Follows Flags d last r) (name : Name) (obj : Obj) :
    Flags (c.executeArray mix r name obj) (noticed.inArray last d name obj) := by
  have hl : Flags (c.arrayLoop (c.executeObject mix r name) name obj.fields true)
      (noticed.inElements last d name obj) := fun h' =>
    (arrayLoop_flags (executeObject_flags mix hc h name) name last obj.fields true h').trans (and_iff_right rfl)
  unfold executeArray inArray
  simp only [hc.not_accept, Bool.and_false, Bool.false_eq_true, if_false]
  cases h with
  | atEnd => exact hl
  | onward hd =>
    cases obj.getField name with
    | none => exact hl
    | some v =>
      cases v with
      | object o => exact hd false o
      | array a => exact hd true a
      | _ => exact hl

theorem execute_flags (hc : c.Equates) (name : Name) (rest : List Name) (arr : Bool) (obj : Obj) :
    Flags (c.execute mix name rest arr obj) (noticed.collect name rest arr obj) := by
  induction rest generalizing name arr obj with
  | nil =>
    have hd : Follows Flags (fun _ _ => []) true none := .atEnd
    unfold execute collect
    cases arr with
    | false => exact executeObject_flags mix hc hd name obj
    | true => exact executeArray_flags mix hc hd name obj
  | cons name' rest ih =>
    have hd : Follows Flags (noticed.collect name' rest) false (some (c.execute mix name' rest)) := .onward (ih name')
    unfold execute collect
    cases arr with
    | false => exact executeObject_flags mix hc hd name obj
    | true => exact executeArray_flags mix hc hd name obj

end Noticed

/-! ### The two operators -/

def et (x : Element) : Condition := ⟨.equality, x, fun _ => false⟩

def ne (x : Element) : Condition := ⟨.ne, x, fun _ => false⟩

private theorem exact_iff {V E N W : Prop} : ((V ∨ E ↔ V) ∧ (¬ N ∧ ¬ (V ∨ E) ↔ ¬ W ∧ ¬ V)) ↔ V ∨ ¬ E ∧ (N ↔ W) := by
  by_cases hV : V
  · simp [hV]
  · by_cases hE : E
    · simp [hV, hE]
    · simp [hV, hE, not_iff_not]

/-- Both operators answer for the values reached exactly if the operand is one of them, or if it is not met too early
and the path is taken for undefined only when it reaches nothing. -/
theorem accepts_values_iff (x : Element) (name : Name) (rest : List Name) (doc : Obj) :
    (((et x).accepts mixCmp name rest doc = true ↔ ∃ v ∈ whole.collect name rest false doc, v.woCompare x = .eq) ∧
      ((ne x).accepts mixCmp name rest doc = true ↔
        whole.collect name rest false doc ≠ [] ∧ ¬ ∃ v ∈ whole.collect name rest false doc, v.woCompare x = .eq)) ↔
    (∃ v ∈ whole.collect name rest false doc, v.woCompare x = .eq) ∨
      (¬ ∃ v ∈ early.collect name rest false doc, v.woCompare x = .eq) ∧
        (noticed.collect name rest false doc = [] ↔ whole.collect name rest false doc = []) := by
  have het := execute_result_iff (c := et x) mixCmp (.inl rfl) name rest doc
  have hresult := execute_result_iff (c := ne x) mixCmp (.inr rfl) name rest doc
  have hflag := execute_flags (c := ne x) mixCmp (.inr rfl) name rest false doc
  have hne : (ne x).accepts mixCmp name rest doc = true ↔
      noticed.collect name rest false doc ≠ [] ∧ ((ne x).execute mixCmp name rest false doc).result = false := by
    show (!_ && !_) = true ↔ _
    rw [Bool.and_eq_true, Bool.not_eq_true', Bool.not_eq_true']
    refine and_congr_left fun h => ?_
    rw [← Bool.not_eq_true, hflag h]
  rw [hne, ← Bool.not_eq_true, hresult]
  exact (and_congr_left' (iff_congr het Iff.rfl)).trans exact_iff

/-- `{"a.0.b": true}` matches `{a: [true]}`, where the path reaches nothing, and `{"a.0": {$ne: false}}` does not match
`{a: [{b: true}]}`, where it reaches an object. -/
theorem accepts_astray :
    let array (e : Element) : Obj := .cons [97] (.array (.cons [48] e .nil)) .nil
    let object : Element := .object (.cons [98] (.bool true) .nil)
    ((et (.bool true)).accepts false [97] [[48], [98]] (array (.bool true)) = true ∧
      whole.collect [97] [[48], [98]] false (array (.bool true)) = []) ∧
    (ne (.bool false)).accepts false [97] [[48]] (array object) = false ∧
      whole.collect [97] [[48]] false (array object) = [object] ∧ object.woCompare (.bool false) = .lt :=
  ⟨⟨rfl, rfl⟩, rfl, rfl, rfl⟩

end Condition

end SequoiaDB.Mth

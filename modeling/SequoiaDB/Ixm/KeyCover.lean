import SequoiaDB.Ixm.IndexKey
import SequoiaDB.Lib.KeptSet
import SequoiaDB.Mth.Reached

/-!
# Index keys and matches along a dotted path

The matcher and the key generator read a dotted path in two ways.  In an array the matcher takes a component for the
position of a member as well as for a field of the members that are objects; the key generator knows fields only.  And
where a path ends with a dot, the key generator has reached its end while the matcher looks for a field without a name.
-/

namespace SequoiaDB.Ixm

open Bson Mth Lib List

/-! ### The values reached by the names of fields -/

def objects (a : Obj) : List Obj := a.elements.filterMap fun
  | .object o => some o
  | _ => none

def orSelf (a : Obj) (l : List Element) : List Element := if a.elements = [] then [.array a] else l

/-- The values at the end of a path that is read as names of fields, also in the objects of an array; an array at the
end of the path stands for its members, an empty one wherever it is met for itself. -/
def named (name : Name) : List Name → Obj → List Element
  | [], o =>
    match o.getField name with
    | none => []
    | some (.array a) => orSelf a a.elements
    | some e => [e]
  | name' :: rest, o =>
    match o.getField name with
    | none => []
    | some (.array a) =>
      orSelf a (if Obj.atEnd (name' :: rest) then a.elements else (objects a).flatMap (named name' rest))
    | some e =>
      if Obj.atEnd (name' :: rest) then [e]
      else
        match e with
        | .object sub => named name' rest sub
        | _ => []

def namedBehind (rest : List Name) (a : Obj) : List Element :=
  match rest with
  | [] => a.elements
  | name :: rest => if Obj.atEnd (name :: rest) then a.elements else (objects a).flatMap (named name rest)

def namedIn (rest : List Name) (a : Obj) : List Element := orSelf a (namedBehind rest a)

def namedAt : Option Element × List Name → List Element
  | (none, _) => []
  | (some (.array a), rest) => namedIn rest a
  | (some e, _) => [e]

theorem named_eq (o : Obj) (name : Name) (rest : List Name) :
    named name rest o = namedAt (o.getFieldDottedOrArray name rest) := by
  induction rest generalizing o name with
  | nil =>
    unfold named Obj.getFieldDottedOrArray
    cases o.getField name with
    | none => rfl
    | some e => cases e <;> rfl
  | cons name' rest ih =>
    unfold named Obj.getFieldDottedOrArray
    cases o.getField name with
    | none => rfl
    | some e =>
      cases e with
      | array a => rfl
      | object sub =>
        dsimp only
        split
        · rfl
        · exact ih sub name'
      | _ =>
        dsimp only
        split <;> rfl

/-! ### The keys of an index with one field -/

def Key.woCompare : Key → Key → Ordering
  | [], [] => .eq
  | [], _ :: _ => .lt
  | _ :: _, [] => .gt
  | l :: ls, r :: rs => (l.woCompare r).then (Key.woCompare ls rs)

def Key.same (l r : Key) : Prop := Key.woCompare l r ≠ .lt ∧ Key.woCompare r l ≠ .lt

theorem Key.woCompare_single (l r : Element) : Key.woCompare [l] [r] = l.woCompare r := by
  show (l.woCompare r).then .eq = _
  cases l.woCompare r <;> rfl

theorem Key.same_single {l r : Element} : Key.same [l] [r] ↔ l.woCompare r = .eq := by
  unfold Key.same
  rw [Key.woCompare_single, Key.woCompare_single, Element.woCompare_swap l r]
  cases l.woCompare r <;> simp [Ordering.swap]

def ofType (t : ℤ) (l : List Element) : List Element := l.filter fun e => e.canonicalType = t

theorem ofType_append (t : ℤ) (l l' : List Element) : ofType t (l ++ l') = ofType t l ++ ofType t l' :=
  filter_append ..

variable {t : ℤ}

def KeysOf (t : ℤ) (keys : List Key) (l : List Element) : Prop :=
  ∃ vs : List Element, keys = vs.map (fun v => [v]) ∧ ofType t vs = ofType t l

theorem KeysOf.append {keys keys' : List Key} {l l' : List Element} (h : KeysOf t keys l) (h' : KeysOf t keys' l') :
    KeysOf t (keys ++ keys') (l ++ l') := by
  obtain ⟨vs, rfl, hvs⟩ := h
  obtain ⟨vs', rfl, hvs'⟩ := h'
  exact ⟨vs ++ vs', by rw [map_append], by rw [ofType_append, ofType_append, hvs, hvs']⟩

theorem KeysOf.flatMap {ι : Type*} {f : ι → List Key} {g : ι → List Element} {l : List ι}
    (h : ∀ i ∈ l, KeysOf t (f i) (g i)) : KeysOf t (l.flatMap f) (l.flatMap g) := by
  induction l with
  | nil => exact ⟨[], rfl, rfl⟩
  | cons i l ih =>
    rw [flatMap_cons, flatMap_cons]
    exact (h i mem_cons_self).append (ih fun j hj => h j (mem_cons_of_mem i hj))

theorem KeysOf.map (l : List Element) : KeysOf t (l.map fun e => [e]) l := ⟨l, rfl, rfl⟩

theorem keysOf_undefined (ht : t ≠ 0) : KeysOf t [[.undefined]] [] :=
  ⟨[.undefined], rfl, filter_cons_of_neg (by simp [Element.canonicalType, ht.symm])⟩

theorem flatMap_objects (a : Obj) (g : Obj → List Element) :
    (objects a).flatMap g = a.elements.flatMap fun | .object o => g o | _ => [] := by
  unfold objects
  induction a.elements with
  | nil => rfl
  | cons e l ih =>
    rw [flatMap_cons, ← ih]
    cases e <;> rfl

variable {l : List Element}

theorem keysOf_orSelf {arr : Obj} {keys : List Key} (h : KeysOf t keys l) (he : arr.elements = [] → keys = []) :
    KeysOf t ((if arr.elements = [] then [[.array arr]] else []) ++ keys) (orSelf arr l) := by
  unfold orSelf
  split
  · next harr =>
    rw [he harr]
    exact KeysOf.map [.array arr]
  · exact h

theorem genKeyWithArrayEle_keysOf (ht : t ≠ 0) (e : Option Element) (arr : Obj) (rest : List Name) :
    KeysOf t (genKeyWithArrayEle [e] 0 arr rest) (namedIn rest arr) := by
  induction hn : rest.length using Nat.strong_induction_on generalizing arr rest with
  | _ n ih =>
    unfold genKeyWithArrayEle
    refine keysOf_orSelf (l := namedBehind rest arr) ?_ fun h => by split <;> rw [h] <;> rfl
    split
    · exact KeysOf.map arr.elements
    · exact KeysOf.map arr.elements
    · next name rest hne =>
      have he : Obj.atEnd (name :: rest) = false := by
        cases rest with
        | nil =>
          cases name with
          | nil => exact (hne rfl rfl).elim
          | cons _ _ => rfl
        | cons _ _ => cases name <;> rfl
      unfold namedBehind
      simp only [he, Bool.false_eq_true, if_false]
      rw [flatMap_objects]
      refine KeysOf.flatMap fun next _ => ?_
      cases next with
      | object o =>
        dsimp only
        rw [named_eq]
        split
        · next a rest' h =>
          have hl : rest'.length < n := by
            have := o.length_getFieldDottedOrArray name rest
            rw [h] at this
            rw [← hn, length_cons]
            exact Nat.lt_succ_of_le this
          rw [h]
          exact ih _ hl a rest' rfl
        · next e' rest' hnot h =>
          rw [h]
          cases e' with
          | none => exact keysOf_undefined ht
          | some v =>
            cases v with
            | array a => exact absurd rfl (hnot a)
            | _ => exact KeysOf.map [_]
      | _ => exact keysOf_undefined ht

theorem getKeys_keysOf (ht : t ≠ 0) (f : FieldName) (obj : Obj) :
    ∃ keys, getKeys [f] obj = .ok keys ∧ KeysOf t keys (named f.name f.rest obj) := by
  rw [named_eq]
  unfold getKeys scanFields scanFields
  match h : obj.getFieldDottedOrArray f.name f.rest with
  | (none, _) => exact ⟨_, rfl, keysOf_undefined ht⟩
  | (some e, rest) =>
    cases e with
    | array a => exact ⟨_, rfl, genKeyWithArrayEle_keysOf ht _ a rest⟩
    | _ => exact ⟨_, rfl, KeysOf.map [_]⟩

/-! ### Keys that are equal to a value -/

/-- A value equal to `x` stands in the list, and whatever stands before it and is equal to it is equal to `x`, too. -/
def Secured (x : Element) (l : List Element) : Prop :=
  ∃ a v b, l = a ++ v :: b ∧ v.woCompare x = .eq ∧ ∀ k ∈ a, k.woCompare v = .eq → k.woCompare x = .eq

variable {x : Element}

theorem secured_ofType : Secured x (ofType x.canonicalType l) ↔ Secured x l := by
  have ht : ∀ {v w : Element}, v.woCompare w = .eq → v.canonicalType = w.canonicalType := fun h =>
    (Element.woCompare_eq_iff.1 h).1
  constructor
  · rintro ⟨a, v, b, hl, hv, hs⟩
    obtain ⟨l1, l2, rfl, rfl, h2⟩ := filter_eq_append_iff.1 hl
    obtain ⟨c, b', rfl, hc, -, -⟩ := filter_eq_cons_iff.1 h2
    refine ⟨l1 ++ c, v, b', by rw [append_assoc], hv, fun k hk hkv => ?_⟩
    have hkx : k.canonicalType = x.canonicalType := (ht hkv).trans (ht hv)
    rcases mem_append.1 hk with hk | hk
    · exact hs k (mem_filter.2 ⟨hk, by simpa using hkx⟩) hkv
    · exact absurd (by simpa using hkx) (hc k hk)
  · rintro ⟨a, v, b, rfl, hv, hs⟩
    refine ⟨ofType x.canonicalType a, v, ofType x.canonicalType b, ?_, hv, fun k hk => hs k (mem_filter.1 hk).1⟩
    unfold ofType
    rw [filter_append, filter_cons_of_pos (by simpa using ht hv)]

theorem exists_secured_iff (hx : x.canonicalType ≠ 0) (f : FieldName) (obj : Obj) :
    (∃ generated, getKeys [f] obj = .ok generated ∧
        ∀ keys, Inserted Key.same [] generated keys → ∃ k ∈ keys, Key.woCompare k [x] = .eq) ↔
      Secured x (named f.name f.rest obj) := by
  obtain ⟨_, hkeys, vs, rfl, hvs⟩ := getKeys_keysOf hx f obj
  rw [← secured_ofType, ← hvs, secured_ofType, hkeys]
  simp only [Except.ok.injEq, exists_eq_left']
  rw [forall_inserted_iff]
  constructor
  · rintro ⟨a, k, b, hl, hk, hs⟩
    obtain ⟨a', c, rfl, rfl, hc⟩ := map_eq_append_iff.1 hl
    obtain ⟨v, b', rfl, rfl, -⟩ := map_eq_cons_iff.1 hc
    rw [Key.woCompare_single] at hk
    refine ⟨a', v, b', rfl, hk, fun w hw hwv => ?_⟩
    have hw' := hs [w] (mem_map_of_mem hw) (Key.same_single.2 hwv)
    rwa [Key.woCompare_single] at hw'
  · rintro ⟨a, v, b, rfl, hv, hs⟩
    refine ⟨a.map (fun v => [v]), [v], b.map (fun v => [v]), by rw [map_append, map_cons], ?_, ?_⟩
    · rwa [Key.woCompare_single]
    · intro k hk hkv
      obtain ⟨w, hw, rfl⟩ := mem_map.1 hk
      rw [Key.woCompare_single]
      exact hs w hw (Key.same_single.1 hkv)

/-- A value equal to `x` stands in the list, but each of them is behind one that is equal to it and not to `x`. -/
def Shadowed (x : Element) (l : List Element) : Prop := (∃ v ∈ l, v.woCompare x = .eq) ∧ ¬ Secured x l

theorem Secured.exists_mem (h : Secured x l) : ∃ v ∈ l, v.woCompare x = .eq := by
  obtain ⟨a, v, b, rfl, hv, -⟩ := h
  exact ⟨v, by simp, hv⟩

/-! ### The two readings of a path -/

section Reached

variable {c : Condition} {mixCmp : Bool} {t : Tested} {d : Option (Bool → Obj → List Tested)} {name : Name}

theorem mem_objects {a o : Obj} : o ∈ objects a ↔ .object o ∈ a.elements := by
  unfold objects
  rw [mem_filterMap]
  constructor
  · rintro ⟨e, he, ho⟩
    cases e <;> cases ho
    exact he
  · exact fun h => ⟨_, h, rfl⟩

theorem exists_object_of_reachedArray (hp : t.placed = false) {a : Obj} (h : t ∈ c.reachedArray mixCmp d name a) :
    ∃ o ∈ objects a, t ∈ c.reachedObject mixCmp d name o := by
  have hplace : ∀ l : List Tested, t ∉ l.map Tested.place := by
    intro l hl
    obtain ⟨t', -, rfl⟩ := mem_map.1 hl
    cases hp
  unfold Condition.reachedArray at h
  split at h
  · exact absurd h (hplace _)
  · exact absurd h (hplace _)
  · obtain ⟨⟨n, e⟩, hf, ht⟩ := mem_flatMap.1 h
    unfold Condition.reachedMember at ht
    rcases mem_append.1 ht with ht | ht
    · split_ifs at ht
      · rw [mem_singleton.1 ht] at hp
        cases hp
      · cases ht
    · cases e with
      | object o => exact ⟨o, mem_objects.2 (mem_map.2 ⟨_, hf, rfl⟩), ht⟩
      | _ => cases ht

theorem orSelf_of_mem {a : Obj} {l : List Element} {v : Element} (hv : v ∈ a.elements) : orSelf a l = l :=
  if_neg (ne_nil_of_mem hv)

theorem mem_named_of_atField (hv : ∀ a, t.value ≠ .array a) {o : Obj} (h : t ∈ c.atField mixCmp (o.getField name)) :
    t.value ∈ named name [] o := by
  unfold named
  unfold Condition.atField at h
  cases hf : o.getField name with
  | none => simp [hf] at h
  | some e =>
    cases e with
    | array a =>
      simp only [hf, mem_cons, mem_map] at h
      rcases h with rfl | ⟨e, he, rfl⟩
      · exact absurd rfl (hv a)
      · show e ∈ orSelf a a.elements
        rwa [orSelf_of_mem he]
    | _ =>
      simp only [hf, mem_singleton] at h
      simp [h]

theorem not_atEnd {name' : Name} {rest : List Name} (h : (name' :: rest).getLast? ≠ some []) :
    Obj.atEnd (name' :: rest) = false := by
  unfold Obj.atEnd
  split
  · cases ‹_ = []›
  · next heq => exact absurd (congrArg getLast? heq) h
  · rfl

theorem getLast?_tail {name' : Name} {rest : List Name} (h : (name' :: rest).getLast? ≠ some []) :
    rest.getLast? ≠ some [] := by
  cases rest with
  | nil => exact nofun
  | cons _ _ => rwa [getLast?_cons_cons] at h

/-- What the matcher compares is reached by the names of fields, unless it is at the position of an array or the path ends
with a dot. -/
theorem mem_named_of_reached {rest : List Name} (hdot : rest.getLast? ≠ some []) (hp : t.placed = false)
    (hv : ∀ a, t.value ≠ .array a) {o : Obj} (h : t ∈ c.reached mixCmp name rest false o) :
    t.value ∈ named name rest o := by
  induction rest generalizing name o with
  | nil => exact mem_named_of_atField hv h
  | cons name' rest ih =>
    unfold Condition.reached Condition.reachedObject at h
    unfold named
    cases hf : o.getField name with
    | none => simp [hf] at h
    | some e =>
      rw [not_atEnd hdot]
      cases e with
      | object sub => exact ih (getLast?_tail hdot) (by simpa [hf] using h)
      | array a =>
        have ha : t ∈ c.reached mixCmp name' rest true a := by simpa [hf] using h
        obtain ⟨sub, hsub, ht⟩ : ∃ sub ∈ objects a, t ∈ c.reached mixCmp name' rest false sub := by
          cases rest with
          | nil => exact exists_object_of_reachedArray (d := none) hp ha
          | cons n rest => exact exists_object_of_reachedArray (d := some (c.reached mixCmp n rest)) hp ha
        simp only [orSelf_of_mem (mem_objects.1 hsub)]
        exact mem_flatMap.2 ⟨sub, hsub, ih (getLast?_tail hdot) ht⟩
      | _ => simp [hf] at h

end Reached

/-! ### Matches -/

def equals (x : Element) : Condition := ⟨.equality, x, fun _ => false⟩

theorem direct_equals (x : Element) : (equals x).Direct := by
  refine ⟨?_, ?_, ?_, ?_⟩ <;> exact nofun

theorem valueMatch_equals (mix : Bool) (v : Element) : (equals x).valueMatch mix (some v) ↔ v.woCompare x = .eq := by
  show (decide (v.canonicalType = x.canonicalType) && compareElementValues v x == .eq) = true ↔ _
  rw [Element.woCompare_eq_iff, Bool.and_eq_true, decide_eq_true_iff, beq_iff_eq]

/-- The values that the matcher compares with the operand. -/
def tested (x : Element) (f : FieldName) (mixCmp : Bool) (doc : Obj) : List Tested :=
  (equals x).reached mixCmp f.name f.rest false doc

theorem accepts_equals_iff (mixCmp : Bool) (f : FieldName) (doc : Obj) :
    (equals x).accepts mixCmp f.name f.rest doc ↔ ∃ t ∈ tested x f mixCmp doc, t.value.woCompare x = .eq := by
  show ((equals x).execute mixCmp f.name f.rest false doc).result = true ↔ _
  rw [Condition.execute_iff mixCmp (direct_equals x)]
  unfold Condition.Meets tested
  simp only [valueMatch_equals]

/-- **Index keys cover matches.**  For an index on one path and a value `x` that is no array, not null and not undefined,
the keys of a document that matches `{path: x}` are sure to hold one equal to `x` exactly if: where the match is at the
position of an array, or the path ends with a dot, a value equal to `x` is also reached by the names of fields, and in no
match are the values equal to `x` shadowed by others. -/
theorem keys_cover_matches_iff (f : FieldName) (_hf : validateKeyDef f = true) (mixCmp : Bool) (doc : Obj) (x : Element)
    (hx : x.canonicalType ≠ 0 ∧ x.canonicalType ≠ 5 ∧ x.canonicalType ≠ 25) :
    ((equals x).accepts mixCmp f.name f.rest doc = true →
        ∃ generated, getKeys [f] doc = .ok generated ∧
          ∀ keys, Inserted Key.same [] generated keys → ∃ k ∈ keys, Key.woCompare k [x] = .eq) ↔
      ∀ t ∈ tested x f mixCmp doc, t.value.woCompare x = .eq →
        (t.placed = true ∨ f.rest.getLast? = some [] → ∃ v ∈ named f.name f.rest doc, v.woCompare x = .eq) ∧
          ¬ Shadowed x (named f.name f.rest doc) := by
  rw [accepts_equals_iff, exists_secured_iff hx.1]
  constructor
  · intro himp t ht heq
    have hs := himp ⟨t, ht, heq⟩
    exact ⟨fun _ => hs.exists_mem, fun h => h.2 hs⟩
  · rintro hall ⟨t, ht, heq⟩
    obtain ⟨hex, hno⟩ := hall t ht heq
    by_contra hs
    refine hno ⟨?_, hs⟩
    by_cases hp : t.placed = true ∨ f.rest.getLast? = some []
    · exact hex hp
    · obtain ⟨hplaced, hdot⟩ := not_or.1 hp
      have harr : ∀ a, t.value ≠ .array a := fun a ha => hx.2.2 ((ha ▸ Element.woCompare_eq_iff.1 heq).1.symm)
      exact ⟨t.value, mem_named_of_reached hdot (Bool.not_eq_true _ ▸ hplaced) harr ht, heq⟩

/-- `{a: [{b: 5}]}`, the index on `a.b` and the condition `{"a.b": 5}`. -/
theorem keys_cover_matches_in_objects :
    (equals (.int 5)).accepts false [97] [[98]]
        (.cons [97] (.array (.cons [48] (.object (.cons [98] (.int 5) .nil)) .nil)) .nil) = true ∧
      ∃ generated, getKeys [⟨[97], [[98]]⟩]
          (.cons [97] (.array (.cons [48] (.object (.cons [98] (.int 5) .nil)) .nil)) .nil) = .ok generated ∧
        ∀ keys, Inserted Key.same [] generated keys → ∃ k ∈ keys, Key.woCompare k [.int 5] = .eq := by
  refine ⟨by decide +kernel, (keys_cover_matches_iff ⟨[97], [[98]]⟩ (by decide +kernel) false _ (.int 5) ?_).2 ?_
    (by decide +kernel)⟩
  · decide
  · refine fun t _ _ => ⟨fun _ => ⟨.int 5, mem_singleton.2 rfl, by decide +kernel⟩, fun h => h.2 ?_⟩
    exact ⟨[], .int 5, [], rfl, by decide +kernel, nofun⟩

/-- `{a: [5]}` matches `{"a.0": 5}`, but its only key for the path `a.0` is undefined.  `{a: [x, y]}` matches `{a: z}`
for the decimal `y` that equals the doubles `x` and `z`, but its only key is `x`, which is less than `z`. -/
theorem keys_miss_matches :
    ((equals (.int 5)).accepts false [97] [[48]] (.cons [97] (.array (.cons [48] (.int 5) .nil)) .nil) = true ∧
      getKeys [⟨[97], [[48]]⟩] (.cons [97] (.array (.cons [48] (.int 5) .nil)) .nil) = .ok [[.undefined]] ∧
      Inserted Key.same [] [[.undefined]] [[.undefined]] ∧
      Key.woCompare [.undefined] [.int 5] = .lt) ∧
    ((equals (.double ⟨0x3FB999999999999B#64⟩)).accepts false [97] [] (.cons [97] (.array
        (.cons [48] (.double ⟨0x3FB999999999999A#64⟩) (.cons [49] (.decimal (.num false (-1) [1000])) .nil))) .nil) = true ∧
      getKeys [⟨[97], []⟩] (.cons [97] (.array
        (.cons [48] (.double ⟨0x3FB999999999999A#64⟩) (.cons [49] (.decimal (.num false (-1) [1000])) .nil))) .nil) =
          .ok [[.double ⟨0x3FB999999999999A#64⟩], [.decimal (.num false (-1) [1000])]] ∧
      Inserted Key.same [] [[.double ⟨0x3FB999999999999A#64⟩], [.decimal (.num false (-1) [1000])]]
        [[.double ⟨0x3FB999999999999A#64⟩]] ∧
      Key.woCompare [.double ⟨0x3FB999999999999A#64⟩] [.double ⟨0x3FB999999999999B#64⟩] = .lt) := by
  refine ⟨⟨by decide +kernel, ?_, .keep (.nil _), by decide +kernel⟩, by decide +kernel, ?_, ?_, by decide +kernel⟩
  · show Except.ok (genKeyWithArrayEle _ 0 _ [[48]]) = _
    rw [genKeyWithArrayEle]
    · rfl
    · simp
  · show Except.ok (genKeyWithArrayEle _ 0 _ []) = _
    rw [genKeyWithArrayEle]
    rfl
  · exact .keep (.drop mem_cons_self (Key.same_single.2 (by decide +kernel)) (.nil _))

end SequoiaDB.Ixm

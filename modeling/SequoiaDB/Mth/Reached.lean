import SequoiaDB.Mth.Match

/-!
# The values that a condition looks at

For the operators that compare element by element a document is accepted exactly if one of the values that the path
reaches is.  At the end of the path these are the element and the members of an array.  On the way an array gives the
member at a position, and what the path reaches in its objects.
-/

namespace SequoiaDB.Mth

open Bson

/-- A value that is compared, whether the comparison may mix types, and whether a component of the path has been taken
for the position of a member in an array. -/
structure Tested where
  mix : Bool
  placed : Bool
  value : Element

def Tested.place (t : Tested) : Tested := { t with placed := true }

namespace Condition

def Direct (c : Condition) : Prop :=
  c.opType ≠ .opIN ∧ c.opType ≠ .opALL ∧ c.opType ≠ .opEXISTS ∧ c.opType ≠ .opISNULL

variable (c : Condition) (mixCmp : Bool)

def innerMixCmp : Bool :=
  match c.toMatch with
  | .array _ => false
  | _ => mixCmp

def atField : Option Element → List Tested
  | none => []
  | some (.array a) => ⟨mixCmp, false, .array a⟩ :: a.elements.map (Tested.mk (c.innerMixCmp mixCmp) false)
  | some e => [⟨mixCmp, false, e⟩]

def reachedObject (descend : Option (Bool → Obj → List Tested)) (name : Name) (obj : Obj) : List Tested :=
  match descend, obj.getField name with
  | some d, some (.object o) => d false o
  | some d, some (.array a) => d true a
  | some _, _ => []
  | none, e => atField c mixCmp e

/-- The values compared for a member of an array: itself if it has the name, also when the path goes on behind it. -/
def reachedMember (inObject : Obj → List Tested) (name : Name) (f : Name × Element) : List Tested :=
  (if f.1 = name then [⟨false, true, f.2⟩] else []) ++
    match f.2 with
    | .object o => inObject o
    | _ => []

def reachedArray (descend : Option (Bool → Obj → List Tested)) (name : Name) (obj : Obj) : List Tested :=
  match descend, obj.getField name with
  | some d, some (.object o) => (d false o).map Tested.place
  | some d, some (.array a) => (d true a).map Tested.place
  | _, _ => obj.fields.flatMap (reachedMember (reachedObject c mixCmp descend name) name)

def reached (name : Name) : List Name → Bool → Obj → List Tested
  | [], isArrayObj, obj =>
    if isArrayObj then reachedArray c mixCmp none name obj else reachedObject c mixCmp none name obj
  | name' :: rest, isArrayObj, obj =>
    if isArrayObj then reachedArray c mixCmp (some (reached name' rest)) name obj
    else reachedObject c mixCmp (some (reached name' rest)) name obj

def Meets (l : List Tested) : Prop := ∃ t ∈ l, c.valueMatch t.mix (some t.value) = true

variable {c}

theorem meets_nil : ¬ c.Meets [] := fun ⟨_, h, _⟩ => absurd h List.not_mem_nil

theorem meets_append {l l' : List Tested} : c.Meets (l ++ l') ↔ c.Meets l ∨ c.Meets l' := by
  unfold Meets
  simp only [List.mem_append, or_and_right, exists_or]

variable {l : List Tested}

theorem meets_cons {t : Tested} : c.Meets (t :: l) ↔ c.valueMatch t.mix (some t.value) ∨ c.Meets l := by
  unfold Meets
  simp only [List.mem_cons, or_and_right, exists_or, exists_eq_left]

theorem meets_place : c.Meets (l.map Tested.place) ↔ c.Meets l := by
  unfold Meets
  simp only [List.mem_map, exists_exists_and_eq_and, Tested.place]

theorem meets_members {m : Bool} {l : List Element} :
    c.Meets (l.map (Tested.mk m false)) ↔ l.any (fun e => c.valueMatch m (some e)) = true := by
  unfold Meets
  simp only [List.mem_map, exists_exists_and_eq_and, List.any_eq_true]

theorem Direct.not_accept (hc : c.Direct) : c.flagAcceptUndefined = false := by
  obtain ⟨-, -, h3, h4⟩ := hc
  simp [flagAcceptUndefined, h3, h4]

theorem executeField_iff (hc : c.Direct) (e : Option Element) :
    (c.executeField mixCmp e).result ↔ c.Meets (c.atField mixCmp e) := by
  unfold executeField
  rw [hc.not_accept]
  cases e with
  | none => exact iff_of_false Bool.false_ne_true meets_nil
  | some v =>
    obtain ⟨h1, h2, h3, h4⟩ := hc
    have hm : ∀ a, c.Meets (c.atField mixCmp (some (.array a))) ↔
        c.valueMatch mixCmp (some (.array a)) = true ∨
          a.elements.any (fun e => c.valueMatch (c.innerMixCmp mixCmp) (some e)) = true := fun a => by
      unfold atField
      rw [meets_cons, meets_members]
    simp only [Option.isNone_some, Bool.false_and, Bool.false_eq_true, if_false, h1, h2, h3, h4, false_or]
    cases v with
    | array a =>
      rw [hm]
      split
      · next h => exact iff_of_true h (.inl h)
      · next h =>
        rw [or_iff_right h]
        unfold innerMixCmp
        cases c.toMatch <;> rfl
    | _ =>
      show _ ↔ c.Meets [_]
      rw [meets_cons, or_iff_left meets_nil]
      split
      · exact Iff.rfl
      · next h => exact iff_of_false Bool.false_ne_true h

def Descends (c : Condition) : Option (Bool → Obj → Outcome) → Option (Bool → Obj → List Tested) → Prop
  | none, none => True
  | some d, some d' => ∀ b o, (d b o).result = true ↔ c.Meets (d' b o)
  | _, _ => False

variable {d : Option (Bool → Obj → Outcome)} {d' : Option (Bool → Obj → List Tested)}

theorem executeObject_iff (hc : c.Direct) (h : c.Descends d d') (name : Name) (obj : Obj) :
    (c.executeObject mixCmp d name obj).result ↔ c.Meets (c.reachedObject mixCmp d' name obj) := by
  unfold executeObject reachedObject
  cases d with
  | none =>
    cases d' with
    | none => exact executeField_iff mixCmp hc _
    | some _ => exact h.elim
  | some d =>
    cases d' with
    | none => exact h.elim
    | some d' =>
      rw [hc.not_accept]
      cases obj.getField name with
      | none => exact iff_of_false Bool.false_ne_true meets_nil
      | some e =>
        cases e with
        | object o => exact h false o
        | array a => exact h true a
        | _ => exact iff_of_false Bool.false_ne_true meets_nil

theorem meets_reachedMember {inObject : Obj → List Tested} {name n : Name} {z : Element} :
    c.Meets (reachedMember inObject name (n, z)) ↔
      (n = name ∧ c.valueMatch false (some z)) ∨ ∃ o, z = .object o ∧ c.Meets (inObject o) := by
  unfold reachedMember
  rw [meets_append]
  refine or_congr ?_ ?_
  · dsimp only
    split
    · next hn => rw [meets_cons, or_iff_left meets_nil, and_iff_right hn]
    · next hn => exact iff_of_false meets_nil fun h => hn h.1
  · cases z with
    | object o => exact ⟨fun h => ⟨o, rfl, h⟩, fun ⟨_, heq, h⟩ => Element.object.inj heq ▸ h⟩
    | _ => exact iff_of_false meets_nil fun ⟨_, heq, _⟩ => by cases heq

theorem arrayLoop_iff {inObject : Obj → Outcome} {inObject' : Obj → List Tested}
    (h : ∀ o, (inObject o).result ↔ c.Meets (inObject' o)) (name : Name) (fs : List (Name × Element))
    (tmpUndefined : Bool) :
    (c.arrayLoop inObject name fs tmpUndefined).result ↔ c.Meets (fs.flatMap (reachedMember inObject' name)) := by
  induction fs generalizing tmpUndefined with
  | nil => exact iff_of_false Bool.false_ne_true meets_nil
  | cons f fs ih =>
    obtain ⟨n, z⟩ := f
    rw [List.flatMap_cons, meets_append, meets_reachedMember]
    unfold arrayLoop
    split
    · next hz => exact iff_of_true rfl (.inl (.inl hz))
    · next hz =>
      rw [or_iff_right hz]
      cases z with
      | object o =>
        dsimp only
        split
        · next ho => exact iff_of_true rfl (.inl ⟨o, rfl, (h o).1 ho⟩)
        · next ho =>
          rw [ih, or_iff_right]
          rintro ⟨_, heq, hm⟩
          exact ho ((h o).2 (Element.object.inj heq ▸ hm))
      | _ =>
        dsimp only
        rw [ih, or_iff_right]
        rintro ⟨_, heq, -⟩
        cases heq

theorem executeArray_iff (hc : c.Direct) (h : c.Descends d d') (name : Name) (obj : Obj) :
    (c.executeArray mixCmp d name obj).result ↔ c.Meets (c.reachedArray mixCmp d' name obj) := by
  have hl := arrayLoop_iff (c := c) (fun o => executeObject_iff mixCmp hc h name o) name obj.fields true
  unfold executeArray reachedArray
  cases d with
  | none =>
    cases d' with
    | none => simpa only [hc.not_accept, Bool.and_false, Bool.false_eq_true, if_false] using hl
    | some _ => exact h.elim
  | some d =>
    cases d' with
    | none => exact h.elim
    | some d' =>
      cases obj.getField name with
      | none => simpa only [hc.not_accept, Bool.and_false, Bool.false_eq_true, if_false] using hl
      | some e =>
        cases e with
        | object o => exact (h false o).trans meets_place.symm
        | array a => exact (h true a).trans meets_place.symm
        | _ => simpa only [hc.not_accept, Bool.and_false, Bool.false_eq_true, if_false] using hl

theorem execute_iff (hc : c.Direct) (name : Name) (rest : List Name) (isArrayObj : Bool) (obj : Obj) :
    (c.execute mixCmp name rest isArrayObj obj).result ↔ c.Meets (c.reached mixCmp name rest isArrayObj obj) := by
  induction rest generalizing name isArrayObj obj with
  | nil =>
    have hd : c.Descends none none := trivial
    unfold execute reached
    cases isArrayObj with
    | false => exact executeObject_iff mixCmp hc hd name obj
    | true => exact executeArray_iff mixCmp hc hd name obj
  | cons name' rest ih =>
    have hd : c.Descends (some (c.execute mixCmp name' rest)) (some (c.reached mixCmp name' rest)) := ih name'
    unfold execute reached
    cases isArrayObj with
    | false => exact executeObject_iff mixCmp hc hd name obj
    | true => exact executeArray_iff mixCmp hc hd name obj

end Condition

end SequoiaDB.Mth

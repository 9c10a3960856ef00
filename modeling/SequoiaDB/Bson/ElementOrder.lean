import SequoiaDB.Bson.NumberOrder

/-!
# Turning comparisons round

`BSONElement::woCompare` is antisymmetric on all elements, also on those where it is not transitive, so that "neither is
less" is the same as "the comparison gives zero".
-/

namespace SequoiaDB.Bson

open Element

theorem memcmp_swap (l r : List UInt8) : memcmp r l = (memcmp l r).swap := by
  unfold memcmp
  exact Std.OrientedCmp.eq_swap

theorem strcmp_swap (l r : List UInt8) : strcmp r l = (strcmp l r).swap := memcmp_swap (cstr l) (cstr r)

namespace Element

theorem isNumber_iff {e : Element} : e.isNumber ↔ e.canonicalType = 10 := by
  cases e <;> simp [isNumber, canonicalType]

theorem compareTimestamps_swap (secs inc secs' inc' : BitVec 32) :
    compareTimestamps secs' inc' secs inc = (compareTimestamps secs inc secs' inc').swap := by
  rw [compareTimestamps_eq, compareTimestamps_eq]
  exact Std.OrientedCmp.eq_swap

theorem orderBy_swap {l r : Element} {names names' values values' : Ordering} (hn : names' = names.swap)
    (hv : l.canonicalType = r.canonicalType → values' = values.swap) :
    r.orderBy l names' values' = (l.orderBy r names values).swap := by
  unfold orderBy
  have hc : compare r.canonicalType l.canonicalType = (compare l.canonicalType r.canonicalType).swap :=
    Std.OrientedCmp.eq_swap
  by_cases h : l.canonicalType = r.canonicalType
  · have hlr : compare l.canonicalType r.canonicalType = .eq := by rw [h]; exact Std.ReflCmp.compare_self
    simp only [hc, hlr, hn, hv h, Ordering.swap_eq, ne_eq, not_true_eq_false, false_and, if_false, Ordering.swap_then]
  · have hne : compare l.canonicalType r.canonicalType ≠ .eq := fun h' => h (Std.LawfulEqCmp.eq_of_compare h')
    have hne' : (compare l.canonicalType r.canonicalType).swap ≠ .eq := by
      intro h'
      apply hne
      rw [← Ordering.swap_swap (o := compare l.canonicalType r.canonicalType), h']
      rfl
    have hnum : ¬ (l.isNumber = true ∧ r.isNumber = true) := fun h' =>
      h ((isNumber_iff.1 h'.1).trans (isNumber_iff.1 h'.2).symm)
    have hnum' : ¬ (r.isNumber = true ∧ l.isNumber = true) := fun h' => hnum h'.symm
    rw [hc, if_pos ⟨hne', hnum'⟩, if_pos ⟨hne, hnum⟩]

end Element

theorem compareElementValues_swap_of_number {l r : Element} (hl : l.isNumber) (hr : r.isNumber) :
    compareElementValues r l = (compareElementValues l r).swap := by
  have hi : ∀ a b : ℤ, compare b a = (compare a b).swap := fun a b => Std.OrientedCmp.eq_swap
  cases l with
  | decimal d =>
    cases r with
    | int v | long v | double d' | decimal d' => exact decimalCmp_swap _ _
    | _ => cases hr
  | double d =>
    cases r with
    | decimal d' => exact decimalCmp_swap _ _
    | int v | long v | double v => exact compareNumbers_swap rfl nofun
    | _ => cases hr
  | int v | long v =>
    cases r with
    | decimal d' => exact decimalCmp_swap _ _
    | double d => exact Ordering.swap_eq_iff_eq_swap.1 (compareNumbers_swap rfl (fun _ h => by cases h)).symm
    | int w | long w => exact hi _ _
    | _ => cases hr
  | _ => cases hl

mutual

theorem compareElementValues_swap (l r : Element) (h : l.canonicalType = r.canonicalType) :
    compareElementValues r l = (compareElementValues l r).swap := by
  have hc : ∀ a b : ℤ, compare b a = (compare a b).swap := fun a b => Std.OrientedCmp.eq_swap
  have hl : ∀ a b : ℕ, compare b a = (compare a b).swap := fun a b => Std.OrientedCmp.eq_swap
  cases l with
  | int v | long v | double v | decimal v => exact compareElementValues_swap_of_number rfl (isNumber_iff.2 h.symm)
  | object o =>
    cases r with
    | object o' => exact compareFields_swap o o'
    | _ => simp [canonicalType] at h
  | array o =>
    cases r with
    | array o' => exact compareFields_swap o o'
    | _ => simp [canonicalType] at h
  | string s | symbol s =>
    cases r with
    | string s' | symbol s' => exact strcmp_swap _ _
    | _ => simp [canonicalType] at h
  | code s =>
    cases r with
    | code s' => exact strcmp_swap _ _
    | _ => simp [canonicalType] at h
  | binData t s =>
    cases r with
    | binData t' s' =>
      show Ordering.then _ _ = (Ordering.then _ _).swap
      rw [Ordering.swap_then, hl s.length, memcmp_swap (t :: s)]
    | _ => simp [canonicalType] at h
  | oid s =>
    cases r with
    | oid s' => exact memcmp_swap _ _
    | _ => simp [canonicalType] at h
  | bool b =>
    cases r with
    | bool b' => exact hl _ _
    | _ => simp [canonicalType] at h
  | date m =>
    cases r with
    | date m' => exact hc _ _
    | timestamp secs inc => exact (Ordering.swap_swap).symm
    | _ => simp [canonicalType] at h
  | timestamp secs inc =>
    cases r with
    | date m' => rfl
    | timestamp secs' inc' => exact compareTimestamps_swap ..
    | _ => simp [canonicalType] at h
  | regEx p f =>
    cases r with
    | regEx p' f' =>
      show Ordering.then _ _ = (Ordering.then _ _).swap
      rw [Ordering.swap_then, strcmp_swap p, strcmp_swap f]
    | _ => simp [canonicalType] at h
  | dbRef s =>
    cases r with
    | dbRef s' =>
      show Ordering.then _ _ = (Ordering.then _ _).swap
      rw [Ordering.swap_then, hl s.length, memcmp_swap s]
    | _ => simp [canonicalType] at h
  | codeWScope c s =>
    cases r with
    | codeWScope c' s' =>
      show Ordering.then _ _ = (Ordering.then _ _).swap
      rw [Ordering.swap_then, strcmp_swap c, strcmp_swap s]
    | _ => simp [canonicalType] at h
  | minKey | maxKey | undefined | null =>
    cases r with
    | minKey | maxKey | undefined | null => rfl
    | _ => simp [canonicalType] at h

theorem compareFields_swap (l r : Obj) : compareFields r l = (compareFields l r).swap := by
  cases l with
  | nil => cases r <;> rfl
  | cons n e o =>
    cases r with
    | nil => rfl
    | cons n' e' o' =>
      rw [compareFields, compareFields, Ordering.swap_then, compareFields_swap o o',
        orderBy_swap (strcmp_swap n n') (compareElementValues_swap e e')]

end

namespace Element

theorem woCompare_swap (l r : Element) : r.woCompare l = (l.woCompare r).swap :=
  orderBy_swap rfl (compareElementValues_swap l r)

variable {l r : Element}

theorem woCompare_of_ne (h : l.canonicalType ≠ r.canonicalType) :
    l.woCompare r = compare l.canonicalType r.canonicalType := by
  unfold woCompare orderBy
  have hne : compare l.canonicalType r.canonicalType ≠ .eq := fun h' => h (Std.LawfulEqCmp.eq_of_compare h')
  have hn : ¬ (l.isNumber = true ∧ r.isNumber = true) := fun h' =>
    h ((isNumber_iff.1 h'.1).trans (isNumber_iff.1 h'.2).symm)
  rw [if_pos ⟨hne, hn⟩]

theorem woCompare_of_eq (h : l.canonicalType = r.canonicalType) : l.woCompare r = compareElementValues l r := by
  unfold woCompare orderBy
  have heq : compare l.canonicalType r.canonicalType = .eq := by rw [h]; exact Std.ReflCmp.compare_self
  rw [heq, if_neg fun h' => h'.1 rfl]
  rfl

theorem woCompare_eq_iff :
    l.woCompare r = .eq ↔ l.canonicalType = r.canonicalType ∧ compareElementValues l r = .eq := by
  by_cases h : l.canonicalType = r.canonicalType
  · rw [woCompare_of_eq h, and_iff_right h]
  · rw [woCompare_of_ne h]
    exact ⟨fun h' => absurd (Std.LawfulEqCmp.eq_of_compare h') h, fun h' => absurd h'.1 h⟩

end Element

end SequoiaDB.Bson

import Mathlib

/-!
# Insertions in a set that drops equivalent elements

What `std::set` guarantees when its comparison is no strict weak order: an insertion leaves the element itself in the
set, or finds an equivalent one there.
-/

namespace SequoiaDB.Lib

open List

variable {α : Type*}

/-- `Inserted eqv s l t`: inserting the elements of `l` one by one in the set `s` may end with the set `t`. -/
inductive Inserted (eqv : α → α → Prop) : List α → List α → List α → Prop
  | nil (s : List α) : Inserted eqv s [] s
  | keep {s l t : List α} {x : α} : Inserted eqv (x :: s) l t → Inserted eqv s (x :: l) t
  | drop {s l t : List α} {x y : α} : y ∈ s → eqv y x → Inserted eqv s l t → Inserted eqv s (x :: l) t

variable {eqv : α → α → Prop} {s t a l : List α} {P : α → Prop}

theorem Inserted.subset (h : Inserted eqv s l t) : s ⊆ t := by
  induction h with
  | nil s => exact List.Subset.refl s
  | keep _ ih => exact List.Subset.trans (subset_cons_self _ _) ih
  | drop _ _ _ ih => exact ih

theorem Inserted.mem (h : Inserted eqv s l t) {k : α} (hk : k ∈ t) : k ∈ l ++ s := by
  induction h with
  | nil s => exact hk
  | keep _ ih =>
    have := ih hk
    simp only [mem_append, mem_cons, cons_append] at this ⊢
    tauto
  | drop _ _ _ ih => exact mem_cons_of_mem _ (ih hk)

theorem exists_inserted_subset (eqv : α → α → Prop) (s l : List α) : ∃ t, Inserted eqv s l t ∧ l ⊆ t := by
  induction l generalizing s with
  | nil => exact ⟨s, .nil s, nil_subset s⟩
  | cons x l ih =>
    obtain ⟨t, ht, hl⟩ := ih (x :: s)
    exact ⟨t, .keep ht, cons_subset.2 ⟨ht.subset mem_cons_self, hl⟩⟩

theorem Inserted.split (h : Inserted eqv s (a ++ l) t) : ∃ s', s' ⊆ a ++ s ∧ Inserted eqv s' l t := by
  induction a generalizing s with
  | nil => exact ⟨s, List.Subset.refl s, h⟩
  | cons x a ih =>
    cases h with
    | keep h =>
      obtain ⟨s', hs, h⟩ := ih h
      refine ⟨s', fun k hk => ?_, h⟩
      have := hs hk
      simp only [mem_append, mem_cons, cons_append] at this ⊢
      tauto
    | drop _ _ h =>
      obtain ⟨s', hs, h⟩ := ih h
      exact ⟨s', List.Subset.trans hs (subset_cons_self _ _), h⟩

theorem exists_inserted_not (done : List α) (hs : ∀ k ∈ s, ¬ P k) (hd : ∀ k ∈ done, ¬ P k → k ∈ s)
    (h : ∀ a v b, l = a ++ v :: b → P v → ∃ k ∈ done ++ a, eqv k v ∧ ¬ P k) :
    ∃ t, Inserted eqv s l t ∧ ∀ k ∈ t, ¬ P k := by
  induction l generalizing s done with
  | nil => exact ⟨s, .nil s, hs⟩
  | cons x l ih =>
    have hr : ∀ a v b, l = a ++ v :: b → P v → ∃ k ∈ (done ++ [x]) ++ a, eqv k v ∧ ¬ P k := by
      intro a v b hl hv
      obtain ⟨k, hk, hkv⟩ := h (x :: a) v b (by rw [hl]; rfl) hv
      exact ⟨k, by simpa using hk, hkv⟩
    by_cases hx : P x
    · obtain ⟨k, hk, hkx, hnot⟩ := h [] x l rfl hx
      have hm : k ∈ s := hd k (by simpa using hk) hnot
      obtain ⟨t, ht, hn⟩ := ih (done ++ [x]) hs (fun k hk hnot => (mem_append.1 hk).elim (fun h => hd k h hnot)
          fun h => absurd hx (mem_singleton.1 h ▸ hnot)) hr
      exact ⟨t, .drop hm hkx ht, hn⟩
    · obtain ⟨t, ht, hn⟩ := ih (s := x :: s) (done ++ [x]) (fun k hk => (mem_cons.1 hk).elim (fun h => h ▸ hx) (hs k))
        (fun k hk hnot => (mem_append.1 hk).elim (fun h => mem_cons_of_mem _ (hd k h hnot))
          fun h => mem_singleton.1 h ▸ mem_cons_self) hr
      exact ⟨t, .keep ht, hn⟩

theorem forall_inserted_iff :
    (∀ t, Inserted eqv [] l t → ∃ k ∈ t, P k) ↔ ∃ a v b, l = a ++ v :: b ∧ P v ∧ ∀ k ∈ a, eqv k v → P k := by
  constructor
  · intro ha
    by_contra hno
    obtain ⟨t, ht, hn⟩ : ∃ t, Inserted eqv [] l t ∧ ∀ k ∈ t, ¬ P k := exists_inserted_not []
      nofun nofun (by
        intro a v b hl hv
        by_contra hk
        refine hno ⟨a, v, b, hl, hv, fun k hka hkv => ?_⟩
        by_contra hnot
        exact hk ⟨k, hka, hkv, hnot⟩)
    obtain ⟨k, hk, hP⟩ := ha t ht
    exact hn k hk hP
  · rintro ⟨a, v, b, rfl, hv, hsafe⟩ t ht
    obtain ⟨s, hs, h⟩ := ht.split
    cases h with
    | keep h => exact ⟨v, h.subset mem_cons_self, hv⟩
    | drop hm he h =>
      have hka := hs hm
      rw [append_nil] at hka
      exact ⟨_, h.subset hm, hsafe _ hka he⟩

end SequoiaDB.Lib

import Mathlib

/-!
# Tilings of an interval

`Tiles size a os e` says that pieces that start at `os`, in this order, and have the lengths `size` cover the
interval from `a` to `e` without gap or overlap.  A piece can be cut in two, and a tiling can be extended at its end.
-/

namespace SequoiaDB.Lib

open List

/-- The pieces that start at `os` tile the interval from `a` to `e`. -/
def Tiles (size : Nat → Nat) : Nat → List Nat → Nat → Prop
  | a, [], e => a = e
  | a, o :: os, e => o = a ∧ 0 < size o ∧ Tiles size (a + size o) os e

namespace Tiles

variable {size size' : Nat → Nat} {a e m k o : Nat} {xs ys os : List Nat} (h : Tiles size a os e)

include h

theorem congr (hs : ∀ o ∈ os, size' o = size o) : Tiles size' a os e := by
  induction os generalizing a with
  | nil => exact h
  | cons o os ih =>
    obtain ⟨rfl, hp, hr⟩ := h
    have ho := hs o (mem_cons_self ..)
    refine ⟨rfl, by rw [ho]; exact hp, ?_⟩
    rw [ho]
    exact ih hr fun x hx => hs x (mem_cons_of_mem _ hx)

omit h in
theorem append_iff : Tiles size a (xs ++ ys) e ↔ ∃ m, Tiles size a xs m ∧ Tiles size m ys e := by
  induction xs generalizing a with
  | nil => simp [Tiles]
  | cons x xs ih =>
    rw [cons_append, Tiles, ih]
    constructor
    · rintro ⟨rfl, hp, m, h1, h2⟩
      exact ⟨m, ⟨rfl, hp, h1⟩, h2⟩
    · rintro ⟨m, ⟨rfl, hp, h1⟩, h2⟩
      exact ⟨rfl, hp, m, h1, h2⟩

theorem le : a ≤ e := by
  induction os generalizing a with
  | nil => exact Nat.le_of_eq h
  | cons o os ih =>
    have := ih h.2.2
    omega

theorem bounds (ho : o ∈ os) : a ≤ o ∧ 0 < size o ∧ o + size o ≤ e := by
  induction os generalizing a with
  | nil => cases ho
  | cons x xs ih =>
    obtain ⟨rfl, hp, hr⟩ := h
    rcases mem_cons.1 ho with rfl | ho
    · exact ⟨Nat.le_refl _, hp, hr.le⟩
    · have := ih hr ho
      omega

theorem pairwise : os.Pairwise fun o o' => o + size o ≤ o' := by
  induction os generalizing a with
  | nil => exact List.Pairwise.nil
  | cons o os ih =>
    obtain ⟨rfl, -, hr⟩ := h
    exact List.Pairwise.cons (fun o' ho' => (hr.bounds ho').1) (ih hr)

theorem nodup : os.Nodup := by
  refine h.pairwise.imp_of_mem fun {o o'} ho _ hle heq => ?_
  have := (h.bounds ho).2.1
  omega

theorem extend (hs : ∀ o ∈ os, size' o = size o) (hk : size' e = k) (hp : 0 < k) :
    Tiles size' a (os ++ [e]) (e + k) := by
  rw [append_iff]
  refine ⟨e, h.congr hs, rfl, by rw [hk]; exact hp, ?_⟩
  rw [hk]
  rfl

theorem not_mem_inside (ho : o ∈ os) (hk : 0 < k) (hlt : k < size o) : o + k ∉ os := by
  induction os generalizing a with
  | nil => cases ho
  | cons x xs ih =>
    obtain ⟨rfl, hpos, hr⟩ := h
    intro hm
    rcases mem_cons.1 ho with rfl | ho
    · rcases mem_cons.1 hm with heq | hm
      · omega
      · have := (hr.bounds hm).1
        omega
    · rcases mem_cons.1 hm with heq | hm
      · have := (hr.bounds ho).1
        omega
      · exact ih hr ho hm

omit h

theorem cut (h : Tiles size a (xs ++ o :: ys) e) (hk : 0 < k) (hlt : k < size o) (ho : size' o = k)
    (hn : size' (o + k) = size o - k) (hs : ∀ x ∈ xs ++ ys, size' x = size x) :
    Tiles size' a (xs ++ o :: (o + k) :: ys) e := by
  obtain ⟨m, h1, rfl, -, h2⟩ := append_iff.1 h
  refine append_iff.2 ⟨o, h1.congr fun x hx => hs x (mem_append_left _ hx), rfl, by omega, ?_, by omega, ?_⟩
  · rw [ho]
  · rw [ho, hn, show o + k + (size o - k) = o + size o by omega]
    exact h2.congr fun x hx => hs x (mem_append_right _ hx)

end Tiles

/-! ### Sums over pieces -/

section Sums

variable {α : Type*} {f f' : α → Int} {x : α} {l : List α}

theorem sum_map_congr (h : ∀ y ∈ l, f' y = f y) : (l.map f').sum = (l.map f).sum := by
  rw [map_congr_left h]

theorem sum_map_update (hnd : l.Nodup) (hx : x ∈ l) (h : ∀ y ∈ l, y ≠ x → f' y = f y) :
    (l.map f').sum = (l.map f).sum + (f' x - f x) := by
  obtain ⟨xs, ys, rfl⟩ := append_of_mem hx
  have hne : ∀ y ∈ xs ++ ys, y ≠ x := by
    rintro y hy rfl
    have hp := perm_middle.nodup_iff.1 hnd
    exact (nodup_cons.1 hp).1 hy
  have hxs : xs.map f' = xs.map f := map_congr_left fun y hy =>
    h y (mem_append_left _ hy) (hne y (mem_append_left _ hy))
  have hys : ys.map f' = ys.map f := map_congr_left fun y hy =>
    h y (mem_append_right _ (mem_cons_of_mem _ hy)) (hne y (mem_append_right _ hy))
  simp only [map_append, map_cons, sum_append, sum_cons, hxs, hys]
  omega

theorem sum_map_of_support [DecidableEq α] {l' : List α} (hnd : l.Nodup) (hnd' : l'.Nodup)
    (h : ∀ y ∈ l, f y ≠ 0 → y ∈ l' ∧ f' y = f y) (h' : ∀ y ∈ l', f' y ≠ 0 → y ∈ l ∧ f y = f' y) :
    (l'.map f').sum = (l.map f).sum := by
  rw [← sum_toFinset f' hnd', ← sum_toFinset f hnd, ← Finset.sum_filter_ne_zero,
    ← Finset.sum_filter_ne_zero (s := l.toFinset)]
  have hs : {y ∈ l'.toFinset | f' y ≠ 0} = {y ∈ l.toFinset | f y ≠ 0} := by
    ext y
    simp only [Finset.mem_filter, mem_toFinset]
    constructor
    · rintro ⟨hy, hne⟩
      obtain ⟨hy', heq⟩ := h' y hy hne
      exact ⟨hy', by rw [heq]; exact hne⟩
    · rintro ⟨hy, hne⟩
      obtain ⟨hy', heq⟩ := h y hy hne
      exact ⟨hy', by rw [heq]; exact hne⟩
  rw [hs]
  refine Finset.sum_congr rfl fun y hy => ?_
  obtain ⟨hy, hne⟩ := Finset.mem_filter.1 hy
  exact (h y (mem_toFinset.1 hy) hne).2

end Sums

end SequoiaDB.Lib

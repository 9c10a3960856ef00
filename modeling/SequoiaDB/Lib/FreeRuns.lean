import Mathlib

/-!
# Lists of maximal runs

A run of a predicate `p` below `len` is a pair `(a, n)` standing for the positions `a, …, a + n - 1`.
`MaximalRun p len r` says that `r` is nonempty, lies below `len`, satisfies `p` throughout and cannot be
extended on either side.  `RunsFrom p lo len l` is the same notion for a whole list, by recursion on the list:
`l` lists the maximal runs of `p` between `lo` and `len`, from left to right, where `lo` is either `0` or a
position behind one that fails `p`.
-/

namespace SequoiaDB.Lib

open List

/-- `(a, n)` is a nonempty run of `p` below `len` that cannot be extended. -/
def MaximalRun (p : Nat → Bool) (len : Nat) (r : Nat × Nat) : Prop :=
  0 < r.2 ∧ r.1 + r.2 ≤ len ∧ (∀ i, r.1 ≤ i → i < r.1 + r.2 → p i = true) ∧
    (∀ i, i + 1 = r.1 → p i = false) ∧ (r.1 + r.2 < len → p (r.1 + r.2) = false)

/-- `l` lists, from left to right, the maximal runs of `p` in `[lo, len)`. -/
def RunsFrom (p : Nat → Bool) (lo len : Nat) : List (Nat × Nat) → Prop
  | [] => ∀ i, lo ≤ i → i < len → p i = false
  | (a, n) :: l => lo ≤ a ∧ 0 < n ∧ a + n ≤ len ∧ (∀ i, lo ≤ i → i < a → p i = false) ∧
      (∀ i, a ≤ i → i < a + n → p i = true) ∧ (a + n < len → p (a + n) = false) ∧
      RunsFrom p (a + n + 1) len l

/-- `p` with the positions `[s, s + n)` switched to `b`. -/
def setRange (p : Nat → Bool) (s n : Nat) (b : Bool) : Nat → Bool :=
  fun i => if s ≤ i ∧ i < s + n then b else p i

variable {p : Nat → Bool} {s n i : Nat} {b : Bool}

theorem setRange_mem (h1 : s ≤ i) (h2 : i < s + n) :
    setRange p s n b i = b := if_pos ⟨h1, h2⟩

theorem setRange_not_mem (h : i < s ∨ s + n ≤ i) :
    setRange p s n b i = p i := if_neg (by omega)

/-- The size of the largest run of a list, `0` for the empty list. -/
def maxSize (l : List (Nat × Nat)) : Nat :=
  l.foldr (fun r m => max r.2 m) 0

@[simp] theorem maxSize_nil : maxSize [] = 0 := rfl

@[simp] theorem maxSize_cons (r : Nat × Nat) (l : List (Nat × Nat)) : maxSize (r :: l) = max r.2 (maxSize l) := rfl

variable {l : List (Nat × Nat)}

theorem size_le_maxSize {r : Nat × Nat} (h : r ∈ l) : r.2 ≤ maxSize l := by
  induction l with
  | nil => cases h
  | cons q l ih =>
    rcases mem_cons.1 h with rfl | h
    · exact Nat.le_max_left _ _
    · exact (ih h).trans (Nat.le_max_right _ _)

theorem exists_size_eq_maxSize (h : 0 < maxSize l) : ∃ r ∈ l, r.2 = maxSize l := by
  induction l with
  | nil => simp at h
  | cons r l ih =>
    rw [maxSize_cons] at h ⊢
    by_cases hle : maxSize l ≤ r.2
    · exact ⟨r, mem_cons_self .., (Nat.max_eq_left hle).symm⟩
    · obtain ⟨r', hm, heq⟩ := ih (by omega)
      exact ⟨r', mem_cons_of_mem _ hm, by omega⟩

theorem maxSize_append (l l' : List (Nat × Nat)) : maxSize (l ++ l') = max (maxSize l) (maxSize l') := by
  induction l with
  | nil => simp
  | cons r l ih => rw [cons_append, maxSize_cons, maxSize_cons, ih, Nat.max_assoc]

namespace RunsFrom

variable {p q : Nat → Bool} {lo lo' len : Nat} {l : List (Nat × Nat)}

theorem congr (h : RunsFrom p lo len l) (hpq : ∀ i, lo ≤ i → i < len → q i = p i) : RunsFrom q lo len l := by
  induction l generalizing lo with
  | nil =>
    intro i h1 h2
    rw [hpq i h1 h2]
    exact h i h1 h2
  | cons r l ih =>
    obtain ⟨a, n⟩ := r
    obtain ⟨hlo, hn, hle, hg, hin, he, hr⟩ := h
    refine ⟨hlo, hn, hle, ?_, ?_, ?_, ih hr ?_⟩
    · intro i h1 h2
      rw [hpq i h1 (by omega)]
      exact hg i h1 h2
    · intro i h1 h2
      rw [hpq i (by omega) (by omega)]
      exact hin i h1 h2
    · intro h1
      rw [hpq _ (by omega) h1]
      exact he h1
    · intro i h1 h2
      exact hpq i (by omega) h2

theorem extend (h : RunsFrom p lo' len l) (hlo : lo ≤ lo')
    (hg : ∀ i, lo ≤ i → i < lo' → i < len → p i = false) : RunsFrom p lo len l := by
  cases l with
  | nil =>
    intro i h1 h2
    by_cases hi : i < lo'
    · exact hg i h1 hi h2
    · exact h i (by omega) h2
  | cons r l =>
    obtain ⟨a, n⟩ := r
    obtain ⟨hlo', hn, hle, hgap', hr⟩ := h
    refine ⟨by omega, hn, hle, ?_, hr⟩
    intro i h1 h2
    by_cases hi : i < lo'
    · exact hg i h1 hi (by omega)
    · exact hgap' i (by omega) h2

variable {r : Nat × Nat}

theorem mem_bounds (h : RunsFrom p lo len l) (hr : r ∈ l) : lo ≤ r.1 ∧ 0 < r.2 ∧ r.1 + r.2 ≤ len := by
  induction l generalizing lo with
  | nil => cases hr
  | cons x l ih =>
    obtain ⟨a, n⟩ := x
    obtain ⟨hlo, hn, hle, -, -, -, hrest⟩ := h
    rcases mem_cons.1 hr with rfl | hr
    · exact ⟨hlo, hn, hle⟩
    · have := ih hrest hr
      omega

theorem pairwise (h : RunsFrom p lo len l) : l.Pairwise fun r r' => r.1 + r.2 < r'.1 := by
  induction l generalizing lo with
  | nil => exact List.Pairwise.nil
  | cons x l ih =>
    obtain ⟨a, n⟩ := x
    obtain ⟨-, -, -, -, -, -, hrest⟩ := h
    refine List.Pairwise.cons ?_ (ih hrest)
    intro r hr
    have := (hrest.mem_bounds hr).1
    simp only
    omega

theorem mem_iff (h : RunsFrom p lo len l) (hlo : ∀ i, i + 1 = lo → i < len → p i = false) :
    r ∈ l ↔ lo ≤ r.1 ∧ MaximalRun p len r := by
  induction l generalizing lo with
  | nil =>
    refine ⟨fun hr => (not_mem_nil hr).elim, ?_⟩
    rintro ⟨h1, hn, hle, hin, -⟩
    have hp := hin r.1 le_rfl (by omega)
    rw [h r.1 h1 (by omega)] at hp
    cases hp
  | cons x l ih =>
    obtain ⟨a, n⟩ := x
    obtain ⟨hlo', hn, hle, hg, hin, he, hrest⟩ := h
    have hlo2 : ∀ i, i + 1 = a + n + 1 → i < len → p i = false := by
      intro i hi hlt
      obtain rfl : i = a + n := by omega
      exact he hlt
    rw [mem_cons, ih hrest hlo2]
    constructor
    · rintro (rfl | ⟨h1, hr⟩)
      · refine ⟨hlo', hn, hle, hin, ?_, he⟩
        intro i hi
        by_cases hil : lo ≤ i
        · exact hg i hil (by simp only at hi; omega)
        · exact hlo i (by simp only at hi; omega) (by simp only at hi; omega)
      · exact ⟨by omega, hr⟩
    · rintro ⟨h1, hr⟩
      obtain ⟨b, m⟩ := r
      obtain ⟨hm, hble, hbin, hbl, hbr⟩ := hr
      simp only at h1 hm hble hbin hbl hbr
      by_cases hb : a + n + 1 ≤ b
      · exact Or.inr ⟨hb, hm, hble, hbin, hbl, hbr⟩
      · -- a run that starts no later than `a + n` must be `(a, n)` itself
        left
        have hab : a ≤ b := by
          by_contra hlt
          have hf := hg b h1 (by omega)
          rw [hbin b le_rfl (by omega)] at hf
          cases hf
        have hbn : b ≠ a + n := by
          intro heq
          have hf := he (by omega)
          rw [← heq, hbin b le_rfl (by omega)] at hf
          cases hf
        have hba : b = a := by
          by_contra hne
          have ht := hin (b - 1) (by omega) (by omega)
          rw [hbl (b - 1) (by omega)] at ht
          cases ht
        subst hba
        have hmn : ¬ m < n := by
          intro hlt
          have ht := hin (b + m) (by omega) (by omega)
          rw [hbr (by omega)] at ht
          cases ht
        have hnm : ¬ n < m := by
          intro hlt
          have hf := he (by omega)
          rw [hbin (b + n) (by omega) (by omega)] at hf
          cases hf
        obtain rfl : m = n := by omega
        rfl

theorem le_maxSize {s n : Nat} (h : RunsFrom p lo len l) (hlo : lo ≤ s) (hn : 0 < n) (hle : s + n ≤ len)
    (hin : ∀ i, s ≤ i → i < s + n → p i) : n ≤ maxSize l := by
  induction l generalizing lo with
  | nil =>
    have ho := h s hlo (by omega)
    rw [hin s le_rfl (by omega)] at ho
    cases ho
  | cons r l ih =>
    obtain ⟨-, -, -, hg, -, he, hr⟩ := h
    rw [maxSize_cons]
    have ho : ∀ {i}, p i = false → i < s ∨ s + n ≤ i := by
      intro i hi
      by_contra hcon
      rw [hin i (by omega) (by omega)] at hi
      cases hi
    by_cases hb : r.1 + r.2 < s
    · have := ih hr hb
      omega
    · have hfirst : r.1 ≤ s := by
        by_contra hcon
        have := ho (hg s hlo (by omega))
        omega
      have hlast : r.1 + r.2 < len → s + n ≤ r.1 + r.2 := fun hlt => by
        have := ho (he hlt)
        omega
      omega

variable {a n : Nat} {b m : Nat}

theorem block_cons (h : RunsFrom p a len ((a, n) :: l)) (hlo : lo ≤ b) (hm : 0 < m) (hb : b + m < a)
    (hg : ∀ i, lo ≤ i → i < b → p i = false) (hin : ∀ i, b ≤ i → i < b + m → p i)
    (hg' : ∀ i, b + m ≤ i → i < a → p i = false) :
    RunsFrom p lo len ((b, m) :: (a, n) :: l) := by
  have hn := h.2.1
  have hle := h.2.2.1
  refine ⟨hlo, hm, by omega, hg, hin, fun _ => hg' _ le_rfl hb, h.extend (by omega) ?_⟩
  intro i h1 h2 _
  exact hg' i (by omega) h2

theorem block_merge (h : RunsFrom p a len ((a, n) :: l)) (hlo : lo ≤ b) (hm : 0 < m) (hb : b + m = a)
    (hg : ∀ i, lo ≤ i → i < b → p i = false) (hin : ∀ i, b ≤ i → i < b + m → p i) :
    RunsFrom p lo len ((b, n + m) :: l) := by
  subst hb
  obtain ⟨-, hn, hle, -, hin', hend, hrest⟩ := h
  have hs : b + (n + m) = b + m + n := by omega
  refine ⟨hlo, by omega, by omega, hg, ?_, ?_, ?_⟩
  · intro i h1 h2
    by_cases hi : i < b + m
    · exact hin i h1 hi
    · exact hin' i (by omega) (by omega)
  · rwa [hs]
  · rwa [hs]

theorem take_all (h : RunsFrom p lo len ((a, n) :: l)) : RunsFrom (setRange p a n false) lo len l := by
  obtain ⟨hlo, -, hle, hg, -, he, hr⟩ := h
  refine (hr.congr (q := setRange p a n false) ?_).extend (by omega) ?_
  · intro i h1 _
    exact setRange_not_mem (by omega)
  · intro i h1 h2 h3
    by_cases hin : a ≤ i ∧ i < a + n
    · exact setRange_mem hin.1 hin.2
    · rw [setRange_not_mem (by omega)]
      by_cases hia : i < a
      · exact hg i h1 hia
      · obtain rfl : i = a + n := by omega
        exact he h3

theorem take_part {a n k : Nat} (h : RunsFrom p lo len ((a, n) :: l)) (hk : k < n) :
    RunsFrom (setRange p a k false) lo len ((a + k, n - k) :: l) := by
  obtain ⟨hlo, hn, hle, hg, hin, he, hr⟩ := h
  have hs : a + k + (n - k) = a + n := by omega
  refine ⟨by omega, by omega, by omega, ?_, ?_, ?_, ?_⟩
  · intro i h1 h2
    by_cases hia : a ≤ i
    · exact setRange_mem hia h2
    · rw [setRange_not_mem (by omega)]
      exact hg i h1 (by omega)
  · intro i h1 h2
    rw [setRange_not_mem (by omega)]
    exact hin i (by omega) (by omega)
  · rw [hs, setRange_not_mem (by omega)]
    exact he
  · rw [hs]
    exact hr.congr fun i h1 _ => setRange_not_mem (by omega)

theorem cons_setRange {a n s k : Nat} {b : Bool} {l' : List (Nat × Nat)} (h : RunsFrom p lo len ((a, n) :: l))
    (hs : a + n < s) (h' : RunsFrom (setRange p s k b) (a + n + 1) len l') :
    RunsFrom (setRange p s k b) lo len ((a, n) :: l') := by
  obtain ⟨hlo, hn, hle, hg, hin, he, -⟩ := h
  refine ⟨hlo, hn, hle, ?_, ?_, ?_, h'⟩
  · intro i h1 h2
    rw [setRange_not_mem (by omega)]
    exact hg i h1 h2
  · intro i h1 h2
    rw [setRange_not_mem (by omega)]
    exact hin i h1 h2
  · intro h1
    rw [setRange_not_mem (by omega)]
    exact he h1

theorem gap_false (h : RunsFrom p lo len l) {i : Nat} (hlt : ∀ r ∈ l, i < r.1) (hlo : lo ≤ i) (hi : i < len) :
    p i = false := by
  cases l with
  | nil => exact h i hlo hi
  | cons r l => exact h.2.2.2.1 i hlo (hlt r (mem_cons_self ..))

theorem shrink (h : RunsFrom p lo len l) (hlo : lo ≤ lo') (hle : ∀ r ∈ l, lo' ≤ r.1) : RunsFrom p lo' len l := by
  cases l with
  | nil => exact fun i h1 h2 => h i (by omega) h2
  | cons r l =>
    obtain ⟨-, hn, hl, hg, hr⟩ := h
    exact ⟨hle r (mem_cons_self ..), hn, hl, fun i h1 h2 => hg i (by omega) h2, hr⟩

theorem put_gap {s k : Nat} (h : RunsFrom p lo len l) (hlo : lo ≤ s + 1) (hk : 0 < k) (hsk : s + k ≤ len)
    (hl : ∀ r ∈ l, s + k < r.1) : RunsFrom (setRange p s k true) s len ((s, k) :: l) := by
  refine ⟨le_rfl, hk, hsk, fun i h1 h2 => by omega, fun i h1 h2 => setRange_mem h1 h2, ?_, ?_⟩
  · intro hlt
    rw [setRange_not_mem (by omega)]
    exact h.gap_false hl (by omega) hlt
  · refine (h.shrink (show lo ≤ s + k + 1 by omega) hl).congr fun i h1 _ => ?_
    exact setRange_not_mem (by omega)

theorem put_left {s k n : Nat} (h : RunsFrom p lo len ((s + k, n) :: l)) (hk : 0 < k) :
    RunsFrom (setRange p s k true) s len ((s, n + k) :: l) := by
  obtain ⟨-, hn, hle, -, hin, he, hr⟩ := h
  have hs : s + (n + k) = s + k + n := by omega
  refine ⟨le_rfl, by omega, by omega, fun i h1 h2 => by omega, ?_, ?_, ?_⟩
  · intro i h1 h2
    by_cases hi : i < s + k
    · exact setRange_mem h1 hi
    · rw [setRange_not_mem (by omega)]
      exact hin i (by omega) (by omega)
  · rw [hs, setRange_not_mem (by omega)]
    exact he
  · rw [hs]
    exact hr.congr fun i h1 _ => setRange_not_mem (by omega)

end RunsFrom

/-! ### Counting -/

/-- The number of positions below `len` that satisfy `p`. -/
def countBelow (p : Nat → Bool) (len : Nat) : Nat :=
  Nat.count (fun i => p i = true) len

theorem countBelow_congr {p q : Nat → Bool} {len : Nat} (h : ∀ i, i < len → p i = q i) :
    countBelow p len = countBelow q len := by
  induction len with
  | zero => rfl
  | succ n ih =>
    have hn := h n (Nat.lt_succ_self n)
    have hr := ih fun i hi => h i (by omega)
    unfold countBelow at hr ⊢
    rw [Nat.count_succ, Nat.count_succ, hr, hn]

theorem countBelow_add (p : Nat → Bool) (a b : Nat) :
    countBelow p (a + b) = countBelow p a + countBelow (fun i => p (a + i)) b :=
  Nat.count_add _ a b

theorem countBelow_le (p : Nat → Bool) (len : Nat) : countBelow p len ≤ len :=
  Nat.count_le _

theorem countBelow_const (b : Bool) (n : Nat) : countBelow (fun _ => b) n = if b then n else 0 := by
  unfold countBelow
  induction n with
  | zero => simp
  | succ n ih =>
    rw [Nat.count_succ, ih]
    cases b <;> simp

variable {s n len : Nat}

theorem countBelow_setRange_true (hl : s + n ≤ len) (ho : ∀ i, s ≤ i → i < s + n → p i = false) :
    countBelow (setRange p s n true) len = countBelow p len + n := by
  obtain ⟨r, rfl⟩ := Nat.exists_eq_add_of_le hl
  rw [countBelow_add _ (s + n) r, countBelow_add _ s n, countBelow_add p (s + n) r, countBelow_add p s n]
  have h1 : countBelow (setRange p s n true) s = countBelow p s :=
    countBelow_congr fun i hi => setRange_not_mem (by omega)
  have h2 : countBelow (fun i => setRange p s n true (s + i)) n = n := by
    rw [countBelow_congr (q := fun _ => true) fun i hi => setRange_mem (by omega) (by omega)]
    simpa using countBelow_const true n
  have h3 : countBelow (fun i => p (s + i)) n = 0 := by
    rw [countBelow_congr (q := fun _ => false) fun i hi => ho _ (by omega) (by omega)]
    simpa using countBelow_const false n
  have h4 : countBelow (fun i => setRange p s n true (s + n + i)) r = countBelow (fun i => p (s + n + i)) r :=
    countBelow_congr fun i _ => setRange_not_mem (by omega)
  omega

theorem countBelow_setRange_false (hl : s + n ≤ len) (hon : ∀ i, s ≤ i → i < s + n → p i) :
    countBelow (setRange p s n false) len + n = countBelow p len := by
  rw [← countBelow_setRange_true hl fun i h1 h2 => setRange_mem h1 h2]
  refine countBelow_congr fun i _ => ?_
  by_cases hi : s ≤ i ∧ i < s + n
  · rw [setRange_mem hi.1 hi.2, hon i hi.1 hi.2]
  · rw [setRange_not_mem (by omega), setRange_not_mem (by omega)]

end SequoiaDB.Lib

import Mathlib

/-!
# Doubly linked lists in a heap

The nodes are addresses; `next` and `prev` are the pointer fields.  `ChainTo next prev p ids n` says that `ids`
is a doubly linked stretch of nodes: the first points back to `p`, the last points on to `n`.
-/

namespace SequoiaDB.Lib

open List

variable {α : Type*}

/-- `ids` is a linked stretch between `p` and `n`. -/
def ChainTo (next prev : α → Option α) : Option α → List α → Option α → Prop
  | _, [], _ => True
  | p, x :: xs, n => prev x = p ∧ next x = xs.head?.or n ∧ ChainTo next prev (some x) xs n

namespace ChainTo

variable {next prev next' prev' : α → Option α} {p p' n n' : Option α} {xs ys : List α} {x : α}

theorem congr (h : ChainTo next prev p xs n) (hn : ∀ x ∈ xs, next' x = next x)
    (hp : ∀ x ∈ xs, prev' x = prev x) : ChainTo next' prev' p xs n := by
  induction xs generalizing p with
  | nil => trivial
  | cons x xs ih =>
    obtain ⟨h1, h2, h3⟩ := h
    refine ⟨?_, ?_, ih h3 ?_ ?_⟩
    · rw [hp x (mem_cons_self ..), h1]
    · rw [hn x (mem_cons_self ..), h2]
    · exact fun y hy => hn y (mem_cons_of_mem _ hy)
    · exact fun y hy => hp y (mem_cons_of_mem _ hy)

theorem append_iff : ChainTo next prev p (xs ++ ys) n ↔
    ChainTo next prev p xs (ys.head?.or n) ∧ ChainTo next prev (xs.getLast?.or p) ys n := by
  induction xs generalizing p with
  | nil => simp [ChainTo]
  | cons x xs ih =>
    rw [cons_append, ChainTo, ih, ChainTo]
    cases xs with
    | nil => simp [ChainTo, and_assoc]
    | cons y zs =>
      have hl : (y :: zs).getLast? = some ((y :: zs).getLast (cons_ne_nil _ _)) :=
        getLast?_eq_some_getLast _
      rw [getLast?_cons_cons, hl]
      simp [and_assoc]

theorem links (h : ChainTo next prev none (xs ++ x :: ys) none) : prev x = xs.getLast? ∧ next x = ys.head? := by
  obtain ⟨-, hp, hn, -⟩ := append_iff.1 h
  exact ⟨by rw [hp, Option.or_none], by rw [hn, Option.or_none]⟩

theorem retarget (h : ChainTo next prev p xs n) (hnd : xs.Nodup) (hl : ∀ x, xs.getLast? = some x → next' x = n')
    (hn : ∀ x ∈ xs, xs.getLast? ≠ some x → next' x = next x)
    (hp : ∀ x ∈ xs, prev' x = prev x) : ChainTo next' prev' p xs n' := by
  rcases eq_nil_or_concat' xs with rfl | ⟨ini, z, rfl⟩
  · trivial
  · obtain ⟨hi, hz, -⟩ := append_iff.1 h
    refine append_iff.2 ⟨hi.congr (fun x hx => hn x (mem_append_left _ hx) fun heq => ?_) fun x hx => ?_, ?_, ?_, trivial⟩
    · obtain rfl : z = x := by simpa using heq
      exact (nodup_append.1 hnd).2.2 z hx z (by simp) rfl
    · exact hp x (mem_append_left _ hx)
    · rw [hp z (by simp), hz]
    · simpa using hl z (by simp)

theorem reprev (h : ChainTo next prev p xs n) (hnd : xs.Nodup) (hh : ∀ x, xs.head? = some x → prev' x = p')
    (hp : ∀ x ∈ xs, xs.head? ≠ some x → prev' x = prev x)
    (hn : ∀ x ∈ xs, next' x = next x) : ChainTo next' prev' p' xs n := by
  cases xs with
  | nil => trivial
  | cons x xs =>
    obtain ⟨h1, h2, h3⟩ := h
    obtain ⟨hx, hnd'⟩ := nodup_cons.1 hnd
    refine ⟨hh x rfl, by rw [hn x (mem_cons_self ..), h2], h3.congr ?_ ?_⟩
    · exact fun y hy => hn y (mem_cons_of_mem _ hy)
    · intro y hy
      refine hp y (mem_cons_of_mem _ hy) ?_
      rintro ⟨rfl⟩
      exact hx hy

theorem relink [DecidableEq α] (hxs : ChainTo next prev none xs n) (hys : ChainTo next prev p ys none)
    (hnd : (xs ++ ys).Nodup) (hn : ∀ y ∈ xs ++ ys, next' y = if xs.getLast? = some y then n' else next y)
    (hp : ∀ y ∈ xs ++ ys, prev' y = if ys.head? = some y then p' else prev y) :
    ChainTo next' prev' none xs n' ∧ ChainTo next' prev' p' ys none := by
  obtain ⟨hndx, hndy, hd⟩ := nodup_append.1 hnd
  constructor
  · refine hxs.retarget hndx ?_ ?_ ?_
    · intro y hy
      rw [hn y (mem_append_left _ (List.mem_of_getLast? hy)), if_pos hy]
    · intro y hy hne
      rw [hn y (mem_append_left _ hy), if_neg hne]
    · intro y hy
      rw [hp y (mem_append_left _ hy), if_neg]
      exact fun heq => hd y hy y (List.mem_of_head? heq) rfl
  · refine hys.reprev hndy ?_ ?_ ?_
    · intro y hy
      rw [hp y (mem_append_right _ (List.mem_of_head? hy)), if_pos hy]
    · intro y hy hne
      rw [hp y (mem_append_right _ hy), if_neg hne]
    · intro y hy
      rw [hn y (mem_append_right _ hy), if_neg]
      exact fun heq => hd y (List.mem_of_getLast? heq) y hy rfl

theorem unlink [DecidableEq α] (h : ChainTo next prev none (xs ++ x :: ys) none) (hnd : (xs ++ x :: ys).Nodup)
    (hn : ∀ y ∈ xs ++ ys, next' y = if xs.getLast? = some y then ys.head? else next y)
    (hp : ∀ y ∈ xs ++ ys, prev' y = if ys.head? = some y then xs.getLast? else prev y) :
    ChainTo next' prev' none (xs ++ ys) none := by
  obtain ⟨hxs, -, -, hys⟩ := append_iff.1 h
  rw [append_iff, Option.or_none, Option.or_none]
  exact hxs.relink hys (hnd.sublist ((sublist_cons_self ..).append_left xs)) hn hp

theorem insert [DecidableEq α] (h : ChainTo next prev none (xs ++ ys) none) (hnd : (xs ++ ys).Nodup)
    (hn : ∀ y ∈ xs ++ ys, next' y = if xs.getLast? = some y then some x else next y)
    (hp : ∀ y ∈ xs ++ ys, prev' y = if ys.head? = some y then some x else prev y)
    (hx : next' x = ys.head?) (hx' : prev' x = xs.getLast?) : ChainTo next' prev' none (xs ++ x :: ys) none := by
  obtain ⟨hxs, hys⟩ := append_iff.1 h
  obtain ⟨hxs', hys'⟩ := hxs.relink hys hnd hn hp
  refine append_iff.2 ⟨hxs', ?_, ?_, hys'⟩
  · rw [hx', Option.or_none]
  · rw [hx, Option.or_none]

theorem snoc [DecidableEq α] (h : ChainTo next prev none xs none) (hnd : xs.Nodup)
    (hnext : ∀ y ∈ xs, next' y = if xs.getLast? = some y then some x else next y)
    (hprev : ∀ y ∈ xs, prev' y = prev y) (hx : next' x = none) (hx' : prev' x = xs.getLast?) :
    ChainTo next' prev' none (xs ++ [x]) none := by
  rw [← append_nil xs] at h hnd
  refine h.insert hnd ?_ ?_ hx hx'
  · rwa [append_nil]
  · rwa [append_nil]

end ChainTo

/-! ### Singly linked lists -/

/-- `xs` is the list that starts at `h`. -/
def LinkedFrom (next : α → Option α) : Option α → List α → Prop
  | h, [] => h = none
  | h, x :: xs => h = some x ∧ LinkedFrom next (next x) xs

namespace LinkedFrom

variable {next next' : α → Option α} {h h' : Option α} {xs ys : List α} {x : α}

theorem congr (hl : LinkedFrom next h xs) (hn : ∀ x ∈ xs, next' x = next x) : LinkedFrom next' h xs := by
  induction xs generalizing h with
  | nil => exact hl
  | cons x xs ih =>
    refine ⟨hl.1, ?_⟩
    rw [hn x (mem_cons_self ..)]
    exact ih hl.2 fun y hy => hn y (mem_cons_of_mem _ hy)

theorem push (hl : LinkedFrom next h xs) (hx : next' x = h) (hn : ∀ y ∈ xs, next' y = next y) :
    LinkedFrom next' (some x) (x :: xs) := by
  refine ⟨rfl, ?_⟩
  rw [hx]
  exact hl.congr hn

theorem snoc [DecidableEq α] (hl : LinkedFrom next h xs) (hnd : xs.Nodup) (hx : next' x = none)
    (hh : h' = if xs = [] then some x else h)
    (hn : ∀ y ∈ xs, next' y = if xs.getLast? = some y then some x else next y) :
    LinkedFrom next' h' (xs ++ [x]) := by
  induction xs generalizing h h' with
  | nil => exact ⟨hh, hx⟩
  | cons y ys ih =>
    obtain ⟨rfl, hl'⟩ := hl
    obtain ⟨hy, hnd'⟩ := nodup_cons.1 hnd
    refine ⟨hh, ih hl' hnd' ?_ ?_⟩
    · rw [hn y (mem_cons_self ..)]
      cases ys with
      | nil => simp
      | cons z zs =>
        rw [if_neg (cons_ne_nil _ _), if_neg]
        rw [getLast?_cons_cons]
        exact fun heq => hy (List.mem_of_getLast? heq)
    · intro z hz
      rw [hn z (mem_cons_of_mem _ hz)]
      cases ys with
      | nil => cases hz
      | cons w ws => rw [getLast?_cons_cons]

theorem unlink [DecidableEq α] (hl : LinkedFrom next h (xs ++ x :: ys)) (hnd : (xs ++ x :: ys).Nodup)
    (hh : h' = if xs = [] then next x else h)
    (hn : ∀ y ∈ xs ++ ys, next' y = if xs.getLast? = some y then next x else next y) :
    LinkedFrom next' h' (xs ++ ys) := by
  induction xs generalizing h h' with
  | nil =>
    rw [hh, if_pos rfl]
    exact hl.2.congr fun y hy => hn y hy
  | cons z zs ih =>
    obtain ⟨rfl, hl'⟩ := hl
    obtain ⟨hz, hnd'⟩ := nodup_cons.1 hnd
    refine ⟨hh, ?_⟩
    have hzn := hn z (mem_cons_self ..)
    refine ih hl' hnd' ?_ ?_
    · cases zs with
      | nil => simpa using hzn
      | cons w ws =>
        rw [hzn, if_neg (cons_ne_nil _ _), if_neg]
        rw [getLast?_cons_cons]
        exact fun heq => hz (mem_append_left _ (List.mem_of_getLast? heq))
    · intro y hy
      rw [hn y (mem_cons_of_mem _ hy)]
      cases zs with
      | nil =>
        rw [if_neg]
        · rfl
        · rintro ⟨rfl⟩
          exact hz (by simpa using Or.inr hy)
      | cons w ws => rw [getLast?_cons_cons]

end LinkedFrom

/-- The list that starts at `h`, if it has at most `k` nodes. -/
def follow (next : α → Option α) : Nat → Option α → Option (List α)
  | _, none => some []
  | 0, some _ => none
  | k + 1, some x => (follow next k (next x)).map (x :: ·)

theorem LinkedFrom.follow_eq {next : α → Option α} {h : Option α} {xs : List α} (hl : LinkedFrom next h xs) {k : Nat}
    (hk : xs.length ≤ k) : follow next k h = some xs := by
  induction xs generalizing h k with
  | nil =>
    obtain rfl : h = none := hl
    cases k <;> rfl
  | cons x xs ih =>
    obtain ⟨rfl, hl'⟩ := hl
    cases k with
    | zero => cases hk
    | succ k => rw [follow, ih hl' (Nat.le_of_succ_le_succ hk), Option.map_some]

theorem LinkedFrom.unique {next : α → Option α} {h : Option α} {xs ys : List α} (hx : LinkedFrom next h xs)
    (hy : LinkedFrom next h ys) : xs = ys :=
  Option.some.inj ((hx.follow_eq (Nat.le_max_left _ ys.length)).symm.trans (hy.follow_eq (Nat.le_max_right _ _)))

end SequoiaDB.Lib

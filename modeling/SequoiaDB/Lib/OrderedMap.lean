import Mathlib

/-!
# Finite maps ordered by key

A finite map is the list of its entries in the order of their keys.  A position is the number of an entry, or `none` behind
the last one.
-/

namespace SequoiaDB.Lib.OrderedMap

variable {K V : Type*} [LinearOrder K]

def Sorted (m : List (K × V)) : Prop := m.Pairwise (·.1 < ·.1)

def position (m : List (K × V)) (i : Nat) : Option Nat := if i < m.length then some i else none

def lowerBound (m : List (K × V)) (k : K) : Option Nat := position m (m.countP (·.1 < k))

def upperBound (m : List (K × V)) (k : K) : Option Nat := position m (m.countP (·.1 ≤ k))

def find (m : List (K × V)) (k : K) : Option Nat := if k ∈ m.map Prod.fst then lowerBound m k else none

/-- An entry is inserted if its key is new; then its position, and whether it has been inserted. -/
def insert (m : List (K × V)) (k : K) (v : V) : List (K × V) × Option Nat × Bool :=
  if k ∈ m.map Prod.fst then (m, lowerBound m k, false)
  else (m.insertIdx (m.countP (·.1 < k)) (k, v), some (m.countP (·.1 < k)), true)

/-- The entries from number `b` on, `len` of them, are erased. -/
def eraseRange (m : List (K × V)) (b len : Nat) : List (K × V) := m.take b ++ m.drop (b + len)

def erase (m : List (K × V)) (k : K) : List (K × V) :=
  match find m k with
  | some i => eraseRange m i 1
  | none => m

variable {m acc : List (K × V)} {k : K} {v : V}

theorem find_isSome : (find m k).isSome = true ↔ k ∈ m.map Prod.fst := by
  unfold find lowerBound position
  split_ifs with hk hlt
  · simp [hk]
  · obtain ⟨e, he, rfl⟩ := List.mem_map.1 hk
    refine absurd (lt_of_le_of_ne List.countP_le_length fun hc => ?_) hlt
    simpa using List.countP_eq_length.1 hc e he
  · simp [hk]

theorem lowerBound_eq_none : lowerBound m k = none ↔ ∀ e ∈ m, e.1 < k := by
  have hle : m.countP (·.1 < k) ≤ m.length := List.countP_le_length
  have hall : m.countP (·.1 < k) = m.length ↔ ∀ e ∈ m, e.1 < k := by simp [List.countP_eq_length]
  rw [lowerBound, position, ← hall]
  split_ifs with hlt
  · exact iff_of_false nofun hlt.ne
  · exact iff_of_true rfl (le_antisymm hle (Nat.not_lt.1 hlt))

theorem upperBound_of_lt (h : ∀ e ∈ m, e.1 < k) : upperBound m k = none := by
  have hall : m.countP (·.1 ≤ k) = m.length := List.countP_eq_length.2 fun e he => by simpa using (h e he).le
  rw [upperBound, position, hall, if_neg (lt_irrefl _)]

theorem insert_of_mem (hk : k ∈ m.map Prod.fst) : (insert m k v).1 = m := by rw [insert, if_pos hk]

theorem Sorted.insert (h : Sorted m) : Sorted (insert m k v).1 := by
  unfold OrderedMap.insert
  split_ifs with hk
  · exact h
  induction m with
  | nil => exact List.pairwise_singleton ..
  | cons a m ih =>
    obtain ⟨ha, hm⟩ := List.pairwise_cons.1 h
    simp only [List.map_cons, List.mem_cons, not_or] at hk
    rcases lt_or_gt_of_ne hk.1 with hlt | hlt
    · have hz : m.countP (·.1 < k) = 0 := List.countP_eq_zero.2 fun e he => by simpa using (hlt.trans (ha e he)).le
      rw [List.countP_cons_of_neg (by simpa using hlt.le), hz, List.insertIdx_zero]
      refine List.pairwise_cons.2 ⟨fun e he => ?_, h⟩
      rcases List.mem_cons.1 he with rfl | he
      · exact hlt
      · exact hlt.trans (ha e he)
    · rw [List.countP_cons_of_pos (by simpa using hlt), List.insertIdx_succ_cons]
      refine List.pairwise_cons.2 ⟨fun e he => ?_, ih hm hk.2⟩
      rcases (List.mem_insertIdx List.countP_le_length).1 he with rfl | he
      · exact hlt
      · exact ha e he

theorem Sorted.eraseRange (h : Sorted m) (b len : Nat) : Sorted (eraseRange m b len) := by
  refine h.sublist ?_
  conv => rhs; rw [← List.take_append_drop b m]
  exact (List.drop_sublist_drop_left m (Nat.le_add_right b len)).append_left _

theorem foldl_insert (h : Sorted (acc ++ m)) : m.foldl (fun m e => (insert m e.1 e.2).1) acc = acc ++ m := by
  induction m generalizing acc with
  | nil => simp
  | cons e m ih =>
    have hlt : ∀ x ∈ acc, x.1 < e.1 := fun x hx => (List.pairwise_append.1 h).2.2 x hx e List.mem_cons_self
    have hnew : e.1 ∉ acc.map Prod.fst := fun hk => by
      obtain ⟨x, hx, heq⟩ := List.mem_map.1 hk
      exact (hlt x hx).ne heq
    have hlast : acc.countP (·.1 < e.1) = acc.length := List.countP_eq_length.2 fun x hx => by simpa using hlt x hx
    rw [List.foldl_cons, insert, if_neg hnew, hlast, List.insertIdx_length_self, ih (by simpa using h), List.append_assoc]
    rfl

end SequoiaDB.Lib.OrderedMap

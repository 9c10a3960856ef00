import Mathlib

/-!
# Byte memories

A memory is a function from addresses to bytes.  `write` stores a list of bytes, `read` takes one out; numbers
are stored in little-endian order by `leBytes` and read back by `leNat`.
-/

namespace SequoiaDB.Lib

open List

/-- The `k` low bytes of `n`, least significant first. -/
def leBytes : Nat → Nat → List UInt8
  | 0, _ => []
  | k + 1, n => UInt8.ofNat n :: leBytes k (n / 256)

def leNat : List UInt8 → Nat
  | [] => 0
  | b :: bs => b.toNat + 256 * leNat bs

@[simp] theorem length_leBytes (k n : Nat) : (leBytes k n).length = k := by
  induction k generalizing n with
  | zero => rfl
  | succ k ih => simp [leBytes, ih]

theorem leNat_leBytes {k n : Nat} (h : n < 256 ^ k) : leNat (leBytes k n) = n := by
  induction k generalizing n with
  | zero =>
    simp only [Nat.pow_zero] at h
    simp only [leBytes, leNat]
    omega
  | succ k ih =>
    rw [Nat.pow_succ] at h
    have hd : n / 256 < 256 ^ k := by omega
    simp only [leBytes, leNat, ih hd, UInt8.toNat_ofNat']
    omega

abbrev Mem := Nat → UInt8

namespace Mem

/-- Store `bs` from address `a` on. -/
def write (m : Mem) (a : Nat) (bs : List UInt8) : Mem :=
  fun i => if a ≤ i ∧ i < a + bs.length then bs.getD (i - a) 0 else m i

/-- The `n` bytes from address `a` on. -/
def read (m : Mem) (a n : Nat) : List UInt8 :=
  (range n).map fun i => m (a + i)

variable {m : Mem} {a b n : Nat} {bs : List UInt8}

@[simp] theorem length_read : (m.read a n).length = n := by simp [read]

theorem read_congr {m' : Mem} (h : ∀ i, a ≤ i → i < a + n → m' i = m i) : m'.read a n = m.read a n := by
  refine map_congr_left fun i hi => ?_
  have := mem_range.1 hi
  exact h _ (by omega) (by omega)

theorem read_write : (m.write a bs).read a bs.length = bs := by
  refine ext_getElem (by simp) fun i h1 h2 => ?_
  simp only [read, getElem_map, getElem_range, write]
  rw [if_pos (by omega), Nat.add_sub_cancel_left, getD_eq_getElem _ _ h2]

theorem write_of_lt {i : Nat} (h : i < a) : m.write a bs i = m i := if_neg (by omega)

@[simp] theorem write_nil : m.write a [] = m := funext fun i => if_neg (by simp)

theorem write_write_append (bs cs : List UInt8) : (m.write a bs).write (a + bs.length) cs = m.write a (bs ++ cs) := by
  funext i
  simp only [write, length_append]
  by_cases hi : a + bs.length ≤ i
  · rw [getD_append_right _ _ _ _ (by omega), Nat.sub_sub]
    split_ifs <;> first | rfl | omega
  · rw [if_neg (by omega)]
    by_cases ha : a ≤ i
    · rw [if_pos (by omega), if_pos (by omega), getD_append _ _ _ _ (by omega)]
    · rw [if_neg (by omega), if_neg (by omega)]

theorem read_add (k : Nat) : m.read a (n + k) = m.read a n ++ m.read (a + n) k := by
  simp only [read, range_add, map_append, map_map]
  congr 1
  refine map_congr_left fun i _ => ?_
  simp [Nat.add_assoc]

theorem read_drop_take {k l : Nat} (h : k + l ≤ n) : ((m.read a n).drop k).take l = m.read (a + k) l := by
  obtain ⟨r, rfl⟩ := Nat.exists_eq_add_of_le h
  rw [Nat.add_assoc, read_add, read_add, drop_append_of_le_length (by simp),
    drop_eq_nil_of_le (by simp), nil_append, take_append_of_le_length (by simp), take_of_length_le (by simp)]

theorem read_middle {as cs : List UInt8} (h : m.read a n = as ++ (bs ++ cs)) :
    m.read (a + as.length) bs.length = bs := by
  have hl : as.length + bs.length ≤ n := by
    have := congrArg List.length h
    simp only [length_read, length_append] at this
    omega
  rw [← read_drop_take hl, h]
  simp

theorem read_front {cs : List UInt8} (h : m.read a n = bs ++ cs) : m.read a bs.length = bs := by
  rw [← nil_append (bs ++ cs)] at h
  exact read_middle h

/-- Bytes and the address that they are stored at. -/
abbrev Text := Nat × List UInt8

/-- Two texts that do not overlap. -/
def Apart (f g : Text) : Prop := f.1 + f.2.length ≤ g.1 ∨ g.1 + g.2.length ≤ f.1

/-- Store texts at their places, one after the other. -/
def store (m : Mem) (fs : List Text) : Mem := fs.foldl (fun m f => m.write f.1 f.2) m

variable {fs : List Text} {f : Text}

theorem store_of_not_mem {i : Nat} (h : ∀ f ∈ fs, i < f.1 ∨ f.1 + f.2.length ≤ i) : m.store fs i = m i := by
  induction fs generalizing m with
  | nil => rfl
  | cons g fs ih =>
    have hg := h g mem_cons_self
    exact (ih fun f hf => h f (mem_cons_of_mem _ hf)).trans (if_neg (by omega))

theorem read_store (h : fs.Pairwise Apart) (hf : f ∈ fs) : (m.store fs).read f.1 f.2.length = f.2 := by
  induction fs generalizing m with
  | nil => simp at hf
  | cons g fs ih =>
    obtain ⟨hg, hfs⟩ := pairwise_cons.1 h
    obtain rfl | hf := mem_cons.1 hf
    · refine (read_congr (m := m.write f.1 f.2) fun i h1 h2 => store_of_not_mem fun g hmem => ?_).trans read_write
      obtain h | h := hg g hmem <;> omega
    · exact ih hfs hf

theorem pairwise_append_of_le {fs gs : List Text} (k : Nat) (hf : fs.Pairwise Apart)
    (hg : gs.Pairwise Apart) (hk : ∀ f ∈ fs, f.1 + f.2.length ≤ k) (hk' : ∀ g ∈ gs, k ≤ g.1) : (fs ++ gs).Pairwise Apart :=
  pairwise_append.2 ⟨hf, hg, fun f hf g hg => .inl ((hk f hf).trans (hk' g hg))⟩

end Mem

end SequoiaDB.Lib

import Mathlib

/-!
# Codes with a length flag in a stream of bits

`toBits k x` are the `k` low bits of `x`, the highest first.  A token is a flag `i` of `h` bits followed by a value
of `size i` bits; with `h = 0` all values have the same size.  No token is a beginning of another one, so a list of
bits is read as tokens in one way only (`prefix_or_prefix`).

`Reads` is what a reader does that stops as soon as fewer than eight bits, a part of one byte, are left.
-/

namespace SequoiaDB.Lib

open List Nat

/-- The `k` low bits of `x`, the highest first. -/
def toBits : Nat → Nat → List Bool
  | 0, _ => []
  | k + 1, x => x.testBit k :: toBits k x

variable {k x y : Nat}

@[simp] theorem length_toBits (k x : Nat) : (toBits k x).length = k := by
  induction k with
  | zero => rfl
  | succ k ih => simp [toBits, ih]

theorem toBits_eq_iff : toBits k x = toBits k y ↔ ∀ i < k, x.testBit i = y.testBit i := by
  induction k with
  | zero => simp [toBits]
  | succ k ih => rw [toBits, toBits, List.cons.injEq, ih, Nat.forall_lt_succ_right, and_comm]

theorem toBits_mod {l : Nat} (h : k ≤ l) : toBits k (x % 2 ^ l) = toBits k x := by
  refine toBits_eq_iff.2 fun i hi => ?_
  rw [testBit_mod_two_pow, decide_eq_true (by omega), Bool.true_and]

theorem toBits_add (a b x : Nat) : toBits (a + b) x = toBits a (x >>> b) ++ toBits b x := by
  induction a with
  | zero => rw [Nat.zero_add, toBits, nil_append]
  | succ a ih =>
    rw [succ_add, toBits, toBits, ih, cons_append, testBit_shiftRight, Nat.add_comm b a]

theorem toBits_append (a b x y : Nat) : toBits (a + b) (x <<< b ||| (y &&& (2 ^ b - 1))) = toBits a x ++ toBits b y := by
  rw [toBits_add]
  congr 1
  · refine toBits_eq_iff.2 fun i _ => ?_
    rw [testBit_shiftRight, testBit_or, testBit_shiftLeft, testBit_and, testBit_two_pow_sub_one,
      decide_eq_true (by omega), decide_eq_false (by omega), Bool.true_and, Bool.and_false, Bool.or_false,
      Nat.add_sub_cancel_left]
  · refine toBits_eq_iff.2 fun i hi => ?_
    rw [testBit_or, testBit_shiftLeft, testBit_and, testBit_two_pow_sub_one, decide_eq_true hi,
      decide_eq_false (by omega), Bool.false_and, Bool.and_true, Bool.false_or]

theorem toBits_injOn (hx : x < 2 ^ k) (hy : y < 2 ^ k) (h : toBits k x = toBits k y) : x = y := by
  refine eq_of_testBit_eq fun i => ?_
  by_cases hi : i < k
  · exact toBits_eq_iff.1 h i hi
  · have hpow : 2 ^ k ≤ 2 ^ i := Nat.pow_le_pow_right (by omega) (by omega)
    rw [testBit_lt_two_pow (by omega), testBit_lt_two_pow (by omega)]

structure Token where
  flag : Nat
  value : Nat
  deriving DecidableEq, Repr

section Tokens

variable (h : Nat) (size : Nat → Nat)

def Token.bits (t : Token) : List Bool :=
  toBits h t.flag ++ toBits (size t.flag) t.value

def Token.Valid (t : Token) : Prop :=
  t.flag < 2 ^ h ∧ t.value < 2 ^ size t.flag

instance (t : Token) : Decidable (t.Valid h size) := inferInstanceAs (Decidable (_ ∧ _))

variable {h size}

@[simp] theorem Token.length_bits (t : Token) : (t.bits h size).length = h + size t.flag := by
  simp [Token.bits]

variable {r s : List Bool}

theorem Token.bits_append_inj {t u : Token} (ht : t.Valid h size) (hu : u.Valid h size)
    (e : t.bits h size ++ r = u.bits h size ++ s) : t = u ∧ r = s := by
  simp only [Token.bits, append_assoc] at e
  obtain ⟨hflag, etail⟩ := append_inj e (by simp)
  have hf : t.flag = u.flag := toBits_injOn ht.1 hu.1 hflag
  rw [hf] at etail
  obtain ⟨hvalue, hr⟩ := append_inj etail (by simp)
  have hv : t.value = u.value := toBits_injOn (hf ▸ ht.2) hu.2 hvalue
  obtain ⟨tf, tv⟩ := t
  obtain ⟨uf, uv⟩ := u
  exact ⟨by simp_all, hr⟩

theorem prefix_or_prefix {ts us : List Token} (ht : ∀ t ∈ ts, t.Valid h size) (hu : ∀ u ∈ us, u.Valid h size)
    (e : ts.flatMap (Token.bits h size) ++ r = us.flatMap (Token.bits h size) ++ s) :
    (∃ vs, us = ts ++ vs ∧ r = vs.flatMap (Token.bits h size) ++ s) ∨
      ∃ vs, ts = us ++ vs ∧ s = vs.flatMap (Token.bits h size) ++ r := by
  induction ts generalizing us with
  | nil => exact .inl ⟨us, rfl, by simpa using e⟩
  | cons t ts ih =>
    cases us with
    | nil => exact .inr ⟨t :: ts, rfl, by simpa using e.symm⟩
    | cons u us =>
      simp only [flatMap_cons, append_assoc] at e
      obtain ⟨rfl, erest⟩ := Token.bits_append_inj (ht t (by simp)) (hu u (by simp)) e
      obtain ⟨vs, rfl, hr⟩ | ⟨vs, rfl, hs⟩ :=
        ih (fun v hv => ht v (by simp [hv])) (fun v hv => hu v (by simp [hv])) erest
      · exact .inl ⟨vs, rfl, hr⟩
      · exact .inr ⟨vs, rfl, hs⟩

variable (h size)

/-- The tokens that are read from `w` when reading goes on as long as eight bits are left. -/
inductive Reads : List Bool → List Token → Prop
  | stop {w} : w.length < 8 → Reads w []
  | next {t w ts} : t.Valid h size → 8 ≤ (t.bits h size ++ w).length → Reads w ts → Reads (t.bits h size ++ w) (t :: ts)

variable {h size} {w : List Bool} {ts : List Token}

theorem Reads.valid (hr : Reads h size w ts) : ∀ t ∈ ts, t.Valid h size := by
  induction hr with
  | stop _ => simp
  | next hv _ _ ih => exact forall_mem_cons.2 ⟨hv, ih⟩

theorem Reads.exists_rest (hr : Reads h size w ts) : ∃ r, w = ts.flatMap (Token.bits h size) ++ r ∧ r.length < 8 := by
  induction hr with
  | stop hw => exact ⟨_, rfl, hw⟩
  | next _ _ _ ih =>
    obtain ⟨r, rfl, hr⟩ := ih
    exact ⟨r, by simp, hr⟩

theorem reads_flatMap {r : List Bool} (hts : ∀ t ∈ ts, t.Valid h size) (hr : r.length < 8)
    (hl : ∀ us t, ts = us ++ [t] → 8 ≤ h + size t.flag + r.length) :
    Reads h size (ts.flatMap (Token.bits h size) ++ r) ts := by
  induction ts with
  | nil => exact .stop hr
  | cons t ts ih =>
    rw [flatMap_cons, append_assoc]
    refine .next (hts t (by simp)) ?_ (ih (fun u hu => hts u (by simp [hu])) ?_)
    · -- the last token alone is long enough, so every list with it at the end is
      rw [length_append, length_append, Token.length_bits]
      obtain rfl | ⟨us, u, rfl⟩ := eq_nil_or_concat' ts
      · simpa [Nat.add_assoc] using hl [] t rfl
      · have := hl (t :: us) u (by simp)
        simp only [flatMap_append, flatMap_cons, flatMap_nil, append_nil, length_append, Token.length_bits]
        omega
    · rintro us u rfl
      exact hl (t :: us) u rfl

theorem Reads.le_length {w r : List Bool} {us vs : List Token} {t : Token} (hr : Reads h size w (us ++ t :: vs))
    (hw : w = us.flatMap (Token.bits h size) ++ r) : 8 ≤ r.length := by
  generalize hts : us ++ t :: vs = ts at hr
  induction hr generalizing us with
  | stop _ => simp at hts
  | @next u w ts hv hl hrest ih =>
    cases us with
    | nil =>
      rw [flatMap_nil, nil_append] at hw
      exact hw ▸ hl
    | cons v us =>
      obtain ⟨rfl, rfl⟩ : v = u ∧ us ++ t :: vs = ts := by simpa using hts
      rw [flatMap_cons, append_assoc] at hw
      exact ih (append_cancel_left hw) rfl

end Tokens

end SequoiaDB.Lib

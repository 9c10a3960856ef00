import SequoiaDB.Bson.Number

/-!
# The values of numbers

Comparing decimals digit by digit is comparing their values, and the conversions to decimals keep the value of a
`NumberLong` and the first 15 digits of a `double`.
-/

namespace SequoiaDB.Bson

open Nat

/-! ### The value of digits -/

def absValue : ℤ → List (Fin DECIMAL_NBASE) → ℚ
  | _, [] => 0
  | weight, d :: ds => d.val * (DECIMAL_NBASE : ℚ) ^ weight + absValue (weight - 1) ds

abbrev Digits := List (Fin DECIMAL_NBASE)

variable (w : ℤ) (ds : Digits) {q : ℚ} {v : ℤ}

theorem absValue_cons (d : Fin DECIMAL_NBASE) (ds : Digits) :
    absValue w (d :: ds) = d.val * (DECIMAL_NBASE : ℚ) ^ w + absValue (w - 1) ds := rfl

theorem nbase_pos : (0 : ℚ) < (DECIMAL_NBASE : ℚ) ^ w := zpow_pos (by norm_num) w

theorem nbase_succ : (DECIMAL_NBASE : ℚ) ^ (w + 1) = DECIMAL_NBASE * (DECIMAL_NBASE : ℚ) ^ w := by
  rw [zpow_add_one₀ (by norm_num), mul_comm]

theorem absValue_nonneg : 0 ≤ absValue w ds := by
  induction ds generalizing w with
  | nil => exact le_rfl
  | cons d ds ih => exact add_nonneg (mul_nonneg (cast_nonneg _) (nbase_pos w).le) (ih _)

theorem absValue_lt : absValue w ds < (DECIMAL_NBASE : ℚ) ^ (w + 1) := by
  induction ds generalizing w with
  | nil => exact nbase_pos _
  | cons d ds ih =>
    have hr := ih (w - 1)
    rw [sub_add_cancel] at hr
    have hd : (d.val : ℚ) ≤ DECIMAL_NBASE - 1 := by
      have : d.val + 1 ≤ DECIMAL_NBASE := d.isLt
      have : ((d.val + 1 : ℕ) : ℚ) ≤ DECIMAL_NBASE := by exact_mod_cast this
      push_cast at this ⊢
      linarith
    calc absValue w (d :: ds) < d.val * (DECIMAL_NBASE : ℚ) ^ w + (DECIMAL_NBASE : ℚ) ^ w := by
          unfold absValue
          linarith
      _ ≤ (DECIMAL_NBASE - 1) * (DECIMAL_NBASE : ℚ) ^ w + (DECIMAL_NBASE : ℚ) ^ w := by
          have := mul_le_mul_of_nonneg_right hd (nbase_pos w).le
          linarith
      _ = (DECIMAL_NBASE : ℚ) ^ (w + 1) := by
          rw [nbase_succ]
          ring

theorem absValue_cons_pos {w : ℤ} {d : Fin DECIMAL_NBASE} (ds : Digits) (hd : d ≠ 0) :
    (DECIMAL_NBASE : ℚ) ^ w ≤ absValue w (d :: ds) := by
  have hd' : (1 : ℚ) ≤ d.val := by
    have : 1 ≤ d.val := one_le_iff_ne_zero.2 fun h => hd (Fin.ext h)
    exact_mod_cast this
  have hmul := mul_le_mul_of_nonneg_right hd' (nbase_pos w).le
  have hrest := absValue_nonneg (w - 1) ds
  unfold absValue
  linarith

theorem absValue_cons_zero : absValue w (0 :: ds) = absValue (w - 1) ds := by
  simp [absValue]

theorem absValue_pos_iff : 0 < absValue w ds ↔ ds.any (· ≠ 0) := by
  induction ds generalizing w with
  | nil => simp [absValue]
  | cons d ds ih =>
    by_cases hd : d = 0
    · subst hd
      rw [absValue_cons_zero, ih]
      simp
    · have hp := (nbase_pos w).trans_le (absValue_cons_pos ds hd)
      simp [hp, hd]

theorem absValue_eq_zero_iff : absValue w ds = 0 ↔ ¬ ds.any (· ≠ 0) = true := by
  rw [← absValue_pos_iff w, not_lt]
  exact ⟨le_of_eq, fun h => le_antisymm h (absValue_nonneg w ds)⟩

/-! ### Comparing digits -/

theorem dropHigh_none {w1 w2 : ℤ} {ds : Digits} (h : dropHigh w2 w1 ds = none) :
    (DECIMAL_NBASE : ℚ) ^ (w2 + 1) ≤ absValue w1 ds := by
  induction ds generalizing w1 with
  | nil => cases h
  | cons d ds ih =>
    unfold dropHigh at h
    split_ifs at h with hw hd
    · exact (zpow_le_zpow_right₀ (by norm_num) (by omega)).trans (absValue_cons_pos ds hd)
    · rw [not_not.1 hd, absValue_cons_zero]
      exact ih h

theorem dropHigh_some {w1 w2 w : ℤ} {ds ds' : Digits} (h : dropHigh w2 w1 ds = some (w, ds')) :
    absValue w ds' = absValue w1 ds ∧ (w ≤ w2 ∨ ds' = []) ∧ (w2 ≤ w1 → w2 ≤ w) ∧ (w1 ≤ w2 → w = w1) := by
  induction ds generalizing w1 with
  | nil =>
    cases h
    exact ⟨rfl, .inr rfl, id, fun _ => rfl⟩
  | cons d ds ih =>
    unfold dropHigh at h
    split_ifs at h with hw hd
    · obtain ⟨h₁, h₂, h3, -⟩ := ih h
      rw [not_not.1 hd, absValue_cons_zero]
      exact ⟨h₁, h₂, fun _ => h3 (by omega), fun _ => by omega⟩
    · cases h
      exact ⟨rfl, .inl (by omega), fun hle => hle, fun _ => rfl⟩

theorem cmpRest_nil_right (w1 w2 : ℤ) (ds : Digits) : cmpRest ds [] = compare (absValue w1 ds) (absValue w2 []) := by
  unfold cmpRest
  split
  · next h => exact (compare_gt_iff_gt.2 ((absValue_pos_iff w1 ds).2 h)).symm
  · next h => exact (compare_eq_iff_eq.2 ((absValue_eq_zero_iff w1 ds).2 h)).symm

theorem cmpRest_nil_left (w1 w2 : ℤ) (ds : Digits) : cmpRest [] ds = compare (absValue w1 []) (absValue w2 ds) := by
  unfold cmpRest
  rw [if_neg (by simp)]
  split
  · next h => exact (compare_lt_iff_lt.2 ((absValue_pos_iff w2 ds).2 h)).symm
  · next h => exact (compare_eq_iff_eq.2 ((absValue_eq_zero_iff w2 ds).2 h).symm).symm

theorem absValue_cons_lt {w : ℤ} {d1 d2 : Fin DECIMAL_NBASE} (ds1 ds2 : Digits) (h : d1 < d2) :
    absValue w (d1 :: ds1) < absValue w (d2 :: ds2) := by
  have h1 := absValue_lt (w - 1) ds1
  rw [sub_add_cancel] at h1
  have h2 := absValue_nonneg (w - 1) ds2
  have hd : (d1.val : ℚ) + 1 ≤ d2.val := by exact_mod_cast h
  have hmul := mul_le_mul_of_nonneg_right hd (nbase_pos w).le
  unfold absValue
  linarith

theorem compare_add_left (a b c : ℚ) : compare (a + b) (a + c) = compare b c := by
  rw [← cmp_eq_compare, ← cmp_eq_compare, cmp_add_left]

theorem cmpDigits_eq (ds1 ds2 : Digits) : cmpDigits ds1 ds2 = compare (absValue w ds1) (absValue w ds2) := by
  induction ds1 generalizing w ds2 with
  | nil =>
    rw [show cmpDigits [] ds2 = cmpRest [] ds2 by cases ds2 <;> rfl]
    exact cmpRest_nil_left ..
  | cons d1 ds1 ih =>
    cases ds2 with
    | nil => exact cmpRest_nil_right ..
    | cons d2 ds2 =>
      unfold cmpDigits
      split_ifs with hgt hlt
      · exact (compare_gt_iff_gt.2 (absValue_cons_lt ds2 ds1 hgt)).symm
      · exact (compare_lt_iff_lt.2 (absValue_cons_lt ds1 ds2 hlt)).symm
      · have heq : d1 = d2 := le_antisymm (not_lt.1 hgt) (not_lt.1 hlt)
        subst heq
        rw [ih (w - 1)]
        exact (compare_add_left ..).symm

theorem decimalCmpAbs_eq (w1 : ℤ) (ds1 : Digits) (w2 : ℤ) (ds2 : Digits) :
    decimalCmpAbs w1 ds1 w2 ds2 = compare (absValue w1 ds1) (absValue w2 ds2) := by
  unfold decimalCmpAbs
  cases h1 : dropHigh w2 w1 ds1 with
  | none =>
    have hlt := (absValue_lt w2 ds2).trans_le (dropHigh_none h1)
    exact (compare_gt_iff_gt.2 hlt).symm
  | some r1 =>
    obtain ⟨w1', ds1'⟩ := r1
    obtain ⟨hv1, hw1, hge1, -⟩ := dropHigh_some h1
    cases h2 : dropHigh w1' w2 ds2 with
    | none =>
      have hlt := (absValue_lt w1' ds1').trans_le (dropHigh_none h2)
      rw [hv1] at hlt
      simp only [h2]
      exact (compare_lt_iff_lt.2 hlt).symm
    | some r2 =>
      obtain ⟨w2', ds2'⟩ := r2
      obtain ⟨hv2, hw2, hge2, hkeep2⟩ := dropHigh_some h2
      rw [← hv1, ← hv2]
      simp only [h2]
      split
      · next heq =>
        subst heq
        exact cmpDigits_eq ..
      · next hne =>
        -- one of the numbers has no digits left
        rcases hw1 with hle1 | rfl
        · rcases hw2 with hle2 | rfl
          · have := hge2 hle1
            omega
          · exact cmpRest_nil_right ..
        · exact cmpRest_nil_left ..

/-! ### Keys -/

/-- Numbers with what lies around them: the least decimal, NaN, the numbers and the greatest decimal.  A zero that is
written with digits lies beside zero, on the side of its sign. -/
abbrev Key := ℤ ×ₗ ℚ ×ₗ ℤ

def Key.mk (rank : ℤ) (q : ℚ) (side : ℤ) : Key := toLex (rank, toLex (q, side))

def plainKey (q : ℚ) : Key := .mk 2 q (if q < 0 then -1 else if q = 0 then 0 else 1)

def Decimal.key : Decimal → Key
  | .min => .mk 0 0 0
  | .nan => .mk 1 0 0
  | .num neg weight digits =>
    .mk 2 (if neg then -absValue weight digits else absValue weight digits)
      (if digits = [] then 0 else if neg then -1 else 1)
  | .max => .mk 3 0 0

theorem Decimal.key_num (neg : Bool) (w : ℤ) (ds : Digits) : (Decimal.num neg w ds).key =
    .mk 2 (if neg then -absValue w ds else absValue w ds) (if ds = [] then 0 else if neg then -1 else 1) := rfl

theorem Key.compare_mk (r r' : ℤ) (q q' : ℚ) (z z' : ℤ) :
    compare (Key.mk r q z) (Key.mk r' q' z') = (compare r r').then ((compare q q').then (compare z z')) := rfl

theorem then_compare_gt {p : ℚ} {z z' : ℤ} (h : q ≤ p) (hz : z' < z) : (compare p q).then (compare z z') = .gt := by
  rcases h.lt_or_eq with h | h
  · rw [compare_gt_iff_gt.2 h]
    rfl
  · rw [compare_eq_iff_eq.2 h.symm]
    exact compare_gt_iff_gt.2 hz

theorem then_compare_lt {p : ℚ} {z z' : ℤ} (h : p ≤ q) (hz : z < z') : (compare p q).then (compare z z') = .lt := by
  rcases h.lt_or_eq with h | h
  · rw [compare_lt_iff_lt.2 h]
    rfl
  · rw [compare_eq_iff_eq.2 h]
    exact compare_lt_iff_lt.2 hz

theorem compare_neg_neg (p q : ℚ) : compare (-p) (-q) = compare q p := by
  rw [← cmp_eq_compare, ← cmp_eq_compare, StrictAnti.cmp_map_eq fun _ _ => neg_lt_neg]

theorem decimalCmp_eq (a b : Decimal) : decimalCmp a b = compare a.key b.key := by
  cases a with
  | num neg1 w1 ds1 =>
    cases b with
    | num neg2 w2 ds2 =>
      have h1 := absValue_nonneg w1 ds1
      have h2 := absValue_nonneg w2 ds2
      rw [show compare (Decimal.num neg1 w1 ds1).key (Decimal.num neg2 w2 ds2).key = (compare
          (if neg1 then -absValue w1 ds1 else absValue w1 ds1) (if neg2 then -absValue w2 ds2 else absValue w2 ds2)).then
          (compare (if ds1 = [] then (0 : ℤ) else if neg1 then -1 else 1) (if ds2 = [] then 0 else if neg2 then -1 else 1))
        from rfl]
      unfold decimalCmp
      by_cases hd1 : ds1 = []
      · subst hd1
        by_cases hd2 : ds2 = []
        · subst hd2
          simp [absValue]
        · cases neg2
          · simp [hd2, absValue, then_compare_lt h2]
          · simp [hd2, absValue, then_compare_gt (neg_nonpos.2 h2)]
      · by_cases hd2 : ds2 = []
        · subst hd2
          cases neg1
          · simp [hd1, absValue, then_compare_gt h1]
          · simp [hd1, absValue, then_compare_lt (neg_nonpos.2 h1)]
        · have hs : -absValue w2 ds2 ≤ absValue w1 ds1 := by linarith
          have hsum' : -absValue w1 ds1 ≤ absValue w2 ds2 := by linarith
          cases neg1 <;> cases neg2
          · simp [hd1, hd2, decimalCmpAbs_eq]
          · simp [hd1, hd2, then_compare_gt hs]
          · simp [hd1, hd2, then_compare_lt hsum']
          · simp [hd1, hd2, decimalCmpAbs_eq, compare_neg_neg]
    | nan | min | max => rfl
  | nan | min | max => cases b <;> rfl

theorem compare_plainKey (p q : ℚ) : compare (plainKey p) (plainKey q) = compare p q := by
  have heq : compare (plainKey p) (plainKey q) = (compare p q).then (compare (if p < 0 then (-1 : ℤ) else
      if p = 0 then 0 else 1) (if q < 0 then -1 else if q = 0 then 0 else 1)) := rfl
  rw [heq]
  rcases lt_trichotomy p q with h | h | h
  · rw [compare_lt_iff_lt.2 h]
    rfl
  · subst h
    simp
  · rw [compare_gt_iff_gt.2 h]
    rfl

/-! ### Converting to digits -/

theorem nbaseLoop_spec {fuel uval : Nat} (hf : fuel ≠ 0) (h : uval < DECIMAL_NBASE ^ fuel) (ds : Digits) :
    ∃ front, nbaseLoop fuel uval ds = front ++ ds ∧ front ≠ [] ∧ ∀ w : ℤ,
      absValue (w + front.length) (front ++ ds) = uval * (DECIMAL_NBASE : ℚ) ^ (w + 1) + absValue w ds := by
  induction fuel generalizing uval ds with
  | zero => exact absurd rfl hf
  | succ fuel ih =>
    have hd := div_add_mod uval DECIMAL_NBASE
    unfold nbaseLoop
    simp only
    split
    · next hz =>
      refine ⟨[⟨uval % DECIMAL_NBASE, mod_lt _ (by decide)⟩], rfl, by simp, fun w => ?_⟩
      have hv : uval % DECIMAL_NBASE = uval := mod_eq_of_lt (lt_of_div_eq_zero (by decide) hz)
      simp [absValue, hv]
    · next hz =>
      have hfuel : fuel ≠ 0 := by
        rintro rfl
        exact hz (div_eq_of_lt (by simpa using h))
      have hlt : uval / DECIMAL_NBASE < DECIMAL_NBASE ^ fuel := by
        rw [Nat.div_lt_iff_lt_mul (by decide), ← pow_succ]
        exact h
      obtain ⟨front, heq, -, hv⟩ := ih hfuel hlt (⟨uval % DECIMAL_NBASE, mod_lt _ (by decide)⟩ :: ds)
      refine ⟨front ++ [⟨uval % DECIMAL_NBASE, mod_lt _ (by decide)⟩], by rw [heq]; simp, by simp, fun w => ?_⟩
      have hw := hv (w + 1)
      have hl : w + ((front ++ [(⟨uval % DECIMAL_NBASE, mod_lt _ (by decide)⟩ : Fin DECIMAL_NBASE)]).length : ℤ) =
          w + 1 + front.length := by
        rw [List.length_append, List.length_singleton]
        push_cast
        ring
      rw [hl, List.append_assoc]
      show absValue (w + 1 + front.length) (front ++ (_ :: ds)) = _
      rw [hw]
      have hc : (uval : ℚ) = DECIMAL_NBASE * (uval / DECIMAL_NBASE : Nat) + (uval % DECIMAL_NBASE : Nat) := by
        exact_mod_cast hd.symm
      rw [nbase_succ (w + 1), hc, absValue_cons, add_sub_cancel_right]
      ring

theorem stripLeading_value : absValue (stripLeading w ds).1 (stripLeading w ds).2 = absValue w ds := by
  induction ds generalizing w with
  | nil => rfl
  | cons d ds ih =>
    unfold stripLeading
    split
    · next hd =>
      rw [ih, hd, absValue_cons_zero]
    · rfl

theorem stripTrailing_spec :
    absValue w (stripTrailing ds) = absValue w ds ∧ (stripTrailing ds = [] ↔ absValue w ds = 0) := by
  induction ds generalizing w with
  | nil => exact ⟨rfl, by simp [stripTrailing, absValue]⟩
  | cons d ds ih =>
    obtain ⟨hv, hn⟩ := ih (w - 1)
    unfold stripTrailing
    split
    · next heq =>
      have hz := hn.1 heq
      split
      · next hd =>
        subst hd
        rw [absValue_cons_zero, hz]
        exact ⟨rfl, by simp⟩
      · next hd =>
        have hp := (nbase_pos w).trans_le (absValue_cons_pos ds hd)
        refine ⟨?_, by simp [hp.ne']⟩
        unfold absValue
        rw [hz]
        rfl
    · next hne =>
      have hp : 0 < absValue w (d :: ds) := by
        have hrest : 0 < absValue (w - 1) ds :=
          lt_of_le_of_ne (absValue_nonneg _ _) fun h => hne (hn.2 h.symm)
        have := mul_nonneg (cast_nonneg d.val) (nbase_pos w).le
        unfold absValue
        linarith
      refine ⟨?_, by simp [hp.ne']⟩
      unfold absValue
      rw [hv]

theorem decimalStrip_key (neg : Bool) (w : ℤ) (ds : Digits) :
    (decimalStrip neg w ds).key = plainKey (if neg then -absValue w ds else absValue w ds) := by
  have hl := stripLeading_value w ds
  obtain ⟨ht, hn⟩ := stripTrailing_spec (stripLeading w ds).1 (stripLeading w ds).2
  have hnn := absValue_nonneg w ds
  unfold decimalStrip
  simp only
  rw [hl] at ht hn
  split
  · next heq =>
    rw [hn.1 heq]
    simp [Decimal.key, absValue, plainKey]
  · next hne =>
    have hp : 0 < absValue w ds := lt_of_le_of_ne hnn fun h => hne (hn.2 h.symm)
    rw [Decimal.key_num, plainKey, ht]
    cases neg
    · simp [hne, hp.ne', hnn.not_gt]
    · simp [hne, hp]

theorem decimalFromLong_key (h : v.natAbs < DECIMAL_NBASE ^ 5) : (decimalFromLong v).key = plainKey v := by
  unfold decimalFromLong
  split
  · next hv =>
    subst hv
    simp [Decimal.key, absValue, plainKey]
  · next hv =>
    obtain ⟨front, heq, hne, hval⟩ := nbaseLoop_spec (by decide) h []
    have hw := hval (-1)
    rw [List.append_nil] at heq hw
    have hvalue : absValue (front.length - 1) front = v.natAbs := by
      rw [show (front.length : ℤ) - 1 = -1 + front.length by ring, hw]
      simp [absValue]
    simp only [heq]
    rw [Decimal.key_num, plainKey, hvalue]
    rcases lt_or_gt_of_ne hv with hlt | hgt
    · have ha : ((v.natAbs : ℕ) : ℚ) = -v := by
        rw [cast_natAbs, abs_of_neg hlt, Int.cast_neg]
      have hq : (v : ℚ) < 0 := by exact_mod_cast hlt
      simp [hne, hlt, ha, hq]
    · have ha : ((v.natAbs : ℕ) : ℚ) = v := by
        rw [cast_natAbs, abs_of_pos hgt]
      have hq : (0 : ℚ) < v := by exact_mod_cast hgt
      simp [hne, not_lt.2 hgt.le, ha, hq.ne', not_lt.2 hq.le]

theorem decimalFromScaled_key (neg : Bool) {m : Nat} (e : ℤ) (h : m < 10 ^ 20) :
    (decimalFromScaled neg m e).key = plainKey (if neg then -(m * (10 : ℚ) ^ e) else m * (10 : ℚ) ^ e) := by
  have hmod : 0 ≤ e % 4 ∧ e % 4 < 4 := by omega
  have hb : m * 10 ^ (e % 4).toNat < DECIMAL_NBASE ^ 6 := by
    have hp : 10 ^ (e % 4).toNat ≤ 10 ^ 3 := Nat.pow_le_pow_right (by norm_num) (by omega)
    calc m * 10 ^ (e % 4).toNat ≤ m * 10 ^ 3 := Nat.mul_le_mul_left _ hp
      _ < 10 ^ 20 * 10 ^ 3 := Nat.mul_lt_mul_of_pos_right h (by norm_num)
      _ ≤ DECIMAL_NBASE ^ 6 := by norm_num [DECIMAL_NBASE]
  obtain ⟨front, heq, -, hv⟩ := nbaseLoop_spec (by decide) hb []
  have hw := hv (e / 4 - 1)
  rw [List.append_nil] at heq hw
  have hp : (10 : ℚ) ^ (e % 4).toNat * (DECIMAL_NBASE : ℚ) ^ (e / 4) = (10 : ℚ) ^ e := by
    rw [show ((DECIMAL_NBASE : ℕ) : ℚ) = (10 : ℚ) ^ (4 : ℤ) by norm_num, ← zpow_mul, ← zpow_natCast,
      ← zpow_add₀ (by norm_num)]
    congr 1
    omega
  have hvalue : absValue (front.length - 1 + e / 4) front = m * (10 : ℚ) ^ e := by
    rw [show (front.length : ℤ) - 1 + e / 4 = e / 4 - 1 + front.length by ring, hw, ← hp]
    push_cast
    simp [absValue]
    ring
  unfold decimalFromScaled
  simp only [heq]
  rw [decimalStrip_key, hvalue]

/-! ### Rounding -/

theorem roundHalfEven_le {n : ℤ} (h : q < n + 1 / 2) : roundHalfEven q ≤ n := by
  have hfl := Int.floor_le q
  have hlt := Int.lt_floor_add_one q
  have hle : ⌊q⌋ ≤ n := by
    have : (⌊q⌋ : ℚ) < n + 1 := by linarith
    have : ⌊q⌋ < n + 1 := by exact_mod_cast this
    omega
  unfold roundHalfEven
  simp only
  split_ifs with h₁ h₂ h3
  · exact hle
  all_goals
    first
    | exact hle
    | rcases hle.lt_or_eq with hlt' | heq
      · omega
      · rw [heq] at h₁
        exact absurd (by linarith) h₁

theorem le_roundHalfEven {n : ℤ} (h : n ≤ q) : n ≤ roundHalfEven q := by
  have hle : n ≤ ⌊q⌋ := Int.le_floor.2 h
  unfold roundHalfEven
  simp only
  split_ifs <;> omega

theorem roundHalfEven_intCast (n : ℤ) : roundHalfEven n = n := by
  refine le_antisymm (roundHalfEven_le ?_) (le_roundHalfEven le_rfl)
  linarith

theorem lengthLoop_le_iff {base fuel n k : Nat} (hb : 2 ≤ base) (h : n < base ^ fuel) :
    lengthLoop base fuel n ≤ k ↔ n < base ^ k := by
  induction fuel generalizing n k with
  | zero =>
    have hn : n = 0 := by simpa using h
    simp [lengthLoop, hn, Nat.pow_pos (show 0 < base by omega)]
  | succ fuel ih =>
    unfold lengthLoop
    split
    · next hn => simp [hn, Nat.pow_pos (show 0 < base by omega)]
    · next hn =>
      cases k with
      | zero => simp [hn]
      | succ k =>
        have hlt : n / base < base ^ fuel := by
          rw [Nat.div_lt_iff_lt_mul (by omega), ← pow_succ]
          exact h
        rw [Nat.add_le_add_iff_right, ih hlt, Nat.div_lt_iff_lt_mul (by omega), ← pow_succ]

theorem doubleOfLong_safe (h : v.natAbs < 2 ^ 53) : doubleOfLong v = v := by
  have hl : lengthLoop 2 64 v.natAbs - 53 = 0 := by
    have hm : v.natAbs < 2 ^ 64 := h.trans (by norm_num)
    have := (lengthLoop_le_iff le_rfl hm).2 h
    omega
  have hr : roundHalfEven (v.natAbs : ℚ) = v.natAbs := by
    rw [← Int.cast_natCast]
    exact roundHalfEven_intCast _
  unfold doubleOfLong
  simp only [hl, pow_zero, div_one, hr, mul_one]
  exact_mod_cast Int.sign_mul_natAbs v

theorem doubleOfLong_beyond (h : 2 ^ 53 ≤ v.natAbs) (hm : v.natAbs < 2 ^ 64) :
    ∃ m : ℚ, 2 ^ 53 ≤ m ∧ doubleOfLong v = v.sign * m := by
  have hi : ∀ k, lengthLoop 2 64 v.natAbs ≤ k ↔ v.natAbs < 2 ^ k := fun k => lengthLoop_le_iff le_rfl hm
  unfold doubleOfLong
  generalize lengthLoop 2 64 v.natAbs = len at hi ⊢
  have h54 : ¬ len ≤ 53 := by
    rw [hi]
    omega
  have hb : 2 ^ (len - 1) ≤ v.natAbs := by
    rw [← not_lt, ← hi]
    omega
  refine ⟨_, ?_, rfl⟩
  have hp : (2 : ℚ) ^ (len - 1) = 2 ^ 52 * 2 ^ (len - 53) := by
    rw [← pow_add]
    congr 1
    omega
  have hr : (2 ^ 52 : ℤ) ≤ roundHalfEven ((v.natAbs : ℚ) / 2 ^ (len - 53)) := by
    refine le_roundHalfEven ?_
    rw [le_div_iff₀ (by positivity), show (((2 ^ 52 : ℤ)) : ℚ) = 2 ^ 52 by norm_num, ← hp]
    exact_mod_cast hb
  have hround' : (2 : ℚ) ^ 52 ≤ (roundHalfEven ((v.natAbs : ℚ) / 2 ^ (len - 53)) : ℚ) := by exact_mod_cast hr
  have he : (2 : ℚ) ^ 1 ≤ 2 ^ (len - 53) := pow_le_pow_right₀ (by norm_num) (by omega)
  rw [show (2 : ℚ) ^ 53 = 2 ^ 52 * 2 ^ 1 by norm_num]
  exact mul_le_mul hround' he (by norm_num) (le_trans (by norm_num) hround')

def digits15 (q : ℚ) : ℚ := (significant15 q).1 * (10 : ℚ) ^ (significant15 q).2

theorem exponent10_le {k : ℕ} (hq : q < 10 ^ k) (hk : k ≤ 316) : exponent10 q ≤ k - 1 := by
  have hlt : ⌊q * 10 ^ 324⌋.toNat < 10 ^ (k + 324) := by
    rw [Int.toNat_lt' (by positivity), Int.floor_lt]
    push_cast
    rw [pow_add]
    exact mul_lt_mul_of_pos_right hq (by positivity)
  have hm : ⌊q * 10 ^ 324⌋.toNat < 10 ^ 640 := hlt.trans_le (Nat.pow_le_pow_right (by norm_num) (by omega))
  have := (lengthLoop_le_iff (by norm_num) hm).2 hlt
  unfold exponent10
  omega

theorem lt_exponent10 (hq : q < 10 ^ 316) : q < (10 : ℚ) ^ (exponent10 q + 1) := by
  have hm : ⌊q * 10 ^ 324⌋.toNat < 10 ^ 640 := by
    rw [Int.toNat_lt' (by positivity), Int.floor_lt]
    push_cast
    rw [show (10 : ℚ) ^ 640 = 10 ^ 316 * 10 ^ 324 by rw [← pow_add]]
    exact mul_lt_mul_of_pos_right hq (by positivity)
  have hlt := (lengthLoop_le_iff (by norm_num) hm).1 le_rfl
  have hf : q * 10 ^ 324 < 10 ^ lengthLoop 10 640 ⌊q * 10 ^ 324⌋.toNat := by
    rw [Int.toNat_lt' (by positivity), Int.floor_lt] at hlt
    exact_mod_cast hlt
  unfold exponent10
  rw [show ((lengthLoop 10 640 ⌊q * 10 ^ 324⌋.toNat : ℤ) - 325 + 1) =
    (lengthLoop 10 640 ⌊q * 10 ^ 324⌋.toNat : ℤ) - (324 : ℕ) by push_cast; ring, zpow_sub₀ (by norm_num), zpow_natCast,
    zpow_natCast, lt_div_iff₀ (by positivity)]
  exact hf

theorem significant15_le (hq : q < 10 ^ 316) : (significant15 q).1 ≤ 10 ^ 15 := by
  have hlt := lt_exponent10 hq
  have hle : roundHalfEven (q / (10 : ℚ) ^ (exponent10 q - 14)) ≤ (10 ^ 15 : ℤ) := by
    refine roundHalfEven_le ?_
    have hdiv : q / (10 : ℚ) ^ (exponent10 q - 14) < 10 ^ 15 := by
      rw [div_lt_iff₀ (zpow_pos (by norm_num) _), ← zpow_natCast, ← zpow_add₀ (by norm_num)]
      rw [show exponent10 q + 1 = (15 : ℕ) + (exponent10 q - 14) by push_cast; ring] at hlt
      exact hlt
    push_cast
    linarith
  unfold significant15
  simp only
  omega

theorem digits15_lt (hq : q ≤ 9007199254740991) : digits15 q < 2 ^ 53 := by
  have hq16 : q < 10 ^ 16 := hq.trans_lt (by norm_num)
  have hle := significant15_le (hq16.trans_le (pow_le_pow_right₀ (by norm_num) (by norm_num)))
  have hle' : ((significant15 q).1 : ℚ) ≤ 10 ^ 15 := by exact_mod_cast hle
  have hexp := exponent10_le hq16 (by norm_num)
  unfold digits15
  by_cases h15 : exponent10 q = 15
  · -- 16 digits in front of the point: the last one is rounded
    have hm : roundHalfEven (q / (10 : ℚ) ^ (exponent10 q - 14)) ≤ 900719925474099 := by
      refine roundHalfEven_le ?_
      rw [h15, show ((15 : ℤ) - 14) = 1 by norm_num, zpow_one]
      push_cast
      linarith
    have hm' : (significant15 q).1 ≤ 900719925474099 := by
      unfold significant15
      simp only
      omega
    have hm'' : ((significant15 q).1 : ℚ) ≤ 900719925474099 := by exact_mod_cast hm'
    have he : (significant15 q).2 = 1 := by
      unfold significant15
      simp only
      omega
    rw [he, zpow_one]
    linarith
  · have he : (significant15 q).2 ≤ 0 := by
      unfold significant15
      simp only
      push_cast at hexp
      omega
    calc ((significant15 q).1 : ℚ) * (10 : ℚ) ^ (significant15 q).2 ≤ 10 ^ 15 * (10 : ℚ) ^ (0 : ℤ) :=
          mul_le_mul hle' (zpow_le_zpow_right₀ (by norm_num) he) (zpow_pos (by norm_num) _).le (by positivity)
      _ < 2 ^ 53 := by norm_num

end SequoiaDB.Bson

import SequoiaDB.Bson.Element
import SequoiaDB.Bson.NumberSpec
import SequoiaDB.Lib.TwoViews

/-!
# The order of numbers and times

Numbers are compared by their exact values, or as decimals, for which a `double` is rounded to 15 digits; timestamps by
seconds and increments, or as microseconds when they meet a date.  So the order of elements is a comparison through
two views, and where it is a total preorder is known exactly.
-/

namespace SequoiaDB.Bson

open SequoiaDB.Lib Element Key

/-! ### Doubles as keys -/

def Real64.key : Real64 → Key
  | .nan => .mk (-1) 0 0
  | .negInf => .mk 0 0 0
  | .fin q => plainKey q
  | .posInf => .mk 3 0 0

theorem Real64.compare_eq (a b : Real64) : a.compare b = Ord.compare a.key b.key := by
  cases a with
  | fin p =>
    cases b with
    | fin q => exact (compare_plainKey p q).symm
    | _ => rfl
  | nan | negInf | posInf => cases b <;> rfl

theorem Double.magnitude_nonneg (d : Double) : 0 ≤ d.magnitude := by
  unfold Double.magnitude
  split <;> exact mul_nonneg (Nat.cast_nonneg _) (zpow_pos (by norm_num) _).le

theorem Double.magnitude_lt (d : Double) : d.magnitude < 10 ^ 316 := by
  have hf : (d.fraction : ℚ) ≤ 2 ^ 53 := by
    have : d.fraction < 2 ^ 52 := Nat.mod_lt _ (by norm_num)
    exact_mod_cast (by omega : d.fraction ≤ 2 ^ 53)
  have hs : ((2 ^ 52 + d.fraction : Nat) : ℚ) ≤ 2 ^ 53 := by
    have : d.fraction < 2 ^ 52 := Nat.mod_lt _ (by norm_num)
    exact_mod_cast (by omega : 2 ^ 52 + d.fraction ≤ 2 ^ 53)
  have hexp : (d.exponent : ℤ) - 1075 ≤ 972 := by
    have : d.exponent < 2 ^ 11 := Nat.mod_lt _ (by norm_num)
    omega
  have hmax : (2 : ℚ) ^ 53 * (2 : ℚ) ^ (972 : ℤ) < 10 ^ 316 := by
    calc (2 : ℚ) ^ 53 * (2 : ℚ) ^ (972 : ℤ) = (2 : ℚ) ^ (1025 : ℕ) := by
          rw [← zpow_natCast, ← zpow_natCast, ← zpow_add₀ (by norm_num)]
          norm_num
      _ ≤ (2 : ℚ) ^ (13 * 79) := pow_le_pow_right₀ (by norm_num) (by norm_num)
      _ = (2 ^ 13) ^ 79 := pow_mul ..
      _ < (10 ^ 4) ^ 79 := pow_lt_pow_left₀ (by norm_num) (by norm_num) (by norm_num)
      _ = 10 ^ 316 := by rw [← pow_mul]
  have hle : ∀ {m : ℚ} {e : ℤ}, m ≤ 2 ^ 53 → e ≤ 972 → m * (2 : ℚ) ^ e < 10 ^ 316 := by
    intro m e hm he
    refine lt_of_le_of_lt (mul_le_mul hm (zpow_le_zpow_right₀ (by norm_num) he) (zpow_pos (by norm_num) _).le
      (by norm_num)) hmax
  unfold Double.magnitude
  split
  · exact hle hf (by norm_num)
  · exact hle hs hexp

def round15 (q : ℚ) : ℚ := if q = 0 then 0 else if q < 0 then -digits15 |q| else digits15 |q|

variable {d : Double} {q : ℚ}

theorem Double.abs_value (h : d.value = .fin q) : |q| = d.magnitude := by
  have hnn := d.magnitude_nonneg
  unfold Double.value at h
  split_ifs at h <;> cases h
  · rw [abs_neg, abs_of_nonneg hnn]
  · exact abs_of_nonneg hnn

theorem decimalFromDouble_key (hn : d.value ≠ .nan) : (decimalFromDouble d).key = match d.value with
      | .fin q => plainKey (round15 q)
      | v => v.key := by
  unfold decimalFromDouble
  cases hv : d.value with
  | nan => exact absurd hv hn
  | negInf | posInf => rfl
  | fin q =>
    simp only
    unfold round15
    split_ifs with hq hneg
    · simp [Decimal.key, absValue, plainKey]
    all_goals
      have hlt : |q| < 10 ^ 316 := by
        rw [Double.abs_value hv]
        exact d.magnitude_lt
      have hm : (significant15 |q|).1 < 10 ^ 20 := (significant15_le hlt).trans_lt (by norm_num)
      rw [decimalFromScaled_key _ _ hm]
      simp [hneg, digits15]

theorem round15_safe (h : |q| ≤ 9007199254740991) : |round15 q| < 2 ^ 53 := by
  have hlt := digits15_lt h
  have hnn : 0 ≤ digits15 |q| := mul_nonneg (Nat.cast_nonneg _) (zpow_pos (by norm_num) _).le
  unfold round15
  split_ifs
  · norm_num
  · rw [abs_neg, abs_of_nonneg hnn]
    exact hlt
  · rw [abs_of_nonneg hnn]
    exact hlt

/-! ### Longs and doubles -/

theorem natAbs_long_lt (v : BitVec 64) : v.toInt.natAbs < 2 ^ 64 := by
  have := v.toInt_lt
  have := v.le_toInt
  omega

variable {v : ℤ}

theorem longBeyond_iff : longBeyond v ↔ 2 ^ 53 ≤ v.natAbs := by
  unfold longBeyond LONG_UPPER_SAFE_BOUND LONG_LOWER_SAFE_BOUND
  rw [decide_eq_true_iff]
  omega

theorem decimalFromLong_key_bv (v : BitVec 64) : (decimalFromLong v.toInt).key = plainKey v.toInt :=
  decimalFromLong_key ((natAbs_long_lt v).trans (by norm_num))

/-- The key of a double against a long: the decimal one if the long is beyond the safe bounds. -/
def Double.keyFor (d : Double) (v : ℤ) : Key := if longBeyond v then (decimalFromDouble d).key else d.value.key

theorem compare_far {p q m : ℚ} (hp : |p| < 2 ^ 53) (hq : |q| < 2 ^ 53) (hm : 2 ^ 53 ≤ m) (hv : 2 ^ 53 ≤ v.natAbs) :
    compare p (v.sign * m) = compare q v := by
  obtain ⟨hp1, hp2⟩ := abs_lt.1 hp
  obtain ⟨hq1, hq2⟩ := abs_lt.1 hq
  rcases lt_trichotomy v 0 with hlt | heq | hgt
  · have hv' : (v : ℚ) ≤ -2 ^ 53 := by
      have : v ≤ -2 ^ 53 := by omega
      exact_mod_cast this
    rw [Int.sign_eq_neg_one_of_neg hlt, compare_gt_iff_gt.2 (show (v : ℚ) < q by linarith), compare_gt_iff_gt]
    push_cast
    linarith
  · subst heq
    simp at hv
  · have hv' : (2 ^ 53 : ℚ) ≤ v := by
      have : 2 ^ 53 ≤ v := by omega
      exact_mod_cast this
    rw [Int.sign_eq_one_of_pos hgt, compare_lt_iff_lt.2 (show q < v by linarith), compare_lt_iff_lt]
    push_cast
    linarith

theorem double_compare_long (hn : d.value ≠ .nan) (v : BitVec 64) :
    (if longBeyond v.toInt && d.value.beyond then decimalCmp (decimalFromDouble d) (decimalFromLong v.toInt)
      else d.value.compare (.fin (doubleOfLong v.toInt))) = compare (d.keyFor v.toInt) (plainKey v.toInt) := by
  unfold Double.keyFor
  by_cases hf : longBeyond v.toInt = true
  · by_cases hd : d.value.beyond = true
    · rw [hf, hd, decimalCmp_eq, decimalFromLong_key_bv]
      rfl
    · -- the double is within the bounds, exactly and as a decimal
      have hv := longBeyond_iff.1 hf
      obtain ⟨m, hm, hdouble⟩ := doubleOfLong_beyond hv (natAbs_long_lt v)
      rw [if_neg (by simp [hd]), if_pos hf, decimalFromDouble_key hn]
      cases hval : d.value with
      | nan => exact absurd hval hn
      | negInf | posInf => simp [hval, Real64.beyond] at hd
      | fin q =>
        have hq : |q| ≤ 9007199254740991 := by
          have hin : ¬ (q > LONG_UPPER_SAFE_BOUND ∨ q < LONG_LOWER_SAFE_BOUND) := fun ho => hd (by
            rw [hval]
            exact decide_eq_true ho)
          obtain ⟨hu, hl⟩ := not_or.1 hin
          unfold LONG_UPPER_SAFE_BOUND at hu
          unfold LONG_LOWER_SAFE_BOUND at hl
          push_cast at hu hl
          exact abs_le.2 ⟨not_lt.1 hl, not_lt.1 hu⟩
        rw [compare_plainKey, hdouble]
        exact compare_far (hq.trans_lt (by norm_num)) (round15_safe hq) hm hv
  · have hv : v.toInt.natAbs < 2 ^ 53 := by
      rw [longBeyond_iff] at hf
      omega
    rw [if_neg (by simp [hf]), if_neg hf, Real64.compare_eq, doubleOfLong_safe hv]
    rfl

/-! ### The two views -/

namespace Element

def Scalar : Element → Prop
  | .int _ => True
  | .long _ => True
  | .double d => d.value ≠ .nan
  | .decimal _ => True
  | .date _ => True
  | .timestamp _ _ => True
  | _ => False

def exactKey : Element → Key
  | .int v => plainKey v.toInt
  | .long v => plainKey v.toInt
  | .double d => d.value.key
  | .timestamp secs inc => .mk 4 secs.toInt inc.toNat
  | _ => .mk 5 0 0

def decimalKey : Element → Key
  | .int v => plainKey v.toInt
  | .long v => plainKey v.toInt
  | .double d => (decimalFromDouble d).key
  | .decimal d => d.key
  | .date millis => .mk 4 (millis.toInt * 1000 : ℤ) 0
  | .timestamp secs inc => .mk 4 (secs.toInt * 1000000 + inc.toNat : ℤ) 0
  | _ => .mk 5 0 0

def Special : Element → Prop
  | .decimal _ => True
  | .date _ => True
  | .long v => longBeyond v.toInt = true
  | _ => False

instance : DecidablePred Special
  | .decimal _ => inferInstanceAs (Decidable True)
  | .date _ => inferInstanceAs (Decidable True)
  | .long v => inferInstanceAs (Decidable (longBeyond v.toInt = true))
  | .minKey | .maxKey | .undefined | .null | .int _ | .double _ | .string _ | .symbol _ | .code _ | .object _ | .array _
  | .binData _ _ | .oid _ | .bool _ | .timestamp _ _ | .regEx _ _ | .dbRef _ | .codeWScope _ _ =>
    inferInstanceAs (Decidable False)

end Element

theorem compare_intCast (a b : ℤ) : compare (a : ℚ) b = compare a b := by
  rw [← cmp_eq_compare, ← cmp_eq_compare, Int.cast_strictMono.cmp_map_eq]

theorem Key.compare_time (a b z z' : ℤ) : compare (mk 4 a z) (mk 4 b z') = (compare a b).then (compare z z') := by
  rw [compare_mk, compare_eq_iff_eq.2 rfl, compare_intCast]
  rfl

theorem compareTimestampDate_eq (secs inc : BitVec 32) (millis : BitVec 64) : compareTimestampDate secs inc millis =
      compare (mk 4 (secs.toInt * 1000000 + inc.toNat : ℤ) 0) (mk 4 (millis.toInt * 1000 : ℤ) 0) := by
  rw [compare_time, compare_eq_iff_eq.2 (rfl : (0 : ℤ) = 0), Ordering.then_eq]
  unfold compareTimestampDate
  simp only
  split_ifs with h1 h2 h3
  · rw [eq_comm, compare_gt_iff_gt]
    omega
  · rw [eq_comm, compare_eq_iff_eq]
    omega
  · rw [eq_comm, compare_gt_iff_gt]
    omega
  · rw [eq_comm, compare_lt_iff_lt]
    omega

theorem compareTimestamps_eq (secs inc secs' inc' : BitVec 32) : compareTimestamps secs inc secs' inc' =
      compare (mk 4 secs.toInt inc.toNat) (mk 4 secs'.toInt inc'.toNat) := by
  rw [compare_time]
  unfold compareTimestamps
  split_ifs with h1 h2 h3 h4
  · rw [compare_lt_iff_lt.2 h2]
    rfl
  · rw [compare_gt_iff_gt.2 (show secs'.toInt < secs.toInt by omega)]
    rfl
  all_goals
    rw [compare_eq_iff_eq.2 (not_not.1 h1), Ordering.eq_then, eq_comm]
  · rw [compare_lt_iff_lt]
    omega
  · rw [compare_eq_iff_eq, h4]
  · rw [compare_gt_iff_gt]
    have : inc.toNat ≠ inc'.toNat := fun h => h4 (BitVec.eq_of_toNat_eq h)
    omega

/-! ### The order as a comparison through two views -/

abbrev viewOrder : Element → Element → Ordering := viewCompare exactKey decimalKey Element.Special

variable {x y : Element}

theorem viewOrder_special (h : x.Special ∨ y.Special) : viewOrder x y = compare x.decimalKey y.decimalKey := if_pos h

theorem viewOrder_plain (hx : ¬ x.Special) (hy : ¬ y.Special) :
    viewOrder x y = compare x.exactKey y.exactKey := if_neg (by simp [hx, hy])

variable {x : Element}

theorem numberDecimal_key (hx : x.isNumber) : x.numberDecimal.key = x.decimalKey := by
  cases x with
  | int v =>
    refine decimalFromLong_key ?_
    have := v.toInt_lt
    have := v.le_toInt
    norm_num [DECIMAL_NBASE]
    omega
  | long v => exact decimalFromLong_key_bv v
  | double | decimal => rfl
  | _ => cases hx

theorem compare_integers {a b : ℤ} (hx : x.numberLong = some a) (hy : y.numberLong = some b) :
    compareElementValues x y = viewOrder x y := by
  have hk : ∀ {z : Element} {c : ℤ}, z.numberLong = some c → z.exactKey = plainKey c ∧ z.decimalKey = plainKey c := by
    intro z c hz
    cases z <;> cases hz <;> exact ⟨rfl, rfl⟩
  have hv : viewOrder x y = compare a b := by
    unfold viewOrder viewCompare
    rw [(hk hx).1, (hk hx).2, (hk hy).1, (hk hy).2, compare_plainKey, compare_intCast, ite_self]
  rw [hv]
  cases x <;> cases hx <;> cases y <;> cases hy <;> rfl

theorem compare_decimal (hx : x.isNumber) (hy : y.isNumber) (h : (∃ d, x = .decimal d) ∨ ∃ d, y = .decimal d) :
    compareElementValues x y = viewOrder x y := by
  have heq : compareElementValues x y = decimalCmp x.numberDecimal y.numberDecimal := by
    rcases h with ⟨d, rfl⟩ | ⟨d, rfl⟩
    · unfold compareElementValues
      rfl
    · cases x with
      | int | long | double | decimal => rfl
      | _ => cases hx
  rw [heq, decimalCmp_eq, numberDecimal_key hx, numberDecimal_key hy, viewOrder_special]
  rcases h with ⟨d, rfl⟩ | ⟨d, rfl⟩
  · exact .inl trivial
  · exact .inr trivial

theorem compare_double (hn : d.value ≠ .nan) {y : Element} (hy : y.Scalar) (hnum : y.isNumber)
    (hd : ∀ d, y ≠ .decimal d) : compareElementValues (.double d) y = viewOrder (.double d) y := by
  cases y with
  | int v | double d' =>
    rw [viewOrder_plain id id]
    exact Real64.compare_eq ..
  | long v =>
    refine (double_compare_long hn v).trans ?_
    unfold Double.keyFor
    split
    · next hfar =>
      rw [viewOrder_special (y := .long v) (.inr hfar)]
      rfl
    · next hfar =>
      rw [viewOrder_plain (x := .double d) (y := .long v) id hfar]
      rfl
  | decimal d' => exact absurd rfl (hd d')
  | _ => cases hnum

theorem decimalCmp_swap (a b : Decimal) : decimalCmp b a = (decimalCmp a b).swap := by
  rw [decimalCmp_eq, decimalCmp_eq]
  exact Std.OrientedCmp.eq_swap

theorem compareNumbers_swap (hx : x.isNumber) (hd : ∀ d, x ≠ .decimal d) :
    compareElementValues x (.double d) = (compareElementValues (.double d) x).swap := by
  have hc : ∀ a b : Real64, a.compare b = (b.compare a).swap := fun a b => by
    rw [Real64.compare_eq, Real64.compare_eq]
    exact Std.OrientedCmp.eq_swap
  cases x with
  | int | double => exact hc _ _
  | long v =>
    show (if longBeyond v.toInt && d.value.beyond then _ else _) =
      Ordering.swap (if longBeyond v.toInt && d.value.beyond then _ else _)
    split
    · exact decimalCmp_swap _ _
    · exact hc _ _
  | decimal d' => exact absurd rfl (hd d')
  | _ => cases hx

theorem compare_numbers (hx : x.Scalar) (hy : y.Scalar) (hnx : x.isNumber) (hny : y.isNumber) :
    compareElementValues x y = viewOrder x y := by
  by_cases hd : (∃ d, x = .decimal d) ∨ ∃ d, y = .decimal d
  · exact compare_decimal hnx hny hd
  · obtain ⟨hdx, hdy⟩ := not_or.1 hd
    have hdx' : ∀ d, x ≠ .decimal d := fun d h => hdx ⟨d, h⟩
    have hdy' : ∀ d, y ≠ .decimal d := fun d h => hdy ⟨d, h⟩
    by_cases hfx : ∃ d, x = .double d
    · obtain ⟨d, rfl⟩ := hfx
      exact compare_double hx hy hny hdy'
    · by_cases hfy : ∃ d, y = .double d
      · obtain ⟨d, rfl⟩ := hfy
        rw [compareNumbers_swap hnx hdx', compare_double hy hx hnx hdx']
        exact viewCompare_swap.symm
      · -- both are integers
        have hi : ∀ {z : Element}, z.isNumber → (∀ d, z ≠ .decimal d) → (¬ ∃ d, z = .double d) →
            ∃ a, z.numberLong = some a := by
          intro z hz hzd hzf
          cases z with
          | int | long => exact ⟨_, rfl⟩
          | double d => exact absurd ⟨d, rfl⟩ hzf
          | decimal d => exact absurd rfl (hzd d)
          | _ => cases hz
        obtain ⟨a, ha⟩ := hi hnx hdx' hfx
        obtain ⟨b, hb⟩ := hi hny hdy' hfy
        exact compare_integers ha hb

def Element.isTime : Element → Bool
  | .date _ => true
  | .timestamp _ _ => true
  | _ => false

theorem compare_times (hx : x.isTime) (hy : y.isTime) : compareElementValues x y = viewOrder x y := by
  have hs : ∀ a b : Key, compare a b = (compare b a).swap := fun _ _ => Std.OrientedCmp.eq_swap
  cases x with
  | date m =>
    cases y with
    | date m' =>
      rw [viewOrder_special (x := .date m) (.inl trivial)]
      show compare m.toInt m'.toInt = compare (mk 4 (m.toInt * 1000 : ℤ) 0) (mk 4 (m'.toInt * 1000 : ℤ) 0)
      rw [compare_time, compare_eq_iff_eq.2 (rfl : (0 : ℤ) = 0), Ordering.then_eq]
      rcases lt_trichotomy m.toInt m'.toInt with h | h | h
      · rw [compare_lt_iff_lt.2 h, eq_comm, compare_lt_iff_lt]
        omega
      · rw [compare_eq_iff_eq.2 h, compare_eq_iff_eq.2 (by rw [h])]
      · rw [compare_gt_iff_gt.2 h, eq_comm, compare_gt_iff_gt]
        omega
    | timestamp secs inc =>
      rw [viewOrder_special (x := .date m) (.inl trivial)]
      exact (congrArg Ordering.swap (compareTimestampDate_eq secs inc m)).trans (hs _ _).symm
    | _ => cases hy
  | timestamp secs inc =>
    cases y with
    | date m =>
      rw [viewOrder_special (y := .date m) (.inr trivial)]
      exact compareTimestampDate_eq secs inc m
    | timestamp secs' inc' =>
      rw [viewOrder_plain id id]
      exact compareTimestamps_eq secs inc secs' inc'
    | _ => cases hy
  | _ => cases hx

theorem number_before_time (hx : x.isNumber) (hy : y.isTime) : viewOrder x y = .lt := by
  have hlt : ∀ {r : ℤ} {q q' : ℚ} {z z' : ℤ}, r < 4 → compare (mk r q z) (mk 4 q' z') = .lt := by
    intro r q q' z z' hr
    rw [compare_mk, compare_lt_iff_lt.2 hr]
    rfl
  have hreal : ∀ v : Real64, ∃ r q z, v.key = .mk r q z ∧ r < 4 := by
    intro v
    cases v <;> exact ⟨_, _, _, rfl, by norm_num⟩
  have hd : ∀ d : Decimal, ∃ r q z, d.key = .mk r q z ∧ r < 4 := by
    intro d
    cases d <;> exact ⟨_, _, _, rfl, by norm_num⟩
  have hp : ∀ q : ℚ, ∃ r q' z, plainKey q = .mk r q' z ∧ r < 4 := fun q => ⟨_, _, _, rfl, by norm_num⟩
  obtain ⟨q', z', hy2⟩ : ∃ q' z', y.decimalKey = .mk 4 q' z' := by
    cases y with
    | date | timestamp => exact ⟨_, _, rfl⟩
    | _ => cases hy
  by_cases hs : x.Special ∨ y.Special
  · rw [viewOrder_special hs, hy2]
    obtain ⟨r, q, z, heq, hr⟩ : ∃ r q z, x.decimalKey = .mk r q z ∧ r < 4 := by
      rw [← numberDecimal_key hx]
      exact hd _
    rw [heq]
    exact hlt hr
  · obtain ⟨hsx, hsy⟩ := not_or.1 hs
    obtain ⟨q1, z1, hy1⟩ : ∃ q z, y.exactKey = .mk 4 q z := by
      cases y with
      | date m => exact absurd trivial hsy
      | timestamp secs inc => exact ⟨_, _, rfl⟩
      | _ => cases hy
    obtain ⟨r, q, z, heq, hr⟩ : ∃ r q z, x.exactKey = .mk r q z ∧ r < 4 := by
      cases x with
      | int | long => exact hp _
      | double d => exact hreal _
      | decimal d => exact absurd trivial hsx
      | _ => cases hx
    rw [viewOrder_plain hsx hsy, hy1, heq]
    exact hlt hr

theorem woCompare_eq_viewOrder (hx : x.Scalar) (hy : y.Scalar) : x.woCompare y = viewOrder x y := by
  have hk : ∀ {z : Element}, z.Scalar →
      z.isNumber = true ∧ z.canonicalType = 10 ∨ z.isTime = true ∧ z.isNumber = false ∧ z.canonicalType = 45 := by
    intro z hz
    cases z <;> first | exact .inl ⟨rfl, rfl⟩ | exact .inr ⟨rfl, rfl, rfl⟩ | cases hz
  have hs : x.canonicalType = y.canonicalType → x.woCompare y = compareElementValues x y := by
    intro ht
    simp [Element.woCompare, orderBy, ht]
  rcases hk hx with ⟨hnx, hcx⟩ | ⟨htx, hnx, hcx⟩ <;> rcases hk hy with ⟨hny, hcy⟩ | ⟨hty, hny, hcy⟩
  · rw [hs (hcx.trans hcy.symm), compare_numbers hx hy hnx hny]
  · rw [number_before_time hnx hty]
    simp [Element.woCompare, orderBy, hcx, hcy, hny]
    decide
  · have hgt : viewOrder x y = .gt := by
      rw [show viewOrder x y = (viewOrder y x).swap from viewCompare_swap, number_before_time hny htx]
      rfl
    rw [hgt]
    simp [Element.woCompare, orderBy, hcx, hcy, hnx]
    decide
  · rw [hs (hcx.trans hcy.symm), compare_times htx hty]

/-! ### Where the order is a total preorder -/

theorem not_torn_of_exact {a b : Element} (ha : a.exactKey = a.decimalKey) (hb : b.exactKey = b.decimalKey) (c : Element) :
    ¬ Torn exactKey decimalKey Element.Special a b c := by
  refine not_torn_of_monotone (fun h => ?_) (fun h => ?_) c <;> rwa [← ha, ← hb]

/-- The order of numbers and times is a total preorder exactly on the sets in which no decimal, no date and no long
beyond the safe bounds separates two other elements against their exact order. -/
theorem elementOrder_totalPreorder_iff (s : Set Element) (hs : ∀ x ∈ s, x.Scalar) :
    TotalPreorderOn Element.woCompare s ↔
      ∀ a ∈ s, ∀ b ∈ s, ∀ c ∈ s, ¬ Torn Element.exactKey Element.decimalKey Element.Special a b c := by
  rw [← totalPreorderOn_viewCompare]
  have heq : ∀ x ∈ s, ∀ y ∈ s, x.woCompare y = viewOrder x y := fun x hx y hy => woCompare_eq_viewOrder (hs x hx) (hs y hy)
  exact totalPreorderOn_congr heq

/-- Half, written as a double and as a decimal, and a long beyond the safe bounds. -/
theorem elementOrder_totalPreorder_half : TotalPreorderOn Element.woCompare
    {.double ⟨0x3FE0000000000000#64⟩, .decimal (.num false (-1) [5000]), .long 18014398509482000#64} := by
  refine (elementOrder_totalPreorder_iff _ fun x hx => ?_).2 fun a ha b hb c _ h => ?_
  · rcases hx with rfl | rfl | rfl
    · show Double.value _ ≠ _
      decide +kernel
    · trivial
    · trivial
  · rcases ha with rfl | rfl | rfl
    · rcases hb with rfl | rfl | rfl
      · exact not_torn_of_exact (by decide +kernel) (by decide +kernel) c h
      · exact h.right trivial
      · exact h.right (by decide +kernel)
    · exact h.left trivial
    · exact h.left (by decide +kernel)

/-- Two doubles that differ behind the 15th digit and equal one decimal, the same with a long, and two timestamps that
are one point in time. -/
theorem elementOrder_cycles :
    ((Element.double ⟨0x3FB999999999999A#64⟩).woCompare (.double ⟨0x3FB999999999999B#64⟩) = .lt ∧
      (Element.double ⟨0x3FB999999999999A#64⟩).woCompare (.decimal (.num false (-1) [1000])) = .eq ∧
      (Element.double ⟨0x3FB999999999999B#64⟩).woCompare (.decimal (.num false (-1) [1000])) = .eq) ∧
    ((Element.double ⟨0x4350000000000000#64⟩).woCompare (.double ⟨0x4350000000000001#64⟩) = .lt ∧
      (Element.double ⟨0x4350000000000000#64⟩).woCompare (.long 18014398509482000#64) = .eq ∧
      (Element.double ⟨0x4350000000000001#64⟩).woCompare (.long 18014398509482000#64) = .eq) ∧
    ((Element.timestamp 0#32 1000000#32).woCompare (.timestamp 1#32 0#32) = .lt ∧
      (Element.timestamp 0#32 1000000#32).woCompare (.date 1000#64) = .eq ∧
      (Element.timestamp 1#32 0#32).woCompare (.date 1000#64) = .eq) := by
  decide +kernel

end SequoiaDB.Bson

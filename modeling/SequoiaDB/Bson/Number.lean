import Mathlib

/-!
# Numbers

The values of the number types and their conversions.  A `double` is given by its bits and stands for the exact
rational number that they denote; `bson_decimal` keeps its digits to the base `NBASE`.
-/

namespace SequoiaDB.Bson

/-! ### Doubles -/

structure Double where
  bits : BitVec 64
  deriving DecidableEq

namespace Double

def negative (d : Double) : Bool := d.bits.msb

def exponent (d : Double) : Nat := d.bits.toNat / 2 ^ 52 % 2 ^ 11

def fraction (d : Double) : Nat := d.bits.toNat % 2 ^ 52

def isNaN (d : Double) : Bool := d.exponent = 2047 && d.fraction ≠ 0

def isInf (d : Double) : Bool := d.exponent = 2047 && d.fraction = 0

def magnitude (d : Double) : ℚ :=
  if d.exponent = 0 then d.fraction * (2 : ℚ) ^ (-1074 : ℤ)
  else (2 ^ 52 + d.fraction : Nat) * (2 : ℚ) ^ ((d.exponent : ℤ) - 1075)

end Double

/-- The value of an expression of type `double`. -/
inductive Real64
  | nan
  | negInf
  | fin (q : ℚ)
  | posInf
  deriving DecidableEq

def Double.value (d : Double) : Real64 :=
  if d.isNaN then .nan
  else if d.isInf then if d.negative then .negInf else .posInf
  else .fin (if d.negative then -d.magnitude else d.magnitude)

def LONG_UPPER_SAFE_BOUND : ℤ := 9007199254740991

def LONG_LOWER_SAFE_BOUND : ℤ := -9007199254740991

def Real64.beyond : Real64 → Bool
  | .nan => false
  | .negInf => true
  | .fin q => decide (q > LONG_UPPER_SAFE_BOUND ∨ q < LONG_LOWER_SAFE_BOUND)
  | .posInf => true

def longBeyond (v : ℤ) : Bool := decide (v > LONG_UPPER_SAFE_BOUND ∨ v < LONG_LOWER_SAFE_BOUND)

/-- The comparison of two doubles; the sign of the difference of two finite doubles is exact. -/
def Real64.compare : Real64 → Real64 → Ordering
  | .nan, .nan => .eq
  | .nan, _ => .lt
  | _, .nan => .gt
  | .negInf, .negInf => .eq
  | .posInf, .posInf => .eq
  | .negInf, _ => .lt
  | _, .negInf => .gt
  | .posInf, _ => .gt
  | _, .posInf => .lt
  | .fin p, .fin q => Ord.compare p q

/-! ### Rounding -/

def roundHalfEven (q : ℚ) : ℤ :=
  let n := ⌊q⌋
  let t := q - n
  if t < 1 / 2 then n
  else if 1 / 2 < t then n + 1
  else if n % 2 = 0 then n
  else n + 1

/-- The number of bits or digits of `n` to the given base; the first argument bounds the number of steps. -/
def lengthLoop (base : Nat) : Nat → Nat → Nat
  | 0, _ => 0
  | fuel + 1, n => if n = 0 then 0 else lengthLoop base fuel (n / base) + 1

def doubleOfLong (v : ℤ) : ℚ :=
  let extra := lengthLoop 2 64 v.natAbs - 53
  v.sign * (roundHalfEven (v.natAbs / 2 ^ extra) * 2 ^ extra : ℚ)

/-- The decimal exponent of a positive number: `10 ^ e ≤ q < 10 ^ (e + 1)`, for doubles. -/
def exponent10 (q : ℚ) : ℤ := lengthLoop 10 640 ⌊q * 10 ^ 324⌋.toNat - 325

/-- The text of `%.15g` for a positive number, as `(m, e)` for the number `m * 10 ^ e`. -/
def significant15 (q : ℚ) : Nat × ℤ :=
  let e := exponent10 q - 14
  ((roundHalfEven (q / (10 : ℚ) ^ e)).toNat, e)

/-! ### Decimals -/

abbrev DECIMAL_NBASE : Nat := 10000

/-- `bson_decimal`; the digits come with the weight of the first one. -/
inductive Decimal
  | nan
  | min
  | max
  | num (neg : Bool) (weight : ℤ) (digits : List (Fin DECIMAL_NBASE))
  deriving DecidableEq

def nbaseLoop : Nat → Nat → List (Fin DECIMAL_NBASE) → List (Fin DECIMAL_NBASE)
  | 0, _, ds => ds
  | fuel + 1, uval, ds =>
    let d : Fin DECIMAL_NBASE := ⟨uval % DECIMAL_NBASE, Nat.mod_lt _ (by decide)⟩
    if uval / DECIMAL_NBASE = 0 then d :: ds else nbaseLoop fuel (uval / DECIMAL_NBASE) (d :: ds)

def decimalFromLong (value : ℤ) : Decimal :=
  if value = 0 then .num false 0 []
  else
    let digits := nbaseLoop 5 value.natAbs []
    .num (value < 0) (digits.length - 1) digits

def stripLeading : ℤ → List (Fin DECIMAL_NBASE) → ℤ × List (Fin DECIMAL_NBASE)
  | weight, [] => (weight, [])
  | weight, d :: ds => if d = 0 then stripLeading (weight - 1) ds else (weight, d :: ds)

def stripTrailing : List (Fin DECIMAL_NBASE) → List (Fin DECIMAL_NBASE)
  | [] => []
  | d :: ds =>
    match stripTrailing ds with
    | [] => if d = 0 then [] else [d]
    | ds => d :: ds

def decimalStrip (neg : Bool) (weight : ℤ) (digits : List (Fin DECIMAL_NBASE)) : Decimal :=
  let (weight, digits) := stripLeading weight digits
  let digits := stripTrailing digits
  if digits = [] then .num false 0 [] else .num neg weight digits

/-- `decimal_from_str` for the number `m * 10 ^ e`: the digits are aligned to the base and stripped. -/
def decimalFromScaled (neg : Bool) (m : Nat) (e : ℤ) : Decimal :=
  let digits := nbaseLoop 6 (m * 10 ^ (e % 4).toNat) []
  decimalStrip neg (digits.length - 1 + e / 4) digits

def decimalFromDouble (d : Double) : Decimal :=
  match d.value with
  | .nan => if d.negative then .num false 0 [] else .nan
  | .negInf => .min
  | .posInf => .max
  | .fin q =>
    if q = 0 then .num false 0 []
    else
      let (m, e) := significant15 |q|
      decimalFromScaled (q < 0) m e

/-! ### Comparing decimals -/

/-- The digits of one number in front of the first digit of the other; `none` if one of them is not zero. -/
def dropHigh (weight2 : ℤ) : ℤ → List (Fin DECIMAL_NBASE) → Option (ℤ × List (Fin DECIMAL_NBASE))
  | weight1, [] => some (weight1, [])
  | weight1, d :: ds =>
    if weight1 > weight2 then if d ≠ 0 then none else dropHigh weight2 (weight1 - 1) ds else some (weight1, d :: ds)

def cmpRest (digits1 digits2 : List (Fin DECIMAL_NBASE)) : Ordering :=
  if digits1.any (· ≠ 0) then .gt else if digits2.any (· ≠ 0) then .lt else .eq

def cmpDigits : List (Fin DECIMAL_NBASE) → List (Fin DECIMAL_NBASE) → Ordering
  | d1 :: ds1, d2 :: ds2 => if d1 > d2 then .gt else if d1 < d2 then .lt else cmpDigits ds1 ds2
  | ds1, ds2 => cmpRest ds1 ds2

def decimalCmpAbs (weight1 : ℤ) (digits1 : List (Fin DECIMAL_NBASE)) (weight2 : ℤ) (digits2 : List (Fin DECIMAL_NBASE)) :
    Ordering :=
  match dropHigh weight2 weight1 digits1 with
  | none => .gt
  | some (weight1, digits1) =>
    match dropHigh weight1 weight2 digits2 with
    | none => .lt
    | some (weight2, digits2) => if weight1 = weight2 then cmpDigits digits1 digits2 else cmpRest digits1 digits2

def decimalCmp : Decimal → Decimal → Ordering
  | .min, .min => .eq
  | .min, _ => .lt
  | _, .min => .gt
  | .max, .max => .eq
  | .max, _ => .gt
  | _, .max => .lt
  | .nan, .nan => .eq
  | .nan, _ => .lt
  | _, .nan => .gt
  | .num neg1 weight1 digits1, .num neg2 weight2 digits2 =>
    if digits1 = [] then
      if digits2 = [] then .eq else if neg2 then .gt else .lt
    else if digits2 = [] then
      if neg1 then .lt else .gt
    else if neg1 then
      if neg2 then decimalCmpAbs weight2 digits2 weight1 digits1 else .lt
    else
      if neg2 then .gt else decimalCmpAbs weight1 digits1 weight2 digits2

end SequoiaDB.Bson

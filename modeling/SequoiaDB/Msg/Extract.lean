import SequoiaDB.Lib.Bytes
import SequoiaDB.Lib.Traced
import SequoiaDB.Rc

/-!
# Reading requests

The functions of `msgMessage.cpp` that take a request apart: `msgExtractUpdate`, `msgExtractDelete` and `msgExtractQuery`.
A request starts at address 0.  An `INT32` that overflows wraps around.
-/

namespace SequoiaDB.Msg

open Lib Trace

def int32 (x : Int) : Int := Int.bmod x (2 ^ 32)

def roundUp (x : Int) : Int := int32 (x + 3) - (int32 (x + 3)).tmod 4

def roundUpSize (x : Int) : Int := (x + 3) % 2 ^ 64 - (x + 3) % 2 ^ 64 % 4

/-- `ossAlign4( (UINT32)x )`, and `ossRoundUpToMultipleX( x, 4 )` of a `UINT32` -/
def align4 (x : Int) : Int := (x % 2 ^ 32 + 3) % 2 ^ 32 - (x % 2 ^ 32 + 3) % 2 ^ 32 % 4

variable (s : Space)

def uintAt (n : Nat) (a : Int) : Int := leNat ((List.range n).map fun i : Nat => s (a + i))

def intAt (a : Int) : Int := int32 (uintAt s 4 a)

def lengthField (a : Int) : Trace Rc Int := do
  touch (.field a 4)
  pure (intAt s a)

def checkName (fuel : Nat) (a nameLength : Int) : Trace Rc Unit :=
  match strlen s a fuel with
  | none => running
  | some n => if int32 n = nameLength then pure () else fail .invalidArg

def tooSmall (length : Int) : Bool := roundUp length < 8

/-- The blocks of `msgExtractUpdate` and `msgExtractQuery` that take one object after the other.  A block is `checked`
if it starts with a comparison of the offset with the length of the message; `round` is the way its end is rounded. -/
def extractObjects (round : Int → Int) (s : Space) (messageLength : Int) :
    List Bool → Int → List (Int × Int) → Trace Rc (List (Int × Int))
  | [], _, objs => pure objs
  | checked :: rest, offset, objs =>
    if checked = true ∧ ¬ offset < messageLength then fail .invalidArg
    else do
      let length ← lengthField s offset
      if tooSmall length then fail .invalidArg
      else if int32 (offset + length) > messageLength then fail .invalidArg
      else extractObjects round s messageLength rest (int32 (offset + round length)) (objs ++ [(offset, length)])

/-- What a successful extraction hands out: the name and the objects. -/
def handed (name : Int) (objs : List (Int × Int)) : List Touch :=
  .text name :: objs.map fun o => .range o.1 o.2

/-- `msgExtractUpdate`: the flags and the places of the selector, the updator and the hint. -/
def msgExtractUpdate (fuel : Nat) : Trace Rc (Int × List (Int × Int)) := do
  let messageLength ← lengthField s 0
  let nameLength ← lengthField s 40
  checkName s fuel 44 nameLength
  let objs ← extractObjects roundUp s messageLength [false, false, false]
    (int32 (roundUpSize (44 + nameLength + 1))) []
  handOut (handed 44 objs) (intAt s 36, objs)

/-- `msgExtractDelete`: the flags and the places of the deletor and the hint. -/
def msgExtractDelete (fuel : Nat) : Trace Rc (Int × List (Int × Int)) := do
  let messageLength ← lengthField s 0
  let nameLength ← lengthField s 40
  checkName s fuel 44 nameLength
  let objs ← extractObjects roundUp s messageLength [false, true] (int32 (roundUpSize (44 + nameLength + 1))) []
  handOut (handed 44 objs) (intAt s 36, objs)

/-- `msgExtractQuery`: the flags, the numbers of records to skip and to return, and the places of the query, the field
selector, the order and the hint. -/
def msgExtractQuery (fuel : Nat) : Trace Rc (Int × Int × Int × List (Int × Int)) := do
  let messageLength ← lengthField s 0
  let nameLength ← lengthField s 40
  checkName s fuel 60 nameLength
  let objs ← extractObjects align4 s messageLength [false, true, true, true] (int32 (align4 (60 + nameLength + 1))) []
  handOut (handed 60 objs) (intAt s 36, Int.bmod (uintAt s 8 44) (2 ^ 64), Int.bmod (uintAt s 8 52) (2 ^ 64), objs)

/-! ### Sizes -/

def up4 (x : Int) : Int := (x + 3) / 4 * 4

def IsSize (x : Int) : Prop := 5 ≤ x ∧ x ≤ 2 ^ 31 - 4

variable {x y : Int}

theorem int32_of_bounds (h1 : -2 ^ 31 ≤ x) (h2 : x < 2 ^ 31) : int32 x = x := by
  unfold int32 Int.bmod
  dsimp only
  split_ifs <;> omega

theorem int32_congr (h : x % 2 ^ 32 = y % 2 ^ 32) : int32 x = int32 y := by
  unfold int32 Int.bmod
  dsimp only
  norm_num at h ⊢
  rw [h]

theorem int32_roundUpSize (x : Int) : int32 (roundUpSize x) = int32 (up4 x) :=
  int32_congr (by unfold roundUpSize up4; omega)

theorem int32_align4 (x : Int) : int32 (align4 x) = int32 (up4 x) :=
  int32_congr (by unfold align4 up4; omega)

theorem roundUp_of_nonneg (h1 : 0 ≤ x + 3) (h2 : x + 3 < 2 ^ 31) : roundUp x = up4 x := by
  unfold roundUp up4
  rw [int32_of_bounds (by omega) h2, Int.tmod_eq_emod_of_nonneg h1]
  omega

theorem IsSize.roundUp (h : IsSize x) : roundUp x = up4 x := by
  obtain ⟨h1, h2⟩ := h
  exact roundUp_of_nonneg (by omega) (by omega)

theorem IsSize.align4 (h : IsSize x) : align4 x = up4 x := by
  obtain ⟨h1, h2⟩ := h
  unfold Msg.align4 up4
  omega

end SequoiaDB.Msg

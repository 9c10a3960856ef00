import SequoiaDB.Rc
import SequoiaDB.Lib.Bytes
import SequoiaDB.Util.LzwStream

/-!
# The LZW compressor

`utilCompressorLZW`: the source is cut into strings of the dictionary, and their codes are written one behind the
other, at level one with a fixed size, at level two with a size that depends on the code and a flag in front, at
level three with whichever of the two is smaller.  The stream has no end mark: the decoder reads codes until it has
fetched the last byte.
-/

namespace SequoiaDB.Util

open Lib

def calcCodeSize (code : Nat) : Nat :=
  halvings 32 code
where
  /-- The loop, at most once for each of the 32 bits. -/
  halvings : Nat → Nat → Nat
    | 0, _ => 1
    | fuel + 1, code => if code >>> 1 ≠ 0 then halvings fuel (code >>> 1) + 1 else 1

private theorem halvings_spec {fuel code : Nat} (h : code < 2 ^ fuel) : code < 2 ^ calcCodeSize.halvings fuel code ∧
      (0 < code → 2 ^ (calcCodeSize.halvings fuel code - 1) ≤ code) ∧ 0 < calcCodeSize.halvings fuel code := by
  induction fuel generalizing code with
  | zero =>
    obtain rfl : code = 0 := by simpa using h
    simp [calcCodeSize.halvings]
  | succ fuel ih =>
    rw [Nat.pow_succ] at h
    rw [calcCodeSize.halvings]
    split_ifs with h1
    · rw [Nat.shiftRight_one] at h1 ⊢
      obtain ⟨hlt, hle, hp⟩ := @ih (code / 2) (by omega)
      refine ⟨by rw [Nat.pow_succ]; omega, fun _ => ?_, by omega⟩
      have hle := hle (by omega)
      obtain ⟨k, hk⟩ := Nat.exists_eq_succ_of_ne_zero hp.ne'
      rw [hk, Nat.succ_eq_add_one, Nat.add_sub_cancel] at hle
      rw [hk, Nat.succ_eq_add_one, Nat.add_sub_cancel, Nat.pow_succ]
      omega
    · rw [Nat.shiftRight_one] at h1
      exact ⟨by omega, fun hp => by rwa [Nat.sub_self, Nat.pow_zero], by omega⟩

/-- A finished dictionary (`_utilLZWDictHead` and its tables): codes `0 … maxValidCode`, more than the 256 of the
single bytes and at most `UTIL_MAX_DICT_ITEM_NUM`, with the string of each code, on which the look-up for the longest
known string and the way back fit together. -/
structure LzwDictionary where
  maxValidCode : Nat
  /-- The code of the string found at the beginning of the bytes, and its length. -/
  findStrExt : List UInt8 → Nat × Nat
  getStrExt : Nat → List UInt8
  initCode_le : 255 ≤ maxValidCode
  lt_itemNum : maxValidCode < 250000
  find_le : ∀ {s}, s ≠ [] → (findStrExt s).1 ≤ maxValidCode
  find_pos : ∀ {s}, s ≠ [] → 0 < (findStrExt s).2
  find_le_length : ∀ {s}, s ≠ [] → (findStrExt s).2 ≤ s.length
  get_find : ∀ {s}, s ≠ [] → getStrExt (findStrExt s).1 = s.take (findStrExt s).2

namespace LzwDictionary

variable (d : LzwDictionary)

def codeSize : Nat := calcCodeSize d.maxValidCode

def varLenFlagSize : Nat := 2

def splitInfo : Nat → Nat
  | 0 => d.codeSize - 7
  | 1 => d.codeSize - 5
  | 2 => d.codeSize - 3
  | _ => d.codeSize

/-- `getVarLenInfo`: the first size below whose upper bound `DICT_BITS_UPBOUND` the code lies.  The two values are
left as they are when there is none. -/
def getVarLenInfo (code : Nat) (info : Nat × Nat) : Nat × Nat :=
  match (List.range 4).find? fun i => code < 2 ^ d.splitInfo i - 1 with
  | some i => (i, d.splitInfo i)
  | none => info

theorem codeSize_spec : d.maxValidCode < 2 ^ d.codeSize ∧ 8 ≤ d.codeSize ∧ d.codeSize ≤ 18 := by
  have hlo := d.initCode_le
  have hhi := d.lt_itemNum
  obtain ⟨hlt, hle, -⟩ := @halvings_spec 32 d.maxValidCode (by omega)
  have hle := hle (by omega)
  change _ < 2 ^ d.codeSize at hlt
  change 2 ^ (d.codeSize - 1) ≤ _ at hle
  refine ⟨hlt, ?_, ?_⟩
  · by_contra h
    have : 2 ^ d.codeSize ≤ 2 ^ 7 := Nat.pow_le_pow_right (by omega) (by omega)
    omega
  · by_contra h
    have : 2 ^ 18 ≤ 2 ^ (d.codeSize - 1) := Nat.pow_le_pow_right (by omega) (by omega)
    omega

theorem splitInfo_spec (i : Nat) : 0 < d.splitInfo i ∧ d.splitInfo i ≤ 18 := by
  obtain ⟨-, h8, h18⟩ := d.codeSize_spec
  match i with
  | 0 | 1 | 2 | _ + 3 => simp only [splitInfo]; omega

end LzwDictionary

inductive CompressionLevel
  | bestSpeed
  | balance
  | bestCompression
  deriving DecidableEq, Repr

structure CompressStrategy where
  minRatio : UInt8
  level : CompressionLevel

namespace LzwDictionary

variable (d : LzwDictionary)

section Compress

variable {σ : Type}

/-- The loop that all levels make over the source: find the longest known string, do something with its code, go on
behind the string. -/
def forCodes (body : σ → Nat → Except Rc σ) : Nat → List UInt8 → σ → Except Rc σ
  | 0, _, s => .ok s
  | fuel + 1, source, s => do
    let found := d.findStrExt source
    let s ← body s found.1
    if source.drop found.2 = [] then return s else forCodes body fuel (source.drop found.2) s

def writeCode (c : LzwContext) (code : Nat) : LzwContext :=
  c.writeBits code d.codeSize

def writeVarLenCode (c : LzwContext) (code : Nat) : LzwContext × Nat :=
  let info := d.getVarLenInfo code (0, 0)
  (c.writeBitsExt varLenFlagSize code info.2 info.1, info.2)

def levelOneCode (maxCodeNum : Nat) (s : LzwContext × Nat) (code : Nat) : Except Rc (LzwContext × Nat) :=
  if s.2 + 1 > maxCodeNum then .error .utilCompressAbort else .ok (d.writeCode s.1 code, s.2 + 1)

def compressLevelOne (c : LzwContext) (source : List UInt8) (maxSize : Nat) : Except Rc LzwContext :=
  (d.forCodes (d.levelOneCode (maxSize * 8 % 2 ^ 32 / d.codeSize)) source.length source (c, 0)).map (·.1.flushBits)

def levelTwoCode (maxBitNum : Nat) (s : LzwContext × Nat) (code : Nat) : Except Rc (LzwContext × Nat) :=
  let w := d.writeVarLenCode s.1 code
  let totalBitNum := (s.2 + w.2) % 2 ^ 32
  if totalBitNum > maxBitNum then .error .utilCompressAbort else .ok (w.1, totalBitNum)

def compressLevelTwo (c : LzwContext) (source : List UInt8) (maxSize : Nat) : Except Rc LzwContext :=
  (d.forCodes (d.levelTwoCode (maxSize * 8 % 2 ^ 32)) source.length source (c, 0)).map (·.1.flushBits)

/-- What the first pass of level three collects: the codes, the last flag and size, and the bits that codes of variable
length would take. -/
structure CodeStat where
  codeVec : List Nat
  info : Nat × Nat
  varLenTotalBits : Nat

def CodeStat.add (s : CodeStat) (code : Nat) : CodeStat :=
  let info := d.getVarLenInfo code s.info
  { codeVec := s.codeVec ++ [code], info, varLenTotalBits := (s.varLenTotalBits + info.2 + varLenFlagSize) % 2 ^ 32 }

def fixLenTotalBits (codeVec : List Nat) : Nat :=
  codeVec.length * d.codeSize % 2 ^ 32

def useVarLenComp (s : CodeStat) : Bool :=
  decide ((s.varLenTotalBits * 100 % 2 ^ 32) / d.fixLenTotalBits s.codeVec ≤ 95)

def compressLevelThree (c : LzwContext) (source : List UInt8) (maxSize : Nat) : Except Rc (LzwContext × Bool) := do
  let s ← d.forCodes (fun s code => .ok (CodeStat.add d s code)) source.length source ⟨[], (0, 0), 0⟩
  if d.useVarLenComp s then
    if s.varLenTotalBits > maxSize * 8 % 2 ^ 32 then .error .utilCompressAbort
    else .ok ((s.codeVec.foldl (fun c code => (d.writeVarLenCode c code).1) c).flushBits, true)
  else
    if d.fixLenTotalBits s.codeVec > maxSize * 8 % 2 ^ 32 then .error .utilCompressAbort
    else .ok ((s.codeVec.foldl d.writeCode c).flushBits, false)

def varLenFlag : Nat := 0x80000000

def strategyOf : Option CompressStrategy → Nat × CompressionLevel
  | none => (80, .bestSpeed)
  | some s => (s.minRatio.toNat, s.level)

def newContext : LzwContext :=
  ⟨[0, 0, 0, 0], 4, 0, 0⟩

/-- `compress`: the bytes of the destination.  The header tells the length of the source and whether the codes have
variable length. -/
def compress (source : List UInt8) (strategy : Option CompressStrategy) : Except Rc (List UInt8) := do
  let maxSize := source.length * (strategyOf strategy).1 / 100 % 2 ^ 32
  let r ← match (strategyOf strategy).2 with
    | .bestSpeed => (d.compressLevelOne newContext source maxSize).map ((·, false))
    | .balance => (d.compressLevelTwo newContext source maxSize).map ((·, false))
    | .bestCompression => d.compressLevelThree newContext source maxSize
  return leBytes 4 (if r.2 then source.length ||| varLenFlag else source.length) ++ r.1.stream.drop 4

def compressBound (srcLen : Nat) : Except Rc Nat :=
  let size := (d.codeSize * srcLen + 7) % 2 ^ 32 / 8 + 4
  if size >>> 32 ≠ 0 then .error .invalidArg else .ok size

def getUncompressedLen (source : List UInt8) : Nat :=
  leNat (source.take 4) &&& 0x00FFFFFF

def decompress (source : List UInt8) : Option (List UInt8) :=
  let c : LzwContext := ⟨source, 4, 0, 0⟩
  if leNat (source.take 4) &&& varLenFlag ≠ 0 then
    c.decode (LzwContext.readVarLenCode varLenFlagSize d.splitInfo) d.getStrExt (8 * source.length + 1)
  else
    c.decode (LzwContext.readCode d.codeSize) d.getStrExt (8 * source.length + 1)

end Compress

end LzwDictionary

end SequoiaDB.Util

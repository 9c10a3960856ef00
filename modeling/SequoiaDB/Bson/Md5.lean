import Mathlib

/-!
# MD5

The digest of `md5.c`, for a message that is given at once.
-/

namespace SequoiaDB.Bson.Md5

abbrev Word := BitVec 32

structure Registers where
  a : Word
  b : Word
  c : Word
  d : Word

def rotateLeft (x : Word) (n : Nat) : Word := (x <<< n) ||| (x >>> (32 - n))

def F (x y z : Word) : Word := (x &&& y) ||| (~~~x &&& z)

def G (x y z : Word) : Word := (x &&& z) ||| (y &&& ~~~z)

def H (x y z : Word) : Word := x ^^^ y ^^^ z

def I (x y z : Word) : Word := y ^^^ (x ||| ~~~z)

def set (f : Word → Word → Word → Word) (X : List Word) (r : Registers) (op : Nat × Nat × Word) : Registers :=
  let t := r.a + f r.b r.c r.d + X.getD op.1 0 + op.2.2
  ⟨r.d, rotateLeft t op.2.1 + r.b, r.b, r.c⟩

def round (ks ss : List Nat) (ts : List Word) : List (Nat × Nat × Word) := ks.zip (ss.zip ts)

def shifts (s₁ s₂ s₃ s₄ : Nat) : List Nat :=
  [s₁, s₂, s₃, s₄, s₁, s₂, s₃, s₄, s₁, s₂, s₃, s₄, s₁, s₂, s₃, s₄]

def round₁ : List (Nat × Nat × Word) :=
  round [0, 1, 2, 3, 4, 5, 6, 7, 8, 9, 10, 11, 12, 13, 14, 15] (shifts 7 12 17 22)
    [0xd76aa478, 0xe8c7b756, 0x242070db, 0xc1bdceee, 0xf57c0faf, 0x4787c62a, 0xa8304613, 0xfd469501,
      0x698098d8, 0x8b44f7af, 0xffff5bb1, 0x895cd7be, 0x6b901122, 0xfd987193, 0xa679438e, 0x49b40821]

def round₂ : List (Nat × Nat × Word) :=
  round [1, 6, 11, 0, 5, 10, 15, 4, 9, 14, 3, 8, 13, 2, 7, 12] (shifts 5 9 14 20)
    [0xf61e2562, 0xc040b340, 0x265e5a51, 0xe9b6c7aa, 0xd62f105d, 0x02441453, 0xd8a1e681, 0xe7d3fbc8,
      0x21e1cde6, 0xc33707d6, 0xf4d50d87, 0x455a14ed, 0xa9e3e905, 0xfcefa3f8, 0x676f02d9, 0x8d2a4c8a]

def round₃ : List (Nat × Nat × Word) :=
  round [5, 8, 11, 14, 1, 4, 7, 10, 13, 0, 3, 6, 9, 12, 15, 2] (shifts 4 11 16 23)
    [0xfffa3942, 0x8771f681, 0x6d9d6122, 0xfde5380c, 0xa4beea44, 0x4bdecfa9, 0xf6bb4b60, 0xbebfbc70,
      0x289b7ec6, 0xeaa127fa, 0xd4ef3085, 0x04881d05, 0xd9d4d039, 0xe6db99e5, 0x1fa27cf8, 0xc4ac5665]

def round₄ : List (Nat × Nat × Word) :=
  round [0, 7, 14, 5, 12, 3, 10, 1, 8, 15, 6, 13, 4, 11, 2, 9] (shifts 6 10 15 21)
    [0xf4292244, 0x432aff97, 0xab9423a7, 0xfc93a039, 0x655b59c3, 0x8f0ccc92, 0xffeff47d, 0x85845dd1,
      0x6fa87e4f, 0xfe2ce6e0, 0xa3014314, 0x4e0811a1, 0xf7537e82, 0xbd3af235, 0x2ad7d2bb, 0xeb86d391]

def process (r : Registers) (X : List Word) : Registers :=
  let r' := round₄.foldl (set I X) (round₃.foldl (set H X) (round₂.foldl (set G X) (round₁.foldl (set F X) r)))
  ⟨r.a + r'.a, r.b + r'.b, r.c + r'.c, r.d + r'.d⟩

def words : List UInt8 → List Word
  | b₀ :: b₁ :: b₂ :: b₃ :: rest =>
    BitVec.ofNat 32 (b₀.toNat + b₁.toNat * 2 ^ 8 + b₂.toNat * 2 ^ 16 + b₃.toNat * 2 ^ 24) :: words rest
  | _ => []

def littleEndian (n : Nat) : Nat → List UInt8
  | 0 => []
  | len + 1 => UInt8.ofNat n :: littleEndian (n / 2 ^ 8) len

def pad (data : List UInt8) : List UInt8 :=
  data ++ [0x80] ++ List.replicate ((119 - data.length % 64) % 64) 0 ++ littleEndian (data.length * 8) 8

def blocks : Nat → List Word → List (List Word)
  | 0, _ => []
  | n + 1, ws => ws.take 16 :: blocks n (ws.drop 16)

def init : Registers := ⟨0x67452301, 0xefcdab89, 0x98badcfe, 0x10325476⟩

def md5 (data : List UInt8) : List UInt8 :=
  let ws := words (pad data)
  let r := (blocks (ws.length / 16) ws).foldl process init
  [r.a, r.b, r.c, r.d].flatMap fun x => littleEndian x.toNat 4

example : md5 [] = [0xd4, 0x1d, 0x8c, 0xd9, 0x8f, 0x00, 0xb2, 0x04, 0xe9, 0x80, 0x09, 0x98, 0xec, 0xf8, 0x42, 0x7e] := by
  decide +kernel

end SequoiaDB.Bson.Md5

import SequoiaDB.Lib.BitCodes

/-!
# The bit stream of the LZW compressor

`_utilLZWContext` with its 32 bit buffer, and the functions of `utilCompressorLZW.hpp` that write codes to the stream
and read them back.  A writer stands for the list of bits `written` so far, a reader for the list of bits that are
still `unread`; every function is specified by what it does to these lists.

Reading behind the end of the stream, which the code does not check, has no result.
-/

namespace SequoiaDB.Util

open Lib List Option Nat

/-- `_utilLZWContext`: the stream, the position in it, and the `n` low bits of `buf` that are not yet written to the
stream, or not yet taken from the buffer. -/
structure LzwContext where
  stream : List UInt8
  streamPos : Nat
  buf : Nat
  n : Nat
  deriving DecidableEq, Repr

def byteBits (ch : UInt8) : List Bool :=
  toBits 8 ch.toNat

@[simp] theorem length_byteBits (ch : UInt8) : (byteBits ch).length = 8 := length_toBits ..

@[simp] theorem length_flatMap_byteBits (bs : List UInt8) : (bs.flatMap byteBits).length = 8 * bs.length := by
  simp [length_flatMap, Nat.mul_comm]

theorem byteBits_ofNat (x : Nat) : byteBits (UInt8.ofNat x) = toBits 8 x := by
  rw [byteBits, UInt8.toNat_ofNat']
  exact toBits_mod (Nat.le_refl 8)

namespace LzwContext

variable {c c' : LzwContext}

section Write

def writeByte (c : LzwContext) (ch : UInt8) : LzwContext :=
  { c with stream := c.stream ++ [ch], streamPos := c.streamPos + 1 }

/-- The loop of `_writeBits` and `_writeBitsExt` that moves whole bytes from the buffer to the stream. -/
def drain : Nat → LzwContext → Nat → LzwContext
  | 0, c, bitNum => { c with n := bitNum }
  | fuel + 1, c, bitNum =>
    if 8 ≤ bitNum then drain fuel (c.writeByte (UInt8.ofNat (c.buf >>> (bitNum - 8)))) (bitNum - 8)
    else { c with n := bitNum }

def writeBits (c : LzwContext) (bits bitNum : Nat) : LzwContext :=
  let buf := (c.buf <<< bitNum ||| (bits &&& (2 ^ bitNum - 1))) % 2 ^ 32
  drain (bitNum + c.n) { c with buf := buf } (bitNum + c.n)

def writeBitsExt (c : LzwContext) (varLenFlagSize bits bitNum codeLen : Nat) : LzwContext :=
  let buf := (c.buf <<< (bitNum + varLenFlagSize) ||| codeLen <<< bitNum ||| (bits &&& (2 ^ bitNum - 1))) % 2 ^ 32
  drain (c.n + bitNum + varLenFlagSize) { c with buf := buf } (c.n + bitNum + varLenFlagSize)

def flushBits (c : LzwContext) : LzwContext :=
  if c.n ≠ 0 then c.writeBits 0 (8 - c.n) else c

def written (c : LzwContext) : List Bool :=
  c.stream.flatMap byteBits ++ toBits c.n c.buf

theorem drain_spec {fuel num : Nat} (hfuel : num ≤ fuel) :
    (c.drain fuel num).written = c.stream.flatMap byteBits ++ toBits num c.buf ∧ (c.drain fuel num).n < 8 := by
  induction fuel generalizing c num with
  | zero =>
    obtain rfl : num = 0 := by omega
    exact ⟨rfl, by simp [drain]⟩
  | succ fuel ih =>
    rw [drain]
    split_ifs with h8
    · -- the byte moved to the stream are the highest eight bits of the buffer
      obtain ⟨m, rfl⟩ := Nat.exists_eq_add_of_le h8
      obtain ⟨hw, hn⟩ := @ih (c.writeByte (UInt8.ofNat (c.buf >>> (8 + m - 8)))) (8 + m - 8) (by omega)
      refine ⟨hw.trans ?_, hn⟩
      rw [Nat.add_sub_cancel_left, toBits_add]
      simp [writeByte, byteBits_ofNat]
    · exact ⟨rfl, by simpa using h8⟩

theorem writeBits_spec {bits num : Nat} (hn : c.n + num ≤ 32) :
    (c.writeBits bits num).written = c.written ++ toBits num bits ∧ (c.writeBits bits num).n < 8 := by
  obtain ⟨hw, hlt⟩ := drain_spec (c := { c with
    buf := (c.buf <<< num ||| (bits &&& (2 ^ num - 1))) % 2 ^ 32 }) (Nat.le_refl (num + c.n))
  refine ⟨hw.trans ?_, hlt⟩
  rw [toBits_mod (by omega), Nat.add_comm num, toBits_append, written, append_assoc]

theorem writeBitsExt_spec {fs bits num len : Nat} (hn : c.n + num + fs ≤ 32) (hl : len < 2 ^ fs) :
    (c.writeBitsExt fs bits num len).written = c.written ++ (toBits fs len ++ toBits num bits) ∧
      (c.writeBitsExt fs bits num len).n < 8 := by
  obtain ⟨hw, hlt⟩ := drain_spec (c := { c with
    buf := (c.buf <<< (num + fs) ||| len <<< num ||| (bits &&& (2 ^ num - 1))) % 2 ^ 32 })
    (Nat.le_refl (c.n + num + fs))
  refine ⟨hw.trans ?_, hlt⟩
  -- the flag goes in first, then the code
  have hs : c.buf <<< (num + fs) ||| len <<< num = (c.buf <<< fs ||| (len &&& (2 ^ fs - 1))) <<< num := by
    rw [and_two_pow_sub_one_eq_mod, mod_eq_of_lt hl, shiftLeft_or_distrib, ← shiftLeft_add, Nat.add_comm fs]
  rw [toBits_mod hn, hs, Nat.add_right_comm, toBits_append, toBits_append, written]
  simp only [append_assoc]

theorem n_eq_of_lt (hn : c.n < 8) : c.n = c.written.length % 8 := by
  simp only [written, length_append, length_flatMap_byteBits, length_toBits]
  omega

theorem flushBits_spec (hn : c.n < 8) :
    c.flushBits.stream.flatMap byteBits = c.written ++ toBits ((8 - c.written.length % 8) % 8) 0 := by
  rw [flushBits, ← n_eq_of_lt hn]
  split_ifs with h0
  · obtain ⟨hw, hlt⟩ := @writeBits_spec c 0 (8 - c.n) (by omega)
    -- the buffer is empty again, since whole bytes are written
    have hl := congrArg List.length hw
    simp only [written, length_append, length_flatMap_byteBits, length_toBits] at hl
    have hz : (c.writeBits 0 (8 - c.n)).n = 0 := by omega
    rw [mod_eq_of_lt (by omega), ← hw, written, hz, toBits, append_nil]
  · have hz : c.n = 0 := by simpa using h0
    rw [written, hz, toBits, append_nil, toBits, append_nil]

end Write

section Read

def loadByte (c : LzwContext) : Option LzwContext :=
  c.stream[c.streamPos]?.map fun ch =>
    { c with streamPos := c.streamPos + 1, buf := (c.buf <<< 8 ||| ch.toNat) % 2 ^ 32, n := c.n + 8 }

def load : Nat → LzwContext → Nat → Option LzwContext
  | 0, c, _ => some c
  | fuel + 1, c, codeSize => if c.n < codeSize then c.loadByte.bind fun c => load fuel c codeSize else some c

def takeBits (c : LzwContext) (codeSize : Nat) : Nat × LzwContext :=
  ((c.buf >>> (c.n - codeSize)) &&& (2 ^ codeSize - 1), { c with n := c.n - codeSize })

def readCode (codeSize : Nat) (c : LzwContext) : Option (Nat × LzwContext) :=
  (c.load codeSize codeSize).map (takeBits · codeSize)

def loadFlag (c : LzwContext) (varLenFlagSize : Nat) : Option LzwContext :=
  if c.n < varLenFlagSize then c.loadByte else some c

def readVarLenCode (varLenFlagSize : Nat) (getVarLenSize : Nat → Nat) (c : LzwContext) : Option (Nat × LzwContext) :=
  (c.loadFlag varLenFlagSize).bind fun c =>
    let lenIdx := c.takeBits varLenFlagSize
    readCode (getVarLenSize lenIdx.1) lenIdx.2

def unread (c : LzwContext) : List Bool :=
  toBits c.n c.buf ++ (c.stream.drop c.streamPos).flatMap byteBits

theorem length_unread : c.unread.length = c.n + 8 * (c.stream.length - c.streamPos) := by
  simp [unread, Nat.mul_comm]

theorem exists_loadByte (h : c.n < c.unread.length) : ∃ d, c.loadByte = some d := by
  have hlt : c.streamPos < c.stream.length := by
    rw [length_unread] at h
    omega
  exact ⟨_, by rw [loadByte, List.getElem?_eq_getElem hlt, map_some]⟩

theorem unread_loadByte (h : c.loadByte = some c') (hn : c.n ≤ 24) :
    c'.unread = c.unread ∧ c'.n = c.n + 8 ∧ c'.stream = c.stream := by
  obtain ⟨ch, hch, rfl⟩ := map_eq_some_iff.1 h
  obtain ⟨hlt, rfl⟩ := List.getElem?_eq_some_iff.1 hch
  refine ⟨?_, rfl, rfl⟩
  have hch8 : (c.stream[c.streamPos]).toNat &&& (2 ^ 8 - 1) = (c.stream[c.streamPos]).toNat := by
    rw [and_two_pow_sub_one_eq_mod]
    exact mod_eq_of_lt (UInt8.toNat_lt _)
  simp only [unread]
  rw [toBits_mod (by omega), ← hch8, toBits_append, drop_eq_getElem_cons hlt, flatMap_cons, append_assoc, byteBits]

variable {fuel size : Nat}

theorem load_spec (hsize : size ≤ 24) (hfuel : size ≤ fuel + c.n) (h : c.load fuel size = some c') :
    c'.unread = c.unread ∧ size ≤ c'.n ∧ (c'.n = c.n ∨ c'.n < size + 8) ∧ c'.stream = c.stream := by
  induction fuel generalizing c with
  | zero =>
    obtain rfl : c = c' := by simpa [load] using h
    exact ⟨rfl, by omega, .inl rfl, rfl⟩
  | succ fuel ih =>
    rw [load] at h
    split_ifs at h with hlt
    · obtain ⟨d, hd, h⟩ := bind_eq_some_iff.1 h
      obtain ⟨hun, hn, hs⟩ := unread_loadByte hd (by omega)
      obtain ⟨hun', hle, hor, hs'⟩ := ih (by omega) h
      exact ⟨hun'.trans hun, hle, .inr (by omega), hs'.trans hs⟩
    · obtain rfl : c = c' := by simpa using h
      exact ⟨rfl, by omega, .inl rfl, rfl⟩

theorem load_isSome (hsize : size ≤ 24) (hl : size ≤ c.unread.length) : (c.load fuel size).isSome := by
  induction fuel generalizing c with
  | zero => rfl
  | succ fuel ih =>
    rw [load]
    split_ifs with hlt
    · obtain ⟨d, hd⟩ := exists_loadByte (Nat.lt_of_lt_of_le hlt hl)
      rw [hd, bind_some]
      obtain ⟨hun, -, -⟩ := unread_loadByte hd (by omega)
      exact ih (by rwa [hun])
    · rfl

variable {size : Nat}

theorem takeBits_spec (h : size ≤ c.n) : c.unread = toBits size (c.takeBits size).1 ++ (c.takeBits size).2.unread ∧
      (c.takeBits size).1 < 2 ^ size := by
  obtain ⟨m, hm⟩ := Nat.exists_eq_add_of_le h
  constructor
  · simp only [unread, takeBits]
    rw [hm, toBits_add, Nat.add_sub_cancel_left, and_two_pow_sub_one_eq_mod, toBits_mod (Nat.le_refl _), append_assoc]
  · simp only [takeBits]
    rw [and_two_pow_sub_one_eq_mod]
    exact mod_lt _ (Nat.two_pow_pos _)

theorem readCode_spec {size v : Nat} (hs : size ≤ 24) (h : readCode size c = some (v, c')) :
    v < 2 ^ size ∧ c.unread = toBits size v ++ c'.unread ∧ (c'.n = c.n - size ∨ c'.n < 8) := by
  obtain ⟨d, hd, ht⟩ := map_eq_some_iff.1 h
  obtain ⟨hun, hle, hor, -⟩ := load_spec hs (by omega) hd
  obtain ⟨htk, hv⟩ := takeBits_spec hle
  rw [takeBits, Prod.mk.injEq] at ht
  obtain ⟨rfl, rfl⟩ := ht
  refine ⟨hv, hun ▸ htk, ?_⟩
  change d.n - size = _ ∨ d.n - size < 8
  omega

theorem readCode_isSome (hs : size ≤ 24) (hl : size ≤ c.unread.length) : (readCode size c).isSome := by
  rw [readCode, isSome_map]
  exact load_isSome hs hl

variable {fs : Nat}

theorem loadFlag_spec (hn : c.n ≤ 24) (hf : fs ≤ 8) (h : c.loadFlag fs = some c') :
    c'.unread = c.unread ∧ fs ≤ c'.n ∧ (c'.n = c.n ∨ c'.n < fs + 8) := by
  rw [loadFlag] at h
  split_ifs at h with hlt
  · obtain ⟨hun, hdn, -⟩ := unread_loadByte h hn
    exact ⟨hun, by omega, .inr (by omega)⟩
  · obtain rfl : c = c' := by simpa using h
    exact ⟨rfl, by omega, .inl rfl⟩

theorem exists_loadFlag (h : fs ≤ c.unread.length) : ∃ d, c.loadFlag fs = some d := by
  rw [loadFlag]
  split_ifs with hlt
  · exact exists_loadByte (by omega)
  · exact ⟨c, rfl⟩

/-- A function that reads one token: it finds the token the unread bits begin with, and leaves less than a byte in the
buffer. -/
structure ReadsToken (h : Nat) (size : Nat → Nat) (read : LzwContext → Option (Nat × LzwContext)) : Prop where
  token : ∀ {c c' v}, c.n < 8 → read c = some (v, c') →
    ∃ t : Token, t.Valid h size ∧ t.value = v ∧ c.unread = t.bits h size ++ c'.unread ∧ c'.n < 8
  isSome : ∀ {c r} {t : Token}, c.n < 8 → t.Valid h size → c.unread = t.bits h size ++ r → (read c).isSome

theorem readsToken_readCode (hs : size ≤ 24) : ReadsToken 0 (fun _ => size) (readCode size) where
  token {c c' v} hn h := by
    obtain ⟨hv, hun, hn'⟩ := readCode_spec hs h
    exact ⟨⟨0, v⟩, ⟨by simp, hv⟩, rfl, hun, by omega⟩
  isSome {c r t} hn ht e := by
    refine readCode_isSome hs ?_
    rw [e, length_append, Token.length_bits]
    omega

theorem readsToken_readVarLenCode {size : Nat → Nat} (hf : fs ≤ 8) (hs : ∀ i, size i ≤ 24) :
    ReadsToken fs size (readVarLenCode fs size) where
  token {c c' v} hn h := by
    obtain ⟨d, hd, hc⟩ := bind_eq_some_iff.1 h
    obtain ⟨hun, hle, hor⟩ := loadFlag_spec (by omega) hf hd
    obtain ⟨htk, hif⟩ := takeBits_spec hle
    obtain ⟨hv, hun', hn'⟩ := readCode_spec (hs _) hc
    refine ⟨⟨(d.takeBits fs).1, v⟩, ⟨hif, hv⟩, rfl, ?_, ?_⟩
    · rw [← hun, htk, hun', Token.bits, append_assoc]
    · have hdn : (d.takeBits fs).2.n = d.n - fs := rfl
      omega
  isSome {c r t} hn ht e := by
    have hlen : c.unread.length = fs + size t.flag + r.length := by
      rw [e, length_append, Token.length_bits]
    obtain ⟨d, hd⟩ := @exists_loadFlag c fs (by omega)
    obtain ⟨hun, hle, -⟩ := loadFlag_spec (by omega) hf hd
    obtain ⟨htk, hif⟩ := takeBits_spec hle
    -- the flag taken from the buffer is the flag of the token
    have hb : toBits fs (d.takeBits fs).1 ++ (d.takeBits fs).2.unread =
        toBits fs t.flag ++ (toBits (size t.flag) t.value ++ r) := by
      rw [← htk, hun, e, Token.bits, append_assoc]
    obtain ⟨hfl, hr⟩ := append_inj hb (by simp)
    have hi : (d.takeBits fs).1 = t.flag := toBits_injOn hif ht.1 hfl
    rw [readVarLenCode, hd, bind_some]
    change (readCode (size (d.takeBits fs).1) (d.takeBits fs).2).isSome
    refine readCode_isSome (hs _) ?_
    rw [hr, hi, length_append, length_toBits]
    omega

end Read

section Decode

variable {h : Nat} {size : Nat → Nat} {read : LzwContext → Option (Nat × LzwContext)} {getStr : Nat → List UInt8}

/-- The loop of `_decodeFixLenCode` and `_decodeVarLenCode`: as long as the stream is not used up, read a code and
append its string. -/
def decode (read : LzwContext → Option (Nat × LzwContext)) (getStr : Nat → List UInt8) :
    Nat → LzwContext → Option (List UInt8)
  | 0, _ => none
  | fuel + 1, c =>
    if c.streamPos < c.stream.length then
      (read c).bind fun (code, c) => (decode read getStr fuel c).map (getStr code ++ ·)
    else some []

private theorem streamPos_lt_iff (hn : c.n < 8) : c.streamPos < c.stream.length ↔ 8 ≤ c.unread.length := by
  rw [length_unread]
  omega

theorem decode_eq_some_iff (hr : ReadsToken h size read) (hp : ∀ i, 0 < size i) {fuel : Nat} (hn : c.n < 8)
    (hfuel : c.unread.length < fuel) {out : List UInt8} :
    c.decode read getStr fuel = some out ↔
      ∃ ts, Reads h size c.unread ts ∧ out = ts.flatMap fun t => getStr t.value := by
  induction fuel generalizing c out with
  | zero => omega
  | succ fuel ih =>
    rw [decode]
    split_ifs with hlt
    · rw [streamPos_lt_iff hn] at hlt
      simp only [bind_eq_some_iff, map_eq_some_iff, Prod.exists]
      constructor
      · rintro ⟨v, d, hd, out', hdec, rfl⟩
        obtain ⟨t, ht, rfl, hun, hdn⟩ := hr.token hn hd
        have hl := congrArg List.length hun
        rw [length_append, Token.length_bits] at hl
        have := hp t.flag
        obtain ⟨ts, hts, rfl⟩ := (ih hdn (by omega)).1 hdec
        exact ⟨t :: ts, hun ▸ .next ht (hun ▸ hlt) hts, by simp⟩
      · rintro ⟨ts, hts, rfl⟩
        generalize hw : c.unread = w at hts
        cases hts with
        | stop hw8 => exact absurd hlt (by rw [hw]; omega)
        | @next t w ts ht _ hrest =>
          obtain ⟨⟨v, d⟩, hd⟩ := isSome_iff_exists.1 (hr.isSome hn ht hw)
          obtain ⟨u, hu, rfl, hun, hdn⟩ := hr.token hn hd
          obtain ⟨rfl, hw'⟩ := Token.bits_append_inj hu ht (hun.symm.trans hw)
          have hl := congrArg List.length hun
          rw [length_append, Token.length_bits] at hl
          have := hp u.flag
          exact ⟨u.value, d, hd, _, (ih hdn (by omega)).2 ⟨ts, hw' ▸ hrest, rfl⟩, by simp⟩
    · rw [streamPos_lt_iff hn] at hlt
      constructor
      · rintro ⟨⟩
        exact ⟨[], .stop (by omega), rfl⟩
      · rintro ⟨ts, hts, rfl⟩
        generalize c.unread = w at hts hlt
        cases hts with
        | stop _ => rfl
        | next _ h8 _ => exact absurd h8 hlt

end Decode

end LzwContext

end SequoiaDB.Util

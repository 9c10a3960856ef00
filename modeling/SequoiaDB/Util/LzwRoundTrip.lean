import SequoiaDB.Util.LzwCompressor

/-!
# What the LZW decoder gets back

The codes of a source spell the source.  Whatever the level, the stream of a compressed source holds the bits of its
codes, filled up with zeros to a whole byte; the decoder reads the tokens `Reads` finds there.  So the source comes
back whenever the codes are written with a fixed size, which is at least a byte.  With variable sizes it comes back
from level three if every code has a size of its own and the last code does not fit into the byte in which the code
before it ends; at level two, which does not tell the decoder, only by accident.
-/

namespace SequoiaDB.Util

open Lib LzwContext List Nat

namespace LzwDictionary

variable (d : LzwDictionary)

section Codes

def codesFrom : Nat → List UInt8 → List Nat
  | 0, _ => []
  | fuel + 1, source =>
    let found := d.findStrExt source
    found.1 :: if source.drop found.2 = [] then [] else codesFrom fuel (source.drop found.2)

def codes (source : List UInt8) : List Nat :=
  d.codesFrom source.length source

variable {d}

theorem forCodes_eq_foldlM {σ : Type} (body : σ → Nat → Except Rc σ) (fuel : Nat) (src : List UInt8) (s : σ) :
    d.forCodes body fuel src s = (d.codesFrom fuel src).foldlM body s := by
  induction fuel generalizing src s with
  | zero => rfl
  | succ fuel ih =>
    simp only [forCodes, codesFrom, foldlM_cons]
    congr 1
    funext s
    split_ifs
    · rfl
    · exact ih ..

theorem codesFrom_spec {fuel : Nat} {src : List UInt8} (hne : src ≠ []) (hfuel : src.length ≤ fuel) :
    (d.codesFrom fuel src).flatMap d.getStrExt = src ∧
      (∀ code ∈ d.codesFrom fuel src, code ≤ d.maxValidCode ∧ d.getStrExt code ≠ []) ∧
      d.codesFrom fuel src ≠ [] ∧ (d.codesFrom fuel src).length ≤ src.length := by
  induction fuel generalizing src with
  | zero => exact absurd (length_eq_zero_iff.1 (by omega)) hne
  | succ fuel ih =>
    have hp := d.find_pos hne
    have hle := d.find_le_length hne
    have hg := d.get_find hne
    have hf : d.getStrExt (d.findStrExt src).1 ≠ [] := by
      rw [hg, ne_eq, take_eq_nil_iff]
      exact not_or_intro hp.ne' hne
    have hlen := length_drop (i := (d.findStrExt src).2) (l := src)
    simp only [codesFrom]
    split_ifs with hn
    · have ha : src.take (d.findStrExt src).2 = src :=
        take_of_length_le (drop_eq_nil_iff.1 hn)
      rw [flatMap_cons, flatMap_nil, append_nil, hg, ha]
      exact ⟨rfl, forall_mem_singleton.2 ⟨d.find_le hne, hf⟩, by simp, by simpa using (by omega : 1 ≤ src.length)⟩
    · obtain ⟨hs, ha, -, hlen'⟩ := ih hn (by omega)
      rw [flatMap_cons, hs, hg, take_append_drop]
      exact ⟨rfl, forall_mem_cons.2 ⟨⟨d.find_le hne, hf⟩, ha⟩, by simp, by rw [length_cons]; omega⟩

end Codes

section Written

def varLenBits (code : Nat) : List Bool :=
  let info := d.getVarLenInfo code (0, 0)
  toBits varLenFlagSize info.1 ++ toBits info.2 code

def varLenBytes (codes : List Nat) : Nat :=
  ((codes.flatMap d.varLenBits).length + 7) / 8

variable {d}

theorem getVarLenInfo_spec (code : Nat) :
    (d.getVarLenInfo code (0, 0)).1 < 4 ∧ (d.getVarLenInfo code (0, 0)).2 ≤ 18 := by
  unfold getVarLenInfo
  split
  · rename_i i hi
    have := mem_range.1 (List.mem_of_find?_eq_some hi)
    exact ⟨this, (d.splitInfo_spec i).2⟩
  · exact ⟨by simp, by simp⟩

theorem varLenBits_of_lt {code : Nat} (h : code < 2 ^ d.codeSize - 1) :
    ∃ t : Token, t.Valid varLenFlagSize d.splitInfo ∧ t.value = code ∧
      d.varLenBits code = t.bits varLenFlagSize d.splitInfo := by
  unfold varLenBits getVarLenInfo
  cases hf : (range 4).find? fun i => code < 2 ^ d.splitInfo i - 1 with
  | none =>
    have := List.find?_eq_none.1 hf 3 (by simp)
    exact absurd h (by simpa [splitInfo] using this)
  | some i =>
    have hi := mem_range.1 (List.mem_of_find?_eq_some hf)
    have hlt := List.find?_some hf
    simp only [decide_eq_true_eq] at hlt
    exact ⟨⟨i, code⟩, ⟨hi, Nat.lt_of_lt_of_le hlt (sub_le _ _)⟩, rfl, rfl⟩

/-- What a writer of one code has to do for the bits `bits` of the code. -/
def Writes (write : LzwContext → Nat → LzwContext) (bits : Nat → List Bool) : Prop :=
  ∀ {c : LzwContext} {code : Nat}, c.n < 8 → (write c code).written = c.written ++ bits code ∧ (write c code).n < 8

theorem writes_writeCode : Writes d.writeCode (toBits d.codeSize) := fun {c _} hn =>
  writeBits_spec (by have := d.codeSize_spec; omega)

theorem writes_writeVarLenCode : Writes (fun c code => (d.writeVarLenCode c code).1) d.varLenBits := fun {c code} hn => by
  obtain ⟨h1, h2⟩ := d.getVarLenInfo_spec code
  exact writeBitsExt_spec (by simp only [varLenFlagSize]; omega) h1

theorem Writes.foldl {write : LzwContext → Nat → LzwContext} {bits : Nat → List Bool} (h : Writes write bits)
    (codes : List Nat) {c : LzwContext} (hn : c.n < 8) :
    (codes.foldl write c).written = c.written ++ codes.flatMap bits ∧ (codes.foldl write c).n < 8 := by
  induction codes generalizing c with
  | nil => exact ⟨by simp, hn⟩
  | cons code codes ih =>
    obtain ⟨hw, hn'⟩ := @h _ code hn
    obtain ⟨hws, hns⟩ := ih hn'
    exact ⟨by rw [foldl_cons, hws, hw, flatMap_cons, append_assoc], hns⟩

end Written

section Stream

def filled (w : List Bool) : List Bool :=
  w ++ toBits ((8 - w.length % 8) % 8) 0

def stat (codes : List Nat) : CodeStat :=
  codes.foldl (CodeStat.add d) ⟨[], (0, 0), 0⟩

/-- The bits that are written for the codes, and whether the header tells that they have variable length. -/
def bitsWritten (level : CompressionLevel) (codes : List Nat) : List Bool × Bool :=
  match level with
  | .bestSpeed => (codes.flatMap (toBits d.codeSize), false)
  | .balance => (codes.flatMap d.varLenBits, false)
  | .bestCompression =>
    if d.useVarLenComp (d.stat codes) then (codes.flatMap d.varLenBits, true)
    else (codes.flatMap (toBits d.codeSize), false)

variable {d}

theorem length_filled (w : List Bool) : (filled w).length = 8 * ((w.length + 7) / 8) := by
  rw [filled, length_append, length_toBits]
  omega

private theorem flatMap_drop_byteBits (k : Nat) (bs : List UInt8) :
    (bs.drop k).flatMap byteBits = (bs.flatMap byteBits).drop (8 * k) := by
  induction bs generalizing k with
  | nil => simp
  | cons b bs ih =>
    cases k with
    | zero => rfl
    | succ k =>
      rw [drop_succ_cons, ih, flatMap_cons, mul_succ, Nat.add_comm, ← drop_drop, drop_left' (length_byteBits b)]

variable {write : LzwContext → Nat → LzwContext} {bits : Nat → List Bool}

theorem Writes.body (h : Writes write bits) (codes : List Nat) :
    ((codes.foldl write newContext).flushBits.stream.drop 4).flatMap byteBits = filled (codes.flatMap bits) := by
  obtain ⟨hw, hn⟩ := h.foldl codes (c := newContext) (by decide)
  have hh : newContext.written.length = 8 * 4 := rfl
  rw [flatMap_drop_byteBits, flushBits_spec hn, hw, append_assoc, drop_left' hh, filled,
    length_append, hh, mul_add_mod]

variable {body : LzwContext × Nat → Nat → Except Rc (LzwContext × Nat)}

theorem foldlM_fst (h : ∀ {s code s'}, body s code = .ok s' → s'.1 = write s.1 code) {codes : List Nat}
    {s s' : LzwContext × Nat} (hs : codes.foldlM body s = .ok s') : s'.1 = codes.foldl write s.1 := by
  induction codes generalizing s with
  | nil => rw [foldlM_nil] at hs; cases hs; rfl
  | cons code codes ih =>
    rw [foldlM_cons] at hs
    cases hb : body s code with
    | error rc => rw [hb] at hs; cases hs
    | ok t =>
      rw [hb] at hs
      rw [ih hs, h hb, foldl_cons]

theorem codeVec_stat (codes : List Nat) : (d.stat codes).codeVec = codes := by
  have key : ∀ s : CodeStat, (codes.foldl (CodeStat.add d) s).codeVec = s.codeVec ++ codes := by
    induction codes with
    | nil => simp
    | cons code codes ih => intro s; simp [ih, CodeStat.add]
  exact key _

variable {src : List UInt8} {c : LzwContext}

theorem Writes.forCodes_body (hw : Writes write bits)
    (hb : ∀ {s code s'}, body s code = .ok s' → s'.1 = write s.1 code)
    (h : (d.forCodes body src.length src (newContext, 0)).map (·.1.flushBits) = .ok c) :
    (c.stream.drop 4).flatMap byteBits = filled ((d.codes src).flatMap bits) := by
  rw [forCodes_eq_foldlM] at h
  cases hf : (d.codesFrom src.length src).foldlM body (newContext, 0) with
  | error rc => rw [hf] at h; cases h
  | ok s =>
    rw [hf] at h
    cases h
    change (s.1.flushBits.stream.drop 4).flatMap byteBits = _
    rw [foldlM_fst hb hf]
    exact hw.body _

variable {maxSize : Nat}

theorem compressLevelOne_body (h : d.compressLevelOne newContext src maxSize = .ok c) :
    (c.stream.drop 4).flatMap byteBits = filled ((d.codes src).flatMap (toBits d.codeSize)) := by
  refine writes_writeCode.forCodes_body (fun {s code s'} hb => ?_) h
  unfold levelOneCode at hb
  split_ifs at hb
  cases hb
  rfl

theorem compressLevelTwo_body (h : d.compressLevelTwo newContext src maxSize = .ok c) :
    (c.stream.drop 4).flatMap byteBits = filled ((d.codes src).flatMap d.varLenBits) := by
  refine writes_writeVarLenCode.forCodes_body (fun {s code s'} hb => ?_) h
  simp only [levelTwoCode] at hb
  split_ifs at hb
  cases hb
  rfl

theorem compressLevelThree_body {r : LzwContext × Bool} (h : d.compressLevelThree newContext src maxSize = .ok r) :
    ((r.1.stream.drop 4).flatMap byteBits, r.2) = (filled (d.bitsWritten .bestCompression (d.codes src)).1,
        (d.bitsWritten .bestCompression (d.codes src)).2) := by
  have hp : (d.codesFrom src.length src).foldlM (fun s code => Except.ok (CodeStat.add d s code))
      (⟨[], (0, 0), 0⟩ : CodeStat) = (.ok (d.stat (d.codes src)) : Except Rc CodeStat) :=
    foldlM_pure
  simp only [compressLevelThree, forCodes_eq_foldlM, hp] at h
  simp only [bind, Except.bind, codeVec_stat] at h
  simp only [bitsWritten]
  by_cases hv : d.useVarLenComp (d.stat (d.codes src)) = true
  · rw [if_pos hv] at h ⊢
    split_ifs at h
    cases h
    exact congrArg (·, true) (writes_writeVarLenCode.body _)
  · rw [if_neg hv] at h ⊢
    split_ifs at h
    cases h
    exact congrArg (·, false) (writes_writeCode.body _)

theorem compress_eq_ok {strategy : Option CompressStrategy} {dest : List UInt8}
    (h : d.compress src strategy = .ok dest) :
    ∃ body, body.flatMap byteBits = filled (d.bitsWritten (strategyOf strategy).2 (d.codes src)).1 ∧
      dest = leBytes 4 (if (d.bitsWritten (strategyOf strategy).2 (d.codes src)).2 then src.length ||| varLenFlag
        else src.length) ++ body := by
  rw [compress] at h
  generalize src.length * (strategyOf strategy).1 / 100 % 2 ^ 32 = maxSize at h
  cases hl : (strategyOf strategy).2 with
  | bestSpeed =>
    rw [hl] at h
    cases hc : d.compressLevelOne newContext src maxSize with
    | error rc => simp only [hc] at h; cases h
    | ok c => simp only [hc] at h; cases h; exact ⟨_, compressLevelOne_body hc, rfl⟩
  | balance =>
    rw [hl] at h
    cases hc : d.compressLevelTwo newContext src maxSize with
    | error rc => simp only [hc] at h; cases h
    | ok c => simp only [hc] at h; cases h; exact ⟨_, compressLevelTwo_body hc, rfl⟩
  | bestCompression =>
    rw [hl] at h
    cases hc : d.compressLevelThree newContext src maxSize with
    | error rc => simp only [hc] at h; cases h
    | ok r =>
      simp only [hc] at h
      cases h
      obtain ⟨hb, hf⟩ := Prod.mk.inj (compressLevelThree_body hc)
      exact ⟨_, hb, by rw [hf]⟩

end Stream

section RoundTrip

variable {src : List UInt8} {len : Nat}

theorem head_spec (h : len < 2 ^ 24) (varLenCode : Bool) (body : List UInt8) :
    getUncompressedLen (leBytes 4 (if varLenCode then len ||| varLenFlag else len) ++ body) = len ∧
      (leNat ((leBytes 4 (if varLenCode then len ||| varLenFlag else len) ++ body).take 4) &&& varLenFlag ≠ 0 ↔
        varLenCode = true) := by
  have hor : len ||| varLenFlag = 2 ^ 31 * 1 + len := by
    rw [Nat.or_comm, two_pow_add_eq_or_of_lt (by omega)]
    rfl
  rw [getUncompressedLen, take_left' (length_leBytes ..)]
  cases varLenCode with
  | false =>
    rw [if_neg (by decide), leNat_leBytes (by omega)]
    refine ⟨?_, iff_of_false ?_ (by decide)⟩
    · exact (and_two_pow_sub_one_eq_mod len 24).trans (mod_eq_of_lt h)
    · have hz : len.testBit 31 = false := testBit_lt_two_pow (by omega)
      rw [not_not, show varLenFlag = 2 ^ 31 from rfl, and_two_pow, hz, Bool.toNat_false, Nat.zero_mul]
  | true =>
    rw [if_pos rfl, leNat_leBytes (by omega)]
    refine ⟨?_, iff_of_true ?_ rfl⟩
    · refine (and_two_pow_sub_one_eq_mod (len ||| varLenFlag) 24).trans ?_
      omega
    · have ho : (len ||| varLenFlag).testBit 31 = true := by
        rw [testBit_or, show varLenFlag = 2 ^ 31 from rfl, testBit_two_pow_self, Bool.or_true]
      rw [show varLenFlag = 2 ^ 31 from rfl] at ho ⊢
      rw [and_two_pow, ho]
      decide

/-- The sizes by which the decoder reads: those of variable length if the header tells so. -/
def Spelled (varLenCode : Bool) (w : List Bool) (source : List UInt8) : Prop :=
  ∃ ts, (if varLenCode then Reads varLenFlagSize d.splitInfo w ts else Reads 0 (fun _ => d.codeSize) w ts) ∧
    source = ts.flatMap fun t => d.getStrExt t.value

variable {d}

theorem decompress_eq_some_iff (h : len < 2 ^ 24) (varLenCode : Bool) (body out : List UInt8) :
    d.decompress (leBytes 4 (if varLenCode then len ||| varLenFlag else len) ++ body) = some out ↔
      d.Spelled varLenCode (body.flatMap byteBits) out := by
  set dest := leBytes 4 (if varLenCode then len ||| varLenFlag else len) ++ body with hd
  have hu : (LzwContext.mk dest 4 0 0).unread = body.flatMap byteBits := by
    rw [unread, hd, drop_left' (length_leBytes ..)]
    rfl
  have hf : (LzwContext.mk dest 4 0 0).unread.length < 8 * dest.length + 1 := by
    rw [length_unread]
    simp only
    omega
  obtain ⟨-, h8, h18⟩ := d.codeSize_spec
  rw [decompress]
  cases varLenCode with
  | false =>
    rw [if_neg ((head_spec h false body).2.not.2 (by decide)),
      decode_eq_some_iff (readsToken_readCode (by omega)) (fun _ => by omega) (succ_pos 7) hf, hu]
    rfl
  | true =>
    have hs (i) : d.splitInfo i ≤ 24 := (d.splitInfo_spec i).2.trans (by omega)
    rw [if_pos ((head_spec h true body).2.2 rfl),
      decode_eq_some_iff (readsToken_readVarLenCode (by decide) hs) (fun i => (d.splitInfo_spec i).1)
        (succ_pos 7) hf, hu]
    rfl

theorem codes_spec (hne : src ≠ []) : (d.codes src).flatMap d.getStrExt = src ∧
      (∀ code ∈ d.codes src, code ≤ d.maxValidCode ∧ d.getStrExt code ≠ []) ∧
      d.codes src ≠ [] ∧ (d.codes src).length ≤ src.length :=
  codesFrom_spec hne (Nat.le_refl _)

private theorem length_flatMap_toBits (k : Nat) (xs : List Nat) : (xs.flatMap (toBits k)).length = xs.length * k := by
  simp [length_flatMap]

theorem spelled_fixLen (hne : src ≠ []) :
    d.Spelled false (filled ((d.codes src).flatMap (toBits d.codeSize))) src := by
  obtain ⟨hs, hc, -, -⟩ := codes_spec (d := d) hne
  obtain ⟨hm, h8, -⟩ := d.codeSize_spec
  have hb : (d.codes src).flatMap (toBits d.codeSize) =
      ((d.codes src).map (Token.mk 0)).flatMap (Token.bits 0 fun _ => d.codeSize) := by
    rw [flatMap_map]
    rfl
  refine ⟨(d.codes src).map (Token.mk 0), ?_, by rw [flatMap_map]; exact hs.symm⟩
  rw [if_neg (by decide), filled]
  nth_rewrite 1 [hb]
  refine reads_flatMap (fun t ht => ?_) (by rw [length_toBits]; omega) (fun us t _ => by omega)
  obtain ⟨code, hcode, rfl⟩ := mem_map.1 ht
  exact ⟨by simp, Nat.lt_of_le_of_lt (hc code hcode).1 hm⟩

private theorem exists_tokens {codes : List Nat} (h : ∀ code ∈ codes, code < 2 ^ d.codeSize - 1) :
    ∃ ts : List Token, (∀ t ∈ ts, t.Valid varLenFlagSize d.splitInfo) ∧ ts.map Token.value = codes ∧
      ts.flatMap (Token.bits varLenFlagSize d.splitInfo) = codes.flatMap d.varLenBits := by
  induction codes with
  | nil => exact ⟨[], by simp, rfl, rfl⟩
  | cons code codes ih =>
    obtain ⟨t, ht, hv, hb⟩ := varLenBits_of_lt (h code (by simp))
    obtain ⟨ts, hts, hvs, hbs⟩ := ih fun c hc => h c (by simp [hc])
    exact ⟨t :: ts, forall_mem_cons.2 ⟨ht, hts⟩, by rw [map_cons, hv, hvs], by rw [flatMap_cons, flatMap_cons, hb, hbs]⟩

variable {w : List Bool}

private theorem eq_of_reads {ts us : List Token} {r : List Bool} (hts : ∀ t ∈ ts, t.Valid varLenFlagSize d.splitInfo)
    (hstr : ∀ t ∈ ts, d.getStrExt t.value ≠ []) (hr : r.length < 8)
    (hw : w = ts.flatMap (Token.bits varLenFlagSize d.splitInfo) ++ r) (hus : Reads varLenFlagSize d.splitInfo w us)
    (e : (ts.flatMap fun t => d.getStrExt t.value) = us.flatMap fun t => d.getStrExt t.value) : us = ts := by
  obtain ⟨s, hs, -⟩ := hus.exists_rest
  obtain ⟨vs, rfl, -⟩ | ⟨vs, rfl, -⟩ := prefix_or_prefix hts hus.valid (hw.symm.trans hs)
  · -- no token is read from less than a byte
    cases vs with
    | nil => simp
    | cons v vs => exact absurd (hus.le_length hw) (by omega)
  · cases vs with
    | nil => simp
    | cons v vs =>
      rw [flatMap_append, flatMap_cons] at e
      have hn := append_eq_nil_iff.1 (append_right_eq_self.1 e)
      exact absurd hn.1 (hstr v (by simp))

theorem spelled_varLen_iff (hne : src ≠ []) (hc : ∀ code ∈ d.codes src, code < 2 ^ d.codeSize - 1) :
    d.Spelled true (filled ((d.codes src).flatMap d.varLenBits)) src ↔
      d.varLenBytes (d.codes src).dropLast < d.varLenBytes (d.codes src) := by
  obtain ⟨hspell, hcodes, hn, -⟩ := codes_spec (d := d) hne
  obtain ⟨us, x, hux⟩ := (eq_nil_or_concat' (d.codes src)).resolve_left hn
  obtain ⟨vs, hvs, hvals, hvbits⟩ := @exists_tokens d us fun code hcode =>
    hc code (by rw [hux]; exact mem_append_left _ hcode)
  obtain ⟨t, ht, hval, htbits⟩ := varLenBits_of_lt (hc x (by rw [hux]; simp))
  have hb : (d.codes src).flatMap d.varLenBits = (vs ++ [t]).flatMap (Token.bits varLenFlagSize d.splitInfo) := by
    rw [hux, flatMap_append, flatMap_append, hvbits]
    simp [htbits]
  have hv := forall_mem_append.2 ⟨hvs, forall_mem_singleton.2 ht⟩
  have hcodesMap : (vs ++ [t]).map Token.value = d.codes src := by simp [hvals, hval, hux]
  have hs : src = (vs ++ [t]).flatMap fun t => d.getStrExt t.value := by
    conv_lhs => rw [← hspell, ← hcodesMap, flatMap_map]
  -- the last code needs another byte iff it has eight bits together with the filling
  have ha : d.varLenBytes (d.codes src).dropLast < d.varLenBytes (d.codes src) ↔
      8 ≤ varLenFlagSize + d.splitInfo t.flag + (8 - ((d.codes src).flatMap d.varLenBits).length % 8) % 8 := by
    have hl : ((d.codes src).flatMap d.varLenBits).length =
        (us.flatMap d.varLenBits).length + (varLenFlagSize + d.splitInfo t.flag) := by
      rw [hux, flatMap_append, length_append]
      simp [htbits]
    rw [varLenBytes, varLenBytes, hl, hux, dropLast_concat]
    omega
  rw [ha, Spelled]
  simp only [if_pos]
  constructor
  · rintro ⟨ts, hr, hts⟩
    have hstr : ∀ u ∈ vs ++ [t], d.getStrExt u.value ≠ [] := fun u hu =>
      (hcodes u.value (hcodesMap ▸ mem_map_of_mem hu)).2
    have hw : filled ((d.codes src).flatMap d.varLenBits) = _ := congrArg (· ++ _) hb
    obtain rfl := eq_of_reads hv hstr (by rw [length_toBits]; omega) hw hr (hs.symm.trans hts)
    rw [flatMap_append, append_assoc] at hw
    simpa [Nat.add_assoc] using hr.le_length hw
  · intro hlast
    refine ⟨vs ++ [t], ?_, hs⟩
    rw [filled]
    nth_rewrite 1 [hb]
    refine reads_flatMap hv (by rw [length_toBits]; omega) fun us' u e => ?_
    obtain ⟨-, he⟩ := append_inj' e rfl
    obtain rfl := singleton_inj.1 he
    rwa [length_toBits]

variable (d)

/-- When the source comes back from its compressed form, and this is not longer than announced: always with codes of
fixed length.  With variable length it comes back from level three if each code lies below the last bound and the
last code needs a byte of its own; a code without a size, or the missing mark in the header at level two, lets the
decoder read other codes, that may only by accident spell the source. -/
def Legible (strategy : Option CompressStrategy) (source : List UInt8) : Prop :=
  let codes := d.codes source
  let fits := d.varLenBytes codes ≤ (d.codeSize * source.length + 7) / 8
  match (strategyOf strategy).2 with
  | .bestSpeed => True
  | .balance => fits ∧ d.Spelled false (filled (codes.flatMap d.varLenBits)) source
  | .bestCompression => d.useVarLenComp (d.stat codes) = true →
      fits ∧ if ∀ code ∈ codes, code < 2 ^ d.codeSize - 1 then d.varLenBytes codes.dropLast < d.varLenBytes codes
        else d.Spelled true (filled (codes.flatMap d.varLenBits)) source

variable {d}

theorem compressBound_spec (h : len < 2 ^ 24) : d.compressBound len = .ok ((d.codeSize * len + 7) / 8 + 4) := by
  obtain ⟨-, -, h18⟩ := d.codeSize_spec
  have hmul : d.codeSize * len ≤ 18 * 2 ^ 24 := Nat.mul_le_mul h18 (by omega)
  rw [compressBound, mod_eq_of_lt (by omega), if_neg]
  rw [not_not, shiftRight_eq_div_pow]
  omega

theorem length_body {body : List UInt8} (h : body.flatMap byteBits = filled w) :
    body.length = (w.length + 7) / 8 := by
  have := congrArg List.length h
  rw [length_flatMap_byteBits, length_filled] at this
  omega

theorem length_fixLen_le (hne : src ≠ []) :
    (((d.codes src).flatMap (toBits d.codeSize)).length + 7) / 8 ≤ (d.codeSize * src.length + 7) / 8 := by
  obtain ⟨-, -, -, hl⟩ := codes_spec (d := d) hne
  have hmul := Nat.mul_le_mul_right d.codeSize hl
  rw [length_flatMap_toBits, Nat.mul_comm d.codeSize]
  omega

/-- **Round trip.**  A compressed source is given back by the decoder, into a buffer of the announced length, and is not
longer than `compressBound` says, exactly if it is legible. -/
theorem round_trip_iff (strategy : Option CompressStrategy) (hne : source ≠ []) (hlen : source.length < 2 ^ 24)
    {dest : List UInt8} (h : d.compress source strategy = .ok dest) :
    (getUncompressedLen dest = source.length ∧ d.decompress dest = some source ∧
        ∃ maxCompressedLen, d.compressBound source.length = .ok maxCompressedLen ∧ dest.length ≤ maxCompressedLen) ↔
      d.Legible strategy source := by
  obtain ⟨body, hbody, rfl⟩ := compress_eq_ok h
  simp only [decompress_eq_some_iff hlen, (head_spec hlen _ body).1, hbody, compressBound_spec hlen,
    length_append, length_leBytes, length_body hbody, Except.ok.injEq, exists_eq_left', true_and, Legible]
  cases (strategyOf strategy).2 with
  | bestSpeed =>
    have := length_fixLen_le (d := d) hne
    simp only [bitsWritten, iff_true]
    exact ⟨spelled_fixLen hne, by omega⟩
  | balance =>
    simp only [bitsWritten, varLenBytes]
    rw [and_comm, Nat.add_comm 4, Nat.add_le_add_iff_right]
  | bestCompression =>
    simp only [bitsWritten]
    by_cases hvar : d.useVarLenComp (d.stat (d.codes source)) = true
    · simp only [hvar, if_true, forall_const]
      rw [and_comm, Nat.add_comm 4, Nat.add_le_add_iff_right]
      refine and_congr_right fun _ => ?_
      split_ifs with hcov
      · exact spelled_varLen_iff hne hcov
      · rfl
    · have := length_fixLen_le (d := d) hne
      simp only [hvar, if_false, false_implies, iff_true, Bool.false_eq_true]
      exact ⟨spelled_fixLen hne, by omega⟩

def singleBytes : LzwDictionary where
  maxValidCode := 255
  findStrExt s := ((s.headD 0).toNat, 1)
  getStrExt code := [UInt8.ofNat code]
  initCode_le := Nat.le_refl _
  lt_itemNum := by decide
  find_le _ := le_of_lt_succ (UInt8.toNat_lt _)
  find_pos _ := Nat.one_pos
  find_le_length h := length_pos_iff.2 h
  get_find {s} h := by
    obtain ⟨b, s, rfl⟩ := exists_cons_of_ne_nil h
    simp

theorem round_trip_two_bytes :
    singleBytes.compress [0, 200] (some ⟨100, .bestCompression⟩) = .ok [2, 0, 0, 128, 0x1E, 0x40] ∧
      singleBytes.decompress [2, 0, 0, 128, 0x1E, 0x40] = some [0, 200] := by
  have hc : singleBytes.compress [0, 200] (some ⟨100, .bestCompression⟩) = .ok [2, 0, 0, 128, 0x1E, 0x40] := by rfl
  refine ⟨hc, ((round_trip_iff _ (by decide) (by decide) hc).2 fun _ => ⟨by decide, ?_⟩).2.1⟩
  rw [if_pos (by decide)]
  decide

/-- Two equal bytes with the smallest dictionary: level three takes codes of three bits, both in the first byte, and the
decoder stops after the first code; level two takes the same codes, and the decoder reads one code of eight bits. -/
theorem last_code_lost :
    singleBytes.compress [0, 0] (some ⟨80, .bestCompression⟩) = .ok [2, 0, 0, 128, 0] ∧
      singleBytes.decompress [2, 0, 0, 128, 0] = some [0] ∧
      singleBytes.compress [0, 0] (some ⟨80, .balance⟩) = .ok [2, 0, 0, 0, 0] ∧
      singleBytes.decompress [2, 0, 0, 0, 0] = some [0] :=
  ⟨rfl, rfl, rfl, rfl⟩

end RoundTrip

end LzwDictionary

end SequoiaDB.Util

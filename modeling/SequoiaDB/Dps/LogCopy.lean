import SequoiaDB.Dps.LogRing

/-!
# Copying a record into the ring

Seen from the place of a record on, the ring is a memory of `totalSize` bytes, and copying the parts of the
record one after the other is one write at its start, as long as the record is not longer than the ring.
-/

namespace SequoiaDB.Dps

open Lib List

variable {c : LogConf}

def ringFrom (c : LogConf) (pages : Nat → LogPage) (x : Nat) : Mem := fun i =>
  (pages ((x + i) / DPS_DEFAULT_PAGE_SIZE % c.pageNum)).buf ((x + i) % DPS_DEFAULT_PAGE_SIZE)

/-- The cursor stands `k` bytes behind address `x`, and from there on the ring holds `m`. -/
structure Cursor.At (c : LogConf) (x k : Nat) (m : Mem) (z : Cursor) : Prop where
  offset_lt : z.offset < DPS_DEFAULT_PAGE_SIZE
  pos : z.workSub * DPS_DEFAULT_PAGE_SIZE + z.offset = x + k
  bytes : ∀ i < c.totalSize, ringFrom c z.pages x i = m i

/-! ### One page -/

theorem hit_iff {N x k i sub offset : Nat} (len : Nat) (hsub : sub * DPS_DEFAULT_PAGE_SIZE + offset = x + k)
    (hoff : offset + len ≤ DPS_DEFAULT_PAGE_SIZE) (hk : k + len ≤ N * DPS_DEFAULT_PAGE_SIZE)
    (hi : i < N * DPS_DEFAULT_PAGE_SIZE) :
    ((x + i) / DPS_DEFAULT_PAGE_SIZE % N = sub % N ∧ offset ≤ (x + i) % DPS_DEFAULT_PAGE_SIZE ∧
        (x + i) % DPS_DEFAULT_PAGE_SIZE < offset + len) ↔ k ≤ i ∧ i < k + len := by
  simp only [DPS_DEFAULT_PAGE_SIZE] at *
  constructor
  · rintro ⟨hm, hl, hh⟩
    -- pages that are equal modulo `N` are at least the whole ring apart, if they are different
    have hp : (x + i) / 65536 = sub := by
      refine Nat.ModEq.eq_of_abs_lt hm (abs_lt.2 ?_)
      omega
    omega
  · rintro ⟨hl, hh⟩
    have hp : (x + i) / 65536 = sub := by omega
    exact ⟨by rw [hp], by omega, by omega⟩

namespace Cursor.At

variable {x k : Nat} {m : Mem} {z : Cursor}

theorem bytes_update (src : List UInt8) (h : At c x k m z) (hs : z.workSub < 2 * c.pageNum)
    (hroom : z.offset + src.length ≤ DPS_DEFAULT_PAGE_SIZE) (hl : k + src.length ≤ c.totalSize) :
    let p := z.pages (c.page z.workSub)
    ∀ i < c.totalSize,
      ringFrom c (Function.update z.pages (c.page z.workSub) { p with buf := p.buf.write z.offset src }) x i =
        m.write k src i := by
  intro p i hi
  have hit := hit_iff src.length h.pos hroom hl hi
  rw [← c.page_eq_mod hs] at hit
  have ho := h.bytes i hi
  simp only [ringFrom, Function.update_apply, Mem.write] at ho ⊢
  by_cases hi' : k ≤ i ∧ i < k + src.length
  · obtain ⟨hp, hlow, hh⟩ := hit.2 hi'
    have hpos := h.pos
    rw [if_pos hp, if_pos hi']
    refine (if_pos ⟨hlow, hh⟩).trans ?_
    congr 1
    simp only [DPS_DEFAULT_PAGE_SIZE] at *
    omega
  · rw [if_neg hi', ← ho]
    by_cases hp : (x + i) / DPS_DEFAULT_PAGE_SIZE % c.pageNum = c.page z.workSub
    · rw [if_pos hp, hp]
      exact if_neg fun hr => hi' (hit.1 ⟨hp, hr⟩)
    · rw [if_neg hp]

theorem fill {src : List UInt8} (h : At c x k m z) (hx : x < c.totalSize) (hs : src ≠ [])
    (hlen : k + src.length ≤ c.totalSize) :
    let cpylen := min (DPS_DEFAULT_PAGE_SIZE - z.offset) src.length
    At c x (k + cpylen) (m.write k (src.take cpylen)) (z.fill c src) := by
  intro cpylen
  have hsrc' := length_pos_iff.2 hs
  have hle : cpylen ≤ src.length := Nat.min_le_right _ _
  have hroom : cpylen ≤ DPS_DEFAULT_PAGE_SIZE - z.offset := Nat.min_le_left _ _
  have hoff := h.offset_lt
  have hpos := h.pos
  have htake : (src.take cpylen).length = cpylen := length_take_of_le hle
  have hsub : z.workSub < 2 * c.pageNum := by
    simp only [LogConf.totalSize, DPS_DEFAULT_PAGE_SIZE] at *
    omega
  have hb := h.bytes_update (src.take cpylen) hsub (by omega) (by omega)
  show At c x _ _ (if z.offset + cpylen = DPS_DEFAULT_PAGE_SIZE then _ else _)
  split_ifs with hfull
  · refine ⟨pageSize_pos, ?_, hb⟩
    rw [Nat.add_zero, Nat.add_mul, Nat.one_mul]
    omega
  · have hlt : z.offset + cpylen < DPS_DEFAULT_PAGE_SIZE := by omega
    have hpos' : z.workSub * DPS_DEFAULT_PAGE_SIZE + (z.offset + cpylen) = x + (k + cpylen) := by omega
    exact ⟨hlt, hpos', hb⟩

theorem mergePageLoop {src : List UInt8} {fuel : Nat} (h : At c x k m z) (hx : x < c.totalSize)
    (hl : k + src.length ≤ c.totalSize) (hf : src.length ≤ fuel) :
    At c x (k + src.length) (m.write k src) (Cursor.mergePageLoop c fuel src z) := by
  induction fuel generalizing src z k m with
  | zero =>
    obtain rfl := length_eq_zero_iff.1 (Nat.le_zero.1 hf)
    simpa [Cursor.mergePageLoop] using h
  | succ fuel ih =>
    rw [Cursor.mergePageLoop]
    split_ifs with hsrc
    · simpa [hsrc] using h
    · have hs := h.fill hx hsrc hl
      have hpos := length_pos_iff.2 hsrc
      have hoff := h.offset_lt
      dsimp only at hs
      generalize hn : min (DPS_DEFAULT_PAGE_SIZE - z.offset) src.length = n at hs ⊢
      have hdrop : (src.drop n).length = src.length - n := length_drop
      have hlen' : k + n + (src.drop n).length ≤ c.totalSize := by omega
      have hr := ih hs hlen' (by omega)
      have ht : (src.take n).length = n := length_take_of_le (by omega)
      have ha := Mem.write_write_append (m := m) (a := k) (src.take n) (src.drop n)
      rw [ht, take_append_drop] at ha
      rwa [ha, length_drop, show k + n + (src.length - n) = k + src.length by omega] at hr

theorem mergePage (src : List UInt8) (h : At c x k m z) (hx : x < c.totalSize) (hl : k + src.length ≤ c.totalSize) :
    At c x (k + src.length) (m.write k src) (z.mergePage c src) :=
  h.mergePageLoop hx hl le_rfl

theorem mergeEle (e : Ele) (h : At c x k m z) (hx : x < c.totalSize) (hl : k + e.size ≤ c.totalSize) :
    At c x (k + e.size) (m.write k e.bytes) (z.mergeEle c e) := by
  have hh : (e.tag :: leBytes 4 e.value.length).length = DPS_RECORD_ELE_HEADER_LEN := by simp
  have h1 := h.mergePage (e.tag :: leBytes 4 e.value.length) hx (by rw [Ele.size] at hl; omega)
  have h2 := h1.mergePage e.value hx (by rw [Ele.size] at hl; omega)
  rw [Mem.write_write_append, hh, Nat.add_assoc] at h2
  exact h2

theorem mergeEles (es : List Ele) (h : At c x k m z) (hx : x < c.totalSize) (hl : k + bodySize es ≤ c.totalSize) :
    At c x (k + bodySize es) (m.write k (bodyBytes es)) (es.foldl (Cursor.mergeEle c) z) := by
  induction es generalizing k m z with
  | nil => simpa [bodySize, bodyBytes] using h
  | cons e es ih =>
    rw [bodySize_cons] at hl ⊢
    have ht := ih (h.mergeEle e hx (by omega)) (by omega)
    rw [← e.length_bytes, Mem.write_write_append, e.length_bytes, Nat.add_assoc] at ht
    exact ht

end Cursor.At

/-! ### The whole record -/

def stopMarker (head : LogRecordHeader) (es : List Ele) : List UInt8 :=
  if bodySize es % 2 ^ 32 ≤ (head.length + 2 ^ 64 - DPS_RECORD_ELE_HEADER_LEN - HEADER_LEN) % 2 ^ 64 then
    replicate DPS_RECORD_ELE_HEADER_LEN 0
  else []

theorem mergeStop_eq (he : LogRecordHeader) (es : List Ele) (z : Cursor) :
    z.mergeStop c he es = z.mergePage c (stopMarker he es) := by
  unfold Cursor.mergeStop stopMarker
  split_ifs <;> rfl

def recordBytes (head : LogRecordHeader) (es : List Ele) : List UInt8 :=
  head.bytes ++ (bodyBytes es ++ stopMarker head es)

theorem mergeLogs_bytes {head : LogRecordHeader} {es : List Ele} {pageMeta : PageMeta} (pages : Nat → LogPage)
    (ht : head.type ≠ LOG_TYPE_DUMMY) (ho : pageMeta.offset < DPS_DEFAULT_PAGE_SIZE)
    (hsub : pageMeta.beginSub < c.pageNum) (hl : (recordBytes head es).length ≤ c.totalSize) :
    let x := pageMeta.beginSub * DPS_DEFAULT_PAGE_SIZE + pageMeta.offset
    ∀ i < c.totalSize, ringFrom c (mergeLogs c head es pageMeta pages) x i =
      (ringFrom c pages x).write 0 (recordBytes head es) i := by
  intro x
  have hx : x < c.totalSize := by
    simp only [x, LogConf.totalSize, DPS_DEFAULT_PAGE_SIZE] at *
    omega
  simp only [recordBytes, length_append, length_bodyBytes, LogRecordHeader.length_bytes] at hl
  have hs : Cursor.At c x 0 (ringFrom c pages x)
      { pages := pages, workSub := pageMeta.beginSub, offset := pageMeta.offset } :=
    ⟨ho, (Nat.add_zero x).symm, fun _ _ => rfl⟩
  have hh := hs.mergePage head.bytes hx (by rw [LogRecordHeader.length_bytes]; omega)
  rw [LogRecordHeader.length_bytes, Nat.zero_add] at hh
  have hb := hh.mergeEles es hx (by omega)
  have hstop := hb.mergePage (stopMarker head es) hx (by omega)
  intro i hi
  rw [mergeLogs, if_neg ht, mergeStop_eq, hstop.bytes i hi, recordBytes, ← Mem.write_write_append,
    ← Mem.write_write_append, LogRecordHeader.length_bytes, length_bodyBytes, Nat.zero_add]

end SequoiaDB.Dps

import SequoiaDB.Lib.Run

/-!
# A LOB creation that fails

The stream of a new LOB writes the pages that are full and keeps the rest of the data in a window, which it writes out when
the client seeks to another place.  When the stream is closed with an exception, `_rollback` removes the pieces in front of
the current offset.  What is left of the LOB is compared with the way that the client took: the stretches of data that it
wrote in one go and left by a seek.
-/

namespace SequoiaDB.Rtn

open Lib

def DMS_LOB_META_LENGTH : Nat := 1024

/-- The page size is `2 ^ logarithmic`; `mergeMeta` says whether the first page holds the metadata and data. -/
structure LobPages where
  mergeMeta : Bool
  logarithmic : Nat

namespace LobPages

variable (P : LobPages)

def pageSize : Nat := 2 ^ P.logarithmic

def page (offset : Nat) : Nat :=
  if P.mergeMeta then (offset + DMS_LOB_META_LENGTH) / P.pageSize else offset / P.pageSize + 1

/-- `_getSequence`, a `UINT32` -/
def sequence (offset : Nat) : Nat := P.page offset % 2 ^ 32

/-- What is left of the page: `_pageSize - RTN_LOB_GET_OFFSET_IN_SEQUENCE` -/
def remain (offset : Nat) : Nat :=
  P.pageSize - (if P.mergeMeta then offset + DMS_LOB_META_LENGTH else offset) % P.pageSize

theorem remain_pos (offset : Nat) : 0 < P.remain offset :=
  Nat.sub_pos_of_lt (Nat.mod_lt _ (Nat.two_pow_pos _))

/-- `getNextWriteSequences` and `cacheLastDataOrClearCache` for data at `_curOffset`: the sequences of the full pages, the
new `_curOffset` and `_cachedSz`. -/
def nextWrites (curOffset len : Nat) : List Nat × Nat × Nat :=
  if P.remain curOffset ≤ len then
    let r := nextWrites (curOffset + P.remain curOffset) (len - P.remain curOffset)
    (P.sequence curOffset :: r.1, r.2)
  else ([], curOffset, len)
termination_by len
decreasing_by
  have := P.remain_pos curOffset
  omega

end LobPages

/-- The stream and its window, and the sequences of the stored pieces. -/
structure LobCreate where
  offset : Nat
  curOffset : Nat
  cachedSz : Nat
  pieces : List Nat
  opened : Bool

/-- The calls; `stored` says which pieces of a call that fails have been stored.  The stream is closed with an exception
by the client or by a `close` that fails. -/
inductive CreateCall
  | seek (offset : Nat) (ok : Bool) (stored : Nat → Bool)
  | write (len : Nat) (ok : Bool) (stored : Nat → Bool)
  | closeWithException (stored : Nat → Bool)

namespace LobCreate

variable (P : LobPages)

def start : LobCreate := ⟨0, 0, 0, [], true⟩

/-- The loop counts down from an `INT32`. -/
def rollback (s : LobCreate) : LobCreate :=
  let num := Int.bmod (P.sequence s.offset) (2 ^ 32)
  { s with pieces := s.pieces.filter fun p => num ≤ p, opened := false }

def cached (s : LobCreate) : List Nat := if s.cachedSz = 0 then [] else [P.sequence s.curOffset]

def seek (s : LobCreate) (offset : Nat) (ok : Bool) (stored : Nat → Bool) : LobCreate :=
  if offset = s.curOffset + s.cachedSz then { s with offset }
  else
    { s with
      offset := if ok then offset else s.offset
      curOffset := s.curOffset + s.cachedSz
      cachedSz := 0
      pieces := s.pieces ++ (s.cached P).filter fun p => ok || stored p }

/-- `prepare4Write`, which fills the cached page first, and the pages of the cached and the new data -/
def window (curOffset cachedSz len : Nat) : List Nat × Nat × Nat :=
  -- the data of the first page are kept until the LOB is closed
  let lastLen := if P.mergeMeta then min len (P.pageSize - DMS_LOB_META_LENGTH - curOffset) else 0
  P.nextWrites (curOffset + lastLen) (cachedSz + (len - lastLen))

def write (s : LobCreate) (len : Nat) (ok : Bool) (stored : Nat → Bool) : LobCreate :=
  if s.offset ≠ s.curOffset + s.cachedSz ∧ s.cachedSz ≠ 0 then s.rollback P
  else
    let r := window P (s.offset - s.cachedSz) s.cachedSz len
    let s' := { s with offset := s.offset + len, curOffset := r.2.1, cachedSz := r.2.2 }
    if ok then { s' with pieces := s.pieces ++ r.1 }
    else rollback P { s' with pieces := s.pieces ++ r.1.filter stored }

def step (s : LobCreate) (c : CreateCall) : LobCreate :=
  if s.opened then
    match c with
    | .seek offset ok stored => s.seek P offset ok stored
    | .write len ok stored => s.write P len ok stored
    | .closeWithException stored => rollback P { s with pieces := s.pieces ++ (s.cached P ++ [0]).filter stored }
  else s

end LobCreate

/-- The way of the client: its place, the end of the data written last and whether it is still there, and the ends of the
stretches that it left. -/
structure Trail where
  pos : Nat
  last : Nat
  writing : Bool
  left : List Nat

namespace Trail

def start : Trail := ⟨0, 0, false, []⟩

def step (t : Trail) : CreateCall → Trail
  | .seek offset ok _ =>
    if offset = t.last then { t with pos := offset }
    else ⟨if ok then offset else t.pos, t.last, false, if t.writing then t.last :: t.left else t.left⟩
  | .write len _ _ => ⟨t.pos + len, t.pos + len, t.writing || len ≠ 0, t.left⟩
  | .closeWithException _ => t

variable (P : LobPages)

/-- The page of `offset` lies behind the pages in which the stretches end, apart from the first one, and has a number below
`2 ^ 31`. -/
def Passed (t : Trail) (offset : Nat) : Prop :=
  P.page offset < 2 ^ 31 ∧ ∀ e ∈ t.left, P.page (e - 1) = 0 ∨ P.page (e - 1) < P.page offset

/-- When a call closes the stream with an exception, all stretches have been passed, and a `close` that fails has not stored
the page of the offset. -/
def Behind (t : Trail) : CreateCall → Prop
  | .seek _ _ _ => True
  | .write len ok _ => ok = false → t.Passed P (t.pos + len)
  | .closeWithException stored => t.Passed P t.pos ∧ stored (P.page t.pos) = false

end Trail

namespace LobPages

variable {P : LobPages} {a b len : Nat}

theorem page_mono (h : a ≤ b) : P.page a ≤ P.page b := by
  unfold page
  split_ifs
  · exact Nat.div_le_div_right (Nat.add_le_add_right h _)
  · exact Nat.succ_le_succ (Nat.div_le_div_right h)

theorem next_page (x : Nat) {n : Nat} (hn : 0 < n) : (x + (n - x % n)) / n = x / n + 1 := by
  have hx := Nat.div_add_mod x n
  have hm := Nat.mod_lt x hn
  have hsum : x + (n - x % n) = n * (x / n + 1) := by
    rw [Nat.mul_add, Nat.mul_one]
    omega
  rw [hsum, Nat.mul_div_cancel_left _ hn]

theorem page_next (a : Nat) : P.page (a + P.remain a) = P.page a + 1 := by
  have hp : 0 < P.pageSize := Nat.two_pow_pos _
  unfold page remain
  split_ifs
  · rw [Nat.add_right_comm, next_page _ hp]
  · rw [next_page _ hp]

theorem page_le_pred (h : a < P.page b) : a ≤ P.page (b - 1) := by
  have hnext := page_next (P := P) (b - 1)
  have hpos := P.remain_pos (b - 1)
  have hmono : P.page b ≤ P.page (b - 1 + P.remain (b - 1)) := page_mono (by omega)
  omega

theorem page_pos (h : P.mergeMeta = true → P.pageSize - DMS_LOB_META_LENGTH ≤ a) : 1 ≤ P.page a := by
  unfold page
  split_ifs with hm
  · have := h hm
    exact (Nat.one_le_div_iff (Nat.two_pow_pos _)).2 (show P.pageSize ≤ _ by omega)
  · exact Nat.le_add_left ..

/-- The pieces lie between `a` and the new offset, and no data are lost. -/
structure Advances (P : LobPages) (a len : Nat) (r : List Nat × Nat × Nat) : Prop where
  pieces : ∀ p ∈ r.1, ∃ x, p = P.sequence x ∧ a ≤ x ∧ P.page x < P.page r.2.1
  from_le : a ≤ r.2.1
  total : r.2.1 + r.2.2 = a + len

theorem Advances.cons {r : List Nat × Nat × Nat} (hle : P.remain a ≤ len)
    (h : P.Advances (a + P.remain a) (len - P.remain a) r) : P.Advances a len (P.sequence a :: r.1, r.2) where
  pieces p hp := by
    rcases List.mem_cons.1 hp with rfl | hp
    · refine ⟨a, rfl, Nat.le_refl _, ?_⟩
      calc
        P.page a < P.page (a + P.remain a) := by rw [page_next]; exact Nat.lt_succ_self _
        _ ≤ P.page r.2.1 := page_mono h.from_le
    · obtain ⟨x, rfl, hx, hlt⟩ := h.pieces p hp
      exact ⟨x, rfl, Nat.le_of_add_right_le hx, hlt⟩
  from_le := Nat.le_trans (Nat.le_add_right _ _) h.from_le
  total := by
    have ht := h.total
    simp only
    omega

theorem nextWrites_advances (a len : Nat) : P.Advances a len (P.nextWrites a len) := by
  induction a, len using nextWrites.induct P with
  | case1 a len h ih =>
    rw [nextWrites, if_pos h]
    exact ih.cons h
  | case2 a len h =>
    rw [nextWrites, if_neg h]
    exact ⟨by simp, Nat.le_refl _, rfl⟩

theorem nextWrites_zero (a : Nat) : P.nextWrites a 0 = ([], a, 0) := by
  rw [nextWrites, if_neg (Nat.not_le.2 (P.remain_pos a))]

end LobPages

namespace LobCreate

open LobPages

variable {P : LobPages} {s : LobCreate} {t : Trail}

/-- What a write adds: pieces behind the first page and in front of the new window. -/
theorem window_spec (a len : Nat) {c : Nat} (hc : c ≠ 0 → 1 ≤ P.page a) :
    let r := window P a c len
    (∀ p ∈ r.1, (c ≠ 0 ∨ len ≠ 0) ∧ ∃ x, p = P.sequence x ∧ 1 ≤ P.page x ∧ P.page x < P.page r.2.1) ∧
      a ≤ r.2.1 ∧ r.2.1 + r.2.2 = a + (c + len) ∧ (r.2.2 ≠ 0 → (c ≠ 0 ∨ len ≠ 0) ∧ 1 ≤ P.page r.2.1) := by
  unfold window
  set m := if P.mergeMeta then min len (P.pageSize - DMS_LOB_META_LENGTH - a) else 0 with hm
  have hle : m ≤ len := by
    rw [hm]
    split_ifs
    · exact Nat.min_le_left _ _
    · exact Nat.zero_le _
  intro r
  have h : P.Advances (a + m) (c + (len - m)) r := nextWrites_advances _ _
  have hrest : a ≤ r.2.1 ∧ r.2.1 + r.2.2 = a + (c + len) := by
    have hfrom := h.from_le
    have htotal := h.total
    omega
  by_cases hz : c + (len - m) = 0
  · have hr : r = ([], a + m, 0) := by rw [← nextWrites_zero, ← hz]
    rw [hr] at hrest ⊢
    exact ⟨by simp, hrest.1, hrest.2, by simp⟩
  · -- the data begin behind the first page
    have hp : 1 ≤ P.page (a + m) := by
      by_cases hc0 : c = 0
      · refine page_pos fun hmerge => ?_
        rw [hm, if_pos hmerge] at hz ⊢
        omega
      · exact Nat.le_trans (hc hc0) (page_mono (Nat.le_add_right _ _))
    refine ⟨fun p hp' => ⟨by omega, ?_⟩, hrest.1, hrest.2, fun _ => ⟨by omega, Nat.le_trans hp (page_mono h.from_le)⟩⟩
    obtain ⟨x, hx, hax, hlt⟩ := h.pieces p hp'
    exact ⟨x, hx, Nat.le_trans hp (page_mono hax), hlt⟩

/-- The stored pieces belong to a stretch that has been left, or lie in front of the window. -/
def Known (P : LobPages) (t : Trail) (curOffset : Nat) (p : Nat) : Prop :=
  ∃ x, p = P.sequence x ∧ 1 ≤ P.page x ∧
    ((∃ e ∈ t.left, P.page x ≤ P.page (e - 1)) ∨ t.writing = true ∧ P.page x < P.page curOffset)

structure Inv (P : LobPages) (t : Trail) (s : LobCreate) : Prop where
  offset : s.offset = t.pos
  last : s.curOffset + s.cachedSz = t.last
  writing : t.writing = true → t.pos = t.last
  cached : s.cachedSz ≠ 0 → t.writing = true ∧ 1 ≤ P.page s.curOffset
  pieces : ∀ p ∈ s.pieces, Known P t s.curOffset p

theorem Inv.start : Inv P Trail.start LobCreate.start := ⟨rfl, rfl, nofun, fun h => (h rfl).elim, nofun⟩

theorem Known.lt {cur offset p : Nat} (h : Known P t cur p) (hp : t.Passed P offset)
    (hcur : t.writing = true → cur ≤ offset) : p < P.page offset := by
  obtain ⟨x, rfl, hx, hx'⟩ := h
  refine Nat.lt_of_le_of_lt (Nat.mod_le _ _) ?_
  obtain ⟨e, he, hle⟩ | ⟨hw, hlt⟩ := hx'
  · have := hp.2 e he
    omega
  · exact Nat.lt_of_lt_of_le hlt (page_mono (hcur hw))

theorem rollback_pieces (hs : P.page s.offset < 2 ^ 31) (h : ∀ p ∈ s.pieces, p < P.page s.offset) :
    (s.rollback P).pieces = [] := by
  refine List.filter_eq_nil_iff.2 fun p hp => ?_
  have hlt := h p hp
  have hnum : Int.bmod (P.sequence s.offset) (2 ^ 32) = P.page s.offset := by
    unfold LobPages.sequence
    rw [Nat.mod_eq_of_lt (by omega), Int.bmod_eq_of_le (by omega) (by omega)]
  simp only [hnum, decide_eq_true_eq]
  omega

theorem Inv.seek (h : s.Inv P t) (offset : Nat) (ok : Bool) (stored : Nat → Bool) :
    (s.seek P offset ok stored).Inv P (t.step (.seek offset ok stored)) := by
  have hlast := h.last
  simp only [LobCreate.seek, Trail.step, hlast]
  by_cases heq : offset = t.last
  · simp only [if_pos heq]
    exact ⟨rfl, hlast, fun _ => heq, h.cached, h.pieces⟩
  · simp only [if_neg heq]
    refine ⟨by simp [h.offset], rfl, nofun, fun hz => (hz rfl).elim, ?_⟩
    -- the pieces of the window and the cached one belong to the stretch that ends here
    have hleft : ∀ x, 1 ≤ P.page x → t.writing = true → P.page x ≤ P.page (t.last - 1) →
        ∃ e ∈ (if t.writing then t.last :: t.left else t.left), P.page x ≤ P.page (e - 1) :=
      fun x _ hw hle => ⟨t.last, by simp [hw], hle⟩
    refine List.forall_mem_append.2 ⟨fun p hp => ?_, fun p hp => ?_⟩
    · obtain ⟨x, rfl, hx, ⟨e, he, hle⟩ | ⟨hw, hlt⟩⟩ := h.pieces p hp
      · exact ⟨x, rfl, hx, .inl ⟨e, by split_ifs <;> simp [he], hle⟩⟩
      · refine ⟨x, rfl, hx, .inl (hleft x hx hw (page_le_pred (Nat.lt_of_lt_of_le hlt (page_mono ?_))))⟩
        omega
    · have hp := List.mem_of_mem_filter hp
      unfold LobCreate.cached at hp
      split_ifs at hp with hz
      · cases hp
      · obtain ⟨hw, hx⟩ := h.cached hz
        rw [List.mem_singleton.1 hp]
        exact ⟨_, rfl, hx, .inl (hleft _ hx hw (page_mono (by omega)))⟩

theorem Inv.write (h : s.Inv P t) (len : Nat) (stored : Nat → Bool) :
    ((s.write P len true stored).opened = s.opened ∧
        (s.write P len true stored).Inv P (t.step (.write len true stored))) ∧
      (s.write P len false stored).opened = false ∧
        (t.Passed P (t.pos + len) → (s.write P len false stored).pieces = []) := by
  have hcached : s.cachedSz ≠ 0 → s.offset = s.curOffset + s.cachedSz := fun hz => by
    rw [h.offset, h.last, h.writing (h.cached hz).1]
  have hcur : t.writing = true → s.offset - s.cachedSz = s.curOffset := fun hw => by
    rw [h.offset, h.writing hw, ← h.last, Nat.add_sub_cancel]
  obtain ⟨hp, hle, htotal, hz⟩ := window_spec (P := P) (s.offset - s.cachedSz) len (c := s.cachedSz)
    fun hz => by rw [hcur (h.cached hz).1]; exact (h.cached hz).2
  have hneg : ¬ (s.offset ≠ s.curOffset + s.cachedSz ∧ s.cachedSz ≠ 0) := fun hn => hn.1 (hcached hn.2)
  unfold LobCreate.write
  simp only [if_neg hneg, if_true, Bool.false_eq_true, if_false]
  generalize window P (s.offset - s.cachedSz) s.cachedSz len = r at hp hle htotal hz ⊢
  have hlast : r.2.1 + r.2.2 = t.pos + len := by
    rw [← h.offset]
    omega
  have hwriting : s.cachedSz ≠ 0 ∨ len ≠ 0 → (t.writing || len ≠ 0) = true := by
    rintro (hz | hl)
    · simp [(h.cached hz).1]
    · simp [hl]
  have hknown : ∀ p ∈ s.pieces ++ r.1, Known P (t.step (.write len true stored)) r.2.1 p := by
    refine List.forall_mem_append.2 ⟨fun p hp' => ?_, fun p hp' => ?_⟩
    · obtain ⟨x, rfl, hx, hl | ⟨hw, hlt⟩⟩ := h.pieces p hp'
      · exact ⟨x, rfl, hx, .inl hl⟩
      · rw [hcur hw] at hle
        exact ⟨x, rfl, hx, .inr ⟨by simp [Trail.step, hw], Nat.lt_of_lt_of_le hlt (page_mono hle)⟩⟩
    · obtain ⟨hne, x, hx, h1, hlt⟩ := hp p hp'
      exact ⟨x, hx, h1, .inr ⟨hwriting hne, hlt⟩⟩
  refine ⟨⟨trivial, ?_⟩, rfl, fun hpass => ?_⟩
  · exact ⟨by simp [Trail.step, h.offset], hlast, fun _ => rfl, fun hc => ⟨hwriting (hz hc).1, (hz hc).2⟩, hknown⟩
  have ho : s.offset + len = t.pos + len := by rw [h.offset]
  refine rollback_pieces ?_ fun p hp' => ?_
  · show P.page (s.offset + len) < _
    rw [ho]
    exact hpass.1
  · have hk := hknown p ((List.filter_sublist.append_left s.pieces).subset hp')
    show p < P.page (s.offset + len)
    rw [ho]
    exact hk.lt hpass fun _ => by omega

theorem Inv.close (h : s.Inv P t) {stored : Nat → Bool} (hb : t.Behind P (.closeWithException stored)) :
    (rollback P { s with pieces := s.pieces ++ (s.cached P ++ [0]).filter stored }).pieces = [] := by
  obtain ⟨hpass, hno⟩ := hb
  have hcur : t.writing = true → s.curOffset ≤ t.pos := fun hw => by
    rw [h.writing hw, ← h.last]
    exact Nat.le_add_right _ _
  -- a page that the call has stored is not that of the offset
  have hown : ∀ p ≤ P.page t.pos, stored p = true → p < P.page t.pos := by
    intro p hle hs
    refine Nat.lt_of_le_of_ne hle ?_
    rintro rfl
    rw [hno] at hs
    cases hs
  refine rollback_pieces (h.offset ▸ hpass.1) (List.forall_mem_append.2 ⟨fun p hp => ?_, fun p hp => ?_⟩)
  · rw [h.offset]
    exact (h.pieces p hp).lt hpass hcur
  · rw [h.offset]
    obtain ⟨hp, hs⟩ := List.mem_filter.1 hp
    refine hown p ?_ hs
    rcases List.mem_append.1 hp with hp | hp
    · unfold LobCreate.cached at hp
      split_ifs at hp with hz
      · cases hp
      · rw [List.mem_singleton.1 hp]
        exact Nat.le_trans (Nat.mod_le _ _) (page_mono (hcur (h.cached hz).1))
    · rw [List.mem_singleton.1 hp]
      exact Nat.zero_le _

def Tracked (P : LobPages) (t : Trail) (s : LobCreate) : Prop :=
  if s.opened then s.Inv P t else s.pieces = []

theorem Tracked.step (h : s.Tracked P t) {c : CreateCall} (hb : t.Behind P c) : (s.step P c).Tracked P (t.step c) := by
  unfold LobCreate.step
  split_ifs with ho
  · have hi : s.Inv P t := by simpa [Tracked, ho] using h
    cases c with
    | seek offset ok stored =>
      have hs := hi.seek offset ok stored
      have hopen : (s.seek P offset ok stored).opened = true := by
        unfold LobCreate.seek
        split_ifs <;> exact ho
      simpa [Tracked, hopen] using hs
    | write len ok stored =>
      obtain ⟨⟨hopen, hw⟩, hclosed, hf⟩ := hi.write len stored
      cases ok with
      | true => simpa [Tracked, hopen, ho] using hw
      | false => simpa [Tracked, hclosed] using hf (hb rfl)
    | closeWithException stored => exact hi.close hb
  · simpa [Tracked, ho] using h

/-- **A failed creation.**  If, whenever the stream is closed with an exception, the page of the offset has a number below
`2 ^ 31` and lies behind all stretches that the client has left by a seek, and a `close` that fails has not stored this
page, then no piece is left. -/
theorem failed_create_leaves_no_piece (P : LobPages) {cs : List CreateCall}
    (hcs : Meets (Trail.Behind P) Trail.step Trail.start cs) (hc : (run (step P) start cs).opened = false) :
    (run (step P) start cs).pieces = [] := by
  have hall : ∀ {cs s t}, Tracked P t s → Meets (Trail.Behind P) Trail.step t cs →
      Tracked P (run Trail.step t cs) (run (step P) s cs) := by
    intro cs
    induction cs with
    | nil => exact fun h _ => h
    | cons c cs ih => exact fun h hm => ih (h.step hm.1) hm.2
  have h := hall (s := start) (t := Trail.start) (by simpa [Tracked, start] using Inv.start) hcs
  simpa [Tracked, hc] using h

/-- 8192 bytes, and the seeks to the given offsets -/
def written (offsets : List Nat) : List CreateCall :=
  .write 8192 true (fun _ => true) :: offsets.map (fun offset => .seek offset true fun _ => true) ++
    [.closeWithException fun _ => false]

theorem window_written : window ⟨true, 12⟩ 0 0 8192 = ([1], 7168, 1024) := by
  simp [window, nextWrites, remain, LobPages.sequence, page, pageSize, DMS_LOB_META_LENGTH]

theorem failed_create_seek_forward : (run (step ⟨true, 12⟩) start (written [0, 16384])).pieces = [] := by
  refine failed_create_leaves_no_piece ⟨true, 12⟩ ?_ ?_
  · simp [written, Meets, Trail.Behind, Trail.step, Trail.start, Trail.Passed, page, pageSize, DMS_LOB_META_LENGTH]
  · simp [written, step, start, LobCreate.write, window_written, LobCreate.seek, LobCreate.rollback]

/-- After a seek back to the start both pieces are left, and after one to a page whose number is not an `INT32`, too. -/
theorem failed_create_leaves_pieces : (run (step ⟨true, 12⟩) start (written [0])).opened = false ∧
    (run (step ⟨true, 12⟩) start (written [0])).pieces = [1, 2] ∧
    (run (step ⟨true, 12⟩) start (written [2 ^ 43])).pieces = [1, 2] := by
  simp [written, step, start, LobCreate.write, window_written, LobCreate.seek, LobCreate.rollback, LobCreate.cached,
    LobPages.sequence, page, pageSize, DMS_LOB_META_LENGTH]

end LobCreate

end SequoiaDB.Rtn

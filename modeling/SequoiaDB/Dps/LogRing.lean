import SequoiaDB.Dps.LsnBoundary

/-!
# The ring of log pages

All bytes that were ever allocated form one line, and the pages of the ring are a window on it.  `Ring c s b e`
says that the state `s` is the window that begins at page `b` of the line, with `e` bytes allocated: the pages
before the end are full and wait to be flushed, in order, and the pages behind it are empty.  Allocation moves
the end, a flush moves the window.
-/

namespace SequoiaDB.Dps

open Lib List Nat

/-! ### Page numbers -/

section Pages

variable {n : Nat}

theorem eq_of_mod_eq_of_window {a b lo : Nat} (ha : lo ≤ a) (ha' : a < lo + n) (hb : lo ≤ b) (hb' : b < lo + n)
    (h : a % n = b % n) : a = b :=
  mod_injOn_Ico lo n (by simp [ha, ha']) (by simp [hb, hb']) h

theorem land_compl_two_pow {k m : Nat} (hk : k < 32) (hm : m < 2 * 2 ^ k) :
    m &&& (2 ^ 32 - 1 - 2 ^ k) = m % 2 ^ k := by
  have hp : 2 ^ 32 - 1 - 2 ^ k = 2 ^ 32 - (2 ^ k + 1) := by omega
  have hlt : 2 ^ k < 2 ^ 32 := Nat.pow_lt_pow_right (by norm_num) hk
  apply eq_of_testBit_eq
  intro i
  rw [testBit_and, testBit_mod_two_pow, hp, testBit_two_pow_sub_succ hlt, testBit_two_pow]
  by_cases hi : i < k
  · have : ¬ k = i := by omega
    have : i < 32 := by omega
    simp [*]
  · have hb : k < i → m.testBit i = false := by
      intro hki
      apply testBit_lt_two_pow
      calc m < 2 ^ (k + 1) := by rw [Nat.pow_succ]; omega
        _ ≤ 2 ^ i := Nat.pow_le_pow_right (by norm_num) hki
    rcases Nat.lt_or_eq_of_le (Nat.not_lt.1 hi) with hki | rfl
    · simp [hb hki, hi]
    · simp

variable (c : LogConf)

theorem LogConf.page_eq_mod {m : Nat} (hm : m < 2 * c.pageNum) : c.page m = m % c.pageNum := by
  unfold LogConf.page
  split_ifs with h
  · rfl
  · have hpos := c.pageNum_pos
    have hlt : c.pageNum < 2 ^ 32 := by
      have := c.totalSize_lt
      simp only [DPS_DEFAULT_PAGE_SIZE] at this
      omega
    unfold LogConf.subBit at h ⊢
    split_ifs at h ⊢ with hp
    · obtain ⟨k, hk⟩ := (and_sub_one_eq_zero_iff_isPowerOfTwo (by omega)).1 hp
      rw [hk] at hm hlt ⊢
      exact land_compl_two_pow ((Nat.pow_lt_pow_iff_right (by norm_num)).1 hlt) hm
    · exact absurd rfl h

theorem LogConf.incPageID_mod (v : Nat) : c.incPageID (v % c.pageNum) = (v + 1) % c.pageNum := by
  have hlt := mod_lt v c.pageNum_pos
  unfold LogConf.incPageID
  rw [add_mod]
  rcases Nat.eq_or_lt_of_le c.pageNum_pos with h1 | h1
  · simp [← h1, mod_one]
  · rw [mod_eq_of_lt (a := 1) h1]
    split_ifs with h
    · rw [show v % c.pageNum + 1 = c.pageNum by omega, mod_self]
    · exact (mod_eq_of_lt (by omega)).symm

end Pages

/-! ### The invariant -/

def pageFill (e v : Nat) : Nat := min DPS_DEFAULT_PAGE_SIZE (e - v * DPS_DEFAULT_PAGE_SIZE)

theorem pageSize_pos : 0 < DPS_DEFAULT_PAGE_SIZE := by decide

variable {v : Nat}

theorem pageFill_full {e : Nat} (h : (v + 1) * DPS_DEFAULT_PAGE_SIZE ≤ e) : pageFill e v = DPS_DEFAULT_PAGE_SIZE := by
  rw [Nat.add_mul, Nat.one_mul] at h
  exact Nat.min_eq_left (by omega)

theorem pageFill_empty {e : Nat} (h : e ≤ v * DPS_DEFAULT_PAGE_SIZE) : pageFill e v = 0 := by
  rw [pageFill, Nat.sub_eq_zero_of_le h, Nat.min_zero]

theorem pageFill_work (e : Nat) : pageFill e (e / DPS_DEFAULT_PAGE_SIZE) = e % DPS_DEFAULT_PAGE_SIZE := by
  rw [pageFill, mod_eq_sub_div_mul]
  exact Nat.min_eq_right (by rw [← mod_eq_sub_div_mul]; exact (mod_lt _ pageSize_pos).le)

theorem pageFill_room_eq_zero {e : Nat} :
    DPS_DEFAULT_PAGE_SIZE - pageFill e v = 0 ↔ v < e / DPS_DEFAULT_PAGE_SIZE := by
  simp only [pageFill, DPS_DEFAULT_PAGE_SIZE]
  omega

theorem pageFill_add {e a : Nat} (ha : e % DPS_DEFAULT_PAGE_SIZE + a ≤ DPS_DEFAULT_PAGE_SIZE) (v : Nat) :
    pageFill (e + a) v =
      if v = e / DPS_DEFAULT_PAGE_SIZE then e % DPS_DEFAULT_PAGE_SIZE + a else pageFill e v := by
  simp only [pageFill, DPS_DEFAULT_PAGE_SIZE] at ha ⊢
  split_ifs <;> omega

theorem page_add {e a : Nat} (ha : e % DPS_DEFAULT_PAGE_SIZE + a ≤ DPS_DEFAULT_PAGE_SIZE) :
    (e + a) / DPS_DEFAULT_PAGE_SIZE =
      if e % DPS_DEFAULT_PAGE_SIZE + a = DPS_DEFAULT_PAGE_SIZE then e / DPS_DEFAULT_PAGE_SIZE + 1
      else e / DPS_DEFAULT_PAGE_SIZE := by
  simp only [DPS_DEFAULT_PAGE_SIZE] at ha ⊢
  split_ifs <;> omega

/-- The pages are the window from page `b` on, with `e` bytes allocated. -/
structure RingPages (c : LogConf) (s : LogMgr) (b e : Nat) : Prop where
  le : b * DPS_DEFAULT_PAGE_SIZE ≤ e
  fits : e ≤ (b + c.pageNum) * DPS_DEFAULT_PAGE_SIZE
  work : s.work = e / DPS_DEFAULT_PAGE_SIZE % c.pageNum
  lengths : ∀ v, b ≤ v → v < b + c.pageNum → (s.pages (v % c.pageNum)).length = pageFill e v

namespace RingPages

variable {c : LogConf} {s t : LogMgr} {b e : Nat}

theorem work_lt (h : RingPages c s b e) (hlt : e < (b + c.pageNum) * DPS_DEFAULT_PAGE_SIZE) :
    b ≤ e / DPS_DEFAULT_PAGE_SIZE ∧ e / DPS_DEFAULT_PAGE_SIZE < b + c.pageNum :=
  ⟨(Nat.le_div_iff_mul_le pageSize_pos).2 h.le, (Nat.div_lt_iff_lt_mul pageSize_pos).2 hlt⟩

theorem work_length (h : RingPages c s b e) (hlt : e < (b + c.pageNum) * DPS_DEFAULT_PAGE_SIZE) :
    (s.pages s.work).length = e % DPS_DEFAULT_PAGE_SIZE := by
  obtain ⟨hb, hb'⟩ := h.work_lt hlt
  rw [h.work, h.lengths _ hb hb', pageFill_work]

theorem congr (h : RingPages c s b e) (hw : t.work = s.work)
    (hl : ∀ i, (t.pages i).length = (s.pages i).length) : RingPages c t b e where
  le := h.le
  fits := h.fits
  work := hw.trans h.work
  lengths v hv hv' := (hl _).trans (h.lengths v hv hv')

end RingPages

/-- The full pages wait in order, and the free space is what is left of the window. -/
structure Ring (c : LogConf) (s : LogMgr) (b e : Nat) : Prop extends RingPages c s b e where
  idle : s.idleSize = (b + c.pageNum) * DPS_DEFAULT_PAGE_SIZE - e
  queue : s.queue = (range' b (e / DPS_DEFAULT_PAGE_SIZE - b)).map (· % c.pageNum)

theorem Ring.congr {c : LogConf} {s t : LogMgr} {b e : Nat} (h : Ring c s b e) (hw : t.work = s.work)
    (hl : ∀ i, (t.pages i).length = (s.pages i).length) (hi : t.idleSize = s.idleSize)
    (hq : t.queue = s.queue) : Ring c t b e where
  toRingPages := h.toRingPages.congr hw hl
  idle := hi.trans h.idle
  queue := hq.trans h.queue

def LogMgr.Sound (c : LogConf) (s : LogMgr) : Prop := ∃ b e, Ring c s b e

namespace LogMgr

variable {c : LogConf} {s t : LogMgr} {b e : Nat} {len need k : Nat}

theorem sound_new (c : LogConf) (buf : Nat → Mem) : (LogMgr.new c buf).Sound c := by
  refine ⟨0, 0, ⟨⟨by simp, by simp, by simp [LogMgr.new], ?_⟩, ?_, by simp [LogMgr.new]⟩⟩
  · intro v _ _
    simp [LogMgr.new, pageFill]
  · simp [LogMgr.new, LogConf.totalSize]

/-! ### Flushing -/

theorem ring_flushPage (h : Ring c s b e) : ∃ b', Ring c s.flushPage b' e := by
  rcases Nat.eq_zero_or_pos (e / DPS_DEFAULT_PAGE_SIZE - b) with hz | hp
  · have hq : s.queue = [] := by rw [h.queue, hz]; rfl
    refine ⟨b, ?_⟩
    rw [flushPage, hq]
    exact h
  · obtain ⟨k, hk⟩ := exists_eq_succ_of_ne_zero hp.ne'
    have hq : s.queue = b % c.pageNum :: (range' (b + 1) k).map (· % c.pageNum) := by
      rw [h.queue, hk, range'_succ, map_cons]
    have hle : (b + 1) * DPS_DEFAULT_PAGE_SIZE ≤ e :=
      (Nat.le_div_iff_mul_le pageSize_pos).1 (Nat.lt_of_sub_pos hp)
    have hm : (b + 1 + c.pageNum) * DPS_DEFAULT_PAGE_SIZE =
        (b + c.pageNum) * DPS_DEFAULT_PAGE_SIZE + DPS_DEFAULT_PAGE_SIZE := by ring
    have hf := h.fits
    have hl : (s.pages (b % c.pageNum)).length = DPS_DEFAULT_PAGE_SIZE := by
      rw [h.lengths b le_rfl (Nat.lt_add_of_pos_right c.pageNum_pos), pageFill_full hle]
    rw [flushPage, hq]
    refine ⟨b + 1, ⟨⟨hle, hf.trans (Nat.le.intro hm.symm), h.work, ?_⟩, ?_, ?_⟩⟩
    · intro v hv hv'
      -- the page that enters the window is the one that was flushed
      rcases Nat.lt_or_eq_of_le (show v ≤ b + c.pageNum by omega) with hlt | rfl
      · have hne : v % c.pageNum ≠ b % c.pageNum := by
          intro heq
          have := eq_of_mod_eq_of_window (show b ≤ v by omega) hlt le_rfl (show b < b + c.pageNum by omega) heq
          omega
        simp only [Function.update_of_ne hne]
        exact h.lengths v (by omega) hlt
      · simp only [add_mod_right, Function.update_self]
        exact (pageFill_empty hf).symm
    · simp only [hl, h.idle]
      omega
    · rw [sub_add_eq, hk, succ_sub_one]

theorem ring_flushPages (k : Nat) (h : Ring c s b e) : ∃ b', Ring c (flushPage^[k] s) b' e := by
  induction k generalizing s b with
  | zero => exact ⟨b, h⟩
  | succ k ih =>
    obtain ⟨b', hb'⟩ := ring_flushPage h
    exact ih hb'

theorem ring_awaitIdle (h : Ring c s b e) (hw : s.awaitIdle k need = some t) :
    ∃ b', Ring c t b' e ∧ e + need ≤ (b' + c.pageNum) * DPS_DEFAULT_PAGE_SIZE := by
  obtain ⟨b', hb'⟩ := ring_flushPages k h
  simp only [awaitIdle] at hw
  split at hw
  · cases hw
  next hidle =>
    cases hw
    have hi := hb'.idle
    have hf := hb'.fits
    exact ⟨b', hb', by omega⟩

/-! ### Allocation -/

theorem setBeginLSN_work (first : Bool) (s : LogMgr) : (s.setBeginLSN first).work = s.work := by
  simp only [setBeginLSN]
  split_ifs <;> rfl

theorem setBeginLSN_length (first : Bool) (s : LogMgr) (i : Nat) :
    ((s.setBeginLSN first).pages i).length = (s.pages i).length := by
  have hs : ∀ l : Lsn, ((s.setPage s.work { s.pages s.work with beginLSN := l }).pages i).length =
      (s.pages i).length := by
    intro l
    simp only [setPage, Function.update_apply]
    split_ifs with h
    · rw [h]
    · rfl
  simp only [setBeginLSN]
  split_ifs
  · exact hs _
  · rfl
  · exact hs _

theorem nextPage_work (c : LogConf) (s : LogMgr) : (s.nextPage c).work = c.incPageID s.work := by
  simp only [nextPage]
  split_ifs <;> rfl

theorem nextPage_pages (c : LogConf) (s : LogMgr) : (s.nextPage c).pages = s.pages := by
  simp only [nextPage]
  split_ifs <;> rfl

/-- The queue and the free space of two states are the same. -/
structure SameQueue (s t : LogMgr) : Prop where
  queue : t.queue = s.queue
  idleSize : t.idleSize = s.idleSize

theorem SameQueue.trans {u : LogMgr} (h : SameQueue s t) (h' : SameQueue t u) : SameQueue s u :=
  ⟨h'.queue.trans h.queue, h'.idleSize.trans h.idleSize⟩

theorem sameQueue_allocateInPage (c : LogConf) (first : Bool) (need : Nat) (s : LogMgr) :
    SameQueue s (s.allocateInPage c first need).2 := by
  simp only [allocateInPage, nextPage, setBeginLSN, setPage]
  split_ifs <;> exact ⟨rfl, rfl⟩

def pageRoom (e : Nat) : Nat := DPS_DEFAULT_PAGE_SIZE - e % DPS_DEFAULT_PAGE_SIZE

theorem pageRoom_pos (e : Nat) : 0 < pageRoom e := Nat.sub_pos_of_lt (mod_lt _ pageSize_pos)

theorem allocateInPage_eq (c : LogConf) (first : Bool) {a r : Nat} (hl : (s.pages s.work).length = r)
    (ha : min (DPS_DEFAULT_PAGE_SIZE - r) need = a) (hr : r ≤ DPS_DEFAULT_PAGE_SIZE) :
    (s.allocateInPage c first need).1 = a ∧ (s.allocateInPage c first need).2.work =
        (if r + a = DPS_DEFAULT_PAGE_SIZE then c.incPageID s.work else s.work) ∧
      ∀ i, ((s.allocateInPage c first need).2.pages i).length =
        if i = s.work then r + a else (s.pages i).length := by
  have hlen' := (setBeginLSN_length first s s.work).trans hl
  have hroom : DPS_DEFAULT_PAGE_SIZE - (r + a) = 0 ↔ r + a = DPS_DEFAULT_PAGE_SIZE := by omega
  simp only [allocateInPage, LogPage.getLastSize, setBeginLSN_work, hlen', ha, hroom]
  refine ⟨trivial, ?_, ?_⟩
  · split_ifs
    · rw [nextPage_work]
      exact congrArg _ (setBeginLSN_work first s)
    · exact setBeginLSN_work first s
  · intro i
    have hp : ∀ t : LogMgr, (if r + a = DPS_DEFAULT_PAGE_SIZE then t.nextPage c else t).pages = t.pages := by
      intro t
      split_ifs
      · exact nextPage_pages c t
      · rfl
    rw [hp]
    simp only [setPage, Function.update_apply]
    split_ifs
    · rfl
    · exact setBeginLSN_length first s i

theorem ringPages_allocateInPage (first : Bool) (h : RingPages c s b e) (hneed : 0 < need)
    (hf : e + need ≤ (b + c.pageNum) * DPS_DEFAULT_PAGE_SIZE) :
    (s.allocateInPage c first need).1 = min (pageRoom e) need ∧
      RingPages c (s.allocateInPage c first need).2 b (e + min (pageRoom e) need) := by
  have hlt : e < (b + c.pageNum) * DPS_DEFAULT_PAGE_SIZE := by omega
  obtain ⟨hb, hb'⟩ := h.work_lt hlt
  have hm := mod_lt e pageSize_pos
  obtain ⟨ha, hw, hl⟩ := allocateInPage_eq c first (h.work_length hlt) (rfl : min (pageRoom e) need = _) hm.le
  have hle : e % DPS_DEFAULT_PAGE_SIZE + min (pageRoom e) need ≤ DPS_DEFAULT_PAGE_SIZE := by
    have := Nat.min_le_left (pageRoom e) need
    simp only [pageRoom] at this ⊢
    omega
  refine ⟨ha, ⟨h.le.trans (Nat.le_add_right _ _), ?_, ?_, ?_⟩⟩
  · exact (Nat.add_le_add_left (Nat.min_le_right _ _) e).trans hf
  · rw [hw, h.work, page_add hle, LogConf.incPageID_mod]
    split_ifs <;> rfl
  · intro v hv hv'
    rw [hl, pageFill_add hle, h.work]
    by_cases hve : v = e / DPS_DEFAULT_PAGE_SIZE
    · rw [if_pos (by rw [hve]), if_pos hve]
    · rw [if_neg (fun hm => hve (eq_of_mod_eq_of_window hv hv' hb hb' hm)), if_neg hve]
      exact h.lengths v hv hv'

def touched (e need : Nat) : Nat :=
  (e + need - 1) / DPS_DEFAULT_PAGE_SIZE - e / DPS_DEFAULT_PAGE_SIZE + 1

theorem touched_eq_one {e : Nat} (hneed : 0 < need) (h : need ≤ pageRoom e) : touched e need = 1 := by
  simp only [touched, pageRoom, DPS_DEFAULT_PAGE_SIZE] at h ⊢
  omega

theorem touched_eq_succ {e : Nat} (h : pageRoom e < need) :
    touched e need = touched (e + pageRoom e) (need - pageRoom e) + 1 := by
  simp only [touched, pageRoom, DPS_DEFAULT_PAGE_SIZE] at h ⊢
  omega

theorem ringPages_allocateLoop {fuel : Nat} (pageNum need : Nat) (h : RingPages c s b e) (hn : 0 < need)
    (hfuel : need ≤ fuel) (hf : e + need ≤ (b + c.pageNum) * DPS_DEFAULT_PAGE_SIZE) :
    ∃ t, allocateLoop c fuel pageNum need s = some (pageNum + touched e need, t) ∧
      RingPages c t b (e + need) ∧ SameQueue s t := by
  induction fuel generalizing pageNum need s e with
  | zero => omega
  | succ fuel ih =>
    obtain ⟨ha, hr⟩ := ringPages_allocateInPage (pageNum = 0) h hn hf
    have hs := sameQueue_allocateInPage c (pageNum = 0) need s
    have hpos := pageRoom_pos e
    simp only [allocateLoop, ha]
    rcases Nat.lt_or_ge (pageRoom e) need with hlt | hge
    · rw [Nat.min_eq_left hlt.le] at hr ⊢
      rw [if_neg (by omega)]
      obtain ⟨t, ht, htring, htsame⟩ := ih (pageNum + 1) (need - pageRoom e) hr (by omega) (by omega) (by omega)
      refine ⟨t, ?_, ?_, hs.trans htsame⟩
      · rw [ht, touched_eq_succ hlt, Nat.add_right_comm, Nat.add_assoc]
      · rwa [show e + pageRoom e + (need - pageRoom e) = e + need by omega] at htring
    · rw [Nat.min_eq_right hge] at hr ⊢
      rw [if_pos (Nat.sub_self need), touched_eq_one hn hge]
      exact ⟨_, rfl, hr, hs⟩

/-! ### The queue of full pages -/

theorem filter_lt_range {j : Nat} (h : j ≤ k) : (range k).filter (· < j) = range j := by
  obtain ⟨r, rfl⟩ := Nat.exists_eq_add_of_le h
  rw [range_add, filter_append, filter_eq_self.2, filter_eq_nil_iff.2, append_nil]
  · simp
  · simp

theorem range'_append_range' {m n : Nat} (hk : k ≤ m) (hm : m ≤ n) :
    range' k (m - k) ++ range' m (n - m) = range' k (n - k) := by
  obtain ⟨r, rfl⟩ := Nat.exists_eq_add_of_le hk
  obtain ⟨q, rfl⟩ := Nat.exists_eq_add_of_le hm
  rw [Nat.add_sub_cancel_left, Nat.add_sub_cancel_left, Nat.add_assoc, Nat.add_sub_cancel_left, range'_append_1]

theorem touched_le {N : Nat} (hlen : 0 < len) (hle : b * DPS_DEFAULT_PAGE_SIZE ≤ e)
    (hf : e + len ≤ (b + N) * DPS_DEFAULT_PAGE_SIZE) :
    e / DPS_DEFAULT_PAGE_SIZE + touched e len ≤ b + N ∧ touched e len ≤ N ∧
      (e + len) / DPS_DEFAULT_PAGE_SIZE - e / DPS_DEFAULT_PAGE_SIZE ≤ touched e len := by
  simp only [touched, DPS_DEFAULT_PAGE_SIZE] at hle hf ⊢
  omega

theorem push2SendQueue_queue (pageMeta : PageMeta) (hp : RingPages c t b (e + len))
    (hl : 0 < len) (hle : b * DPS_DEFAULT_PAGE_SIZE ≤ e)
    (hs : pageMeta.beginSub = e / DPS_DEFAULT_PAGE_SIZE % c.pageNum)
    (hn : pageMeta.pageNum = touched e len) :
    (t.push2SendQueue c pageMeta).queue = t.queue ++ (range' (e / DPS_DEFAULT_PAGE_SIZE)
        ((e + len) / DPS_DEFAULT_PAGE_SIZE - e / DPS_DEFAULT_PAGE_SIZE)).map (· % c.pageNum) := by
  obtain ⟨htop, hN, hj⟩ := touched_le hl hle hp.fits
  have hb : b ≤ e / DPS_DEFAULT_PAGE_SIZE := (Nat.le_div_iff_mul_le pageSize_pos).2 hle
  simp only [push2SendQueue, hs, hn]
  have hm : (range (touched e len)).map (fun i => c.page (e / DPS_DEFAULT_PAGE_SIZE % c.pageNum + i)) =
      (range (touched e len)).map (fun i => (e / DPS_DEFAULT_PAGE_SIZE + i) % c.pageNum) := by
    refine map_congr_left fun i hi => ?_
    have hi := mem_range.1 hi
    have := mod_lt (e / DPS_DEFAULT_PAGE_SIZE) c.pageNum_pos
    rw [c.page_eq_mod (by omega), mod_add_mod]
  have hf : ∀ i ∈ range (touched e len),
      decide ((t.pages ((e / DPS_DEFAULT_PAGE_SIZE + i) % c.pageNum)).getLastSize = 0) =
        decide (i < (e + len) / DPS_DEFAULT_PAGE_SIZE - e / DPS_DEFAULT_PAGE_SIZE) := by
    intro i hi
    have hi := mem_range.1 hi
    refine decide_eq_decide.2 ?_
    rw [LogPage.getLastSize, hp.lengths _ (by omega) (by omega), pageFill_room_eq_zero]
    omega
  rw [hm, filter_map, filter_congr (by exact hf), filter_lt_range hj, range'_eq_map_range, map_map]
  rfl

def placeAt (c : LogConf) (e len : Nat) : PageMeta where
  offset := e % DPS_DEFAULT_PAGE_SIZE
  beginSub := e / DPS_DEFAULT_PAGE_SIZE % c.pageNum
  pageNum := touched e len
  totalLen := len

theorem allocate_eq (h : RingPages c s b e) (hl : 0 < len) (hf : e + len ≤ (b + c.pageNum) * DPS_DEFAULT_PAGE_SIZE) :
    ∃ t, s.allocate c len = some (placeAt c e len, { t with idleSize := t.idleSize - len }) ∧
      RingPages c t b (e + len) ∧ SameQueue s t := by
  obtain ⟨t, hloop, hp, hs⟩ := ringPages_allocateLoop 0 len h hl (le_succ len) hf
  refine ⟨t, ?_, hp, hs⟩
  rw [allocate, hloop, h.work_length (by omega), h.work, Nat.zero_add]
  rfl

theorem ring_append {pageMeta : PageMeta} (h : Ring c s b e) (hl : 0 < len)
    (ha : s.append c k len = some (pageMeta, t)) :
    ∃ b', Ring c t b' (e + len) ∧ b' * DPS_DEFAULT_PAGE_SIZE ≤ e ∧ pageMeta = placeAt c e len := by
  simp only [append, Option.bind_eq_bind, Option.bind_eq_some_iff] at ha
  obtain ⟨s1, hw, ⟨pm, s2⟩, halloc, ha⟩ := ha
  obtain ⟨b', hr, hf⟩ := ring_awaitIdle h hw
  obtain ⟨s3, heq, hp, hs⟩ := allocate_eq hr.toRingPages hl hf
  cases heq.symm.trans halloc
  cases ha
  have hb : b' ≤ e / DPS_DEFAULT_PAGE_SIZE := (Nat.le_div_iff_mul_le pageSize_pos).2 hr.le
  have hq := push2SendQueue_queue (placeAt c e len) hp hl hr.le rfl rfl
  refine ⟨b', ⟨hp.congr rfl fun _ => rfl, ?_, ?_⟩, hr.le, rfl⟩
  · show s3.idleSize - len = _
    rw [hs.idleSize, hr.idle, sub_add_eq]
  · refine hq.trans ?_
    rw [hs.queue, hr.queue, ← map_append, range'_append_range' hb (Nat.div_le_div_right (Nat.le_add_right e len))]

/-! ### `preparePages` -/

/-- The offset of a record of `len` bytes, if the log ends at `offset`: a dummy record may be in front of it. -/
def recordOffset (c : LogConf) (offset len : Nat) : Nat :=
  if crossesFile c offset len then offset + (c.logFileSz - offset % c.logFileSz) else offset

def recordLength (c : LogConf) (offset len : Nat) : Nat :=
  fillLength c (recordOffset c offset len) len

theorem ring_newVersion (h : Ring c s b e) : Ring c s.newVersion b e := by
  unfold newVersion
  split_ifs
  · exact h.congr rfl (fun _ => rfl) rfl rfl
  · exact h

theorem restOfFile_pos (c : LogConf) (offset : Nat) : 0 < c.logFileSz - offset % c.logFileSz :=
  Nat.sub_pos_of_lt (mod_lt _ ((Nat.zero_le _).trans_lt c.header_lt))

theorem fillLength_pos {c : LogConf} {offset : Nat} (hl : 0 < len) : 0 < fillLength c offset len := by
  unfold fillLength
  split_ifs
  · exact restOfFile_pos c offset
  · exact hl

theorem ring_closeFile {d : Option (LogRecordHeader × PageMeta)} (h : Ring c s b e)
    (hc : s.closeFile c k len = some (d, t)) :
    ∃ b' e', Ring c t b' e' ∧ t.lsn.offset = recordOffset c s.lsn.offset len := by
  simp only [closeFile] at hc
  unfold recordOffset
  split_ifs at hc ⊢
  · simp only [Option.bind_eq_bind, Option.bind_eq_some_iff] at hc
    obtain ⟨⟨pm, u⟩, ha, hc⟩ := hc
    cases hc
    obtain ⟨b', hr, -⟩ := ring_append h (restOfFile_pos c _) ha
    exact ⟨b', _, hr, by rw [(append_lsn ha).1]⟩
  · cases hc
    exact ⟨b, e, h, rfl⟩

theorem ring_prepareNew {w : Waits} {head : LogRecordHeader} {p : Prepared} (h : Ring c s b e)
    (hl : 0 < head.length) (hp : s.prepareNew c w head = some (p, t)) :
    p.head.length = recordLength c s.lsn.offset head.length ∧ p.head.type = head.type ∧
      ∃ b' e', Ring c t b' (e' + p.head.length) ∧ b' * DPS_DEFAULT_PAGE_SIZE ≤ e' ∧
        p.pageMeta = placeAt c e' p.head.length := by
  simp only [prepareNew, Option.bind_eq_bind, Option.bind_eq_some_iff] at hp
  obtain ⟨⟨d, u⟩, hclose, ⟨pm, v⟩, ha, hp⟩ := hp
  cases hp
  obtain ⟨b', e', hr, ho⟩ := ring_closeFile (ring_newVersion h) hclose
  obtain ⟨b'', hring', hle, hpm⟩ := ring_append hr (fillLength_pos hl) ha
  rw [s.newVersion_offset.1] at ho
  refine ⟨?_, rfl, b'', e', hring', hle, hpm⟩
  simp only [stamp, recordLength, ho]

end LogMgr

end SequoiaDB.Dps

import SequoiaDB.Dms.SegmentSpace
import SequoiaDB.Lib.Run

/-!
# The page space manager

`_dmsSMEMgr` divides the pages of a storage file into segments of equal size and keeps one free list per
segment next to the allocation bitmap (the space management extent, SME).  `init` rebuilds the lists from the
bitmap in one scan over all pages, `reservePages` walks over the segments from the shared position `_freePos`,
`releasePages` goes to the segment of the range, and `depositASegment` adds a segment of free pages.

Several callers use one manager.  Reserving and releasing hold the manager's lock in shared mode and take the
latch of one segment at a time, so their steps interleave; depositing holds the lock exclusively.  `SMESystem`
is that system: each action is one latched step of one caller.  `SMEExact` says that lists, largest nodes and
counters are what the bitmap prescribes and that no page is held twice.
-/

namespace SequoiaDB.Dms

open SequoiaDB.Lib List Nat

def DMS_MAX_PG : Nat := 128 * 1024 * 1024

/-- The geometry of a storage file: a segment has `2 ^ segmentPagesSquareRoot` pages.  A segment of 128MB with
pages of at least 4KB has at most `2 ^ 15` of them. -/
structure Geometry where
  segmentPagesSquareRoot : Nat
  le : segmentPagesSquareRoot ≤ 15

namespace Geometry

variable (g : Geometry)

def segmentPages : Nat := 2 ^ g.segmentPagesSquareRoot

theorem segmentPages_pos : 0 < g.segmentPages := Nat.two_pow_pos _

theorem u16_segmentPages : u16 g.segmentPages = g.segmentPages :=
  mod_eq_of_lt (Nat.pow_lt_pow_right (by decide) (by have := g.le; omega))

theorem segmentID_eq {k i : Nat} (hlo : k * g.segmentPages ≤ i) (hhi : i < (k + 1) * g.segmentPages) :
    i >>> g.segmentPagesSquareRoot = k := by
  rw [shiftRight_eq_div_pow]
  exact Nat.div_eq_of_lt_le hlo hhi

theorem apart {j k i start n : Nat} (hkj : k ≠ j) (h1 : j * g.segmentPages ≤ i) (h2 : i < (j + 1) * g.segmentPages)
    (hlo : k * g.segmentPages ≤ start) (hhi : start + n ≤ (k + 1) * g.segmentPages) : i < start ∨ start + n ≤ i := by
  rcases Nat.lt_or_gt_of_ne hkj with hlt | hgt
  · exact .inr (hhi.trans ((Nat.mul_le_mul_right _ hlt).trans h1))
  · exact .inl (h2.trans_le ((Nat.mul_le_mul_right _ hgt).trans hlo))

end Geometry

structure SMEMgr where
  segments : List SegmentSpace
  shared : SMEShared

open SMEMgr

/-! ### The functions of the manager -/

/-- The local variables of `_dmsSMEMgr::init`.  `newspace` is the last segment created; `_segments` is `front`
followed by it. -/
structure InitState where
  front : List SegmentSpace
  newspace : Option SegmentSpace
  totalFree : Nat
  releaseBegin : Nat
  inUse : Bool

/-- `newspace->releasePages( releaseBegin, i - releaseBegin, FALSE )` and the update of `_totalFree`. -/
def InitState.release (st : InitState) (mask : Nat → Bool) (i : Nat) : Except Rc InitState :=
  match st.newspace with
  | none => .error .sys
  | some newspace =>
    let r := newspace.releasePages st.releaseBegin (i - st.releaseBegin) false ⟨mask, st.totalFree, 0⟩
    if r.1 = .ok then
      .ok { st with newspace := some r.2.1, totalFree := u32 (st.totalFree + (i - st.releaseBegin)) }
    else .error r.1

/-- `if ( newspace && !inUse )`: the run that is still open at the start of a segment belongs to the one before. -/
def InitState.closeSegment (st : InitState) (mask : Nat → Bool) (i : Nat) : Except Rc InitState :=
  if st.newspace.isSome ∧ st.inUse = false then st.release mask i else .ok st

def initSegment (g : Geometry) (mask : Nat → Bool) (st : InitState) (i : Nat) : Except Rc InitState :=
  if i &&& (1 <<< g.segmentPagesSquareRoot - 1) = 0 then do
    let st ← st.closeSegment mask i
    .ok { st with
      front := st.front ++ st.newspace.toList
      newspace := some (.new i g.segmentPages)
      inUse := false
      releaseBegin := i }
  else .ok st

def initBit (mask : Nat → Bool) (st : InitState) (i : Nat) : Except Rc InitState :=
  if mask i = true ∧ st.inUse = false then do
    let st ← st.release mask i
    .ok { st with inUse := true }
  else if mask i = false ∧ st.inUse = true then
    .ok { st with inUse := false, releaseBegin := i }
  else .ok st

def initPage (g : Geometry) (mask : Nat → Bool) (st : InitState) (i : Nat) : Except Rc InitState := do
  let st ← initSegment g mask st i
  initBit mask st i

def InitState.closeLast (st : InitState) (mask : Nat → Bool) (i : Nat) : Except Rc InitState :=
  if i > 0 ∧ mask (i - 1) = false then st.release mask i else .ok st

def SMEMgr.init (g : Geometry) (mask : Nat → Bool) (pageNum : Nat) : Except Rc SMEMgr := do
  let st ← (range pageNum).foldlM (initPage g mask) ⟨[], none, 0, 0, false⟩
  let st ← st.closeLast mask pageNum
  .ok ⟨st.front ++ st.newspace.toList, ⟨mask, st.totalFree, 0⟩⟩

def SMEMgr.reserveAt (mgr : SMEMgr) (numPages pos : Nat) : Rc × SMEMgr × Nat :=
  match mgr.segments[pos]? with
  | none => (.sys, mgr, 0)
  | some seg =>
    let r := seg.reservePages numPages pos mgr.shared
    (r.1, ⟨mgr.segments.set pos r.2.1, r.2.2.2⟩, r.2.2.1)

def SMEMgr.releasePages (g : Geometry) (mgr : SMEMgr) (start numPages : Nat) : Rc × SMEMgr :=
  let segmentID := start >>> g.segmentPagesSquareRoot
  match mgr.segments[segmentID]? with
  | none => (.sys, mgr)
  | some seg =>
    let r := seg.releasePages start numPages true mgr.shared
    (r.1, ⟨mgr.segments.set segmentID r.2.1, r.2.2⟩)

def SMEMgr.lowerFreePos (mgr : SMEMgr) (segmentID : Nat) : SMEMgr :=
  { mgr with shared := { mgr.shared with
    freePos := if segmentID < mgr.shared.freePos then segmentID else mgr.shared.freePos } }

def SMEMgr.depositASegment (g : Geometry) (mgr : SMEMgr) (start : Nat) : Rc × SMEMgr :=
  let segmentPages := u16 g.segmentPages
  let segmentID := start >>> g.segmentPagesSquareRoot
  if segmentID ≠ mgr.segments.length then
    (.sys, mgr)
  else
    let r := (SegmentSpace.new start segmentPages).releasePages start segmentPages false mgr.shared
    let mgr := { mgr with segments := mgr.segments ++ [r.2.1] }
    if r.1 = .ok then
      (.ok, { mgr with shared := { mgr.shared with totalFree := u32 (mgr.shared.totalFree + segmentPages) } })
    else (r.1, mgr)

/-! ### The system of callers -/

/-- Where a caller stands between two latched steps. -/
inductive Caller
  | idle
  | reserving (numPages pos size : Nat)
  | releasing (segmentID : Nat)
  deriving DecidableEq, Repr

/-- The manager, its callers, and the ranges `(start, numPages)` that are reserved. -/
structure SMESystem where
  mgr : SMEMgr
  callers : List Caller
  held : List (Nat × Nat)

open SMESystem

inductive SMEAction
  | reserve (c numPages : Nat)
  | reserveNext (c : Nat)
  | release (c : Nat) (range : Nat × Nat)
  | releaseEnd (c : Nat)
  | deposit (start : Nat)
  deriving DecidableEq, Repr

/-- The state after a step, and the range that `reservePages` returns in it, if it returns one. -/
def SMESystem.stepOut (g : Geometry) (s : SMESystem) : SMEAction → SMESystem × Option (Nat × Nat)
  | .reserve c numPages =>
    let caller := .reserving numPages s.mgr.shared.freePos s.mgr.segments.length
    ({ s with callers := s.callers.set c caller }, none)
  | .reserveNext c =>
    match s.callers[c]? with
    | some (.reserving numPages pos size) =>
      if pos < size then
        let r := s.mgr.reserveAt numPages pos
        match r.1 with
        | .ok =>
          (⟨r.2.1, s.callers.set c .idle, (r.2.2, numPages) :: s.held⟩, some (r.2.2, numPages))
        | .dmsNoSpc => (⟨r.2.1, s.callers.set c (.reserving numPages (pos + 1) size), s.held⟩, none)
        | _ => (⟨r.2.1, s.callers.set c .idle, s.held⟩, none)
      else ({ s with callers := s.callers.set c .idle }, none)
    | _ => (s, none)
  | .release c range =>
    let r := s.mgr.releasePages g range.1 range.2
    if r.1 = .ok then
      (⟨r.2, s.callers.set c (.releasing (range.1 >>> g.segmentPagesSquareRoot)), s.held.erase range⟩, none)
    else ({ s with mgr := r.2 }, none)
  | .releaseEnd c =>
    match s.callers[c]? with
    | some (.releasing segmentID) =>
      ({ s with mgr := s.mgr.lowerFreePos segmentID, callers := s.callers.set c .idle }, none)
    | _ => (s, none)
  | .deposit start => ({ s with mgr := (s.mgr.depositASegment g start).2 }, none)

def SMESystem.step (g : Geometry) (s : SMESystem) (a : SMEAction) : SMESystem :=
  (s.stepOut g a).1

/-- When an action may be taken: a call starts from an idle caller, asks for at least one page and releases a
range that is held; the storage unit deposits, with the lock held exclusively, the pages of a new segment inside
the file, whose bits it has checked to be free. -/
def SMESystem.Enabled (g : Geometry) (s : SMESystem) : SMEAction → Prop
  | .reserve c numPages => s.callers[c]? = some .idle ∧ 0 < numPages ∧ numPages < 2 ^ 16
  | .reserveNext c => ∃ numPages pos size, s.callers[c]? = some (.reserving numPages pos size)
  | .release c range => s.callers[c]? = some .idle ∧ range ∈ s.held
  | .releaseEnd c => ∃ segmentID, s.callers[c]? = some (.releasing segmentID)
  | .deposit start => (∀ caller ∈ s.callers, caller = .idle) ∧ start % g.segmentPages = 0 ∧
      start + g.segmentPages ≤ DMS_MAX_PG ∧
      ∀ i, start ≤ i → i < start + g.segmentPages → s.mgr.shared.smeMask i = false

/-! ### The invariant of the manager -/

def freeFrom (mask : Nat → Bool) (start : Nat) : Nat → Bool :=
  fun i => !mask (start + i)

/-- `seg` is segment number `k` of a file with bitmap `mask`. -/
structure SegmentAt (g : Geometry) (mask : Nat → Bool) (k : Nat) (seg : SegmentSpace) : Prop where
  start : seg.startExtent = k * g.segmentPages
  size : seg.totalSize = g.segmentPages
  inv : SegmentInv (freeFrom mask (k * g.segmentPages)) seg

def Full (g : Geometry) (mask : Nat → Bool) (k : Nat) : Prop :=
  ∀ i, k * g.segmentPages ≤ i → i < (k + 1) * g.segmentPages → mask i = true

def NoRun (g : Geometry) (mask : Nat → Bool) (n k : Nat) : Prop :=
  ∀ rel, rel + n ≤ g.segmentPages → ∃ i, k * g.segmentPages + rel ≤ i ∧ i < k * g.segmentPages + rel + n ∧ mask i = true

variable {g : Geometry}

theorem SegmentAt.congr {mask mask' : Nat → Bool} {k : Nat} {seg : SegmentSpace} (h : SegmentAt g mask k seg)
    (hm : ∀ i, k * g.segmentPages ≤ i → i < (k + 1) * g.segmentPages → mask' i = mask i) :
    SegmentAt g mask' k seg where
  start := h.start
  size := h.size
  inv := by
    refine h.inv.congr fun i hi => ?_
    rw [h.size] at hi
    rw [freeFrom, freeFrom, hm _ (by omega) (by rw [succ_mul]; omega)]

variable {mask : Nat → Bool}

theorem SegmentAt.snoc {segments : List SegmentSpace} {seg : SegmentSpace}
    (h : ∀ k s, segments[k]? = some s → SegmentAt g mask k s) (hs : SegmentAt g mask segments.length seg) (k : Nat)
    (s : SegmentSpace) (hk : (segments ++ [seg])[k]? = some s) : SegmentAt g mask k s := by
  rcases Nat.lt_trichotomy k segments.length with hlt | rfl | hgt
  · rw [List.getElem?_append_left hlt] at hk
    exact h k s hk
  · obtain rfl : seg = s := by simpa using hk
    exact hs
  · rw [List.getElem?_eq_none (by simp; omega)] at hk
    cases hk

theorem freeCount_run {start n : Nat} (hf : ∀ i, start ≤ i → i < start + n → mask i = false) :
    countBelow (freeFrom mask 0) (start + n) = countBelow (freeFrom mask 0) start + n := by
  have hr : countBelow (fun i => freeFrom mask 0 (start + i)) n = countBelow (fun _ => true) n := by
    refine countBelow_congr fun i hi => ?_
    rw [freeFrom, Nat.zero_add, hf _ (by omega) (by omega)]
    rfl
  rw [countBelow_add, hr, countBelow_const]
  rfl

/-- All segments, the counter and the size of the file. -/
structure MgrInv (g : Geometry) (mgr : SMEMgr) : Prop where
  segments : ∀ k seg, mgr.segments[k]? = some seg → SegmentAt g mgr.shared.smeMask k seg
  totalFree : mgr.shared.totalFree = countBelow (freeFrom mgr.shared.smeMask 0) (mgr.segments.length * g.segmentPages)
  pageNum : mgr.segments.length * g.segmentPages ≤ DMS_MAX_PG

/-! ### `init` -/

section Init

variable {g : Geometry} {mask : Nat → Bool}

/-- The pages before `e` have been handed over: the segments of `front` are complete and `seg` knows the free
pages of its part of `[0, e)`. -/
structure Scanned (g : Geometry) (mask : Nat → Bool) (e : Nat) (front : List SegmentSpace) (seg : SegmentSpace)
    (totalFree : Nat) : Prop where
  complete : ∀ k s, front[k]? = some s → SegmentAt g mask k s
  start : seg.startExtent = front.length * g.segmentPages
  size : seg.totalSize = g.segmentPages
  lower : front.length * g.segmentPages ≤ e
  upper : e ≤ (front.length + 1) * g.segmentPages
  inv : SegmentInv (fun i => decide (front.length * g.segmentPages + i < e) &&
    freeFrom mask (front.length * g.segmentPages) i) seg
  totalFree : totalFree = countBelow (freeFrom mask 0) e

/-- The state of `init` when the pages before `i` have been looked at: the free pages from `releaseBegin` on are
still to be handed over. -/
structure InitInv (g : Geometry) (mask : Nat → Bool) (i : Nat) (st : InitState) (seg : SegmentSpace) : Prop where
  newspace : st.newspace = some seg
  scanned : Scanned g mask (if st.inUse then i else st.releaseBegin) st.front seg st.totalFree
  unused : st.inUse = false → st.releaseBegin ≤ i ∧ ∀ j, st.releaseBegin ≤ j → j < i → mask j = false

def LoopInv (g : Geometry) (mask : Nat → Bool) (i : Nat) (st : InitState) : Prop :=
  (i = 0 ∧ st = ⟨[], none, 0, 0, false⟩) ∨
    ∃ seg, InitInv g mask i st seg ∧ st.front.length * g.segmentPages < i ∧
      i ≤ (st.front.length + 1) * g.segmentPages ∧ st.inUse = mask (i - 1)

variable {seg : SegmentSpace} {st : InitState} {i : Nat}

theorem InitState.release_spec (hs : st.newspace = some seg)
    (hsc : Scanned g mask st.releaseBegin st.front seg st.totalFree) (hle : st.releaseBegin ≤ i)
    (hi : i ≤ (st.front.length + 1) * g.segmentPages) (hmax : i < 2 ^ 32)
    (hf : ∀ j, st.releaseBegin ≤ j → j < i → mask j = false) :
    ∃ seg' tf, st.release mask i = .ok { st with newspace := some seg', totalFree := tf } ∧
      Scanned g mask i st.front seg' tf := by
  obtain ⟨n, rfl⟩ := Nat.exists_eq_add_of_le hle
  obtain ⟨rel, hr⟩ := Nat.exists_eq_add_of_le hsc.lower
  have hsize := hsc.size
  have hu := hsc.upper
  rw [succ_mul] at hi hu
  obtain ⟨seg', hc, hinv, hstart', hsize'⟩ := SegmentSpace.releasePages_spec hsc.inv (show rel + n ≤ _ by omega) (by
      intro j h1 h2
      simp only [Bool.and_eq_false_iff, decide_eq_false_iff_not]
      left
      omega) false ⟨mask, st.totalFree, 0⟩
  have hcount := freeCount_run hf
  have hle' := countBelow_le (freeFrom mask 0) (st.releaseBegin + n)
  refine ⟨seg', st.totalFree + n, ?_, ?_⟩
  · unfold InitState.release
    rw [hs]
    have hsub : st.releaseBegin + n - st.releaseBegin = n := Nat.add_sub_cancel_left _ _
    have hb : seg.startExtent + rel = st.releaseBegin := by rw [hsc.start, hr]
    have hm : u32 (st.totalFree + n) = st.totalFree + n := by
      rw [hsc.totalFree]
      exact mod_eq_of_lt (by omega)
    rw [hb] at hc
    simp only [hsub, hc, hm, if_true]
  · refine ⟨hsc.complete, by rw [hstart', hsc.start], by rw [hsize', hsc.size], by omega,
      by rw [succ_mul]; omega, hinv.congr ?_, by rw [hsc.totalFree, hcount]⟩
    intro j _
    by_cases hj : rel ≤ j ∧ j < rel + n
    · rw [setRange_mem hj.1 hj.2]
      simp only [Bool.and_eq_true, decide_eq_true_eq, freeFrom]
      refine ⟨by omega, ?_⟩
      rw [hf _ (by omega) (by omega)]
      rfl
    · rw [setRange_not_mem (by omega)]
      congr 1
      rw [decide_eq_decide]
      omega

theorem InitInv.flush (h : InitInv g mask i st seg)
    (hi : i ≤ (st.front.length + 1) * g.segmentPages) (hm : i < 2 ^ 32) :
    ∃ seg' tf, st.closeSegment mask i = .ok { st with newspace := some seg', totalFree := tf } ∧
      Scanned g mask i st.front seg' tf := by
  have hsc := h.scanned
  unfold InitState.closeSegment
  cases hu : st.inUse with
  | true =>
    refine ⟨seg, st.totalFree, ?_, ?_⟩
    · rw [if_neg (by simp), ← h.newspace, ← hu]
    · rwa [hu] at hsc
  | false =>
    rw [hu] at hsc
    obtain ⟨hle, hf⟩ := h.unused hu
    rw [if_pos (by simp [h.newspace])]
    obtain ⟨seg', tf, hc, hsc'⟩ := InitState.release_spec h.newspace hsc hle hi hm hf
    exact ⟨seg', tf, by rw [hc, hu], hsc'⟩

variable {front : List SegmentSpace} {tf i : Nat}

theorem Scanned.skip (h : Scanned g mask i front seg tf)
    (hi : i < (front.length + 1) * g.segmentPages) (hm : mask i) :
    Scanned g mask (i + 1) front seg tf := by
  have hlo := h.lower
  refine ⟨h.complete, h.start, h.size, by omega, hi, h.inv.congr fun j _ => ?_, ?_⟩
  · by_cases hj : front.length * g.segmentPages + j = i
    · simp only [freeFrom, hj, hm, Bool.not_true, Bool.and_false]
    · congr 1
      rw [decide_eq_decide]
      omega
  · rw [h.totalFree]
    unfold countBelow
    rw [count_succ, if_neg (by simp [freeFrom, hm]), Nat.add_zero]

theorem Scanned.next (h : Scanned g mask i front seg tf) (hi : i = (front.length + 1) * g.segmentPages) :
    Scanned g mask i (front ++ [seg]) (.new i g.segmentPages) tf := by
  have hl : (front ++ [seg]).length = front.length + 1 := by simp
  refine ⟨SegmentAt.snoc h.complete ⟨h.start, h.size, h.inv.congr fun j hj => ?_⟩, ?_, g.u16_segmentPages, ?_, ?_, ?_,
    h.totalFree⟩
  · rw [h.size] at hj
    rw [succ_mul] at hi
    simp only [freeFrom, show front.length * g.segmentPages + j < i by omega, decide_true, Bool.true_and]
  · rw [hl]
    exact hi
  · rw [hl, hi]
  · rw [hl, hi]
    exact Nat.mul_le_mul_right _ (by omega)
  · refine (SegmentInv.new i g.segmentPages).congr fun j _ => ?_
    rw [hl, ← hi]
    simp

theorem initSegment_spec (h : LoopInv g mask i st) (hm : i < 2 ^ 32) :
    ∃ st' seg, initSegment g mask st i = .ok st' ∧ InitInv g mask i st' seg ∧
      st'.front.length * g.segmentPages ≤ i ∧ i < (st'.front.length + 1) * g.segmentPages := by
  have hp := g.segmentPages_pos
  have hb : i &&& (1 <<< g.segmentPagesSquareRoot - 1) = i % g.segmentPages := by
    rw [one_shiftLeft, and_two_pow_sub_one_eq_mod]
    rfl
  unfold initSegment
  rw [hb]
  rcases h with ⟨rfl, rfl⟩ | ⟨seg, hi, hlo, hhi, -⟩
  · rw [zero_mod, if_pos rfl]
    refine ⟨_, _, rfl, ⟨rfl, ?_, fun _ => ⟨le_rfl, fun j h1 h2 => by omega⟩⟩, by simp, by simpa using hp⟩
    refine ⟨by simp, by simp [SegmentSpace.new], g.u16_segmentPages, by simp, by simp, ?_, by simp [countBelow]⟩
    exact (SegmentInv.new 0 g.segmentPages).congr fun j _ => by simp
  · by_cases hmod : i % g.segmentPages = 0
    · -- `i` is a multiple of the segment size, so it is the end of the current segment
      have he : i = (st.front.length + 1) * g.segmentPages := by
        obtain ⟨q, rfl⟩ := exists_eq_mul_left_of_dvd (dvd_of_mod_eq_zero hmod)
        have h1 := Nat.lt_of_mul_lt_mul_right hlo
        have h2 := Nat.le_of_mul_le_mul_right hhi hp
        rw [Nat.le_antisymm h2 h1]
      rw [if_pos hmod]
      obtain ⟨seg', tf, hf, hsc⟩ := hi.flush hhi hm
      rw [hf]
      have hn := hsc.next he
      refine ⟨_, _, rfl, ⟨rfl, hn, fun _ => ⟨le_rfl, fun j h1 h2 => absurd h2 h1.not_gt⟩⟩, hn.lower, ?_⟩
      simp only [Option.toList_some, length_append, length_singleton]
      rw [succ_mul]
      omega
    · rw [if_neg hmod]
      refine ⟨st, seg, rfl, hi, hlo.le, ?_⟩
      refine Nat.lt_of_le_of_ne hhi fun heq => hmod ?_
      rw [heq]
      exact mul_mod_left _ _

theorem initBit_spec (h : InitInv g mask i st seg)
    (hlo : st.front.length * g.segmentPages ≤ i) (hhi : i < (st.front.length + 1) * g.segmentPages)
    (hmax : i < 2 ^ 32) :
    ∃ st', initBit mask st i = .ok st' ∧ LoopInv g mask (i + 1) st' := by
  have hsc := h.scanned
  have hun := h.unused
  have hn := h.newspace
  unfold initBit
  cases hm : mask i with
  | true =>
    cases hu : st.inUse with
    | true =>
      refine ⟨st, by simp, Or.inr ⟨seg, ⟨hn, ?_, by simp [hu]⟩, by omega, hhi, by simp [hu, hm]⟩⟩
      rw [hu] at hsc ⊢
      exact hsc.skip hhi hm
    | false =>
      rw [hu] at hsc
      obtain ⟨hle, hf⟩ := hun hu
      obtain ⟨seg', tf, hc, hsc'⟩ := InitState.release_spec hn hsc hle hhi.le hmax hf
      rw [if_pos ⟨rfl, rfl⟩, hc]
      refine ⟨_, rfl, Or.inr ⟨seg', ⟨rfl, ?_, by simp⟩, by simpa using by omega, hhi, by simp [hm]⟩⟩
      exact hsc'.skip hhi hm
  | false =>
    cases hu : st.inUse with
    | true =>
      rw [hu] at hsc
      refine ⟨{ st with inUse := false, releaseBegin := i }, by simp,
        Or.inr ⟨seg, ⟨hn, hsc, ?_⟩, by simpa using by omega, hhi, by simp [hm]⟩⟩
      intro _
      refine ⟨le_succ i, fun j h1 h2 => ?_⟩
      obtain rfl : j = i := Nat.le_antisymm (le_of_lt_succ h2) h1
      exact hm
    | false =>
      obtain ⟨hle, hf⟩ := hun hu
      refine ⟨st, by simp, Or.inr ⟨seg, ⟨hn, ?_, ?_⟩, by omega, hhi, by simp [hu, hm]⟩⟩
      · rw [hu] at hsc ⊢
        exact hsc
      · intro _
        refine ⟨by omega, fun j h1 h2 => ?_⟩
        rcases Nat.lt_succ_iff_lt_or_eq.1 h2 with hj | rfl
        · exact hf j h1 hj
        · exact hm

theorem initLoop_spec (g : Geometry) (mask : Nat → Bool) {n : Nat} (hn : n ≤ 2 ^ 32) :
    ∃ st, (range n).foldlM (initPage g mask) ⟨[], none, 0, 0, false⟩ = .ok st ∧ LoopInv g mask n st := by
  induction n with
  | zero => exact ⟨_, rfl, Or.inl ⟨rfl, rfl⟩⟩
  | succ n ih =>
    obtain ⟨st, hl, hi⟩ := ih (by omega)
    obtain ⟨st1, seg, hs1, hi1, hlo, hhi⟩ := initSegment_spec hi (by omega)
    obtain ⟨st2, hs2, hi2⟩ := initBit_spec hi1 hlo hhi (by omega)
    refine ⟨st2, ?_, hi2⟩
    rw [range_succ, foldlM_append, hl]
    show foldlM (initPage g mask) st [n] = _
    rw [foldlM_cons, initPage, hs1]
    show (do let s ← initBit mask st1 n; foldlM (initPage g mask) s []) = _
    rw [hs2]
    rfl

theorem SMEMgr.init_spec (g : Geometry) (mask : Nat → Bool) {segNum : Nat}
    (hm : segNum * g.segmentPages ≤ DMS_MAX_PG) :
    ∃ mgr, init g mask (segNum * g.segmentPages) = .ok mgr ∧ MgrInv g mgr ∧
      mgr.segments.length = segNum ∧ mgr.shared.smeMask = mask ∧ mgr.shared.freePos = 0 := by
  have hp := g.segmentPages_pos
  have hmax' : segNum * g.segmentPages < 2 ^ 32 := by
    unfold DMS_MAX_PG at hm
    omega
  obtain ⟨st, hl, hi⟩ := initLoop_spec g mask hmax'.le
  unfold init
  rw [hl]
  rcases hi with ⟨hz, rfl⟩ | ⟨seg, hi, hlo, hhi, hlast⟩
  · obtain rfl : segNum = 0 := by
      rcases Nat.mul_eq_zero.1 hz with h | h
      · exact h
      · omega
    refine ⟨⟨[], mask, 0, 0⟩, ?_, ⟨by simp, by simp [countBelow], by simp⟩, rfl, rfl, rfl⟩
    simp [InitState.closeLast]
    rfl
  · -- whether or not a run is open, behind the loop all pages have been handed over
    obtain ⟨seg', tf, hc, hsc⟩ : ∃ seg' tf, st.closeLast mask (segNum * g.segmentPages) =
        .ok { st with newspace := some seg', totalFree := tf } ∧
        Scanned g mask (segNum * g.segmentPages) st.front seg' tf := by
      obtain ⟨seg', tf, hf, hsc⟩ := hi.flush hhi hmax'
      refine ⟨seg', tf, ?_, hsc⟩
      rw [← hf, InitState.closeLast, InitState.closeSegment, hi.newspace, hlast]
      simp only [Option.isSome_some, true_and, show segNum * g.segmentPages > 0 by omega]
    have he : segNum = st.front.length + 1 := by
      have h1 := Nat.lt_of_mul_lt_mul_right hlo
      have h2 := Nat.le_of_mul_le_mul_right hhi hp
      omega
    have hn := hsc.next (by rw [he])
    refine ⟨⟨st.front ++ [seg'], mask, tf, 0⟩, ?_, ⟨hn.complete, ?_, ?_⟩, by simp [he], rfl, rfl⟩
    · show (do
        let st ← st.closeLast mask (segNum * g.segmentPages)
        Except.ok (⟨st.front ++ st.newspace.toList, ⟨mask, st.totalFree, 0⟩⟩ : SMEMgr)) = _
      rw [hc]
      rfl
    · rw [length_append, length_singleton, ← he]
      exact hn.totalFree
    · rwa [length_append, length_singleton, ← he]

end Init

/-! ### One step of the manager -/

section MgrSteps

variable {g : Geometry} {mgr : SMEMgr}

theorem freeFrom_setRange (mask : Nat → Bool) (start rel n : Nat) (b : Bool) (i : Nat) :
    freeFrom (setRange mask (start + rel) n b) start i = setRange (freeFrom mask start) rel n (!b) i := by
  unfold freeFrom
  by_cases hi : rel ≤ i ∧ i < rel + n
  · rw [setRange_mem (by omega) (by omega), setRange_mem hi.1 hi.2]
  · rw [setRange_not_mem (by omega), setRange_not_mem (by omega)]

private theorem freeCount_setRange (mask : Nat → Bool) (s n len : Nat) (b : Bool) :
    countBelow (freeFrom (setRange mask s n b) 0) len = countBelow (setRange (freeFrom mask 0) s n (!b)) len := by
  refine countBelow_congr fun i _ => ?_
  have h := freeFrom_setRange mask 0 s n b i
  rwa [Nat.zero_add] at h

variable {mask : Nat → Bool} {s k n : Nat}

theorem freeCount_reserve (hle : s + k ≤ n) (hf : ∀ i, s ≤ i → i < s + k → mask i = false) :
    countBelow (freeFrom (setRange mask s k true) 0) n + k = countBelow (freeFrom mask 0) n := by
  rw [freeCount_setRange]
  refine countBelow_setRange_false hle fun i h1 h2 => ?_
  rw [freeFrom, Nat.zero_add, hf i h1 h2]
  rfl

theorem freeCount_release (hle : s + k ≤ n) (ha : ∀ i, s ≤ i → i < s + k → mask i) :
    countBelow (freeFrom (setRange mask s k false) 0) n = countBelow (freeFrom mask 0) n + k := by
  rw [freeCount_setRange]
  refine countBelow_setRange_true hle fun i h1 h2 => ?_
  rw [freeFrom, Nat.zero_add, ha i h1 h2]
  rfl

theorem MgrInv.update (h : MgrInv g mgr) {k rel n tf fp : Nat} {seg seg' : SegmentSpace} {b : Bool}
    (hk : mgr.segments[k]? = some seg) (hle : rel + n ≤ g.segmentPages)
    (hs : seg'.startExtent = seg.startExtent) (hsize : seg'.totalSize = seg.totalSize)
    (hi : SegmentInv (setRange (freeFrom mgr.shared.smeMask (k * g.segmentPages)) rel n (!b)) seg')
    (htf : tf = countBelow (freeFrom (setRange mgr.shared.smeMask (k * g.segmentPages + rel) n b) 0)
      (mgr.segments.length * g.segmentPages)) :
    MgrInv g ⟨mgr.segments.set k seg', ⟨setRange mgr.shared.smeMask (k * g.segmentPages + rel) n b, tf, fp⟩⟩ := by
  have hseg := h.segments k seg hk
  refine ⟨?_, ?_, ?_⟩
  · intro j s hj
    by_cases hjk : k = j
    · subst hjk
      obtain ⟨hlt, -⟩ := List.getElem?_eq_some_iff.1 hk
      obtain rfl : seg' = s := by simpa [List.getElem?_set_self hlt] using hj
      exact ⟨by rw [hs, hseg.start], by rw [hsize, hseg.size], hi.congr fun i _ => freeFrom_setRange _ _ _ _ _ _⟩
    · rw [List.getElem?_set_ne hjk] at hj
      refine (h.segments j s hj).congr fun i h1 h2 => setRange_not_mem ?_
      exact g.apart hjk h1 h2 (Nat.le_add_right ..) (by rw [succ_mul]; omega)
  · rw [length_set]
    exact htf
  · rw [length_set]
    exact h.pageNum

theorem MgrInv.freeCount_lt (h : MgrInv g mgr) (mask : Nat → Bool) :
    countBelow (freeFrom mask 0) (mgr.segments.length * g.segmentPages) < 2 ^ 32 :=
  ((countBelow_le _ _).trans h.pageNum).trans_lt (by decide)

theorem MgrInv.freePos (h : MgrInv g mgr) (fp : Nat) :
    MgrInv g { mgr with shared := { mgr.shared with freePos := fp } } :=
  ⟨h.segments, h.totalFree, h.pageNum⟩

variable {seg : SegmentSpace} {num start : Nat}

theorem segment_end_le {k : Nat} (hk : mgr.segments[k]? = some seg) :
    k * g.segmentPages + g.segmentPages ≤ mgr.segments.length * g.segmentPages := by
  obtain ⟨hlt, -⟩ := List.getElem?_eq_some_iff.1 hk
  have := Nat.mul_le_mul_right g.segmentPages (succ_le_of_lt hlt)
  rwa [succ_mul] at this

theorem SMEMgr.reserveAt_spec (h : MgrInv g mgr) {pos : Nat} (hn : 0 < num) (hseg : mgr.segments[pos]? = some seg) :
    ∃ rc mgr' foundPage, mgr.reserveAt num pos = (rc, mgr', foundPage) ∧ MgrInv g mgr' ∧
      mgr'.segments.length = mgr.segments.length ∧
      (mgr'.shared.freePos = mgr.shared.freePos ∨
        (mgr.shared.freePos = pos ∧ Full g mgr.shared.smeMask pos) ∧ mgr'.shared.freePos = pos + 1) ∧
      ((rc = .dmsNoSpc ∧ mgr'.shared.smeMask = mgr.shared.smeMask ∧ NoRun g mgr.shared.smeMask num pos) ∨
        rc = .ok ∧ mgr'.shared.smeMask = setRange mgr.shared.smeMask foundPage num true ∧
          pos * g.segmentPages ≤ foundPage ∧ foundPage + num ≤ (pos + 1) * g.segmentPages ∧
          ∀ i, foundPage ≤ i → i < foundPage + num → mgr.shared.smeMask i = false) := by
  have hat := h.segments pos seg hseg
  have hend := segment_end_le (g := g) hseg
  obtain ⟨fp, hfp, hs⟩ := SegmentSpace.reservePages_spec hat.inv hn pos mgr.shared
  rw [hat.size] at hfp hs
  have hp : fp = mgr.shared.freePos ∨ (mgr.shared.freePos = pos ∧ Full g mgr.shared.smeMask pos) ∧ fp = pos + 1 := by
    refine hfp.imp_right fun ⟨⟨heq, hfull⟩, hnext⟩ => ⟨⟨heq, fun i h1 h2 => ?_⟩, ?_⟩
    · rw [succ_mul] at h2
      have := hfull (i - pos * g.segmentPages) (by omega)
      rwa [freeFrom, Bool.not_eq_false', add_sub_of_le h1] at this
    · have := Nat.le_mul_of_pos_right pos g.segmentPages_pos
      have hm := h.pageNum
      unfold DMS_MAX_PG at hm
      exact hnext.trans (mod_eq_of_lt (by omega))
  unfold reserveAt
  rw [hseg]
  rcases hs with ⟨hc, hno⟩ | ⟨rel, seg', hc, hle, hin, hinv, hstart, hsize⟩
  · obtain ⟨hlt, rfl⟩ := List.getElem?_eq_some_iff.1 hseg
    refine ⟨.dmsNoSpc, { mgr with shared := { mgr.shared with freePos := fp } }, 0, ?_, h.freePos fp, rfl, hp,
      .inl ⟨rfl, rfl, fun rel hr => ?_⟩⟩
    · simp only [hc, set_getElem_self]
    · obtain ⟨i, h1, h2, hi⟩ := hno rel hr
      rw [freeFrom, Bool.not_eq_false'] at hi
      exact ⟨_, by omega, by omega, hi⟩
  · rw [hat.start, Nat.add_comm rel] at hc
    have hf : ∀ i, pos * g.segmentPages + rel ≤ i → i < pos * g.segmentPages + rel + num →
        mgr.shared.smeMask i = false := by
      intro i h1 h2
      have := hin (i - pos * g.segmentPages) (by omega) (by omega)
      rw [freeFrom, Bool.not_eq_true', add_sub_of_le (by omega)] at this
      exact this
    have hcount := freeCount_reserve (n := mgr.segments.length * g.segmentPages) (by omega) hf
    have hlt := h.freeCount_lt mgr.shared.smeMask
    refine ⟨_, _, _, by simp only [hc]; rfl, ?_, by simp, hp, .inr ⟨rfl, rfl, by omega, by rw [succ_mul]; omega, hf⟩⟩
    refine h.update hseg hle hstart (hsize.trans hat.size.symm) hinv ?_
    rw [h.totalFree, u32]
    omega

theorem SMEMgr.releasePages_spec (h : MgrInv g mgr) {k : Nat} (hk : k < mgr.segments.length)
    (hlo : k * g.segmentPages ≤ start) (hhi : start + num ≤ (k + 1) * g.segmentPages) (hnum : 0 < num)
    (ha : ∀ i, start ≤ i → i < start + num → mgr.shared.smeMask i) :
    ∃ mgr', mgr.releasePages g start num = (.ok, mgr') ∧ MgrInv g mgr' ∧
      mgr'.segments.length = mgr.segments.length ∧
      mgr'.shared.smeMask = setRange mgr.shared.smeMask start num false ∧
      mgr'.shared.freePos = mgr.shared.freePos := by
  have hid := g.segmentID_eq hlo (Nat.lt_of_lt_of_le (by omega) hhi)
  obtain ⟨rel, rfl⟩ := Nat.exists_eq_add_of_le hlo
  rw [succ_mul] at hhi
  have hs : mgr.segments[k]? = some mgr.segments[k] := List.getElem?_eq_getElem hk
  have hat := h.segments k _ hs
  obtain ⟨seg', hc, hi, hstart, hsize⟩ := SegmentSpace.releasePages_spec hat.inv
    (show rel + num ≤ _ by rw [hat.size]; omega) (by
      intro i h1 h2
      rw [freeFrom, ha _ (by omega) (by omega)]
      rfl) true mgr.shared
  rw [hat.start] at hc
  have hend := segment_end_le (g := g) hs
  have hcount := freeCount_release (n := mgr.segments.length * g.segmentPages) (by omega) ha
  unfold releasePages
  simp only [hid, hs, hc, if_true]
  refine ⟨_, rfl, ?_, by simp, rfl, rfl⟩
  refine h.update hs (by omega) hstart hsize hi ?_
  rw [h.totalFree, ← hcount]
  exact mod_eq_of_lt (h.freeCount_lt _)

theorem SMEMgr.depositASegment_spec (h : MgrInv g mgr) (hm : start % g.segmentPages = 0)
    (hmax : start + g.segmentPages ≤ DMS_MAX_PG)
    (hf : ∀ i, start ≤ i → i < start + g.segmentPages → mgr.shared.smeMask i = false) :
    ∃ mgr', (mgr.depositASegment g start).2 = mgr' ∧ MgrInv g mgr' ∧
      mgr.segments.length ≤ mgr'.segments.length ∧ mgr'.shared.smeMask = mgr.shared.smeMask ∧
      mgr'.shared.freePos = mgr.shared.freePos := by
  refine ⟨_, rfl, ?_⟩
  unfold depositASegment
  by_cases hid : start >>> g.segmentPagesSquareRoot ≠ mgr.segments.length
  · rw [if_pos hid]
    exact ⟨h, le_rfl, rfl, rfl⟩
  · rw [shiftRight_eq_div_pow, ne_eq, not_not] at hid
    have hs : start = mgr.segments.length * g.segmentPages := by
      rw [← hid]
      exact (Nat.div_mul_cancel (dvd_of_mod_eq_zero hm)).symm
    have hp := g.u16_segmentPages
    obtain ⟨seg', hc, hinv, hstart', hsize'⟩ :=
      SegmentSpace.releasePages_spec (SegmentInv.new start g.segmentPages)
        (show 0 + g.segmentPages ≤ _ by simp [SegmentSpace.new, hp]) (fun _ _ _ => rfl) false mgr.shared
    have hcall' : (SegmentSpace.new start g.segmentPages).releasePages start g.segmentPages false mgr.shared =
        (.ok, seg', mgr.shared) := hc
    simp only [hp, hcall', if_true, shiftRight_eq_div_pow, hid, ne_eq, not_true_eq_false, if_false]
    have hcount : countBelow (freeFrom mgr.shared.smeMask 0) ((mgr.segments.length + 1) * g.segmentPages) =
        mgr.shared.totalFree + g.segmentPages := by
      rw [succ_mul, freeCount_run (hs ▸ hf), ← h.totalFree]
    have hcle := countBelow_le (freeFrom mgr.shared.smeMask 0) ((mgr.segments.length + 1) * g.segmentPages)
    have hpn : (mgr.segments.length + 1) * g.segmentPages ≤ DMS_MAX_PG := by
      rw [succ_mul]
      omega
    have hat : SegmentAt g mgr.shared.smeMask mgr.segments.length seg' := by
      refine ⟨by rw [hstart', ← hs]; rfl, by rw [hsize']; exact hp, hinv.congr fun i hi => ?_⟩
      rw [hsize'] at hi
      change i < u16 g.segmentPages at hi
      rw [freeFrom, hf _ (by omega) (by omega), setRange_mem (by omega) (by omega)]
      rfl
    refine ⟨⟨SegmentAt.snoc h.segments hat, ?_, ?_⟩, by simp, trivial, trivial⟩
    · rw [length_append, length_singleton, hcount, u32]
      unfold DMS_MAX_PG at hpn
      exact mod_eq_of_lt (by omega)
    · rw [length_append, length_singleton]
      exact hpn

end MgrSteps

/-! ### Runs of the system -/

def InSegment (g : Geometry) (segNum : Nat) (r : Nat × Nat) : Prop :=
  0 < r.2 ∧ ∃ k, k < segNum ∧ k * g.segmentPages ≤ r.1 ∧ r.1 + r.2 ≤ (k + 1) * g.segmentPages

def Disjoint (r r' : Nat × Nat) : Prop :=
  r.1 + r.2 ≤ r'.1 ∨ r'.1 + r'.2 ≤ r.1

/-- The reserved ranges: each lies in one segment, its pages are allocated, and no page is in two of them. -/
structure HeldInv (g : Geometry) (mask : Nat → Bool) (segNum : Nat) (held : List (Nat × Nat)) : Prop where
  inSegment : ∀ r ∈ held, InSegment g segNum r
  allocated : ∀ r ∈ held, ∀ i, r.1 ≤ i → i < r.1 + r.2 → mask i = true
  disjoint : held.Pairwise Disjoint

/-- What the bitmap prescribes for lists, largest nodes and counters, and what it says about the reserved
ranges. -/
structure SMEExact (g : Geometry) (s : SMESystem) : Prop where
  sorted : ∀ seg ∈ s.mgr.segments, (seg.freeSpaceList.map unpack).Pairwise fun r r' => r.1 + r.2 < r'.1
  freeSpaceList : ∀ k seg, s.mgr.segments[k]? = some seg → ∀ r, r ∈ seg.freeSpaceList.map unpack ↔
    MaximalRun (freeFrom s.mgr.shared.smeMask (k * g.segmentPages)) g.segmentPages r
  maxNode_ge : ∀ k seg, s.mgr.segments[k]? = some seg → ∀ r,
    MaximalRun (freeFrom s.mgr.shared.smeMask (k * g.segmentPages)) g.segmentPages r → r.2 ≤ seg.maxNode
  maxNode_run : ∀ k seg, s.mgr.segments[k]? = some seg → 0 < seg.maxNode → ∃ r,
    MaximalRun (freeFrom s.mgr.shared.smeMask (k * g.segmentPages)) g.segmentPages r ∧ r.2 = seg.maxNode
  segmentFree : ∀ k seg, s.mgr.segments[k]? = some seg →
    seg.totalFree = countBelow (freeFrom s.mgr.shared.smeMask (k * g.segmentPages)) g.segmentPages
  totalFree : s.mgr.shared.totalFree =
    countBelow (freeFrom s.mgr.shared.smeMask 0) (s.mgr.segments.length * g.segmentPages)
  held : HeldInv g s.mgr.shared.smeMask s.mgr.segments.length s.held

structure SMEInv (g : Geometry) (s : SMESystem) : Prop where
  mgr : MgrInv g s.mgr
  held : HeldInv g s.mgr.shared.smeMask s.mgr.segments.length s.held
  reserving : ∀ numPages pos size, .reserving numPages pos size ∈ s.callers → 0 < numPages

variable {s : SMESystem} {c : Nat} {a : SMEAction}

theorem SMEInv.exact (h : SMEInv g s) : SMEExact g s := by
  have hiff : ∀ k seg, s.mgr.segments[k]? = some seg → ∀ r, r ∈ seg.freeSpaceList.map unpack ↔
      MaximalRun (freeFrom s.mgr.shared.smeMask (k * g.segmentPages)) g.segmentPages r := by
    intro k seg hk r
    have hat := h.mgr.segments k seg hk
    have hm := hat.inv.runs.mem_iff (r := r) (by intro i hi; omega)
    rwa [hat.size, and_iff_right (Nat.zero_le _)] at hm
  refine ⟨?_, hiff, ?_, ?_, ?_, h.mgr.totalFree, h.held⟩
  · intro seg hs
    obtain ⟨k, hk⟩ := List.getElem?_of_mem hs
    exact (h.mgr.segments k seg hk).inv.runs.pairwise
  · intro k seg hk r hr
    rw [(h.mgr.segments k seg hk).inv.maxNode]
    exact size_le_maxSize ((hiff k seg hk r).2 hr)
  · intro k seg hk hp
    rw [(h.mgr.segments k seg hk).inv.maxNode] at hp ⊢
    obtain ⟨r, hm, heq⟩ := exists_size_eq_maxSize hp
    exact ⟨r, (hiff k seg hk r).1 hm, heq⟩
  · intro k seg hk
    have hat := h.mgr.segments k seg hk
    rw [hat.inv.totalFree, hat.size]

section Held

variable {g : Geometry} {mask : Nat → Bool} {segNum : Nat} {held : List (Nat × Nat)} {r : Nat × Nat}

theorem HeldInv.reserve (h : HeldInv g mask segNum held) (hr : InSegment g segNum r)
    (hf : ∀ i, r.1 ≤ i → i < r.1 + r.2 → mask i = false) :
    HeldInv g (setRange mask r.1 r.2 true) segNum (r :: held) := by
  refine ⟨forall_mem_cons.2 ⟨hr, h.inSegment⟩, forall_mem_cons.2 ⟨fun i => setRange_mem, fun q hq i h1 h2 => ?_⟩,
    List.Pairwise.cons ?_ h.disjoint⟩
  · unfold setRange
    split
    · rfl
    · exact h.allocated q hq i h1 h2
  · intro q hq
    -- a common page would be free and allocated
    by_contra hover
    unfold Disjoint at hover
    have hqpos := (h.inSegment q hq).1
    have hrpos := hr.1
    have h1 := hf (max r.1 q.1) (Nat.le_max_left _ _) (by omega)
    have h2 := h.allocated q hq (max r.1 q.1) (Nat.le_max_right _ _) (by omega)
    rw [h1] at h2
    cases h2

theorem HeldInv.release (h : HeldInv g mask segNum held) (hr : r ∈ held) :
    HeldInv g (setRange mask r.1 r.2 false) segNum (held.erase r) := by
  refine ⟨fun q hq => h.inSegment q (mem_of_mem_erase hq), ?_, h.disjoint.sublist erase_sublist⟩
  intro q hq i h1 h2
  have hd : Disjoint r q := by
    have hp := perm_cons_erase hr
    have hpw : (r :: held.erase r).Pairwise Disjoint :=
      (hp.pairwise_iff fun {a b} (hab : Disjoint a b) => hab.symm).1 h.disjoint
    exact (pairwise_cons.1 hpw).1 q hq
  rw [setRange_not_mem (by unfold Disjoint at hd; omega)]
  exact h.allocated q (mem_of_mem_erase hq) i h1 h2

theorem HeldInv.mono (h : HeldInv g mask segNum held) {segNum' : Nat} (hle : segNum ≤ segNum') :
    HeldInv g mask segNum' held :=
  ⟨fun r hr => ⟨(h.inSegment r hr).1, (h.inSegment r hr).2.imp fun _ hk => ⟨by omega, hk.2⟩⟩, h.allocated, h.disjoint⟩

end Held

theorem SMEInv.step (h : SMEInv g s) (hen : s.Enabled g a) :
    SMEInv g (s.step g a) ∧ ∀ r, (s.stepOut g a).2 = some r → InSegment g s.mgr.segments.length r ∧
      (∀ i, r.1 ≤ i → i < r.1 + r.2 → s.mgr.shared.smeMask i = false) ∧ r ∈ (s.step g a).held := by
  have hs : ∀ {c : Nat} {x : Caller}, (∀ n pos size, x = .reserving n pos size → 0 < n) →
      ∀ n pos size, .reserving n pos size ∈ s.callers.set c x → 0 < n := by
    intro c x hx n pos size hmem
    rcases mem_or_eq_of_mem_set hmem with hmem | heq
    · exact h.reserving n pos size hmem
    · exact hx n pos size heq.symm
  unfold SMESystem.step
  cases a with
  | reserve c num =>
    refine ⟨⟨h.mgr, h.held, hs ?_⟩, by simp [stepOut]⟩
    rintro n pos size ⟨rfl, -, -⟩
    exact hen.2.1
  | reserveNext c =>
    obtain ⟨num, pos, size, hc⟩ := hen
    have hn := h.reserving _ _ _ (mem_of_getElem? hc)
    simp only [stepOut, hc]
    by_cases hp : pos < size
    · rw [if_pos hp]
      cases hseg : s.mgr.segments[pos]? with
      | none =>
        simp only [reserveAt, hseg]
        exact ⟨⟨h.mgr, h.held, hs (by simp)⟩, by simp⟩
      | some seg =>
        obtain ⟨rc, mgr', page, hcall, hi, hl, -, ⟨rfl, hm, -⟩ | ⟨rfl, hm, hlo, hhi, hf⟩⟩ :=
          reserveAt_spec h.mgr hn hseg
        · simp only [hcall]
          refine ⟨⟨hi, ?_, hs ?_⟩, by simp⟩
          · rw [hl, hm]
            exact h.held
          · rintro n p sz ⟨rfl, -, -⟩
            exact hn
        · simp only [hcall]
          have hlt := (List.getElem?_eq_some_iff.1 hseg).1
          have hr : InSegment g s.mgr.segments.length (page, num) := ⟨hn, pos, hlt, hlo, hhi⟩
          refine ⟨⟨hi, ?_, hs (by simp)⟩, ?_⟩
          · rw [hl, hm]
            exact h.held.reserve hr hf
          · rintro r ⟨rfl⟩
            exact ⟨hr, hf, mem_cons_self ..⟩
    · rw [if_neg hp]
      exact ⟨⟨h.mgr, h.held, hs (by simp)⟩, by simp⟩
  | release c range =>
    obtain ⟨-, hmem⟩ := hen
    obtain ⟨hn, k, hk, hlo, hhi⟩ := h.held.inSegment range hmem
    obtain ⟨mgr', hcall, hi, hl, hm, -⟩ :=
      releasePages_spec h.mgr hk hlo hhi hn (h.held.allocated range hmem)
    simp only [stepOut, hcall, if_true]
    refine ⟨⟨hi, ?_, hs (by simp)⟩, by simp⟩
    rw [hl, hm]
    exact h.held.release hmem
  | releaseEnd c =>
    obtain ⟨segmentID, hc⟩ := hen
    simp only [stepOut, hc]
    exact ⟨⟨h.mgr.freePos _, h.held, hs (by simp)⟩, by simp⟩
  | deposit start =>
    obtain ⟨-, hmod, hmax, hf⟩ := hen
    obtain ⟨mgr', hcall, hi, hl, hm, -⟩ := depositASegment_spec h.mgr hmod hmax hf
    simp only [stepOut, hcall]
    refine ⟨⟨hi, ?_, h.reserving⟩, by simp⟩
    rw [hm]
    exact h.held.mono hl

theorem SMEInv.init {segNum : Nat} {held : List (Nat × Nat)} (callerNum : Nat)
    (hm : segNum * g.segmentPages ≤ DMS_MAX_PG) (hh : HeldInv g mask segNum held) :
    ∃ mgr, init g mask (segNum * g.segmentPages) = .ok mgr ∧
      SMEInv g ⟨mgr, replicate callerNum .idle, held⟩ ∧ mgr.shared.freePos = 0 := by
  obtain ⟨mgr, hi, hinv, hl, hmask, hp⟩ := init_spec g mask hm
  refine ⟨mgr, hi, ⟨hinv, ?_, ?_⟩, hp⟩
  · rw [hl, hmask]
    exact hh
  · intro n pos size hmem
    cases (mem_replicate.1 hmem).2

/-- After `init` on any bitmap, every interleaving of reservations, releases and deposits keeps lists, largest
nodes and counters exact, hands out only free ranges inside one segment, and never lets two reservations share
a page. -/
theorem smeMgr_exact (g : Geometry) (mask : Nat → Bool) (segNum callerNum : Nat) (held : List (Nat × Nat))
    (hmax : segNum * g.segmentPages ≤ DMS_MAX_PG) (hheld : HeldInv g mask segNum held) :
    ∃ mgr, init g mask (segNum * g.segmentPages) = .ok mgr ∧
      ∀ as, Meets (Enabled g) (SMESystem.step g) ⟨mgr, List.replicate callerNum .idle, held⟩ as →
        let s := run (SMESystem.step g) ⟨mgr, replicate callerNum .idle, held⟩ as
        SMEExact g s ∧ ∀ a, s.Enabled g a → ∀ r, (s.stepOut g a).2 = some r →
          InSegment g s.mgr.segments.length r ∧
          (∀ i, r.1 ≤ i → i < r.1 + r.2 → s.mgr.shared.smeMask i = false) ∧ r ∈ (s.step g a).held := by
  obtain ⟨mgr, hinit, hstart, -⟩ := SMEInv.init callerNum hmax hheld
  refine ⟨mgr, hinit, fun as has => ?_⟩
  have hrun := run_invariant (I := SMEInv g) (fun _ _ hs ha => (SMEInv.step hs ha).1) hstart has
  exact ⟨hrun.exact, fun a ha => (SMEInv.step hrun ha).2⟩

theorem heldInv_two_segments : HeldInv ⟨2, by decide⟩ (fun i => i == 1) 2 [(1, 1)] := by
  refine ⟨?_, ?_, pairwise_singleton _ _⟩
  · intro r hr
    obtain rfl := mem_singleton.1 hr
    exact ⟨by decide, 0, by decide, by decide, by decide⟩
  · intro r hr i h1 h2
    obtain rfl := mem_singleton.1 hr
    obtain rfl : i = 1 := by simp only at h1 h2; omega
    rfl

/-- Two segments of four pages, page `1` allocated and held from the start, two callers. -/
def twoSegments : SMESystem :=
  ⟨(SMEMgr.init ⟨2, by decide⟩ (fun i => i == 1) 8).toOption.getD ⟨[], ⟨fun _ => false, 0, 0⟩⟩, replicate 2 .idle, [(1, 1)]⟩

theorem init_twoSegments : SMEMgr.init ⟨2, by decide⟩ (fun i => i == 1) 8 = .ok twoSegments.mgr := rfl

/-- One caller gets two pages of the first segment, then the other one finds the second segment. -/
theorem smeMgr_exact_two_segments :
    let s := run (SMESystem.step ⟨2, by decide⟩) twoSegments [.reserve 0 2, .reserve 1 4, .reserveNext 0, .reserveNext 1]
    s.held = [(2, 2), (1, 1)] ∧ SMEExact ⟨2, by decide⟩ s ∧ (s.stepOut ⟨2, by decide⟩ (.reserveNext 1)).2 = some (4, 4) ∧
      InSegment ⟨2, by decide⟩ s.mgr.segments.length (4, 4) ∧ ∀ i, 4 ≤ i → i < 8 → s.mgr.shared.smeMask i = false := by
  obtain ⟨mgr, hinit, hruns⟩ :=
    smeMgr_exact ⟨2, by decide⟩ (fun i => i == 1) 2 2 [(1, 1)] (by decide) heldInv_two_segments
  obtain rfl : twoSegments.mgr = mgr := Except.ok.inj (init_twoSegments.symm.trans hinit)
  obtain ⟨hexact, hnext⟩ := hruns [.reserve 0 2, .reserve 1 4, .reserveNext 0, .reserveNext 1]
    ⟨⟨rfl, by decide, by decide⟩, ⟨rfl, by decide, by decide⟩, ⟨_, _, _, rfl⟩, ⟨_, _, _, rfl⟩, trivial⟩
  obtain ⟨hin, hfree, -⟩ := hnext (.reserveNext 1) ⟨_, _, _, rfl⟩ (4, 4) rfl
  exact ⟨rfl, hexact, rfl, hin, hfree⟩

/-! ### The shared position -/

/-- Segments in front of the shared position are full, but for those that a caller is about to set it back to. -/
def HintInv (g : Geometry) (s : SMESystem) : Prop :=
  ∀ k < s.mgr.shared.freePos, .releasing k ∈ s.callers ∨ Full g s.mgr.shared.smeMask k

theorem HintInv.set (h : HintInv g s) {k : Nat} {x : Caller} (hc : s.callers[c]? = some x)
    (hk : k < s.mgr.shared.freePos) (hx : .releasing k ≠ x) (y : Caller) :
    .releasing k ∈ s.callers.set c y ∨ Full g s.mgr.shared.smeMask k := by
  refine (h k hk).imp_left fun hm => ?_
  obtain ⟨j, hj⟩ := getElem?_of_mem hm
  have hcj : c ≠ j := by
    rintro rfl
    exact hx (Option.some.inj (hj.symm.trans hc))
  exact mem_of_getElem? ((getElem?_set_ne hcj).trans hj)

theorem HintInv.step (h : HintInv g s) (hinv : SMEInv g s) (hen : s.Enabled g a) : HintInv g (s.step g a) := by
  unfold SMESystem.step
  cases a with
  | reserve c num => exact fun k hk => h.set hen.1 hk nofun _
  | reserveNext c =>
    obtain ⟨num, pos, size, hc⟩ := hen
    simp only [stepOut, hc]
    split
    next =>
      cases hs : s.mgr.segments[pos]? with
      | none =>
        simp only [reserveAt, hs]
        exact fun k hk => h.set hc hk nofun _
      | some seg =>
        obtain ⟨rc, mgr', page, hcall, -, -, hp, hm⟩ :=
          reserveAt_spec hinv.mgr (hinv.reserving _ _ _ (mem_of_getElem? hc)) hs
        have hkeep : ∀ i, s.mgr.shared.smeMask i = true → mgr'.shared.smeMask i = true := by
          intro i hi
          rcases hm with ⟨-, hm, -⟩ | ⟨-, hm, -⟩
          · rwa [hm]
          · rw [hm, setRange]
            split
            · rfl
            · exact hi
        have hn : ∀ x held, HintInv g ⟨mgr', s.callers.set c x, held⟩ := by
          intro x held k hk
          by_cases hlt : k < s.mgr.shared.freePos
          · exact (h.set hc hlt nofun x).imp_right fun hf i h1 h2 => hkeep i (hf i h1 h2)
          · obtain ⟨⟨hat, hf⟩, hnext⟩ := hp.resolve_left fun heq => hlt (heq ▸ hk)
            obtain rfl : k = pos := by dsimp only at hk; omega
            exact .inr fun i h1 h2 => hkeep i (hf i h1 h2)
        simp only [hcall]
        split <;> exact hn _ _
    next => exact fun k hk => h.set hc hk nofun _
  | release c range =>
    obtain ⟨hc, hmem⟩ := hen
    obtain ⟨hnum, k', hk', hlo, hhi⟩ := hinv.held.inSegment range hmem
    obtain ⟨mgr', hcall, -, -, hm, hp⟩ :=
      releasePages_spec hinv.mgr hk' hlo hhi hnum (hinv.held.allocated range hmem)
    simp only [stepOut, hcall, if_true, g.segmentID_eq hlo (Nat.lt_of_lt_of_le (by omega) hhi)]
    intro k hk
    by_cases hkk : k' = k
    · subst hkk
      exact .inl (mem_set (List.getElem?_eq_some_iff.1 hc).1 _)
    · refine (h.set hc (hp ▸ hk) nofun _).imp_right fun hf i h1 h2 => ?_
      dsimp only
      rw [hm, setRange_not_mem (g.apart hkk h1 h2 hlo hhi)]
      exact hf i h1 h2
  | releaseEnd c =>
    obtain ⟨segmentID, hc⟩ := hen
    simp only [stepOut, hc]
    intro k hk
    have hlt : k < s.mgr.shared.freePos ∧ k ≠ segmentID := by
      dsimp only [lowerFreePos] at hk
      split at hk <;> omega
    exact h.set hc hlt.1 (fun heq => hlt.2 (Caller.releasing.inj heq)) _
  | deposit start =>
    obtain ⟨-, hmod, hmax, hfree⟩ := hen
    obtain ⟨mgr', hcall, -, -, hm, hp⟩ := depositASegment_spec hinv.mgr hmod hmax hfree
    simp only [stepOut, hcall]
    intro k hk
    dsimp only at hk ⊢
    rw [hm]
    exact h k (hp ▸ hk)

theorem noRun_of_full {n k : Nat} (hn : 0 < n) (h : Full g mask k) : NoRun g mask n k := by
  intro rel hrel
  refine ⟨k * g.segmentPages + rel, le_rfl, by omega, h _ (by omega) ?_⟩
  rw [succ_mul]
  omega

/-- In `t`, caller `c` has looked for `n` pages in the segments of `s` before its position, and nothing has changed. -/
structure Searched (g : Geometry) (s : SMESystem) (c n : Nat) (t : SMESystem) : Prop where
  inv : SMEInv g t
  known : ∀ n' pos size, t.callers[c]? = some (.reserving n' pos size) → n' = n ∧ size = s.mgr.segments.length ∧
    t.mgr.shared.smeMask = s.mgr.shared.smeMask ∧ ∀ k < pos, NoRun g s.mgr.shared.smeMask n k

theorem Searched.step {n : Nat} {t : SMESystem} (hn : 0 < n) (h : Searched g s c n t) :
    Searched g s c n (t.step g (.reserveNext c)) := by
  cases hc : t.callers[c]? with
  | none => simpa [SMESystem.step, stepOut, hc] using h
  | some x =>
    cases x with
    | idle | releasing => simpa [SMESystem.step, stepOut, hc] using h
    | reserving n' pos size =>
      have hlt := (List.getElem?_eq_some_iff.1 hc).1
      have hen : t.Enabled g (.reserveNext c) := ⟨n', pos, size, hc⟩
      refine ⟨(h.inv.step hen).1, fun n2 pos2 size2 hc2 => ?_⟩
      obtain ⟨rfl, rfl, hm, hr⟩ := h.known _ _ _ hc
      simp only [SMESystem.step, stepOut, hc] at hc2 ⊢
      by_cases hp : pos < s.mgr.segments.length
      · simp only [if_pos hp] at hc2 ⊢
        cases hs : t.mgr.segments[pos]? with
        | none => simp [reserveAt, hs, hlt] at hc2
        | some seg =>
          obtain ⟨rc, mgr', page, hcall, -, -, -, ⟨rfl, hmask', hrun⟩ | ⟨rfl, -⟩⟩ :=
            reserveAt_spec h.inv.mgr hn hs
          · simp only [hcall, List.getElem?_set_self hlt] at hc2 ⊢
            cases hc2
            refine ⟨rfl, rfl, hmask'.trans hm, fun k hk => ?_⟩
            rcases Nat.lt_succ_iff_lt_or_eq.1 hk with hk | rfl
            · exact hr k hk
            · exact hm ▸ hrun
          · simp [hcall, hlt] at hc2
      · simp [if_neg hp, hlt] at hc2

theorem searched_alone {n : Nat} (h : SMEInv g s) (hf : ∀ k < s.mgr.shared.freePos, Full g s.mgr.shared.smeMask k)
    (hen : s.Enabled g (.reserve c n)) (m : Nat) :
    Searched g s c n (run (SMESystem.step g) s (.reserve c n :: replicate m (.reserveNext c))) := by
  have hlt := (List.getElem?_eq_some_iff.1 hen.1).1
  rw [run_cons]
  have hm : Meets (fun _ a => a = .reserveNext c) (SMESystem.step g) (s.step g (.reserve c n))
      (replicate m (.reserveNext c)) := Meets.of_forall fun a ha => (mem_replicate.1 ha).2
  refine run_invariant (fun t a ht ha => ?_) ⟨(h.step hen).1, ?_⟩ hm
  · rw [ha]
    exact ht.step hen.2.1
  · intro n' pos size hc
    simp only [SMESystem.step, stepOut, List.getElem?_set_self hlt] at hc
    cases hc
    exact ⟨rfl, rfl, rfl, fun k hk => noRun_of_full hen.2.1 (hf k hk)⟩

/-- In every interleaving, when no caller is about to set back the shared position, all segments in front of it are
full; so a reservation that runs alone from there finds no place only if no segment has one. -/
theorem freePos_loses_nothing (g : Geometry) (mask : Nat → Bool) (segNum callerNum : Nat) (held : List (Nat × Nat))
    (hmax : segNum * g.segmentPages ≤ DMS_MAX_PG) (hheld : HeldInv g mask segNum held) :
    ∃ mgr, init g mask (segNum * g.segmentPages) = .ok mgr ∧
      ∀ as, Meets (Enabled g) (SMESystem.step g) ⟨mgr, replicate callerNum .idle, held⟩ as →
        let s := run (SMESystem.step g) ⟨mgr, replicate callerNum .idle, held⟩ as
        (∀ k, .releasing k ∉ s.callers) →
          (∀ k < s.mgr.shared.freePos, Full g s.mgr.shared.smeMask k) ∧
          ∀ c n m pos size, s.Enabled g (.reserve c n) →
            (run (SMESystem.step g) s (.reserve c n :: replicate m (.reserveNext c))).callers[c]? =
              some (.reserving n pos size) → size ≤ pos →
            ∀ k < s.mgr.segments.length, NoRun g s.mgr.shared.smeMask n k := by
  obtain ⟨mgr, hinit, hstart, hpos⟩ := SMEInv.init callerNum hmax hheld
  refine ⟨mgr, hinit, fun as has => ?_⟩
  intro s hquiet
  obtain ⟨hinv, hhint⟩ : SMEInv g s ∧ HintInv g s :=
    run_invariant (I := fun s => SMEInv g s ∧ HintInv g s) (fun _ _ hs ha => ⟨(hs.1.step ha).1, hs.2.step hs.1 ha⟩)
      ⟨hstart, by simp [HintInv, hpos]⟩ has
  have hfull : ∀ k < s.mgr.shared.freePos, Full g s.mgr.shared.smeMask k :=
    fun k hk => (hhint k hk).resolve_left (hquiet k)
  refine ⟨hfull, fun c n m pos size hen hc hend k hk => ?_⟩
  obtain ⟨-, rfl, -, hruns⟩ := (searched_alone hinv hfull hen m).known _ _ _ hc
  exact hruns k (hk.trans_le hend)

/-- One caller has got the second segment; then there are no four pages for the other one. -/
theorem freePos_loses_nothing_two_segments :
    let s := run (SMESystem.step ⟨2, by decide⟩) twoSegments [.reserve 1 4, .reserveNext 1, .reserveNext 1]
    (run (SMESystem.step ⟨2, by decide⟩) s [.reserve 0 4, .reserveNext 0, .reserveNext 0]).callers[0]? =
        some (.reserving 4 2 2) ∧
      ∀ k < 2, NoRun ⟨2, by decide⟩ s.mgr.shared.smeMask 4 k := by
  obtain ⟨mgr, hinit, hruns⟩ :=
    freePos_loses_nothing ⟨2, by decide⟩ (fun i => i == 1) 2 2 [(1, 1)] (by decide) heldInv_two_segments
  obtain rfl : twoSegments.mgr = mgr := Except.ok.inj (init_twoSegments.symm.trans hinit)
  obtain ⟨-, hnone⟩ := hruns [.reserve 1 4, .reserveNext 1, .reserveNext 1]
    ⟨⟨rfl, by decide, by decide⟩, ⟨_, _, _, rfl⟩, ⟨_, _, _, rfl⟩, trivial⟩
    fun k (hk : _ ∈ [Caller.idle, .idle]) => by simp at hk
  exact ⟨rfl, hnone 0 4 2 2 2 ⟨rfl, by decide, by decide⟩ rfl le_rfl⟩

end SequoiaDB.Dms

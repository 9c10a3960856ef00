import SequoiaDB.Rc
import SequoiaDB.Lib.FreeRuns

/-!
# The free list of one segment

`_dmsSegmentSpace` keeps the free page ranges of one segment in a list of packed 32-bit nodes (start page in
the high half, number of pages in the low half), together with the size of its largest node and the number of
free pages.  `reservePages` is first fit; `releasePages` inserts a range and merges it with both neighbours.
Both also write the allocation bitmap and the counters of the manager, which are passed as `SMEShared`.

The list is specified by `RunsFrom`: under `SegmentInv` it is the list of maximal runs of the free pages, and
each function changes the free pages by exactly the range it is given or returns.
-/

namespace SequoiaDB.Dms

open SequoiaDB.Lib List Option Nat

def u16 (x : Nat) : Nat := x % 2 ^ 16

def u32 (x : Nat) : Nat := x % 2 ^ 32

/-! ### Packed nodes -/

def nodeGetStart (x : Nat) : Nat := u16 (x >>> 16)

def nodeGetSize (x : Nat) : Nat := u16 (0xFFFF &&& x)

def nodeSetSize (x y : Nat) : Nat := u16 y ||| (0xFFFF0000 &&& x)

def nodeSet (y z : Nat) : Nat := u32 (u32 y <<< 16) ||| (0xFFFF &&& z)

def unpack (x : Nat) : Nat × Nat := (nodeGetStart x, nodeGetSize x)

theorem nodeGetStart_eq (x : Nat) : nodeGetStart x = x / 2 ^ 16 % 2 ^ 16 := by
  rw [nodeGetStart, u16, shiftRight_eq_div_pow]

theorem nodeGetSize_eq (x : Nat) : nodeGetSize x = x % 2 ^ 16 := by
  rw [nodeGetSize, u16, Nat.and_comm, show 0xFFFF = 2 ^ 16 - 1 from rfl, and_two_pow_sub_one_eq_mod, mod_mod]

variable {y z : Nat}

theorem nodeSet_eq (hy : y < 2 ^ 16) (hz : z < 2 ^ 16) : nodeSet y z = y * 2 ^ 16 + z := by
  have hs : u32 (u32 y <<< 16) = y <<< 16 := by
    have h1 : u32 y = y := mod_eq_of_lt (by omega)
    rw [h1, u32, shiftLeft_eq]
    exact mod_eq_of_lt (by omega)
  rw [nodeSet, hs, Nat.and_comm, show 0xFFFF = 2 ^ 16 - 1 from rfl, and_two_pow_sub_one_eq_mod,
    mod_eq_of_lt hz, ← shiftLeft_add_eq_or_of_lt hz, shiftLeft_eq]

theorem unpack_nodeSet (hy : y < 2 ^ 16) (hz : z < 2 ^ 16) : unpack (nodeSet y z) = (y, z) := by
  rw [unpack, nodeGetStart_eq, nodeGetSize_eq, nodeSet_eq hy hz]
  refine Prod.ext ?_ ?_ <;> simp only <;> omega

private theorem and_high (x : Nat) : nodeGetStart (0xFFFF0000 &&& x) = nodeGetStart x ∧
    (0xFFFF0000 &&& x) % 2 ^ 16 = 0 := by
  constructor
  · unfold nodeGetStart u16
    rw [shiftRight_and_distrib, show (0xFFFF0000 : Nat) >>> 16 = 2 ^ 16 - 1 from rfl, Nat.and_comm,
      and_two_pow_sub_one_eq_mod, mod_mod]
  · rw [and_mod_two_pow]
    simp

theorem unpack_nodeSetSize {x y : Nat} (hy : y < 2 ^ 16) : unpack (nodeSetSize x y) = (nodeGetStart x, y) := by
  obtain ⟨hs, hl⟩ := and_high x
  have hy' : u16 y = y := mod_eq_of_lt hy
  have hsplit : nodeSetSize x y = ((0xFFFF0000 &&& x) >>> 16) <<< 16 + y := by
    rw [nodeSetSize, hy', shiftLeft_add_eq_or_of_lt hy, Nat.or_comm, shiftRight_eq_div_pow,
      shiftLeft_eq, Nat.div_mul_cancel (dvd_of_mod_eq_zero hl)]
  rw [nodeGetStart, u16] at hs
  rw [unpack, nodeGetSize_eq, nodeGetStart_eq, hsplit, ← hs, shiftLeft_eq]
  refine Prod.ext ?_ ?_ <;> simp only <;> omega

/-! ### The segment and what it shares with the manager -/

/-- The state of the manager that a segment writes: the bitmap (`true` is `DMS_SME_ALLOCATED`) and the
atomic counters `_totalFree` and `_freePos`. -/
structure SMEShared where
  smeMask : Nat → Bool
  totalFree : Nat
  freePos : Nat

structure SegmentSpace where
  freeSpaceList : List Nat
  maxNode : Nat
  startExtent : Nat
  totalSize : Nat
  totalFree : Nat
  deriving DecidableEq, Repr

def SegmentSpace.new (startExtent maxNode : Nat) : SegmentSpace where
  freeSpaceList := []
  maxNode := 0
  startExtent := startExtent
  totalSize := u16 maxNode
  totalFree := 0

def resetMax (freeSpaceList : List Nat) : Nat :=
  freeSpaceList.foldl (fun maxNode node => if nodeGetSize node > maxNode then nodeGetSize node else maxNode) 0

/-- The loop of `reservePages`: the page found, the size of its node before, and the list afterwards. -/
def reserveScan (numPages : Nat) : List Nat → Option (Nat × Nat × List Nat)
  | [] => none
  | node :: rest =>
    let oldsize := nodeGetSize node
    if oldsize ≥ numPages then
      let foundPage := nodeGetStart node
      if nodeGetSize node = numPages then
        some (foundPage, oldsize, rest)
      else
        let newsize := u16 (oldsize - numPages)
        some (foundPage, oldsize, nodeSet (foundPage + numPages) newsize :: rest)
    else
      (reserveScan numPages rest).map fun r => (r.1, r.2.1, node :: r.2.2)

def SegmentSpace.reservePages (seg : SegmentSpace) (numPages pos : Nat) (sh : SMEShared) :
    Rc × SegmentSpace × Nat × SMEShared :=
  -- compareAndSwap( pos, pos + 1 ) on the shared position
  let sh := if seg.totalFree = 0 ∧ sh.freePos = pos then { sh with freePos := u32 (pos + 1) } else sh
  if numPages > seg.maxNode then
    (.dmsNoSpc, seg, 0, sh)
  else
    match reserveScan numPages seg.freeSpaceList with
    | none => (.sys, seg, 0, sh)
    | some (page, oldsize, list) =>
      let foundPage := page + seg.startExtent
      let maxNode := if oldsize = seg.maxNode then resetMax list else seg.maxNode
      let seg := { seg with
        freeSpaceList := list, maxNode := maxNode, totalFree := u16 (seg.totalFree + 2 ^ 16 - numPages) }
      let sh := { sh with
        smeMask := setRange sh.smeMask foundPage numPages true
        totalFree := u32 (sh.totalFree + 2 ^ 32 - numPages) }
      (.ok, seg, foundPage, sh)

/-- The end of `releasePages`: `it1` is the node that now starts at `relaStart`, `prev` the node before it. -/
def mergePrev (relaStart newSize maxNode : Nat) (it1 : Nat) (rest : List Nat) :
    Option Nat → Rc × List Nat × Nat
  | none => (.ok, it1 :: rest, maxNode)
  | some prevNode =>
    let prevStart := nodeGetStart prevNode
    let prevSize := nodeGetSize prevNode
    if prevStart + prevSize > relaStart then
      (.sys, prevNode :: it1 :: rest, maxNode)
    else if prevStart + prevSize = relaStart then
      (.ok, nodeSetSize prevNode (newSize + prevSize) :: rest,
        if newSize + prevSize > maxNode then u16 (newSize + prevSize) else maxNode)
    else
      (.ok, prevNode :: it1 :: rest, maxNode)

def releaseScan (relaStart numPages newnode maxNode : Nat) : Option Nat → List Nat → Rc × List Nat × Nat
  | prev, [] =>
    mergePrev relaStart numPages (if numPages > maxNode then numPages else maxNode) newnode [] prev
  | prev, node :: rest =>
    let nodeStart := nodeGetStart node
    let nodeSize := nodeGetSize node
    if relaStart < nodeStart then
      if relaStart + numPages > nodeStart then
        (.sys, prev.toList ++ node :: rest, maxNode)
      else if relaStart + numPages = nodeStart then
        let newSize := u16 (nodeSize + numPages)
        mergePrev relaStart newSize (if newSize > maxNode then newSize else maxNode)
          (nodeSet relaStart newSize) rest prev
      else
        mergePrev relaStart numPages (if numPages > maxNode then numPages else maxNode)
          newnode (node :: rest) prev
    else if relaStart = nodeStart ∨ nodeStart + nodeSize > relaStart then
      (.sys, prev.toList ++ node :: rest, maxNode)
    else
      let r := releaseScan relaStart numPages newnode maxNode (some node) rest
      (r.1, prev.toList ++ r.2.1, r.2.2)

def SegmentSpace.releasePages (seg : SegmentSpace) (start numPages : Nat) (bitSet : Bool) (sh : SMEShared) :
    Rc × SegmentSpace × SMEShared :=
  let relaStart := u16 (start - seg.startExtent)
  if start < seg.startExtent ∨ start + numPages > seg.startExtent + seg.totalSize then
    (.sys, seg, sh)
  else
    let r : Rc × List Nat × Nat :=
      if numPages = 0 then (.ok, seg.freeSpaceList, seg.maxNode)
      else if seg.freeSpaceList = [] then (.ok, [nodeSet relaStart numPages], numPages)
      else releaseScan relaStart numPages (nodeSet relaStart numPages) seg.maxNode none seg.freeSpaceList
    if r.1 = .ok then
      let seg := { seg with
        freeSpaceList := r.2.1, maxNode := r.2.2, totalFree := u16 (seg.totalFree + numPages) }
      if bitSet then
        (.ok, seg, { sh with
          smeMask := setRange sh.smeMask start numPages false
          totalFree := u32 (sh.totalFree + numPages) })
      else (.ok, seg, sh)
    else (r.1, { seg with freeSpaceList := r.2.1, maxNode := r.2.2 }, sh)

/-! ### What the scans compute -/

private theorem resetMax_from (l : List Nat) (m : Nat) :
    l.foldl (fun maxNode node => if nodeGetSize node > maxNode then nodeGetSize node else maxNode) m =
      max m (maxSize (l.map unpack)) := by
  induction l generalizing m with
  | nil => simp
  | cons node l ih =>
    rw [foldl_cons, ih, map_cons, maxSize_cons]
    simp only [unpack]
    split <;> omega

theorem resetMax_eq (l : List Nat) : resetMax l = maxSize (l.map unpack) := by
  rw [resetMax, resetMax_from, Nat.zero_max]

section Scans

variable {p : Nat → Bool} {lo len : Nat} {l : List Nat}

theorem reserveScan_spec (hlen : len < 2 ^ 16) {num : Nat} (hnum : 0 < num)
    (hruns : RunsFrom p lo len (l.map unpack)) (hf : num ≤ maxSize (l.map unpack)) :
    ∃ page oldsize l', reserveScan num l = some (page, oldsize, l') ∧ lo ≤ page ∧ page + num ≤ len ∧
      (∀ i, page ≤ i → i < page + num → p i) ∧
      RunsFrom (setRange p page num false) lo len (l'.map unpack) ∧
      max oldsize (maxSize (l'.map unpack)) = maxSize (l.map unpack) := by
  induction l generalizing lo with
  | nil =>
    simp only [map_nil, maxSize_nil] at hf
    omega
  | cons node l ih =>
    rw [map_cons] at hruns hf ⊢
    rw [maxSize_cons] at hf ⊢
    rw [reserveScan]
    have hb := hruns.mem_bounds (mem_cons_self ..)
    simp only [unpack] at hb
    by_cases hge : nodeGetSize node ≥ num
    · rw [if_pos hge]
      have hin := hruns.2.2.2.2.1
      by_cases heq : nodeGetSize node = num
      · rw [if_pos heq]
        refine ⟨_, _, _, rfl, hb.1, by omega, ?_, ?_, rfl⟩
        · rw [← heq]
          exact hin
        · rw [← heq]
          exact hruns.take_all
      · rw [if_neg heq]
        have hn : u16 (nodeGetSize node - num) = nodeGetSize node - num :=
          mod_eq_of_lt (by omega)
        refine ⟨_, _, _, rfl, hb.1, by omega, fun i h1 h2 => hin i h1 (by omega), ?_, ?_⟩
        · rw [map_cons, hn, unpack_nodeSet (by omega) (by omega)]
          exact hruns.take_part (by omega)
        · rw [map_cons, hn, unpack_nodeSet (by omega) (by omega), maxSize_cons]
          simp only [unpack]
          omega
    · rw [if_neg hge]
      simp only [unpack] at hf
      obtain ⟨page, oldsize, l', hs, hlo, hle, hin, hruns', hmax⟩ := ih hruns.2.2.2.2.2.2 (by omega)
      rw [hs]
      refine ⟨page, oldsize, node :: l', rfl, by omega, hle, hin, ?_, ?_⟩
      · exact hruns.cons_setRange (by omega) hruns'
      · rw [map_cons, maxSize_cons]
        omega

def Before (p : Nat → Bool) (lo s : Nat) : Option Nat → Prop
  | none => lo ≤ s ∧ ∀ i, lo ≤ i → i < s → p i = false
  | some x => lo ≤ nodeGetStart x ∧ 0 < nodeGetSize x ∧ nodeGetStart x + nodeGetSize x ≤ s ∧
      (∀ i, lo ≤ i → i < nodeGetStart x → p i = false) ∧
      (∀ i, nodeGetStart x ≤ i → i < nodeGetStart x + nodeGetSize x → p i = true) ∧
      (∀ i, nodeGetStart x + nodeGetSize x ≤ i → i < s → p i = false)

variable {prev : Option Nat}

theorem mergePrev_spec (hlen : len < 2 ^ 16) {s size m it1 : Nat} {rest : List Nat}
    (hit1 : unpack it1 = (s, size)) (hb : RunsFrom p s len ((s, size) :: rest.map unpack))
    (hbefore : Before p lo s prev) (hm : maxSize ((prev.toList ++ rest).map unpack) ≤ m) :
    ∃ l' m', mergePrev s size (if size > m then size else m) it1 rest prev = (.ok, l', m') ∧
      RunsFrom p lo len (l'.map unpack) ∧ m' = max m (maxSize (l'.map unpack)) ∧
      max size (maxSize ((prev.toList ++ rest).map unpack)) ≤ maxSize (l'.map unpack) := by
  have hle := hb.2.2.1
  have hmax : (if size > m then size else m) = max m size := by
    split <;> omega
  rw [hmax]
  cases prev with
  | none =>
    obtain ⟨hlo, hg⟩ := hbefore
    rw [toList_none, nil_append] at hm ⊢
    refine ⟨_, _, rfl, ?_, ?_⟩ <;> rw [map_cons, hit1]
    · exact hb.extend hlo fun i h1 h2 _ => hg i h1 h2
    · rw [maxSize_cons]
      omega
  | some x =>
    obtain ⟨hlo, hp, hend, hg, hin, hgap'⟩ := hbefore
    rw [mergePrev, if_neg (by omega)]
    rw [toList_some, singleton_append, map_cons, maxSize_cons] at hm ⊢
    by_cases heq : nodeGetStart x + nodeGetSize x = s
    · have hu : unpack (nodeSetSize x (size + nodeGetSize x)) = (nodeGetStart x, size + nodeGetSize x) :=
        unpack_nodeSetSize (by omega)
      rw [if_pos heq, u16, mod_eq_of_lt (by omega)]
      refine ⟨_, _, rfl, ?_, ?_⟩ <;> rw [map_cons, hu]
      · exact hb.block_merge hlo hp heq hg hin
      · rw [maxSize_cons]
        simp only [unpack] at hm ⊢
        split <;> omega
    · rw [if_neg heq]
      refine ⟨_, _, rfl, ?_, ?_⟩ <;> rw [map_cons, map_cons, hit1]
      · exact hb.block_cons hlo hp (by omega) hg hin hgap'
      · rw [maxSize_cons, maxSize_cons]
        omega

variable {s k : Nat} (hruns : RunsFrom p lo len ((prev.toList ++ l).map unpack)) (hlo : lo ≤ s)
  (hprev : ∀ x ∈ prev, nodeGetStart x + nodeGetSize x ≤ s)

include hruns hlo hprev

private theorem tail_runs : ∃ lo', lo' ≤ s + 1 ∧ RunsFrom p lo' len (l.map unpack) := by
  cases prev with
  | none => exact ⟨lo, by omega, hruns⟩
  | some x =>
    have hx := hprev x rfl
    exact ⟨_, by omega, hruns.2.2.2.2.2.2⟩

private theorem prev_facts (hs : s < len) (hl : ∀ r ∈ l.map unpack, s < r.1) :
    Before (setRange p s k true) lo s prev := by
  have hg : ∀ lo', RunsFrom p lo' len (l.map unpack) → ∀ i, lo' ≤ i → i < s → p i = false :=
    fun lo' h i h1 h2 => h.gap_false (fun r hr => by have := hl r hr; omega) h1 (by omega)
  cases prev with
  | none =>
    refine ⟨hlo, fun i h1 h2 => ?_⟩
    rw [setRange_not_mem (Or.inl h2)]
    exact hg lo hruns i h1 h2
  | some x =>
    have hx := hprev x rfl
    rw [toList_some, singleton_append, map_cons] at hruns
    obtain ⟨hlo', hp, hle, hb, hin, he, hrest⟩ := hruns
    refine ⟨hlo', hp, hx, fun i h1 h2 => ?_, fun i h1 h2 => ?_, fun i h1 h2 => ?_⟩ <;>
      rw [setRange_not_mem (by omega)]
    · exact hb i h1 h2
    · exact hin i h1 h2
    · by_cases hi : i = nodeGetStart x + nodeGetSize x
      · rw [hi]
        exact he (by omega)
      · exact hg _ hrest i (by omega) h2

theorem releaseScan_spec (hlen : len < 2 ^ 16) {m : Nat} (hk : 0 < k) (hsk : s + k ≤ len)
    (ha : ∀ i, s ≤ i → i < s + k → p i = false)
    (hm : maxSize ((prev.toList ++ l).map unpack) ≤ m) :
    ∃ l' m', releaseScan s k (nodeSet s k) m prev l = (.ok, l', m') ∧
      RunsFrom (setRange p s k true) lo len (l'.map unpack) ∧ m' = max m (maxSize (l'.map unpack)) ∧
      maxSize ((prev.toList ++ l).map unpack) ≤ maxSize (l'.map unpack) := by
  have hnew : unpack (nodeSet s k) = (s, k) := unpack_nodeSet (by omega) (by omega)
  induction l generalizing lo prev with
  | nil =>
    obtain ⟨lo', hlo', ht⟩ := tail_runs hruns hlo hprev
    have hbefore := prev_facts (k := k) hruns hlo hprev (by omega) (by simp)
    obtain ⟨l', m', hmerge, hl', hm', hmax⟩ := mergePrev_spec hlen hnew (ht.put_gap hlo' hk hsk (by simp)) hbefore hm
    exact ⟨l', m', hmerge, hl', hm', by omega⟩
  | cons node l ih =>
    obtain ⟨lo', hlo', ht⟩ := tail_runs hruns hlo hprev
    rw [map_cons] at ht
    have hb := ht.mem_bounds (mem_cons_self ..)
    have hbehind : ∀ r ∈ l.map unpack, nodeGetStart node + nodeGetSize node < r.1 := by
      intro r hr
      exact (pairwise_cons.1 ht.pairwise).1 r hr
    simp only [unpack] at hb
    simp only [map_append, map_cons, maxSize_append, maxSize_cons] at hm ⊢
    rw [releaseScan]
    by_cases hlt : s < nodeGetStart node
    · rw [if_pos hlt]
      have hsn : s + k ≤ nodeGetStart node := by
        by_contra hover
        have htrue := ht.2.2.2.2.1 (nodeGetStart node) le_rfl (by omega)
        rw [ha _ (by omega) (by omega)] at htrue
        cases htrue
      rw [if_neg (by omega)]
      have hl : ∀ r ∈ (node :: l).map unpack, nodeGetStart node ≤ r.1 :=
        forall_mem_cons.2 ⟨le_rfl, fun r hr => (Nat.le_add_right ..).trans (hbehind r hr).le⟩
      have hbefore := prev_facts (k := k) hruns hlo hprev (by omega)
        fun r hr => by have := hl r hr; omega
      by_cases heq : s + k = nodeGetStart node
      · have hit1 : unpack (nodeSet s (nodeGetSize node + k)) = (s, nodeGetSize node + k) :=
          unpack_nodeSet (by omega) (by omega)
        rw [unpack, ← heq] at ht
        rw [if_pos heq, u16, mod_eq_of_lt (by omega)]
        obtain ⟨l', m', hmerge, hl', hm', hmax⟩ := mergePrev_spec (m := m) hlen hit1 (ht.put_left hk) hbefore (by
          rw [map_append, maxSize_append]
          omega)
        rw [map_append, maxSize_append] at hmax
        exact ⟨l', m', hmerge, hl', hm', by simp only [unpack]; omega⟩
      · rw [if_neg heq]
        have hblock := ht.put_gap hlo' hk hsk fun r hr => by have := hl r hr; omega
        obtain ⟨l', m', hmerge, hl', hm', hmax⟩ := mergePrev_spec (m := m) hlen hnew hblock hbefore (by
          rw [map_append, maxSize_append, map_cons, maxSize_cons]
          exact hm)
        rw [map_append, maxSize_append, map_cons, maxSize_cons] at hmax
        exact ⟨l', m', hmerge, hl', hm', by omega⟩
    · -- the node lies before the range: it becomes the previous node of the rest of the scan
      rw [if_neg hlt]
      have he : nodeGetStart node + nodeGetSize node ≤ s := by
        by_contra hover
        have htrue := ht.2.2.2.2.1 s (by omega) (by omega)
        rw [ha _ le_rfl (by omega)] at htrue
        cases htrue
      rw [if_neg (by omega)]
      have hn : ∀ x ∈ some node, nodeGetStart x + nodeGetSize x ≤ s := by
        rintro x ⟨rfl⟩
        exact he
      cases prev with
      | none =>
        obtain ⟨l', m', hs, hl', hm', hmax⟩ := ih hruns hlo hn (by
          simp only [toList_some, singleton_append, map_cons, maxSize_cons]
          omega)
        simp only [toList_some, singleton_append, map_cons, maxSize_cons] at hmax
        refine ⟨l', m', ?_, hl', hm', ?_⟩
        · simp only [hs, toList_none, nil_append]
        · simpa using hmax
      | some x =>
        rw [toList_some, singleton_append, map_cons] at hruns
        have hx : nodeGetStart x + nodeGetSize x < nodeGetStart node :=
          (pairwise_cons.1 hruns.pairwise).1 (unpack node) (mem_cons_self ..)
        obtain ⟨l', m', hs, hl', hm', hmax⟩ :=
          ih hruns.2.2.2.2.2.2 (show nodeGetStart x + nodeGetSize x + 1 ≤ s by omega) hn (by
            simp only [toList_some, singleton_append, map_cons, maxSize_cons]
            omega)
        simp only [toList_some, singleton_append, map_cons, map_nil, maxSize_cons, maxSize_nil] at hm hmax ⊢
        refine ⟨x :: l', m', by rw [hs], ?_, ?_, ?_⟩
        · exact hruns.cons_setRange (by omega) hl'
        · rw [map_cons, maxSize_cons]
          omega
        · rw [map_cons, maxSize_cons]
          omega

end Scans

/-! ### One segment -/

/-- The three representations of one segment agree with its free pages `p`, counted from the start of the
segment: the list, the largest node and the counter. -/
structure SegmentInv (p : Nat → Bool) (seg : SegmentSpace) : Prop where
  size_lt : seg.totalSize < 2 ^ 16
  runs : RunsFrom p 0 seg.totalSize (seg.freeSpaceList.map unpack)
  maxNode : seg.maxNode = maxSize (seg.freeSpaceList.map unpack)
  totalFree : seg.totalFree = countBelow p seg.totalSize

variable {seg : SegmentSpace}

theorem SegmentInv.congr {p q : Nat → Bool} (h : SegmentInv p seg) (hpq : ∀ i, i < seg.totalSize → q i = p i) :
    SegmentInv q seg where
  size_lt := h.size_lt
  runs := h.runs.congr fun i _ hi => hpq i hi
  maxNode := h.maxNode
  totalFree := by rw [h.totalFree, countBelow_congr hpq]

theorem SegmentInv.new (start n : Nat) : SegmentInv (fun _ => false) (.new start n) where
  size_lt := mod_lt _ (by decide)
  runs := fun _ _ _ => rfl
  maxNode := rfl
  totalFree := by simpa [SegmentSpace.new] using (countBelow_const false (u16 n)).symm

variable {p : Nat → Bool}

theorem SegmentSpace.reservePages_spec (h : SegmentInv p seg) {num : Nat} (hn : 0 < num) (pos : Nat)
    (sh : SMEShared) :
    ∃ freePos, (freePos = sh.freePos ∨ (sh.freePos = pos ∧ ∀ i < seg.totalSize, p i = false) ∧ freePos = u32 (pos + 1)) ∧
      ((seg.reservePages num pos sh = (.dmsNoSpc, seg, 0, { sh with freePos := freePos }) ∧
        ∀ rel, rel + num ≤ seg.totalSize → ∃ i, rel ≤ i ∧ i < rel + num ∧ p i = false) ∨
      ∃ rel seg', seg.reservePages num pos sh = (.ok, seg', rel + seg.startExtent, {
          smeMask := setRange sh.smeMask (rel + seg.startExtent) num true
          totalFree := u32 (sh.totalFree + 2 ^ 32 - num)
          freePos := freePos }) ∧
        rel + num ≤ seg.totalSize ∧ (∀ i, rel ≤ i → i < rel + num → p i = true) ∧
        SegmentInv (setRange p rel num false) seg' ∧
        seg'.startExtent = seg.startExtent ∧ seg'.totalSize = seg.totalSize) := by
  obtain ⟨freePos, hsh, hp⟩ : ∃ freePos,
      (if seg.totalFree = 0 ∧ sh.freePos = pos then { sh with freePos := u32 (pos + 1) } else sh) =
        { sh with freePos := freePos } ∧
      (freePos = sh.freePos ∨ (sh.freePos = pos ∧ ∀ i < seg.totalSize, p i = false) ∧ freePos = u32 (pos + 1)) := by
    split
    next hempty =>
      have hf := count_iff_forall_not.1 (h.totalFree.symm.trans hempty.1)
      exact ⟨_, rfl, .inr ⟨⟨hempty.2, fun i hi => Bool.eq_false_iff.2 (hf i hi)⟩, rfl⟩⟩
    next => exact ⟨sh.freePos, rfl, .inl rfl⟩
  refine ⟨freePos, hp, ?_⟩
  unfold SegmentSpace.reservePages
  simp only [hsh]
  by_cases hm : num > seg.maxNode
  · left
    refine ⟨if_pos hm, fun rel hr => ?_⟩
    rw [h.maxNode] at hm
    by_contra hno
    push Not at hno
    have := h.runs.le_maxSize rel.zero_le hn hr fun i h1 h2 => Bool.eq_true_of_not_eq_false (hno i h1 h2)
    omega
  · right
    rw [if_neg hm]
    rw [h.maxNode] at hm
    obtain ⟨page, oldsize, l', hs, -, hle, hin, hruns, hmaxl⟩ :=
      reserveScan_spec h.size_lt hn h.runs (by omega)
    rw [hs]
    have hcount := countBelow_setRange_false hle hin
    have hcle := countBelow_le p seg.totalSize
    have hlt := h.size_lt
    refine ⟨page, _, rfl, hle, hin, ?_, rfl, rfl⟩
    refine ⟨h.size_lt, hruns, ?_, ?_⟩
    · simp only [resetMax_eq]
      rw [h.maxNode]
      split <;> omega
    · simp only [h.totalFree, u16]
      omega

theorem SegmentSpace.releasePages_spec (h : SegmentInv p seg) {rel num : Nat}
    (hle : rel + num ≤ seg.totalSize) (ha : ∀ i, rel ≤ i → i < rel + num → p i = false) (bitSet : Bool)
    (sh : SMEShared) :
    ∃ seg', seg.releasePages (seg.startExtent + rel) num bitSet sh = (.ok, seg',
        if bitSet then { sh with
          smeMask := setRange sh.smeMask (seg.startExtent + rel) num false
          totalFree := u32 (sh.totalFree + num) } else sh) ∧
      SegmentInv (setRange p rel num true) seg' ∧
      seg'.startExtent = seg.startExtent ∧ seg'.totalSize = seg.totalSize := by
  have hlt := h.size_lt
  have hr : u16 (seg.startExtent + rel - seg.startExtent) = rel := by
    rw [Nat.add_sub_cancel_left]
    exact mod_eq_of_lt (by omega)
  have hcount := countBelow_setRange_true hle ha
  have hcle := countBelow_le (setRange p rel num true) seg.totalSize
  have ht : u16 (seg.totalFree + num) = countBelow (setRange p rel num true) seg.totalSize := by
    rw [h.totalFree, u16]
    omega
  -- the part of the function that computes the new list
  obtain ⟨l', m', hl, hruns, hm⟩ : ∃ l' m', (if num = 0 then (Rc.ok, seg.freeSpaceList, seg.maxNode)
        else if seg.freeSpaceList = [] then (.ok, [nodeSet rel num], num)
        else releaseScan rel num (nodeSet rel num) seg.maxNode none seg.freeSpaceList) = (.ok, l', m') ∧
      RunsFrom (setRange p rel num true) 0 seg.totalSize (l'.map unpack) ∧
      m' = maxSize (l'.map unpack) := by
    by_cases hz : num = 0
    · rw [if_pos hz]
      refine ⟨_, _, rfl, h.runs.congr fun i _ _ => setRange_not_mem (by omega), h.maxNode⟩
    rw [if_neg hz]
    have hn : unpack (nodeSet rel num) = (rel, num) := unpack_nodeSet (by omega) (by omega)
    by_cases he : seg.freeSpaceList = []
    · rw [if_pos he]
      have hruns := h.runs
      rw [he] at hruns
      refine ⟨_, _, rfl, ?_, by simp [hn]⟩
      rw [map_cons, hn]
      refine (hruns.put_gap (by omega) (by omega) hle (by simp)).extend (by omega) ?_
      intro i _ h2 h3
      rw [setRange_not_mem (by omega)]
      exact hruns i (by omega) h3
    · rw [if_neg he]
      obtain ⟨l', m', hs, hruns, hm', hmax⟩ := releaseScan_spec
        (show RunsFrom p 0 seg.totalSize ((Option.toList none ++ seg.freeSpaceList).map unpack) from h.runs)
        (Nat.zero_le _) (by simp) h.size_lt (Nat.pos_of_ne_zero hz) hle ha h.maxNode.ge
      refine ⟨l', m', hs, hruns, ?_⟩
      rw [hm', h.maxNode]
      exact Nat.max_eq_right hmax
  unfold SegmentSpace.releasePages
  simp only [hr, hl, if_true]
  rw [if_neg (by omega)]
  refine ⟨{ seg with freeSpaceList := l', maxNode := m', totalFree := u16 (seg.totalFree + num) }, ?_,
    ⟨h.size_lt, hruns, hm, ht⟩, rfl, rfl⟩
  cases bitSet <;> rfl

end SequoiaDB.Dms

import SequoiaDB.Lib.Run
import SequoiaDB.Rc

/-!
# The heap of waiting sessions

`_clsSyncMinHeap` keeps the sessions that wait for the replicas as a binary heap in an array, the one with the least
`endLsn` at the root.  Positions are natural numbers; those of the source, `UINT32`, do not overflow below `2^31`
sessions.
-/

namespace SequoiaDB.Cls

open SequoiaDB.Lib Function Finset

structure SyncSession where
  endLsn : Nat
  eduCB : Nat
  deriving DecidableEq, Repr

structure SyncMinHeap where
  heap : Nat → SyncSession
  dataSize : Nat

namespace SyncMinHeap

def father (child : Nat) : Nat := (child - 1) / 2

def leftChild (father : Nat) : Nat := father * 2 + 1

def rightChild (father : Nat) : Nat := father * 2 + 2

theorem father_lt {i : Nat} (h : 0 < i) : father i < i := by
  unfold father
  omega

section Shift

variable (heap : Nat → SyncSession)

def swap (sub1 sub2 : Nat) : Nat → SyncSession := update (update heap sub1 (heap sub2)) sub2 (heap sub1)

def shiftUp (heap : Nat → SyncSession) (up : Nat) : Nat → SyncSession :=
  if _ : up = 0 then heap
  else if (heap up).endLsn < (heap (father up)).endLsn then shiftUp (swap heap up (father up)) (father up)
  else heap
termination_by up
decreasing_by exact father_lt (Nat.pos_of_ne_zero ‹_›)

def swapChild (dataSize down : Nat) : Nat :=
  if dataSize ≤ rightChild down then leftChild down
  else if (heap (leftChild down)).endLsn ≤ (heap (rightChild down)).endLsn then leftChild down
  else rightChild down

theorem swapChild_cases (n down : Nat) : swapChild heap n down = leftChild down ∨
    swapChild heap n down = rightChild down ∧ rightChild down < n := by
  unfold swapChild
  split_ifs <;> simp_all

def shiftDown (heap : Nat → SyncSession) (dataSize down : Nat) : Nat → SyncSession :=
  if _ : leftChild down < dataSize then
    let s := swapChild heap dataSize down
    if (heap s).endLsn < (heap down).endLsn then shiftDown (swap heap down s) dataSize s else heap
  else heap
termination_by dataSize - down
decreasing_by
  have := swapChild_cases heap dataSize down
  simp only [leftChild, rightChild] at *
  omega

end Shift

variable (h : SyncMinHeap)

def push (allocated : Bool) (session : SyncSession) : Rc × SyncMinHeap :=
  if allocated then (.ok, ⟨shiftUp (update h.heap h.dataSize session) h.dataSize, h.dataSize + 1⟩) else (.oom, h)

def removeAt (sub : Nat) : SyncMinHeap :=
  ⟨shiftDown (update h.heap sub (h.heap (h.dataSize - 1))) (h.dataSize - 1) sub, h.dataSize - 1⟩

def root : Option SyncSession := if h.dataSize = 0 then none else some (h.heap 0)

def pop : Option SyncSession × SyncMinHeap := if h.dataSize = 0 then (none, h) else (some (h.heap 0), h.removeAt 0)

def erase (sub : Nat) : Rc × SyncMinHeap :=
  if h.dataSize = 0 ∨ h.dataSize ≤ sub then (.invalidArg, h) else (.ok, h.removeAt sub)

inductive Call
  | push (allocated : Bool) (session : SyncSession)
  | pop
  | erase (sub : Nat)

def step (x : SyncMinHeap × Multiset SyncSession) : Call → SyncMinHeap × Multiset SyncSession
  | .push allocated session =>
    let r := x.1.push allocated session
    (r.2, if r.1 = .ok then session ::ₘ x.2 else x.2)
  | .pop => (x.1.pop.2, x.1.pop.1.elim x.2 x.2.erase)
  | .erase sub =>
    let r := x.1.erase sub
    (r.2, if r.1 = .ok then x.2.erase (x.1.heap sub) else x.2)

def Downward (x : SyncMinHeap × Multiset SyncSession) : Call → Prop
  | .erase sub => 0 < sub → sub + 1 < x.1.dataSize →
      (x.1.heap (father sub)).endLsn ≤ (x.1.heap (x.1.dataSize - 1)).endLsn
  | _ => True

/-- The heap holds the sessions `live`, none of them before its father. -/
structure Holds (h : SyncMinHeap) (live : Multiset SyncSession) : Prop where
  stored : ∑ i ∈ range h.dataSize, {h.heap i} = live
  ordered : ∀ c, 0 < c → c < h.dataSize → (h.heap (father c)).endLsn ≤ (h.heap c).endLsn

/-- The heap as a priority queue. -/
structure PriorityQueue (h : SyncMinHeap) (live : Multiset SyncSession) : Prop extends Holds h live where
  minimal : live ≠ 0 → ∃ s ∈ live, h.root = some s ∧ h.pop.1 = some s ∧ ∀ x ∈ live, s.endLsn ≤ x.endLsn

/-! ### Shifting -/

variable {h} {heap : Nat → SyncSession} {n i j : Nat} {live : Multiset SyncSession}

theorem swap_apply (c : Nat) : swap heap i j c = if c = j then heap i else if c = i then heap j else heap c := by
  simp only [swap, update_apply]

theorem stored_swap (heap : Nat → SyncSession) (hi : i < n) (hj : j < n) :
    ∑ c ∈ range n, {swap heap i j c} = (∑ c ∈ range n, {heap c} : Multiset SyncSession) := by
  refine sum_equiv (Equiv.swap j i) (fun c => ?_) fun c _ => ?_
  · rw [mem_range, mem_range, Equiv.swap_apply_def]
    split_ifs <;> omega
  · rw [swap, ← Equiv.comp_swap_eq_update, comp_apply]

def Grand (heap : Nat → SyncSession) (n i : Nat) : Prop :=
  ∀ c, 0 < c → c < n → father c = i → 0 < i → (heap (father i)).endLsn ≤ (heap c).endLsn

theorem shiftUp_holds (hi : i < n) (ho : ∀ c, 0 < c → c < n → c ≠ i → (heap (father c)).endLsn ≤ (heap c).endLsn)
    (hg : Grand heap n i) : Holds ⟨shiftUp heap i, n⟩ (∑ c ∈ range n, {heap c}) := by
  induction heap, i using shiftUp.induct with
  | case1 heap =>
    rw [shiftUp, dif_pos rfl]
    exact ⟨rfl, fun c h0 hc => ho c h0 hc h0.ne'⟩
  | case2 heap up h0 hlt ih =>
    have hf := father_lt (Nat.pos_of_ne_zero h0)
    rw [shiftUp, dif_neg h0, if_pos hlt, ← stored_swap heap hi (hf.trans hi)]
    refine ih (hf.trans hi) ?_ ?_
    · intro c hc hcn hne
      have := ho c hc hcn
      have := hg c hc hcn
      have := father_lt hc
      simp only [swap_apply]
      grind
    · intro c hc hcn hfc hp
      have := father_lt hp
      have := ho (father up) hp (hf.trans hi) hf.ne
      have := ho c hc hcn
      simp only [swap_apply]
      grind
  | case3 heap up h0 hlt =>
    rw [shiftUp, dif_neg h0, if_neg hlt]
    refine ⟨rfl, fun c hc hcn => ?_⟩
    by_cases heq : c = up
    · rw [heq]
      exact not_lt.1 hlt
    · exact ho c hc hcn heq

theorem swapChild_le (heap : Nat → SyncSession) {c : Nat} (hc : 0 < c) (hcn : c < n) (hf : father c = i) :
    (heap (swapChild heap n i)).endLsn ≤ (heap c).endLsn := by
  have hcases : c = leftChild i ∨ c = rightChild i := by
    simp only [father, leftChild, rightChild] at *
    omega
  unfold swapChild
  split_ifs <;> rcases hcases with rfl | rfl <;> omega

theorem shiftDown_holds (ho : ∀ c, 0 < c → c < n → father c ≠ i → (heap (father c)).endLsn ≤ (heap c).endLsn)
    (hg : Grand heap n i) : Holds ⟨shiftDown heap n i, n⟩ (∑ c ∈ range n, {heap c}) := by
  induction heap, i using shiftDown.induct n with
  | case1 heap down hl s hlt ih =>
    have hs : father s = down ∧ down < s ∧ s < n := by
      have := swapChild_cases heap n down
      simp only [father, leftChild, rightChild, s] at *
      omega
    obtain ⟨hf, hds, hsn⟩ := hs
    rw [shiftDown, dif_pos hl, if_pos hlt, ← stored_swap heap (hds.trans hsn) hsn]
    refine ih ?_ ?_
    · intro c hc hcn hne
      have := ho c hc hcn
      have := hg s (by omega) hsn hf
      have hle : father c = down → (heap s).endLsn ≤ (heap c).endLsn := swapChild_le heap hc hcn
      have := father_lt hc
      simp only [swap_apply]
      grind
    · intro c hc hcn hfc hpos
      have := ho c hc hcn (by omega)
      have := father_lt hc
      simp only [swap_apply]
      grind
  | case2 heap down hl s hlt =>
    rw [shiftDown, dif_pos hl, if_neg hlt]
    refine ⟨rfl, fun c hc hcn => ?_⟩
    by_cases heq : father c = down
    · rw [heq]
      exact (not_lt.1 hlt).trans (swapChild_le heap hc hcn heq)
    · exact ho c hc hcn heq
  | case3 heap down hl =>
    rw [shiftDown, dif_neg hl]
    refine ⟨rfl, fun c hc (hcn : c < n) => ho c hc hcn fun heq => hl ?_⟩
    unfold father at heq
    unfold leftChild
    omega

/-! ### Calls -/

namespace Holds

theorem push (hh : Holds h live) (s : SyncSession) : Holds (h.push true s).2 (s ::ₘ live) := by
  have hs : ∑ c ∈ range (h.dataSize + 1), {update h.heap h.dataSize s c} = s ::ₘ live := by
    rw [sum_range_succ, update_self, ← hh.stored, add_comm, Multiset.singleton_add]
    congr 1
    exact sum_congr rfl fun c hc => by rw [update_of_ne (mem_range.1 hc).ne]
  rw [← hs]
  refine shiftUp_holds h.dataSize.lt_succ_self (fun c hc hcn hne => ?_) fun c hc hcn hfc _ => ?_
  · have := father_lt hc
    rw [update_of_ne (by omega), update_of_ne hne]
    exact hh.ordered c hc (by omega)
  · have := father_lt hc
    omega

theorem removeAt (hh : Holds h live) (hi : i < h.dataSize)
    (hup : 0 < i → i + 1 < h.dataSize → (h.heap (father i)).endLsn ≤ (h.heap (h.dataSize - 1)).endLsn) :
    Holds (h.removeAt i) (live.erase (h.heap i)) := by
  obtain ⟨heap, _ | n⟩ := h
  · cases hi
  have hs : ∑ c ∈ range n, {update heap i (heap n) c} = live.erase (heap i) := by
    rw [← hh.stored, ← stored_swap heap hi n.lt_succ_self, sum_range_succ, swap_apply, if_pos rfl, add_comm,
      Multiset.singleton_add, Multiset.erase_cons_head]
    exact sum_congr rfl fun c hc => by rw [swap, update_of_ne (mem_range.1 hc).ne]
  have ho : ∀ c, 0 < c → c < n + 1 → (heap (father c)).endLsn ≤ (heap c).endLsn := hh.ordered
  dsimp only at hi hup
  show Holds ⟨shiftDown (update heap i (heap n)) n i, n⟩ _
  rw [← hs]
  refine shiftDown_holds (fun c hc hcn hne => ?_) fun c hc hcn hfc hp => ?_
  · have := father_lt hc
    have := ho c hc (by omega)
    simp only [update_apply]
    grind
  · have := father_lt hc
    have := father_lt hp
    have := ho c hc (by omega)
    have := ho i hp (by omega)
    simp only [update_apply]
    grind

theorem step {x : SyncMinHeap × Multiset SyncSession} {call : Call} (hx : Holds x.1 x.2) (hd : Downward x call) :
    Holds (step x call).1 (step x call).2 := by
  obtain ⟨h, live⟩ := x
  cases call with
  | push allocated s =>
    cases allocated with
    | false => exact hx
    | true => exact hx.push s
  | pop =>
    by_cases h0 : h.dataSize = 0
    · simpa [SyncMinHeap.step, pop, h0] using hx
    · simpa [SyncMinHeap.step, pop, h0] using hx.removeAt (Nat.pos_of_ne_zero h0) (by simp)
  | erase sub =>
    by_cases h0 : h.dataSize = 0 ∨ h.dataSize ≤ sub
    · simpa [SyncMinHeap.step, SyncMinHeap.erase, h0] using hx
    · simpa [SyncMinHeap.step, SyncMinHeap.erase, h0] using hx.removeAt (not_le.1 (not_or.1 h0).2) hd

theorem root_le (hh : Holds h live) (hi : i < h.dataSize) : (h.heap 0).endLsn ≤ (h.heap i).endLsn := by
  induction i using Nat.strong_induction_on with
  | _ i ih =>
    rcases Nat.eq_zero_or_pos i with rfl | h0
    · exact le_rfl
    · have hf := father_lt h0
      exact (ih (father i) hf (hf.trans hi)).trans (hh.ordered i h0 hi)

theorem priorityQueue (hh : Holds h live) : PriorityQueue h live := by
  refine ⟨hh, fun hne => ?_⟩
  have hm : ∀ x, x ∈ live ↔ ∃ c < h.dataSize, h.heap c = x := by
    simp [← hh.stored, Multiset.mem_sum, eq_comm]
  have h0 : h.dataSize ≠ 0 := by
    intro h0
    exact hne (by rw [← hh.stored, h0]; rfl)
  refine ⟨h.heap 0, (hm _).2 ⟨0, Nat.pos_of_ne_zero h0, rfl⟩, if_neg h0, by rw [pop, if_neg h0], fun x hx => ?_⟩
  obtain ⟨c, hc, rfl⟩ := (hm x).1 hx
  exact hh.root_le hc

end Holds

/-- From an empty heap on, the heap is a priority queue of the sessions pushed and not removed, unless an erased
session is replaced by one that is before the father. -/
theorem run_priorityQueue (heap : Nat → SyncSession) (calls : List Call)
    (hdown : Meets Downward step (⟨heap, 0⟩, 0) calls) :
    PriorityQueue (run step (⟨heap, 0⟩, 0) calls).1 (run step (⟨heap, 0⟩, 0) calls).2 := by
  have hempty : Holds ⟨heap, 0⟩ 0 := ⟨rfl, fun c _ hc => absurd hc c.not_lt_zero⟩
  exact (run_invariant (I := fun x => Holds x.1 x.2) (fun _ _ => Holds.step) hempty hdown).priorityQueue

def sevenPushed : List Call := [1, 10, 2, 11, 12, 4, 3].map fun lsn => .push true ⟨lsn, 0⟩

theorem run_priorityQueue_seven : let x := run step (⟨fun _ => ⟨0, 0⟩, 0⟩, 0) (sevenPushed ++ [.erase 1])
    PriorityQueue x.1 x.2 ∧ x.1.dataSize = 6 :=
  ⟨run_priorityQueue _ _ ⟨trivial, trivial, trivial, trivial, trivial, trivial, trivial,
    fun _ _ => by decide +kernel, trivial⟩, rfl⟩

/-- With position 3 erased, the session 3 is below the session 10; two `pop` later it is not at the root. -/
theorem erase_breaks_order :
    let x := run step (⟨fun _ => ⟨0, 0⟩, 0⟩, 0) (sevenPushed ++ [.erase 3])
    let y := run step x [.pop, .pop]
    (x.1.heap 3).endLsn < (x.1.heap (father 3)).endLsn ∧ y.1.pop.1 = some ⟨4, 0⟩ ∧ ⟨3, 0⟩ ∈ y.2 := by
  decide +kernel

/-! ### Calls that break the order -/

theorem stored_shiftUp (hi : i < n) :
    ∑ c ∈ range n, {shiftUp heap i c} = (∑ c ∈ range n, {heap c} : Multiset SyncSession) := by
  induction heap, i using shiftUp.induct with
  | case1 heap => rw [shiftUp, dif_pos rfl]
  | case2 heap up h0 hlt ih =>
    have hf := (father_lt (Nat.pos_of_ne_zero h0)).trans hi
    rw [shiftUp, dif_neg h0, if_pos hlt, ih hf, stored_swap heap hi hf]
  | case3 heap up h0 hlt => rw [shiftUp, dif_neg h0, if_neg hlt]

theorem stored_shiftDown : ∑ c ∈ range n, {shiftDown heap n i c} = (∑ c ∈ range n, {heap c} : Multiset SyncSession) := by
  induction heap, i using shiftDown.induct n with
  | case1 heap down hl s hlt ih =>
    have hs : down < s ∧ s < n := by
      have := swapChild_cases heap n down
      simp only [leftChild, rightChild, s] at *
      omega
    rw [shiftDown, dif_pos hl, if_pos hlt, ih, stored_swap heap (hs.1.trans hs.2) hs.2]
  | case2 heap down hl s hlt => rw [shiftDown, dif_pos hl, if_neg hlt]
  | case3 heap down hl => rw [shiftDown, dif_neg hl]

theorem stored_removeAt (hi : i < h.dataSize) : ∑ c ∈ range (h.removeAt i).dataSize, {(h.removeAt i).heap c} =
    (∑ c ∈ range h.dataSize, {h.heap c} : Multiset SyncSession).erase (h.heap i) := by
  obtain ⟨heap, _ | n⟩ := h
  · cases hi
  have hs : (∑ c ∈ range (n + 1), {heap c} : Multiset SyncSession) =
      heap i ::ₘ ∑ c ∈ range n, {update heap i (heap n) c} := by
    rw [← stored_swap heap hi n.lt_succ_self, sum_range_succ, swap_apply, if_pos rfl, add_comm, Multiset.singleton_add]
    exact congrArg _ (sum_congr rfl fun c hc => by rw [swap, update_of_ne (mem_range.1 hc).ne])
  rw [hs, Multiset.erase_cons_head]
  exact stored_shiftDown

theorem stored_step {x : SyncMinHeap × Multiset SyncSession} (hx : ∑ c ∈ range x.1.dataSize, {x.1.heap c} = x.2)
    (call : Call) : ∑ c ∈ range (step x call).1.dataSize, {(step x call).1.heap c} = (step x call).2 := by
  obtain ⟨h, live⟩ := x
  obtain rfl : ∑ c ∈ range h.dataSize, {h.heap c} = live := hx
  cases call with
  | push allocated s =>
    cases allocated with
    | false => rfl
    | true =>
      refine (stored_shiftUp h.dataSize.lt_succ_self).trans ?_
      rw [sum_range_succ, update_self, add_comm, Multiset.singleton_add]
      exact congrArg _ (sum_congr rfl fun c hc => by rw [update_of_ne (mem_range.1 hc).ne])
  | pop =>
    by_cases h0 : h.dataSize = 0
    · simp [step, pop, h0]
    · simpa [step, pop, h0] using stored_removeAt (Nat.pos_of_ne_zero h0)
  | erase sub =>
    by_cases h0 : h.dataSize = 0 ∨ h.dataSize ≤ sub
    · simp [step, erase, h0]
    · simpa [step, erase, h0] using stored_removeAt (not_le.1 (not_or.1 h0).2)

/-- **No session is lost**: also when `erase` breaks the order, the heap holds the sessions that have been pushed and not
removed, each as often as it has been pushed. -/
theorem run_keeps_sessions (heap : Nat → SyncSession) (calls : List Call) :
    let x := run step (⟨heap, 0⟩, 0) calls
    ∑ i ∈ range x.1.dataSize, {x.1.heap i} = x.2 :=
  run_invariant (I := fun x : SyncMinHeap × Multiset SyncSession => ∑ i ∈ range x.1.dataSize, {x.1.heap i} = x.2)
    (fun _ call hx (_ : True) => stored_step hx call) rfl (Meets.of_forall fun _ _ => trivial)

end SyncMinHeap

end SequoiaDB.Cls

import SequoiaDB.Dps.TransInfo

/-!
# Rolling back the unfinished transactions

`rtnTransRollbackAll` takes the transactions of the table one after the other and follows PRETRANS from the last record of
each.  An undo that fails is tried again.  At a record that cannot be read, or is not one of the transaction, the loop ends
and the transaction leaves the table like one that is completely undone.
-/

namespace SequoiaDB.Rtn

open Lib Dps

def RTN_TRANS_ROLLBACK_RETRY_TIMES : Nat := 20
def SDB_OK : Int := 0
def SDB_INTERRUPT : Int := -8
def SDB_SYS : Int := -10

/-- What the calls of one iteration return. -/
structure RollbackCalls where
  isDoRollback : Bool
  search : Int
  load : Int
  rollback : Int

/-- The variables of `rtnTransRollbackAll`, with `begin` of the table first, and the records that have been undone. -/
structure RollbackAll where
  transMap : List (TransID × Nat)
  curLsnOffset : Nat
  retryTimes : Nat
  rc : Int
  returned : Bool
  undone : List Nat

namespace RollbackAll

def first (transMap : List (TransID × Nat)) : Nat := (transMap.head?.map (·.2)).getD DPS_INVALID_LSN_OFFSET

def start (transMap : List (TransID × Nat)) : RollbackAll := ⟨transMap, first transMap, 0, SDB_OK, false, []⟩

def erase (s : RollbackAll) (rc : Int) : RollbackAll :=
  { s with transMap := s.transMap.tail, curLsnOffset := first s.transMap.tail, rc }

def preTrans (r : TransRecord) : Nat := r.preTrans.getD DPS_INVALID_LSN_OFFSET

def iterate (log : Nat → TransRecord) (s : RollbackAll) (transID : TransID) (c : RollbackCalls) : RollbackAll :=
  let record := log s.curLsnOffset
  if !c.isDoRollback then { s with rc := SDB_INTERRUPT, returned := true }
  else if c.search ≠ SDB_OK then s.erase c.search
  else if c.load ≠ SDB_OK then s.erase c.load
  else match record.transID with
    | none => s.erase SDB_SYS
    | some t =>
      -- the return code is still that of `load`
      if transID ≠ t.getTransID then s.erase SDB_OK
      else if c.rollback ≠ SDB_OK then
        -- `curLsnOffset` goes back to `getRelatedTransLSN`, this record
        { s with
          retryTimes := s.retryTimes + 1
          rc := c.rollback
          returned := RTN_TRANS_ROLLBACK_RETRY_TIMES ≤ s.retryTimes + 1 }
      else
        { s with
          transMap := (transID, preTrans record) :: s.transMap.tail
          curLsnOffset := preTrans record
          retryTimes := 0
          rc := SDB_OK
          undone := s.undone ++ [s.curLsnOffset] }

def step (log : Nat → TransRecord) (s : RollbackAll) (c : RollbackCalls) : RollbackAll :=
  if s.returned then s
  else match s.transMap with
    | [] => { s with returned := true }
    | (transID, _) :: _ => if s.curLsnOffset = DPS_INVALID_LSN_OFFSET then s.erase s.rc else s.iterate log transID c

def Chain (log : Nat → TransRecord) (t : TransID) : Nat → List Nat → Prop
  | lsn, [] => lsn = DPS_INVALID_LSN_OFFSET
  | lsn, r :: l => r = lsn ∧ lsn ≠ DPS_INVALID_LSN_OFFSET ∧ (log lsn).transID.map TransID.getTransID = some t ∧
      (∀ p ∈ l.head?, p < lsn) ∧ Chain log t (preTrans (log lsn)) l

def Leads (log : Nat → TransRecord) : List (TransID × Nat) → List (List Nat) → Prop :=
  List.Forall₂ fun p => Chain log p.1 p.2

variable {log : Nat → TransRecord} {chains : List (List Nat)}

theorem Chain.decreasing {t : TransID} {lsn : Nat} {l : List Nat} (h : Chain log t lsn l) : l.Pairwise (· > ·) := by
  refine List.isChain_iff_pairwise.1 ?_
  induction l generalizing lsn with
  | nil => exact .nil
  | cons r l ih =>
    obtain ⟨rfl, _, _, hlt, hp⟩ := h
    exact (ih hp).cons hlt

theorem Leads.decreasing {transMap : List (TransID × Nat)} (h : Leads log transMap chains) :
    ∀ l ∈ chains, l.Pairwise (· > ·) := by
  induction h with
  | nil => exact nofun
  | cons hc _ ih => exact List.forall_mem_cons.2 ⟨Chain.decreasing hc, ih⟩

/-- Of the chains in the order of the table, a part is undone, and the table leads to the rest. -/
structure Inv (log : Nat → TransRecord) (chains : List (List Nat)) (s : RollbackAll) : Prop where
  cur : s.curLsnOffset = first s.transMap
  left : ∃ left, Leads log s.transMap left ∧ s.undone ++ left.flatten = chains.flatten
  ok : s.returned = true → s.rc = SDB_OK → s.transMap = []

theorem Inv.step {s : RollbackAll} (h : Inv log chains s) {c : RollbackCalls} (hc : c.search = SDB_OK ∧ c.load = SDB_OK) :
    Inv log chains (s.step log c) := by
  obtain ⟨left, hl, hleft⟩ := h.left
  obtain ⟨transMap, cur, retryTimes, rc, returned, undone⟩ := s
  obtain rfl : cur = first transMap := h.cur
  cases returned with
  | true => exact h
  | false =>
    cases hl with
    | nil => exact ⟨rfl, h.left, fun _ _ => rfl⟩
    | @cons p l transMap left hchain hl =>
      obtain ⟨t, lsn⟩ := p
      cases l with
      | nil =>
        obtain rfl : lsn = DPS_INVALID_LSN_OFFSET := hchain
        exact ⟨rfl, ⟨left, hl, hleft⟩, nofun⟩
      | cons r l =>
        obtain ⟨rfl, hv, hid, -, hp⟩ := hchain
        obtain ⟨y, hy, rfl⟩ := Option.map_eq_some_iff.1 hid
        rw [RollbackAll.step, if_neg Bool.false_ne_true]
        change Inv log chains (if r = _ then _ else iterate log ⟨_, r, retryTimes, rc, false, undone⟩ _ c)
        rw [if_neg hv, iterate]
        simp only [hc.1, hc.2, hy, ne_eq, not_true_eq_false, if_false]
        split_ifs with hdo hu
        · exact ⟨rfl, h.left, fun _ => nofun⟩
        · exact ⟨rfl, ⟨l :: left, .cons hp hl, by simpa using hleft⟩, nofun⟩
        · exact ⟨rfl, h.left, fun _ hrc => absurd hrc hu⟩

/-- **Rolling back the unfinished transactions.**  As long as the records can be read and belong to the transaction whose
table entry leads to them, the records undone so far are, each once and downwards within each transaction, those that the
table led to without those that it leads to now, and if `rtnTransRollbackAll` has returned success, they are all of them. -/
theorem rollbackAll_complete (log : Nat → TransRecord) {transMap : List (TransID × Nat)} {chains : List (List Nat)}
    (hleads : Leads log transMap chains) (cs : List RollbackCalls) (hcs : ∀ c ∈ cs, c.search = SDB_OK ∧ c.load = SDB_OK) :
    let s := run (step log) (start transMap) cs
    (∀ l ∈ chains, l.Pairwise (· > ·)) ∧
      (∃ left, Leads log s.transMap left ∧ s.undone ++ left.flatten = chains.flatten) ∧
      (s.returned = true → s.rc = SDB_OK → s.undone = chains.flatten) := by
  intro s
  have hinv : Inv log chains s :=
    run_invariant (fun _ _ h hc => h.step hc) ⟨rfl, ⟨chains, hleads, rfl⟩, nofun⟩ (.of_forall hcs)
  refine ⟨hleads.decreasing, hinv.left, fun hret hrc => ?_⟩
  obtain ⟨left, hleads, hleft⟩ := hinv.left
  rw [hinv.ok hret hrc] at hleads
  cases hleads
  simpa using hleft

def twoTrans (lsn : Nat) : TransRecord where
  lsn := lsn
  type := .dataInsert
  transID := some (if lsn = 0 then 1 else 2)
  preTrans := if lsn = 16 then some 8 else none
  relatedTrans := none
  firstTrans := none

/-- The second undo fails once. -/
theorem rollbackAll_complete_retried :
    (run (step twoTrans) (start [(1, 0), (2, 16)]) ([0, -1, 0, 0, 0, 0, 0].map (⟨true, 0, 0, ·⟩))).undone = [0, 16, 8] := by
  have hleads : Leads twoTrans [(1, 0), (2, 16)] [[0], [16, 8]] := by
    simp [Leads, Chain, twoTrans, preTrans, TransID.getTransID]
    decide
  exact (rollbackAll_complete twoTrans hleads ([0, -1, 0, 0, 0, 0, 0].map (⟨true, 0, 0, ·⟩)) (by decide)).2.2 rfl rfl

/-- The record of the first transaction is not read, the other transaction is undone, and success is returned. -/
theorem rollbackAll_gives_up :
    let s := run (step twoTrans) (start [(1, 0), (2, 16)]) ([-1, 0, 0, 0, 0].map (⟨true, ·, 0, 0⟩))
    s.returned = true ∧ s.rc = SDB_OK ∧ s.transMap = [] ∧ s.undone = [16, 8] := by
  decide

end RollbackAll

end SequoiaDB.Rtn

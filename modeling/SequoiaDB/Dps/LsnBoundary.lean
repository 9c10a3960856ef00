import SequoiaDB.Lib.Run
import SequoiaDB.Dps.LogMgr

/-!
# Log sequence numbers and log files

Every record, dummy records included, lies in one log file; the records follow each other without a gap, and
each of them knows the one before it.  A node that appends the rows of another one ends with the same numbers.

The invariant behind it is that the current log file is either used up or has room for more than a header
(`RoomLeft`): this is why a dummy record is never too short.
-/

namespace SequoiaDB.Dps

open Lib Option LogMgr

/-! ### Positions in a log file -/

section Arithmetic

variable {F o k : Nat}

theorem div_eq_add_div_iff (hF : 0 < F) : o / F = (o + k) / F ↔ o % F + k < F := by
  have h : (o + k) / F = o / F + (o % F + k) / F := by
    conv_lhs => rw [← Nat.div_add_mod o F, Nat.add_assoc, Nat.mul_add_div hF]
  rw [h, Nat.left_eq_add, Nat.div_eq_zero_iff]
  omega

theorem mod_add_eq_zero (h : o % F + k = F) : (o + k) % F = 0 := by
  conv_lhs => rw [← Nat.div_add_mod o F, Nat.add_assoc, h, Nat.mul_add_mod]
  exact Nat.mod_self F

theorem mod_add_of_lt (h : o % F + k < F) : (o + k) % F = o % F + k := by
  conv_lhs => rw [← Nat.div_add_mod o F, Nat.add_assoc, Nat.mul_add_mod]
  exact Nat.mod_eq_of_lt h

end Arithmetic

def RoomLeft (c : LogConf) (offset : Nat) : Prop :=
  offset % c.logFileSz = 0 ∨ offset % c.logFileSz + HEADER_LEN < c.logFileSz

def InOneFile (c : LogConf) (h : LogRecordHeader) : Prop :=
  h.lsn / c.logFileSz = (h.lsn + h.length - 1) / c.logFileSz

def FillsFile (c : LogConf) (h : LogRecordHeader) : Prop :=
  (h.lsn + h.length) % c.logFileSz = 0

section Positions

variable {c : LogConf} {off len : Nat}

theorem not_crossesFile_iff (hl : 0 < len) : ¬ crossesFile c off len ↔ off % c.logFileSz + len ≤ c.logFileSz := by
  have hF := c.header_lt
  rw [crossesFile, not_not, Nat.add_sub_assoc hl, div_eq_add_div_iff (by omega)]
  omega

theorem inOneFile_iff {h : LogRecordHeader} (hl : 0 < h.length) :
    InOneFile c h ↔ h.lsn % c.logFileSz + h.length ≤ c.logFileSz := by
  rw [← not_crossesFile_iff hl, crossesFile, not_not, InOneFile]

theorem RoomLeft.of_crossesFile (hr : RoomLeft c off) (hl : 0 < len) (hle : len ≤ c.logFileSz)
    (hc : crossesFile c off len) : off % c.logFileSz + HEADER_LEN < c.logFileSz := by
  rcases hr with h | h
  · exact absurd ((not_crossesFile_iff hl).2 (by omega)) (not_not_intro hc)
  · exact h

theorem fillLength_eq (hf : off % c.logFileSz + len ≤ c.logFileSz) : fillLength c off len =
      if off % c.logFileSz + len < c.logFileSz ∧ c.logFileSz ≤ off % c.logFileSz + len + HEADER_LEN then
        c.logFileSz - off % c.logFileSz else len := by
  have hF := c.header_lt
  have hi : (off + len) / c.logFileSz = (off + len + HEADER_LEN) / c.logFileSz ↔
      ¬ (off % c.logFileSz + len < c.logFileSz ∧
        c.logFileSz ≤ off % c.logFileSz + len + HEADER_LEN) := by
    rw [div_eq_add_div_iff (by omega)]
    rcases Nat.lt_or_eq_of_le hf with h | h
    · rw [mod_add_of_lt h]
      omega
    · rw [mod_add_eq_zero h]
      omega
  unfold fillLength
  by_cases h : off % c.logFileSz + len < c.logFileSz ∧
      c.logFileSz ≤ off % c.logFileSz + len + HEADER_LEN
  · rw [if_pos h, if_pos (fun heq => hi.1 heq h)]
  · rw [if_neg h, if_neg (not_not_intro (hi.2 h))]

theorem fillLength_spec (hf : off % c.logFileSz + len ≤ c.logFileSz) :
    len ≤ fillLength c off len ∧ off % c.logFileSz + fillLength c off len ≤ c.logFileSz ∧
      RoomLeft c (off + fillLength c off len) := by
  rw [fillLength_eq hf]
  split_ifs with h
  · refine ⟨by omega, by omega, Or.inl (mod_add_eq_zero ?_)⟩
    omega
  · refine ⟨le_rfl, hf, ?_⟩
    rcases Nat.lt_or_eq_of_le hf with hlt | heq
    · exact Or.inr (by rw [mod_add_of_lt hlt]; omega)
    · exact Or.inl (mod_add_eq_zero heq)

end Positions

/-! ### What the functions do with the LSNs -/

namespace LogMgr

/-- Two states of a manager agree about the LSNs. -/
structure SameLsn (s t : LogMgr) : Prop where
  lsn : t.lsn = s.lsn
  currentLsn : t.currentLsn = s.currentLsn
  incVersion : t.incVersion = s.incVersion

variable {c : LogConf} {s t u : LogMgr}

theorem SameLsn.refl (s : LogMgr) : SameLsn s s := ⟨rfl, rfl, rfl⟩

theorem SameLsn.trans (h : SameLsn s t) (h' : SameLsn t u) : SameLsn s u :=
  ⟨h'.lsn.trans h.lsn, h'.currentLsn.trans h.currentLsn, h'.incVersion.trans h.incVersion⟩

theorem sameLsn_flushPage (s : LogMgr) : SameLsn s s.flushPage := by
  unfold flushPage
  split
  · exact SameLsn.refl s
  · exact ⟨rfl, rfl, rfl⟩

theorem sameLsn_flushPages (k : Nat) (s : LogMgr) : SameLsn s (flushPage^[k] s) := by
  induction k generalizing s with
  | zero => exact SameLsn.refl s
  | succ k ih => exact (sameLsn_flushPage s).trans (ih _)

theorem sameLsn_awaitIdle {k need : Nat} (h : s.awaitIdle k need = some t) : SameLsn s t := by
  simp only [awaitIdle] at h
  split at h
  · cases h
  · cases h
    exact sameLsn_flushPages k s

theorem sameLsn_setBeginLSN (first : Bool) (s : LogMgr) : SameLsn s (s.setBeginLSN first) := by
  simp only [setBeginLSN]
  split_ifs <;> exact ⟨rfl, rfl, rfl⟩

theorem sameLsn_nextPage (c : LogConf) (s : LogMgr) : SameLsn s (s.nextPage c) := by
  simp only [nextPage]
  split_ifs <;> exact ⟨rfl, rfl, rfl⟩

theorem sameLsn_allocateInPage (first : Bool) (need : Nat) (s : LogMgr) :
    SameLsn s (s.allocateInPage c first need).2 := by
  have h := sameLsn_setBeginLSN first s
  simp only [allocateInPage]
  split_ifs
  · apply h.trans
    refine SameLsn.trans ?_ (sameLsn_nextPage c _)
    exact ⟨rfl, rfl, rfl⟩
  · exact h.trans ⟨rfl, rfl, rfl⟩

theorem sameLsn_allocateLoop {fuel pageNum need : Nat} {r : Nat × LogMgr}
    (h : allocateLoop c fuel pageNum need s = some r) : SameLsn s r.2 := by
  induction fuel generalizing pageNum need s with
  | zero => cases h
  | succ fuel ih =>
    simp only [allocateLoop] at h
    split at h
    · cases h
      exact sameLsn_allocateInPage _ _ s
    · exact (sameLsn_allocateInPage _ _ s).trans (ih h)

theorem append_lsn {k len : Nat} {r : PageMeta × LogMgr} (h : s.append c k len = some r) :
    r.2.lsn = { s.lsn with offset := s.lsn.offset + len } ∧ r.2.currentLsn = s.lsn ∧
      r.2.incVersion = s.incVersion := by
  simp only [append, allocate, bind_eq_bind, bind_eq_some_iff] at h
  obtain ⟨t, hw, a, ⟨b, hl, ha⟩, hr⟩ := h
  cases ha
  cases hr
  have hs := (sameLsn_awaitIdle hw).trans (sameLsn_allocateLoop hl)
  simp [push2SendQueue, hs.lsn, hs.incVersion]

theorem newVersion_offset (s : LogMgr) :
    s.newVersion.lsn.offset = s.lsn.offset ∧ s.newVersion.currentLsn = s.currentLsn := by
  unfold newVersion
  split_ifs <;> exact ⟨rfl, rfl⟩

end LogMgr

/-! ### Nodes that write their log -/

/-- A record of the log; `dummy` marks the records that were written to close a file. -/
structure Logged where
  head : LogRecordHeader
  dummy : Bool

def Prepared.logged (p : Prepared) : List Logged :=
  (p.dummy.map fun d => { head := d.1, dummy := true }).toList ++ [{ head := p.head, dummy := false }]

/-- A node: its log manager, and the records written so far. -/
structure Node where
  mgr : LogMgr
  log : List Logged

/-- What can happen at a node that produces the log. -/
inductive WriteStep
  | preparePages (w : Waits) (head : LogRecordHeader)
  | flushPage
  | incVersion

def Node.record (n : Node) : Option ((Rc × Option Prepared) × LogMgr) → Node
  | some ((_, some p), s) => { mgr := s, log := n.log ++ p.logged }
  | some ((_, none), s) => { n with mgr := s }
  | none => n

def Node.step (c : LogConf) (n : Node) : WriteStep → Node
  | .preparePages w head => n.record (n.mgr.preparePages c w false head)
  | .flushPage => { n with mgr := n.mgr.flushPage }
  | .incVersion => { n with mgr := { n.mgr with incVersion := true } }

def WriteStep.Fits (c : LogConf) : WriteStep → Prop
  | .preparePages _ head => 0 < head.length ∧ head.length ≤ c.logFileSz
  | _ => True

def Follows (a b : Logged) : Prop :=
  b.head.lsn = a.head.lsn + a.head.length ∧ b.head.preLsn = a.head.lsn

variable {c : LogConf} {w : Waits} {head : LogRecordHeader} {s : LogMgr}

theorem LogMgr.preparePages_new (h : ¬ c.totalSize < head.length) :
    s.preparePages c w false head = (s.awaitIdle w.start head.length).bind fun t =>
      (t.prepareNew c w head).map fun r => ((.ok, some r.1), r.2) := by
  rw [LogMgr.preparePages, if_neg h]
  cases s.awaitIdle w.start head.length with
  | none => rfl
  | some t => cases h : t.prepareNew c w head <;> simp [h]

theorem Node.step_cases (c : LogConf) (n : Node) (a : WriteStep) :
    ((n.step c a).log = n.log ∧ (n.step c a).mgr.lsn = n.mgr.lsn ∧ (n.step c a).mgr.currentLsn = n.mgr.currentLsn) ∨
      ∃ w head t r, a = .preparePages w head ∧ t.lsn = n.mgr.lsn ∧ t.currentLsn = n.mgr.currentLsn ∧
        LogMgr.prepareNew c w head t = some r ∧ n.step c a = { mgr := r.2, log := n.log ++ r.1.logged } := by
  cases a with
  | flushPage =>
    have hs := sameLsn_flushPage n.mgr
    exact Or.inl ⟨rfl, hs.lsn, hs.currentLsn⟩
  | incVersion => exact Or.inl ⟨rfl, rfl, rfl⟩
  | preparePages w head =>
    rw [show n.step c (.preparePages w head) = n.record (n.mgr.preparePages c w false head) from rfl]
    by_cases ht : c.totalSize < head.length
    · rw [LogMgr.preparePages, if_pos ht]
      exact Or.inl ⟨rfl, rfl, rfl⟩
    · rw [preparePages_new ht]
      cases hw : n.mgr.awaitIdle w.start head.length with
      | none => exact Or.inl ⟨rfl, rfl, rfl⟩
      | some t =>
        have hs := sameLsn_awaitIdle hw
        rw [bind_some]
        cases hn : t.prepareNew c w head with
        | none => exact Or.inl ⟨rfl, rfl, rfl⟩
        | some r => exact Or.inr ⟨w, head, t, r, rfl, hs.lsn, hs.currentLsn, hn, rfl⟩

def EndsWith (m : LogMgr) (h : LogRecordHeader) : Prop :=
  m.lsn.offset = h.lsn + h.length ∧ m.currentLsn = { offset := h.lsn, version := h.version }

/-- `log` was written by a node that began in the state `s` and is now in the state `m`. -/
structure LogInv (c : LogConf) (s m : LogMgr) (log : List Logged) : Prop where
  chain : log.IsChain Follows
  first : ∀ r ∈ log.head?, r.head.lsn = s.lsn.offset ∧ r.head.preLsn = s.currentLsn.offset
  start : log = [] → m.lsn.offset = s.lsn.offset ∧ m.currentLsn = s.currentLsn
  last : ∀ r ∈ log.getLast?, EndsWith m r.head
  oneFile : ∀ r ∈ log, InOneFile c r.head
  dummies : ∀ r ∈ log, r.dummy = true → HEADER_LEN ≤ r.head.length ∧ FillsFile c r.head
  room : RoomLeft c m.lsn.offset

namespace LogInv

variable {c : LogConf} {s m m' : LogMgr} {log : List Logged} {r : Logged}

theorem nil (hroom : RoomLeft c s.lsn.offset) : LogInv c s s [] where
  chain := List.isChain_nil
  first _ hr := by simp at hr
  start _ := ⟨rfl, rfl⟩
  last _ hr := by simp at hr
  oneFile _ hr := by simp at hr
  dummies _ hr := by simp at hr
  room := hroom

theorem congr (h : LogInv c s m log) (hl : m'.lsn.offset = m.lsn.offset) (hc : m'.currentLsn = m.currentLsn) :
    LogInv c s m' log where
  __ := h
  start hnil := by rw [hl, hc]; exact h.start hnil
  last r hr := by
    unfold EndsWith
    rw [hl, hc]
    exact h.last r hr
  room := by rw [hl]; exact h.room

theorem snoc (h : LogInv c s m log) (hlsn : r.head.lsn = m.lsn.offset)
    (hp : r.head.preLsn = m.currentLsn.offset) (he : EndsWith m' r.head)
    (ho : InOneFile c r.head)
    (hd : r.dummy → HEADER_LEN ≤ r.head.length ∧ FillsFile c r.head)
    (hr : RoomLeft c m'.lsn.offset) : LogInv c s m' (log ++ [r]) where
  chain := by
    refine List.isChain_append.2 ⟨h.chain, List.isChain_singleton r, fun x hx y hy => ?_⟩
    obtain rfl : r = y := by simpa using hy
    obtain ⟨hl, hc⟩ := h.last x hx
    exact ⟨hlsn.trans hl, by rw [hp, hc]⟩
  first x hx := by
    cases log with
    | nil =>
      obtain rfl : r = x := by simpa using hx
      obtain ⟨hl, hc⟩ := h.start rfl
      exact ⟨hlsn.trans hl, by rw [hp, hc]⟩
    | cons y ys => exact h.first x (by simpa using hx)
  start hnil := by simp at hnil
  last x hx := by
    obtain rfl : r = x := by simpa using hx
    exact he
  oneFile := List.forall_mem_append.2 ⟨h.oneFile, List.forall_mem_singleton.2 ho⟩
  dummies := List.forall_mem_append.2 ⟨h.dummies, List.forall_mem_singleton.2 hd⟩
  room := hr

theorem closeFile {k len : Nat} {r : Option (LogRecordHeader × PageMeta) × LogMgr} (h : LogInv c s m log)
    (hlen : 0 < len) (hle : len ≤ c.logFileSz) (hr : m.closeFile c k len = some r) :
    LogInv c s r.2 (log ++ (r.1.map fun d => { head := d.1, dummy := true }).toList) ∧
      r.2.lsn.offset % c.logFileSz + len ≤ c.logFileSz := by
  simp only [LogMgr.closeFile] at hr
  split at hr
  next hcross =>
    have hroom := h.room.of_crossesFile hlen hle hcross
    simp only [bind_eq_bind, bind_eq_some_iff] at hr
    obtain ⟨⟨pm, t⟩, ha, hr⟩ := hr
    cases hr
    obtain ⟨hl, hc, -⟩ := append_lsn ha
    have hf : (m.lsn.offset + (c.logFileSz - m.lsn.offset % c.logFileSz)) % c.logFileSz = 0 :=
      mod_add_eq_zero (by omega)
    constructor
    · apply h.snoc (r := ⟨_, true⟩) rfl rfl ⟨by rw [hl]; rfl, hc⟩
      · apply (inOneFile_iff _).2 <;> simp only [stamp] <;> omega
      · exact fun _ => ⟨by simp only [stamp]; omega, hf⟩
      · rw [hl]
        exact Or.inl hf
    · have ho : t.lsn.offset % c.logFileSz = 0 := by rw [hl]; exact hf
      simp only [ho]
      omega
  next hcross =>
    cases hr
    exact ⟨by simpa using h, (not_crossesFile_iff hlen).1 hcross⟩

theorem prepareNew {w : Waits} {head : LogRecordHeader} {r : Prepared × LogMgr} (h : LogInv c s m log)
    (hlen : 0 < head.length) (hle : head.length ≤ c.logFileSz) (hr : m.prepareNew c w head = some r) :
    LogInv c s r.2 (log ++ r.1.logged) := by
  simp only [LogMgr.prepareNew, bind_eq_bind, bind_eq_some_iff] at hr
  obtain ⟨⟨dummy, t⟩, hclose, ⟨pm, u⟩, ha, hr⟩ := hr
  cases hr
  obtain ⟨ho, hcur⟩ := m.newVersion_offset
  obtain ⟨hi, hf⟩ := (h.congr ho hcur).closeFile hlen hle hclose
  obtain ⟨hlow, hh, hroom⟩ := fillLength_spec hf
  obtain ⟨hl, hc, -⟩ := append_lsn ha
  dsimp only at hlow hh
  rw [Prepared.logged, ← List.append_assoc]
  apply hi.snoc (r := ⟨_, false⟩) rfl rfl ⟨by rw [hl]; rfl, hc⟩
  · apply (inOneFile_iff _).2 <;> simp only [stamp] <;> omega
  · exact nofun
  · rw [hl]
    exact hroom

theorem step {n : Node} {a : WriteStep} (h : LogInv c s n.mgr n.log) (ha : a.Fits c) :
    LogInv c s (n.step c a).mgr (n.step c a).log := by
  rcases n.step_cases c a with ⟨hl, hlsn, hc⟩ | ⟨w, head, t, r, rfl, hlsn, hc, hn, hs⟩
  · rw [hl]
    exact h.congr (congrArg Lsn.offset hlsn) hc
  · rw [hs]
    exact (h.congr (congrArg Lsn.offset hlsn) hc).prepareNew ha.1 ha.2 hn

end LogInv

/-! ### The version, and nodes that append rows -/

/-- The version of the next LSN is the one of the current LSN, once a record was written. -/
structure Settled (s m : LogMgr) (log : List Logged) : Prop where
  start : log = [] → m.lsn = s.lsn
  version : log ≠ [] → m.lsn.version = m.currentLsn.version

theorem Settled.step {n : Node} (a : WriteStep) (h : Settled s n.mgr n.log) :
    Settled s (n.step c a).mgr (n.step c a).log := by
  rcases n.step_cases c a with ⟨hlog, hlsn, hcur⟩ | ⟨w, head, t, r, -, -, -, hn, hs⟩
  · exact ⟨fun hl => hlsn.trans (h.start (hlog ▸ hl)), fun hl => by rw [hlsn, hcur]; exact h.version (hlog ▸ hl)⟩
  · simp only [LogMgr.prepareNew, bind_eq_bind, bind_eq_some_iff] at hn
    obtain ⟨_, -, u, ha, hr⟩ := hn
    obtain ⟨hl, hc, -⟩ := append_lsn ha
    cases hr
    rw [hs]
    exact ⟨fun hnil => by simp [Prepared.logged] at hnil, fun _ => by simp [hl, hc]⟩

/-- A node appends the rows it received one after the other, up to the first one that is refused. -/
def appendRows (c : LogConf) : List (Waits × LogRecordHeader) → LogMgr → Option (Rc × LogMgr)
  | [], s => some (.ok, s)
  | (w, head) :: rows, s => do
    let ((rc, _), s) ← s.preparePages c w true head
    if rc = .ok then appendRows c rows s else some (rc, s)

variable {s t : LogMgr} {rc : Rc}

theorem preparePages_row {p : Option Prepared} (hlen : head.length ≤ c.totalSize) (hlsn : head.lsn = s.lsn.offset)
    (h : s.preparePages c w true head = some ((rc, p), t)) :
    rc = .ok ∧ EndsWith t head ∧ t.lsn.version = head.version := by
  rw [LogMgr.preparePages, if_neg (Nat.not_lt.2 hlen), bind_eq_bind, bind_eq_some_iff] at h
  obtain ⟨u, hw, h⟩ := h
  have ho : u.lsn.offset = head.lsn := by rw [(sameLsn_awaitIdle hw).lsn, hlsn]
  simp only [if_true, ho, ne_eq, not_true_eq_false, if_false, prepareRow, bind_eq_bind, bind_eq_some_iff] at h
  obtain ⟨_, ⟨v, ha, hr⟩, h⟩ := h
  cases hr
  cases h
  obtain ⟨hl, hc, -⟩ := append_lsn ha
  simp [EndsWith, hl, hc, u.newVersion_offset.1, ho]

theorem appendRows_spec {rows : List (Waits × LogRecordHeader)} (hl : ∀ r ∈ rows, r.2.length ≤ c.totalSize)
    (hchain : rows.IsChain fun a b => b.2.lsn = a.2.lsn + a.2.length)
    (hf : ∀ r ∈ rows.head?, r.2.lsn = s.lsn.offset) (h : appendRows c rows s = some (rc, t)) :
    rc = .ok ∧ (rows = [] → t = s) ∧
      ∀ r ∈ rows.getLast?, EndsWith t r.2 ∧ t.lsn.version = r.2.version := by
  induction rows generalizing s with
  | nil =>
    cases h
    exact ⟨rfl, fun _ => rfl, fun _ hr => by simp at hr⟩
  | cons x rows ih =>
    obtain ⟨w, head⟩ := x
    cases hrow : s.preparePages c w true head with
    | none =>
      rw [appendRows, hrow] at h
      cases h
    | some a =>
      obtain ⟨⟨rc', p⟩, u⟩ := a
      obtain ⟨rfl, he, hv⟩ := preparePages_row (hl _ List.mem_cons_self) (hf _ rfl) hrow
      rw [appendRows, hrow] at h
      have hrest : ∀ r ∈ rows.head?, r.2.lsn = u.lsn.offset := by
        intro r hr
        cases rows with
        | nil => simp at hr
        | cons y rows =>
          obtain rfl : y = r := by simpa using hr
          rw [he.1]
          exact (List.isChain_cons_cons.1 hchain).1
      obtain ⟨hrc, hn, hlast⟩ := ih (fun r hr => hl r (List.mem_cons_of_mem _ hr)) hchain.tail hrest h
      refine ⟨hrc, fun hc => by simp at hc, fun r hr => ?_⟩
      cases rows with
      | nil =>
        obtain rfl : (w, head) = r := by simpa using hr
        rw [hn rfl]
        exact ⟨he, hv⟩
      | cons y rows => exact hlast r (by simpa using hr)

/-- Whatever calls of `preparePages` a node makes, its log is made of records that each lie in one log file
and follow each other; a dummy record is long enough for a header and fills its file; and a node that starts
with the same LSNs appends these records without an error and ends with the same LSNs. -/
theorem logRecords_contiguous (c : LogConf) (s : LogMgr) (hroom : RoomLeft c s.lsn.offset)
    (as : List WriteStep) (hfit : ∀ a ∈ as, a.Fits c) :
    let n := run (Node.step c) { mgr := s, log := [] } as
    (∀ r ∈ n.log, InOneFile c r.head) ∧
      n.log.IsChain Follows ∧
      (∀ r ∈ n.log.head?, r.head.lsn = s.lsn.offset ∧ r.head.preLsn = s.currentLsn.offset) ∧
      (∀ r ∈ n.log, r.dummy = true → HEADER_LEN ≤ r.head.length ∧ FillsFile c r.head) ∧
      ∀ (c' : LogConf) (s' t : LogMgr) (rows : List (Waits × LogRecordHeader)) (rc : Rc),
        s'.lsn = s.lsn → s'.currentLsn = s.currentLsn →
        rows.map Prod.snd = n.log.map Logged.head → (∀ r ∈ rows, r.2.length ≤ c'.totalSize) →
        appendRows c' rows s' = some (rc, t) →
        rc = .ok ∧ t.lsn = n.mgr.lsn ∧ t.currentLsn = n.mgr.currentLsn := by
  intro n
  obtain ⟨hinv, hset⟩ : LogInv c s n.mgr n.log ∧ Settled s n.mgr n.log := by
    refine run_invariant (I := fun m : Node => LogInv c s m.mgr m.log ∧ Settled s m.mgr m.log) (fun m a hm ha => ?_)
      ⟨LogInv.nil hroom, ⟨fun _ => rfl, fun hl => (hl rfl).elim⟩⟩ (Meets.of_forall hfit)
    exact ⟨hm.1.step ha, hm.2.step a⟩
  refine ⟨hinv.oneFile, hinv.chain, hinv.first, hinv.dummies, ?_⟩
  intro c' s' t rows rc hlsn hcur hrows hlen happ
  have hchain : rows.IsChain fun a b => b.2.lsn = a.2.lsn + a.2.length := by
    have h : (rows.map Prod.snd).IsChain fun a b => b.lsn = a.lsn + a.length := by
      rw [hrows, List.isChain_map]
      exact hinv.chain.imp fun _ _ h => h.1
    exact (List.isChain_map Prod.snd).1 h
  have hfirst : ∀ r ∈ rows.head?, r.2.lsn = s'.lsn.offset := by
    intro r hr
    have hmem : r.2 ∈ (n.log.map Logged.head).head? := by
      rw [← hrows, List.head?_map, hr]
      rfl
    rw [List.head?_map, mem_map] at hmem
    obtain ⟨x, hx, hxr⟩ := hmem
    rw [← hxr, (hinv.first x hx).1, hlsn]
  obtain ⟨hrc, hnil, hlast⟩ := appendRows_spec hlen hchain hfirst happ
  refine ⟨hrc, ?_⟩
  rcases List.eq_nil_or_concat' n.log with hl | ⟨l, r, hl⟩
  · have hrnil : rows = [] := by simpa [hl] using hrows
    rw [hnil hrnil, hlsn, hcur, hset.start hl, (hinv.start hl).2]
    exact ⟨rfl, rfl⟩
  · have hr : r ∈ n.log.getLast? := by simp [hl]
    have hmem : r.head ∈ (rows.map Prod.snd).getLast? := by
      rw [hrows, List.getLast?_map, hr]
      rfl
    rw [List.getLast?_map, mem_map] at hmem
    obtain ⟨x, hx, hxr⟩ := hmem
    obtain ⟨⟨ho, hc⟩, hv⟩ := hlast x hx
    obtain ⟨ho', hc'⟩ := hinv.last r hr
    have hv' := hset.version (by simp [hl])
    rw [hxr] at ho hc hv
    rw [hc'] at hv'
    exact ⟨Lsn.ext (ho.trans ho'.symm) (hv.trans hv'.symm), hc.trans hc'.symm⟩

def smallConf : LogConf where
  pageNum := 1
  logFileSz := 100
  pageNum_pos := by decide
  totalSize_lt := by decide
  header_lt := by decide
  element_le := by decide
  aligned := by decide

def smallMgr : LogMgr := LogMgr.new smallConf fun _ _ => 0

def noWaits : Waits := { start := 0, dummy := 0, record := 0 }

def smallWrites : List WriteStep :=
  [.preparePages noWaits { LogRecordHeader.clear with length := 40, type := 1 },
    .preparePages noWaits { LogRecordHeader.clear with length := 64, type := 1 }]

theorem logRecords_contiguous_twoFiles :
    let n := run (Node.step smallConf) { mgr := smallMgr, log := [] } smallWrites
    n.log.map (fun r => (r.head.lsn, r.head.preLsn, r.head.length, r.dummy)) =
        [(0, DPS_INVALID_LSN_OFFSET, 40, false), (40, 0, 60, true), (100, 40, 64, false)] ∧
      n.log.IsChain Follows ∧
      ∃ t, appendRows smallConf (n.log.map fun r => (noWaits, r.head)) smallMgr = some (.ok, t) ∧
        t.lsn = n.mgr.lsn ∧ t.currentLsn = n.mgr.currentLsn := by
  intro n
  have hlog : n.log.map (fun r => (r.head.lsn, r.head.preLsn, r.head.length, r.dummy)) =
      [(0, DPS_INVALID_LSN_OFFSET, 40, false), (40, 0, 60, true), (100, 40, 64, false)] := by
    decide +kernel
  have hrows : ((appendRows smallConf (n.log.map fun r => (noWaits, r.head)) smallMgr).map Prod.fst) =
      some .ok := by
    decide +kernel
  obtain ⟨⟨rc, t⟩, happ, hrc⟩ := map_eq_some_iff.1 hrows
  obtain ⟨-, hchain, -, -, hreplica⟩ :=
    logRecords_contiguous smallConf smallMgr (Or.inl rfl) smallWrites (by
      intro a ha
      simp only [smallWrites, List.mem_cons, List.not_mem_nil, or_false] at ha
      rcases ha with rfl | rfl <;> exact ⟨by decide, by decide⟩)
  obtain ⟨hok, hlsn, hcur⟩ := hreplica smallConf smallMgr t _ rc rfl rfl (by simp [n]) (by
    decide +kernel) happ
  refine ⟨hlog, hchain, t, ?_, hlsn, hcur⟩
  rw [happ, hok]

end SequoiaDB.Dps

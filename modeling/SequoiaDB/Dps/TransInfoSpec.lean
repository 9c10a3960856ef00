import SequoiaDB.Dps.TransInfo

/-!
# The table holds the open transactions

If a rollback writes a record for each operation that it undoes, then the table that is rebuilt from any log is
exact: it holds the transactions with operations that are neither committed nor undone, with the last and the
first of them.  The table is determined by these operations (`Exact.unique`), so that taking back the last
record gives the table before it.
-/

namespace SequoiaDB.Dps

open Lib Function List Option TransTable TransSystem

/-! ### Tags of transaction ids -/

namespace TransID

variable {t : TransID} {b : TransID} (h : t.Plain)

include h

theorem and_eq_zero_of_plain (hb : DPS_TRANSID_VALID_BIT &&& b = 0#64) : t &&& b = 0#64 := by
  rw [← h.1, getTransID, BitVec.and_assoc, hb, BitVec.and_zero]

theorem Plain.not_isFirstOp : ¬ t.isFirstOp :=
  not_not_intro (and_eq_zero_of_plain h (by decide))

theorem Plain.not_isRollback : ¬ t.isRollback :=
  not_not_intro (and_eq_zero_of_plain h (by decide))

theorem Plain.getTransID_or (hb : b &&& DPS_TRANSID_VALID_BIT = 0#64) : getTransID (t ||| b) = t := by
  rw [getTransID, BitVec.and_or_distrib_right, hb, BitVec.or_zero]
  exact h.1

theorem Plain.getTransID_firstOp : t.firstOp.getTransID = t := h.getTransID_or (by decide)

theorem Plain.getTransID_getRollbackID : t.getRollbackID.getTransID = t :=
  h.getTransID_or (by decide)

omit h in
theorem ne_invalid_of_getTransID (h : t.getTransID ≠ DPS_INVALID_TRANS_ID) : t ≠ DPS_INVALID_TRANS_ID := by
  rintro rfl
  exact h (by decide)

theorem Plain.firstOp_ne : t.firstOp ≠ DPS_INVALID_TRANS_ID :=
  ne_invalid_of_getTransID (by rw [h.getTransID_firstOp]; exact h.2)

theorem Plain.getRollbackID_ne : t.getRollbackID ≠ DPS_INVALID_TRANS_ID :=
  ne_invalid_of_getTransID (by rw [h.getTransID_getRollbackID]; exact h.2)

theorem Plain.isFirstOp_firstOp : t.firstOp.isFirstOp := by
  rw [isFirstOp, firstOp, BitVec.and_or_distrib_right, and_eq_zero_of_plain h (by decide)]
  decide

theorem Plain.not_isRollback_firstOp : ¬ t.firstOp.isRollback := by
  rw [isRollback, firstOp, BitVec.and_or_distrib_right, and_eq_zero_of_plain h (by decide)]
  decide

theorem Plain.isRollback_getRollbackID : t.getRollbackID.isRollback := by
  rw [isRollback, getRollbackID, BitVec.and_or_distrib_right, and_eq_zero_of_plain h (by decide)]
  decide

theorem Plain.clearFirstOpTag_firstOp : t.firstOp.clearFirstOpTag = t := by
  have hc : t &&& ~~~DPS_TRANSID_FIRSTOP_BIT = t := by
    conv_lhs => rw [← h.1]
    rw [getTransID, BitVec.and_assoc,
      show DPS_TRANSID_VALID_BIT &&& ~~~DPS_TRANSID_FIRSTOP_BIT = DPS_TRANSID_VALID_BIT by decide]
    exact h.1
  rw [clearFirstOpTag, firstOp, BitVec.and_or_distrib_right, hc,
    show DPS_TRANSID_FIRSTOP_BIT &&& ~~~DPS_TRANSID_FIRSTOP_BIT = 0#64 by decide, BitVec.or_zero]

omit h

end TransID

/-! ### Exact tables -/

/-- The table holds the transactions with operations in `live`: the last operation, and the first one in both
directions. -/
structure Exact (T : TransTable) (live : TransID → List Nat) : Prop where
  transMap : ∀ t, T.transMap t = (live t).head?
  idBegin : ∀ t, T.idBeginLsnMap t = (live t).getLast?
  beginId : ∀ l t, T.beginLsnIdMap l = some t ↔ T.idBeginLsnMap t = some l

namespace Exact

variable {T T' : TransTable} {live : TransID → List Nat} {t u : TransID} {l : List Nat} {x : Nat}

theorem empty : Exact .empty fun _ => [] where
  transMap _ := rfl
  idBegin _ := rfl
  beginId l t := by simp [TransTable.empty]

theorem unique (h : Exact T live) (h' : Exact T' live) : T = T' := by
  have hid : T.idBeginLsnMap = T'.idBeginLsnMap := funext fun t => (h.idBegin t).trans (h'.idBegin t).symm
  refine TransTable.ext (funext fun t => (h.transMap t).trans (h'.transMap t).symm) (funext fun l => ?_) hid
  refine ext fun t => ?_
  rw [h.beginId, h'.beginId, hid]

theorem setLive (h : Exact T live) (ht : T'.transMap = update T.transMap t l.head?)
    (hid : T'.idBeginLsnMap = update T.idBeginLsnMap t l.getLast?)
    (hb : ∀ k v, T'.beginLsnIdMap k = some v ↔ T'.idBeginLsnMap v = some k) :
    Exact T' (update live t l) where
  transMap v := by rw [ht, apply_update fun _ (l : List Nat) => l.head?, funext h.transMap]
  idBegin v := by rw [hid, apply_update fun _ (l : List Nat) => l.getLast?, funext h.idBegin]
  beginId := hb

variable (h : Exact T live) (hid : u.getTransID = t) (hu : u ≠ DPS_INVALID_TRANS_ID)

include h hid hu

theorem move (hx : x ≠ DPS_INVALID_LSN_OFFSET) (hh : l.head? = some x) (hl : l.getLast? = (live t).getLast?) :
    Exact (T.updateTransInfo true u x) (update live t l) := by
  have hT : T.updateTransInfo true u x = { T with transMap := update T.transMap t (some x) } := by
    simp [updateTransInfo, hid, hu, hx]
  rw [hT]
  refine h.setLive (by rw [hh]) ?_ h.beginId
  rw [hl, ← h.idBegin, update_eq_self]

theorem drop : Exact ((T.delBeginLsn u).updateTransInfo true u DPS_INVALID_LSN_OFFSET) (update live t []) := by
  have hupd : ∀ S : TransTable, S.updateTransInfo true u DPS_INVALID_LSN_OFFSET =
      { S with transMap := update S.transMap t none } := by
    intro S
    simp [updateTransInfo, hid, hu]
  rw [hupd]
  cases hb : T.idBeginLsnMap t with
  | none =>
    have hd : T.delBeginLsn u = T := by simp [delBeginLsn, hid, hb]
    rw [hd]
    refine h.setLive rfl ?_ h.beginId
    rw [getLast?_nil, ← hb, update_eq_self]
  | some b =>
    have hd : T.delBeginLsn u = { T with
          beginLsnIdMap := update T.beginLsnIdMap b none
          idBeginLsnMap := update T.idBeginLsnMap t none } := by
      simp [delBeginLsn, hid, hb]
    rw [hd]
    refine h.setLive rfl rfl fun k v => ?_
    -- the pair of `t` and `b` goes, and neither of them belongs to another pair
    have hi := h.beginId k v
    have hp := (h.beginId b t).2 hb
    by_cases hv : v = t
    · by_cases hk : k = b
      · simp [hv, hk]
      · simp only [hv, update_self, update_of_ne hk]
        rw [hv, hb] at hi
        simp [hi, Ne.symm hk]
    · by_cases hk : k = b
      · have hne : T.idBeginLsnMap v ≠ some b := by
          intro heq
          have := (h.beginId b v).2 heq
          rw [hp] at this
          exact hv (some.inj this).symm
        simp [hk, update_of_ne hv, hne]
      · simpa only [update_of_ne hv, update_of_ne hk] using hi

theorem restore {b : Nat} (hx : x ≠ DPS_INVALID_LSN_OFFSET) (hn : live t = []) (hh : l.head? = some x) (hl : l.getLast? = some b)
    (hf : ∀ v, T.idBeginLsnMap v ≠ some b) :
    Exact ((T.addBeginLsn b u).updateTransInfo true u x) (update live t l) := by
  have hT : (T.addBeginLsn b u).updateTransInfo true u x =
      { transMap := update T.transMap t (some x)
        beginLsnIdMap := update T.beginLsnIdMap b (some t)
        idBeginLsnMap := update T.idBeginLsnMap t (some b) } := by
    simp [updateTransInfo, addBeginLsn, hid, hu, hx]
  have ht : T.idBeginLsnMap t = none := by rw [h.idBegin, hn]; rfl
  rw [hT]
  refine h.setLive (by rw [hh]) (by rw [hl]) fun k v => ?_
  have hi := h.beginId k v
  by_cases hv : v = t
  · by_cases hk : k = b
    · simp [hv, hk]
    · rw [hv, ht] at hi
      simp only [hv, update_self, update_of_ne hk]
      simp [hi, Ne.symm hk]
  · by_cases hk : k = b
    · simp [hk, update_of_ne hv, hf v, Ne.symm hv]
    · simpa only [update_of_ne hv, update_of_ne hk] using hi

end Exact

/-! ### The records, forwards and backwards -/

/-- The record leads from the operations `live` to the operations `live'`, and back. -/
structure Moves (r : TransRecord) (live live' : TransID → List Nat) : Prop where
  save : ∀ T, Exact T live → Exact (T.saveTransInfoFromLog true r) live'
  back : ∀ T, Exact T live' →
    (T.rollbackTransInfoFromLog true r).1 = true ∧ Exact (T.rollbackTransInfoFromLog true r).2 live

namespace Moves

variable {r : TransRecord} {live live' : TransID → List Nat} {t : TransID} {l : List Nat} {x y n : Nat} {T : TransTable}

theorem inverse (h : Moves r live live') (hT : Exact T live) :
    (T.saveTransInfoFromLog true r).rollbackTransInfoFromLog true r = (true, T) := by
  obtain ⟨hok, hb⟩ := h.back _ (h.save T hT)
  exact Prod.ext hok (hb.unique hT)

variable {u : TransID} {b : Nat} (hid : u.getTransID = t) (hu : u ≠ DPS_INVALID_TRANS_ID)

include hid hu

theorem moved (hs : ∀ T : TransTable, T.saveTransInfoFromLog true r = T.updateTransInfo true u x)
    (hb : ∀ T : TransTable, T.rollbackTransInfoFromLog true r = (true, T.updateTransInfo true u y))
    (hx : x ≠ DPS_INVALID_LSN_OFFSET) (hy : y ≠ DPS_INVALID_LSN_OFFSET) (hl : l.head? = some x)
    (ho : (live t).head? = some y) (hlast : l.getLast? = (live t).getLast?) : Moves r live (update live t l) where
  save T hT := hs T ▸ hT.move hid hu hx hl hlast
  back T hT := by
    have hm := hT.move hid hu hy ho (by rw [update_self, hlast])
    rw [update_idem, update_eq_self] at hm
    rw [hb]
    exact ⟨rfl, hm⟩

theorem finished (hs : ∀ T : TransTable, T.saveTransInfoFromLog true r =
      (T.delBeginLsn u).updateTransInfo true u DPS_INVALID_LSN_OFFSET)
    (hback : ∀ T : TransTable, T.rollbackTransInfoFromLog true r = (true, (T.addBeginLsn b u).updateTransInfo true u y))
    (hy : y ≠ DPS_INVALID_LSN_OFFSET) (ho : (live t).head? = some y) (hb : (live t).getLast? = some b)
    (hf : ∀ v, v ≠ t → b ∉ live v) : Moves r live (update live t []) where
  save T hT := hs T ▸ hT.drop hid hu
  back T hT := by
    have hfirst : ∀ v, T.idBeginLsnMap v ≠ some b := by
      intro v heq
      rw [hT.idBegin] at heq
      by_cases hv : v = t
      · rw [hv, update_self] at heq
        cases heq
      · rw [update_of_ne hv] at heq
        exact hf v hv (List.mem_of_getLast? heq)
    have hr := hT.restore hid hu hy (update_self ..) ho hb hfirst
    rw [update_idem, update_eq_self] at hr
    rw [hback]
    exact ⟨rfl, hr⟩

omit hid hu

theorem other (h : r.transID = none) : Moves r live live where
  save T hT := by rwa [saveTransInfoFromLog, h]
  back T hT := by
    rw [rollbackTransInfoFromLog, h]
    exact ⟨rfl, hT⟩

theorem firstOp (ht : t.Plain) (hid : r.transID = some t.firstOp) (hc : r.type ≠ .tsCommit) (hn : r.lsn = n)
    (hp : r.preTrans = none) (hv : n ≠ DPS_INVALID_LSN_OFFSET) (hnil : live t = [])
    (hf : ∀ v, n ∉ live v) : Moves r live (update live t [n]) where
  save T hT := by
    have hs : T.saveTransInfoFromLog true r = (T.addBeginLsn n t.firstOp).updateTransInfo true t.firstOp n := by
      simp [saveTransInfoFromLog, hid, hc, hn, hv, ht.firstOp_ne, ht.isFirstOp_firstOp, ht.not_isRollback_firstOp]
    rw [hs]
    refine hT.restore ht.getTransID_firstOp ht.firstOp_ne hv hnil rfl rfl fun v heq => ?_
    rw [hT.idBegin] at heq
    exact hf v (List.mem_of_getLast? heq)
  back T hT := by
    have hb : T.rollbackTransInfoFromLog true r =
        (true, (T.delBeginLsn t.firstOp).updateTransInfo true t.firstOp DPS_INVALID_LSN_OFFSET) := by
      simp [rollbackTransInfoFromLog, hid, hc, hp, ht.firstOp_ne, ht.isFirstOp_firstOp, ht.not_isRollback_firstOp]
    have hd := hT.drop ht.getTransID_firstOp ht.firstOp_ne
    rw [update_idem, ← hnil, update_eq_self] at hd
    rw [hb]
    exact ⟨rfl, hd⟩

theorem op (ht : t.Plain) (hid : r.transID = some t) (hc : r.type ≠ .tsCommit) (hn : r.lsn = n)
    (hp : r.preTrans = some y) (hv : n ≠ DPS_INVALID_LSN_OFFSET) (hy : y ≠ DPS_INVALID_LSN_OFFSET)
    (hl : live t = y :: l) : Moves r live (update live t (n :: y :: l)) := by
  refine moved ht.1 ht.2 (fun T => ?_) (fun T => ?_) hv hy rfl (by rw [hl]; rfl) (by rw [hl, getLast?_cons_cons])
  · simp [saveTransInfoFromLog, hid, hc, hn, hv, ht.2, ht.not_isFirstOp, ht.not_isRollback]
  · simp [rollbackTransInfoFromLog, hid, hc, hp, ht.2, ht.not_isFirstOp, ht.not_isRollback]

theorem commit (ht : t.Plain) (hid : r.transID = some t) (hc : r.type = .tsCommit) (hp : r.preTrans = some y)
    (hf : r.firstTrans = some b) (hy : y ≠ DPS_INVALID_LSN_OFFSET) (hl : live t = y :: l)
    (hb : (y :: l).getLast? = some b) (hfresh : ∀ v, v ≠ t → b ∉ live v) :
    Moves r live (update live t []) := by
  refine finished ht.1 ht.2 (fun T => ?_) (fun T => ?_) hy (by rw [hl]; rfl) (hl ▸ hb) hfresh
  · simp [saveTransInfoFromLog, hid, hc, ht.2, ht.not_isRollback]
  · simp [rollbackTransInfoFromLog, hid, hc, hp, hf, ht.2, hy]

theorem undo (ht : t.Plain) (hid : r.transID = some t.getRollbackID) (hc : r.type ≠ .tsCommit)
    (hp : r.preTrans = some y) (hr : r.relatedTrans = some x) (hx : x ≠ DPS_INVALID_LSN_OFFSET)
    (hy : y ≠ DPS_INVALID_LSN_OFFSET) (hl : live t = x :: y :: l) :
    Moves r live (update live t (y :: l)) := by
  refine moved ht.getTransID_getRollbackID ht.getRollbackID_ne (fun T => ?_) (fun T => ?_) hy hx rfl (by rw [hl]; rfl)
    (by rw [hl, getLast?_cons_cons])
  · simp [saveTransInfoFromLog, hid, hp, hy, ht.getRollbackID_ne, ht.isRollback_getRollbackID]
  · simp [rollbackTransInfoFromLog, hid, hc, hp, hr, hy, ht.getRollbackID_ne, ht.isRollback_getRollbackID]

theorem undoFirst (ht : t.Plain) (hid : r.transID = some t.getRollbackID) (hc : r.type ≠ .tsCommit)
    (hp : r.preTrans = none) (hr : r.relatedTrans = some x) (hx : x ≠ DPS_INVALID_LSN_OFFSET)
    (hl : live t = [x]) (hf : ∀ v, v ≠ t → x ∉ live v) : Moves r live (update live t []) := by
  refine finished ht.getTransID_getRollbackID ht.getRollbackID_ne (fun T => ?_) (fun T => ?_) hx (by rw [hl]; rfl)
    (by rw [hl]; rfl) hf
  · simp [saveTransInfoFromLog, hid, hp, ht.getRollbackID_ne, ht.isRollback_getRollbackID]
  · simp [rollbackTransInfoFromLog, hid, hc, hp, hr, ht.getRollbackID_ne, ht.isRollback_getRollbackID]

end Moves

/-! ### The log of all transactions -/

namespace TransTable

theorem ofLog_append (active : Bool) (log : List TransRecord) (r : TransRecord) :
    ofLog active (log ++ [r]) = (ofLog active log).saveTransInfoFromLog active r := by
  simp [ofLog]

structure SameBegin (T T' : TransTable) : Prop where
  beginId : T.beginLsnIdMap = T'.beginLsnIdMap
  idBegin : T.idBeginLsnMap = T'.idBeginLsnMap

namespace SameBegin

variable {T T' : TransTable} {u : TransID} {x : Nat}

theorem add (h : SameBegin T T') : SameBegin (T.addBeginLsn x u) (T'.addBeginLsn x u) := by
  constructor <;> simp [addBeginLsn, h.beginId, h.idBegin]

theorem del (h : SameBegin T T') : SameBegin (T.delBeginLsn u) (T'.delBeginLsn u) := by
  simp only [delBeginLsn, h.idBegin]
  split
  · exact h
  · exact ⟨by simp [h.beginId], rfl⟩

theorem updateTransInfo_self (a : Bool) (T : TransTable) : SameBegin (T.updateTransInfo a u x) T := by
  unfold updateTransInfo
  split <;> exact ⟨rfl, rfl⟩

variable {a a' : Bool}

theorem update (h : SameBegin T T') : SameBegin (T.updateTransInfo a u x) (T'.updateTransInfo a' u x) where
  beginId := by rw [(updateTransInfo_self a T).beginId, (updateTransInfo_self a' T').beginId, h.beginId]
  idBegin := by rw [(updateTransInfo_self a T).idBegin, (updateTransInfo_self a' T').idBegin, h.idBegin]

theorem save {r : TransRecord} (h : SameBegin T T') :
    SameBegin (T.saveTransInfoFromLog a r) (T'.saveTransInfoFromLog a' r) := by
  unfold saveTransInfoFromLog
  split
  · exact h
  · split
    · exact h
    · apply SameBegin.update
      split_ifs
      all_goals first | exact h.add.del | exact h.add | exact h.del | exact h

end SameBegin

theorem sameBegin_ofLog (a a' : Bool) (log : List TransRecord) : SameBegin (ofLog a log) (ofLog a' log) := by
  induction log using reverseRecOn with
  | nil => exact ⟨rfl, rfl⟩
  | append_singleton log r ih =>
    rw [ofLog_append, ofLog_append]
    exact ih.save

end TransTable

/-- Following PRETRANS from the first of the LSNs on gives the others, all of them records of `t`. -/
def Chained (log : List TransRecord) (t : TransID) : List Nat → Prop
  | [] => True
  | x :: l =>
    (∃ r, log.find? (fun r => r.lsn = x) = some r ∧ r.transID.map TransID.getTransID = some t ∧
      r.preTrans = l.head?) ∧ Chained log t l

theorem Chained.append {log : List TransRecord} {t : TransID} {l : List Nat} (h : Chained log t l)
    (r : TransRecord) : Chained (log ++ [r]) t l := by
  induction l with
  | nil => trivial
  | cons x l ih =>
    obtain ⟨⟨r', hr', hr⟩, hl⟩ := h
    refine ⟨⟨r', ?_, hr⟩, ih hl⟩
    rw [List.find?_append, hr']
    rfl

def SessionOk (t : TransID) (x : TransSession) (l : List Nat) : Prop :=
  match x.phase with
  | .idle => l = []
  | .running => t.Plain ∧ x.curLsn = l.head?.getD DPS_INVALID_LSN_OFFSET ∧
      x.transID = if l = [] then t.firstOp else t
  | .rolling => l ≠ [] ∧ x.curLsn = l.head?.getD DPS_INVALID_LSN_OFFSET ∧ x.transID = t.getRollbackID
  | .abandoned => True

namespace TransSystem

/-- The log, the sessions and the operations fit together. -/
structure Inv (s : TransSystem) : Prop where
  lsn_lt : ∀ r ∈ s.log, r.lsn < s.nextLsn
  live_lt : ∀ t, ∀ x ∈ s.live t, x < s.nextLsn ∧ x < DPS_INVALID_LSN_OFFSET
  plain : ∀ t, s.live t ≠ [] → t.Plain
  disjoint : ∀ t v x, x ∈ s.live t → x ∈ s.live v → t = v
  chained : ∀ t, Chained s.log t (s.live t)
  session : ∀ t, SessionOk t (s.sessions t) (s.live t)
  exact : Exact (ofLog true s.log) s.live
  inverse : ∀ l r l', s.log = l ++ r :: l' →
    (ofLog true (l ++ [r])).rollbackTransInfoFromLog true r = (true, ofLog true l)

namespace Inv

variable {s : TransSystem} {t : TransID}

theorem initial : Inv .initial where
  lsn_lt r hr := by cases hr
  live_lt _ x hx := by cases hx
  plain _ h := absurd rfl h
  disjoint _ _ x hx := by cases hx
  chained _ := trivial
  session _ := rfl
  exact := Exact.empty
  inverse l r l' h := by
    have := congrArg List.length h
    simp [TransSystem.initial] at this

variable {x : TransSession}

theorem setSession (h : s.Inv) (hx : SessionOk t x (s.live t)) : (s.setSession t x).Inv where
  __ := h
  session := (forall_update_iff s.sessions fun v x => SessionOk v x (s.live v)).2 ⟨hx, fun v _ => h.session v⟩

variable {r : TransRecord} {body : Nat} (h : s.Inv)

include h

theorem write {l : List Nat} (hl : r.lsn = s.nextLsn) (hval : s.nextLsn < DPS_INVALID_LSN_OFFSET)
    (hm : Moves r s.live (update s.live t l)) (hs : ∀ y ∈ l, y ∈ s.live t ∨ y = s.nextLsn)
    (hp : l ≠ [] → t.Plain) (hc : Chained (s.log ++ [r]) t l) (hx : SessionOk t x l) :
    (((s.write body r).setSession t x).setLive t l).Inv := by
  have hheader : 0 < HEADER_LEN := by decide
  refine ⟨?_, ?_, ?_, ?_, ?_, ?_, ?_, ?_⟩
  · intro r' hr'
    simp only [setLive, TransSystem.setSession, TransSystem.write] at hr' ⊢
    rcases mem_append.1 hr' with hr' | hr'
    · have := h.lsn_lt r' hr'
      omega
    · rw [mem_singleton.1 hr', hl]
      omega
  · have hmono : ∀ v, ∀ y ∈ s.live v, y < s.nextLsn + HEADER_LEN + body ∧ y < DPS_INVALID_LSN_OFFSET := by
      intro v y hy
      have := h.live_lt v y hy
      omega
    refine (forall_update_iff s.live fun _ l => ∀ y ∈ l, y < _ ∧ y < _).2 ⟨fun y hy => ?_, fun v _ => hmono v⟩
    rcases hs y hy with hy | rfl
    · exact hmono t y hy
    · dsimp only [setLive, TransSystem.setSession, TransSystem.write]
      omega
  · exact (forall_update_iff s.live fun v l => l ≠ [] → v.Plain).2 ⟨hp, fun v _ => h.plain v⟩
  · -- the new record has an LSN that no operation has
    have ho : ∀ v y, v ≠ t → y ∈ l → y ∉ s.live v := by
      intro v y hv hy hmem
      rcases hs y hy with hy | rfl
      · exact hv (h.disjoint v t y hmem hy)
      · exact absurd (h.live_lt v _ hmem).1 (Nat.lt_irrefl _)
    intro v w y hv hw
    by_cases hvt : v = t
    · by_cases hwt : w = t
      · rw [hvt, hwt]
      · simp only [setLive, hvt, update_self] at hv
        simp only [setLive, update_of_ne hwt] at hw
        exact absurd hw (ho w y hwt hv)
    · simp only [setLive, update_of_ne hvt] at hv
      by_cases hwt : w = t
      · simp only [setLive, hwt, update_self] at hw
        exact absurd hv (ho v y hvt hw)
      · simp only [setLive, update_of_ne hwt] at hw
        exact h.disjoint v w y hv hw
  · exact (forall_update_iff s.live fun v l => Chained (s.log ++ [r]) v l).2 ⟨hc, fun v _ => (h.chained v).append r⟩
  · intro v
    show SessionOk v (update s.sessions t x v) (update s.live t l v)
    by_cases hv : v = t
    · rwa [hv, update_self, update_self]
    · rw [update_of_ne hv, update_of_ne hv]
      exact h.session v
  · show Exact (ofLog true (s.log ++ [r])) _
    rw [ofLog_append]
    exact hm.save _ h.exact
  · intro l1 r' l2 hlog
    rcases eq_nil_or_concat' l2 with rfl | ⟨l3, r'', rfl⟩
    · obtain ⟨rfl, hr⟩ := append_inj' (show s.log ++ [r] = l1 ++ [r'] from hlog) rfl
      obtain rfl := List.cons.inj hr |>.1
      rw [ofLog_append]
      exact hm.inverse h.exact
    · have hlog' : s.log ++ [r] = (l1 ++ r' :: l3) ++ [r''] := by
        rw [append_assoc]
        exact hlog
      exact h.inverse l1 r' l3 (append_inj' hlog' rfl).1

theorem find_new (hl : r.lsn = s.nextLsn) : (s.log ++ [r]).find? (fun r => r.lsn = s.nextLsn) = some r := by
  have hn : s.log.find? (fun r => r.lsn = s.nextLsn) = none := by
    rw [List.find?_eq_none]
    intro r' hr'
    have := h.lsn_lt r' hr'
    simp only [decide_eq_true_eq]
    omega
  rw [List.find?_append, hn]
  simp [hl]

theorem ne_invalid {x : Nat} (hx : x ∈ s.live t) : x ≠ DPS_INVALID_LSN_OFFSET :=
  ((h.live_lt t x hx).2).ne

theorem running (hp : (s.sessions t).phase = .running) : t.Plain ∧
    (s.live t = [] ∧ (s.sessions t).curLsn = DPS_INVALID_LSN_OFFSET ∧ (s.sessions t).transID = t.firstOp ∨
      ∃ y l, s.live t = y :: l ∧ y ≠ DPS_INVALID_LSN_OFFSET ∧ (s.sessions t).curLsn = y ∧ (s.sessions t).transID = t) := by
  have hx := h.session t
  rw [SessionOk, hp] at hx
  refine ⟨hx.1, ?_⟩
  cases hl : s.live t with
  | nil => simpa [hl] using hx.2
  | cons y l => exact .inr ⟨y, l, rfl, h.ne_invalid (t := t) (by simp [hl]), by simpa [hl] using hx.2⟩

theorem begin : (s.begin t).Inv := by
  unfold TransSystem.begin
  split_ifs with ht
  · have hn := h.session t
    rw [SessionOk, ht.2] at hn
    refine h.setSession ?_
    rw [show s.live t = [] from hn]
    exact ⟨ht.1, rfl, rfl⟩
  · exact h

theorem op (hval : s.nextLsn < DPS_INVALID_LSN_OFFSET) {kind : TransOp} : (s.op t kind body).Inv := by
  simp only [TransSystem.op]
  by_cases hp : (s.sessions t).phase = .running
  · rw [if_pos hp]
    obtain ⟨hplain, ⟨hl, hc, hid⟩ | ⟨y, l, hl, hy, hc, hid⟩⟩ := h.running hp
    · rw [hl]
      refine h.write rfl hval ?_ (by simp) (fun _ => hplain) ?_ ?_
      · exact Moves.firstOp hplain (by rw [opRecord, hid]) kind.type_ne rfl (by rw [opRecord, hc]; rfl) hval.ne hl
          fun v hv => absurd (h.live_lt v _ hv).1 (Nat.lt_irrefl _)
      · refine ⟨⟨_, h.find_new rfl, ?_, ?_⟩, trivial⟩
        · simp [opRecord, hid, hplain.getTransID_firstOp]
        · simp [opRecord, hc, pushed]
      · simp [SessionOk, hp, hplain, hid, hplain.isFirstOp_firstOp, hplain.clearFirstOpTag_firstOp]
    · rw [hl]
      refine h.write rfl hval ?_ (by simp [hl]; tauto) (fun _ => hplain) ?_ ?_
      · exact Moves.op hplain (by rw [opRecord, hid]) kind.type_ne rfl (by rw [opRecord, hc, pushed, if_neg hy])
          hval.ne hy hl
      · refine ⟨⟨_, h.find_new rfl, ?_, ?_⟩, ?_⟩
        · simp [opRecord, hid, hplain.1]
        · simp [opRecord, hc, pushed, hy]
        · have := (h.chained t).append (s.opRecord (s.sessions t) kind)
          rwa [hl] at this
      · simp [SessionOk, hp, hplain, hid, hplain.not_isFirstOp]
  · rw [if_neg hp]
    exact h

theorem commit (hval : s.nextLsn < DPS_INVALID_LSN_OFFSET) : (s.commit t body).Inv := by
  simp only [TransSystem.commit]
  by_cases hp : (s.sessions t).phase = .running
  · rw [if_pos hp]
    obtain ⟨hplain, ⟨hl, hc, hid⟩ | ⟨y, l, hl, hy, hc, hid⟩⟩ := h.running hp
    · rw [if_pos hc]
      exact h.setSession hl
    · obtain ⟨b, hb⟩ : ∃ b, (y :: l).getLast? = some b := ⟨_, getLast?_eq_some_getLast (by simp)⟩
      rw [if_neg (by rwa [hc])]
      have hbegin : (ofLog false s.log).getBeginLsn t = b := by
        rw [getBeginLsn, (sameBegin_ofLog false true s.log).idBegin, hplain.1, h.exact.idBegin, hl, hb]
        rfl
      refine h.write rfl hval ?_ (by simp) (fun hne => absurd rfl hne) trivial rfl
      refine Moves.commit hplain (by rw [commitRecord, hid]) rfl (by rw [commitRecord, hc])
        (by rw [commitRecord, hid, hbegin]) hy hl hb fun v hv hm => ?_
      exact hv (h.disjoint v t b hm (hl ▸ List.mem_of_getLast? hb))
  · rw [if_neg hp]
    exact h

theorem startRollback : (s.startRollback t).Inv := by
  simp only [TransSystem.startRollback]
  by_cases hp : (s.sessions t).phase = .running
  · rw [if_pos hp]
    obtain ⟨-, ⟨hl, hc, -⟩ | ⟨y, l, hl, hy, hc, hid⟩⟩ := h.running hp
    · rw [if_pos hc]
      exact h.setSession hl
    · rw [if_neg (by rwa [hc])]
      refine h.setSession ?_
      rw [hl]
      exact ⟨by simp, hc, by rw [hid]⟩
  · rw [if_neg hp]
    exact h

theorem interrupt : (s.interrupt t).Inv := by
  simp only [TransSystem.interrupt]
  split_ifs
  · exact h
  · exact h.setSession trivial

theorem resume : (s.resume t).Inv := by
  unfold TransSystem.resume
  split_ifs
  · have hm := h.exact.transMap t
    split
    next hnone =>
      refine h.setSession (head?_eq_none_iff.1 ?_)
      rw [← hm, hnone]
    next lsn hsome =>
      rw [hsome] at hm
      refine h.setSession ⟨?_, ?_, rfl⟩
      · intro hn
        rw [hn] at hm
        cases hm
      · rw [← hm]
        rfl
  · exact h

theorem undo (hval : s.nextLsn < DPS_INVALID_LSN_OFFSET) {meets : UndoMeets}
    (hlets : ∀ r ∈ s.search (s.sessions t).curLsn, meets.Lets r.type) :
    (s.undo t meets body).Inv := by
  simp only [TransSystem.undo]
  by_cases hp : (s.sessions t).phase = .rolling
  · rw [if_pos hp]
    have hx := h.session t
    rw [SessionOk, hp] at hx
    obtain ⟨hne, hcur, hid⟩ := hx
    have hplain := h.plain t hne
    have hc := h.chained t
    obtain ⟨x, l, hl⟩ := exists_cons_of_ne_nil hne
    have hx : x ≠ DPS_INVALID_LSN_OFFSET := h.ne_invalid (t := t) (by simp [hl])
    have ho : ∀ v, v ≠ t → x ∉ s.live v :=
      fun v hv hm => hv (h.disjoint v t x hm (by simp [hl]))
    rw [hl] at hcur hc
    rw [head?_cons, getD_some] at hcur
    obtain ⟨⟨r, hf, ht, hpre⟩, hr⟩ := hc
    have hs : s.search (s.sessions t).curLsn = some r := by rw [hcur]; exact hf
    rw [hs]
    simp only [ht, if_true, undoWith, hpre, rollback_ok (hlets r hs)]
    cases (rollback r.type meets).wrote with
    | false => simpa using h
    | true =>
      simp only [if_true]
      rw [show (s.write body (s.undoRecord (s.sessions t) r.type.inverse (l.head?.getD DPS_INVALID_LSN_OFFSET)
        (s.sessions t).curLsn)).live t = s.live t from rfl, hl, tail_cons]
      cases l with
      | nil =>
        refine h.write rfl hval ?_ (by simp) (fun hne => absurd rfl hne) trivial rfl
        exact Moves.undoFirst hplain (by rw [undoRecord, hid]) (TransOp.type_ne _) rfl
          (by rw [undoRecord, hcur]; exact if_neg hx) hx hl ho
      | cons y l =>
        have hy : y ≠ DPS_INVALID_LSN_OFFSET := h.ne_invalid (t := t) (by simp [hl])
        refine h.write rfl hval ?_ (fun z hz => Or.inl (hl ▸ mem_cons_of_mem x hz)) (fun _ => hplain) (hr.append _) ?_
        · exact Moves.undo hplain (by rw [undoRecord, hid]) (TransOp.type_ne _) (if_neg hy)
            (by rw [undoRecord, hcur]; exact if_neg hx) hx hy hl
        · simp [SessionOk, hy, hid]
  · rw [if_neg hp]
    exact h

theorem other (hv : s.nextLsn < DPS_INVALID_LSN_OFFSET) : (s.other body).Inv := by
  have hs : (((s.write body ⟨s.nextLsn, .other, none, none, none, none⟩).setSession 0
      (s.sessions 0)).setLive 0 (s.live 0)).Inv := by
    refine h.write rfl hv ?_ (fun y hy => Or.inl hy) (h.plain 0) ((h.chained 0).append _) (h.session 0)
    rw [update_eq_self]
    exact Moves.other rfl
  simpa only [TransSystem.other, setLive, TransSystem.setSession, TransSystem.write, update_eq_self] using hs

theorem step {a : TransAct} (ha : s.Recorded a) : (s.step a).Inv := by
  unfold TransSystem.step
  split
  next hval =>
    cases a with
    | begin t => exact h.begin
    | op t kind body => exact h.op hval
    | commit t body => exact h.commit hval
    | startRollback t => exact h.startRollback
    | undo t meets body => exact h.undo hval ha
    | interrupt t => exact h.interrupt
    | resume t => exact h.resume
    | other body => exact h.other hval
  next => exact h

omit h

end Inv

end TransSystem

/-- If a rollback always meets what lets it take back the next operation, the table that is rebuilt from the log
holds exactly the transactions with operations that are neither committed nor undone, with the last and the first
of them; and taking back the last record of any part of the log gives the table without it. -/
theorem transInfo_exact (as : List TransAct)
    (has : Meets TransSystem.Recorded TransSystem.step .initial as) :
    let s := run TransSystem.step .initial as
    Exact (ofLog true s.log) s.live ∧
      ∀ l r l', s.log = l ++ r :: l' →
        (ofLog true (l ++ [r])).rollbackTransInfoFromLog true r = (true, ofLog true l) := by
  intro s
  have hinv : s.Inv := run_invariant (fun _ _ h ha => h.step ha) TransSystem.Inv.initial has
  exact ⟨hinv.exact, hinv.inverse⟩

def twoTransactions : List TransAct :=
  [.begin 1, .begin 2, .op 1 .insert 40, .op 2 .delete 40, .op 1 (.update false) 40, .commit 2 32,
    .startRollback 1, .undo 1 .fits 40]

theorem transInfo_exact_twoTransactions :
    Meets TransSystem.Recorded TransSystem.step .initial twoTransactions ∧
      (run TransSystem.step .initial twoTransactions).live 1 = [0] ∧
      (TransTable.ofLog true (run TransSystem.step .initial twoTransactions).log).transMap 1 = some 0 := by
  have hmeets : Meets TransSystem.Recorded TransSystem.step .initial twoTransactions := by decide +kernel
  have hlive : (run TransSystem.step .initial twoTransactions).live 1 = [0] := by decide +kernel
  refine ⟨hmeets, hlive, ?_⟩
  rw [(transInfo_exact twoTransactions hmeets).1.transMap, hlive]
  rfl

def replacedRecord : List TransAct :=
  [.begin 1, .op 1 .delete 40, .other 40, .startRollback 1, .undo 1 .dupKey 40]

/-- The rollback has come to its end, but the table that is rebuilt from the log still holds the transaction. -/
theorem transInfo_skippedUndo :
    (run TransSystem.step .initial replacedRecord).live 1 = [] ∧
      ((run TransSystem.step .initial replacedRecord).sessions 1).phase = .idle ∧
      (TransTable.ofLog true (run TransSystem.step .initial replacedRecord).log).transMap 1 = some 0 := by
  decide +kernel

end SequoiaDB.Dps

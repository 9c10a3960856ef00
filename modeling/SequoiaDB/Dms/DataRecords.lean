import SequoiaDB.Dms.DataTiled

/-!
# The records of a collection

What a scan of the collection reads: the address and the object of every record that is not being deleted.  The lemmas
say how an operation changes that and the counters, for operations in which nothing but the indexes and the search for
space can fail.
-/

namespace SequoiaDB.Dms.Data

open SequoiaDB.Lib Store

variable {O ι : Type*} {cfg : Config O} {idx : IndexSU O ι} {st st' : Store O} {g g' : Shape} {p q t : RID} {obj : O}

/-! ### Scans -/

def HasRecord (st : Store O) (rid : RID) (obj : O) : Prop :=
  IsRecord st rid ∧ (st.records rid).deleting = false ∧ (st.dataRecord rid).data.map RecordData.obj = some obj

theorem HasRecord.unique {obj' : O} (h : HasRecord st p obj) (h' : HasRecord st p obj') : obj' = obj :=
  Option.some.inj (h'.2.2.symm.trans h.2.2)

theorem scanned_of_chain {e : Nat} {l : List Nat} {x : Nat} {prev : Option Nat} (hx : Scanned st e x)
    (h : ChainTo (fun o => (st.records ⟨e, o⟩).nextOffset) (fun o => (st.records ⟨e, o⟩).previousOffset) prev (x :: l)
      none) : ∀ o ∈ x :: l, Scanned st e o := by
  induction l generalizing x prev with
  | nil => exact List.forall_mem_singleton.2 hx
  | cons y l ih => exact List.forall_mem_cons.2 ⟨hx, ih (.next hx h.2.1) h.2.2⟩

variable {hs : List RID}

theorem Holding.isRecord_iff (h : Holding cfg st g hs) : IsRecord st p ↔ IsTile st g p ∧ g.use p = .live := by
  refine ⟨h.links.live_of_isRecord, fun ⟨hp, hu⟩ => ⟨hp.1, ?_⟩⟩
  have hm := (h.links.mem _ hp.1 p.offset).2 ⟨hp.2, hu⟩
  have hf := h.links.first _ hp.1
  have hc := h.links.chain _ hp.1
  cases hl : g.links p.extent with
  | nil =>
    rw [hl] at hm
    cases hm
  | cons x l =>
    rw [hl] at hm hf hc
    exact scanned_of_chain (.first hf) hc _ hm

variable {hs hs' : List RID}

theorem Keeps.hasRecord_iff {X : RID → Prop} (hk : Keeps X st g st' g') (h : Holding cfg st g hs)
    (h' : Holding cfg st' g' hs') (hq : ¬ X q)
    (hqt : IsTile st g q → g.use q = .live → ∀ t, st.ovfTarget q = some t → ¬ X t) :
    HasRecord st' q obj ↔ HasRecord st q obj := by
  unfold HasRecord
  have hu := hk.use q hq .live (.inl rfl)
  rw [h.isRecord_iff, h'.isRecord_iff, hu]
  refine and_congr_right fun ⟨htile, hl⟩ => ?_
  have hp := hk.payload q hq htile (.inl hl)
  have hstate : (st'.records q).state = (st.records q).state := congrArg Prod.fst hp
  have hd : (st'.records q).deleting = (st.records q).deleting := congrArg (fun x => x.2.2.1) hp
  have hdata : (st'.dataRecord q).data = (st.dataRecord q).data := by
    rcases h.ovf.live q htile hl with hs | hs
    · rw [dataRecord_normal hs, dataRecord_normal (hstate.trans hs)]
      exact congrArg (fun x => x.2.2.2.2) hp
    · obtain ⟨t, ht, htt, hut⟩ := h.ovf.ovf_target q htile hl hs
      have hr : (st'.records q).ovfRID = some t := (congrArg (fun x => x.2.2.2.1) hp).trans ht
      rw [dataRecord_ovf hs ht, dataRecord_ovf (hstate.trans hs) hr]
      exact congrArg (fun x => x.2.2.2.2) (hk.payload t (hqt htile hl t (ovfTarget_eq_some.2 ⟨hs, ht⟩)) htt (.inr hut))
  rw [hd, hdata]

theorem KeepsAll.hasRecord_iff (hk : KeepsAll st g st' g') (h : Holding cfg st g hs) (h' : Holding cfg st' g' hs') :
    HasRecord st' q obj ↔ HasRecord st q obj :=
  Keeps.hasRecord_iff hk h h' (by simp) (by simp)

theorem Holding.not_hasRecord_of_use (h : Holding cfg st g hs) (hu : g.use p ≠ .live) : ¬ HasRecord st p obj :=
  fun hr => hu (h.isRecord_iff.1 hr.1).2

/-! ### Counters -/

theorem placeRecord_counts (st : Store O) (rid : RID) (data : RecordData O) (size : Nat) :
    (st.placeRecord rid data size).counts = st.counts := by
  simp only [placeRecord]
  split <;> rfl

theorem linkLast_counts (st : Store O) (id : Nat) (rid : RID) :
    (st.linkLast id rid).counts = (st.totalRecords + 1, st.totalOrgDataLen, st.totalDataLen) := by
  simp only [linkLast]
  split <;> rfl

theorem relink_counts (st : Store O) (p : RID) :
    (st.relink p true).counts = (st.totalRecords - 1, st.totalOrgDataLen, st.totalDataLen) := by
  unfold Store.relink relinkEnds relinkNext relinkPrev
  split <;> split <;> rfl

/-! ### Inserting and taking back -/

def Holds (r : Record O) (data : RecordData O) : Prop :=
  r.payload = (.normal, data.isCompressed, false, none, some data)

theorem Config.recordData_obj (cfg : Config O) (obj : O) : (cfg.recordData obj).obj = obj := by
  rcases cfg.recordData_cases obj with ⟨c, -, heq⟩ | heq <;> rw [heq]

def Store.inserted (st : Store O) (cfg : Config O) (p : RID) (obj : O) : Store O :=
  let data := cfg.recordData obj
  ((st.placeRecord p data (cfg.finalRecordSize data.diskLen)).linkLast p.extent p).addData data

theorem inserted_counts (st : Store O) (cfg : Config O) (p : RID) (obj : O) : (st.inserted cfg p obj).counts =
    (st.totalRecords + 1, st.totalOrgDataLen + (cfg.recordData obj).orgLen,
      st.totalDataLen + (cfg.recordData obj).len) := by
  have hl := linkLast_counts (st.placeRecord p (cfg.recordData obj) (cfg.finalRecordSize (cfg.recordData obj).diskLen))
    p.extent p
  have hp := placeRecord_counts st p (cfg.recordData obj) (cfg.finalRecordSize (cfg.recordData obj).diskLen)
  simp only [Store.counts, Prod.mk.injEq] at hl hp
  simp only [Store.counts, Store.inserted, addData, hl, hp]

section Inserted

variable (h : Holding cfg st g (p :: hs)) (hp : p ∉ hs)
  (hmax : cfg.objsize obj + DMS_RECORD_METADATA_SZ ≤ DMS_RECORD_USER_MAX_SZ)
  (hsize : cfg.finalRecordSize (cfg.recordData obj).diskLen ≤ (st.records p).size)

include h hp hmax hsize

theorem Holding.inserted : st.extentInsertRecord p.extent p (cfg.recordData obj) (cfg.finalRecordSize (cfg.recordData obj).diskLen) true {} =
      (.done .ok, st.inserted cfg p obj) ∧
    ∃ g', Holding cfg (st.inserted cfg p obj) g' hs ∧ Keeps (· = p) st g (st.inserted cfg p obj) g' ∧
      IsTile (st.inserted cfg p obj) g' p ∧ g'.use p = .live ∧
      Holds ((st.inserted cfg p obj).records p) (cfg.recordData obj) := by
  have hle := cfg.recordData_diskLen_le obj
  obtain ⟨hpos, hm, hf⟩ := cfg.finalRecordSize_spec (cfg.recordData obj).diskLen (by omega)
  have hl : ¬ (!(cfg.recordData obj).isCompressed && decide ((cfg.recordData obj).len < DMS_MIN_RECORD_DATA_SZ)) = true := by
    rcases cfg.recordData_len obj with hc | hc <;> simp [hc]
  have heq : st.extentInsertRecord p.extent p (cfg.recordData obj) (cfg.finalRecordSize (cfg.recordData obj).diskLen) true
      {} = (.done .ok, st.inserted cfg p obj) := by
    simp [Store.extentInsertRecord, linkRecord, Store.inserted, hl, Nat.not_lt.2 hsize]
  have hi := h.extentInsert hp hpos hm hsize hf {}
  rw [heq] at hi
  refine ⟨heq, ?_⟩
  cases hi with
  | ok h1 hk1 ht hlive hpay => exact ⟨_, h1, hk1, ht, hlive, hpay⟩
  | failed ho _ _ => exact absurd rfl ho

theorem Holding.hasRecord_inserted (obj' : O) :
    HasRecord (st.inserted cfg p obj) q obj' ↔ q = p ∧ obj' = obj ∨ HasRecord st q obj' := by
  obtain ⟨-, g', h', hk, htile, hl, hpay⟩ := h.inserted hp hmax hsize
  have hup : g.use p = .held := h.use (List.mem_cons_self ..)
  by_cases hq : q = p
  · subst hq
    have hno : ¬ HasRecord st q obj' := h.not_hasRecord_of_use (by simp [hup])
    have hn : ((st.inserted cfg q obj).records q).state = .normal := congrArg Prod.fst hpay
    have hd : ((st.inserted cfg q obj).records q).deleting = false := congrArg (fun x => x.2.2.1) hpay
    have hdata : ((st.inserted cfg q obj).records q).data = some (cfg.recordData obj) :=
      congrArg (fun x => x.2.2.2.2) hpay
    simp only [HasRecord, h'.isRecord_iff, dataRecord_normal hn, hd, hdata, Option.map_some, Option.some.injEq,
      cfg.recordData_obj, htile, hl, true_and]
    exact ⟨fun heq => .inl heq.symm, fun hor => hor.elim Eq.symm fun hr => absurd hr hno⟩
  · rw [hk.hasRecord_iff h h' hq fun hqt hqu t ht => ?_]
    · simp [hq]
    · rintro rfl
      have hut := (h.ovf.target_of hqt hqu ht).2
      rw [hup] at hut
      cases hut

end Inserted

def Store.takenBack (st : Store O) (cfg : Config O) (p : RID) (obj : O) (hasWait : Bool) : Store O :=
  let data := cfg.recordData obj
  let st := st.subData ⟨obj, data.orgLen, data.len, false⟩
  if hasWait then st.markDeleting p else (st.relink p true).saveDeletedRecord p 0

theorem oldData_holds (hr : Holds (st.records p) (cfg.recordData obj)) : st.oldData cfg p (some obj) =
    some ⟨obj, (cfg.recordData obj).orgLen, (cfg.recordData obj).len, false⟩ := by
  have hs : (st.records p).state = .normal := congrArg Prod.fst hr
  have hc : (st.records p).compressed = (cfg.recordData obj).isCompressed := congrArg (fun x => x.2.1) hr
  have hd : (st.records p).data = some (cfg.recordData obj) := congrArg (fun x => x.2.2.2.2) hr
  unfold Store.oldData
  simp only [dataRecord_normal hs, hc, hd, Option.map_some, Option.getD_some]
  rcases cfg.recordData_cases obj with ⟨c, -, heq⟩ | heq <;> simp [heq]

theorem deleteRecord_holds (s : State O ι) (hr : Holds (s.store.records p) (cfg.recordData obj)) (hasWait : Bool) :
    (s.deleteRecord cfg idx p (some obj) hasWait {}).2 =
      ⟨s.store.takenBack cfg p obj hasWait, (idx.indexesDelete s.index obj p).2⟩ := by
  have hs : (s.store.records p).state = .normal := congrArg Prod.fst hr
  have hd : (s.store.records p).deleting = false := congrArg (fun x => x.2.2.1) hr
  have hk : s.deleteKeys cfg idx p (some obj) {} = .ok ((idx.indexesDelete s.index obj p).1,
      ⟨s.store.subData ⟨obj, (cfg.recordData obj).orgLen, (cfg.recordData obj).len, false⟩,
        (idx.indexesDelete s.index obj p).2⟩) := by
    simp [State.deleteKeys, oldData_holds hr]
  obtain ⟨st1, hst1⟩ : ∃ st1, st1 = s.store.subData ⟨obj, (cfg.recordData obj).orgLen, (cfg.recordData obj).len, false⟩ :=
    ⟨_, rfl⟩
  have hs1 : (st1.records p).state = .normal := by rw [hst1]; exact hs
  have hremove : st1.removeRecord p true {} = (.ok, (st1.relink p true).saveDeletedRecord p 0) := by
    unfold Store.removeRecord
    rw [extentRemoveRecord_eq (by simp [hs1]) true rfl rfl]
    simp [ovfTarget, hs1]
  unfold State.deleteRecord
  simp only [hs, hd, hk, Bool.and_false, Bool.false_eq_true, if_false]
  simp only [State.dropRecord, takenBack]
  rw [← hst1]
  cases hasWait
  · simp [hremove]
  · simp

theorem takenBack_counts (st : Store O) (cfg : Config O) (p : RID) (obj : O) (hasWait : Bool) :
    (st.takenBack cfg p obj hasWait).counts = (st.totalRecords - 1, st.totalOrgDataLen - (cfg.recordData obj).orgLen,
      st.totalDataLen - (cfg.recordData obj).len) := by
  unfold takenBack
  cases hasWait
  · exact relink_counts (st.subData ⟨obj, (cfg.recordData obj).orgLen, (cfg.recordData obj).len, false⟩) p
  · rfl

theorem Holding.hasRecord_takenBack (h : Holding cfg st g []) (hp : IsTile st g p) (hu : g.use p = .live)
    (hr : Holds (st.records p) (cfg.recordData obj)) (hasWait : Bool) :
    (∃ g', Holding cfg (st.takenBack cfg p obj hasWait) g' []) ∧
      ∀ q obj', HasRecord (st.takenBack cfg p obj hasWait) q obj' ↔ q ≠ p ∧ HasRecord st q obj' := by
  obtain ⟨old, ho⟩ : ∃ old : RecordData O, old = ⟨obj, (cfg.recordData obj).orgLen, (cfg.recordData obj).len, false⟩ :=
    ⟨_, rfl⟩
  obtain ⟨h1, hk1⟩ := h.congr (sameFrame_subData st old) rfl
  have hs : ((st.subData old).records p).state = .normal := congrArg Prod.fst hr
  have htgt : (st.subData old).ovfTarget p = none := by
    unfold ovfTarget
    rw [hs]
    rfl
  suffices hall : ∃ g', Holding cfg (st.takenBack cfg p obj hasWait) g' [] ∧
      Keeps (· = p) (st.subData old) g (st.takenBack cfg p obj hasWait) g' ∧
      ∀ obj', ¬ HasRecord (st.takenBack cfg p obj hasWait) p obj' by
    obtain ⟨g', h', hk', hno⟩ := hall
    refine ⟨⟨g', h'⟩, fun q obj' => ?_⟩
    by_cases hq : q = p
    · subst hq
      simp [hno]
    · rw [((KeepsAll.mono hk1).trans hk').hasRecord_iff h h' hq fun hqt hqu t ht => ?_]
      · simp [hq]
      · rintro rfl
        have hut := (h.ovf.target_of hqt hqu ht).2
        rw [hu] at hut
        cases hut
  simp only [takenBack]
  rw [← ho]
  cases hasWait with
  | true =>
    obtain ⟨h2, hk2⟩ := h1.markDeleting hu
    refine ⟨g, h2, hk2, fun obj' hrec => ?_⟩
    have hd := hrec.2.1
    rw [if_pos rfl, markDeleting_records, if_pos rfl] at hd
    cases hd
  | false =>
    obtain ⟨st2, g2, heq, h2, hk2, hd, -⟩ :=
      (h1.extentRemove hp hu true (show ({} : RemoveFaults).next = false from rfl) rfl).resolve_left fun hne => by
        rw [extentRemoveRecord_eq (by simp [hs]) true rfl rfl] at hne
        exact hne.1 rfl
    rw [extentRemoveRecord_eq (by simp [hs]) true rfl rfl] at heq
    obtain ⟨-, rfl⟩ := Prod.mk.inj heq
    rw [htgt] at h2
    refine ⟨g2, h2, hk2.mono fun q hq => ?_, fun obj' hrec => ?_⟩
    · exact hq.resolve_right (by simp [htgt])
    · obtain ⟨htile, hl⟩ := h2.isRecord_iff.1 hrec.1
      have := h2.ovf.live p htile hl
      rw [hd] at this
      simp at this

end SequoiaDB.Dms.Data

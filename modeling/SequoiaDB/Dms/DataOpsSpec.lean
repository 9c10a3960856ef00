import SequoiaDB.Dms.DataSpec

/-!
# Whole operations

`insertRecord`, `updateRecord` and `deleteRecord` from a state in which no piece is held, with failures at any place
where the code gives the space back.
-/

namespace SequoiaDB.Dms.Data

open SequoiaDB.Lib Shape Store KeepsAll

variable {O ι : Type*} {cfg : Config O} {idx : IndexSU O ι} {st st' : Store O} {g g' : Shape} {p q t : RID}

/-! ### Sizes of records -/

theorem Config.recordData_cases (cfg : Config O) (obj : O) :
    (∃ c, c + 4 < cfg.objsize obj ∧ cfg.recordData obj = ⟨obj, c, cfg.objsize obj, true⟩) ∨
      cfg.recordData obj = ⟨obj, cfg.objsize obj, cfg.objsize obj, false⟩ := by
  unfold Config.recordData
  simp only
  split
  · split
    · next hc => exact .inl ⟨_, hc.1, rfl⟩
    · exact .inr rfl
  · exact .inr rfl

theorem Config.recordData_diskLen_le (cfg : Config O) (obj : O) : (cfg.recordData obj).diskLen ≤ cfg.objsize obj := by
  unfold RecordData.diskLen
  rcases cfg.recordData_cases obj with ⟨c, hc, heq⟩ | heq
  · rw [heq, if_pos rfl]
    exact Nat.le_of_lt hc
  · rw [heq, if_neg (by simp)]

theorem Config.recordData_len (cfg : Config O) (obj : O) :
    (cfg.recordData obj).isCompressed ∨ DMS_MIN_RECORD_DATA_SZ ≤ (cfg.recordData obj).len := by
  rcases cfg.recordData_cases obj with ⟨c, -, heq⟩ | heq
  · rw [heq]
    exact .inl rfl
  · rw [heq]
    exact .inr (cfg.objsize_ge obj)

theorem Config.le_overflowSize (cfg : Config O) (size : Nat) (h : size ≤ DMS_RECORD_MAX_SZ) :
    size ≤ cfg.overflowSize size := by
  unfold DMS_RECORD_MAX_SZ at h
  unfold Config.overflowSize
  split
  · have hlt : (size * cfg.overflowRatio + 50) % 2 ^ 32 < 2 ^ 32 := Nat.mod_lt _ (by decide)
    generalize hx : (size * cfg.overflowRatio + 50) % 2 ^ 32 / 100 = x
    have hx' : x < 42949673 := by omega
    rw [Nat.mod_eq_of_lt (by omega)]
    omega
  · exact Nat.le_refl _

theorem Config.finalRecordSize_spec (cfg : Config O) (size : Nat)
    (h : size + DMS_RECORD_METADATA_SZ ≤ DMS_RECORD_USER_MAX_SZ) :
    0 < cfg.finalRecordSize size ∧ cfg.finalRecordSize size % 4 = 0 ∧
      size + DMS_RECORD_METADATA_SZ ≤ cfg.finalRecordSize size := by
  have hmax : DMS_RECORD_MAX_SZ = 16777216 := rfl
  have huser : DMS_RECORD_USER_MAX_SZ = 16773120 := rfl
  have hmeta : DMS_RECORD_METADATA_SZ = 16 := rfl
  have hle := cfg.le_overflowSize size (by omega)
  unfold Config.finalRecordSize align4
  omega

/-! ### Deleting -/

theorem sameFrame_markDeleting (st : Store O) (p : RID) : SameFrame st (st.markDeleting p) := by
  refine ⟨rfl, fun e => ?_, fun e => ?_, fun e => ?_, fun e => ?_, rfl, rfl⟩
  all_goals
    simp only [markDeleting, setRecord, setExtent, Function.update_apply]
    split
    · next heq => rw [heq]
    · rfl

theorem markDeleting_records (q : RID) : (st.markDeleting p).records q =
    if q = p then (st.records p).setDeleting else st.records q := by
  show Function.update st.records p _ q = _
  rw [Function.update_apply]

theorem Holding.markDeleting (h : Holding cfg st g []) (hu : g.use p = .live) :
    Holding cfg (st.markDeleting p) g [] ∧ Keeps (· = p) st g (st.markDeleting p) g := by
  have hf := sameFrame_markDeleting st p
  refine ⟨⟨h.toInv.congr hf fun q _ => ?_, fun e he => ?_, h.held⟩, ⟨fun _ _ _ _ => Iff.rfl, fun q hq _ _ => ?_⟩⟩
  · rw [markDeleting_records]
    split
    · next heq =>
      subst heq
      rw [hu]
      exact ⟨rfl, rfl, by simp, fun _ => ⟨rfl, rfl⟩, fun _ => ⟨rfl, fun _ => rfl⟩, by simp, fun _ d hd => .inl hd⟩
    · exact Agree.refl _ _
  · rw [hf.blockSize]
    exact h.stop e he
  · rw [markDeleting_records, if_neg hq]

def DeleteFaults.Safe (f : DeleteFaults) : Prop := f.remove.Early ∧ f.removeOvf.Never

instance (f : DeleteFaults) : Decidable f.Safe := inferInstanceAs (Decidable (_ ∧ _))

def Settles (cfg : Config O) (X : RID → Prop) (st : Store O) (g : Shape) (st' : Store O) : Prop :=
  ∃ g', Holding cfg st' g' [] ∧ Keeps X st g st' g'

theorem Holding.settles (h : Holding cfg st g []) (X : RID → Prop) : Settles cfg X st g st := ⟨g, h, Keeps.refl ..⟩

theorem touched_congr (hr : st'.records = st.records) : Touched st' p = Touched st p := by
  unfold Touched ovfTarget
  rw [hr]

variable {s : State O ι} {f : DeleteFaults}

theorem Holding.dropRecord (h : Holding cfg s.store g []) (hp : IsTile s.store g p) (hu : g.use p = .live)
    (isDeleting hasWait : Bool) (hf : f.Safe) (rc : Rc) :
    Settles cfg (Touched s.store p) s.store g (s.dropRecord p isDeleting hasWait f rc).2.store := by
  unfold State.dropRecord
  split
  · obtain ⟨h1, hk1⟩ := h.markDeleting hu
    exact ⟨g, h1, hk1.mono fun q => Or.inl⟩
  · rcases h.removeRecord hp hu (!isDeleting) hf.1 hf.2 with ⟨-, heq⟩ | ⟨st1, g1, heq, h1, hk1, -⟩
    · split
      all_goals
        rename_i hres
        rw [hres] at heq
        dsimp only at heq
        subst heq
        exact h.settles _
    · rw [heq]
      exact ⟨g1, h1, hk1⟩

theorem deleteKeys_store {s s' : State O ι} {dataPtr : Option O} {rc : Rc}
    (heq : s.deleteKeys cfg idx p dataPtr f = .ok (rc, s')) :
    SameFrame s.store s'.store ∧ s'.store.records = s.store.records := by
  unfold State.deleteKeys at heq
  split at heq
  · cases heq
  · split at heq
    · cases heq
    · next old _ =>
      cases heq
      exact ⟨sameFrame_subData _ old, rfl⟩

theorem Holding.deleteRecord (h : Holding cfg s.store g []) (hp : IsTile s.store g p) (hu : g.use p = .live)
    (dataPtr : Option O) (hasWait : Bool) (hf : f.Safe) :
    Settles cfg (Touched s.store p) s.store g (s.deleteRecord cfg idx p dataPtr hasWait f).2.store := by
  unfold State.deleteRecord
  cases f.entry with
  | some rc => exact h.settles _
  | none =>
    have hstate := h.ovf.live p hp hu
    simp only
    split
    · next hovt => simp [hovt] at hstate
    · exact h.settles _
    · split
      · exact h.settles _
      · split
        · exact h.settles _
        · next rc1 s1 hres =>
          have hs : SameFrame s.store s1.store ∧ s1.store.records = s.store.records := by
            split at hres
            · cases hres
              exact ⟨⟨rfl, fun _ => rfl, fun _ => rfl, fun _ => rfl, fun _ => rfl, rfl, rfl⟩, rfl⟩
            · exact deleteKeys_store hres
          obtain ⟨h1, hk1⟩ := h.congr hs.1 hs.2
          obtain ⟨g2, h2, hk2⟩ :=
            h1.dropRecord ((IsTile.congr hs.1.extentIDs).2 hp) hu (s.store.records p).deleting hasWait hf rc1
          rw [touched_congr hs.2] at hk2
          exact ⟨g2, h2, (mono hk1).trans hk2⟩

/-! ### Inserting -/

def InsertOpFaults.Safe (f : InsertOpFaults) : Prop :=
  f.reserve.extent = false ∧ f.giveBack = false ∧ f.rollback.Safe

instance (f : InsertOpFaults) : Decidable f.Safe := inferInstanceAs (Decidable (_ ∧ _ ∧ _))

def Env.Fresh (env : Env) (st : Store O) : Prop := env.allocs.Nodup ∧ ∀ id ∈ env.allocs, id ∉ st.extentIDs

instance (env : Env) (st : Store O) : Decidable (env.Fresh st) := inferInstanceAs (Decidable (_ ∧ _))

variable {f : InsertOpFaults}

theorem Holding.giveBack (h : Holding cfg s.store g [p]) (hf : f.giveBack = false) :
    Settles cfg (fun _ => False) s.store g (s.giveBack p f).store := by
  unfold State.giveBack
  rw [hf]
  exact h.saveDeleted (by simp)

variable {obj : O} {env : Env}

theorem Holding.insertReserved (idx : IndexSU O ι) (h : Holding cfg s.store g [p])
    (hmax : cfg.objsize obj + DMS_RECORD_METADATA_SZ ≤ DMS_RECORD_USER_MAX_SZ)
    (hs : cfg.finalRecordSize (cfg.recordData obj).diskLen ≤ (s.store.records p).size) (hf : f.Safe) :
    Settles cfg (· = p) s.store g (s.insertReserved cfg idx env obj f p).2.store := by
  have hle := cfg.recordData_diskLen_le obj
  obtain ⟨hp, hm, hfit⟩ := cfg.finalRecordSize_spec (cfg.recordData obj).diskLen (by omega)
  unfold State.insertReserved
  cases f.validate with
  | some rc =>
    obtain ⟨g1, h1, hk1⟩ := h.giveBack hf.2.1
    exact ⟨g1, h1, mono hk1⟩
  | none =>
    simp only
    have hi := h.extentInsert (by simp) hp hm hs hfit f.insert
    obtain ⟨o, st1, hr⟩ : ∃ o st1, s.store.extentInsertRecord p.extent p (cfg.recordData obj)
        (cfg.finalRecordSize (cfg.recordData obj).diskLen) true f.insert = (o, st1) := ⟨_, _, rfl⟩
    rw [hr] at hi ⊢
    cases hi with
    | ok h1 hk1 ht hl hpay =>
      simp only
      generalize (if (idx.1 s.index obj p).1 = .ok then f.log.getD .ok else (idx.1 s.index obj p).1) = rc
      split
      · exact ⟨_, h1, hk1⟩
      · -- the record is deleted again
        obtain ⟨g2, h2, hk2⟩ := Holding.deleteRecord (s := ⟨st1, (idx.1 s.index obj p).2⟩) h1 ht hl (some obj)
          env.hasWait hf.2.2
        refine ⟨g2, h2, hk1.trans (hk2.mono fun q hq => ?_)⟩
        rcases hq with hq | hq
        · exact hq
        · have hovf := (ovfTarget_eq_some.1 hq).1
          rw [show (st1.records p).state = .normal from congrArg Prod.fst hpay] at hovf
          cases hovf
    | failed ho h1 hk1 =>
      have hb : Settles cfg (fun _ => False) st1 _ (State.giveBack { s with store := st1 } p f).store :=
        Holding.giveBack (s := { s with store := st1 }) h1 hf.2.1
      obtain ⟨g2, h2, hk2⟩ := hb
      split
      · next heq => exact absurd (Prod.mk.inj heq).1 ho
      · next heq =>
        cases heq
        exact ⟨g2, h2, mono (hk1.trans hk2)⟩

theorem Holding.insertRecord (h : Holding cfg s.store g []) (obj : O) (he : env.Fresh s.store) (hf : f.Safe) :
    ∃ X, Settles cfg X s.store g (s.insertRecord cfg idx env obj f).2.store := by
  unfold State.insertRecord
  cases f.entry with
  | some rc => exact ⟨fun _ => False, h.settles _⟩
  | none =>
    simp only
    split
    · exact ⟨fun _ => False, h.settles _⟩
    · next hmax =>
      generalize hres : reserveFromDeleteList .. = r
      cases h.reserve hf.1 he.1 he.2 hres with
      | some h1 hout hs hk1 =>
        obtain ⟨g2, h2, hk2⟩ := Holding.insertReserved idx (s := ⟨_, s.index⟩) h1 (by omega) hs hf
        exact ⟨_, g2, h2, (mono hk1).trans hk2⟩
      | none hrc h1 hk1 =>
        split
        · next heq => cases heq
        · next heq =>
          cases heq
          exact ⟨fun _ => False, _, h1, hk1⟩

/-! ### Updating -/

def UpdateFaults.Safe (f : UpdateFaults) : Prop :=
  f.reserve.extent = false ∧ f.newExtent = false ∧ f.insert.lock = none ∧ f.insert.pointer = false ∧
    f.insert.split = false ∧ f.removeOvf.Never

instance (f : UpdateFaults) : Decidable f.Safe := inferInstanceAs (Decidable (_ ∧ _ ∧ _ ∧ _ ∧ _ ∧ _))

theorem Shape.dropTarget_held (x : Option RID) : (g.dropTarget x).use q = .held ↔ x = some q ∨ g.use q = .held := by
  rw [dropTarget_use]
  split <;> simp_all

variable {hs : List RID}

theorem Holding.normalise (h : Holding cfg st g hs) (hp : IsTile st g p) (hu : g.use p = .live) {data : RecordData O}
    (hf : data.diskLen + DMS_RECORD_METADATA_SZ ≤ (st.records p).size) :
    let st' := st.setRecord p ((st.records p).normalised data)
    ∃ g', Holding cfg st' g' ((st.ovfTarget p).toList ++ hs) ∧ Keeps (Touched st p) st g st' g' ∧ IsTile st' g' p ∧
      g'.use p = .live := by
  intro st'
  have htile : ∀ {q}, IsTile st' (g.dropTarget (st.ovfTarget p)) q ↔ IsTile st g q :=
    IsTile.reshape (dropTarget_tiles _)
  refine ⟨_, ⟨h.toInv.normalise hp hu hf, fun e he => ?_, fun q => ?_⟩,
    ⟨fun q hq u _ => ?_, fun q hq _ _ => ?_⟩, htile.2 hp, ?_⟩
  · rw [dropTarget_stop]
    exact h.stop e he
  · rw [htile, dropTarget_held, List.mem_append, Option.mem_toList, ← h.held]
    constructor
    · rintro ⟨hq, ht | hq'⟩
      · exact .inl ht
      · exact .inr ⟨hq, hq'⟩
    · rintro (ht | ⟨hq, hq'⟩)
      · exact ⟨(h.ovf.target_of hp hu ht).1, .inl ht⟩
      · exact ⟨hq, .inr hq'⟩
  · rw [htile, dropTarget_use, if_neg fun ht => hq (.inr ht)]
  · rw [setRecord_of_ne _ _ fun heq => hq (.inl heq)]
  · rw [dropTarget_self fun t => h.ovf.target_ne hp hu]
    exact hu

theorem Holding.redirect {n : RID} (h : Holding cfg st g (n :: hs)) (hn : n ∉ hs) (hp : IsTile st g p)
    (hu : g.use p = .live) (hsn : (st.records n).state = .ovt)
    (hf : ∀ d ∈ (st.records n).data, d.diskLen + DMS_RECORD_METADATA_SZ ≤ (st.records n).size) :
    ∃ g', Holding cfg (st.setRecord p ((st.records p).setOvfTo n)) g' ((st.ovfTarget p).toList ++ hs) ∧
      Keeps (fun q => Touched st p q ∨ q = n) st g (st.setRecord p ((st.records p).setOvfTo n)) g' ∧
      IsTile (st.setRecord p ((st.records p).setOvfTo n)) g' p ∧ g'.use p = .live := by
  have hun := h.use (List.mem_cons_self ..)
  have hntile := h.tile (List.mem_cons_self ..)
  have hnp : p ≠ n := ne_of_apply_ne g.use (by simp [hu, hun])
  have hnt : ∀ t, st.ovfTarget p = some t → t ≠ n := fun t ht =>
    ne_of_apply_ne g.use (by simp [hun, (h.ovf.target_of hp hu ht).2])
  have htile : ∀ {q}, IsTile (st.setRecord p ((st.records p).setOvfTo n))
      ((g.setUse n .target).dropTarget (st.ovfTarget p)) q ↔ IsTile st g q := IsTile.reshape (dropTarget_tiles _)
  refine ⟨_, ⟨h.toInv.redirect hp hu hntile hun hsn hf, fun e he => ?_, fun q => ?_⟩,
    ⟨fun q hq u _ => ?_, fun q hq _ _ => ?_⟩, htile.2 hp, ?_⟩
  · rw [dropTarget_stop]
    exact h.stop e he
  · rw [htile, dropTarget_held, List.mem_append, Option.mem_toList]
    by_cases hqn : q = n
    · subst hqn
      rw [setUse_self]
      refine ⟨?_, ?_⟩
      · rintro ⟨-, ht | ht⟩
        · exact absurd rfl (hnt q ht)
        · cases ht
      · rintro (ht | ht)
        · exact absurd rfl (hnt q ht)
        · exact absurd ht hn
    · rw [setUse_of_ne _ hqn]
      have hh := h.held q
      rw [List.mem_cons] at hh
      constructor
      · rintro ⟨hq, ht | hq'⟩
        · exact .inl ht
        · exact .inr ((hh.1 ⟨hq, hq'⟩).resolve_left hqn)
      · rintro (ht | hq)
        · exact ⟨(h.ovf.target_of hp hu ht).1, .inl ht⟩
        · exact ⟨(hh.2 (.inr hq)).1, .inr (hh.2 (.inr hq)).2⟩
  · obtain ⟨hqt, hqn⟩ := not_or.1 hq
    rw [htile, dropTarget_use, if_neg fun ht => hqt (.inr ht), setUse_of_ne _ hqn]
  · rw [setRecord_of_ne _ _ fun heq => hq (.inl (.inl heq))]
  · rw [dropTarget_self fun t => h.ovf.target_ne hp hu, setUse_of_ne _ hnp]
    exact hu

variable {f : RemoveFaults}

theorem removeTarget_eq (ho : (st.records t).state = .ovt) (hf : f.Never) :
    st.removeTarget (some t) f = (true, st.saveDeletedRecord t 0) := by
  simp only [Store.removeTarget, extentRemoveRecord_target ho t.extent hf]

theorem Holding.removeTarget {x : Option RID} (h : Holding cfg st g x.toList)
    (ho : ∀ t, x = some t → (st.records t).state = .ovt) (hf : f.Never) :
    ∃ st' g', st.removeTarget x f = (true, st') ∧ Holding cfg st' g' [] ∧ KeepsAll st g st' g' ∧
      (∀ q, x ≠ some q → st'.records q = st.records q) ∧ ∀ t, x = some t → (st'.records t).state = .deleted := by
  cases x with
  | none => exact ⟨st, g, rfl, h, Keeps.refl .., fun _ _ => rfl, nofun⟩
  | some t =>
    obtain ⟨g1, h1, hk1⟩ := Holding.saveDeleted h (by simp)
    refine ⟨_, g1, removeTarget_eq (ho t rfl) hf, h1, hk1, fun q hq => ?_, fun t' ht' => ?_⟩
    · exact saveDeletedRecord_of_ne fun heq => hq (by rw [heq])
    · cases ht'
      exact saveDeletedRecord_state ..

theorem setRecord_setRecord (r r' : Record O) : (st.setRecord p r).setRecord p r' = st.setRecord p r' := by
  unfold setRecord
  simp

theorem OvfInv.normal_of (h : OvfInv st g) (hp : IsTile st g p) (hu : g.use p = .live) (ht : st.ovfTarget p = none) :
    (st.records p).state = .normal := by
  refine (h.live p hp hu).resolve_right fun ho => ?_
  obtain ⟨t, hr, -⟩ := h.ovf_target p hp hu ho
  rw [ovfTarget_eq_some.2 ⟨ho, hr⟩] at ht
  cases ht

variable {f : UpdateFaults}

theorem Holding.updateInPlace (h : Holding cfg st g []) (hp : IsTile st g p) (hu : g.use p = .live)
    (old data : RecordData O) (hfit : data.diskLen + DMS_RECORD_METADATA_SZ ≤ (st.records p).size)
    (hf : f.removeOvf.Never) :
    ∃ st' g', st.updateInPlace p old data (st.ovfTarget p) f = (.ok, (st'.subData old).addData data) ∧
      Holding cfg st' g' [] ∧ Keeps (Touched st p) st g st' g' ∧ IsTile st' g' p ∧ g'.use p = .live ∧
      st'.records p = (st.records p).normalised data ∧
      ∀ t, st.ovfTarget p = some t → (st'.records t).state = .deleted := by
  obtain ⟨g1, h1, hk1, ht1, hl1⟩ := h.normalise hp hu hfit
  cases ht : st.ovfTarget p with
  | none =>
    have hn := h.ovf.normal_of hp hu ht
    rw [ht] at h1
    refine ⟨_, g1, ?_, h1, hk1, ht1, hl1, setRecord_self .., by simp⟩
    have hs : (st.records p).setData data = (st.records p).normalised data := by
      rw [Record.normalised, ← hn]
      rfl
    simp only [Store.updateInPlace, Store.removeTarget, if_true]
    rw [← hs]
  | some t =>
    have htp := h.ovf.target_ne hp hu ht
    obtain ⟨htt, hut⟩ := h.ovf.target_of hp hu ht
    rw [ht] at h1
    obtain ⟨g2, h2, hk2⟩ := Holding.saveDeleted h1 (by simp)
    have hl2 : IsTile _ g2 p ∧ g2.use p = .live := (hk2.use p (by simp) .live (.inl rfl)).2 ⟨ht1, hl1⟩
    refine ⟨_, g2, ?_, h2, hk1.trans (mono hk2), hl2.1, hl2.2, ?_, fun t' ht' => ?_⟩
    · have ho : ((st.setRecord p ((st.records p).setData data)).records t).state = .ovt := by
        rw [setRecord_of_ne _ _ htp]
        exact h.ovf.target t htt hut
      simp only [Store.updateInPlace, removeTarget_eq ho hf, reduceCtorEq, if_false]
      rw [saveDeletedRecord_of_ne htp.symm, setRecord_saveDeletedRecord htp.symm, setRecord_self, setRecord_setRecord]
      rfl
    · rw [saveDeletedRecord_of_ne htp.symm, setRecord_self]
    · cases ht'
      exact saveDeletedRecord_state ..

theorem Holding.updateTarget (h : Holding cfg st g []) (hp : IsTile st g p) (hu : g.use p = .live)
    (ht : st.ovfTarget p = some t) (data : RecordData O)
    (hf : data.diskLen + DMS_RECORD_METADATA_SZ ≤ (st.records t).size) :
    Holding cfg (st.setRecord t ((st.records t).setData data)) g [] ∧
      Keeps (Touched st p) st g (st.setRecord t ((st.records t).setData data)) g := by
  obtain ⟨htt, hut⟩ := h.ovf.target_of hp hu ht
  refine ⟨⟨h.toInv.setRecord ?_, h.stop, h.held⟩, ⟨fun _ _ _ _ => Iff.rfl, fun q hq _ _ => ?_⟩⟩
  · rw [hut]
    exact ⟨rfl, rfl, by simp, by simp, by simp, fun _ => rfl, fun _ d hd => .inr (by cases hd; exact hf)⟩
  · rw [setRecord_of_ne _ _ fun heq => hq (.inr (by rw [heq]; exact ht))]

def InUse (st : Store O) (g : Shape) (q : RID) : Prop := IsTile st g q ∧ (g.use q = .live ∨ g.use q = .target)

/-- What the update of a record gives: the record has the new data, or nothing in use was touched. -/
inductive Updated (cfg : Config O) (p : RID) (data : RecordData O) (st : Store O) (g : Shape) : Rc × Store O → Prop
  | ok {st' : Store O} {g' : Shape} (h : Holding cfg st' g' [])
      (hk : Keeps (fun q => Touched st p q ∨ ¬ InUse st g q) st g st' g')
      (hlive : ∀ q, IsTile st' g' q ∧ g'.use q = .live ↔ IsTile st g q ∧ g.use q = .live)
      (hdata : (st'.dataRecord p).data = some data)
      (hdel : (st.records p).deleting = false → (st'.records p).deleting = false) : Updated cfg p data st g (.ok, st')
  | failed {rc : Rc} {st' : Store O} {g' : Shape} (hrc : rc ≠ .ok) (h : Holding cfg st' g' []) (hk : KeepsAll st g st' g')
      (hcounts : st'.counts = st.counts) : Updated cfg p data st g (rc, st')

theorem sameFrame_recount (st : Store O) (old data : RecordData O) : SameFrame st ((st.subData old).addData data) :=
  ⟨rfl, fun _ => rfl, fun _ => rfl, fun _ => rfl, fun _ => rfl, rfl, rfl⟩

theorem OvfInv.not_live (h : OvfInv st g) (hs : (st.records q).state = .deleted ∨ (st.records q).state = .ovt) :
    ¬ (IsTile st g q ∧ g.use q = .live) := by
  intro hl
  have hstate := h.live q hl.1 hl.2
  rcases hs with hs | hs <;> rw [hs] at hstate <;> simp at hstate

theorem Updated.written {N : RID → Prop} {st1 : Store O} {g1 : Shape} {data : RecordData O} (h : OvfInv st g)
    (hp : IsTile st g p) (hu : g.use p = .live) (h1 : Holding cfg st1 g1 [])
    (hk1 : Keeps (fun q => Touched st p q ∨ N q) st g st1 g1) (hlive : IsTile st1 g1 p ∧ g1.use p = .live)
    (ht : ∀ t, st.ovfTarget p = some t → (st1.records t).state = .deleted ∨ (st1.records t).state = .ovt)
    (hN : ∀ q, N q → ¬ InUse st g q ∧ (st1.records q).state = .ovt) (hf : SameFrame st1 st')
    (hr : st'.records = st1.records) (hdata : (st1.dataRecord p).data = some data)
    (hdel : (st.records p).deleting = false → (st1.records p).deleting = false) :
    Updated cfg p data st g (.ok, st') := by
  obtain ⟨h2, hk2⟩ := h1.congr hf hr
  have hk := hk1.trans (mono hk2)
  refine .ok h2 (hk.mono fun q hq => hq.imp_right fun hq => (hN q hq).1) (fun q => ?_) ?_ fun hd => ?_
  · by_cases hX : Touched st p q ∨ N q
    · rw [← hr] at ht hN
      rcases hX with (rfl | hq) | hq
      · exact iff_of_true ((hk2.use q (by simp) .live (.inl rfl)).2 hlive) ⟨hp, hu⟩
      · refine iff_of_false (h2.ovf.not_live (ht q hq)) fun hl => ?_
        rw [(h.target_of hp hu hq).2] at hl
        cases hl.2
      · exact iff_of_false (h2.ovf.not_live (.inr (hN q hq).2)) fun hl => (hN q hq).1 ⟨hl.1, .inl hl.2⟩
    · exact hk.use q hX .live (.inl rfl)
  · unfold dataRecord at hdata ⊢
    rw [hr]
    exact hdata
  · rw [hr]
    exact hdel hd

theorem ovfTarget_congr (hp : (st'.records p).payload = (st.records p).payload) :
    st'.ovfTarget p = st.ovfTarget p := by
  have hs : (st'.records p).state = (st.records p).state := congrArg Prod.fst hp
  have hr : (st'.records p).ovfRID = (st.records p).ovfRID := congrArg (fun x => x.2.2.2.1) hp
  unfold ovfTarget
  rw [hs, hr]

theorem dataRecord_normal (hs : (st.records p).state = .normal) : st.dataRecord p = st.records p := by
  simp [dataRecord, hs]

theorem dataRecord_ovf (hs : (st.records p).state = .ovf) (hr : (st.records p).ovfRID = some t) :
    st.dataRecord p = st.records t := by
  unfold dataRecord
  simp only [hs, hr, if_true, Option.getD_some]

variable {data : RecordData O}

theorem Holding.updateToNew (h : Holding cfg st g []) (hp : IsTile st g p) (hu : g.use p = .live) (he : env.Fresh st)
    (old : RecordData O) (hm : data.diskLen + DMS_RECORD_METADATA_SZ ≤ DMS_RECORD_USER_MAX_SZ)
    (hl : data.isCompressed ∨ DMS_MIN_RECORD_DATA_SZ ≤ data.len) (hf : f.Safe) :
    Updated cfg p data st g (st.updateToNew cfg env p old data (st.ovfTarget p) f) := by
  obtain ⟨hfres, hfnew, hflock, hfptr, hfsplit, hfovf⟩ := hf
  obtain ⟨hpos, hmod, hfit⟩ := cfg.finalRecordSize_spec data.diskLen hm
  unfold Store.updateToNew
  simp only
  generalize hres : reserveFromDeleteList .. = r
  have hc := reserve_counts hres
  cases h.reserve hfres he.1 he.2 hres with
  | none hrc h1 hk1 =>
    split
    · next heq => cases heq
    · next heq =>
      cases heq
      exact .failed hrc h1 hk1 hc
  | some h1 ho hs hk1 =>
    rename_i st1 g1 n
    rw [hfnew]
    obtain ⟨st2, g2, heq, h2, hk2, hpl⟩ := h1.extentPlace ho hpos hmod hs hl hflock hfptr hfsplit n.extent
    obtain ⟨h3, hk3⟩ := h2.congr (sameFrame_addData st2 data) rfl
    -- the new record becomes an overflow target
    have hmem : n ∈ [n] := List.mem_cons_self ..
    obtain ⟨h4, hk4⟩ := h3.setRecord hmem (r := { st2.records n with state := .ovt }) rfl
      (h2.tiles.myOffset n (h2.tile hmem))
    have hk := ((hk1.trans hk2).trans hk3).trans hk4
    obtain ⟨st4, hst4⟩ : ∃ st4, st4 = (st2.addData data).setRecord n { st2.records n with state := .ovt } := ⟨_, rfl⟩
    rw [← hst4] at h4 hk4 hk
    have hl4 : IsTile st4 g2 p ∧ g2.use p = .live := (hk.use p (by simp) .live (.inl rfl)).2 ⟨hp, hu⟩
    have hpay := hk.payload p (by simp) hp (.inl hu)
    have htgt := ovfTarget_congr hpay
    have hr : st4.records n = { st2.records n with state := .ovt } := by
      rw [hst4]
      exact setRecord_self ..
    have hdatan : (st4.records n).data = some data := by
      rw [hr]
      exact congrArg (fun x => x.2.2.2.2) hpl.payload
    obtain ⟨g5, h5, hk5, ht5, hl5⟩ := h4.redirect (by simp) hl4.1 hl4.2 (by rw [hr]) (fun d hd => by
      rw [hdatan] at hd
      cases hd
      rw [hr]
      exact Nat.le_trans hfit hpl.size)
    obtain ⟨st5, hst5⟩ : ∃ st5, st5 = st4.setRecord p ((st4.records p).setOvfTo n) := ⟨_, rfl⟩
    rw [← hst5] at h5 hk5 ht5
    rw [List.append_nil, htgt] at h5
    -- `n` was not in use
    have hnuse : ¬ InUse st g n := by
      rintro ⟨hn, hn'⟩
      have hn1 := (hk1.use n (by simp) _ hn').2 ⟨hn, rfl⟩
      rw [h1.use hmem] at hn1
      rw [← hn1.2] at hn'
      rcases hn' with hn' | hn' <;> cases hn'
    have hnp : n ≠ p := fun heq => hnuse (heq ▸ ⟨hp, .inl hu⟩)
    have hnt : st.ovfTarget p ≠ some n := fun ht => hnuse ⟨(h.ovf.target_of hp hu ht).1, .inr (h.ovf.target_of hp hu ht).2⟩
    have hovt : ∀ t, st.ovfTarget p = some t → (st5.records t).state = .ovt := by
      intro t ht
      rw [← htgt] at ht
      obtain ⟨htt, hut⟩ := h4.ovf.target_of hl4.1 hl4.2 ht
      rw [hst5, setRecord_of_ne _ _ (h4.ovf.target_ne hl4.1 hl4.2 ht)]
      exact h4.ovf.target t htt hut
    obtain ⟨st6, g6, heq6, h6, hk6, hrec6, hd6⟩ := h5.removeTarget hovt hfovf
    have hrecp : st6.records p = (st4.records p).setOvfTo n := by
      rw [hrec6 p fun ht => h.ovf.target_ne hp hu ht rfl, hst5, setRecord_self]
    have hr6 : st6.records n = st4.records n := by
      rw [hrec6 n hnt, hst5, setRecord_of_ne _ _ hnp]
    have hkall : Keeps (fun q => Touched st p q ∨ q = n) st g st6 g6 := by
      refine ((mono hk).trans (hk5.mono fun q hq => ?_)).trans (mono hk6)
      exact hq.imp_left fun hq => hq.imp_right fun hq => htgt ▸ hq
    have hlivep : IsTile st6 g6 p ∧ g6.use p = .live :=
      (hk6.use p (by simp) .live (.inl rfl)).2 ⟨ht5, hl5⟩
    simp only [Bool.false_eq_true, if_false, heq]
    rw [show (st2.addData data).setRecord n { (st2.addData data).records n with state := .ovt } = st4 from hst4.symm,
      ← hst5, heq6]
    refine .written h.ovf hp hu h6 hkall hlivep (fun t ht => .inl (hd6 t ht)) ?_ (sameFrame_subData st6 old) rfl
      ?_ fun hd => ?_
    · rintro q rfl
      exact ⟨hnuse, by rw [hr6, hr]⟩
    · rw [dataRecord_ovf (by rw [hrecp]; rfl) (by rw [hrecp]; rfl), hr6]
      exact hdatan
    · rw [hrecp]
      show (st4.records p).deleting = false
      rw [show (st4.records p).deleting = (st.records p).deleting from congrArg (fun x => x.2.2.1) hpay]
      exact hd

theorem Updated.settles {res : Rc × Store O} (h : Updated cfg p data st g res) : ∃ X, Settles cfg X st g res.2 := by
  cases h with
  | ok h hk _ _ _ => exact ⟨_, _, h, hk⟩
  | failed _ h hk _ => exact ⟨_, _, h, hk⟩

theorem Holding.updateData (h : Holding cfg st g []) (hp : IsTile st g p) (hu : g.use p = .live) (he : env.Fresh st)
    (old : RecordData O) (hmax : cfg.objsize obj + DMS_RECORD_METADATA_SZ ≤ DMS_RECORD_USER_MAX_SZ) (hf : f.Safe) :
    Updated cfg p (cfg.recordData obj) st g (st.updateData cfg env p old obj f) := by
  have hle := cfg.recordData_diskLen_le obj
  have hn := h.updateToNew hp hu he old (by omega) (cfg.recordData_len obj) hf
  unfold Store.updateData
  simp only
  split_ifs with hptr hfit
  · exact .failed (by simp) h (Keeps.refl ..) rfl
  · obtain ⟨st1, g1, heq, h1, hk1, htile, hl, hrec, hdel⟩ :=
      h.updateInPlace hp hu old (cfg.recordData obj) hfit hf.2.2.2.2.2
    rw [heq]
    refine .written h.ovf hp hu h1 (hk1.mono fun q => Or.inl) ⟨htile, hl⟩ (fun t ht => .inl (hdel t ht))
      (fun _ => False.elim) (sameFrame_recount st1 old _) rfl ?_ fun hd => ?_
    · rw [dataRecord_normal (by rw [hrec]; rfl), hrec]
      rfl
    · rw [hrec]
      show (if _ then _ else _) = _
      rw [hd, ite_self]
  · cases ht : st.ovfTarget p with
    | none =>
      rw [ht] at hn
      exact hn
    | some t =>
      simp only
      split_ifs with hfit'
      · obtain ⟨htt, hut⟩ := h.ovf.target_of hp hu ht
        have htp := h.ovf.target_ne hp hu ht
        obtain ⟨ho, hrid⟩ := ovfTarget_eq_some.1 ht
        obtain ⟨h1, hk1⟩ := h.updateTarget hp hu ht (cfg.recordData obj) hfit'
        have hr := setRecord_of_ne st ((st.records t).setData (cfg.recordData obj)) htp.symm
        have hrect := setRecord_self st t ((st.records t).setData (cfg.recordData obj))
        refine .written h.ovf hp hu h1 (hk1.mono fun q => Or.inl) ⟨hp, hu⟩ (fun t' ht' => .inr ?_)
          (fun _ => False.elim) (sameFrame_recount _ old _) rfl ?_ fun hd => ?_
        · rw [ht] at ht'
          cases ht'
          rw [hrect]
          exact h.ovf.target t htt hut
        · rw [dataRecord_ovf (by rw [hr]; exact ho) (by rw [hr]; exact hrid), hrect]
          rfl
        · rw [hr]
          exact hd
      · rw [ht] at hn
        exact hn

theorem Holding.updateRecord (h : Holding cfg s.store g []) (hp : IsTile s.store g p) (hu : g.use p = .live)
    (dataPtr : Option O) (obj : O) (he : env.Fresh s.store) (hf : f.Safe) :
    ∃ X, Settles cfg X s.store g (s.updateRecord cfg idx env p dataPtr obj f).2.store := by
  have hupd : ∀ old, ∃ X, Settles cfg X s.store g (s.extentUpdatedRecord cfg idx env p old obj f).2.store := by
    intro old
    unfold State.extentUpdatedRecord
    split
    · exact ⟨fun _ => False, h.settles _⟩
    · next hmax =>
      have hd := h.updateData hp hu he old (Nat.not_lt.1 hmax) hf
      simp only
      split_ifs
      · exact hd.settles
      · exact hd.settles
      · exact ⟨fun _ => False, h.settles _⟩
  unfold State.updateRecord
  cases f.entry with
  | some rc => exact ⟨fun _ => False, h.settles _⟩
  | none =>
    simp only
    split
    · exact ⟨fun _ => False, h.settles _⟩
    · next old _ =>
      unfold andThen
      split
      · exact hupd old
      · exact hupd old

end SequoiaDB.Dms.Data

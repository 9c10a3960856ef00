import SequoiaDB.Dms.DataSpace

/-!
# What the operations on records do

One lemma for each of `_extentInsertRecord` and `_extentRemoveRecord`, then for `insertRecord`, `updateRecord` and
`deleteRecord`: which pieces are held afterwards, and which records in use are touched.
-/

namespace SequoiaDB.Dms.Data

open SequoiaDB.Lib Function List Store Shape

variable {O ι : Type*} {cfg : Config O} {st st' : Store O} {g g' : Shape} {p q t : RID} {hs : List RID}

/-! ### Putting a record into reserved space -/

variable {k : Nat}

theorem saveDeletedRecord_of_ne (h : p ≠ q) : (st.saveDeletedRecord q k).records p = st.records p := by
  show ((st.markDeleted q k).pushDeleted q).records p = _
  rw [pushDeleted_records, if_neg h]
  exact setRecord_of_ne _ _ h

theorem saveDeletedRecord_state (st : Store O) (p : RID) :
    ((st.saveDeletedRecord p k).records p).state = .deleted := by
  show (((st.markDeleted p k).pushDeleted p).records p).state = _
  rw [pushDeleted_records]
  unfold markDeleted
  rw [setRecord_self]

theorem setRecord_saveDeletedRecord (h : p ≠ q) (r : Record O) :
    (st.saveDeletedRecord q k).setRecord p r = (st.setRecord p r).saveDeletedRecord q k := by
  unfold saveDeletedRecord markDeleted pushDeleted Store.setRecord Store.setExtent
  simp only [update_self, update_of_ne h.symm, update_idem]
  rw [update_comm h]

theorem Holding.split (h : Holding cfg st g (p :: hs)) (hp : p ∉ hs) (hk : 0 < k) (hm : k % 4 = 0)
    (hlt : k < (st.records p).size) :
    ∃ g', Holding cfg (st.splitRecord p k) g' (p :: hs) ∧ KeepsAll st g (st.splitRecord p k) g' ∧
      (st.splitRecord p k).records p = { st.records p with size := k } := by
  have ht := h.tile (mem_cons_self ..)
  have hu := h.use (mem_cons_self ..)
  have hmy := h.tiles.myOffset p ht
  obtain ⟨n, hn⟩ : ∃ n : RID, n = ⟨p.extent, p.offset + k⟩ := ⟨_, rfl⟩
  have hne : p ≠ n := by
    intro heq
    have := congrArg RID.offset (heq.trans hn)
    simp only at this
    omega
  have hnout : ¬ IsTile st g n := by
    rw [hn]
    exact fun hq => (h.tiles.tiles _ ht.1).not_mem_inside ht.2 hk hlt hq.2
  obtain ⟨r, hr⟩ : ∃ r, r = { st.records p with size := k } := ⟨_, rfl⟩
  -- the size of `p` can be set first
  have heq : st.splitRecord p k = (st.setRecord p r).saveDeletedRecord n ((st.records p).size - k) := by
    unfold splitRecord
    simp only [hmy, ← hn]
    rw [saveDeletedRecord_of_ne hne, setRecord_saveDeletedRecord hne, hr]
  obtain ⟨st1, hst1⟩ : ∃ st1, st1 = (st.setRecord p r).markDeleted n ((st.records p).size - k) := ⟨_, rfl⟩
  have hrecn : (st1.records n).size = (st.records p).size - k ∧ (st1.records n).myOffset = n.offset := by
    rw [hst1]
    exact markDeleted_new (by omega)
  have hrecp : st1.records p = r := by
    rw [hst1]
    unfold markDeleted
    rw [setRecord_of_ne _ _ hne, setRecord_self]
  have hrec : ∀ q, q ≠ n → q ≠ p → st1.records q = st.records q := by
    intro q hqn hqp
    rw [hst1]
    unfold markDeleted
    rw [setRecord_of_ne _ _ hqn, setRecord_of_ne _ _ hqp]
  have hf : SameFrame st st1 := by
    rw [hst1]
    exact ⟨rfl, fun _ => rfl, fun _ => rfl, fun _ => rfl, fun _ => rfl, rfl, rfl⟩
  have ho : ∀ {q}, IsTile st g q → q ≠ n := fun {q} hq heq => hnout (heq ▸ hq)
  obtain ⟨l, hl, hi⟩ := h.toInv.cut ht hu hk hlt hm hf
    ⟨by rw [hrecp, hr], by rw [hrecp, hr]; exact hmy⟩ (by rw [← hn, hrecn.1, hrecn.2, hn]; exact ⟨rfl, rfl⟩)
    fun q hq hqp => hrec q (ho hq) hqp
  rw [← hn] at hi
  have heq' : st.splitRecord p k = st1.pushDeleted n := by
    rw [heq, hst1]
    rfl
  rw [heq']
  obtain ⟨g', hpush, hstop, huse⟩ := hi.pushNew hf.extentIDs (by rw [hn]; exact hl) (by rw [hn]; exact ht.1)
    hnout (by rw [hst1]; exact markDeleted_isDeleted _)
  refine ⟨g', ⟨hpush, fun e he => ?_, fun q => (huse q .held (by simp)).trans (h.held q)⟩,
    ⟨fun q _ u hu' => huse q u (by rcases hu' with rfl | rfl <;> simp), fun q _ hq hu' => ?_⟩, ?_⟩
  · rw [pushDeleted_extents, hstop, hn, update_eq_self]
    show g.stop e = (st1.extents e).blockSize * _
    rw [hf.blockSize]
    exact h.stop e (hf.extentIDs ▸ he)
  · rw [pushDeleted_records, hrec q (ho hq)]
    · rfl
    · rintro rfl
      rw [hu] at hu'
      rcases hu' with hu' | hu' <;> cases hu'
  · rw [pushDeleted_records, if_neg hne, hrecp, hr]

/-- What `_extentInsertRecord` leaves in the record. -/
structure Placed (r : Record O) (data : RecordData O) (needRecordSize : Nat) : Prop where
  size : needRecordSize ≤ r.size
  payload : r.payload = (.normal, data.isCompressed, false, none, some data)
  nextOffset : r.nextOffset = none
  previousOffset : r.previousOffset = none

theorem Holding.place (h : Holding cfg st g (p :: hs)) (hp : p ∉ hs) (hk : 0 < k) (hm : k % 4 = 0)
    (hle : k ≤ (st.records p).size) (data : RecordData O) :
    ∃ g', Holding cfg (st.placeRecord p data k) g' (p :: hs) ∧ KeepsAll st g (st.placeRecord p data k) g' ∧
      Placed ((st.placeRecord p data k).records p) data k := by
  have hmem : p ∈ p :: hs := mem_cons_self ..
  obtain ⟨h1, hk1⟩ := h.setRecord hmem (r := (st.records p).setNormalReset) rfl (h.tiles.myOffset p (h.tile hmem))
  -- the piece after the split, if there is one
  obtain ⟨st2, hst2⟩ : ∃ st2, st2 = if (st.records p).size - k > DMS_MIN_RECORD_SZ then
      (st.setRecord p (st.records p).setNormalReset).splitRecord p k
    else st.setRecord p (st.records p).setNormalReset := ⟨_, rfl⟩
  obtain ⟨g2, h2, hk2, hsize, hn⟩ : ∃ g2, Holding cfg st2 g2 (p :: hs) ∧ KeepsAll st g st2 g2 ∧
      k ≤ (st2.records p).size ∧ (st2.records p).state = .normal ∧ (st2.records p).deleting = false := by
    rw [hst2]
    split
    · next hgt =>
      obtain ⟨g2, h2, hk2, hr⟩ := h1.split hp hk hm (by rw [setRecord_self]; exact (by omega : k < (st.records p).size))
      refine ⟨g2, h2, hk1.trans hk2, ?_⟩
      rw [hr, setRecord_self]
      exact ⟨Nat.le_refl _, rfl, rfl⟩
    · refine ⟨g, h1, hk1, ?_⟩
      rw [setRecord_self]
      exact ⟨hle, rfl, rfl⟩
  have heq : st.placeRecord p data k = st2.setRecord p { (st2.records p).setData data with
      nextOffset := none
      previousOffset := none } := by
    rw [hst2]
    rfl
  obtain ⟨h3, hk3⟩ := h2.setRecord hmem (r := { (st2.records p).setData data with
      nextOffset := none
      previousOffset := none }) rfl (h2.tiles.myOffset p (h2.tile hmem))
  rw [heq]
  refine ⟨g2, h3, hk2.trans hk3, ?_⟩
  rw [setRecord_self]
  refine ⟨hsize, ?_, rfl, rfl⟩
  show ((st2.records p).state, data.isCompressed, (if data.isCompressed then false else (st2.records p).deleting),
    (none : Option RID), some data) = _
  rw [hn.1, hn.2, ite_self]

variable {data : RecordData O}

theorem Holding.link (h : Holding cfg st g (p :: hs)) (hp : p ∉ hs) (hpl : Placed (st.records p) data k)
    (hf : data.diskLen + DMS_RECORD_METADATA_SZ ≤ k) :
    ∃ g', Holding cfg (st.linkLast p.extent p) g' hs ∧ Keeps (· = p) st g (st.linkLast p.extent p) g' ∧
      IsTile (st.linkLast p.extent p) g' p ∧ g'.use p = .live ∧
      ((st.linkLast p.extent p).records p).payload = (st.records p).payload := by
  have ht := h.tile (mem_cons_self ..)
  have hu := h.use (mem_cons_self ..)
  obtain ⟨hi, -, -⟩ := linkLast_frame st p
  have hdata : (st.records p).data = some data := congrArg (fun x => x.2.2.2.2) hpl.payload
  have hinv := h.toInv.link ht hu (congrArg Prod.fst hpl.payload) (fun d hd => by
    rw [hdata] at hd
    cases hd
    exact Nat.le_trans hf hpl.size) hpl.nextOffset hpl.previousOffset
  have hpay : ∀ q, ((st.linkLast p.extent p).records q).payload = (st.records q).payload := fun q => by
    rw [linkLast_records hpl.previousOffset]
    rfl
  refine ⟨_, ⟨hinv, fun e he => ?_, fun q => ?_⟩, ⟨fun q hq u hu' => ?_, fun q _ _ _ => hpay q⟩,
    (IsTile.congr hi).2 ht, setUse_self .., hpay p⟩
  · rw [hi] at he
    have hb : ((st.linkLast p.extent p).extents e).blockSize = (st.extents e).blockSize := by
      rw [linkLast_extents]
      split <;> rfl
    rw [hb]
    exact h.stop e he
  · rw [IsTile.congr hi]
    show IsTile st g q ∧ (g.setUse p .live).use q = .held ↔ _
    by_cases hq : q = p
    · subst hq
      simp [hp]
    · rw [setUse_of_ne _ hq, h.held]
      simp [hq]
  · rw [IsTile.congr hi]
    show IsTile st g q ∧ (g.setUse p .live).use q = u ↔ _
    rw [setUse_of_ne _ hq]

theorem Holding.congr (h : Holding cfg st g hs) (hf : SameFrame st st') (hr : st'.records = st.records) :
    Holding cfg st' g hs ∧ KeepsAll st g st' g := by
  refine ⟨⟨h.toInv.congr hf fun q _ => by rw [hr]; exact Agree.refl _ _, fun e he => ?_, fun q => ?_⟩,
    ⟨fun q _ u _ => ?_, fun q _ _ _ => by rw [hr]⟩⟩
  · rw [hf.blockSize]
    exact h.stop e (hf.extentIDs ▸ he)
  · rw [IsTile.congr hf.extentIDs]
    exact h.held q
  · rw [IsTile.congr hf.extentIDs]

theorem sameFrame_addData (st : Store O) (data : RecordData O) : SameFrame st (st.addData data) :=
  ⟨rfl, fun _ => rfl, fun _ => rfl, fun _ => rfl, fun _ => rfl, rfl, rfl⟩

theorem sameFrame_subData (st : Store O) (data : RecordData O) : SameFrame st (st.subData data) :=
  ⟨rfl, fun _ => rfl, fun _ => rfl, fun _ => rfl, fun _ => rfl, rfl, rfl⟩

theorem sameFrame_countRecord (st : Store O) (id : Nat) : SameFrame st (st.countRecord id) := by
  refine ⟨rfl, fun e => ?_, fun e => ?_, fun e => ?_, fun e => ?_, rfl, rfl⟩
  all_goals
    simp only [countRecord, Store.setExtent, update_apply]
    split
    · next heq => rw [heq]
    · rfl

/-- What `_extentInsertRecord` gives for a new record: the record is in use, or the piece is still held. -/
inductive Inserted (cfg : Config O) (hs : List RID) (p : RID) (data : RecordData O) (st : Store O) (g : Shape) :
    Outcome × Store O → Prop
  | ok {st' : Store O} {g' : Shape} (h : Holding cfg st' g' hs) (hk : Keeps (· = p) st g st' g')
      (htile : IsTile st' g' p) (hlive : g'.use p = .live)
      (hpay : (st'.records p).payload = (.normal, data.isCompressed, false, none, some data)) :
      Inserted cfg hs p data st g (.done .ok, st')
  | failed {o : Outcome} {st' : Store O} {g' : Shape} (ho : o ≠ .done .ok) (h : Holding cfg st' g' (p :: hs))
      (hk : KeepsAll st g st' g') : Inserted cfg hs p data st g (o, st')

theorem KeepsAll.mono {X : RID → Prop} (h : KeepsAll st g st' g') : Keeps X st g st' g' := Keeps.mono h fun _ => False.elim

theorem Holding.extentInsert (h : Holding cfg st g (p :: hs)) (hp : p ∉ hs) (hk : 0 < k) (hm : k % 4 = 0)
    (hle : k ≤ (st.records p).size) (hf : data.diskLen + DMS_RECORD_METADATA_SZ ≤ k) (f : InsertFaults) :
    Inserted cfg hs p data st g (st.extentInsertRecord p.extent p data k true f) := by
  unfold Store.extentInsertRecord
  cases f.lock with
  | some rc => exact .failed (fun heq => rc.property (Outcome.done.inj heq)) h (Keeps.refl ..)
  | none =>
    simp only
    split_ifs with hf1 hf2 hf3 hf4
    · exact .failed (by simp) h (Keeps.refl ..)
    · exact .failed (by simp) h (Keeps.refl ..)
    · exact .failed (by simp) h (Keeps.refl ..)
    · obtain ⟨h1, hk1⟩ := h.setRecord (mem_cons_self ..) (r := (st.records p).setNormalReset) rfl
        (h.tiles.myOffset p (h.tile (mem_cons_self ..)))
      exact .failed (by simp) h1 hk1
    · obtain ⟨g1, h1, hk1, hpl⟩ := h.place hp hk hm hle data
      unfold linkRecord
      split_ifs
      · exact .failed (by simp) h1 hk1
      · obtain ⟨h2, hk2⟩ := h1.congr (sameFrame_countRecord _ p.extent) rfl
        exact .failed (by simp) h2 (hk1.trans hk2)
      · obtain ⟨g2, h2, hk2, ht, hl, hpay⟩ := h1.link hp hpl hf
        obtain ⟨h3, hk3⟩ := h2.congr (sameFrame_addData _ data) rfl
        exact .ok h3 ((KeepsAll.mono hk1).trans (hk2.trans (KeepsAll.mono hk3))) ht hl (hpay.trans hpl.payload)

theorem Holding.extentPlace (h : Holding cfg st g (p :: hs)) (hp : p ∉ hs) (hk : 0 < k) (hm : k % 4 = 0)
    (hle : k ≤ (st.records p).size) (hl : data.isCompressed ∨ DMS_MIN_RECORD_DATA_SZ ≤ data.len)
    {f : InsertFaults} (hlock : f.lock = none) (hpointer : f.pointer = false) (hsplit : f.split = false) (id : Nat) :
    ∃ st' g', st.extentInsertRecord id p data k false f = (.done .ok, st'.addData data) ∧
      Holding cfg st' g' (p :: hs) ∧ KeepsAll st g st' g' ∧ Placed (st'.records p) data k := by
  obtain ⟨g1, h1, hk1, hpl⟩ := h.place hp hk hm hle data
  refine ⟨st.placeRecord p data k, g1, ?_, h1, hk1, hpl⟩
  have hlen' : ¬ (!data.isCompressed && decide (data.len < DMS_MIN_RECORD_DATA_SZ)) = true := by
    rcases hl with hc | hc
    · simp [hc]
    · simp [hc]
  simp [Store.extentInsertRecord, hlock, hpointer, hsplit, hlen', Nat.not_lt.2 hle]

/-! ### Removing a record -/

def Touched (st : Store O) (p q : RID) : Prop := q = p ∨ st.ovfTarget p = some q

theorem Holding.unlink (h : Holding cfg st g hs) (hp : IsTile st g p) (hu : g.use p = .live) (dec : Bool) :
    ∃ g', Holding cfg (st.relink p dec) g' (p :: ((st.ovfTarget p).toList ++ hs)) ∧
      Keeps (Touched st p) st g (st.relink p dec) g' := by
  obtain ⟨hi, -, -⟩ := relink_frame st p dec
  have hne : ∀ t, st.ovfTarget p = some t → t ≠ p := fun t => h.ovf.target_ne hp hu
  have hpay : ∀ q, ((st.relink p dec).records q).payload = (st.records q).payload := fun q => by
    rw [relink_records]
    rfl
  have huse : ∀ q, q ≠ p → st.ovfTarget p ≠ some q →
      ((g.setUse p .held).dropTarget (st.ovfTarget p)).use q = g.use q := by
    intro q hqp hqt
    rw [dropTarget_use, if_neg hqt, setUse_of_ne _ hqp]
  have ht : ∀ {q}, IsTile (st.relink p dec) (((g.setUse p .held).dropTarget (st.ovfTarget p)).setLinks p.extent
      ((g.links p.extent).erase p.offset)) q ↔ IsTile st g q :=
    (IsTile.congr hi).trans (IsTile.reshape (by simp))
  refine ⟨_, ⟨h.toInv.unlink hp hu dec, fun e he => ?_, fun q => ?_⟩, ⟨fun q hq u _ => ?_, fun q _ _ _ => hpay q⟩⟩
  · rw [hi] at he
    rw [setLinks_stop, dropTarget_stop, setUse_stop, h.stop e he, relink_extents]
    split <;> rfl
  · rw [ht, setLinks_use]
    simp only [mem_cons, mem_append, Option.mem_toList]
    by_cases hqp : q = p
    · subst hqp
      rw [dropTarget_self hne, setUse_self]
      simp [hp]
    · by_cases hqt : st.ovfTarget p = some q
      · rw [dropTarget_use, if_pos hqt]
        simp [hqt, (h.ovf.target_of hp hu hqt).1]
      · rw [huse q hqp hqt, h.held]
        simp [hqp, hqt]
  · obtain ⟨hqp, hqt⟩ := not_or.1 hq
    rw [ht, setLinks_use, huse q hqp hqt]

variable {f : RemoveFaults}

theorem extentRemoveRecord_eq (hs : (st.records p).state ≠ .ovt) (dec : Bool) (hn : f.next = false)
    (hsave : f.save = false) : st.extentRemoveRecord p.extent p dec f =
      if f.lock then (.done .sys, st) else if f.pointer then (.thrown, st)
      else (.done .ok, (st.relink p dec).saveDeletedRecord p 0) := by
  simp only [Store.extentRemoveRecord, hs, hn, hsave, Bool.false_eq_true, and_false, if_false]
  rfl

theorem Holding.extentRemove (h : Holding cfg st g hs) (hp : IsTile st g p) (hu : g.use p = .live) (dec : Bool)
    (hn : f.next = false) (hsave : f.save = false) :
    ((st.extentRemoveRecord p.extent p dec f).1 ≠ .done .ok ∧ (st.extentRemoveRecord p.extent p dec f).2 = st) ∨
    ∃ st' g', st.extentRemoveRecord p.extent p dec f = (.done .ok, st') ∧
      Holding cfg st' g' ((st.ovfTarget p).toList ++ hs) ∧
      Keeps (Touched st p) st g st' g' ∧ (st'.records p).state = .deleted ∧
      ∀ q, q ≠ p → (st'.records q).payload = (st.records q).payload := by
  have hstate : (st.records p).state ≠ .ovt := by
    rcases h.ovf.live p hp hu with hs | hs <;> rw [hs] <;> simp
  rw [extentRemoveRecord_eq hstate dec hn hsave]
  split_ifs
  · exact .inl ⟨by simp, rfl⟩
  · exact .inl ⟨by simp, rfl⟩
  · right
    obtain ⟨g1, h1, hk1⟩ := h.unlink hp hu dec
    have ho : p ∉ (st.ovfTarget p).toList ++ hs := by
      rw [mem_append, Option.mem_toList, not_or]
      exact ⟨fun ht => h.ovf.target_ne hp hu ht rfl, h.not_mem (by simp [hu])⟩
    obtain ⟨g2, h2, hk2⟩ := h1.saveDeleted ho
    refine ⟨_, g2, rfl, h2, hk1.trans (KeepsAll.mono hk2), saveDeletedRecord_state _ _, fun q hq => ?_⟩
    rw [saveDeletedRecord_of_ne hq, relink_records]
    rfl

def RemoveFaults.Early (f : RemoveFaults) : Prop := f.next = false ∧ f.save = false

def RemoveFaults.Never (f : RemoveFaults) : Prop := f.lock = false ∧ f.pointer = false ∧ f.next = false ∧ f.save = false

instance (f : RemoveFaults) : Decidable f.Early := inferInstanceAs (Decidable (_ ∧ _))

instance (f : RemoveFaults) : Decidable f.Never := inferInstanceAs (Decidable (_ ∧ _ ∧ _ ∧ _))

theorem extentRemoveRecord_target (ho : (st.records t).state = .ovt) (id : Nat) (hf : f.Never) :
    st.extentRemoveRecord id t false f = (.done .ok, st.saveDeletedRecord t 0) := by
  obtain ⟨hl, hp, -, hs⟩ := hf
  simp [Store.extentRemoveRecord, hl, hp, hs, ho]

theorem Holding.removeRecord (h : Holding cfg st g []) (hp : IsTile st g p) (hu : g.use p = .live) (dec : Bool)
    {f : DeleteFaults} (hf : f.remove.Early) (hfo : f.removeOvf.Never) :
    ((st.removeRecord p dec f).1 ≠ .ok ∧ (st.removeRecord p dec f).2 = st) ∨
    ∃ st' g', st.removeRecord p dec f = (.ok, st') ∧ Holding cfg st' g' [] ∧ Keeps (Touched st p) st g st' g' ∧
      (st'.records p).state = .deleted := by
  unfold Store.removeRecord
  rcases h.extentRemove hp hu dec hf.1 hf.2 with ⟨hne, heq⟩ | ⟨st1, g1, heq, h1, hk1, hd, hpay⟩
  · left
    obtain ⟨o, ho⟩ : ∃ o, st.extentRemoveRecord p.extent p dec f.remove = (o, st) := ⟨_, Prod.ext rfl heq⟩
    rw [ho] at hne ⊢
    rcases o with rc | _
    · cases rc <;> first | exact absurd rfl hne | exact ⟨by simp [Outcome.rc], rfl⟩
    · exact ⟨by simp [Outcome.rc], rfl⟩
  · right
    rw [heq]
    cases ht : st.ovfTarget p with
    | none =>
      rw [ht] at h1
      exact ⟨st1, g1, rfl, h1, hk1, hd⟩
    | some t =>
      have htp := h.ovf.target_ne hp hu ht
      obtain ⟨htt, hut⟩ := h.ovf.target_of hp hu ht
      rw [ht] at h1
      have hovt : (st1.records t).state = .ovt :=
        (congrArg Prod.fst (hpay t htp)).trans (h.ovf.target t htt hut)
      obtain ⟨g2, h2, hk2⟩ := Holding.saveDeleted h1 (by simp)
      refine ⟨_, g2, ?_, h2, hk1.trans (KeepsAll.mono hk2), by rw [saveDeletedRecord_of_ne htp.symm]; exact hd⟩
      simp only [extentRemoveRecord_target hovt p.extent hfo]

end SequoiaDB.Dms.Data

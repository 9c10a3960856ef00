import SequoiaDB.Dms.DataMoves

/-!
# Records in use: their links and their overflow targets
-/

namespace SequoiaDB.Dms.Data

open SequoiaDB.Lib Function List Option Shape Store

variable {O : Type*} {st st' : Store O} {g g' : Shape} {p q t n : RID}

/-! ### References to overflow targets -/

def Shape.dropTarget (g : Shape) : Option RID → Shape
  | none => g
  | some t => g.setUse t .held

@[simp] theorem Shape.dropTarget_tiles (t : Option RID) : (g.dropTarget t).tiles = g.tiles := by cases t <;> rfl

@[simp] theorem Shape.dropTarget_stop (t : Option RID) : (g.dropTarget t).stop = g.stop := by cases t <;> rfl

@[simp] theorem Shape.dropTarget_lists (t : Option RID) : (g.dropTarget t).lists = g.lists := by cases t <;> rfl

@[simp] theorem Shape.dropTarget_links (t : Option RID) : (g.dropTarget t).links = g.links := by cases t <;> rfl

theorem Shape.dropTarget_use (t : Option RID) : (g.dropTarget t).use q = if t = some q then .held else g.use q := by
  cases t with
  | none => simp [dropTarget]
  | some t =>
    by_cases hq : t = q
    · simp [dropTarget, hq]
    · rw [if_neg (by simp [hq])]
      exact setUse_of_ne _ fun heq => hq heq.symm

theorem Shape.dropTarget_iff {x : Option RID} {u : Use} (hu : u ≠ .held) (hx : ∀ t, x = some t → g.use t ≠ u) :
    (g.dropTarget x).use q = u ↔ g.use q = u := by
  rw [dropTarget_use]
  split
  · next heq => exact ⟨fun h => absurd h.symm hu, fun h => absurd h (hx q heq)⟩
  · exact Iff.rfl

theorem ovfTarget_eq_some : st.ovfTarget p = some t ↔ (st.records p).state = .ovf ∧ (st.records p).ovfRID = some t := by
  unfold ovfTarget
  split <;> simp_all

theorem OvfInv.target_of (h : OvfInv st g) (hp : IsTile st g p) (hu : g.use p = .live) (ht : st.ovfTarget p = some t) :
    IsTile st g t ∧ g.use t = .target := by
  obtain ⟨ho, hr⟩ := ovfTarget_eq_some.1 ht
  obtain ⟨t', ht', htile, hut⟩ := h.ovf_target p hp hu ho
  rw [hr] at ht'
  cases ht'
  exact ⟨htile, hut⟩

theorem OvfInv.target_ne (h : OvfInv st g) (hp : IsTile st g p) (hu : g.use p = .live) (ht : st.ovfTarget p = some t) :
    t ≠ p :=
  ne_of_apply_ne g.use (by simp [hu, (h.target_of hp hu ht).2])

theorem OvfInv.release (h : OvfInv st g) (hp : IsTile st g p) (hu : g.use p = .live) :
    OvfInv st ((g.setUse p .held).dropTarget (st.ovfTarget p)) := by
  generalize hg' : (g.setUse p .held).dropTarget (st.ovfTarget p) = g'
  have htile : ∀ {q}, IsTile st g' q ↔ IsTile st g q := IsTile.reshape (by rw [← hg']; simp)
  have huse : ∀ {q u}, u ≠ .held → (g'.use q = u ↔ g.use q = u ∧ q ≠ p ∧ st.ovfTarget p ≠ some q) := by
    intro q u hne
    rw [← hg', dropTarget_use]
    by_cases ht : st.ovfTarget p = some q
    · simp [ht, hne.symm]
    · rw [if_neg ht]
      by_cases hq : q = p
      · subst hq
        simp [hne.symm]
      · rw [setUse_of_ne _ hq]
        simp [hq, ht]
  have hlive : ∀ {q}, g'.use q = .live → g.use q = .live ∧ q ≠ p := fun {q} hq =>
    let hq := (huse (by simp)).1 hq
    ⟨hq.1, hq.2.1⟩
  have htarget : ∀ {q}, g'.use q = .target ↔ g.use q = .target ∧ q ≠ p ∧ st.ovfTarget p ≠ some q := huse (by simp)
  constructor
  · intro q hq hl
    exact h.live q (htile.1 hq) (hlive hl).1
  · intro q hq hl
    exact h.target q (htile.1 hq) (htarget.1 hl).1
  · intro q hq hl ho
    obtain ⟨t, ht, htt, hut⟩ := h.ovf_target q (htile.1 hq) (hlive hl).1 ho
    refine ⟨t, ht, htile.2 htt, htarget.2 ⟨hut, ?_, fun heq => ?_⟩⟩
    · exact ne_of_apply_ne g.use (by simp [hu, hut])
    · -- no other record refers to the target
      obtain ⟨hovf', hrid'⟩ := ovfTarget_eq_some.1 heq
      exact (hlive hl).2 (h.ovf_inj q p (htile.1 hq) hp (hlive hl).1 hu ho hovf' (ht.trans hrid'.symm))
  · intro t ht hut
    obtain ⟨hut, -, hne⟩ := htarget.1 hut
    obtain ⟨q, hq, hl, ho, hr⟩ := h.target_ovf t (htile.1 ht) hut
    have hqp : q ≠ p := by
      rintro rfl
      exact hne (ovfTarget_eq_some.2 ⟨ho, hr⟩)
    refine ⟨q, htile.2 hq, (huse (by simp)).2 ⟨hl, hqp, fun heq => ?_⟩, ho, hr⟩
    have := (h.target_of hp hu heq).2
    rw [hl] at this
    cases this
  · intro q q' hq hq' hl hl'
    exact h.ovf_inj q q' (htile.1 hq) (htile.1 hq') (hlive hl).1 (hlive hl').1
  · intro q hq hl
    exact h.fits q (htile.1 hq) (hl.imp (fun hl => (hlive hl).1) fun hl => (htarget.1 hl).1)

theorem OvfInv.attach (h : OvfInv st g) (hu : g.use p = .held) (hs : (st.records p).state = .normal)
    (hf : ∀ d ∈ (st.records p).data, d.diskLen + DMS_RECORD_METADATA_SZ ≤ (st.records p).size) :
    OvfInv st (g.setUse p .live) := by
  have htile : ∀ {q}, IsTile st (g.setUse p .live) q ↔ IsTile st g q := IsTile.reshape rfl
  have hlive : ∀ {q}, (g.setUse p .live).use q = .live → q = p ∨ g.use q = .live := by
    intro q hq
    by_cases hqp : q = p
    · exact .inl hqp
    · rw [setUse_of_ne _ hqp] at hq
      exact .inr hq
  have hovf : ∀ {q}, (g.setUse p .live).use q = .live → (st.records q).state = .ovf → g.use q = .live := by
    intro q hq hovf
    rcases hlive hq with rfl | hq
    · rw [hs] at hovf
      cases hovf
    · exact hq
  have htarget : ∀ {q}, (g.setUse p .live).use q = .target ↔ g.use q = .target := fun {q} =>
    setUse_iff (by simp) (by simp [hu])
  constructor
  · intro q hq hl
    rcases hlive hl with rfl | hl
    · exact .inl hs
    · exact h.live q (htile.1 hq) hl
  · intro q hq hl
    exact h.target q (htile.1 hq) (htarget.1 hl)
  · intro q hq hl ho
    obtain ⟨t, ht, htt, hut⟩ := h.ovf_target q (htile.1 hq) (hovf hl ho) ho
    exact ⟨t, ht, htile.2 htt, htarget.2 hut⟩
  · intro t ht hut
    obtain ⟨q, hq, hl, ho, hr⟩ := h.target_ovf t (htile.1 ht) (htarget.1 hut)
    refine ⟨q, htile.2 hq, ?_, ho, hr⟩
    by_cases hqp : q = p
    · rw [hqp, setUse_self]
    · rw [setUse_of_ne _ hqp]
      exact hl
  · intro q q' hq hq' hl hl' ho ho'
    exact h.ovf_inj q q' (htile.1 hq) (htile.1 hq') (hovf hl ho) (hovf hl' ho') ho ho'
  · intro q hq hl
    rcases hl with hl | hl
    · rcases hlive hl with rfl | hl
      · exact hf
      · exact h.fits q (htile.1 hq) (.inl hl)
    · exact h.fits q (htile.1 hq) (.inr (htarget.1 hl))

theorem OvfInv.attachOvf (h : OvfInv st g) (hp : IsTile st g p) (hn : IsTile st g n) (hu : g.use p = .held)
    (hun : g.use n = .held) (hne : n ≠ p) (hs : (st.records p).state = .ovf) (hr : (st.records p).ovfRID = some n)
    (hsn : (st.records n).state = .ovt) (hd : (st.records p).data = none)
    (hfit : ∀ d ∈ (st.records n).data, d.diskLen + DMS_RECORD_METADATA_SZ ≤ (st.records n).size) :
    OvfInv st ((g.setUse p .live).setUse n .target) := by
  generalize hg' : (g.setUse p .live).setUse n .target = g'
  have htile : ∀ {q}, IsTile st g' q ↔ IsTile st g q := IsTile.reshape (by rw [← hg']; rfl)
  have husep : g'.use p = .live := by rw [← hg', setUse_of_ne _ hne.symm, setUse_self]
  have husen : g'.use n = .target := by rw [← hg', setUse_self]
  have huse : ∀ {q}, q ≠ p → q ≠ n → g'.use q = g.use q := fun {q} hqp hqn => by
    rw [← hg', setUse_of_ne _ hqn, setUse_of_ne _ hqp]
  have hlive : ∀ {q}, g'.use q = .live → q = p ∨ g.use q = .live := by
    intro q hq
    by_cases hqp : q = p
    · exact .inl hqp
    · refine .inr (huse hqp ?_ ▸ hq)
      rintro rfl
      rw [husen] at hq
      cases hq
  have htarget : ∀ {q}, g'.use q = .target → q = n ∨ g.use q = .target := by
    intro q hq
    by_cases hqn : q = n
    · exact .inl hqn
    · refine .inr (huse ?_ hqn ▸ hq)
      rintro rfl
      rw [husep] at hq
      cases hq
  -- a piece that was in use before is neither of the two
  have hold : ∀ {q}, g.use q ≠ .held → g'.use q = g.use q := fun {q} hq =>
    huse (fun heq => hq (heq ▸ hu)) fun heq => hq (heq ▸ hun)
  have hf : ∀ {q}, IsTile st g q → g.use q = .live → (st.records q).state = .ovf →
      (st.records q).ovfRID ≠ some n := by
    intro q hq hl ho heq
    have := (h.target_of hq hl (ovfTarget_eq_some.2 ⟨ho, heq⟩)).2
    rw [hun] at this
    cases this
  constructor
  · intro q hq hl
    rcases hlive hl with rfl | hl
    · exact .inr hs
    · exact h.live q (htile.1 hq) hl
  · intro q hq hl
    rcases htarget hl with rfl | hl
    · exact hsn
    · exact h.target q (htile.1 hq) hl
  · intro q hq hl ho
    rcases hlive hl with rfl | hl
    · exact ⟨n, hr, htile.2 hn, husen⟩
    · obtain ⟨t, ht, htt, hut⟩ := h.ovf_target q (htile.1 hq) hl ho
      exact ⟨t, ht, htile.2 htt, by rw [hold (by simp [hut]), hut]⟩
  · intro t ht hut
    rcases htarget hut with rfl | hut
    · exact ⟨p, htile.2 hp, husep, hs, hr⟩
    · obtain ⟨q, hq, hl, ho, hq'⟩ := h.target_ovf t (htile.1 ht) hut
      exact ⟨q, htile.2 hq, by rw [hold (by simp [hl]), hl], ho, hq'⟩
  · intro q q' hq hq' hl hl' ho ho' heq
    rcases hlive hl with rfl | hl <;> rcases hlive hl' with rfl | hl'
    · rfl
    · exact absurd (heq ▸ hr) (hf (htile.1 hq') hl' ho')
    · exact absurd (heq.trans hr) (hf (htile.1 hq) hl ho)
    · exact h.ovf_inj q q' (htile.1 hq) (htile.1 hq') hl hl' ho ho' heq
  · intro q hq hl
    rcases hl with hl | hl
    · rcases hlive hl with rfl | hl
      · rw [hd]
        simp
      · exact h.fits q (htile.1 hq) (.inl hl)
    · rcases htarget hl with rfl | hl
      · exact hfit
      · exact h.fits q (htile.1 hq) (.inr hl)

/-! ### The record list of an extent -/

def Shape.setLinks (g : Shape) (e : Nat) (l : List Nat) : Shape := { g with links := update g.links e l }

@[simp] theorem Shape.setLinks_tiles (e : Nat) (l : List Nat) : (g.setLinks e l).tiles = g.tiles := rfl

@[simp] theorem Shape.setLinks_stop (e : Nat) (l : List Nat) : (g.setLinks e l).stop = g.stop := rfl

@[simp] theorem Shape.setLinks_use (e : Nat) (l : List Nat) : (g.setLinks e l).use = g.use := rfl

@[simp] theorem Shape.setLinks_lists (e : Nat) (l : List Nat) : (g.setLinks e l).lists = g.lists := rfl

@[simp] theorem Shape.setLinks_links (e : Nat) (l : List Nat) : (g.setLinks e l).links = update g.links e l := rfl

theorem LinkInv.relink (h : LinkInv st g) {e : Nat} {l : List Nat} (hi : st'.extentIDs = st.extentIDs)
    (hl : g'.links = update g.links e l) (ht : g'.tiles = g.tiles)
    (ho : ∀ e', e' ≠ e → ∀ o, (g'.use ⟨e', o⟩ = .live ↔ g.use ⟨e', o⟩ = .live) ∧
      (st'.records ⟨e', o⟩).nextOffset = (st.records ⟨e', o⟩).nextOffset ∧
      (st'.records ⟨e', o⟩).previousOffset = (st.records ⟨e', o⟩).previousOffset)
    (hext : ∀ e', e' ≠ e → (st'.extents e').firstRecordOffset = (st.extents e').firstRecordOffset ∧
      (st'.extents e').lastRecordOffset = (st.extents e').lastRecordOffset)
    (hc : ChainTo (fun o => (st'.records ⟨e, o⟩).nextOffset) (fun o => (st'.records ⟨e, o⟩).previousOffset)
      none l none) (hnd : l.Nodup) (hm : ∀ o, o ∈ l ↔ o ∈ g.tiles e ∧ g'.use ⟨e, o⟩ = .live)
    (hf : (st'.extents e).firstRecordOffset = l.head?) (hlast : (st'.extents e).lastRecordOffset = l.getLast?) :
    LinkInv st' g' := by
  refine linkInv_iff.2 fun e' he => ?_
  rw [hi] at he
  by_cases hee : e' = e
  · have hle : g'.links e = l := by rw [hl, update_self]
    subst hee
    subst hle
    exact ⟨hc, hnd, ht ▸ hm, hf, hlast⟩
  · refine (linkInv_iff.1 h e' he).transfer (by rw [hl, update_of_ne hee]) (fun o => ?_) (hext e' hee).1 (hext e' hee).2
      fun o _ => (ho e' hee o).2
    rw [ht, (ho e' hee o).1]

/-! ### Linking a new record -/

theorem linkLast_records (hp : (st.records p).previousOffset = none) (q : RID) :
    (st.linkLast p.extent p).records q = { st.records q with
      nextOffset := if (st.extents p.extent).lastRecordOffset.map (RID.mk p.extent) = some q then
        some (st.records p).myOffset else (st.records q).nextOffset
      previousOffset := if q = p then (st.extents p.extent).lastRecordOffset else (st.records q).previousOffset } := by
  unfold linkLast
  cases hlast : (st.extents p.extent).lastRecordOffset with
  | none =>
    by_cases hq : q = p
    · subst hq
      simp only [setLast, countRecord, Store.setExtent, map_none, reduceCtorEq, if_false, if_true]
      rw [← hp]
    · simp [setLast, countRecord, Store.setExtent, hq]
  | some o =>
    simp only [setLast, countRecord, Store.setExtent, Store.setRecord, update_apply, map_some, some.injEq]
    by_cases hq : q = p <;> by_cases hq' : q = ⟨p.extent, o⟩
    · subst hq
      simp [← hq']
    · subst hq
      simp [hq', Ne.symm hq']
    · subst hq'
      simp [hq]
    · simp [hq, hq', Ne.symm hq']

theorem linkLast_extents (e : Nat) : (st.linkLast p.extent p).extents e =
    if e = p.extent then
      { st.extents e with
        recCount := (st.extents e).recCount + 1
        lastRecordOffset := some (st.records p).myOffset
        firstRecordOffset := some ((st.extents e).firstRecordOffset.getD (st.records p).myOffset) }
    else st.extents e := by
  unfold linkLast
  by_cases he : e = p.extent <;> cases (st.extents p.extent).lastRecordOffset <;>
    simp [setLast, countRecord, Store.setExtent, Store.setRecord, he]

theorem linkLast_frame (st : Store O) (p : RID) : (st.linkLast p.extent p).extentIDs = st.extentIDs ∧
    (st.linkLast p.extent p).deleteList = st.deleteList ∧
    (st.linkLast p.extent p).totalDataFreeSpace = st.totalDataFreeSpace := by
  unfold linkLast
  cases (st.extents p.extent).lastRecordOffset <;> exact ⟨rfl, rfl, rfl⟩

theorem LinkInv.link (h : LinkInv st g) (hp : IsTile st g p) (hmy : (st.records p).myOffset = p.offset)
    (hu : g.use p = .held) (hn : (st.records p).nextOffset = none) (hprev : (st.records p).previousOffset = none) :
    LinkInv (st.linkLast p.extent p) ((g.setUse p .live).setLinks p.extent (g.links p.extent ++ [p.offset])) := by
  have hout : p.offset ∉ g.links p.extent := fun hm => by
    have := ((h.mem _ hp.1 _).1 hm).2
    rw [show (⟨p.extent, p.offset⟩ : RID) = p from rfl, hu] at this
    cases this
  have hne : ∀ o ∈ g.links p.extent, (⟨p.extent, o⟩ : RID) ≠ p := fun o ho heq => hout (by rw [← heq]; exact ho)
  have hl := h.last _ hp.1
  refine h.relink (linkLast_frame st p).1 rfl rfl (fun e he o => ?_) (fun e he => ?_) ?_ ?_ (fun o => ?_) ?_ ?_
  · have hq : (⟨e, o⟩ : RID) ≠ p := fun heq => he (by rw [← heq])
    rw [linkLast_records hprev, if_neg hq, if_neg, setLinks_use, setUse_of_ne _ hq]
    · exact ⟨Iff.rfl, rfl, rfl⟩
    · rw [map_eq_some_iff]
      rintro ⟨o', -, heq⟩
      exact he (congrArg RID.extent heq).symm
  · rw [linkLast_extents, if_neg he]
    exact ⟨rfl, rfl⟩
  · simp only [linkLast_records hprev, hl, hmy]
    refine (h.chain _ hp.1).snoc (h.nodup _ hp.1) (fun o ho => ?_) (fun o ho => ?_) ?_ ?_
    · simp
    · rw [if_neg (hne o ho)]
    · rw [if_neg]
      · exact hn
      · rw [map_eq_some_iff]
        rintro ⟨o, ho, heq⟩
        exact hne o (List.mem_of_getLast? ho) heq
    · rw [if_pos rfl]
  · exact (h.nodup _ hp.1).append (nodup_singleton _) (disjoint_singleton.2 hout)
  · rw [mem_append, mem_singleton, setLinks_use, h.mem _ hp.1]
    by_cases ho : o = p.offset
    · subst ho
      simp [show (⟨p.extent, p.offset⟩ : RID) = p from rfl, hp.2]
    · rw [setUse_of_ne _ fun heq => ho (by rw [← heq])]
      simp [ho]
  · rw [linkLast_extents, if_pos rfl, h.first _ hp.1, hmy]
    cases g.links p.extent <;> simp
  · rw [linkLast_extents, if_pos rfl, hmy]
    simp

theorem Inv.link (h : Inv st g) (hp : IsTile st g p) (hu : g.use p = .held) (hs : (st.records p).state = .normal)
    (hf : ∀ d ∈ (st.records p).data, d.diskLen + DMS_RECORD_METADATA_SZ ≤ (st.records p).size)
    (hn : (st.records p).nextOffset = none) (hprev : (st.records p).previousOffset = none) :
    Inv (st.linkLast p.extent p) ((g.setUse p .live).setLinks p.extent (g.links p.extent ++ [p.offset])) := by
  refine h.relinked (linkLast_frame st p) (fun e => ?_) (fun q => ?_) (fun q _ => ?_) rfl rfl rfl
    (fun q => setUse_iff (by simp) (by simp [hu])) (h.links.link hp (h.tiles.myOffset p hp) hu hn hprev) ?_
  · rw [linkLast_extents]
    split <;> rfl
  · rw [linkLast_records hprev]
    exact ⟨rfl, rfl⟩
  · rw [linkLast_records hprev]
    exact ⟨rfl, rfl⟩
  · have hi := (linkLast_frame st p).1
    refine (h.ovf.attach hu hs hf).transfer_payload (.of_iff hi rfl fun _ => Iff.rfl)
      (.of_iff hi rfl fun _ => Iff.rfl) fun q _ _ => ?_
    rw [linkLast_records hprev]
    exact ⟨rfl, rfl⟩

/-! ### Unlinking a record -/

def Store.relink (st : Store O) (p : RID) (decCount : Bool) : Store O :=
  ((st.relinkPrev p.extent (st.records p).previousOffset (st.records p).nextOffset).relinkNext p.extent
    (st.records p).previousOffset (st.records p).nextOffset).relinkEnds p.extent p.offset
    (st.records p).previousOffset (st.records p).nextOffset decCount

theorem relinkPrev_records (id : Nat) (prev next : Option Nat) (q : RID) :
    (st.relinkPrev id prev next).records q = { st.records q with
      nextOffset := if prev.map (RID.mk id) = some q then next else (st.records q).nextOffset } := by
  cases prev with
  | none => simp [relinkPrev]
  | some o =>
    by_cases hq : q = ⟨id, o⟩
    · subst hq
      simp [relinkPrev, Store.setRecord]
    · simp [relinkPrev, Store.setRecord, hq, Ne.symm hq]

theorem relinkNext_records (id : Nat) (prev next : Option Nat) (q : RID) :
    (st.relinkNext id prev next).records q = { st.records q with
      previousOffset := if next.map (RID.mk id) = some q then prev else (st.records q).previousOffset } := by
  cases next with
  | none => simp [relinkNext]
  | some o =>
    by_cases hq : q = ⟨id, o⟩
    · subst hq
      simp [relinkNext, Store.setRecord]
    · simp [relinkNext, Store.setRecord, hq, Ne.symm hq]

theorem relinkEnds_records (id offset : Nat) (prev next : Option Nat) (dec : Bool) :
    (st.relinkEnds id offset prev next dec).records = st.records := by
  unfold relinkEnds
  cases dec <;> rfl

theorem relink_records (dec : Bool) (q : RID) : (st.relink p dec).records q = { st.records q with
      nextOffset := if (st.records p).previousOffset.map (RID.mk p.extent) = some q then (st.records p).nextOffset
        else (st.records q).nextOffset
      previousOffset := if (st.records p).nextOffset.map (RID.mk p.extent) = some q then (st.records p).previousOffset
        else (st.records q).previousOffset } := by
  unfold Store.relink
  rw [relinkEnds_records, relinkNext_records, relinkPrev_records]

theorem relinkPrev_rest (id : Nat) (prev next : Option Nat) :
    (st.relinkPrev id prev next) = { st with records := (st.relinkPrev id prev next).records } := by
  cases prev <;> rfl

theorem relinkNext_rest (id : Nat) (prev next : Option Nat) :
    (st.relinkNext id prev next) = { st with records := (st.relinkNext id prev next).records } := by
  cases next <;> rfl

theorem relink_frame (st : Store O) (p : RID) (dec : Bool) : (st.relink p dec).extentIDs = st.extentIDs ∧
    (st.relink p dec).deleteList = st.deleteList ∧
    (st.relink p dec).totalDataFreeSpace = st.totalDataFreeSpace := by
  unfold Store.relink
  rw [relinkNext_rest, relinkPrev_rest]
  unfold relinkEnds
  cases dec <;> exact ⟨rfl, rfl, rfl⟩

def Extent.unlink (x : Extent) (offset : Nat) (prev next : Option Nat) (n : Int) : Extent :=
  { x with
    firstRecordOffset := if x.firstRecordOffset = some offset then next else x.firstRecordOffset
    lastRecordOffset := if x.lastRecordOffset = some offset then prev else x.lastRecordOffset
    recCount := x.recCount - n }

theorem relink_extents (dec : Bool) (e : Nat) : (st.relink p dec).extents e =
    if e = p.extent then (st.extents e).unlink p.offset (st.records p).previousOffset (st.records p).nextOffset
      (if dec then 1 else 0) else st.extents e := by
  unfold Store.relink
  rw [relinkNext_rest, relinkPrev_rest]
  unfold relinkEnds Extent.unlink
  by_cases he : e = p.extent
  · subst he
    cases dec <;> simp [Store.setExtent] <;> split_ifs <;> simp
  · cases dec <;> simp [Store.setExtent, he]

theorem LinkInv.unlink (h : LinkInv st g) (hp : IsTile st g p) (hu : g.use p = .live) (ht : g'.tiles = g.tiles)
    (hl : g'.links = update g.links p.extent ((g.links p.extent).erase p.offset))
    (hlive : ∀ q, g'.use q = .live ↔ g.use q = .live ∧ q ≠ p) (dec : Bool) :
    LinkInv (st.relink p dec) g' := by
  have hm : p.offset ∈ g.links p.extent := (h.mem _ hp.1 _).2 ⟨hp.2, hu⟩
  obtain ⟨xs, ys, hxy⟩ := append_of_mem hm
  have hnd := h.nodup _ hp.1
  have hc := h.chain _ hp.1
  rw [hxy] at hnd hc
  have ho := nodup_cons.1 (perm_middle.nodup_iff.1 hnd)
  have herase : (g.links p.extent).erase p.offset = xs ++ ys := by
    rw [hxy, erase_append_right _ fun hx => ho.1 (mem_append_left _ hx), erase_cons_head]
  obtain ⟨hprev, hn⟩ : (st.records p).previousOffset = xs.getLast? ∧ (st.records p).nextOffset = ys.head? :=
    hc.links
  rw [herase] at hl
  refine h.relink (relink_frame st p dec).1 hl ht (fun e he o => ?_) (fun e he => ?_) ?_ ho.2 (fun o => ?_) ?_ ?_
  · have hq : (⟨e, o⟩ : RID) ≠ p := fun heq => he (by rw [← heq])
    have hne : ∀ x : Option Nat, x.map (RID.mk p.extent) ≠ some ⟨e, o⟩ := by
      intro x hx
      obtain ⟨o', -, heq⟩ := map_eq_some_iff.1 hx
      exact he (congrArg RID.extent heq).symm
    rw [relink_records, if_neg (hne _), if_neg (hne _), hlive]
    exact ⟨⟨fun hl => hl.1, fun hl => ⟨hl, hq⟩⟩, rfl, rfl⟩
  · rw [relink_extents, if_neg he]
    exact ⟨rfl, rfl⟩
  · simp only [relink_records, hprev, hn]
    refine hc.unlink hnd (fun o _ => ?_) fun o _ => ?_
    · simp
    · simp
  · rw [← herase, (h.nodup _ hp.1).mem_erase_iff, h.mem _ hp.1, hlive]
    constructor
    · rintro ⟨hne, htile, hl⟩
      exact ⟨htile, hl, fun heq => hne (by rw [← heq])⟩
    · rintro ⟨htile, hl, hne⟩
      exact ⟨fun heq => hne (by rw [heq]), htile, hl⟩
  · rw [relink_extents, if_pos rfl]
    show (if _ then _ else _) = _
    rw [h.first _ hp.1, hxy, hn]
    cases xs with
    | nil => simp
    | cons x xs =>
      rw [if_neg]
      · rfl
      · intro heq
        exact ho.1 (by rw [some.inj heq.symm]; simp)
  · rw [relink_extents, if_pos rfl]
    show (if _ then _ else _) = _
    rw [h.last _ hp.1, hxy, hprev]
    rcases eq_nil_or_concat' ys with rfl | ⟨ini, y, rfl⟩
    · simp
    · have hlast : (xs ++ p.offset :: (ini ++ [y])).getLast? = some y := by
        rw [show xs ++ p.offset :: (ini ++ [y]) = (xs ++ p.offset :: ini) ++ [y] by simp, getLast?_concat]
      have hlast' : (xs ++ (ini ++ [y])).getLast? = some y := by
        rw [← append_assoc, getLast?_concat]
      rw [hlast, hlast', if_neg]
      intro heq
      exact ho.1 (by rw [some.inj heq.symm]; simp)

theorem Inv.unlink (h : Inv st g) (hp : IsTile st g p) (hu : g.use p = .live) (dec : Bool) :
    Inv (st.relink p dec) (((g.setUse p .held).dropTarget (st.ovfTarget p)).setLinks p.extent
      ((g.links p.extent).erase p.offset)) := by
  have htarget : ∀ t, st.ovfTarget p = some t → (g.setUse p .held).use t = .target := by
    intro t ht
    rw [setUse_of_ne _ (h.ovf.target_ne hp hu ht)]
    exact (h.ovf.target_of hp hu ht).2
  have hf : ∀ q, ((g.setUse p .held).dropTarget (st.ovfTarget p)).use q = .free ↔ g.use q = .free := by
    intro q
    rw [dropTarget_iff (by simp) fun t ht => by simp [htarget t ht], setUse_iff (by simp) (by simp [hu])]
  have hl : ∀ q, ((g.setUse p .held).dropTarget (st.ovfTarget p)).use q = .live ↔ g.use q = .live ∧ q ≠ p := by
    intro q
    rw [dropTarget_iff (by simp) fun t ht => by simp [htarget t ht]]
    by_cases hq : q = p
    · subst hq
      simp
    · rw [setUse_of_ne _ hq]
      simp [hq]
  refine h.relinked (relink_frame st p dec) (fun e => ?_) (fun q => ?_) (fun q _ => ?_) (by simp) (by simp) (by simp)
    hf ?_ ?_
  · rw [relink_extents]
    split <;> rfl
  · rw [relink_records]
    exact ⟨rfl, rfl⟩
  · rw [relink_records]
    exact ⟨rfl, rfl⟩
  · refine h.links.unlink hp hu (by simp) ?_ (fun q => ?_) dec
    · rw [setLinks_links, dropTarget_links, setUse_links]
    · exact hl q
  · have hi := (relink_frame st p dec).1
    refine (h.ovf.release hp hu).transfer_payload (.of_iff hi rfl fun _ => Iff.rfl) (.of_iff hi rfl fun _ => Iff.rfl)
      fun q _ _ => ?_
    rw [relink_records]
    exact ⟨rfl, rfl⟩

/-! ### Changing what a record refers to -/

theorem Shape.dropTarget_self {x : Option RID} (hx : ∀ t, x = some t → t ≠ p) : (g.dropTarget x).use p = g.use p := by
  rw [dropTarget_use, if_neg fun heq => hx p heq rfl]

theorem OvfInv.release_setRecord (h : OvfInv st g) (hp : IsTile st g p) (hu : g.use p = .live) (r : Record O) :
    OvfInv (st.setRecord p r) ((g.setUse p .held).dropTarget (st.ovfTarget p)) := by
  refine (h.release hp hu).transfer_payload (fun _ => Iff.rfl) (fun _ => Iff.rfl) fun q _ hq => ?_
  rw [setRecord_of_ne]
  · exact ⟨rfl, rfl⟩
  · rintro rfl
    rw [dropTarget_self fun t => h.target_ne hp hu, setUse_self] at hq
    rcases hq with hq | hq <;> cases hq

theorem Inv.rewrite (h : Inv st g) {r : Record O} (hs : r.size = (st.records p).size)
    (hmy : r.myOffset = (st.records p).myOffset) (hn : r.nextOffset = (st.records p).nextOffset)
    (hp : r.previousOffset = (st.records p).previousOffset) (hu : g.use p = .live) (ht : g'.tiles = g.tiles)
    (hstop : g'.stop = g.stop) (hl : g'.lists = g.lists) (hlinks : g'.links = g.links)
    (hf : ∀ q, g'.use q = .free ↔ g.use q = .free) (hlive : ∀ q, g'.use q = .live ↔ g.use q = .live)
    (ho : OvfInv (st.setRecord p r) g') : Inv (st.setRecord p r) g' := by
  have hr := (forall_update_iff st.records fun q r' => r'.size = (st.records q).size ∧
    r'.myOffset = (st.records q).myOffset ∧ r'.nextOffset = (st.records q).nextOffset ∧
    r'.previousOffset = (st.records q).previousOffset).2 ⟨⟨hs, hmy, hn, hp⟩, fun _ _ => ⟨rfl, rfl, rfl, rfl⟩⟩
  refine h.relinked ⟨rfl, rfl, rfl⟩ (fun _ => rfl) (fun q => ⟨(hr q).1, (hr q).2.1⟩) (fun q hq => ?_) ht hstop hl
    hf ?_ ho
  · rw [setRecord_of_ne]
    · exact ⟨rfl, rfl⟩
    · rintro rfl
      rw [hu] at hq
      cases hq
  · exact h.links.transfer rfl hlinks (.of_iff rfl ht hlive) (fun _ => rfl) (fun _ => rfl) fun q _ _ => (hr q).2.2

def Record.normalised (r : Record O) (data : RecordData O) : Record O := { r.setData data with state := .normal }

theorem Inv.normalise (h : Inv st g) (hp : IsTile st g p) (hu : g.use p = .live) {data : RecordData O}
    (hf : data.diskLen + DMS_RECORD_METADATA_SZ ≤ (st.records p).size) :
    Inv (st.setRecord p ((st.records p).normalised data)) (g.dropTarget (st.ovfTarget p)) := by
  have hne : ∀ t, st.ovfTarget p = some t → t ≠ p := fun t => h.ovf.target_ne hp hu
  have huse : ∀ t, st.ovfTarget p = some t → g.use t = .target := fun t ht => (h.ovf.target_of hp hu ht).2
  refine h.rewrite rfl rfl rfl rfl hu (by simp) (by simp) (by simp) (by simp) (fun q => ?_) (fun q => ?_) ?_
  · exact dropTarget_iff (by simp) fun t ht => by simp [huse t ht]
  · exact dropTarget_iff (by simp) fun t ht => by simp [huse t ht]
  · have ha := (h.ovf.release_setRecord hp hu ((st.records p).normalised data)).attach
      (by rw [dropTarget_self hne, setUse_self]) (by rw [setRecord_self]; rfl)
      (by rw [setRecord_self]; rintro d ⟨rfl⟩; exact hf)
    have hs : ∀ q, (((g.setUse p .held).dropTarget (st.ovfTarget p)).setUse p .live).use q =
        (g.dropTarget (st.ovfTarget p)).use q := by
      intro q
      by_cases hqp : q = p
      · rw [hqp, setUse_self, dropTarget_self hne, hu]
      · rw [setUse_of_ne _ hqp, dropTarget_use, dropTarget_use, setUse_of_ne _ hqp]
    exact ha.reshape (by simp) fun q => (hs q).symm

theorem Inv.redirect (h : Inv st g) (hp : IsTile st g p) (hu : g.use p = .live) (hn : IsTile st g n)
    (hun : g.use n = .held) (hsn : (st.records n).state = .ovt)
    (hf : ∀ d ∈ (st.records n).data, d.diskLen + DMS_RECORD_METADATA_SZ ≤ (st.records n).size) :
    Inv (st.setRecord p ((st.records p).setOvfTo n)) ((g.setUse n .target).dropTarget (st.ovfTarget p)) := by
  have hne : ∀ t, st.ovfTarget p = some t → t ≠ p := fun t => h.ovf.target_ne hp hu
  have huse : ∀ t, st.ovfTarget p = some t → g.use t = .target := fun t ht => (h.ovf.target_of hp hu ht).2
  have hnp : n ≠ p := ne_of_apply_ne g.use (by simp [hu, hun])
  have hnt : ∀ t, st.ovfTarget p = some t → t ≠ n := fun t ht => ne_of_apply_ne g.use (by simp [hun, huse t ht])
  have hk : ∀ u, u ≠ .held → u ≠ .target → ∀ q,
      ((g.setUse n .target).dropTarget (st.ovfTarget p)).use q = u ↔ g.use q = u := by
    intro u hu1 hu2 q
    rw [dropTarget_iff hu1, setUse_iff hu2.symm (by rw [hun]; exact hu1.symm)]
    intro t ht
    rw [setUse_of_ne _ (hnt t ht), huse t ht]
    exact hu2.symm
  refine h.rewrite rfl rfl rfl rfl hu (by simp) (by simp) (by simp) (by simp) (hk .free (by simp) (by simp))
    (hk .live (by simp) (by simp)) ?_
  have hr : (st.setRecord p ((st.records p).setOvfTo n)).records n = st.records n := setRecord_of_ne _ _ hnp
  have htile : ∀ {q}, IsTile (st.setRecord p ((st.records p).setOvfTo n))
      ((g.setUse p .held).dropTarget (st.ovfTarget p)) q ↔ IsTile st g q := IsTile.reshape (dropTarget_tiles _)
  have ha := (h.ovf.release_setRecord hp hu ((st.records p).setOvfTo n)).attachOvf (htile.2 hp) (htile.2 hn)
    (by rw [dropTarget_self hne, setUse_self])
    (by rw [dropTarget_self hnt, setUse_of_ne _ hnp, hun]) hnp
    (by rw [setRecord_self]; rfl) (by rw [setRecord_self]; rfl) (by rw [hr]; exact hsn)
    (by rw [setRecord_self]; rfl) (by rw [hr]; exact hf)
  refine ha.reshape (by simp) fun q => Eq.symm ?_
  have hs : ((((g.setUse p .held).dropTarget (st.ovfTarget p)).setUse p .live).setUse n .target).use q =
      ((g.setUse n .target).dropTarget (st.ovfTarget p)).use q := by
    by_cases hqn : q = n
    · rw [hqn, setUse_self, dropTarget_self hnt, setUse_self]
    · rw [setUse_of_ne _ hqn]
      by_cases hqp : q = p
      · rw [hqp, setUse_self, dropTarget_self hne, setUse_of_ne _ hnp.symm, hu]
      · rw [setUse_of_ne _ hqp, dropTarget_use, dropTarget_use, setUse_of_ne _ hqp,
          setUse_of_ne _ hqn]
  exact hs

end SequoiaDB.Dms.Data

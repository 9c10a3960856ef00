import SequoiaDB.Dms.DataInv

/-!
# Changes of the shape of a store

One lemma for each of the changes that operations on records are composed of.
-/

namespace SequoiaDB.Dms.Data

open SequoiaDB.Lib Function List Shape Store

variable {O : Type*} {st st' : Store O} {g g' : Shape} {p q t : RID}

def Shape.setUse (g : Shape) (p : RID) (u : Use) : Shape := { g with use := update g.use p u }

variable (s : Nat) (l : List RID) (u : Use) {n : Nat} {xs ys : List RID}

@[simp] theorem Shape.setUse_tiles : (g.setUse p u).tiles = g.tiles := rfl

@[simp] theorem Shape.setUse_stop : (g.setUse p u).stop = g.stop := rfl

@[simp] theorem Shape.setUse_lists : (g.setUse p u).lists = g.lists := rfl

@[simp] theorem Shape.setUse_links : (g.setUse p u).links = g.links := rfl

@[simp] theorem Shape.setUse_self : (g.setUse p u).use p = u := update_self ..

theorem Shape.setUse_of_ne (h : q ≠ p) : (g.setUse p u).use q = g.use q := update_of_ne h ..

theorem Shape.setUse_iff {u v : Use} (hv : v ≠ u) (hp : g.use p ≠ u) : (g.setUse p v).use q = u ↔ g.use q = u := by
  by_cases hq : q = p
  · subst hq
    rw [setUse_self]
    exact ⟨fun h => absurd h hv, fun h => absurd h hp⟩
  · rw [setUse_of_ne v hq]

def Shape.setList (g : Shape) (s : Nat) (l : List RID) : Shape := { g with lists := update g.lists s l }

@[simp] theorem Shape.setList_tiles : (g.setList s l).tiles = g.tiles := rfl

@[simp] theorem Shape.setList_stop : (g.setList s l).stop = g.stop := rfl

@[simp] theorem Shape.setList_use : (g.setList s l).use = g.use := rfl

@[simp] theorem Shape.setList_links : (g.setList s l).links = g.links := rfl

@[simp] theorem Shape.setList_lists : (g.setList s l).lists = update g.lists s l := rfl

theorem SpaceInv.change (h : SpaceInv st g) (htiles : TilesInv st g) (hp : IsTile st g p)
    (hi : st'.extentIDs = st.extentIDs) (ht : g'.tiles = g.tiles) {d : Int}
    (hs : ∀ e, (st'.extents e).freeSpace = (st.extents e).freeSpace + if e = p.extent then d else 0)
    (htotal : st'.totalDataFreeSpace = st.totalDataFreeSpace + d)
    (hother : ∀ q, q ≠ p → (st'.records q).size = (st.records q).size ∧ (g'.use q = .free ↔ g.use q = .free))
    (hd : freeSize st' g' p = freeSize st g p + d) : SpaceInv st' g' := by
  have hne : ∀ q, q ≠ p → freeSize st' g' q = freeSize st g q := by
    intro q hq
    unfold freeSize
    simp only [(hother q hq).1, (hother q hq).2]
  constructor
  · intro e he
    rw [hi] at he
    rw [hs, h.freeSpace e he]
    unfold freeSum
    rw [ht]
    by_cases hpe : e = p.extent
    · subst hpe
      have hsum : ((g.tiles p.extent).map fun o => freeSize st' g' ⟨p.extent, o⟩).sum =
          ((g.tiles p.extent).map fun o => freeSize st g ⟨p.extent, o⟩).sum + (freeSize st' g' p - freeSize st g p) :=
        sum_map_update (htiles.tiles _ he).nodup hp.2 fun o _ ho => hne _ fun heq => ho (congrArg RID.offset heq)
      rw [if_pos rfl, hsum]
      omega
    · rw [if_neg hpe, add_zero]
      exact (sum_map_congr fun o _ => hne _ fun heq => hpe (congrArg RID.extent heq)).symm
  · have hsum : (st.extentIDs.map fun e => (st'.extents e).freeSpace).sum =
        (st.extentIDs.map fun e => (st.extents e).freeSpace).sum +
          ((st'.extents p.extent).freeSpace - (st.extents p.extent).freeSpace) :=
      sum_map_update htiles.ids_nodup hp.1 fun e _ hne => by rw [hs, if_neg hne, add_zero]
    rw [htotal, h.total, hi, hsum, hs, if_pos rfl]
    omega

theorem Inv.relinked (h : Inv st g) (hf : st'.extentIDs = st.extentIDs ∧ st'.deleteList = st.deleteList ∧
      st'.totalDataFreeSpace = st.totalDataFreeSpace)
    (hspace : ∀ e, (st'.extents e).freeSpace = (st.extents e).freeSpace)
    (hr : ∀ q, (st'.records q).size = (st.records q).size ∧ (st'.records q).myOffset = (st.records q).myOffset)
    (hd : ∀ q, g.use q = .free → (st'.records q).isDeleted = (st.records q).isDeleted ∧
      (st'.records q).nextRID = (st.records q).nextRID)
    (ht : g'.tiles = g.tiles) (hstop : g'.stop = g.stop) (hl : g'.lists = g.lists)
    (hfree : ∀ q, g'.use q = .free ↔ g.use q = .free) (hlinks : LinkInv st' g') (ho : OvfInv st' g') : Inv st' g' := by
  obtain ⟨hi, hlist, htotal⟩ := hf
  have hs : SamePieces .free st g st' g' := .of_iff hi ht hfree
  have htiles : TilesInv st' g' := h.tiles.transfer hi ht hstop fun q _ => hr q
  exact ⟨htiles, h.lists.transfer hlist hl hs fun q _ hu => ⟨(hr q).1, hd q hu⟩, hlinks,
    h.space.transfer h.tiles htiles hi hspace htotal hs fun q _ _ => (hr q).1, ho⟩

theorem OvfInv.reshape (h : OvfInv st g) (ht : g'.tiles = g.tiles) (hu : ∀ q, g'.use q = g.use q) : OvfInv st g' := by
  have hs : ∀ {u}, SamePieces u st g st g' := .of_iff rfl ht fun q => by rw [hu]
  exact h.transfer_payload hs hs fun _ _ _ => ⟨rfl, rfl⟩

theorem Inv.relist {u : Use} {s : Nat} {l : List RID} {d : Int} (h : Inv st g) (hp : IsTile st g p)
    (hu : ∀ v, v ≠ .free → v ≠ .held → u ≠ v ∧ g.use p ≠ v) (hi : st'.extentIDs = st.extentIDs)
    (he : ∀ e, st'.extents e =
      { st.extents e with freeSpace := (st.extents e).freeSpace + if e = p.extent then d else 0 })
    (ht : st'.totalDataFreeSpace = st.totalDataFreeSpace + d)
    (hr : ∀ q, st'.records q = { st.records q with nextRID := (st'.records q).nextRID })
    (hl : ListInv st' ((g.setUse p u).setList s l))
    (hd : freeSize st' ((g.setUse p u).setList s l) p = freeSize st g p + d) :
    Inv st' ((g.setUse p u).setList s l) := by
  have hs : ∀ {v}, v ≠ .free → v ≠ .held → SamePieces v st g st' ((g.setUse p u).setList s l) := fun h1 h2 =>
    .of_iff hi rfl fun q => setUse_iff (hu _ h1 h2).1 (hu _ h1 h2).2
  refine ⟨?_, hl, ?_, ?_, ?_⟩
  · refine h.tiles.transfer hi rfl rfl fun q _ => ?_
    rw [hr]
    exact ⟨rfl, rfl⟩
  · refine h.links.transfer hi rfl (hs (by simp) (by simp)) (fun e => ?_) (fun e => ?_) fun q _ _ => ?_
    · rw [he]
    · rw [he]
    · rw [hr]
      exact ⟨rfl, rfl⟩
  · refine h.space.change h.tiles hp hi rfl (fun e => by rw [he]) ht (fun q hq => ?_) hd
    rw [hr, setList_use, setUse_of_ne _ hq]
    exact ⟨rfl, Iff.rfl⟩
  · refine h.ovf.transfer_payload (hs (by simp) (by simp)) (hs (by simp) (by simp)) fun q _ _ => ?_
    rw [hr]
    exact ⟨rfl, rfl⟩

/-! ### Taking a piece off a delete list -/

section Take

variable {j : Nat} {pre : Option RID}

theorem unlinkDeleted_records (q : RID) : (st.unlinkDeleted j pre p).records q =
    { st.records q with nextRID := if pre = some q then (st.records p).nextRID else (st.records q).nextRID } := by
  unfold unlinkDeleted
  cases pre with
  | none => simp
  | some x =>
    by_cases hq : q = x
    · subst hq
      simp [setRecord]
    · have hq' : ¬ x = q := fun heq => hq heq.symm
      simp [setRecord, hq, hq']

theorem unlinkDeleted_size (q : RID) : ((st.unlinkDeleted j pre p).records q).size = (st.records q).size := by
  rw [unlinkDeleted_records]

theorem unlinkDeleted_isDeleted (q : RID) :
    ((st.unlinkDeleted j pre p).records q).isDeleted = (st.records q).isDeleted := by
  rw [unlinkDeleted_records]
  rfl

theorem unlinkDeleted_extentIDs : (st.unlinkDeleted j pre p).extentIDs = st.extentIDs := by
  cases pre <;> rfl

theorem unlinkDeleted_extents : (st.unlinkDeleted j pre p).extents = st.extents := by
  cases pre <;> rfl

theorem unlinkDeleted_total : (st.unlinkDeleted j pre p).totalDataFreeSpace = st.totalDataFreeSpace := by
  cases pre <;> rfl

theorem unlinkDeleted_deleteList (s : Nat) : (st.unlinkDeleted j pre p).deleteList s =
    if s = j ∧ pre = none then (st.records p).nextRID else st.deleteList s := by
  cases pre with
  | none => simp [unlinkDeleted, update_apply]
  | some x => simp [unlinkDeleted, setRecord]

theorem takeSpace_extents (e : Nat) : (st.takeSpace p).extents e = { st.extents e with
      freeSpace := (st.extents e).freeSpace + if e = p.extent then -((st.records p).size : Int) else 0 } := by
  unfold takeSpace
  by_cases he : e = p.extent
  · subst he
    simp [setExtent, Int.sub_eq_add_neg]
  · simp [setExtent, he]

end Take

theorem ListInv.take (h : ListInv st g) {j : Nat} (hl : g.lists j = xs ++ p :: ys) :
    ListInv ((st.unlinkDeleted j xs.getLast? p).takeSpace p) ((g.setUse p .held).setList j (xs ++ ys)) := by
  obtain ⟨htile, huse, hslot⟩ := (h.mem j p).1 (by rw [hl]; simp)
  have hi : ((st.unlinkDeleted j xs.getLast? p).takeSpace p).extentIDs = st.extentIDs := unlinkDeleted_extentIDs
  have hnd := h.nodup j
  rw [hl] at hnd
  have hp := nodup_cons.1 (perm_middle.nodup_iff.1 hnd)
  constructor
  · intro s
    show LinkedFrom (fun q => ((st.unlinkDeleted j xs.getLast? p).records q).nextRID)
      ((st.unlinkDeleted j xs.getLast? p).deleteList s) _
    rw [unlinkDeleted_deleteList]
    simp only [setList_lists, setUse_lists, unlinkDeleted_records]
    by_cases hs : s = j
    · subst hs
      rw [update_self]
      refine LinkedFrom.unlink (h := st.deleteList s) (hl ▸ h.linked s) hnd ?_ fun q _ => rfl
      simp
    · rw [update_of_ne hs, if_neg (by simp [hs])]
      refine (h.linked s).congr fun q hq => ?_
      rw [if_neg]
      -- the record in front is on another list
      intro hlast
      have hqj := (h.mem j q).1 (by rw [hl]; exact mem_append_left _ (List.mem_of_getLast? hlast))
      exact hs (((h.mem s q).1 hq).2.2.symm.trans hqj.2.2)
  · exact (forall_update_iff g.lists fun _ l => l.Nodup).2 ⟨hp.2, fun s _ => h.nodup s⟩
  · intro s q
    have hsize : (((st.unlinkDeleted j xs.getLast? p).takeSpace p).records q).size = (st.records q).size :=
      unlinkDeleted_size q
    rw [hsize, IsTile.congr hi]
    simp only [setList_lists, setUse_lists, setList_use]
    show _ ↔ IsTile st g q ∧ _
    by_cases hq : q = p
    · subst hq
      rw [setUse_self]
      refine ⟨fun hm => ?_, fun hm => absurd hm.2.1 (by simp)⟩
      by_cases hs : s = j
      · rw [hs, update_self] at hm
        exact absurd hm hp.1
      · rw [update_of_ne hs] at hm
        exact absurd (((h.mem s q).1 hm).2.2.symm.trans hslot) hs
    · rw [setUse_of_ne _ hq, ← h.mem]
      by_cases hs : s = j
      · rw [hs, update_self, hl]
        simp [hq]
      · rw [update_of_ne hs]
  · intro q hq hf
    have hd : (((st.unlinkDeleted j xs.getLast? p).takeSpace p).records q).isDeleted = (st.records q).isDeleted :=
      unlinkDeleted_isDeleted q
    rw [hd]
    rw [IsTile.congr hi] at hq
    have hne : q ≠ p := by
      rintro rfl
      rw [setList_use, setUse_self] at hf
      cases hf
    rw [setList_use, setUse_of_ne _ hne] at hf
    exact h.isDeleted q hq hf

theorem Inv.take (h : Inv st g) {j : Nat} (hl : g.lists j = xs ++ p :: ys) :
    Inv ((st.unlinkDeleted j xs.getLast? p).takeSpace p) ((g.setUse p .held).setList j (xs ++ ys)) := by
  obtain ⟨ht, hu, -⟩ := (h.lists.mem j p).1 (by rw [hl]; simp)
  have hr : ∀ q, ((st.unlinkDeleted j xs.getLast? p).takeSpace p).records q = _ := unlinkDeleted_records
  have hs : ((st.unlinkDeleted j xs.getLast? p).records p).size = (st.records p).size :=
    unlinkDeleted_size p
  refine h.relist (d := -((st.records p).size : Int)) ht (fun v h1 h2 => ⟨h2.symm, hu ▸ h1.symm⟩)
    unlinkDeleted_extentIDs (fun e => ?_) ?_ (fun q => by rw [hr]) (h.lists.take hl) ?_
  · rw [takeSpace_extents, unlinkDeleted_extents, hs]
  · show (st.unlinkDeleted j xs.getLast? p).totalDataFreeSpace - _ = _
    rw [unlinkDeleted_total, hs]
    exact Int.sub_eq_add_neg
  · unfold freeSize
    rw [setList_use, setUse_self, if_neg (by simp), if_pos hu]
    omega

/-! ### Giving a piece back -/

theorem pushDeleted_records (q : RID) : (st.pushDeleted p).records q = { st.records q with
      nextRID := if q = p then st.deleteList (deleteRecordSlot (st.records p).size) else (st.records q).nextRID } := by
  unfold pushDeleted
  by_cases hq : q = p
  · subst hq
    simp [setRecord]
  · simp [setRecord, setExtent, hq]

theorem pushDeleted_extents (e : Nat) : (st.pushDeleted p).extents e = { st.extents e with
      freeSpace := (st.extents e).freeSpace + if e = p.extent then ((st.records p).size : Int) else 0 } := by
  unfold pushDeleted
  by_cases he : e = p.extent
  · subst he
    simp [setRecord, setExtent]
  · simp [setRecord, setExtent, he]

section Push

variable (hp : IsTile st g p) (hu : g.use p = .held) (hd : (st.records p).isDeleted = true) {s : Nat}
  (hs : deleteRecordSlot (st.records p).size = s)

include hp hu hd hs

theorem ListInv.push (h : ListInv st g) :
    ListInv (st.pushDeleted p) ((g.setUse p .free).setList s (p :: g.lists s)) := by
  have hout : ∀ s', p ∉ g.lists s' := fun s' hm => by
    have := ((h.mem s' p).1 hm).2.1
    rw [hu] at this
    cases this
  constructor
  · intro s'
    show LinkedFrom _ (update st.deleteList _ (some p) s') (update g.lists s _ s')
    rw [hs]
    simp only [pushDeleted_records]
    have ho : ∀ q ∈ g.lists s', (if q = p then st.deleteList (deleteRecordSlot (st.records p).size)
        else (st.records q).nextRID) = (st.records q).nextRID := by
      intro q hq
      rw [if_neg]
      rintro rfl
      exact hout s' hq
    by_cases hss : s' = s
    · subst hss
      rw [update_self, update_self]
      exact (h.linked s').push (by rw [if_pos rfl, hs]) ho
    · rw [update_of_ne hss, update_of_ne hss]
      exact (h.linked s').congr ho
  · exact (forall_update_iff g.lists fun _ l => l.Nodup).2 ⟨nodup_cons.2 ⟨hout s, h.nodup s⟩, fun s' _ => h.nodup s'⟩
  · intro s' q
    rw [pushDeleted_records]
    simp only [setList_lists, setUse_lists, setList_use]
    show _ ↔ IsTile st g q ∧ _
    by_cases hq : q = p
    · subst hq
      rw [setUse_self]
      by_cases hss : s' = s
      · rw [hss, update_self]
        exact ⟨fun _ => ⟨hp, rfl, hs⟩, fun _ => mem_cons_self ..⟩
      · rw [update_of_ne hss]
        exact ⟨fun hm => absurd hm (hout s'), fun hm => absurd (hm.2.2.symm.trans hs) hss⟩
    · rw [setUse_of_ne _ hq, ← h.mem]
      by_cases hss : s' = s
      · rw [hss, update_self]
        simp [hq]
      · rw [update_of_ne hss]
  · intro q hq hf
    rw [pushDeleted_records]
    show (st.records q).isDeleted = true
    by_cases hqp : q = p
    · rw [hqp]
      exact hd
    · rw [setList_use, setUse_of_ne _ hqp] at hf
      exact h.isDeleted q hq hf

theorem Inv.push (h : Inv st g) : Inv (st.pushDeleted p) ((g.setUse p .free).setList s (p :: g.lists s)) := by
  refine h.relist hp (fun v h1 h2 => ⟨h1.symm, hu ▸ h2.symm⟩) rfl pushDeleted_extents rfl
    (fun q => by rw [pushDeleted_records]) (h.lists.push hp hu hd hs) ?_
  unfold freeSize
  rw [setList_use, setUse_self, if_pos rfl, hu, pushDeleted_records]
  simp

end Push

/-! ### A new piece -/

/-- The same pieces are in use, and nothing about them changed; other pieces are held. -/
structure SameUse (st : Store O) (g : Shape) (st' : Store O) (g' : Shape) : Prop where
  frame : SameFrame st st'
  lists : g'.lists = g.lists
  links : g'.links = g.links
  use : ∀ q u, u ≠ .held → (IsTile st' g' q ∧ g'.use q = u ↔ IsTile st g q ∧ g.use q = u)
  records : ∀ q, IsTile st g q → g.use q ≠ .held → st'.records q = st.records q

theorem Inv.sameUse (h : Inv st g) (hs : SameUse st g st' g') (ht : TilesInv st' g') : Inv st' g' := by
  have hsame : ∀ {u}, u ≠ .held → SamePieces u st g st' g' := fun hu q => hs.use q _ hu
  have hr : ∀ {q u}, IsTile st g q → g.use q = u → u ≠ .held → st'.records q = st.records q := fun hq hu hne =>
    hs.records _ hq (hu ▸ hne)
  refine ⟨ht, ?_, ?_, ?_, ?_⟩
  · refine h.lists.transfer hs.frame.deleteList hs.lists (hsame (by simp)) fun q hq hu => ?_
    rw [hr hq hu (by simp)]
    exact ⟨rfl, rfl, rfl⟩
  · refine h.links.transfer hs.frame.extentIDs hs.links (hsame (by simp)) hs.frame.first hs.frame.last fun q hq hu => ?_
    rw [hr hq hu (by simp)]
    exact ⟨rfl, rfl⟩
  · refine h.space.transfer h.tiles ht hs.frame.extentIDs hs.frame.freeSpace hs.frame.total (hsame (by simp))
      fun q hq hu => ?_
    rw [hr hq hu (by simp)]
  · refine h.ovf.transfer_payload (hsame (by simp)) (hsame (by simp)) fun q hq hu => ?_
    rw [hs.records q hq (by rcases hu with hu | hu <;> simp [hu])]
    exact ⟨rfl, rfl⟩

def Shape.addTile (g : Shape) (p : RID) (l : List Nat) (n : Nat) : Shape :=
  { g.setUse p .held with
    tiles := update g.tiles p.extent l
    stop := update g.stop p.extent n }

theorem Inv.addTile (h : Inv st g) (hf : SameFrame st st') {l : List Nat}
    (ht : TilesInv st' (g.addTile p l n)) (hp : p.extent ∈ st.extentIDs) (hout : p.offset ∉ g.tiles p.extent)
    (hl : ∀ o, o ∈ l ↔ o ∈ g.tiles p.extent ∨ o = p.offset)
    (hr : ∀ q, IsTile st g q → g.use q ≠ .held → st'.records q = st.records q) : Inv st' (g.addTile p l n) := by
  have hm : ∀ e o, o ∈ (g.addTile p l n).tiles e ↔ o ∈ g.tiles e ∨ (⟨e, o⟩ : RID) = p := by
    intro e o
    show o ∈ update g.tiles p.extent l e ↔ _
    by_cases he : e = p.extent
    · subst he
      rw [update_self, hl]
      exact or_congr_right ⟨fun ho => by rw [ho], fun ho => by rw [← ho]⟩
    · rw [update_of_ne he]
      exact ⟨.inl, fun ho => ho.resolve_right fun heq => he (by rw [← heq])⟩
  refine h.sameUse ⟨hf, rfl, rfl, fun q u hu => ?_, hr⟩ ht
  show _ ∧ (g.setUse p .held).use q = u ↔ _
  by_cases hq : q = p
  · subst hq
    rw [setUse_self]
    exact ⟨fun hq => absurd hq.2.symm hu, fun hq => absurd hq.1.2 hout⟩
  · rw [setUse_of_ne _ hq]
    unfold IsTile
    rw [hf.extentIDs, hm]
    simp [hq]

theorem mem_addTile {l : List Nat} (hl : ∀ o, o ∈ l ↔ o ∈ g.tiles p.extent ∨ o = p.offset)
    (hp : p.extent ∈ st.extentIDs) : IsTile st (g.addTile p l n) q ↔ IsTile st g q ∨ q = p := by
  unfold IsTile
  show _ ∧ q.offset ∈ update g.tiles p.extent l q.extent ↔ _
  by_cases he : q.extent = p.extent
  · rw [he, update_self, hl]
    constructor
    · rintro ⟨h1, h2 | h2⟩
      · exact .inl ⟨h1, h2⟩
      · exact .inr (RID.ext he h2)
    · rintro (⟨h1, h2⟩ | rfl)
      · exact ⟨h1, .inl h2⟩
      · exact ⟨hp, .inr rfl⟩
  · rw [update_of_ne he]
    exact ⟨.inl, fun hq => hq.resolve_right fun heq => he (by rw [heq])⟩

theorem Shape.addTile_stop (l : List Nat) (n e : Nat) :
    (g.addTile p l n).stop e = if e = p.extent then n else g.stop e := by
  show update g.stop p.extent n e = _
  rw [update_apply]

theorem TilesInv.addTile (h : TilesInv st g) (hf : SameFrame st st') {l : List Nat}
    (hp : p.extent ∈ st.extentIDs) (hl : ∀ o, o ∈ l ↔ o ∈ g.tiles p.extent ∨ o = p.offset)
    (htiles : Tiles (fun o => (st'.records ⟨p.extent, o⟩).size) DMS_EXTENT_METADATA_SZ l n) (hn : n % 4 = 0)
    (hm : p.offset % 4 = 0) (hs : (st'.records p).size ≤ DMS_RECORD_MAX_SZ)
    (hmy : (st'.records p).myOffset = p.offset)
    (hother : ∀ q, IsTile st g q → q.extent ≠ p.extent → st'.records q = st.records q)
    (hold : ∀ q, IsTile st g q → (st'.records q).size ≤ (st.records q).size ∧ (st'.records q).myOffset = q.offset) :
    TilesInv st' (g.addTile p l n) := by
  have hi := hf.extentIDs
  have ht : ∀ q, IsTile st' (g.addTile p l n) q → IsTile st g q ∨ q = p := by
    intro q hq
    rw [IsTile.congr hi] at hq
    exact (mem_addTile hl hp).1 hq
  refine ⟨hi ▸ h.ids_nodup, fun e he => ?_, fun e he => ?_, fun q hq => ?_, fun q hq => ?_, fun q hq => ?_⟩
  · rw [hi] at he
    rw [addTile_stop]
    show Tiles _ _ (update g.tiles p.extent _ e) _
    by_cases hpe : e = p.extent
    · subst hpe
      rwa [if_pos rfl, update_self]
    · rw [if_neg hpe, update_of_ne hpe]
      exact (h.tiles e he).congr fun o ho => by rw [hother ⟨e, o⟩ ⟨he, ho⟩ hpe]
  · rw [hi] at he
    rw [addTile_stop]
    split
    · exact hn
    · exact h.stop_mod e he
  · rcases ht q hq with hq | rfl
    · exact h.aligned q hq
    · exact hm
  · rcases ht q hq with hq | rfl
    · exact (hold q hq).1.trans (h.size_le q hq)
    · exact hs
  · rcases ht q hq with hq | rfl
    · exact (hold q hq).2
    · exact hmy

theorem Inv.cut (h : Inv st g) (hp : IsTile st g p) (hu : g.use p = .held) {k : Nat} (hk : 0 < k)
    (hlt : k < (st.records p).size) (hmod : k % 4 = 0) (hf : SameFrame st st')
    (hc : (st'.records p).size = k ∧ (st'.records p).myOffset = p.offset)
    (hn : (st'.records ⟨p.extent, p.offset + k⟩).size = (st.records p).size - k ∧
      (st'.records ⟨p.extent, p.offset + k⟩).myOffset = p.offset + k)
    (hr : ∀ q, IsTile st g q → q ≠ p → st'.records q = st.records q) :
    ∃ l, (∀ o, o ∈ l ↔ o ∈ g.tiles p.extent ∨ o = p.offset + k) ∧
      Inv st' (g.addTile ⟨p.extent, p.offset + k⟩ l (g.stop p.extent)) := by
  obtain ⟨xs, ys, ht⟩ := append_of_mem hp.2
  have htiles := h.tiles.tiles _ hp.1
  have hout := htiles.not_mem_inside hp.2 hk hlt
  have hl : ∀ o, o ∈ xs ++ p.offset :: (p.offset + k) :: ys ↔ o ∈ g.tiles p.extent ∨ o = p.offset + k := by
    intro o
    rw [ht]
    simp only [mem_append, mem_cons]
    tauto
  refine ⟨xs ++ p.offset :: (p.offset + k) :: ys, hl, h.addTile (p := ⟨p.extent, p.offset + k⟩) hf ?_ hp.1 hout hl
    fun q hq hne => hr q hq ?_⟩
  · have haligned := h.tiles.aligned p hp
    have hsize := h.tiles.size_le p hp
    refine h.tiles.addTile hf hp.1 hl ?_ (h.tiles.stop_mod _ hp.1) (by show (p.offset + k) % 4 = 0; omega) (by omega) hn.2
      (fun q hq hne => hr q hq fun heq => hne (by rw [heq])) fun q hq => ?_
    · rw [ht] at htiles
      have hnd := nodup_cons.1 (perm_middle.nodup_iff.1 htiles.nodup)
      refine htiles.cut hk hlt hc.1 hn.1 fun o ho => ?_
      have hne : (⟨p.extent, o⟩ : RID) ≠ p := fun heq => hnd.1 (by rw [← heq]; exact ho)
      have hm : o ∈ g.tiles p.extent := by
        rw [ht]
        exact perm_middle.mem_iff.2 (mem_cons_of_mem _ ho)
      rw [hr ⟨p.extent, o⟩ ⟨hp.1, hm⟩ hne]
    · by_cases hqp : q = p
      · subst hqp
        exact ⟨hc.1.trans_le hlt.le, hc.2⟩
      · rw [hr q hq hqp]
        exact ⟨le_rfl, h.tiles.myOffset q hq⟩
  · rintro rfl
    exact hne hu

theorem Inv.extend (h : Inv st g) {e k : Nat} (he : e ∈ st.extentIDs) (hk : 0 < k) (hmod : k % 4 = 0)
    (hm : k ≤ DMS_RECORD_MAX_SZ) (hf : SameFrame st st')
    (hn : (st'.records ⟨e, g.stop e⟩).size = k ∧ (st'.records ⟨e, g.stop e⟩).myOffset = g.stop e)
    (hr : ∀ q, IsTile st g q → st'.records q = st.records q) :
    Inv st' (g.addTile ⟨e, g.stop e⟩ (g.tiles e ++ [g.stop e]) (g.stop e + k)) := by
  have ht := h.tiles.tiles e he
  have hl : ∀ o, o ∈ g.tiles e ++ [g.stop e] ↔ o ∈ g.tiles e ∨ o = g.stop e := by simp
  have hout : g.stop e ∉ g.tiles e := fun hmem => by
    have := ht.bounds hmem
    omega
  refine h.addTile hf ?_ he hout hl fun q hq _ => hr q hq
  have hs := h.tiles.stop_mod e he
  refine h.tiles.addTile (p := ⟨e, g.stop e⟩) hf he hl ?_ (by omega) hs (hn.1.trans_le hm) hn.2
    (fun q hq _ => hr q hq) fun q hq => ?_
  · exact ht.extend (fun o ho => by rw [hr _ ⟨he, ho⟩]) hn.1 hk
  · rw [hr q hq]
    exact ⟨le_rfl, h.tiles.myOffset q hq⟩

end SequoiaDB.Dms.Data

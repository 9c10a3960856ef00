import SequoiaDB.Dms.DataLinks

/-!
# Reserving space and giving it back
-/

namespace SequoiaDB.Dms.Data

open SequoiaDB.Lib Function List Shape

variable {O : Type*} {cfg : Config O} {st st' : Store O} {g g' : Shape} {p q : RID} {hs : List RID}

abbrev KeepsAll (st : Store O) (g : Shape) (st' : Store O) (g' : Shape) : Prop := Keeps (fun _ => False) st g st' g'

theorem Holding.tile (h : Holding cfg st g hs) (hp : p ∈ hs) : IsTile st g p := ((h.held p).2 hp).1

theorem Holding.use (h : Holding cfg st g hs) (hp : p ∈ hs) : g.use p = .held := ((h.held p).2 hp).2

theorem Holding.not_mem (h : Holding cfg st g hs) (hu : g.use p ≠ .held) : p ∉ hs := fun hp => hu (h.use hp)

/-! ### Giving a held piece back -/

theorem Holding.push (h : Holding cfg st g (p :: hs)) (hp : p ∉ hs) (hd : (st.records p).isDeleted) :
    ∃ g', Holding cfg (st.pushDeleted p) g' hs ∧ KeepsAll st g (st.pushDeleted p) g' := by
  have ht := h.tile (mem_cons_self ..)
  have hu := h.use (mem_cons_self ..)
  refine ⟨_, ⟨h.toInv.push ht hu hd rfl, ?_, ?_⟩, ?_⟩
  · intro e he
    rw [pushDeleted_extents]
    exact h.stop e he
  · intro q
    show IsTile st g q ∧ (g.setUse p .free).use q = .held ↔ _
    by_cases hq : q = p
    · subst hq
      rw [setUse_self]
      exact ⟨fun hq => absurd hq.2 (by simp), fun hq => absurd hq hp⟩
    · rw [setUse_of_ne _ hq, h.held]
      simp [hq]
  · constructor
    · intro q _ u hu'
      show IsTile st g q ∧ (g.setUse p .free).use q = u ↔ _
      rw [setUse_iff]
      · rcases hu' with rfl | rfl <;> simp
      · rw [hu]
        rcases hu' with rfl | rfl <;> simp
    · intro q _ _ _
      rw [pushDeleted_records]
      rfl

theorem markDeleted_isDeleted (recordSize : Nat) : ((st.markDeleted p recordSize).records p).isDeleted := by
  unfold Store.markDeleted
  rw [setRecord_self]
  rfl

theorem markDeleted_new {k : Nat} (hk : 0 < k) :
    ((st.markDeleted p k).records p).size = k ∧ ((st.markDeleted p k).records p).myOffset = p.offset := by
  unfold Store.markDeleted
  rw [setRecord_self]
  exact ⟨if_pos hk, rfl⟩

theorem Holding.setRecord (h : Holding cfg st g hs) (hp : p ∈ hs) {r : Record O}
    (hsize : r.size = (st.records p).size) (hmy : r.myOffset = p.offset) :
    Holding cfg (st.setRecord p r) g hs ∧ KeepsAll st g (st.setRecord p r) g := by
  have hu := h.use hp
  refine ⟨⟨h.toInv.setRecord ?_, h.stop, h.held⟩, ⟨fun _ _ _ _ => Iff.rfl, fun q _ _ hq => ?_⟩⟩
  · rw [hu]
    exact ⟨hsize, hmy.trans (h.tiles.myOffset p (h.tile hp)).symm, by simp, by simp, by simp, by simp, by simp⟩
  · rw [setRecord_of_ne]
    rintro rfl
    rw [hu] at hq
    rcases hq with hq | hq <;> cases hq

theorem Holding.saveDeleted (h : Holding cfg st g (p :: hs)) (hp : p ∉ hs) :
    ∃ g', Holding cfg (st.saveDeletedRecord p 0) g' hs ∧ KeepsAll st g (st.saveDeletedRecord p 0) g' := by
  obtain ⟨h1, hk1⟩ : Holding cfg (st.markDeleted p 0) g (p :: hs) ∧ KeepsAll st g (st.markDeleted p 0) g :=
    h.setRecord (mem_cons_self ..) rfl rfl
  obtain ⟨g', h2, hk2⟩ := h1.push hp (markDeleted_isDeleted 0)
  exact ⟨g', h2, hk1.trans hk2⟩

/-! ### Searching the delete lists -/

variable {locked : RID → Bool} {xs ys : List RID} {size : Nat} {pre : Option RID}

theorem searchList_sound {fuel i : Nat} {h : Option RID}
    (hl : LinkedFrom (fun p => (st.records p).nextRID) h ys) (hp : pre = xs.getLast?) {pre' : Option RID}
    (hs : searchList st locked size fuel i pre h = some (pre', p)) :
    ∃ xs' ys', xs ++ ys = xs' ++ p :: ys' ∧ pre' = xs'.getLast? ∧ size ≤ (st.records p).size := by
  induction fuel generalizing i pre h xs ys with
  | zero => cases hs
  | succ fuel ih =>
    cases ys with
    | nil =>
      rw [show h = none from hl] at hs
      cases hs
    | cons y ys =>
      obtain ⟨rfl, hl⟩ := hl
      -- the search goes on behind `y`
      have hn : xs ++ y :: ys = (xs ++ [y]) ++ ys := by simp
      have hlast : some y = (xs ++ [y]).getLast? := by simp
      simp only [searchList] at hs
      split_ifs at hs with hi hf
      · rw [hn]
        exact ih hl hlast hs
      · cases hs
        simp only [Bool.and_eq_true, decide_eq_true_eq] at hf
        exact ⟨xs, ys, rfl, hp, hf.2⟩
      · rw [hn]
        exact ih hl hlast hs

variable {j : Nat} {off : Nat}

theorem searchSlots_sound (h : ListInv st g) {js : List Nat} (hs : searchSlots st locked size js = some (j, pre, p)) :
    ∃ xs ys, g.lists j = xs ++ p :: ys ∧ pre = xs.getLast? ∧ size ≤ (st.records p).size := by
  induction js with
  | nil => cases hs
  | cons j' js ih =>
    unfold searchSlots at hs
    split at hs
    · next heq =>
      cases hs
      exact searchList_sound (h.linked j) (show none = ([] : List RID).getLast? from rfl) heq
    · exact ih hs

theorem Holding.take (h : Holding cfg st g hs) (hl : g.lists j = xs ++ p :: ys) :
    ∃ g', Holding cfg ((st.unlinkDeleted j xs.getLast? p).takeSpace p) g' (p :: hs) ∧ p ∉ hs ∧
      KeepsAll st g ((st.unlinkDeleted j xs.getLast? p).takeSpace p) g' := by
  obtain ⟨ht, hu, -⟩ := (h.lists.mem j p).1 (by rw [hl]; simp)
  have hi : ((st.unlinkDeleted j xs.getLast? p).takeSpace p).extentIDs = st.extentIDs := unlinkDeleted_extentIDs
  refine ⟨_, ⟨h.toInv.take hl, ?_, ?_⟩, h.not_mem (by simp [hu]), ?_⟩
  · intro e he
    rw [hi] at he
    rw [takeSpace_extents, unlinkDeleted_extents]
    exact h.stop e he
  · intro q
    rw [IsTile.congr hi]
    show IsTile st g q ∧ (g.setUse p .held).use q = .held ↔ _
    by_cases hq : q = p
    · subst hq
      simp [ht]
    · rw [setUse_of_ne _ hq, h.held]
      simp [hq]
  · constructor
    · intro q _ u hu'
      rw [IsTile.congr hi]
      show IsTile st g q ∧ (g.setUse p .held).use q = u ↔ _
      rw [setUse_iff]
      · rcases hu' with rfl | rfl <;> simp
      · rw [hu]
        rcases hu' with rfl | rfl <;> simp
    · intro q _ _ _
      show ((st.unlinkDeleted j xs.getLast? p).records q).payload = _
      rw [unlinkDeleted_records]
      rfl

/-! ### A new extent -/

/-- Extent `id` is tiled up to `n` with pieces that are free. -/
structure Mapped (id n : Nat) (st : Store O) (g : Shape) (st' : Store O) (g' : Shape) : Prop where
  inv : Inv st' g'
  ids : st'.extentIDs = st.extentIDs
  stop : g'.stop = update g.stop id n
  blockSize : ∀ e, (st'.extents e).blockSize = (st.extents e).blockSize
  use : ∀ q u, u ≠ .free → (IsTile st' g' q ∧ g'.use q = u ↔ IsTile st g q ∧ g.use q = u)
  payload : ∀ q, IsTile st g q → g.use q ≠ .free → (st'.records q).payload = (st.records q).payload

theorem Mapped.refl {id n : Nat} (h : Inv st g) (hn : g.stop id = n) : Mapped id n st g st g :=
  ⟨h, rfl, by rw [← hn, update_eq_self], fun _ => rfl, fun _ _ _ => Iff.rfl, fun _ _ _ => rfl⟩

theorem Mapped.trans {id m n : Nat} {st'' : Store O} {g'' : Shape} (h : Mapped id m st g st' g')
    (h' : Mapped id n st' g' st'' g'') : Mapped id n st g st'' g'' := by
  refine ⟨h'.inv, h'.ids.trans h.ids, ?_, fun e => (h'.blockSize e).trans (h.blockSize e),
    fun q u hu => (h'.use q u hu).trans (h.use q u hu), fun q hq hu => ?_⟩
  · rw [h'.stop, h.stop, update_idem]
  · have hq' := (h.use q _ hu).2 ⟨hq, rfl⟩
    rw [h'.payload q hq'.1 (by rw [hq'.2]; exact hu), h.payload q hq hu]

theorem Inv.pushNew {st1 : Store O} {l : List Nat} {stop : Nat} (h : Inv st1 (g.addTile p l stop))
    (hi : st1.extentIDs = st.extentIDs) (hl : ∀ o, o ∈ l ↔ o ∈ g.tiles p.extent ∨ o = p.offset)
    (he : p.extent ∈ st.extentIDs) (ho : ¬ IsTile st g p) (hd : (st1.records p).isDeleted) :
    ∃ g', Inv (st1.pushDeleted p) g' ∧ g'.stop = update g.stop p.extent stop ∧
      ∀ q u, u ≠ .free → (IsTile (st1.pushDeleted p) g' q ∧ g'.use q = u ↔ IsTile st g q ∧ g.use q = u) := by
  have ht : ∀ {q}, IsTile st1 (g.addTile p l stop) q ↔ IsTile st g q ∨ q = p := fun {q} =>
    (IsTile.congr hi).trans (mem_addTile hl he)
  refine ⟨_, h.push (ht.2 (.inr rfl)) (setUse_self ..) hd rfl, rfl, fun q u hu => ?_⟩
  show IsTile st1 (g.addTile p l stop) q ∧ ((g.addTile p l stop).setUse p .free).use q = u ↔ _
  rw [ht]
  by_cases hq : q = p
  · subst hq
    rw [setUse_self]
    exact ⟨fun hq => absurd hq.2.symm hu, fun hq => absurd hq.1 ho⟩
  · rw [setUse_of_ne _ hq]
    show (_ ∧ (g.setUse p .held).use q = u) ↔ _
    rw [setUse_of_ne _ hq]
    simp [hq]

theorem mapped_saveDeletedRecord (h : Inv st g) {id k : Nat} (he : id ∈ st.extentIDs) (hk : 0 < k)
    (hm : k % 4 = 0) (hmax : k ≤ DMS_RECORD_MAX_SZ) :
    ∃ g', Mapped id (g.stop id + k) st g (st.saveDeletedRecord ⟨id, g.stop id⟩ k) g' := by
  obtain ⟨n, hn⟩ : ∃ n : RID, n = ⟨id, g.stop id⟩ := ⟨_, rfl⟩
  have ho : ¬ IsTile st g n := by
    rintro ⟨-, hmem⟩
    rw [hn] at hmem
    have := (h.tiles.tiles id he).bounds (show g.stop id ∈ g.tiles id from hmem)
    omega
  have hr : ∀ q, IsTile st g q → (st.markDeleted n k).records q = st.records q := fun q hq =>
    setRecord_of_ne _ _ fun heq => ho (heq ▸ hq)
  obtain ⟨g', hi, hs, hu⟩ : ∃ g', Inv ((st.markDeleted n k).pushDeleted n) g' ∧
      g'.stop = update g.stop n.extent (g.stop id + k) ∧ ∀ q u, u ≠ .free →
        (IsTile ((st.markDeleted n k).pushDeleted n) g' q ∧ g'.use q = u ↔ IsTile st g q ∧ g.use q = u) := by
    subst hn
    exact (h.extend he hk hm hmax (SameFrame.setRecord st _ _) (markDeleted_new hk) hr).pushNew rfl (by simp) he ho
      (markDeleted_isDeleted k)
  rw [← hn]
  refine ⟨g', hi, rfl, by rw [hs, hn], fun e => ?_, hu, fun q hq _ => ?_⟩
  · show (((st.markDeleted n k).pushDeleted n).extents e).blockSize = _
    rw [pushDeleted_extents]
    rfl
  · show (((st.markDeleted n k).pushDeleted n).records q).payload = _
    rw [pushDeleted_records, hr q hq]
    rfl

theorem mapLoop_mapped {id d fuel cur : Nat} (h : Inv st g) (he : id ∈ st.extentIDs) (hd : 0 < d)
    (hdmod : d % 4 = 0) (hdmax : d ≤ DMS_RECORD_MAX_SZ) (ho : g.stop id = off) (hc : 0 < cur)
    (hmod : cur % 4 = 0) (hfuel : cur ≤ fuel) :
    ∃ cur' offset' st' g', mapLoop id d fuel (cur, off, st) = (cur', offset', st') ∧
      Mapped id offset' st g st' g' ∧ cur' + offset' = cur + off ∧ 0 < cur' ∧ cur' ≤ cur ∧ cur' % 4 = 0 ∧
      cur' < d + DMS_MIN_DELETEDRECORD_SZ := by
  induction fuel generalizing cur off st g with
  | zero => omega
  | succ fuel ih =>
    by_cases hge : cur ≥ d + DMS_MIN_DELETEDRECORD_SZ
    · obtain ⟨g1, hm⟩ := mapped_saveDeletedRecord h he hd hdmod hdmax
      rw [ho] at hm
      have hmin : DMS_MIN_DELETEDRECORD_SZ = 36 := rfl
      obtain ⟨cur', offset', st', g', hl, hm', hsum, hp, hle, hmod', hlt⟩ :=
        ih hm.inv (by rw [hm.ids]; exact he) (show g1.stop id = off + d by rw [hm.stop, update_self])
          (show 0 < cur - d by omega) (by omega) (by omega)
      refine ⟨cur', offset', st', g', ?_, hm.trans hm', by omega, hp, by omega, hmod', hlt⟩
      simp only [mapLoop, if_pos hge]
      exact hl
    · refine ⟨cur, off, st, g, ?_, Mapped.refl h ho, rfl, hc, Nat.le_refl _, hmod, by omega⟩
      simp only [mapLoop, if_neg hge]

def Shape.addExtent (g : Shape) (id : Nat) : Shape :=
  { g with
    tiles := update g.tiles id []
    stop := update g.stop id DMS_EXTENT_METADATA_SZ
    links := update g.links id [] }

def Store.addExtent (st : Store O) (id numPages : Nat) : Store O :=
  { st.setExtent id ⟨numPages, 0, none, none, 0⟩ with extentIDs := st.extentIDs ++ [id] }

variable {id num : Nat} {res : Rc × Store O × Option RID}

theorem isTile_addExtent (hid : id ∉ st.extentIDs) :
    IsTile (st.addExtent id num) (g.addExtent id) q ↔ IsTile st g q := by
  unfold IsTile
  show q.extent ∈ st.extentIDs ++ [id] ∧ q.offset ∈ update g.tiles id [] q.extent ↔ _
  by_cases he : q.extent = id
  · rw [he, update_self]
    simp [hid]
  · rw [update_of_ne he]
    simp [he]

theorem Inv.addExtent (h : Inv st g) {id : Nat} (hid : id ∉ st.extentIDs) (num : Nat) :
    Inv (st.addExtent id num) (g.addExtent id) := by
  have htile : ∀ {q}, IsTile (st.addExtent id num) (g.addExtent id) q ↔ IsTile st g q := isTile_addExtent hid
  have hs : ∀ {u}, SamePieces u st g (st.addExtent id num) (g.addExtent id) := fun q => and_congr_left' htile
  have hne : ∀ {e}, e ∈ st.extentIDs → e ≠ id := fun {e} he heq => hid (heq ▸ he)
  -- the new extent, and the others
  have hi : ∀ {P : Nat → Prop}, (∀ e ∈ st.extentIDs, e ≠ id → P e) → P id →
      ∀ e ∈ (st.addExtent id num).extentIDs, P e := by
    intro P ho hn e he
    rcases mem_append.1 (show e ∈ st.extentIDs ++ [id] from he) with he | he
    · exact ho e he (hne he)
    · rw [mem_singleton.1 he]
      exact hn
  have ht : ∀ {e}, e ≠ id → (g.addExtent id).tiles e = g.tiles e := fun {e} he => update_of_ne he ..
  have htiles' : (g.addExtent id).tiles id = [] := update_self ..
  have hl : ∀ {e}, e ≠ id → (g.addExtent id).links e = g.links e := fun {e} he => update_of_ne he ..
  have hlinks' : (g.addExtent id).links id = [] := update_self ..
  have hstop : ∀ {e}, e ≠ id → (g.addExtent id).stop e = g.stop e := fun {e} he => update_of_ne he ..
  have hstop' : (g.addExtent id).stop id = DMS_EXTENT_METADATA_SZ := update_self ..
  have hext : ∀ {e}, e ≠ id → (st.addExtent id num).extents e = st.extents e := fun {e} he =>
    update_of_ne he ..
  have hext' : (st.addExtent id num).extents id = ⟨num, 0, none, none, 0⟩ := update_self ..
  constructor
  · refine ⟨?_, hi (fun e he hne => ?_) ?_, hi (fun e he hne => ?_) ?_, fun p hp => h.tiles.aligned p (htile.1 hp),
      fun p hp => h.tiles.size_le p (htile.1 hp), fun p hp => h.tiles.myOffset p (htile.1 hp)⟩
    · exact h.tiles.ids_nodup.append (nodup_singleton _) (disjoint_singleton.2 fun hm => hne hm rfl)
    · rw [ht hne, hstop hne]
      exact h.tiles.tiles e he
    · rw [htiles', hstop']
      rfl
    · rw [hstop hne]
      exact h.tiles.stop_mod e he
    · rw [hstop']
      rfl
  · exact h.lists.transfer rfl rfl hs fun _ _ _ => ⟨rfl, rfl, rfl⟩
  · refine linkInv_iff.2 (hi (fun e he hne => ?_) ⟨?_, ?_, fun o => ?_, ?_, ?_⟩)
    · refine (linkInv_iff.1 h.links e he).transfer (hl hne) (fun o => ?_) ?_ ?_ fun _ _ => ⟨rfl, rfl⟩
      · rw [ht hne]
        exact Iff.rfl
      · rw [hext hne]
      · rw [hext hne]
    · rw [hlinks']
      trivial
    · rw [hlinks']
      exact nodup_nil
    · rw [hlinks', htiles']
      simp
    · rw [hlinks', hext']
      rfl
    · rw [hlinks', hext']
      rfl
  · refine ⟨hi (fun e he hne => ?_) ?_, ?_⟩
    · rw [freeSum, ht hne, hext hne]
      exact h.space.freeSpace e he
    · rw [freeSum, htiles', hext']
      rfl
    · show st.totalDataFreeSpace = ((st.extentIDs ++ [id]).map _).sum
      rw [map_append, sum_append, map_singleton, sum_singleton, hext', h.space.total, add_zero]
      exact sum_map_congr fun e he => by rw [hext (hne he)]
  · exact h.ovf.transfer_payload hs hs fun _ _ _ => ⟨rfl, rfl⟩

theorem mapRest_mapped {id d cur : Nat} (h : Inv st g) (he : id ∈ st.extentIDs) (ho : g.stop id = off)
    (hc : 0 < cur) (hmod : cur % 4 = 0) (hlt : cur < d + DMS_MIN_DELETEDRECORD_SZ) (hd : d ≤ DMS_RECORD_MAX_SZ)
    (hl : d < cur → DMS_PAGE_SIZE4K < d) :
    ∃ g', Mapped id (off + cur) st g (mapRest id d (cur, off, st)) g' := by
  have hmin : DMS_MIN_DELETEDRECORD_SZ = 36 := rfl
  have hpage : DMS_PAGE_SIZE4K = 4096 := rfl
  have hmax : DMS_RECORD_MAX_SZ = 16777216 := rfl
  by_cases hgt : cur > d
  · have hl := hl hgt
    obtain ⟨g1, hm⟩ := mapped_saveDeletedRecord h he (show 0 < DMS_PAGE_SIZE4K by decide) (by decide) (by decide)
    obtain ⟨g2, hm'⟩ := mapped_saveDeletedRecord hm.inv (by rw [hm.ids]; exact he)
      (show 0 < cur - DMS_PAGE_SIZE4K by omega) (by omega) (by omega)
    rw [hm.stop, update_self, ho] at hm'
    rw [ho] at hm
    refine ⟨g2, ?_⟩
    simp only [mapRest, if_pos hgt]
    rw [if_pos (by omega)]
    rw [show off + DMS_PAGE_SIZE4K + (cur - DMS_PAGE_SIZE4K) = off + cur by omega] at hm'
    exact hm.trans hm'
  · obtain ⟨g1, hm⟩ := mapped_saveDeletedRecord h he hc hmod (by omega)
    rw [ho] at hm
    refine ⟨g1, ?_⟩
    simp only [mapRest, if_neg hgt]
    rw [if_pos hc]
    exact hm

theorem mapExtent2DelList_eq {id useable : Nat} {x : Extent} (hx : st.extents id = x) (hf : x.freeSpace = useable)
    (hmin : DMS_MIN_RECORD_SZ ≤ useable) : st.mapExtent2DelList cfg id =
      mapRest id (min useable DMS_RECORD_MAX_SZ) (mapLoop id (min useable DMS_RECORD_MAX_SZ) useable
        (useable, x.blockSize * 2 ^ cfg.pageSizeSquareRoot - useable, st.setExtent id { x with freeSpace := 0 })) := by
  unfold Store.mapExtent2DelList
  simp only [hx, hf, Int.toNat_natCast]
  rw [if_neg (by omega)]

theorem Config.extentSize_dvd (cfg : Config O) (num : Nat) : 4096 ∣ num * 2 ^ cfg.pageSizeSquareRoot :=
  (pow_dvd_pow 2 cfg.pageSize_ge : 2 ^ 12 ∣ 2 ^ cfg.pageSizeSquareRoot).mul_left _

theorem allocateExtent_eq (hn : 0 < num) : st.allocateExtent cfg id num =
      mapRest id (min (num * 2 ^ cfg.pageSizeSquareRoot - DMS_EXTENT_METADATA_SZ) DMS_RECORD_MAX_SZ)
        (mapLoop id (min (num * 2 ^ cfg.pageSizeSquareRoot - DMS_EXTENT_METADATA_SZ) DMS_RECORD_MAX_SZ)
          (num * 2 ^ cfg.pageSizeSquareRoot - DMS_EXTENT_METADATA_SZ)
          (num * 2 ^ cfg.pageSizeSquareRoot - DMS_EXTENT_METADATA_SZ, DMS_EXTENT_METADATA_SZ,
            st.addExtent id num)) := by
  have hmeta : DMS_EXTENT_METADATA_SZ = 36 := rfl
  have hmin : DMS_MIN_RECORD_SZ = 36 := rfl
  obtain ⟨c, hc⟩ := cfg.extentSize_dvd num
  have hpos : 0 < num * 2 ^ cfg.pageSizeSquareRoot := Nat.mul_pos hn (Nat.two_pow_pos _)
  unfold Store.allocateExtent
  rw [mapExtent2DelList_eq (update_self ..) rfl (by omega)]
  congr 4
  · simp only
    omega
  · unfold Store.addExtent Store.setExtent
    simp

theorem Holding.allocateExtent (h : Holding cfg st g hs) (hid : id ∉ st.extentIDs) (hn : 0 < num) :
    ∃ g', Holding cfg (st.allocateExtent cfg id num) g' hs ∧
      KeepsAll st g (st.allocateExtent cfg id num) g' ∧
      (st.allocateExtent cfg id num).extentIDs = st.extentIDs ++ [id] := by
  have hmeta : DMS_EXTENT_METADATA_SZ = 36 := rfl
  have hmax : DMS_RECORD_MAX_SZ = 16777216 := rfl
  have hmem : id ∈ (st.addExtent id num).extentIDs := by
    show id ∈ st.extentIDs ++ [id]
    simp
  rw [allocateExtent_eq hn]
  obtain ⟨c, hc⟩ := cfg.extentSize_dvd num
  have hp : 0 < num * 2 ^ cfg.pageSizeSquareRoot := Nat.mul_pos hn (Nat.two_pow_pos _)
  generalize hsize : num * 2 ^ cfg.pageSizeSquareRoot = size at hc hp ⊢
  obtain ⟨cur, off, st1, g1, hl, hm, hsum, hcur, hle, hmod, hlt⟩ :=
    mapLoop_mapped (h.toInv.addExtent hid num) hmem
      (show 0 < min (size - DMS_EXTENT_METADATA_SZ) DMS_RECORD_MAX_SZ by omega) (by omega) (by omega)
      (show (g.addExtent id).stop id = DMS_EXTENT_METADATA_SZ from update_self ..)
      (show 0 < size - DMS_EXTENT_METADATA_SZ by omega) (by omega) (Nat.le_refl _)
  obtain ⟨g2, hm'⟩ := mapRest_mapped hm.inv (by rw [hm.ids]; exact hmem) (by rw [hm.stop, update_self]) hcur
    hmod hlt (by omega) (by unfold DMS_PAGE_SIZE4K; omega)
  rw [hl]
  have ha := hm.trans hm'
  generalize mapRest .. = st' at ha ⊢
  refine ⟨g2, ⟨ha.inv, fun e he => ?_, fun q => ?_⟩, ⟨fun q _ u hu => ?_, fun q _ hq hu => ?_⟩, ha.ids⟩
  · rw [ha.ids] at he
    rw [ha.stop, ha.blockSize, show off + cur = size by omega]
    show update (g.addExtent id).stop id size e = (update st.extents id _ e).blockSize * _
    by_cases hee : e = id
    · rw [hee, update_self, update_self]
      exact hsize.symm
    · rw [update_of_ne hee, update_of_ne hee]
      show update g.stop id _ e = _
      rw [update_of_ne hee]
      rcases mem_append.1 he with he | he
      · exact h.stop e he
      · exact absurd (mem_singleton.1 he) hee
  · rw [ha.use q .held (by simp), isTile_addExtent hid]
    exact h.held q
  · rw [ha.use q u (by rcases hu with rfl | rfl <;> simp), isTile_addExtent hid]
    exact Iff.rfl
  · rw [ha.payload q ((isTile_addExtent hid).2 hq)]
    · rfl
    · show g.use q ≠ .free
      rcases hu with hu | hu <;> rw [hu] <;> simp

/-! ### Reserving -/

theorem reqPages_pos (size : Nat) : 0 < reqPages cfg size := by
  unfold reqPages
  exact Nat.lt_of_lt_of_le Nat.one_pos (Nat.le_max_right ..)

/-- What `_reserveFromDeleteList` gives: a record that is held and large enough, or nothing. -/
inductive Reserved (cfg : Config O) (requiredSize : Nat) (hs : List RID) (st : Store O) (g : Shape) :
    Rc × Store O × Option RID → Prop
  | some {st' : Store O} {g' : Shape} {rid : RID} (h : Holding cfg st' g' (rid :: hs)) (hout : rid ∉ hs)
      (hsize : requiredSize ≤ (st'.records rid).size) (hk : KeepsAll st g st' g') :
      Reserved cfg requiredSize hs st g (.ok, st', some rid)
  | none {rc : Rc} {st' : Store O} {g' : Shape} (hrc : rc ≠ .ok) (h : Holding cfg st' g' hs)
      (hk : KeepsAll st g st' g') : Reserved cfg requiredSize hs st g (rc, st', none)

theorem Reserved.trans (hk : KeepsAll st g st' g') (h : Reserved cfg size hs st' g' res) :
    Reserved cfg size hs st g res := by
  cases h with
  | some h ho hsize hk' => exact .some h ho hsize (hk.trans hk')
  | none hrc h hk' => exact .none hrc h (hk.trans hk')

variable {f : ReserveFaults} {allocs : List Nat}

theorem Holding.reserve_search (h : Holding cfg st g hs) (hf : f.extent = false) (allocs : List Nat) :
    Reserved cfg size hs st g (reserveFromDeleteList cfg locked size f allocs st) ∨
      reserveFromDeleteList cfg locked size f allocs st =
        match allocs with
        | [] => (.dmsNoSpc, st, none)
        | id :: allocs => reserveFromDeleteList cfg locked size f allocs
          (st.allocateExtent cfg id (reqPages cfg size)) := by
  rw [reserveFromDeleteList.eq_def]
  cases f.entry with
  | some rc => exact .inl (.none rc.property h (Keeps.refl ..))
  | none =>
    simp only
    split
    · exact .inl (.none (by simp) h (Keeps.refl ..))
    · split
      · next heq =>
        obtain ⟨xs, ys, hl, rfl, hsize⟩ := searchSlots_sound h.lists heq
        obtain ⟨g', h', ho, hk⟩ := h.take hl
        rw [hf]
        refine .inl (.some h' ho ?_ hk)
        exact Nat.le_trans hsize (Nat.le_of_eq (unlinkDeleted_size _).symm)
      · right
        cases allocs <;> rfl

theorem Holding.reserve (h : Holding cfg st g hs) (hf : f.extent = false)
    (hnd : allocs.Nodup) (ha : ∀ id ∈ allocs, id ∉ st.extentIDs)
    (hr : reserveFromDeleteList cfg locked size f allocs st = res) :
    Reserved cfg size hs st g res := by
  subst hr
  induction allocs generalizing st g with
  | nil =>
    rcases h.reserve_search hf [] with hr | heq
    · exact hr
    · rw [heq]
      exact .none (by simp) h (Keeps.refl ..)
  | cons id allocs ih =>
    rcases h.reserve_search hf (id :: allocs) with hr | heq
    · exact hr
    · rw [heq]
      obtain ⟨hid, hnd⟩ := nodup_cons.1 hnd
      obtain ⟨g', h', hk, hi⟩ := h.allocateExtent (ha id (mem_cons_self ..)) (reqPages_pos size)
      refine (ih h' hnd fun id' hid' => ?_).trans hk
      rw [hi, mem_append, mem_singleton, not_or]
      refine ⟨ha id' (mem_cons_of_mem _ hid'), ?_⟩
      rintro rfl
      exact hid hid'

/-! ### Counters -/

def Store.counts (st : Store O) : Int × Int × Int := (st.totalRecords, st.totalOrgDataLen, st.totalDataLen)

theorem mapLoop_counts (id size fuel : Nat) (s : Nat × Nat × Store O) :
    (mapLoop id size fuel s).2.2.counts = s.2.2.counts := by
  induction fuel generalizing s with
  | zero => rfl
  | succ fuel ih =>
    obtain ⟨cur, off, st⟩ := s
    unfold mapLoop
    split
    · rw [ih]
      rfl
    · rfl

theorem mapRest_counts (id size : Nat) (s : Nat × Nat × Store O) : (mapRest id size s).counts = s.2.2.counts := by
  obtain ⟨cur, off, st⟩ := s
  by_cases hc : cur > size
  · simp only [mapRest, hc, if_true]
    split <;> rfl
  · simp only [mapRest, hc, if_false]
    split <;> rfl

theorem allocateExtent_counts (st : Store O) (cfg : Config O) (id num : Nat) :
    (st.allocateExtent cfg id num).counts = st.counts := by
  simp only [Store.allocateExtent, Store.mapExtent2DelList]
  split
  · rfl
  · rw [mapRest_counts, mapLoop_counts]
    rfl

theorem unlinkDeleted_counts (st : Store O) (j : Nat) (pre : Option RID) (rid : RID) :
    (st.unlinkDeleted j pre rid).counts = st.counts := by
  unfold Store.unlinkDeleted
  split <;> rfl

theorem reserve_counts
    (hr : reserveFromDeleteList cfg locked size f allocs st = res) : res.2.1.counts = st.counts := by
  subst hr
  fun_induction reserveFromDeleteList cfg locked size f allocs st with
  | case1 | case2 | case5 => rfl
  | case3 | case4 => exact unlinkDeleted_counts ..
  | case6 st _ _ _ _ _ _ ih => exact ih.trans (allocateExtent_counts ..)

end SequoiaDB.Dms.Data

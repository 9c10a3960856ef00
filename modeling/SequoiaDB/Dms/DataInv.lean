import SequoiaDB.Dms.DataOps
import SequoiaDB.Lib.Tiling
import SequoiaDB.Lib.Chain

/-!
# The invariant of the data extents

`Shape` says what the records of a store are used for: the pieces of every extent, the use of each piece, the delete
lists and the record lists.  `Inv st g` ties a shape to a store.  A piece can be `held`: inside an operation, a record
that was reserved, or unlinked, and is on no list (`Holding`).  Between operations no piece is held.

What an operation does is composed of a few changes of the shape: taking a free piece, giving a held one back, cutting
a held piece, appending a piece to a new extent, linking and unlinking a record, and changing what an overflow-from
record refers to.  Each has one lemma, in the next module.
-/

namespace SequoiaDB.Dms.Data

open SequoiaDB.Lib

variable {O : Type*} {X : RID → Prop}

inductive Use
  | free
  | live
  | target
  | held
  deriving DecidableEq

/-- The pieces of the extents and how far they reach, the use of each, the delete lists and the record lists. -/
structure Shape where
  tiles : Nat → List Nat
  stop : Nat → Nat
  use : RID → Use
  lists : Nat → List RID
  links : Nat → List Nat

def IsTile (st : Store O) (g : Shape) (p : RID) : Prop := p.extent ∈ st.extentIDs ∧ p.offset ∈ g.tiles p.extent

/-- The pieces of every extent tile it up to `stop`. -/
structure TilesInv (st : Store O) (g : Shape) : Prop where
  ids_nodup : st.extentIDs.Nodup
  tiles : ∀ e ∈ st.extentIDs, Tiles (fun o => (st.records ⟨e, o⟩).size) DMS_EXTENT_METADATA_SZ (g.tiles e) (g.stop e)
  stop_mod : ∀ e ∈ st.extentIDs, g.stop e % 4 = 0
  aligned : ∀ p, IsTile st g p → p.offset % 4 = 0
  size_le : ∀ p, IsTile st g p → (st.records p).size ≤ DMS_RECORD_MAX_SZ
  myOffset : ∀ p, IsTile st g p → (st.records p).myOffset = p.offset

/-- The delete lists hold the free pieces, by size. -/
structure ListInv (st : Store O) (g : Shape) : Prop where
  linked : ∀ s, LinkedFrom (fun p => (st.records p).nextRID) (st.deleteList s) (g.lists s)
  nodup : ∀ s, (g.lists s).Nodup
  mem : ∀ s p, p ∈ g.lists s ↔ IsTile st g p ∧ g.use p = .free ∧ deleteRecordSlot (st.records p).size = s
  isDeleted : ∀ p, IsTile st g p → g.use p = .free → (st.records p).isDeleted = true

/-- The record lists link the live pieces of an extent. -/
structure LinkInv (st : Store O) (g : Shape) : Prop where
  chain : ∀ e ∈ st.extentIDs, ChainTo (fun o => (st.records ⟨e, o⟩).nextOffset)
    (fun o => (st.records ⟨e, o⟩).previousOffset) none (g.links e) none
  nodup : ∀ e ∈ st.extentIDs, (g.links e).Nodup
  mem : ∀ e ∈ st.extentIDs, ∀ o, o ∈ g.links e ↔ o ∈ g.tiles e ∧ g.use ⟨e, o⟩ = .live
  first : ∀ e ∈ st.extentIDs, (st.extents e).firstRecordOffset = (g.links e).head?
  last : ∀ e ∈ st.extentIDs, (st.extents e).lastRecordOffset = (g.links e).getLast?

def freeSize (st : Store O) (g : Shape) (p : RID) : Int := if g.use p = .free then (st.records p).size else 0

def freeSum (st : Store O) (g : Shape) (e : Nat) : Int := ((g.tiles e).map fun o => freeSize st g ⟨e, o⟩).sum

structure SpaceInv (st : Store O) (g : Shape) : Prop where
  freeSpace : ∀ e ∈ st.extentIDs, (st.extents e).freeSpace = freeSum st g e
  total : st.totalDataFreeSpace = (st.extentIDs.map fun e => (st.extents e).freeSpace).sum

/-- The states of records in use, and the references to overflow targets. -/
structure OvfInv (st : Store O) (g : Shape) : Prop where
  live : ∀ p, IsTile st g p → g.use p = .live → (st.records p).state = .normal ∨ (st.records p).state = .ovf
  target : ∀ p, IsTile st g p → g.use p = .target → (st.records p).state = .ovt
  ovf_target : ∀ p, IsTile st g p → g.use p = .live → (st.records p).state = .ovf →
    ∃ t, (st.records p).ovfRID = some t ∧ IsTile st g t ∧ g.use t = .target
  target_ovf : ∀ t, IsTile st g t → g.use t = .target →
    ∃ p, IsTile st g p ∧ g.use p = .live ∧ (st.records p).state = .ovf ∧ (st.records p).ovfRID = some t
  ovf_inj : ∀ p p', IsTile st g p → IsTile st g p' → g.use p = .live → g.use p' = .live →
    (st.records p).state = .ovf → (st.records p').state = .ovf →
    (st.records p).ovfRID = (st.records p').ovfRID → p = p'
  fits : ∀ p, IsTile st g p → g.use p = .live ∨ g.use p = .target → ∀ d ∈ (st.records p).data,
    d.diskLen + DMS_RECORD_METADATA_SZ ≤ (st.records p).size

/-- The shape `g` describes the store. -/
structure Inv (st : Store O) (g : Shape) : Prop where
  tiles : TilesInv st g
  lists : ListInv st g
  links : LinkInv st g
  space : SpaceInv st g
  ovf : OvfInv st g

/-- Every extent is tiled to its end and the pieces of `hs` are held. -/
structure Holding (cfg : Config O) (st : Store O) (g : Shape) (hs : List RID) : Prop extends Inv st g where
  stop : ∀ e ∈ st.extentIDs, g.stop e = (st.extents e).blockSize * 2 ^ cfg.pageSizeSquareRoot
  held : ∀ p, IsTile st g p ∧ g.use p = .held ↔ p ∈ hs

def Record.payload (r : Record O) : RecState × Bool × Bool × Option RID × Option (RecordData O) :=
  (r.state, r.compressed, r.deleting, r.ovfRID, r.data)

/-- Records in use outside `X` are the same in both states. -/
structure Keeps (X : RID → Prop) (st : Store O) (g : Shape) (st' : Store O) (g' : Shape) : Prop where
  use : ∀ q, ¬ X q → ∀ u, u = .live ∨ u = .target → (IsTile st' g' q ∧ g'.use q = u ↔ IsTile st g q ∧ g.use q = u)
  payload : ∀ q, ¬ X q → IsTile st g q → g.use q = .live ∨ g.use q = .target →
    (st'.records q).payload = (st.records q).payload

theorem Keeps.refl (X : RID → Prop) (st : Store O) (g : Shape) : Keeps X st g st g :=
  ⟨fun _ _ _ _ => Iff.rfl, fun _ _ _ _ => rfl⟩

theorem Keeps.trans {st st' st'' : Store O} {g g' g'' : Shape} (h : Keeps X st g st' g')
    (h' : Keeps X st' g' st'' g'') : Keeps X st g st'' g'' := by
  refine ⟨fun q hq u hu => (h'.use q hq u hu).trans (h.use q hq u hu), fun q hq ht hu => ?_⟩
  have hq' := (h.use q hq _ hu).2 ⟨ht, rfl⟩
  rw [h'.payload q hq hq'.1 (by rw [hq'.2]; exact hu), h.payload q hq ht hu]

theorem Keeps.mono {Y : RID → Prop} {st st' : Store O} {g g' : Shape} (h : Keeps X st g st' g')
    (hXY : ∀ q, X q → Y q) : Keeps Y st g st' g' :=
  ⟨fun q hq => h.use q fun hX => hq (hXY q hX), fun q hq => h.payload q fun hX => hq (hXY q hX)⟩

/-! ### Changes that the shape does not see -/

/-- Records that agree in everything the invariant says about a piece with the given use. -/
structure Agree (u : Use) (r r' : Record O) : Prop where
  size : r'.size = r.size
  myOffset : r'.myOffset = r.myOffset
  free : u = .free → r'.isDeleted = r.isDeleted ∧ r'.nextRID = r.nextRID
  links : u = .live → r'.nextOffset = r.nextOffset ∧ r'.previousOffset = r.previousOffset
  live : u = .live → r'.state = r.state ∧ (r.state = .ovf → r'.ovfRID = r.ovfRID)
  target : u = .target → r'.state = r.state
  fits : u = .live ∨ u = .target → ∀ d ∈ r'.data, d ∈ r.data ∨ d.diskLen + DMS_RECORD_METADATA_SZ ≤ r.size

theorem Agree.refl (u : Use) (r : Record O) : Agree u r r :=
  ⟨rfl, rfl, fun _ => ⟨rfl, rfl⟩, fun _ => ⟨rfl, rfl⟩, fun _ => ⟨rfl, fun _ => rfl⟩, fun _ => rfl,
    fun _ _ hd => .inl hd⟩

/-- Two stores with the same extents and the same delete lists. -/
structure SameFrame (st st' : Store O) : Prop where
  extentIDs : st'.extentIDs = st.extentIDs
  first : ∀ e, (st'.extents e).firstRecordOffset = (st.extents e).firstRecordOffset
  last : ∀ e, (st'.extents e).lastRecordOffset = (st.extents e).lastRecordOffset
  freeSpace : ∀ e, (st'.extents e).freeSpace = (st.extents e).freeSpace
  blockSize : ∀ e, (st'.extents e).blockSize = (st.extents e).blockSize
  deleteList : st'.deleteList = st.deleteList
  total : st'.totalDataFreeSpace = st.totalDataFreeSpace

section Transfer

variable {st st' : Store O} {g g' : Shape} {e : Nat} {p : RID}

theorem IsTile.congr (hi : st'.extentIDs = st.extentIDs) : IsTile st' g p ↔ IsTile st g p := by
  unfold IsTile
  rw [hi]

theorem IsTile.reshape (ht : g'.tiles = g.tiles) : IsTile st g' p ↔ IsTile st g p := by
  unfold IsTile
  rw [ht]

def SamePieces (u : Use) (st : Store O) (g : Shape) (st' : Store O) (g' : Shape) : Prop :=
  ∀ q, IsTile st' g' q ∧ g'.use q = u ↔ IsTile st g q ∧ g.use q = u

theorem SamePieces.of_iff {u : Use} (hi : st'.extentIDs = st.extentIDs) (ht : g'.tiles = g.tiles)
    (hu : ∀ q, g'.use q = u ↔ g.use q = u) : SamePieces u st g st' g' := fun q => by
  rw [IsTile.congr hi, IsTile.reshape ht, hu]

theorem TilesInv.transfer (h : TilesInv st g) (hi : st'.extentIDs = st.extentIDs) (ht : g'.tiles = g.tiles)
    (hs : g'.stop = g.stop) (hr : ∀ p, IsTile st g p → (st'.records p).size = (st.records p).size ∧
      (st'.records p).myOffset = (st.records p).myOffset) : TilesInv st' g' := by
  have htile : ∀ {p}, IsTile st' g' p ↔ IsTile st g p := (IsTile.congr hi).trans (IsTile.reshape ht)
  refine ⟨hi ▸ h.ids_nodup, fun e he => ?_, fun e he => ?_, fun p hp => h.aligned p (htile.1 hp), fun p hp => ?_,
    fun p hp => ?_⟩
  · rw [hi] at he
    rw [ht, hs]
    exact (h.tiles e he).congr fun o ho => (hr ⟨e, o⟩ ⟨he, ho⟩).1
  · rw [hs]
    exact h.stop_mod e (hi ▸ he)
  · rw [htile] at hp
    rw [(hr p hp).1]
    exact h.size_le p hp
  · rw [htile] at hp
    rw [(hr p hp).2]
    exact h.myOffset p hp

theorem ListInv.transfer (h : ListInv st g) (hlist : st'.deleteList = st.deleteList) (hl : g'.lists = g.lists)
    (hf : SamePieces .free st g st' g')
    (hr : ∀ p, IsTile st g p → g.use p = .free → (st'.records p).size = (st.records p).size ∧
      (st'.records p).isDeleted = (st.records p).isDeleted ∧ (st'.records p).nextRID = (st.records p).nextRID) :
    ListInv st' g' := by
  constructor
  · intro s
    rw [hlist, hl]
    refine (h.linked s).congr fun p hp => ?_
    obtain ⟨ht, hu, -⟩ := (h.mem s p).1 hp
    exact (hr p ht hu).2.2
  · rw [hl]
    exact h.nodup
  · intro s p
    rw [hl, h.mem, ← and_assoc, ← and_assoc, hf]
    exact and_congr_right fun hp => by rw [(hr p hp.1 hp.2).1]
  · intro p hp hu
    obtain ⟨hp, hu⟩ := (hf p).1 ⟨hp, hu⟩
    rw [(hr p hp hu).2.1]
    exact h.isDeleted p hp hu

/-- What `LinkInv` says about extent `e`. -/
structure LinkedAt (st : Store O) (g : Shape) (e : Nat) : Prop where
  chain : ChainTo (fun o => (st.records ⟨e, o⟩).nextOffset) (fun o => (st.records ⟨e, o⟩).previousOffset) none
    (g.links e) none
  nodup : (g.links e).Nodup
  mem : ∀ o, o ∈ g.links e ↔ o ∈ g.tiles e ∧ g.use ⟨e, o⟩ = .live
  first : (st.extents e).firstRecordOffset = (g.links e).head?
  last : (st.extents e).lastRecordOffset = (g.links e).getLast?

theorem linkInv_iff : LinkInv st g ↔ ∀ e ∈ st.extentIDs, LinkedAt st g e :=
  ⟨fun h e he => ⟨h.chain e he, h.nodup e he, h.mem e he, h.first e he, h.last e he⟩,
    fun h => ⟨fun e he => (h e he).chain, fun e he => (h e he).nodup, fun e he => (h e he).mem,
      fun e he => (h e he).first, fun e he => (h e he).last⟩⟩

theorem LinkedAt.transfer (h : LinkedAt st g e) (hl : g'.links e = g.links e)
    (hlive : ∀ o, o ∈ g'.tiles e ∧ g'.use ⟨e, o⟩ = .live ↔ o ∈ g.tiles e ∧ g.use ⟨e, o⟩ = .live)
    (hf : (st'.extents e).firstRecordOffset = (st.extents e).firstRecordOffset)
    (hlast : (st'.extents e).lastRecordOffset = (st.extents e).lastRecordOffset)
    (hr : ∀ o ∈ g.links e, (st'.records ⟨e, o⟩).nextOffset = (st.records ⟨e, o⟩).nextOffset ∧
      (st'.records ⟨e, o⟩).previousOffset = (st.records ⟨e, o⟩).previousOffset) : LinkedAt st' g' e := by
  constructor
  · rw [hl]
    exact h.chain.congr (fun o ho => (hr o ho).1) fun o ho => (hr o ho).2
  · rw [hl]
    exact h.nodup
  · intro o
    rw [hl, h.mem, hlive]
  · rw [hl, hf, h.first]
  · rw [hl, hlast, h.last]

theorem LinkInv.transfer (h : LinkInv st g) (hi : st'.extentIDs = st.extentIDs) (hl : g'.links = g.links)
    (hlive : SamePieces .live st g st' g')
    (hf : ∀ e, (st'.extents e).firstRecordOffset = (st.extents e).firstRecordOffset)
    (hlast : ∀ e, (st'.extents e).lastRecordOffset = (st.extents e).lastRecordOffset)
    (hr : ∀ p, IsTile st g p → g.use p = .live → (st'.records p).nextOffset = (st.records p).nextOffset ∧
      (st'.records p).previousOffset = (st.records p).previousOffset) : LinkInv st' g' := by
  refine linkInv_iff.2 fun e he => ?_
  have he' := hi ▸ he
  refine (linkInv_iff.1 h e he').transfer (congrFun hl e) (fun o => ?_) (hf e) (hlast e) fun o ho => ?_
  · have hq := hlive ⟨e, o⟩
    rwa [IsTile, IsTile, and_iff_right he, and_iff_right he'] at hq
  · obtain ⟨ht, hu⟩ := (h.mem e he' o).1 ho
    exact hr ⟨e, o⟩ ⟨he', ht⟩ hu

theorem SpaceInv.transfer (h : SpaceInv st g) (ht : TilesInv st g) (ht' : TilesInv st' g')
    (hi : st'.extentIDs = st.extentIDs) (hs : ∀ e, (st'.extents e).freeSpace = (st.extents e).freeSpace)
    (htotal : st'.totalDataFreeSpace = st.totalDataFreeSpace) (hf : SamePieces .free st g st' g')
    (hsize : ∀ p, IsTile st g p → g.use p = .free → (st'.records p).size = (st.records p).size) : SpaceInv st' g' := by
  have heq : ∀ {q}, IsTile st g q ∧ g.use q = .free → freeSize st' g' q = freeSize st g q := by
    intro q hq
    unfold freeSize
    rw [((hf q).2 hq).2, hq.2, hsize q hq.1 hq.2]
  have hfreeSum : ∀ e ∈ st.extentIDs, freeSum st' g' e = freeSum st g e := by
    intro e he
    have he' := hi.symm ▸ he
    refine sum_map_of_support (ht.tiles e he).nodup (ht'.tiles e he').nodup (fun o ho hne => ?_) fun o ho hne => ?_
    · have hq : IsTile st g ⟨e, o⟩ ∧ g.use ⟨e, o⟩ = .free := ⟨⟨he, ho⟩, by_contra fun hu => hne (if_neg hu)⟩
      exact ⟨((hf _).2 hq).1.2, heq hq⟩
    · have hq := (hf ⟨e, o⟩).1 ⟨⟨he', ho⟩, by_contra fun hu => hne (if_neg hu)⟩
      exact ⟨hq.1.2, (heq hq).symm⟩
  constructor
  · intro e he
    rw [hi] at he
    rw [hs, hfreeSum e he]
    exact h.freeSpace e he
  · rw [htotal, h.total, hi]
    exact sum_map_congr fun e _ => (hs e).symm

section

variable (h : OvfInv st g) (hlive : SamePieces .live st g st' g') (htarget : SamePieces .target st g st' g')

include h hlive htarget

theorem OvfInv.transfer (hr : ∀ p, IsTile st g p → g.use p = .live ∨ g.use p = .target →
      (st'.records p).size = (st.records p).size ∧ (st'.records p).state = (st.records p).state ∧
      ∀ d ∈ (st'.records p).data, d ∈ (st.records p).data ∨ d.diskLen + DMS_RECORD_METADATA_SZ ≤ (st.records p).size)
    (hrid : ∀ p, IsTile st g p → g.use p = .live → (st.records p).state = .ovf →
      (st'.records p).ovfRID = (st.records p).ovfRID) : OvfInv st' g' := by
  have hs : ∀ {p}, IsTile st g p ∧ g.use p = .live → (st'.records p).state = (st.records p).state := fun hp =>
    (hr _ hp.1 (.inl hp.2)).2.1
  constructor
  · intro p hp hu
    have hp' := (hlive p).1 ⟨hp, hu⟩
    rw [hs hp']
    exact h.live p hp'.1 hp'.2
  · intro p hp hu
    have hp' := (htarget p).1 ⟨hp, hu⟩
    rw [(hr p hp'.1 (.inr hp'.2)).2.1]
    exact h.target p hp'.1 hp'.2
  · intro p hp hu ho
    have hp' := (hlive p).1 ⟨hp, hu⟩
    rw [hs hp'] at ho
    obtain ⟨t, ht, ht'⟩ := h.ovf_target p hp'.1 hp'.2 ho
    exact ⟨t, by rw [hrid p hp'.1 hp'.2 ho, ht], (htarget t).2 ht'⟩
  · intro t ht hu
    have ht' := (htarget t).1 ⟨ht, hu⟩
    obtain ⟨p, hp, hu, ho, hp'⟩ := h.target_ovf t ht'.1 ht'.2
    obtain ⟨hptile, hpu⟩ := (hlive p).2 ⟨hp, hu⟩
    exact ⟨p, hptile, hpu, by rw [hs ⟨hp, hu⟩, ho], by rw [hrid p hp hu ho, hp']⟩
  · intro p q hp hq hu hu' ho hovf' heq
    have hp' := (hlive p).1 ⟨hp, hu⟩
    have hq' := (hlive q).1 ⟨hq, hu'⟩
    rw [hs hp'] at ho
    rw [hs hq'] at hovf'
    rw [hrid p hp'.1 hp'.2 ho, hrid q hq'.1 hq'.2 hovf'] at heq
    exact h.ovf_inj p q hp'.1 hq'.1 hp'.2 hq'.2 ho hovf' heq
  · intro p hp hu d hd
    have hp' : IsTile st g p ∧ (g.use p = .live ∨ g.use p = .target) := by
      rcases hu with hu | hu
      · exact ((hlive p).1 ⟨hp, hu⟩).imp_right .inl
      · exact ((htarget p).1 ⟨hp, hu⟩).imp_right .inr
    obtain ⟨hsize, -, hdata⟩ := hr p hp'.1 hp'.2
    rw [hsize]
    rcases hdata d hd with hd | hle
    · exact h.fits p hp'.1 hp'.2 d hd
    · exact hle

theorem OvfInv.transfer_payload (hr : ∀ p, IsTile st g p → g.use p = .live ∨ g.use p = .target →
      (st'.records p).size = (st.records p).size ∧ (st'.records p).payload = (st.records p).payload) : OvfInv st' g' := by
  refine h.transfer hlive htarget (fun p hp hu => ?_) fun p hp hu _ => ?_
  · obtain ⟨hs, hpay⟩ := hr p hp hu
    have hdata : (st'.records p).data = (st.records p).data := congrArg (fun x => x.2.2.2.2) hpay
    exact ⟨hs, congrArg Prod.fst hpay, fun d hd => .inl (hdata ▸ hd)⟩
  · exact congrArg (fun x => x.2.2.2.1) (hr p hp (.inl hu)).2

end

theorem Inv.congr (h : Inv st g) (hf : SameFrame st st')
    (hr : ∀ p, IsTile st g p → Agree (g.use p) (st.records p) (st'.records p)) : Inv st' g := by
  have hs : ∀ {u}, SamePieces u st g st' g := .of_iff hf.extentIDs rfl fun _ => Iff.rfl
  have ht : TilesInv st' g :=
    h.tiles.transfer hf.extentIDs rfl rfl fun p hp => ⟨(hr p hp).size, (hr p hp).myOffset⟩
  refine ⟨ht, ?_, ?_, ?_, ?_⟩
  · exact h.lists.transfer hf.deleteList rfl hs fun p hp hu => ⟨(hr p hp).size, (hr p hp).free hu⟩
  · exact h.links.transfer hf.extentIDs rfl hs hf.first hf.last fun p hp => (hr p hp).links
  · exact h.space.transfer h.tiles ht hf.extentIDs hf.freeSpace hf.total hs fun p hp _ => (hr p hp).size
  · refine h.ovf.transfer hs hs (fun p hp hu => ⟨(hr p hp).size, ?_, (hr p hp).fits hu⟩)
      fun p hp hu => ((hr p hp).live hu).2
    rcases hu with hu | hu
    · exact ((hr p hp).live hu).1
    · exact (hr p hp).target hu

theorem SameFrame.setRecord (st : Store O) (p : RID) (r : Record O) : SameFrame st (st.setRecord p r) :=
  ⟨rfl, fun _ => rfl, fun _ => rfl, fun _ => rfl, fun _ => rfl, rfl, rfl⟩

@[simp] theorem setRecord_self (st : Store O) (p : RID) (r : Record O) : (st.setRecord p r).records p = r :=
  Function.update_self ..

theorem setRecord_of_ne (st : Store O) {q : RID} (r : Record O) (h : q ≠ p) :
    (st.setRecord p r).records q = st.records q :=
  Function.update_of_ne h ..

theorem Inv.setRecord (h : Inv st g) {r : Record O} (hr : Agree (g.use p) (st.records p) r) :
    Inv (st.setRecord p r) g := by
  refine h.congr (SameFrame.setRecord st p r) fun q _ => ?_
  by_cases hq : q = p
  · subst hq
    rw [setRecord_self]
    exact hr
  · rw [setRecord_of_ne st r hq]
    exact Agree.refl _ _

end Transfer

end SequoiaDB.Dms.Data

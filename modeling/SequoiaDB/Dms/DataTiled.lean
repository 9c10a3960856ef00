import SequoiaDB.Dms.DataOpsSpec
import SequoiaDB.Lib.Run

/-!
# Data extents stay tiled

`WellTiled` says, without a shape, what a scan of the file finds between two operations: the records tile every
extent, the delete lists hold the deleted ones by size, the counters are the sums, overflow targets have one owner, and
the record lists link the rest.  Every run of operations from a new collection keeps it, if no failure hits one of
the places where the code does not give reserved space back.
-/

namespace SequoiaDB.Dms.Data

open SequoiaDB.Lib List

variable {O ι : Type*} {cfg : Config O} {idx : IndexSU O ι} {st : Store O} {g : Shape} {p : RID}

/-! ### Slots -/

theorem slotLoop_le_iff {fuel n k : Nat} (h : n < 2 ^ fuel) : slotLoop fuel n ≤ k ↔ n < 2 ^ k := by
  induction fuel generalizing n k with
  | zero =>
    have hn : n = 0 := by omega
    simp [slotLoop, hn]
  | succ fuel ih =>
    unfold slotLoop
    split
    · next hn => simp [hn]
    · next hn =>
      cases k with
      | zero => simp [hn]
      | succ k =>
        rw [Nat.add_le_add_iff_right, ih (by rw [pow_succ] at h; omega), pow_succ]
        omega

theorem deleteRecordSlot_eq {size : Nat} (h : size ≤ DMS_RECORD_MAX_SZ) :
    deleteRecordSlot size = Nat.size ((size - 1) / 2 ^ 5) := by
  unfold DMS_RECORD_MAX_SZ at h
  unfold deleteRecordSlot
  have hlt : (size - 1) / 2 ^ 5 < 2 ^ 32 := by omega
  refine Nat.le_antisymm ?_ ?_
  · rw [slotLoop_le_iff hlt, ← Nat.size_le]
  · rw [Nat.size_le, ← slotLoop_le_iff hlt]

theorem deleteRecordSlot_lt {size : Nat} (hm : size ≤ DMS_RECORD_MAX_SZ) : deleteRecordSlot size < DELETE_LIST_MAX := by
  rw [deleteRecordSlot_eq hm]
  unfold DMS_RECORD_MAX_SZ at hm
  unfold DELETE_LIST_MAX
  refine Nat.lt_succ_of_le (Nat.size_le.2 ?_)
  omega

theorem deleteRecordSlot_mono {req size : Nat} (hle : req ≤ size) (hm : size ≤ DMS_RECORD_MAX_SZ) :
    deleteRecordSlot req ≤ deleteRecordSlot size := by
  rw [deleteRecordSlot_eq (hle.trans hm), deleteRecordSlot_eq hm]
  exact Nat.size_le_size (Nat.div_le_div_right (Nat.sub_le_sub_right hle 1))

/-! ### The property -/

/-- The records of the extents, the delete lists and the record lists of a collection between two operations. -/
structure Tiled (cfg : Config O) (st : Store O) (tiles : Nat → List Nat) (lists : Nat → List RID)
    (links : Nat → List Nat) : Prop where
  tiling : ∀ e ∈ st.extentIDs, Tiles (fun o => (st.records ⟨e, o⟩).size) DMS_EXTENT_METADATA_SZ (tiles e)
    ((st.extents e).blockSize * 2 ^ cfg.pageSizeSquareRoot)
  aligned : ∀ e ∈ st.extentIDs, ∀ o ∈ tiles e, o % 4 = 0
  chained : ∀ s, LinkedFrom (fun p => (st.records p).nextRID) (st.deleteList s) (lists s)
  lists_nodup : ∀ s, (lists s).Nodup
  deleted : ∀ s p, p ∈ lists s ↔ (p.extent ∈ st.extentIDs ∧ p.offset ∈ tiles p.extent) ∧
    (st.records p).state = .deleted ∧ s = Nat.size (((st.records p).size - 1) / 2 ^ 5)
  slot_lt : ∀ s p, p ∈ lists s → s < DELETE_LIST_MAX
  freeSpace : ∀ e ∈ st.extentIDs, (st.extents e).freeSpace =
    ((tiles e).map fun o => if (st.records ⟨e, o⟩).state = .deleted then ((st.records ⟨e, o⟩).size : Int) else 0).sum
  total : st.totalDataFreeSpace = (st.extentIDs.map fun e => (st.extents e).freeSpace).sum
  referenced : ∀ t : RID, t.extent ∈ st.extentIDs → t.offset ∈ tiles t.extent → (st.records t).state = .ovt →
    ∃! p : RID, (p.extent ∈ st.extentIDs ∧ p.offset ∈ tiles p.extent) ∧ (st.records p).state = .ovf ∧
      (st.records p).ovfRID = some t
  refers : ∀ p : RID, p.extent ∈ st.extentIDs → p.offset ∈ tiles p.extent → (st.records p).state = .ovf →
    ∃ t : RID, (st.records p).ovfRID = some t ∧ (t.extent ∈ st.extentIDs ∧ t.offset ∈ tiles t.extent) ∧
      (st.records t).state = .ovt
  linked : ∀ e ∈ st.extentIDs, ChainTo (fun o => (st.records ⟨e, o⟩).nextOffset)
    (fun o => (st.records ⟨e, o⟩).previousOffset) none (links e) none
  links_nodup : ∀ e ∈ st.extentIDs, (links e).Nodup
  links_mem : ∀ e ∈ st.extentIDs, ∀ o, o ∈ links e ↔ o ∈ tiles e ∧ (st.records ⟨e, o⟩).state ≠ .deleted ∧
    (st.records ⟨e, o⟩).state ≠ .ovt
  first : ∀ e ∈ st.extentIDs, (st.extents e).firstRecordOffset = (links e).head?
  last : ∀ e ∈ st.extentIDs, (st.extents e).lastRecordOffset = (links e).getLast?

def WellTiled (cfg : Config O) (st : Store O) : Prop := ∃ tiles lists links, Tiled cfg st tiles lists links

theorem Holding.state_iff (h : Holding cfg st g []) (hp : IsTile st g p) :
    ((st.records p).state = .deleted ↔ g.use p = .free) ∧ ((st.records p).state = .ovt ↔ g.use p = .target) ∧
      ((st.records p).state = .ovf → g.use p = .live) := by
  cases hu : g.use p with
  | free =>
    have hd := h.lists.isDeleted p hp hu
    simp only [Record.isDeleted, Bool.and_eq_true, decide_eq_true_eq] at hd
    rw [hd.1.1]
    simp
  | live =>
    rcases h.ovf.live p hp hu with hs | hs <;> simp [hs]
  | target =>
    rw [h.ovf.target p hp hu]
    simp
  | held => exact absurd ((h.held p).1 ⟨hp, hu⟩) (by simp)

theorem Holding.tiled (h : Holding cfg st g []) : Tiled cfg st g.tiles g.lists g.links := by
  have hd : ∀ {p}, IsTile st g p → ((st.records p).state = .deleted ↔ g.use p = .free) := fun hp => (h.state_iff hp).1
  have hovt : ∀ {p}, IsTile st g p → ((st.records p).state = .ovt ↔ g.use p = .target) := fun hp => (h.state_iff hp).2.1
  have hovf : ∀ {p}, IsTile st g p → (st.records p).state = .ovf → g.use p = .live := fun hp => (h.state_iff hp).2.2
  constructor
  · intro e he
    rw [← h.stop e he]
    exact h.tiles.tiles e he
  · exact fun e he o ho => h.tiles.aligned ⟨e, o⟩ ⟨he, ho⟩
  · exact h.lists.linked
  · exact h.lists.nodup
  · intro s p
    rw [h.lists.mem]
    refine and_congr_right fun hp => ?_
    rw [hd hp, deleteRecordSlot_eq (h.tiles.size_le p hp)]
    exact and_congr_right fun _ => eq_comm
  · intro s p hp
    obtain ⟨htile, -, hslot⟩ := (h.lists.mem s p).1 hp
    rw [← hslot]
    exact deleteRecordSlot_lt (h.tiles.size_le p htile)
  · intro e he
    rw [h.space.freeSpace e he]
    refine sum_map_congr fun o ho => ?_
    unfold freeSize
    simp only [hd (p := ⟨e, o⟩) ⟨he, ho⟩]
  · exact h.space.total
  · intro t hte hto hs
    obtain ⟨p, hp, hu, hs', hr⟩ := h.ovf.target_ovf t ⟨hte, hto⟩ ((hovt ⟨hte, hto⟩).1 hs)
    refine ⟨p, ⟨hp, hs', hr⟩, ?_⟩
    rintro q ⟨hq, hsq, hridq⟩
    exact h.ovf.ovf_inj q p hq hp (hovf hq hsq) hu hsq hs' (hridq.trans hr.symm)
  · intro p hpe hpo hs
    obtain ⟨t, hr, ht, hut⟩ := h.ovf.ovf_target p ⟨hpe, hpo⟩ (hovf ⟨hpe, hpo⟩ hs) hs
    exact ⟨t, hr, ht, (hovt ht).2 hut⟩
  · exact h.links.chain
  · exact h.links.nodup
  · intro e he o
    rw [h.links.mem e he]
    refine and_congr_right fun ho => ?_
    have hp : IsTile st g ⟨e, o⟩ := ⟨he, ho⟩
    rw [Ne, Ne, hd hp, hovt hp]
    have hheld : g.use ⟨e, o⟩ ≠ .held := fun hu => absurd ((h.held _).1 ⟨hp, hu⟩) (by simp)
    cases hu : g.use ⟨e, o⟩ <;> simp_all
  · exact h.links.first
  · exact h.links.last

/-! ### Runs -/

/-- An operation on the records of a collection. -/
inductive Op (O : Type*)
  | insert (env : Env) (obj : O) (f : InsertOpFaults)
  | update (env : Env) (rid : RID) (dataPtr : Option O) (obj : O) (f : UpdateFaults)
  | delete (rid : RID) (dataPtr : Option O) (hasWait : Bool) (f : DeleteFaults)

def State.step (cfg : Config O) (idx : IndexSU O ι) (s : State O ι) : Op O → State O ι
  | .insert env obj f => (s.insertRecord cfg idx env obj f).2
  | .update env rid dataPtr obj f => (s.updateRecord cfg idx env rid dataPtr obj f).2
  | .delete rid dataPtr hasWait f => (s.deleteRecord cfg idx rid dataPtr hasWait f).2

/-- The record at `offset` of extent `e` is found from the first one by the next offsets. -/
inductive Scanned (st : Store O) (e : Nat) : Nat → Prop
  | first {o : Nat} (h : (st.extents e).firstRecordOffset = some o) : Scanned st e o
  | next {o o' : Nat} (h : Scanned st e o) (hn : (st.records ⟨e, o⟩).nextOffset = some o') : Scanned st e o'

def IsRecord (st : Store O) (rid : RID) : Prop := rid.extent ∈ st.extentIDs ∧ Scanned st rid.extent rid.offset

/-- Operations address records of the collection, extents are handed out once, and no failure hits a place behind
which reserved or unlinked space is lost. -/
def Admissible (s : State O ι) : Op O → Prop
  | .insert env _ f => env.Fresh s.store ∧ f.Safe
  | .update env rid _ _ f => IsRecord s.store rid ∧ env.Fresh s.store ∧ f.Safe
  | .delete rid _ _ f => IsRecord s.store rid ∧ f.Safe

theorem ChainTo_next {next prev : Nat → Option Nat} {l : List Nat} (h : ChainTo next prev none l none) {o o' : Nat}
    (ho : o ∈ l) (hn : next o = some o') : o' ∈ l := by
  obtain ⟨xs, ys, rfl⟩ := append_of_mem ho
  have hnext := (ChainTo.append_iff.1 h).2.2.1
  rw [hn] at hnext
  cases ys with
  | nil => cases hnext
  | cons y ys =>
    cases hnext
    simp

theorem LinkInv.mem_of_scanned (h : LinkInv st g) {e o : Nat} (he : e ∈ st.extentIDs) (ho : Scanned st e o) :
    o ∈ g.links e := by
  induction ho with
  | first hf =>
    rw [h.first e he] at hf
    exact mem_of_mem_head? hf
  | next _ hn ih => exact ChainTo_next (h.chain e he) ih hn

theorem LinkInv.live_of_isRecord (h : LinkInv st g) (hp : IsRecord st p) : IsTile st g p ∧ g.use p = .live := by
  obtain ⟨hm, hu⟩ := (h.mem _ hp.1 _).1 (h.mem_of_scanned hp.1 hp.2)
  exact ⟨⟨hp.1, hm⟩, hu⟩

theorem holding_step {s : State O ι} {op : Op O} (h : ∃ g, Holding cfg s.store g []) (hok : Admissible s op) :
    ∃ g, Holding cfg (s.step cfg idx op).store g [] := by
  obtain ⟨g, h⟩ := h
  obtain ⟨X, g', h', -⟩ : ∃ X, Settles cfg X s.store g (s.step cfg idx op).store := by
    cases op with
    | insert env obj f => exact h.insertRecord obj hok.1 hok.2
    | update env rid dataPtr obj f =>
      obtain ⟨hp, hu⟩ := h.links.live_of_isRecord hok.1
      exact h.updateRecord hp hu dataPtr obj hok.2.1 hok.2.2
    | delete rid dataPtr hasWait f =>
      obtain ⟨hp, hu⟩ := h.links.live_of_isRecord hok.1
      exact ⟨_, h.deleteRecord hp hu dataPtr hasWait hok.2⟩
  exact ⟨g', h'⟩

theorem holding_new (cfg : Config O) (extents : Nat → Extent) (records : RID → Record O) :
    ∃ g, Holding cfg (Store.new extents records) g [] := by
  obtain ⟨g, hg⟩ : ∃ g : Shape, g = ⟨fun _ => [], fun _ => 0, fun _ => .free, fun _ => [], fun _ => []⟩ := ⟨_, rfl⟩
  have hl : ∀ s, g.lists s = [] := fun s => by rw [hg]
  -- there is no extent and no piece
  have hid : ∀ {P : Nat → Prop}, ∀ e ∈ (Store.new extents records).extentIDs, P e := nofun
  have hno : ∀ p, ¬ IsTile (Store.new extents records) g p := fun p hp => by cases hp.1
  have ht : ∀ {P : RID → Prop}, ∀ p, IsTile (Store.new extents records) g p → P p := fun p hp => absurd hp (hno p)
  refine ⟨g, ⟨⟨⟨nodup_nil, hid, hid, ht, ht, ht⟩, ⟨fun s => ?_, fun s => ?_, fun s p => ?_, ht⟩,
    ⟨hid, hid, hid, hid, hid⟩, ⟨hid, rfl⟩, ⟨ht, ht, ht, ht, ?_, ht⟩⟩, hid, fun p => ?_⟩⟩
  · rw [hl]
    rfl
  · rw [hl]
    exact nodup_nil
  · rw [hl]
    exact ⟨fun hp => (by cases hp), fun hp => absurd hp.1 (hno p)⟩
  · exact fun p _ hp => absurd hp (hno p)
  · exact ⟨fun hp => absurd hp.1 (hno p), nofun⟩

/-- In every run of admissible operations from a new collection the records tile the extents. -/
theorem dataExtents_tiled (cfg : Config O) (idx : IndexSU O ι) (extents : Nat → Extent) (records : RID → Record O)
    (index : ι) (ops : List (Op O)) (hok : Meets Admissible (State.step cfg idx) ⟨.new extents records, index⟩ ops) :
    WellTiled cfg (run (State.step cfg idx) ⟨.new extents records, index⟩ ops).store := by
  have hrun : ∃ g, Holding cfg (run (State.step cfg idx) ⟨.new extents records, index⟩ ops).store g [] :=
    run_invariant (I := fun s => ∃ g, Holding cfg s.store g []) (fun s op h hop => holding_step h hop)
      (holding_new cfg extents records) hok
  obtain ⟨g, h⟩ := hrun
  exact ⟨g.tiles, g.lists, g.links, h.tiled⟩

/-! ### Runs of a small collection -/

def sizeConfig : Config Nat where
  objsize n := n + 5
  compress := none
  overflowRatio := 0
  pageSizeSquareRoot := 12
  objsize_ge _ := Nat.le_add_left ..
  pageSize_ge := Nat.le_refl _
  pageSize_le := by decide

def noIndex : IndexSU Nat Unit where
  indexesInsert _ _ _ := (.ok, ())
  indexesUpdate _ _ _ _ _ := (.ok, ())
  indexesDelete _ _ _ := (.ok, ())

def zeroState : State Nat Unit :=
  ⟨.new (fun _ => ⟨0, 0, none, none, 0⟩) fun _ => ⟨0, .normal, false, false, 0, none, none, none, none, none⟩, ()⟩

def sampleEnv (allocs : List Nat) : Env := ⟨fun _ => false, allocs, false⟩

def sampleOps : List (Op Nat) := [
  .insert (sampleEnv [0]) 0 {},
  .insert (sampleEnv []) 7 { insert := { extent := true } },
  .insert (sampleEnv []) 10 {},
  .update (sampleEnv []) ⟨0, 36⟩ none 100 {},
  .update (sampleEnv []) ⟨0, 36⟩ none 3 {},
  .delete ⟨0, 88⟩ none false { remove := { lock := true } },
  .delete ⟨0, 88⟩ none false {}]

theorem dataExtents_tiled_sample :
    Meets Admissible (State.step sizeConfig noIndex) zeroState sampleOps ∧
      WellTiled sizeConfig (run (State.step sizeConfig noIndex) zeroState sampleOps).store := by
  have hok : Meets Admissible (State.step sizeConfig noIndex) zeroState sampleOps := by
    refine ⟨⟨?_, ?_⟩, ⟨?_, ?_⟩, ⟨?_, ?_⟩, ⟨⟨?_, .first ?_⟩, ?_⟩, ⟨⟨?_, .first ?_⟩, ?_⟩,
      ⟨⟨?_, .next (.first (o := 36) ?_) ?_⟩, ?_⟩, ⟨⟨?_, .next (.first (o := 36) ?_) ?_⟩, ?_⟩, trivial⟩
    all_goals decide +kernel
  exact ⟨hok, dataExtents_tiled sizeConfig noIndex _ _ () sampleOps hok⟩

def lostOps : List (Op Nat) := [
  .insert (sampleEnv [0]) 0 {},
  .update (sampleEnv []) ⟨0, 36⟩ none 100 { newExtent := true }]

/-- The reserved space is on no delete list afterwards. -/
theorem updateRecord_loses_space :
    ¬ WellTiled sizeConfig (run (State.step sizeConfig noIndex) zeroState lostOps).store := by
  obtain ⟨st, hst⟩ : ∃ st, st = (run (State.step sizeConfig noIndex) zeroState lostOps).store := ⟨_, rfl⟩
  have hids : (0 : Nat) ∈ st.extentIDs := by rw [hst]; decide +kernel
  have hsize : (st.extents 0).blockSize * 2 ^ sizeConfig.pageSizeSquareRoot = 4096 := by rw [hst]; decide +kernel
  have hfirst : (st.records ⟨0, 36⟩).size = 24 := by rw [hst]; decide +kernel
  have hsecond : (st.records ⟨0, 60⟩).state = .deleted := by rw [hst]; decide +kernel
  have hslot : Nat.size (((st.records ⟨0, 60⟩).size - 1) / 2 ^ 5) = 7 := by rw [hst]; decide +kernel
  have hlist : st.deleteList 7 = none := by rw [hst]; decide +kernel
  rw [← hst]
  rintro ⟨tiles, lists, links, h⟩
  have htiles := h.tiling 0 hids
  rw [hsize] at htiles
  -- the second piece of the extent starts at 60
  have hmem : 60 ∈ tiles 0 := by
    cases hl : tiles 0 with
    | nil =>
      rw [hl] at htiles
      cases htiles
    | cons o os =>
      rw [hl] at htiles
      obtain ⟨rfl, -, hrest⟩ := htiles
      cases os with
      | nil =>
        have hend : DMS_EXTENT_METADATA_SZ + (st.records ⟨0, 36⟩).size = 4096 := hrest
        rw [hfirst] at hend
        cases hend
      | cons o' os =>
        have ho' : o' = DMS_EXTENT_METADATA_SZ + (st.records ⟨0, 36⟩).size := hrest.1
        rw [hfirst] at ho'
        rw [ho']
        simp [DMS_EXTENT_METADATA_SZ]
  have hin : (⟨0, 60⟩ : RID) ∈ lists 7 := (h.deleted 7 ⟨0, 60⟩).2 ⟨⟨hids, hmem⟩, hsecond, hslot.symm⟩
  have hchain := h.chained 7
  rw [hlist] at hchain
  cases hl : lists 7 with
  | nil =>
    rw [hl] at hin
    cases hin
  | cons x xs =>
    rw [hl] at hchain
    cases hchain.1

/-! ### One new extent is enough -/

variable {locked : RID → Bool} {req size : Nat}

/-- `st'` has a new deleted record `p` at the head of the delete list for its size, and new records at most in the lists
below `slot`. -/
structure Grown (st : Store O) (p : RID) (size slot : Nat) (st' : Store O) : Prop where
  head : st'.deleteList (deleteRecordSlot size) = some p
  next : (st'.records p).nextRID = st.deleteList (deleteRecordSlot size)
  isDeleted : (st'.records p).isDeleted = true
  size_eq : (st'.records p).size = size
  deleteList : ∀ j, slot ≤ j → j ≠ deleteRecordSlot size → st'.deleteList j = st.deleteList j
  records : ∀ q : RID, q.extent ≠ p.extent → st'.records q = st.records q

theorem saveDeletedRecord_deleteList (hs : 0 < size) : (st.saveDeletedRecord p size).deleteList =
    Function.update st.deleteList (deleteRecordSlot size) (some p) := by
  simp only [Store.saveDeletedRecord, Store.pushDeleted, (markDeleted_new hs).1]
  rfl

theorem grown_saveDeletedRecord (st : Store O) (p : RID) (hs : 0 < size) (slot : Nat) :
    Grown st p size slot (st.saveDeletedRecord p size) := by
  refine ⟨?_, ?_, ?_, ?_, fun j _ hj => ?_, fun q hq => saveDeletedRecord_of_ne ?_⟩
  · rw [saveDeletedRecord_deleteList hs, Function.update_self]
  · rw [Store.saveDeletedRecord, pushDeleted_records, if_pos rfl, (markDeleted_new hs).1]
    rfl
  · rw [Store.saveDeletedRecord, pushDeleted_records]
    exact markDeleted_isDeleted size
  · rw [Store.saveDeletedRecord, pushDeleted_records]
    exact (markDeleted_new hs).1
  · rw [saveDeletedRecord_deleteList hs, Function.update_of_ne hj]
  · rintro rfl
    exact hq rfl

theorem Grown.saveDeletedRecord {slot : Nat} (h : Grown st p size slot st') {q : RID} (hq : p ≠ q)
    (he : q.extent = p.extent) {k : Nat} (hk : 0 < k) (hs : deleteRecordSlot k < slot) (hsize : slot ≤ deleteRecordSlot size) :
    Grown st p size slot (st'.saveDeletedRecord q k) := by
  have hr : (st'.saveDeletedRecord q k).records p = st'.records p := saveDeletedRecord_of_ne hq
  refine ⟨?_, hr ▸ h.next, hr ▸ h.isDeleted, hr ▸ h.size_eq, fun j hj hne => ?_, fun x hx => ?_⟩
  · rw [saveDeletedRecord_deleteList hk, Function.update_of_ne (by omega)]
    exact h.head
  · rw [saveDeletedRecord_deleteList hk, Function.update_of_ne (by omega)]
    exact h.deleteList j hj hne
  · rw [saveDeletedRecord_of_ne fun heq : x = q => hx (heq ▸ he)]
    exact h.records x hx

theorem mapLoop_done {id d cur offset : Nat} (fuel : Nat) (h : cur < d + DMS_MIN_DELETEDRECORD_SZ) :
    mapLoop id d fuel (cur, offset, st) = (cur, offset, st) := by
  cases fuel with
  | zero => rfl
  | succ fuel => rw [mapLoop, if_neg (by omega)]

theorem mapRest_eq {id d cur offset : Nat} (hle : cur ≤ d) (hc : 0 < cur) :
    mapRest id d (cur, offset, st) = st.saveDeletedRecord ⟨id, offset⟩ cur := by
  simp only [mapRest, if_neg (Nat.not_lt.2 hle)]
  rw [if_pos hc]

theorem reqPages_spec (cfg : Config O) (hpos : 0 < req) (hm : req ≤ DMS_RECORD_MAX_SZ) :
    req + DMS_EXTENT_METADATA_SZ ≤ reqPages cfg req * 2 ^ cfg.pageSizeSquareRoot ∧
      reqPages cfg req * 2 ^ cfg.pageSizeSquareRoot ≤ DMS_RECORD_MAX_SZ + 2 ^ 17 ∧
      (DMS_RECORD_MAX_SZ < reqPages cfg req * 2 ^ cfg.pageSizeSquareRoot → 2 ^ 17 < req) := by
  obtain ⟨expandSize, hp, hle, hb, hlarge⟩ : ∃ e, reqPages cfg req = max (min ((e + DMS_EXTENT_METADATA_SZ +
      2 ^ cfg.pageSizeSquareRoot - 1) / 2 ^ cfg.pageSizeSquareRoot) cfg.segmentPages) 1 ∧
      req ≤ e ∧ e ≤ DMS_RECORD_MAX_SZ ∧ (2 ^ 23 < e → 2 ^ 17 < req) := by
    refine ⟨_, rfl, ?_⟩
    unfold DMS_RECORD_MAX_SZ at hm ⊢
    unfold DMS_BEST_UP_EXTENT_SZ DMS_RECORDS_PER_EXTENT_SQUARE
    split_ifs <;> omega
  have hge := cfg.pageSize_ge
  have hle' := cfg.pageSize_le
  rw [hp, Config.segmentPages]
  generalize cfg.pageSizeSquareRoot = k at hge hle' ⊢
  unfold DMS_SEGMENT_SZ DMS_EXTENT_METADATA_SZ
  unfold DMS_RECORD_MAX_SZ at hb ⊢
  obtain rfl | rfl | rfl | rfl | rfl : k = 12 ∨ k = 13 ∨ k = 14 ∨ k = 15 ∨ k = 16 := by omega
  all_goals omega

theorem allocateExtent_grown (cfg : Config O) (st : Store O) (id : Nat) (hp : 0 < req)
    (hm : req ≤ DMS_RECORD_MAX_SZ) :
    ∃ size, req ≤ size ∧ size ≤ DMS_RECORD_MAX_SZ ∧ Grown st ⟨id, DMS_EXTENT_METADATA_SZ⟩ size (deleteRecordSlot req)
      (st.allocateExtent cfg id (reqPages cfg req)) := by
  obtain ⟨hf, ht, hlarge⟩ := reqPages_spec cfg hp hm
  obtain ⟨c, hc⟩ := cfg.extentSize_dvd (reqPages cfg req)
  rw [allocateExtent_eq (reqPages_pos req)]
  have hgrown : ∀ {p : RID} {size slot : Nat} {st' : Store O},
      Grown (st.addExtent id (reqPages cfg req)) p size slot st' → Grown st p size slot st' :=
    fun h => ⟨h.head, h.next, h.isDeleted, h.size_eq, h.deleteList, h.records⟩
  generalize reqPages cfg req * 2 ^ cfg.pageSizeSquareRoot = total at hf ht hc hlarge ⊢
  have hmeta : DMS_EXTENT_METADATA_SZ = 36 := rfl
  have hmin : DMS_MIN_DELETEDRECORD_SZ = 36 := rfl
  have hr : DMS_RECORD_MAX_SZ = 16777216 := rfl
  by_cases hle : total - DMS_EXTENT_METADATA_SZ ≤ DMS_RECORD_MAX_SZ
  · -- the extent is one piece
    refine ⟨total - DMS_EXTENT_METADATA_SZ, by omega, hle, hgrown ?_⟩
    rw [Nat.min_eq_left hle, mapLoop_done _ (by omega), mapRest_eq le_rfl (by omega)]
    exact grown_saveDeletedRecord _ _ (by omega) _
  · -- behind a piece of the maximal size there is one that is too small
    refine ⟨DMS_RECORD_MAX_SZ, hm, le_rfl, hgrown ?_⟩
    obtain ⟨fuel, hfuel⟩ : ∃ fuel, total - DMS_EXTENT_METADATA_SZ = fuel + 1 := ⟨total - 37, by omega⟩
    rw [Nat.min_eq_right (by omega), hfuel, mapLoop, if_pos (by omega), mapLoop_done _ (by omega),
      mapRest_eq (by omega) (by omega)]
    have hslot := deleteRecordSlot_mono (show fuel + 1 - DMS_RECORD_MAX_SZ ≤ 2 ^ 17 by omega) (by decide)
    have hsmall : deleteRecordSlot (2 ^ 17) = 12 := by decide
    have hreq : deleteRecordSlot (2 ^ 17 + 1) = 13 := by decide
    have hmono := deleteRecordSlot_mono (show 2 ^ 17 + 1 ≤ req from hlarge (by omega)) hm
    refine (grown_saveDeletedRecord _ _ ?_ _).saveDeletedRecord ?_ ?_ ?_ ?_ (deleteRecordSlot_mono hm le_rfl)
    · omega
    · intro heq
      injections
      omega
    · rfl
    · omega
    · omega

/-! ### What the search finds -/

/-- The search finds a record in the list, with `i` records that were too small before it. -/
def finds (st : Store O) (locked : RID → Bool) (req : Nat) : Nat → List RID → Bool
  | _, [] => false
  | i, p :: ps =>
    decide (i < S_MAX_SEARCH) &&
      if (st.records p).isDeleted && req ≤ (st.records p).size then !locked p || finds st locked req i ps
      else finds st locked req (i + 1) ps

theorem finds_congr {l : List RID} (h : ∀ p ∈ l, st'.records p = st.records p) (i : Nat) :
    finds st' locked req i l = finds st locked req i l := by
  induction l generalizing i with
  | nil => rfl
  | cons p l ih =>
    have ih := ih fun q hq => h q (mem_cons_of_mem _ hq)
    simp only [finds, h p mem_cons_self, ih]

theorem searchList_isSome {l : List RID} {head pre : Option RID} {fuel i : Nat}
    (hl : LinkedFrom (fun p => (st.records p).nextRID) head l) (hf : l.length < fuel) :
    (searchList st locked req fuel i pre head).isSome = finds st locked req i l := by
  induction l generalizing head pre fuel i with
  | nil =>
    obtain rfl : head = none := hl
    cases fuel <;> rfl
  | cons p l ih =>
    obtain ⟨rfl, hl⟩ := hl
    obtain ⟨fuel, rfl⟩ : ∃ k, fuel = k + 1 := ⟨fuel - 1, by simp at hf; omega⟩
    have ih : ∀ i, (searchList st locked req fuel i (some p) (st.records p).nextRID).isSome = finds st locked req i l :=
      fun i => ih hl (Nat.lt_of_succ_lt_succ hf)
    unfold searchList finds
    by_cases hi : i < S_MAX_SEARCH
    · simp only [hi, if_true, decide_true, Bool.true_and]
      split
      · cases hlock : locked p <;> simp [ih]
      · exact ih _
    · simp [hi]

theorem length_filter_le_sum {α : Type*} {f : α → Int} {b : α → Bool} {l : List α} (h0 : ∀ a ∈ l, 0 ≤ f a)
    (h1 : ∀ a ∈ l, b a = true → 1 ≤ f a) : ((l.filter b).length : Int) ≤ (l.map f).sum := by
  induction l with
  | nil => simp
  | cons a l ih =>
    have ih := ih (fun c hc => h0 c (mem_cons_of_mem _ hc)) fun c hc => h1 c (mem_cons_of_mem _ hc)
    have ha := h0 a mem_cons_self
    have ha' := h1 a mem_cons_self
    simp only [filter_cons, map_cons, sum_cons]
    split_ifs with hb
    · have := ha' hb
      simp only [length_cons]
      omega
    · omega

/-- Every record of a list takes some of the free space, so the fuel of the search lasts. -/
theorem Holding.length_lists (h : Holding cfg st g hs) (j : Nat) :
    (g.lists j).length < st.totalDataFreeSpace.toNat + 1 := by
  have htotal : st.totalDataFreeSpace =
      ((st.extentIDs.flatMap fun e => (g.tiles e).map (RID.mk e)).map (freeSize st g)).sum := by
    rw [h.space.total, map_congr_left h.space.freeSpace, map_flatMap, flatMap_def, sum_flatten, map_map]
    exact congrArg sum (map_congr_left fun e _ => by simp [freeSum, Function.comp_def])
  have hsub : g.lists j ⊆ (st.extentIDs.flatMap fun e => (g.tiles e).map (RID.mk e)).filter (g.use · = .free) := by
    intro p hp
    obtain ⟨htile, hfree, -⟩ := (h.lists.mem j p).1 hp
    simp only [mem_filter, mem_flatMap, mem_map, decide_eq_true_eq]
    exact ⟨⟨p.extent, htile.1, p.offset, htile.2, rfl⟩, hfree⟩
  have hlen := ((h.lists.nodup j).subperm hsub).length_le
  have hsum := length_filter_le_sum (b := (g.use · = .free)) (f := freeSize st g)
    (l := st.extentIDs.flatMap fun e => (g.tiles e).map (RID.mk e)) (fun p _ => by unfold freeSize; split_ifs <;> simp)
    (by
      intro p hp hfree
      obtain ⟨e, he, hp⟩ := mem_flatMap.1 hp
      obtain ⟨o, ho, rfl⟩ := mem_map.1 hp
      have hpos := ((h.tiles.tiles e he).bounds ho).2.1
      rw [freeSize, if_pos (of_decide_eq_true hfree)]
      exact_mod_cast hpos)
  rw [← htotal] at hsum
  omega

theorem Holding.searchSlots_eq_none_iff (h : Holding cfg st g hs) {js : List Nat} :
    searchSlots st locked req js = none ↔ ∀ j ∈ js, finds st locked req 0 (g.lists j) = false := by
  induction js with
  | nil => simp [searchSlots]
  | cons j js ih =>
    have hj : (searchList st locked req (st.totalDataFreeSpace.toNat + 1) 0 none (st.deleteList j)).isSome =
        finds st locked req 0 (g.lists j) := searchList_isSome (h.lists.linked j) (h.length_lists j)
    rw [forall_mem_cons, ← hj, ← ih, searchSlots]
    cases searchList st locked req (st.totalDataFreeSpace.toNat + 1) 0 none (st.deleteList j) <;> simp

/-- The retried search finds the first record of the new extent, or nothing. -/
theorem Grown.searchSlots (h : Holding cfg st g hs) {g' : Shape} (h' : Holding cfg st' g' hs) {js : List Nat} {slot : Nat}
    (hg : Grown st p size slot st') (hp : p.extent ∉ st.extentIDs) (hle : req ≤ size) (hjs : ∀ j ∈ js, slot ≤ j)
    (hmem : deleteRecordSlot size ∈ js) (hnone : Data.searchSlots st locked req js = none) :
    Data.searchSlots st' locked req js = none ↔ locked p = true := by
  have hold : ∀ j, ∀ q ∈ g.lists j, st'.records q = st.records q := fun j q hq =>
    hg.records q fun heq => hp (heq ▸ ((h.lists.mem j q).1 hq).1.1)
  have hlist : ∀ j, slot ≤ j → g'.lists j = if j = deleteRecordSlot size then p :: g.lists j else g.lists j := by
    intro j hj
    have hl : LinkedFrom (fun q => (st'.records q).nextRID) (st'.deleteList j)
        (if j = deleteRecordSlot size then p :: g.lists j else g.lists j) := by
      split_ifs with heq
      · subst heq
        rw [hg.head]
        exact (h.lists.linked _).push hg.next fun q hq => by rw [hold _ q hq]
      · rw [hg.deleteList j hj heq]
        exact (h.lists.linked j).congr fun q hq => by rw [hold j q hq]
    exact (h'.lists.linked j).unique hl
  rw [h.searchSlots_eq_none_iff] at hnone
  rw [h'.searchSlots_eq_none_iff]
  have hsame : ∀ j ∈ js, finds st' locked req 0 (g'.lists j) = (decide (j = deleteRecordSlot size) && !locked p) := by
    intro j hj
    have hno : finds st' locked req 0 (g.lists j) = false := (finds_congr (hold j) 0).trans (hnone j hj)
    rw [hlist j (hjs j hj)]
    split_ifs with heq
    · subst heq
      simp [finds, S_MAX_SEARCH, hg.isDeleted, hg.size_eq, hle, hno]
    · simp [hno, heq]
  constructor
  · intro hall
    have h0 := hsame _ hmem
    rw [hall _ hmem] at h0
    simpa using h0.symm
  · intro hlock j hj
    rw [hsame j hj, hlock]
    simp

theorem reserve_of_search (cfg : Config O) (hm : req ≤ DMS_RECORD_MAX_SZ)
    (hf : searchSlots st locked req ((range DELETE_LIST_MAX).drop (deleteRecordSlot req)) ≠
      none) :
    ∃ st' rid, st'.extentIDs = st.extentIDs ∧
      ∀ allocs, reserveFromDeleteList cfg locked req {} allocs st = (.ok, st', some rid) := by
  obtain ⟨⟨j, pre, rid⟩, hs⟩ := Option.ne_none_iff_exists'.1 hf
  refine ⟨(st.unlinkDeleted j pre rid).takeSpace rid, rid, unlinkDeleted_extentIDs, fun allocs => ?_⟩
  rw [reserveFromDeleteList.eq_def]
  simp only [if_neg (Nat.not_le.2 (deleteRecordSlot_lt hm)), hs]
  rfl

/-- How often the reservation calls `_allocateExtent`; the call that finds no extent counts. -/
def allocateCalls (cfg : Config O) (locked : RID → Bool) (requiredSize : Nat) : List Nat → Store O → Nat
  | allocs, st =>
    match searchSlots st locked requiredSize ((range DELETE_LIST_MAX).drop (deleteRecordSlot requiredSize)) with
    | some _ => 0
    | none =>
      match allocs with
      | [] => 1
      | id :: allocs =>
        1 + allocateCalls cfg locked requiredSize allocs (st.allocateExtent cfg id (reqPages cfg requiredSize))

theorem allocateCalls_of_found (cfg : Config O) (allocs : List Nat)
    (hf : searchSlots st locked req ((range DELETE_LIST_MAX).drop (deleteRecordSlot req)) ≠ none) :
    allocateCalls cfg locked req allocs st = 0 := by
  obtain ⟨r, hs⟩ := Option.ne_none_iff_exists'.1 hf
  rw [allocateCalls.eq_def]
  simp only [hs]

theorem allocateCalls_pos (cfg : Config O) (allocs : List Nat)
    (hf : searchSlots st locked req ((range DELETE_LIST_MAX).drop (deleteRecordSlot req)) = none) :
    0 < allocateCalls cfg locked req allocs st := by
  rw [allocateCalls.eq_def]
  simp only [hf]
  cases allocs <;> simp

/-- The call goes on with the new extent. -/
theorem reserve_cons (cfg : Config O) (hm : req ≤ DMS_RECORD_MAX_SZ)
    (hnone : searchSlots st locked req ((range DELETE_LIST_MAX).drop (deleteRecordSlot req)) = none) (id : Nat)
    (allocs : List Nat) :
    allocateCalls cfg locked req (id :: allocs) st =
        1 + allocateCalls cfg locked req allocs (st.allocateExtent cfg id (reqPages cfg req)) ∧
      reserveFromDeleteList cfg locked req {} (id :: allocs) st =
        reserveFromDeleteList cfg locked req {} allocs (st.allocateExtent cfg id (reqPages cfg req)) := by
  constructor
  · rw [allocateCalls.eq_def]
    simp only [hnone]
  · rw [reserveFromDeleteList.eq_def]
    simp only [if_neg (Nat.not_le.2 (deleteRecordSlot_lt hm)), hnone]

theorem mem_slots (hle : req ≤ size) (hsize : size ≤ DMS_RECORD_MAX_SZ) :
    deleteRecordSlot size ∈ (range DELETE_LIST_MAX).drop (deleteRecordSlot req) := by
  have hmono := deleteRecordSlot_mono hle hsize
  have hlt := deleteRecordSlot_lt hsize
  rw [mem_drop_iff_getElem]
  exact ⟨deleteRecordSlot size - deleteRecordSlot req, by simp; omega, by simp; omega⟩

/-- A record that the reservation returns is held, and the records of the lists are free. -/
theorem Holding.reserved (h : Holding cfg st g hs) {id : Nat} (hid : id ∉ st.extentIDs) {rid : RID}
    (hr : reserveFromDeleteList cfg locked req {} [id] st = (.ok, st', some rid)) :
    req ≤ (st'.records rid).size ∧ ∃ lists : Nat → List RID, ∀ j,
      LinkedFrom (fun p => (st'.records p).nextRID) (st'.deleteList j) (lists j) ∧ rid ∉ lists j := by
  have hres : Reserved cfg req hs st g (.ok, st', some rid) := h.reserve rfl (nodup_singleton id) (by simpa using hid) hr
  cases hres with
  | some h' _ hsize _ =>
    refine ⟨hsize, _, fun j => ⟨h'.lists.linked j, fun hmem => ?_⟩⟩
    have hfree := ((h'.lists.mem j rid).1 hmem).2.1
    rw [h'.use (mem_cons_self ..)] at hfree
    cases hfree

/-- One call of `_allocateExtent` is enough, and what it gives is found, exactly if the lock test accepts the first record
of the new extent whenever one is needed. -/
theorem reserveFromDeleteList_one_extent_iff {hs : List RID} (h : Holding cfg st g hs) (hpos : 0 < requiredSize)
    (hmax : requiredSize ≤ DMS_RECORD_MAX_SZ) (allocs : List Nat) (hnew : ∀ id ∈ allocs, id ∉ st.extentIDs)
    (locked : RID → Bool) :
    (allocateCalls cfg locked requiredSize allocs st ≤ 1 ∧
      (allocs ≠ [] → ∃ st' rid, reserveFromDeleteList cfg locked requiredSize {} allocs st = (.ok, st', some rid) ∧
        st'.extentIDs = st.extentIDs ++ allocs.take (allocateCalls cfg locked requiredSize allocs st) ∧
        requiredSize ≤ (st'.records rid).size ∧ ∃ lists : Nat → List RID, ∀ j,
          LinkedFrom (fun p => (st'.records p).nextRID) (st'.deleteList j) (lists j) ∧ rid ∉ lists j)) ↔
    (searchSlots st locked requiredSize ((range DELETE_LIST_MAX).drop (deleteRecordSlot requiredSize)) = none →
      ∀ id ∈ allocs.head?, locked ⟨id, DMS_EXTENT_METADATA_SZ⟩ = false) := by
  cases allocs with
  | nil =>
    refine ⟨by simp, fun _ => ⟨?_, fun hne => absurd rfl hne⟩⟩
    rw [allocateCalls.eq_def]
    dsimp only
    split <;> simp
  | cons id allocs =>
    have hid := hnew id mem_cons_self
    by_cases hnone : searchSlots st locked requiredSize
      ((range DELETE_LIST_MAX).drop (deleteRecordSlot requiredSize)) = none
    · obtain ⟨size, hle, hsize, hgrown⟩ := allocateExtent_grown cfg st id hpos hmax
      obtain ⟨g', h', -, hids⟩ := h.allocateExtent hid (reqPages_pos requiredSize)
      have hretry := hgrown.searchSlots h h' hid hle
        (fun j hj => by obtain ⟨i, hi, rfl⟩ := mem_drop_iff_getElem.1 hj; simp) (mem_slots hle hsize) hnone
      obtain ⟨hcalls, hreserve⟩ := reserve_cons cfg hmax hnone id allocs
      cases hlock : locked ⟨id, DMS_EXTENT_METADATA_SZ⟩ with
      | false =>
        have hfound := mt hretry.1 (by simp [hlock])
        obtain ⟨st', rid, hids', heq⟩ := reserve_of_search cfg hmax hfound
        refine ⟨fun _ _ => by simpa using hlock, fun _ => ⟨?_, fun _ => ⟨st', rid, ?_, ?_, ?_⟩⟩⟩
        · rw [hcalls, allocateCalls_of_found cfg allocs hfound]
        · exact hreserve.trans (heq allocs)
        · rw [hcalls, allocateCalls_of_found cfg allocs hfound, hids', hids]
          rfl
        · exact h.reserved hid ((reserve_cons cfg hmax hnone id []).2.trans (heq []))
      | true =>
        have hmore := allocateCalls_pos cfg allocs (hretry.2 hlock)
        refine ⟨fun hone => absurd hone.1 (by omega), fun hall => ?_⟩
        simpa [hlock] using hall hnone
    · obtain ⟨st', rid, hids, heq⟩ := reserve_of_search cfg hmax hnone
      have hcalls := allocateCalls_of_found cfg (id :: allocs) hnone
      refine ⟨fun _ hnone' => absurd hnone' hnone, fun _ => ⟨by omega, fun _ => ⟨st', rid, heq _, ?_, ?_⟩⟩⟩
      · rw [hcalls, hids, take_zero, append_nil]
      · exact h.reserved hid (heq [id])

theorem reserveFromDeleteList_one_extent_new :
    ∃ st' rid, reserveFromDeleteList sizeConfig (fun _ => false) 100 {} [7, 8] zeroState.store = (.ok, st', some rid) := by
  obtain ⟨g, h⟩ := holding_new sizeConfig zeroState.store.extents zeroState.store.records
  obtain ⟨st', rid, hres, -⟩ := ((reserveFromDeleteList_one_extent_iff h (by decide : 0 < 100) (by decide) [7, 8]
    (by decide) fun _ => false).2 fun _ _ _ => rfl).2 (by simp)
  exact ⟨st', rid, hres⟩

/-- Another session has a lock on the collection, so that the test rejects every record: the reservation takes every
extent that there is. -/
theorem reserveFromDeleteList_two_extents :
    (reserveFromDeleteList sizeConfig (fun _ => true) 100 {} [7, 8] zeroState.store).1 = .dmsNoSpc ∧
      (reserveFromDeleteList sizeConfig (fun _ => true) 100 {} [7, 8] zeroState.store).2.1.extentIDs = [7, 8] := by
  decide +kernel

end SequoiaDB.Dms.Data

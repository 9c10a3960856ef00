import SequoiaDB.Dms.CappedLimits
import SequoiaDB.Dms.CappedQueue

/-!
# Replicas of a capped collection

The primary logs an insert with the logical id that the record got, and a pop with its arguments.  A secondary
replays an insert at the logged position (`rtnReplayInsert`, `_allocRecordSpaceByPos`) and a pop as it is.  That the
eldest records are dropped is not logged: each side recycles extents on its own, in `_limitProcess`.

The primary calls `_limitProcess` for every insert that finds a working extent, a secondary only for one that starts
a new logical extent.  When the limit on the number of records makes the primary recycle an extent in front of the
working extent, and the record still goes into the working extent, the secondary keeps the extent.
-/

namespace SequoiaDB.Dms.Capped

open SequoiaDB.Lib List Options Collection

/-! ### Replaying an insert -/

def Collection.updateExtentLID (cl : Collection) (extID : Nat) (extLogicID : Int) : Rc × Collection :=
  if (cl.extents extID).inUse then (.ok, cl.setExtent extID { cl.extents extID with logicID := extLogicID })
  else (.sys, cl)

def Collection.firstExtentByPos (cl : Collection) (extLogicalID offset : Int) (found : Option Nat) : Rc × Collection :=
  match found with
  | none => (.dmsNoSpc, cl)
  | some extID =>
    andThen (cl.allocateExtent (some extID)) fun cl =>
    andThen (cl.updateExtentLID extID extLogicalID) fun cl =>
      let cl := { cl with stat := { cl.stat with
        totalDataFreeSpace := cl.stat.totalDataFreeSpace - (offset - DMS_EXTENT_METADATA_SZ) } }
      andThen cl.attachNextExt fun cl => (.ok, { cl with work := cl.work.seek offset.toNat })

def Collection.allocRecordSpaceByPos (cl : Collection) (size : Nat) (position : Int) (found : Option Nat) :
    Rc × Collection :=
  let (extLogicalID, offset) := recLid2ExtLidAndOffset position
  if cl.work.id = none then cl.firstExtentByPos extLogicalID offset found
  else if extLogicalID = cl.work.extLogicID then
    if offset ≠ cl.work.getNextRecOffset then (.invalidArg, cl) else (.ok, cl)
  else if extLogicalID = cl.work.extLogicID + 1 then
    if position ≠ extLidAndOffset2RecLid extLogicalID DMS_EXTENT_METADATA_SZ then (.invalidArg, cl)
    else cl.makeRoom size found
  else (.invalidArg, cl)

def Collection.writeRecord (cl : Collection) (body : List UInt8) (size : Nat) : Rc × Collection :=
  match cl.work.id with
  | none => (.sys, cl)
  | some id => if (cl.extents id).inUse then (.ok, cl.extentInsertRecord id body size) else (.sys, cl)

def Collection.insertRecordByPos (cl : Collection) (body : List UInt8) (position : Int) (found : Option Nat) :
    Rc × Collection :=
  if recordDataLen body + DMS_RECORD_METADATA_SZ > DMS_RECORD_USER_MAX_SZ then (.dmsRecordTooBig, cl)
  else
    let size := finalRecordSize (recordDataLen body)
    andThen (cl.allocRecordSpaceByPos size position found) fun cl => cl.writeRecord body size

/-- `rtnReplayInsert` of a record with the elements `body` behind the logical id `position`. -/
def Collection.replayInsert (cl : Collection) (position : Int) (body : List UInt8) (found : Option Nat) :
    Rc × Collection :=
  if position ≥ 0 then cl.insertRecordByPos body position found else cl.insertRecord body found

/-! ### The log -/

/-- What the log tells about an operation on a capped collection. -/
inductive LogRecord where
  | insert (position : Int) (body : List UInt8)
  | pop (logicalID direction : Int)

def Collection.logOf (cl : Collection) : Op → Option LogRecord
  | .insert body found =>
    if (cl.insertRecord body found).1 = .ok then
      let cl := (cl.allocRecordSpace (finalRecordSize (recordDataLen body)) found).2
      some (.insert cl.work.getRecordLogicID body)
    else none
  | .pop logicalID direction =>
    if (cl.popRecord logicalID direction).1 = .ok ∧ cl.stat.totalRecords ≠ 0 then some (.pop logicalID direction)
    else none

def Collection.replay (cl : Collection) (found : Option Nat) : LogRecord → Rc × Collection
  | .insert position body => cl.replayInsert position body found
  | .pop logicalID direction =>
    let r := cl.popRecord logicalID direction
    if r.1 = .invalidArg then (.ok, r.2) else r

/-- A primary and a secondary that has replayed the whole log. -/
structure Replicas where
  primary : Collection
  secondary : Collection

/-- An operation on the primary and its replay; `found` is the extent that the space manager of the secondary would
find. -/
structure ReplicaOp where
  op : Op
  found : Option Nat

def Replicas.step (s : Replicas) (a : ReplicaOp) : Replicas where
  primary := (s.primary.step a.op).2
  secondary :=
    match s.primary.logOf a.op with
    | none => s.secondary
    | some r => (s.secondary.replay a.found r).2

def Collection.records (cl : Collection) : List (Int × List UInt8) :=
  cl.storedRecords.map fun r => (r.logicalID, r.body)

/-! ### When the sides recycle alike -/

/-- The insert makes the primary recycle an extent in front of the working extent although the record goes into the
working extent as it is, or nowhere. -/
def Collection.RecyclesAlone (cl : Collection) (size : Nat) (found : Option Nat) : Prop :=
  cl.options.overwrite = true ∧ cl.firstExtentID ≠ cl.work.id ∧
    ((size ≤ cl.work.freeSpace ∧ cl.numExceedLimit = true) ∨
      (cl.work.freeSpace < size ∧ found = none ∧ (cl.numExceedLimit = true ∨ cl.sizeExceedLimit = true)))

instance (cl : Collection) (size : Nat) (found : Option Nat) : Decidable (cl.RecyclesAlone size found) :=
  inferInstanceAs (Decidable (_ ∧ _))

/-- The operations that keep the sides together: inserts that do not make the primary recycle alone, with extents that
are not in use already and are found on the secondary if they are on the primary, and pops of anything but a
phantom. -/
def Replicas.InStep (s : Replicas) (a : ReplicaOp) : Prop :=
  match a.op with
  | .insert body found =>
    ¬ s.primary.RecyclesAlone (recSize body) found ∧ s.primary.LidsLeft ∧ (found ≠ none → a.found ≠ none) ∧
      (∀ id ∈ found, id ∉ s.primary.extentIDs) ∧ ∀ id ∈ a.found, id ∉ s.secondary.extentIDs
  | .pop logicalID _ => ¬ s.primary.Phantom logicalID

instance (s : Replicas) (a : ReplicaOp) : Decidable (s.InStep a) :=
  match a with
  | ⟨.insert _ found', found⟩ =>
    inferInstanceAs (Decidable (¬ _ ∧ (∀ id ∈ s.primary.lastExtentID, _) ∧ _ ∧ (∀ id ∈ found', _) ∧ ∀ id ∈ found, _))
  | ⟨.pop .., _⟩ => inferInstanceAs (Decidable (¬ _))

/-! ### Contents without the numbers of the extents -/

def Content.erase (c : Content) : Content := { c with id := 0 }

def Alike (cs ds : List Content) : Prop := cs.map Content.erase = ds.map Content.erase

section Erase

variable {cs ds : List Content} {o : Options} {size : Nat} {found : Option Nat}

@[simp] theorem stored_erase (cs : List Content) :
    (cs.map Content.erase).flatMap Content.stored = cs.flatMap Content.stored := by
  rw [flatMap_map]
  rfl

@[simp] theorem room_erase (cs : List Content) : room (cs.map Content.erase) = room cs := by
  unfold room
  rw [getLast?_map, Option.map_map]
  rfl

@[simp] theorem nextLid_erase (cs : List Content) : nextLid (cs.map Content.erase) = nextLid cs := by
  unfold nextLid
  rw [getLast?_map, Option.map_map]
  rfl

@[simp] theorem numExceeded_erase (o : Options) (cs : List Content) :
    o.numExceeded (cs.map Content.erase) = o.numExceeded cs := by
  unfold numExceeded recordNum
  rw [map_map]
  rfl

@[simp] theorem sizeExceeded_erase (o : Options) (cs : List Content) :
    o.sizeExceeded (cs.map Content.erase) = o.sizeExceeded cs := by
  unfold sizeExceeded
  rw [length_map]

theorem recycleOne_erase (cs : List Content) : recycleOne (cs.map Content.erase) = (recycleOne cs).map Content.erase := by
  rcases cs with _ | ⟨c, _ | ⟨d, cs⟩⟩ <;> rfl

theorem checked_erase (o : Options) (exceeded : Bool) (cs : List Content) :
    o.checked exceeded (cs.map Content.erase) = (o.checked exceeded cs).map (List.map Content.erase) := by
  unfold checked
  rw [recycleOne_erase]
  split_ifs <;> rfl

theorem limited_erase (o : Options) (size : Nat) (cs : List Content) :
    o.limited size (cs.map Content.erase) = (o.limited size cs).map (List.map Content.erase) := by
  unfold limited
  rw [numExceeded_erase, checked_erase]
  cases o.checked (o.numExceeded cs) cs with
  | none => rfl
  | some ds =>
    simp only [Option.map_some, Option.bind_some, room_erase, sizeExceeded_erase, checked_erase]
    split_ifs <;> rfl

theorem roomed_erase (o : Options) (size : Nat) (found : Option Nat) (cs : List Content) :
    o.roomed size (found.map fun _ => 0) (cs.map Content.erase) = (o.roomed size found cs).map (List.map Content.erase) := by
  unfold roomed
  rw [limited_erase]
  cases o.limited size cs with
  | none => rfl
  | some ds =>
    simp only [Option.map_some, Option.bind_some, room_erase, nextLid_erase]
    split_ifs
    · cases found with
      | none => rfl
      | some id => simp [Content.fresh, Content.erase]
    · rfl

theorem roomed_of_none (h : o.roomed size none cs = some ds) (found : Option Nat) : o.roomed size found cs = some ds := by
  unfold roomed at h ⊢
  obtain ⟨cs1, hl, h⟩ := Option.bind_eq_some_iff.1 h
  rw [hl, Option.bind_some]
  split_ifs at h ⊢ with hroom
  · cases h
  · exact h

/-- The contents that a record is appended to; the first extent is not checked against the limits. -/
def Options.placed (o : Options) (size : Nat) (found : Option Nat) (cs : List Content) : Option (List Content) :=
  if cs = [] then found.map fun id => [.fresh id 0] else o.roomed size found cs

theorem Alike.symm (h : Alike cs ds) : Alike ds cs := Eq.symm h

theorem Alike.eq_nil_iff (h : Alike cs ds) : cs = [] ↔ ds = [] := by
  unfold Alike at h
  rw [← map_eq_nil_iff (f := Content.erase), h, map_eq_nil_iff]

theorem Alike.of_map {f : List Content → α} (h : Alike cs ds) (hf : ∀ cs, f (cs.map Content.erase) = f cs) :
    f cs = f ds := by
  unfold Alike at h
  rw [← hf cs, h, hf]

theorem Alike.split {pre suf : List Content} {c : Content} (h : Alike (pre ++ c :: suf) ds) :
    ∃ pre' c' suf', ds = pre' ++ c' :: suf' ∧ Alike pre pre' ∧ c.erase = c'.erase ∧ Alike suf suf' := by
  unfold Alike at h
  rw [map_append, map_cons, eq_comm, map_eq_append_iff] at h
  obtain ⟨pre', rest, rfl, hp, hr⟩ := h
  obtain ⟨c', suf', rfl, hc, hs⟩ := map_eq_cons_iff.1 hr
  exact ⟨pre', c', suf', rfl, hp.symm, hc.symm, hs.symm⟩

theorem Alike.append {pre pre' suf suf' : List Content} (h : Alike pre pre') (h' : Alike suf suf') :
    Alike (pre ++ suf) (pre' ++ suf') := by
  unfold Alike at *
  rw [map_append, map_append, h, h']

theorem Alike.cons {c c' : Content} (h : c.erase = c'.erase) (h' : Alike cs ds) : Alike (c :: cs) (c' :: ds) := by
  unfold Alike at *
  rw [map_cons, map_cons, h, h']

theorem Alike.nil : Alike [] [] := rfl

theorem Alike.placed {found' : Option Nat} {es : List Content} (h : Alike cs ds) (hf : found ≠ none → found' ≠ none)
    (hes : o.placed size found cs = some es) : ∃ fs, o.placed size found' ds = some fs ∧ Alike es fs := by
  unfold Options.placed at *
  by_cases hn : cs = []
  · rw [if_pos hn] at hes
    rw [if_pos (h.eq_nil_iff.1 hn)]
    obtain ⟨id, rfl, rfl⟩ := Option.map_eq_some_iff.1 hes
    obtain ⟨id', rfl⟩ := Option.ne_none_iff_exists'.1 (hf nofun)
    exact ⟨_, rfl, rfl⟩
  · rw [if_neg hn] at hes
    rw [if_neg fun hds => hn (h.eq_nil_iff.2 hds)]
    have ha : o.roomed size (found'.map fun _ => 0) (cs.map Content.erase) = some (es.map Content.erase) := by
      cases found with
      | none =>
        have hm := roomed_erase o size none cs
        rw [hes] at hm
        exact roomed_of_none hm _
      | some id =>
        obtain ⟨id', rfl⟩ := Option.ne_none_iff_exists'.1 (hf nofun)
        have hm := roomed_erase o size (some id) cs
        rw [hes] at hm
        exact hm
    rw [show cs.map Content.erase = ds.map Content.erase from h, roomed_erase] at ha
    obtain ⟨fs, hfs, heq⟩ := Option.map_eq_some_iff.1 ha
    exact ⟨fs, hfs, heq.symm⟩

end Erase

/-! ### One side -/

section Side

variable {cl : Collection} {cs ds pre : List Content} {l : Content} {size : Nat} {found : Option Nat}

theorem CappedInv.work_id_eq_none (h : CappedInv cl cs) : cl.work.id = none ↔ cs = [] := by
  refine ⟨fun hn => ?_, h.empty⟩
  by_contra hne
  obtain ⟨ini, l, rfl⟩ := (eq_nil_or_concat' cs).resolve_left hne
  rw [(h.work l (by simp)).id] at hn
  cases hn

theorem Holding.not_recyclesAlone {cl : Collection} (h : Holding cl cs) (hl : cs.length ≤ 1) (size : Nat)
    (found : Option Nat) : ¬ cl.RecyclesAlone size found := by
  rintro ⟨-, hf, -⟩
  refine hf ?_
  rcases cs with _ | ⟨c, _ | ⟨d, cs⟩⟩
  · rw [h.first, h.empty rfl]
    rfl
  · rw [h.first, (h.work c (by simp)).id]
    rfl
  · simp at hl

theorem Holding.recyclesAlone_iff (h : Holding cl (pre ++ [l])) :
    cl.RecyclesAlone size found ↔ cl.options.RecyclesAlone size found (pre ++ [l]) := by
  have hf : cl.firstExtentID ≠ cl.work.id ↔ 2 ≤ (pre ++ [l]).length := by
    rw [(h.work l (by simp)).id, h.first]
    cases pre with
    | nil => simp
    | cons x pre =>
      have hnd := h.nodup
      simp only [cons_append, map_cons, map_append, map_nil, nodup_cons, mem_append, mem_singleton, not_or] at hnd
      simp [hnd.1.2]
  unfold Collection.RecyclesAlone Options.RecyclesAlone
  rw [hf, h.room_eq (by simp), numExceedLimit_eq h.toCappedCore, sizeExceedLimit_eq h.counted]

theorem allocRecordSpace_holding (h : Holding cl cs) (hlid : nextLid cs < 2 ^ 31)
    (hs : size ≤ DMS_CAP_EXTENT_BODY_SZ) (hf : ∀ id ∈ found, id ∉ cs.map Content.id) :
    (∀ es, cl.options.placed size found cs = some es →
      ∃ cl', cl.allocRecordSpace size found = (.ok, cl') ∧ Holding cl' es ∧ cl'.options = cl.options) ∧
    (cl.options.placed size found cs = none → ¬ cl.RecyclesAlone size found →
      ∃ rc cl', rc ≠ .ok ∧ cl.allocRecordSpace size found = (rc, cl') ∧ Holding cl' cs ∧
        cl'.options = cl.options) := by
  unfold Collection.allocRecordSpace Options.placed
  by_cases hnil : cs = []
  · rw [if_pos (h.work_id_eq_none.2 hnil), if_pos hnil]
    subst hnil
    cases found with
    | none => exact ⟨nofun, fun _ _ => ⟨.dmsNoSpc, cl, nofun, rfl, h, rfl⟩⟩
    | some id =>
      refine ⟨fun es hes => ?_, nofun⟩
      rw [← Option.some.inj hes]
      obtain ⟨cl', hcl', hi, ho, hc⟩ :=
        appendExtent_spec h.toCappedInv (hf id rfl) hlid (.inl (h.empty rfl))
      exact ⟨cl', hcl', ⟨hi, hc h.counted⟩, ho⟩
  · rw [if_neg (h.work_id_eq_none.not.2 hnil), if_neg hnil]
    obtain ⟨hd, hfailed⟩ := makeRoom_holding h hnil hlid hs hf
    refine ⟨hd, fun hn ha => ?_⟩
    obtain ⟨rc, cl', hrc, hcl', hh, ho⟩ := hfailed hn
    refine ⟨rc, cl', hrc, hcl', ?_, ho⟩
    obtain ⟨ini, l, rfl⟩ := (eq_nil_or_concat' cs).resolve_left hnil
    cases hl : cl.options.limited size (ini ++ [l]) with
    | none => rwa [hl] at hh
    | some es =>
      rw [hl] at hh
      rwa [limited_of_roomed_none hs (h.recyclesAlone_iff.not.1 ha) hn hl] at hh

theorem firstExtentByPos_holding (h : Holding cl []) (id : Nat) :
    ∃ cl', cl.firstExtentByPos 0 DMS_EXTENT_METADATA_SZ (some id) = (.ok, cl') ∧ Holding cl' [.fresh id 0] ∧
      cl'.options = cl.options := by
  obtain ⟨cl1, hcl1, hr, hl, -⟩ := allocateExtent_spec h.toCappedList (not_mem_nil (a := id)) (by decide)
  obtain ⟨cl', hcl', hi, ho, hc⟩ :=
    appendExtent_spec h.toCappedInv (not_mem_nil (a := id)) (by decide)
      (show cl.work.id = none ∨ cl.work.freeSpace < 0 from .inl (h.empty rfl))
  have hat := hl.contents (.fresh id (nextLid [])) (by simp)
  have hw := hi.work (.fresh id (nextLid [])) (by simp)
  have hu : cl1.updateExtentLID id 0 = (.ok, cl1) := by
    unfold updateExtentLID
    have hin : (cl1.extents id).inUse := hat.inUse
    rw [if_pos hin]
    have hlid : (cl1.extents id).logicID = 0 := hat.logicID
    have hs : { cl1.extents id with logicID := 0 } = cl1.extents id := by rw [← hlid]
    rw [hs, Collection.setExtent, Function.update_eq_self]
  have ha : cl1.attachNextExt = (.ok, cl') := by
    rw [← hcl']
    unfold appendExtent
    rw [hcl1, andThen_ok, if_pos (.inl (by rw [hr.work]; exact h.empty rfl))]
  have hseek : cl'.work.seek DMS_EXTENT_METADATA_SZ = cl'.work := by
    have hpos : cl'.work.writePos + DMS_EXTENT_METADATA_SZ = DMS_EXTENT_METADATA_SZ := hw.writePos
    have hf : cl'.work.freeSpace = DMS_CAP_EXTENT_SZ - DMS_EXTENT_METADATA_SZ := hw.freeSpace
    have hz : cl'.work.writePos = 0 := by omega
    unfold ExtentInfo.seek
    rw [← hf, Nat.sub_self, ← hz]
  refine ⟨cl', ?_, ⟨hi, hc h.counted⟩, ho⟩
  unfold firstExtentByPos
  simp only [hcl1, andThen_ok, hu, sub_self, sub_zero, ha, Int.toNat_natCast, hseek]

theorem recLid2ExtLidAndOffset_fresh (id : Nat) {lid : Int} (h : 0 ≤ lid) (h' : lid < 2 ^ 31) :
    recLid2ExtLidAndOffset (lidOf (Content.fresh id lid).lid (Content.fresh id lid).finish) =
      (lid, (DMS_EXTENT_METADATA_SZ : Int)) := by
  have hd := recLid2ExtLidAndOffset_lidOf h h' (le_refl DMS_EXTENT_METADATA_SZ) (by decide)
  exact hd

theorem allocRecordSpaceByPos_behind (h : CappedInv cl (pre ++ [l])) (hlt : l.finish < DMS_CAP_EXTENT_SZ) (size : Nat)
    (found : Option Nat) :
    cl.allocRecordSpaceByPos size (lidOf l.lid l.finish) found = (.ok, cl) := by
  have hw := h.work l (by simp)
  have hat := h.contents l (by simp)
  have hge : DMS_EXTENT_METADATA_SZ ≤ l.finish := hat.start_ge.trans (Nat.le_add_right ..)
  have ho : cl.work.getNextRecOffset = l.finish := hw.writePos
  unfold allocRecordSpaceByPos
  rw [recLid2ExtLidAndOffset_lidOf hat.lid_nonneg hat.lid_lt hge hlt]
  simp only [hw.id, reduceCtorEq, hw.extLogicID, ho, if_true, ne_eq, not_true_eq_false, if_false]

variable {found' : Option Nat}

theorem allocRecordSpaceByPos_holding (h : Holding cl cs) (hlid : nextLid cs < 2 ^ 31) (hpos : 0 < size)
    (hs : size ≤ DMS_CAP_EXTENT_BODY_SZ) (hf : ∀ id ∈ found, id ∉ cs.map Content.id)
    (ha : ¬ cl.RecyclesAlone size found') (hp : cl.options.placed size found cs = some (pre ++ [l])) :
    ∃ cl', cl.allocRecordSpaceByPos size (lidOf l.lid l.finish) found = (.ok, cl') ∧ Holding cl' (pre ++ [l]) ∧
      cl'.options = cl.options := by
  unfold Options.placed at hp
  have hwork := h.work_id_eq_none
  by_cases hn : cs = []
  · subst hn
    rw [if_pos rfl] at hp
    obtain ⟨id, rfl, heq⟩ := Option.map_eq_some_iff.1 hp
    obtain rfl : pre = [] := by
      have := congrArg List.length heq
      simp at this
      exact this
    obtain rfl : Content.fresh id 0 = l := by simpa using heq
    unfold allocRecordSpaceByPos
    rw [recLid2ExtLidAndOffset_fresh id le_rfl (by decide)]
    simp only [hwork.2 rfl, if_true]
    exact firstExtentByPos_holding h id
  · rw [if_neg hn] at hp
    have hsome : cl.work.id ≠ none := hwork.not.2 hn
    obtain ⟨ini, k, rfl⟩ := (eq_nil_or_concat' cs).resolve_left hn
    have hw := h.work k (by simp)
    have hat := h.contents k (by simp)
    have hnonneg := hat.lid_nonneg
    rcases roomed_cases hs hp with ⟨pre', heq, hr⟩ | ⟨pre', id, heq⟩
    · -- the record goes behind the last one
      obtain ⟨rfl, hl⟩ := append_inj' heq rfl
      obtain rfl : l = k := by simpa using hl
      obtain rfl := roomed_kept hs (h.recyclesAlone_iff.not.1 ha) hp hr
      rw [room_append] at hr
      exact ⟨cl, allocRecordSpaceByPos_behind h.toCappedInv (by omega) _ _, h, rfl⟩
    · -- the record is the first one of the next logical extent
      obtain ⟨rfl, hl⟩ := append_inj' heq rfl
      obtain rfl : l = .fresh id (k.lid + 1) := by simpa using hl
      have hlid' := hlid
      rw [nextLid_append] at hlid'
      have he : lidOf (Content.fresh id (k.lid + 1)).lid (Content.fresh id (k.lid + 1)).finish =
          extLidAndOffset2RecLid (k.lid + 1) DMS_EXTENT_METADATA_SZ := by
        unfold extLidAndOffset2RecLid
        rw [if_neg (by omega)]
        rfl
      unfold allocRecordSpaceByPos
      rw [recLid2ExtLidAndOffset_fresh id (by omega) hlid']
      simp only [hsome, hw.extLogicID, he, ne_eq, not_true_eq_false, if_false, if_true]
      rw [if_neg (by omega)]
      exact (makeRoom_holding h hn hlid hs hf).1 _ hp

variable {b : List UInt8}

theorem writeRecord_holding (h : Holding cl (pre ++ [l])) (hf : Fits b) (hroom : recSize b ≤ room (pre ++ [l])) :
    ∃ cl', cl.writeRecord b (recSize b) = (.ok, cl') ∧ Holding cl' (pre ++ [l.push b]) ∧ cl'.options = cl.options := by
  obtain ⟨hi, ho⟩ := extentInsertRecord_spec h.toCappedInv hf (by rwa [h.room_eq (by simp)])
  unfold writeRecord
  simp only [(h.work l (by simp)).id, (h.contents l (by simp)).inUse, if_true]
  exact ⟨_, rfl, ⟨hi, h.counted.push l.id b (recSize b)⟩, ho⟩

theorem le_room_of_placed {o : Options} (hs : size ≤ DMS_CAP_EXTENT_BODY_SZ) (h : o.placed size found cs = some ds) :
    size ≤ room ds := by
  unfold Options.placed at h
  split_ifs at h
  · obtain ⟨id, -, rfl⟩ := Option.map_eq_some_iff.1 h
    exact hs.trans_eq (room_fresh [] id 0).symm
  · exact le_room_of_roomed hs h

theorem insertRecord_fits (hf : Fits b) (found : Option Nat) :
    cl.insertRecord b found = andThen (cl.allocRecordSpace (recSize b) found) fun cl => cl.writeRecord b (recSize b) := by
  unfold Fits at hf
  exact if_neg (by omega)

theorem insertRecordByPos_fits (hf : Fits b) (position : Int) (found : Option Nat) :
    cl.insertRecordByPos b position found =
      andThen (cl.allocRecordSpaceByPos (recSize b) position found) fun cl => cl.writeRecord b (recSize b) := by
  unfold Fits at hf
  exact if_neg (by omega)

theorem recSize_le_body (hf : Fits b) : recSize b ≤ DMS_CAP_EXTENT_BODY_SZ := by
  have hbounds := recSize_bounds hf
  unfold DMS_CAP_EXTENT_BODY_SZ DMS_CAP_EXTENT_SZ DMS_EXTENT_METADATA_SZ
  omega

theorem insertRecord_holding (h : Holding cl cs) (hl : nextLid cs < 2 ^ 31) (hf : Fits b)
    (hfound : ∀ id ∈ found, id ∉ cs.map Content.id) :
    (∀ pre l, cl.options.placed (recSize b) found cs = some (pre ++ [l]) →
      ∃ cl', cl.insertRecord b found = (.ok, cl') ∧ Holding cl' (pre ++ [l.push b]) ∧ cl'.options = cl.options ∧
        cl.logOf (.insert b found) = some (.insert (lidOf l.lid l.finish) b)) ∧
    (cl.options.placed (recSize b) found cs = none → ¬ cl.RecyclesAlone (recSize b) found →
      ∃ rc cl', rc ≠ .ok ∧ cl.insertRecord b found = (rc, cl') ∧ Holding cl' cs ∧ cl'.options = cl.options) := by
  have hs := recSize_le_body hf
  obtain ⟨hd, hfailed⟩ := allocRecordSpace_holding h hl hs hfound
  refine ⟨fun pre l hp => ?_, fun hn ha => ?_⟩
  · obtain ⟨cl1, hcl1, hh1, ho1⟩ := hd _ hp
    obtain ⟨cl2, hcl2, hh2, ho2⟩ := writeRecord_holding hh1 hf (le_room_of_placed hs hp)
    have hi : cl.insertRecord b found = (.ok, cl2) := by
      rw [insertRecord_fits hf, hcl1, andThen_ok, hcl2]
    refine ⟨cl2, hi, hh2, ho2.trans ho1, ?_⟩
    have hposition := (hh1.work l (by simp)).getRecordLogicID
    unfold logOf
    simp only [hi, if_true, show finalRecordSize (recordDataLen b) = recSize b from rfl, hcl1, hposition]
  · obtain ⟨rc, cl', hrc, hcl', hh, ho⟩ := hfailed hn ha
    exact ⟨rc, cl', hrc, by rw [insertRecord_fits hf, hcl', andThen_of_ne hrc], hh, ho⟩

theorem replay_insert_holding (h : Holding cl cs) (hl : nextLid cs < 2 ^ 31) (hf : Fits b)
    (hfound : ∀ id ∈ found, id ∉ cs.map Content.id) (ha : ¬ cl.RecyclesAlone (recSize b) found')
    (hp : cl.options.placed (recSize b) found cs = some (pre ++ [l])) :
    ∃ cl', cl.replay found (.insert (lidOf l.lid l.finish) b) = (.ok, cl') ∧ Holding cl' (pre ++ [l.push b]) ∧
      cl'.options = cl.options := by
  have hs := recSize_le_body hf
  have hbounds := recSize_bounds hf
  have hr := le_room_of_placed hs hp
  obtain ⟨cl1, hcl1, hh1, ho1⟩ := allocRecordSpaceByPos_holding h hl (by omega) hs hfound ha hp
  obtain ⟨cl2, hcl2, hh2, ho2⟩ := writeRecord_holding hh1 hf hr
  have hat := hh1.contents l (by simp)
  have hlt : l.finish < DMS_CAP_EXTENT_SZ := by
    rw [room_append] at hr
    omega
  have hge : DMS_EXTENT_METADATA_SZ ≤ l.finish := hat.start_ge.trans (Nat.le_add_right ..)
  refine ⟨cl2, ?_, hh2, ho2.trans ho1⟩
  show cl.replayInsert (lidOf l.lid l.finish) b found = _
  unfold replayInsert
  rw [if_pos (lidOf_bounds hat.lid_nonneg hat.lid_lt hge hlt).1, insertRecordByPos_fits hf, hcl1, andThen_ok, hcl2]

end Side

/-! ### Both sides -/

/-- The sides hold the same contents, each in its own extents. -/
structure Together (s : Replicas) (cs ds : List Content) : Prop where
  primary : Holding s.primary cs
  secondary : Holding s.secondary ds
  options : s.secondary.options = s.primary.options
  alike : Alike cs ds

section Both

variable {s : Replicas} {cs ds : List Content}

theorem Together.records (h : Together s cs ds) : s.secondary.records = s.primary.records := by
  unfold Collection.records
  rw [h.primary.storedRecords, h.secondary.storedRecords, ← h.alike.of_map stored_erase]

theorem Together.recyclesAlone (h : Together s cs ds) {size : Nat} {found : Option Nat}
    (ha : ¬ s.primary.RecyclesAlone size found) : ¬ s.secondary.RecyclesAlone size found := by
  by_cases hn : ds = []
  · exact h.secondary.not_recyclesAlone (by simp [hn]) size found
  · obtain ⟨ini, l, rfl⟩ := (eq_nil_or_concat' ds).resolve_left hn
    obtain ⟨ini', l', suf, rfl, -, -, hs⟩ := h.alike.symm.split
    obtain rfl : suf = [] := hs.eq_nil_iff.1 rfl
    rw [h.secondary.recyclesAlone_iff, h.options]
    rw [h.primary.recyclesAlone_iff] at ha
    rwa [h.alike.symm.of_map (f := s.primary.options.RecyclesAlone size found) fun cs => by
      unfold Options.RecyclesAlone
      simp]

variable {c c' : Content}

theorem push_erase (h : c.erase = c'.erase) (b : List UInt8) : (c.push b).erase = (c'.push b).erase := by
  unfold Content.erase Content.push at *
  simp_all

theorem lidOf_finish_erase (h : c.erase = c'.erase) : lidOf c.lid c.finish = lidOf c'.lid c'.finish := by
  have hl : c.lid = c'.lid := congrArg (fun c => c.lid) h
  have hf : c.finish = c'.finish := congrArg (fun c => c.finish) h
  rw [hl, hf]

variable {b : List UInt8} {found found' : Option Nat}

theorem Together.insert_placed (h : Together s cs ds) (hf : Fits b) (hlid : nextLid cs < 2 ^ 31)
    (hn : ∀ id ∈ found, id ∉ cs.map Content.id) (hn' : ∀ id ∈ found', id ∉ ds.map Content.id)
    (ha : ¬ s.primary.RecyclesAlone (recSize b) found) {pre pre' : List Content} {l l' : Content}
    (hp : Alike pre pre') (hl : l.erase = l'.erase)
    (hes : s.primary.options.placed (recSize b) found cs = some (pre ++ [l]))
    (hfs : s.primary.options.placed (recSize b) found' ds = some (pre' ++ [l'])) :
    Together (s.step ⟨.insert b found, found'⟩) (pre ++ [l.push b]) (pre' ++ [l'.push b]) ∧
      (s.step ⟨.insert b found, found'⟩).primary.options = s.primary.options := by
  have hlid' : nextLid ds < 2 ^ 31 := by rwa [← h.alike.of_map nextLid_erase]
  obtain ⟨cl1, hcl1, hh1, ho1, hlog⟩ := (insertRecord_holding h.primary hlid hf hn).1 pre l hes
  rw [← h.options] at hfs
  obtain ⟨cl2, hcl2, hh2, ho2⟩ :=
    replay_insert_holding h.secondary hlid' hf hn' (h.recyclesAlone ha) hfs
  rw [← lidOf_finish_erase hl] at hcl2
  unfold Replicas.step Collection.step
  simp only [hlog, hcl1, hcl2]
  exact ⟨⟨hh1, hh2, by rw [ho2, h.options, ho1], hp.append (.cons (push_erase hl b) .nil)⟩, ho1⟩

theorem Together.insert (h : Together s cs ds) {body : List UInt8} (hok : s.InStep ⟨.insert body found, found'⟩) :
    ∃ cs' ds', Together (s.step ⟨.insert body found, found'⟩) cs' ds' := by
  obtain ⟨ha, hleft, hs, hn, hnew'⟩ := hok
  rw [h.primary.extentIDs] at hn
  rw [h.secondary.extentIDs] at hnew'
  have hlid := h.primary.nextLid_lt hleft
  by_cases hf : Fits body
  · cases hp : s.primary.options.placed (recSize body) found cs with
    | none =>
      obtain ⟨rc, cl', hrc, hcl', hh, ho⟩ := (insertRecord_holding h.primary hlid hf hn).2 hp ha
      unfold Replicas.step Collection.step
      simp only [logOf, hcl', if_neg hrc]
      exact ⟨cs, ds, hh, h.secondary, h.options.trans ho.symm, h.alike⟩
    | some es =>
      obtain ⟨fs, hfs, halike⟩ := h.alike.placed hs hp
      obtain ⟨pre, l, rfl⟩ : ∃ pre l, es = pre ++ [l] := by
        rcases eq_nil_or_concat' es with rfl | ⟨pre, l, rfl⟩
        · have hr := le_room_of_placed (recSize_le_body hf) hp
          have hbounds := recSize_bounds hf
          exact absurd hr (by simp [room]; omega)
        · exact ⟨pre, l, by simp⟩
      obtain ⟨pre', l', suf, rfl, hpre, hl, hsuf⟩ := halike.split
      obtain rfl : suf = [] := hsuf.eq_nil_iff.1 rfl
      exact ⟨_, _, (h.insert_placed hf hlid hn hnew' ha hpre hl hp hfs).1⟩
  · have hi : s.primary.insertRecord body found = (.dmsRecordTooBig, s.primary) := by
      unfold Fits at hf
      exact if_pos (by omega)
    unfold Replicas.step Collection.step
    simp only [logOf, hi, reduceCtorEq, if_false]
    exact ⟨cs, ds, h⟩

theorem popContents_alike {dir : Int} {pre pre' suf suf' : List Content} {as bs : List (List UInt8)}
    (hp : Alike pre pre') (hc : c.erase = c'.erase) (hs : Alike suf suf') :
    Alike (popContents dir pre c suf as b bs) (popContents dir pre' c' suf' as b bs) := by
  have hd : (c.dropTo as b bs).erase = (c'.dropTo as b bs).erase := by
    have hm : ∀ c : Content, (c.dropTo as b bs).erase = c.erase.dropTo as b bs := fun c => by
      unfold Content.dropTo
      split_ifs <;> rfl
    rw [hm, hm, hc]
  have ht : (c.takeTo as).erase = (c'.takeTo as).erase := by
    have hm : ∀ c : Content, (c.takeTo as).erase = c.erase.takeTo as := fun c => by
      unfold Content.takeTo
      split_ifs <;> rfl
    rw [hm, hm, hc]
  unfold popContents
  by_cases hdir : dir ≥ 0
  · rw [if_pos hdir, if_pos hdir]
    by_cases hn : suf = []
    · rw [if_pos hn, if_pos (hs.eq_nil_iff.1 hn)]
      exact .cons hd .nil
    · rw [if_neg hn, if_neg fun hnil' => hn (hs.eq_nil_iff.2 hnil')]
      split_ifs
      · exact hs
      · exact .cons hd hs
  · rw [if_neg hdir, if_neg hdir]
    exact hp.append (.cons ht .nil)

theorem Together.pop (h : Together s cs ds) {lid dir : Int} {found' : Option Nat}
    (hok : s.InStep ⟨.pop lid dir, found'⟩) :
    ∃ cs' ds', Together (s.step ⟨.pop lid dir, found'⟩) cs' ds' := by
  have hp : ¬ s.primary.Phantom lid := hok
  unfold Replicas.step Collection.step logOf
  by_cases hlid : ∃ r ∈ s.primary.storedRecords, r.logicalID = lid
  · obtain ⟨r, hr, rfl⟩ := hlid
    rw [h.primary.storedRecords] at hr
    obtain ⟨pre, c, suf, as, b, bs, rfl, hb, rfl⟩ := mem_stored.1 hr
    obtain ⟨pre', c', suf', rfl, hpre, hc, hs⟩ := h.alike.split
    have hb' : c'.bodies = as ++ b :: bs := (congrArg (fun c => c.bodies) hc).symm.trans hb
    have hplace : lidOf c'.lid (c'.start + span as) = lidOf c.lid (c.start + span as) := by
      have hl : c.lid = c'.lid := congrArg (fun c => c.lid) hc
      have hstart : c.start = c'.start := congrArg (fun c => c.start) hc
      rw [hl, hstart]
    obtain ⟨cl1, hcl1, hi1, ho1, hc1⟩ := popRecord_at h.primary.toCappedInv hb dir
    obtain ⟨cl2, hcl2, hi2, ho2, hc2⟩ := popRecord_at h.secondary.toCappedInv hb' dir
    rw [hplace] at hcl2
    have ht : s.primary.stat.totalRecords ≠ 0 := by
      rw [h.primary.total]
      exact Int.natCast_ne_zero.2 (recordNum_ne_zero hb)
    simp only [hcl1, ht, ne_eq, not_false_eq_true, and_self, if_true, Collection.replay, hcl2, reduceCtorEq, if_false]
    exact ⟨_, _, ⟨hi1, hc1 h.primary.counted⟩, ⟨hi2, hc2 h.secondary.counted⟩,
      by rw [ho2, h.options, ho1], popContents_alike hpre hc hs⟩
  · have hrej := popRecord_unknown hp (fun r hr heq => hlid ⟨r, hr, heq⟩) dir
    simp only [hrej, reduceCtorEq, false_and, if_false]
    exact ⟨cs, ds, h⟩

theorem Together.step (h : Together s cs ds) {a : ReplicaOp} (hok : s.InStep a) :
    ∃ cs' ds', Together (s.step a) cs' ds' := by
  obtain ⟨op, found⟩ := a
  cases op with
  | insert body found' => exact h.insert hok
  | pop lid dir => exact h.pop hok

end Both

/-! ### Runs -/

def Replicas.new (options : Options) (extents extents' : Nat → Extent) (mem mem' : Nat → Mem) : Replicas where
  primary := .new options extents mem
  secondary := .new options extents' mem'

theorem Together.new (options : Options) (extents extents' : Nat → Extent) (mem mem' : Nat → Mem) :
    Together (.new options extents extents' mem mem') [] [] := by
  have hc : ∀ e m, Counted (.new options e m) [] := fun e m => ⟨by simp [PagesAt, Collection.new], by simp, by simp⟩
  exact ⟨⟨CappedInv.new .., hc ..⟩, ⟨CappedInv.new .., hc ..⟩, rfl, .nil⟩

/-- In every run in which the primary does not recycle alone, the secondary has the records of the primary, with the
same logical ids, whatever the limits are and wherever the two sides put their extents. -/
theorem replicas_records_eq (options : Options) (extents extents' : Nat → Extent) (mem mem' : Nat → Mem)
    (ops : List ReplicaOp)
    (hok : Meets Replicas.InStep Replicas.step (.new options extents extents' mem mem') ops) :
    let s := run Replicas.step (.new options extents extents' mem mem') ops
    s.secondary.records = s.primary.records := by
  obtain ⟨cs, ds, htogether⟩ := run_invariant (I := fun s => ∃ cs ds, Together s cs ds)
    (fun s a ⟨_, _, h⟩ hstep => h.step hstep) ⟨[], [], Together.new options extents extents' mem mem'⟩ hok
  exact htogether.records

/-- Both sides empty their only extent when a third record comes. -/
theorem replicas_records_eq_overwrite :
    let s := run Replicas.step (.new ⟨10 ^ 12, 2, true, 16⟩ (fun _ => .init) (fun _ => .init) (fun _ _ => 0) fun _ _ => 255)
      [⟨.insert [0] (some 5), some 8⟩, ⟨.insert [1, 2] none, none⟩, ⟨.insert [3] none, none⟩, ⟨.insert [4] none, none⟩,
        ⟨.pop 33554396 1, none⟩]
    s.secondary.records = s.primary.records :=
  replicas_records_eq _ _ _ _ _ _ (by decide +kernel)

/-! ### Recycling alone -/

section Alone

variable {s : Replicas} {cs : List Content} {b t : List UInt8}

def threeRecords : Options := ⟨10 ^ 12, 3, true, 16⟩

def filled (id : Nat) (lid : Int) (bs : List (List UInt8)) : Content := ⟨id, lid, DMS_EXTENT_METADATA_SZ, 1, bs⟩

theorem placed_filled (hb : recSize b = 12000048) (found : Option Nat) :
    threeRecords.placed (recSize b) found [filled 5 0 [b]] = some [filled 5 0 [b]] ∧
      threeRecords.placed (recSize b) (some 6) [filled 5 0 [b, b]] = some [filled 5 0 [b, b], filled 6 1 []] := by
  unfold Options.placed roomed limited checked
  simp [threeRecords, numExceeded, sizeExceeded, recordNum, filled, room, Content.finish, hb,
    DMS_CAP_EXTENT_SZ, DMS_EXTENT_METADATA_SZ, extentPages, nextLid, Content.fresh]

theorem placed_fourth (hb : recSize b = 12000048) (ht : recSize t = 48) (found : Option Nat) :
    threeRecords.placed (recSize t) found [filled 5 0 [b, b], filled 6 1 [b]] = some [filled 6 1 [b]] := by
  unfold Options.placed roomed limited checked
  simp [threeRecords, numExceeded, recordNum, filled, room, Content.finish, hb, ht,
    DMS_CAP_EXTENT_SZ, DMS_EXTENT_METADATA_SZ, recycleOne]

def threeInserts (b : List UInt8) : List ReplicaOp :=
  [⟨.insert b (some 5), some 5⟩, ⟨.insert b none, none⟩, ⟨.insert b (some 6), some 6⟩]

theorem Together.insert_same (h : Together s cs cs) {o : Options} (ho : s.primary.options = o) (hf : Fits b)
    (hl : nextLid cs < 2 ^ 31) (hlen : cs.length ≤ 1) (found : Option Nat)
    (hn : ∀ id ∈ found, id ∉ cs.map Content.id) (pre : List Content) (l : Content) (hes : o.placed (recSize b) found cs = some (pre ++ [l])) :
    Together (s.step ⟨.insert b found, found⟩) (pre ++ [l.push b]) (pre ++ [l.push b]) ∧
      (s.step ⟨.insert b found, found⟩).primary.options = o := by
  rw [← ho] at hes ⊢
  exact h.insert_placed hf hl hn hn (h.primary.not_recyclesAlone hlen _ _) rfl rfl hes hes

theorem together_threeInserts (hf : Fits b) (hb : recSize b = 12000048) (extents extents' : Nat → Extent)
    (mem mem' : Nat → Mem) :
    let s := run Replicas.step (.new threeRecords extents extents' mem mem') (threeInserts b)
    Together s [filled 5 0 [b, b], filled 6 1 [b]] [filled 5 0 [b, b], filled 6 1 [b]] ∧
      s.primary.options = threeRecords := by
  have h0 := Together.new threeRecords extents extents' mem mem'
  obtain ⟨h1, ho1⟩ := h0.insert_same rfl hf (by decide) (by simp) (some 5) (by simp) [] (filled 5 0 []) rfl
  obtain ⟨h2, ho2⟩ := h1.insert_same ho1 hf (by simp [nextLid, filled, Content.push]) (by simp) none (by simp) []
    (filled 5 0 [b]) (placed_filled hb none).1
  exact h2.insert_same ho2 hf (by simp [nextLid, filled, Content.push]) (by simp) (some 6) (by simp [Content.push, filled])
    [filled 5 0 [b, b]] (filled 6 1 []) (placed_filled hb none).2

theorem records_fourth (hfit : Fits b) (hb : recSize b = 12000048) (hf' : Fits t) (ht : recSize t = 48)
    (extents extents' : Nat → Extent) (mem mem' : Nat → Mem) :
    let s := run Replicas.step (.new threeRecords extents extents' mem mem') (threeInserts b ++ [⟨.insert t none, none⟩])
    s.primary.records = [(33554396, b), (45554444, t)] ∧
      s.secondary.records = [(0, b), (12000048, b), (33554396, b), (45554444, t)] := by
  obtain ⟨h, ho⟩ := together_threeInserts hfit hb extents extents' mem mem'
  have hn : ∀ id ∈ (none : Option Nat), id ∉ [filled 5 0 [b, b], filled 6 1 [b]].map Content.id := by simp
  have hl : nextLid [filled 5 0 [b, b], filled 6 1 [b]] < 2 ^ 31 := by simp [nextLid, filled]
  have hf : (filled 6 1 [b]).finish = 12000084 := by
    simp [filled, Content.finish, hb, DMS_EXTENT_METADATA_SZ]
  have hr : ∀ pre, recSize t ≤ room (pre ++ [filled 6 1 [b]]) := by
    intro pre
    rw [room_append, hf, ht]
    decide
  obtain ⟨cl1, hcl1, hh1, -, hlog⟩ := (insertRecord_holding h.primary hl hf' hn).1 [] (filled 6 1 [b])
    (by rw [ho]; exact placed_fourth hb ht none)
  obtain ⟨cl2, hcl2, hh2, -⟩ := writeRecord_holding
    (show Holding _ ([filled 5 0 [b, b]] ++ [filled 6 1 [b]]) from h.secondary) hf' (hr _)
  have hbehind := allocRecordSpaceByPos_behind
    (show CappedInv _ ([filled 5 0 [b, b]] ++ [filled 6 1 [b]]) from h.secondary.toCappedInv)
    (by rw [hf]; decide) (recSize t) none
  have hreplay : (run Replicas.step (.new threeRecords extents extents' mem mem') (threeInserts b)).secondary.replay none
      (.insert (lidOf (filled 6 1 [b]).lid (filled 6 1 [b]).finish) t) = (.ok, cl2) := by
    show replayInsert _ (lidOf (filled 6 1 [b]).lid (filled 6 1 [b]).finish) t none = _
    unfold replayInsert
    rw [if_pos (by rw [hf]; show lidOf 1 12000084 ≥ 0; decide), insertRecordByPos_fits hf', hbehind, andThen_ok, hcl2]
  rw [run_append]
  simp only [run_cons, run_nil, Replicas.step, Collection.step, hlog, hcl1, hreplay]
  unfold Collection.records
  rw [hh1.storedRecords, hh2.storedRecords]
  simp [Content.stored, Content.storedFrom, filled, Content.push, lidOf, hb, DMS_CAP_EXTENT_BODY_SZ, DMS_CAP_EXTENT_SZ,
    DMS_EXTENT_METADATA_SZ]

end Alone

/-- A collection of at most three records, overwriting.  The records have 12 megabytes, so that the third one is in
another extent than the first two.  A fourth, small one makes the primary recycle the first extent; the secondary
takes its position without a look at the limits. -/
theorem replicas_recycleAlone :
    let b : List UInt8 := replicate 12000000 0
    let s := run Replicas.step (.new threeRecords (fun _ => .init) (fun _ => .init) (fun _ _ => 0) fun _ _ => 0)
      (threeInserts b ++ [⟨.insert [0] none, none⟩])
    s.primary.records.map Prod.fst = [33554396, 45554444] ∧
      s.secondary.records.map Prod.fst = [0, 12000048, 33554396, 45554444] := by
  intro b s
  have hlen : b.length = 12000000 := length_replicate
  have hfit : Fits b := by
    unfold Fits recordDataLen
    rw [hlen]
    decide
  have hb : recSize b = 12000048 := by
    unfold recSize recordDataLen
    rw [hlen]
    decide
  obtain ⟨hprimary, hsecondary⟩ := records_fourth hfit hb (show Fits [0] by decide) (by decide) (fun _ => .init)
    (fun _ => .init) (fun _ _ => 0) fun _ _ => 0
  rw [show s.primary.records = _ from hprimary, show s.secondary.records = _ from hsecondary]
  exact ⟨rfl, rfl⟩

end SequoiaDB.Dms.Capped

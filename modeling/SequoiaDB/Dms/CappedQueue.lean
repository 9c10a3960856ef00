import SequoiaDB.Dms.CappedPop
import SequoiaDB.Dms.CappedInsert
import SequoiaDB.Lib.PosQueue
import SequoiaDB.Lib.Refinement

/-!
# A capped collection is a queue

The records of a capped collection, with their logical ids as positions, are a queue with positions: an insert
appends behind all records, a pop removes from one end up to the record with the given logical id.

`_extractRecLID` trusts the 16 bytes at the place that a logical id decodes to.  Bytes that no record starts at
can look like the head of a record: the head of a record popped backwards stays in memory, and a longer record
written over it covers only the part of it that its data reaches.  `Phantom` names the logical ids that pass the
checks although no record has them; popping one of them removes records it should not.
-/

namespace SequoiaDB.Dms.Capped

open SequoiaDB.Lib List Collection

/-! ### Operations -/

/-- The operations on a collection; an insert comes with the extent that the space manager would find. -/
inductive Op where
  | insert (body : List UInt8) (found : Option Nat)
  | pop (logicalID direction : Int)

variable (cl : Collection)

def Collection.step : Op → Rc × Collection
  | .insert body found => cl.insertRecord body found
  | .pop logicalID direction => cl.popRecord logicalID direction

def extentsFrom (cl : Collection) : Nat → Option Nat → List Nat
  | 0, _ => []
  | _ + 1, none => []
  | fuel + 1, some id => id :: extentsFrom cl fuel (cl.extents id).nextExtent

def Collection.extentIDs : List Nat := extentsFrom cl cl.chainBound cl.firstExtentID

/-- The bytes at the place of `logicalID` in extent `id` pass for the head of a record with that logical id. -/
def Collection.HeadAt (id : Nat) (logicalID : Int) : Prop :=
  let offset := (recLid2ExtLidAndOffset logicalID).2
  let head := cl.readHead id offset.toNat
  (cl.recordRange id).1 ≤ offset ∧ offset ≤ (cl.recordRange id).2 ∧
    head.isNormal = true ∧ head.recNo ≠ 0 ∧ head.logicalID = logicalID

instance (cl : Collection) (id : Nat) (logicalID : Int) : Decidable (cl.HeadAt id logicalID) :=
  inferInstanceAs (Decidable (_ ∧ _ ∧ _ ∧ _ ∧ _))

/-- No stored record has the logical id, but the bytes at its place pass for the head of one that has. -/
def Collection.Phantom (logicalID : Int) : Prop :=
  (∀ r ∈ cl.storedRecords, r.logicalID ≠ logicalID) ∧ ∃ id ∈ cl.logicID2ExtID logicalID, cl.HeadAt id logicalID

instance (cl : Collection) (logicalID : Int) : Decidable (cl.Phantom logicalID) :=
  inferInstanceAs (Decidable (_ ∧ _))

def Collection.LidsLeft : Prop :=
  ∀ id ∈ cl.lastExtentID, (cl.extents id).logicID < 2 ^ 31 - 1

/-- The operations the queue is about: inserts that hit no limit, with an extent that is not in use already, and
pops of anything but a phantom. -/
def Collection.Admissible : Op → Prop
  | .insert body found => cl.WithinLimits (recSize body) ∧ (∀ id ∈ found, id ∉ cl.extentIDs) ∧ cl.LidsLeft
  | .pop logicalID _ => ¬ cl.Phantom logicalID

instance (cl : Collection) (op : Op) : Decidable (cl.Admissible op) := by
  cases op with
  | insert body found => exact inferInstanceAs (Decidable (_ ∧ (∀ id ∈ found, _) ∧ ∀ id ∈ cl.lastExtentID, _))
  | pop logicalID direction => exact inferInstanceAs (Decidable (¬ _))

/-! ### The queue -/

abbrev RecordQueue := PosQueue Int (List UInt8)

/-- What an operation may do to the queue, and the code that it returns. -/
inductive QueueStep : RecordQueue → Op → Rc → RecordQueue → Prop
  | append {q body found lid} (hfit : Fits body) (hlid : ∀ x ∈ q.items, x.1 < lid) :
      QueueStep q (.insert body found) .ok (q.append lid body hlid)
  | tooBig {q body found} (hfit : ¬ Fits body) : QueueStep q (.insert body found) .dmsRecordTooBig q
  | noSpace {q body} (hfit : Fits body) : QueueStep q (.insert body none) .dmsNoSpc q
  | popFront {q lid direction} (hlid : lid ∈ q.items.map Prod.fst) (hdir : 0 ≤ direction) :
      QueueStep q (.pop lid direction) .ok (q.popFront lid)
  | popBack {q lid direction} (hlid : lid ∈ q.items.map Prod.fst) (hdir : direction < 0) :
      QueueStep q (.pop lid direction) .ok (q.popBack lid)
  | unknown {q lid direction} (hlid : lid ∉ q.items.map Prod.fst) : QueueStep q (.pop lid direction) .invalidArg q

/-- The stored records of the collection are those of the queue, and their logical ids encode their places. -/
structure Represents (cl : Collection) (q : RecordQueue) : Prop where
  items : q.items = cl.storedRecords.map fun r => (r.logicalID, r.body)
  decode : ∀ r ∈ cl.storedRecords, recLid2ExtLidAndOffset r.logicalID = (r.extLID, (r.offset : Int))
  encode : ∀ r ∈ cl.storedRecords, extLidAndOffset2RecLid r.extLID r.offset = r.logicalID

section Steps

variable {cl : Collection} {cs : List Content} {q : RecordQueue}

/-! ### The collection and its contents -/

theorem extentsFrom_eq (h : CappedLinks cl cs) {fuel : Nat} (hf : cs.length ≤ fuel) :
    extentsFrom cl fuel (cs.map Content.id).head? = cs.map Content.id := by
  refine walk hf (fun fuel => by cases fuel <;> rfl) fun fuel pre c suf hcs ih => ?_
  rw [map_cons, head?_cons, extentsFrom, h.next hcs, ih]

theorem CappedInv.extentIDs (h : CappedInv cl cs) : cl.extentIDs = cs.map Content.id := by
  unfold Collection.extentIDs
  rw [h.first]
  exact extentsFrom_eq h.toCappedLinks h.length_le_chainBound

theorem CappedInv.nextLid_lt (h : CappedInv cl cs) (hl : cl.LidsLeft) : nextLid cs < 2 ^ 31 := by
  unfold nextLid
  rcases eq_nil_or_concat' cs with rfl | ⟨ini, l, rfl⟩
  · decide
  · have hlid := hl l.id (by rw [h.last]; simp)
    rw [(h.contents l (by simp)).logicID] at hlid
    simp only [getLast?_concat, Option.map_some, Option.getD_some]
    omega

def CappedInv.queue (h : CappedInv cl cs) : RecordQueue where
  items := cl.storedRecords.map fun r => (r.logicalID, r.body)
  sorted := by
    rw [pairwise_map, h.storedRecords]
    exact h.stored_sorted

theorem CappedInv.represents (h : CappedInv cl cs) (hq : q.items = cl.storedRecords.map fun r => (r.logicalID, r.body)) :
    Represents cl q := by
  refine ⟨hq, fun r hr => ?_, fun r hr => ?_⟩
  · rw [h.storedRecords] at hr
    obtain ⟨n, hin, hl⟩ := h.stored_inRange hr
    rw [hl, recLid2ExtLidAndOffset_lidOf hin.lid_nonneg hin.lid_lt hin.offset_ge hin.offset_lt]
  · rw [h.storedRecords] at hr
    obtain ⟨n, hin, hl⟩ := h.stored_inRange hr
    have hnonneg := hin.lid_nonneg
    have hoffset := hin.offset_ge
    unfold extLidAndOffset2RecLid
    rw [hl, if_neg (by omega)]
    rfl

theorem extractRecLID_ok {lid : Int} {id offset : Nat} (h : cl.extractRecLID lid = .ok (id, offset)) :
    id ∈ cl.logicID2ExtID lid ∧ cl.HeadAt id lid := by
  unfold extractRecLID at h
  by_cases hn : lid < 0
  · rw [if_pos hn] at h
    cases h
  · rw [if_neg hn] at h
    cases hid : cl.logicID2ExtID lid with
    | none =>
      rw [hid] at h
      cases h
    | some id' =>
      rw [hid] at h
      simp only [outOfRange_eq] at h
      split_ifs at h with h1 h2
      cases h
      simp only [Bool.or_eq_true, decide_eq_true_eq, not_or, not_lt, Bool.not_eq_true', Bool.not_eq_false,
        Decidable.not_not] at h1 h2
      exact ⟨rfl, h1.1, h1.2, h2.1.1, h2.1.2, h2.2.symm⟩

theorem popRecord_unknown {lid : Int} (h : ¬ cl.Phantom lid) (hn : ∀ r ∈ cl.storedRecords, r.logicalID ≠ lid)
    (dir : Int) : cl.popRecord lid dir = (.invalidArg, cl) := by
  unfold popRecord
  cases hx : cl.extractRecLID lid with
  | error rc => rw [extractRecLID_error hx]
  | ok p => exact absurd ⟨hn, p.1, extractRecLID_ok hx⟩ h

/-! ### The steps -/

theorem insert_refines {body : List UInt8} {found : Option Nat} (h : CappedInv cl cs)
    (hok : cl.Admissible (.insert body found)) (hR : Represents cl q) :
    (∃ cs', CappedInv (cl.step (.insert body found)).2 cs') ∧
      ∃ q', QueueStep q (.insert body found) (cl.step (.insert body found)).1 q' ∧
        Represents (cl.step (.insert body found)).2 q' := by
  obtain ⟨hl, hf, hleft⟩ := hok
  rw [h.extentIDs] at hf
  obtain ⟨hb, hn, hd⟩ := insertRecord_spec h hl hf (h.nextLid_lt hleft)
  simp only [step]
  by_cases hfit : Fits body
  · by_cases hr : cl.HasRoom (recSize body) ∨ found ≠ none
    · obtain ⟨cl', cs', r, hcl', hi, hs, hbody, -⟩ := hd hfit hr
      simp only [hcl']
      have hrecords : cl'.storedRecords = cl.storedRecords ++ [r] := by
        rw [hi.storedRecords, hs, h.storedRecords]
      have hlid : ∀ x ∈ q.items, x.1 < r.logicalID := by
        have hsorted := hi.stored_sorted
        rw [hs] at hsorted
        intro x hx
        rw [hR.items, h.storedRecords] at hx
        obtain ⟨r', hr', rfl⟩ := mem_map.1 hx
        exact (pairwise_append.1 hsorted).2.2 r' hr' r (mem_singleton_self _)
      refine ⟨⟨cs', hi⟩, _, .append hfit hlid, hi.represents ?_⟩
      rw [hrecords, map_append, ← hR.items, ← hbody]
      rfl
    · obtain ⟨hno, hnone⟩ := not_or.1 hr
      obtain rfl : found = none := by simpa using hnone
      rw [hn hfit hno rfl]
      exact ⟨⟨cs, h⟩, q, .noSpace hfit, hR⟩
  · rw [hb hfit]
    exact ⟨⟨cs, h⟩, q, .tooBig hfit, hR⟩

theorem pop_refines {lid dir : Int} (h : CappedInv cl cs) (hok : cl.Admissible (.pop lid dir))
    (hR : Represents cl q) :
    (∃ cs', CappedInv (cl.step (.pop lid dir)).2 cs') ∧
      ∃ q', QueueStep q (.pop lid dir) (cl.step (.pop lid dir)).1 q' ∧
        Represents (cl.step (.pop lid dir)).2 q' := by
  have hm : lid ∈ q.items.map Prod.fst ↔ ∃ r ∈ cl.storedRecords, r.logicalID = lid := by
    rw [hR.items]
    simp
  simp only [step]
  by_cases hl : ∃ r ∈ cl.storedRecords, r.logicalID = lid
  · obtain ⟨r, hr, rfl⟩ := hl
    have hr' := hr
    rw [h.storedRecords] at hr'
    obtain ⟨cl', cs', hcl', hi, hk, -⟩ := popRecord_stored h hr' dir
    rw [← h.storedRecords, ← hi.storedRecords] at hk
    simp only [hcl']
    refine ⟨⟨cs', hi⟩, ?_⟩
    unfold keptByPop at hk
    by_cases hd : dir ≥ 0
    · rw [if_pos hd] at hk
      refine ⟨_, .popFront (hm.2 ⟨r, hr, rfl⟩) hd, hi.represents ?_⟩
      simp only [PosQueue.popFront, hR.items, hk, filter_map]
      rfl
    · rw [if_neg hd] at hk
      refine ⟨_, .popBack (hm.2 ⟨r, hr, rfl⟩) (by omega), hi.represents ?_⟩
      simp only [PosQueue.popBack, hR.items, hk, filter_map]
      rfl
  · have hn : ∀ r ∈ cl.storedRecords, r.logicalID ≠ lid := fun r hr heq => hl ⟨r, hr, heq⟩
    have hrej := popRecord_unknown hok hn dir
    simp only [hrej]
    exact ⟨⟨cs, h⟩, q, .unknown (fun hq => hl (hm.1 hq)), hR⟩

theorem CappedInv.new (options : Options) (extents : Nat → Extent) (mem : Nat → Mem) :
    CappedInv (.new options extents mem) [] := by
  refine ⟨⟨⟨⟨trivial, nodup_nil, by simp⟩, rfl⟩, rfl, rfl, List.IsChain.nil⟩, by simp, by simp, fun _ => rfl⟩

end Steps

/-! ### Runs -/

/-- A capped collection is a queue of records with their logical ids as positions, in every run of admissible
operations on a new collection, whatever the file contains. -/
theorem cappedCollection_refines_queue (options : Options) (extents : Nat → Extent) (mem : Nat → Mem) (ops : List Op)
    (hok : Meets Admissible (fun cl op => (cl.step op).2) (.new options extents mem) ops) :
    Refines step QueueStep Represents (.new options extents mem) .empty ops := by
  have hinit := CappedInv.new options extents mem
  refine refines_of_step (I := fun cl => ∃ cs, CappedInv cl cs) ?_ ⟨[], hinit⟩ (hinit.represents rfl) hok
  rintro cl q op ⟨cs, hinv⟩ hop hR
  cases op with
  | insert body found => exact insert_refines hinv hop hR
  | pop lid direction => exact pop_refines hinv hop hR

def zeroCollection : Collection := .new ⟨10 ^ 12, 0, false, 16⟩ (fun _ => .init) fun _ _ => 0

theorem cappedCollection_refines_queue_sample :
    Refines step QueueStep Represents zeroCollection .empty
      [.insert [0] (some 5), .insert [1, 2] none, .pop 48 (-1), .insert [3] none, .pop 0 1, .pop 7 1] :=
  cappedCollection_refines_queue _ _ _ _ (by decide +kernel)

/-- After a pop backwards and two inserts, the head of a record popped is still there, inside a longer record.  A
pop of its logical id succeeds and removes all records. -/
theorem popRecord_phantom :
    let ops : List Op := [.insert [0] (some 5), .insert [0] none, .pop 0 (-1),
      .insert (replicate 15 7) none, .insert [9] none]
    let cl := run (fun cl op => (step cl op).2) zeroCollection ops
    Meets Admissible (fun cl op => (step cl op).2) zeroCollection ops ∧
      cl.storedRecords.map Stored.logicalID = [0, 64] ∧ (cl.popRecord 48 1).1 = .ok ∧
      (cl.popRecord 48 1).2.storedRecords = [] := by
  decide +kernel

end SequoiaDB.Dms.Capped

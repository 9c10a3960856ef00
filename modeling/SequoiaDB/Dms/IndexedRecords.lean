import SequoiaDB.Bson.ElementOrder
import SequoiaDB.Dms.DataRecords
import SequoiaDB.Dms.StorageIndexSpec

/-!
# Records and indexes together

A collection whose indexes hold exactly the keys of its records.  An insert that fails at some key of some index, or finds
no space, leaves records, indexes and counters as they were, and so does an update if the comparison orders the keys of the
old and the new object.  One that succeeds keeps the indexes exact, with one exception: an update does not replace a key by
one that compares equal to it but is another key of the index.
-/

namespace SequoiaDB.Dms.StorageIndex

open SequoiaDB.Dms.Data List Lib

variable {O K E : Type*} {ko : KeyOrder K E} [DecidableEq E] {cfg : Config O} {s : State O (List (Index ko O))}

def Index.Exact (ix : Index ko O) (st : Store O) : Prop :=
  ∀ e rid, (e, rid) ∈ ix.entries ↔ ∃ obj, HasRecord st rid obj ∧ ∃ k ∈ ix.keys obj, ko.key k = e

structure Consistent (cfg : Config O) (s : State O (List (Index ko O))) : Prop where
  layout : ∃ g, Holding cfg s.store g []
  valid : ∀ ix ∈ s.index, ix.Valid ix.entries
  keys : ∀ ix ∈ s.index, ix.Exact s.store

/-- The records, the entries of the indexes and the counters are the same. -/
structure NoTrace (s s' : State O (List (Index ko O))) : Prop where
  records : ∀ rid obj, HasRecord s'.store rid obj ↔ HasRecord s.store rid obj
  index : s'.index = s.index
  counts : s'.store.counts = s.store.counts

omit [DecidableEq E] in
theorem NoTrace.refl (s : State O (List (Index ko O))) : NoTrace s s := ⟨fun _ _ => Iff.rfl, rfl, rfl⟩

theorem forall_mem_iff {α β : Type*} {R : α → β → Prop} {P : α → Prop} {Q : β → Prop} {as : List α} {bs : List β}
    (h : List.Forall₂ R as bs) (hPQ : ∀ a b, a ∈ as → R a b → (Q b ↔ P a)) : (∀ b ∈ bs, Q b) ↔ ∀ a ∈ as, P a := by
  induction h with
  | nil => simp
  | cons hab _ ih =>
    rw [forall_mem_cons, forall_mem_cons, hPQ _ _ mem_cons_self hab, ih fun a b ha => hPQ a b (mem_cons_of_mem _ ha)]

/-! ### Inserting -/

variable {ix ix' : Index ko O} {rid : RID} {obj : O} {st st' : Store O}

theorem Index.indexInsert_ok (hv : ix.Valid ix.entries) (hex : ix.Exact st) (hok : ix.indexInsert rid obj = (.ok, ix'))
    (hrec : ∀ q obj', HasRecord st' q obj' ↔ q = rid ∧ obj' = obj ∨ HasRecord st q obj') :
    ix'.Valid ix'.entries ∧ ix'.Exact st' := by
  obtain ⟨hv', hs, hn, ha⟩ := ix.insertKeys_spec rid (ix.keys obj) hv
  simp only [Index.indexInsert, Prod.mk.injEq] at hok
  obtain ⟨hrc, rfl⟩ := hok
  refine ⟨⟨hv'.pos, hv'.lt, hv'.unique⟩, fun e q => ?_⟩
  show (e, q) ∈ (ix.insertKeys rid (ix.keys obj) ix.entries).2 ↔ ∃ obj', _ ∧ ∃ k ∈ ix.keys obj', _
  constructor
  · intro hin
    rcases hn _ hin with hin | ⟨k, hk, heq⟩
    · obtain ⟨obj', hr, hk⟩ := (hex e q).1 hin
      exact ⟨obj', (hrec q obj').2 (.inr hr), hk⟩
    · cases heq
      exact ⟨obj, (hrec rid obj).2 (.inl ⟨rfl, rfl⟩), k, hk, rfl⟩
  · rintro ⟨obj', hr, k, hk, rfl⟩
    rcases (hrec q obj').1 hr with ⟨rfl, rfl⟩ | hr
    · exact ha hrc k hk
    · exact hs ((hex _ q).2 ⟨obj', hr, k, hk, rfl⟩)

variable {g : Shape} {p : RID}

theorem insertReserved_spec (env : Env) (h : Holding cfg s.store g [p])
    (hm : cfg.objsize obj + DMS_RECORD_METADATA_SZ ≤ DMS_RECORD_USER_MAX_SZ)
    (hs : cfg.finalRecordSize (cfg.recordData obj).diskLen ≤ (s.store.records p).size)
    (hv : ∀ ix ∈ s.index, ix.Valid ix.entries) (hk : ∀ ix ∈ s.index, ix.Exact s.store) (f : ReserveFaults) :
    ((s.insertReserved cfg (indexSU ko O) env obj { reserve := f } p).1 ≠ .ok →
      NoTrace s (s.insertReserved cfg (indexSU ko O) env obj { reserve := f } p).2) ∧
    ((s.insertReserved cfg (indexSU ko O) env obj { reserve := f } p).1 = .ok →
      Consistent cfg (s.insertReserved cfg (indexSU ko O) env obj { reserve := f } p).2) := by
  obtain ⟨heq, g1, h1, -, ht, hl, hh⟩ := h.inserted (by simp) hm hs
  have hc : ∀ q obj', HasRecord (s.store.inserted cfg p obj) q obj' ↔ q = p ∧ obj' = obj ∨ HasRecord s.store q obj' :=
    fun q obj' => h.hasRecord_inserted (by simp) hm hs obj'
  have hno : ∀ obj', ¬ HasRecord s.store p obj' :=
    fun obj' => h.not_hasRecord_of_use (by simp [h.use (mem_cons_self ..)])
  obtain ⟨rc, ixs, hi⟩ : ∃ rc ixs, (indexSU ko O).indexesInsert s.index obj p = (rc, ixs) := ⟨_, _, rfl⟩
  unfold State.insertReserved
  simp only [heq, hi]
  by_cases hrc : rc = .ok
  · subst hrc
    refine ⟨fun hne => absurd rfl hne, fun _ => ?_⟩
    have ha : ∀ ix ∈ ixs, ix.Valid ix.entries ∧ ix.Exact (s.store.inserted cfg p obj) := by
      refine (forall_mem_iff (P := fun _ => True) (eachIndex_ok hi) fun ix ix' hix hok => ?_).2 fun _ _ => trivial
      exact iff_of_true (Index.indexInsert_ok (hv ix hix) (hk ix hix) hok hc) trivial
    exact ⟨⟨g1, h1⟩, fun ix hix => (ha ix hix).1, fun ix hix => (ha ix hix).2⟩
  · -- the record is taken back, and its keys are removed from all indexes
    simp only [hrc, if_false, Option.getD_none]
    refine ⟨fun _ => ?_, False.elim⟩
    rw [deleteRecord_holds _ hh]
    obtain ⟨-, hrecords⟩ := h1.hasRecord_takenBack ht hl hh env.hasWait
    refine ⟨fun q obj' => ?_, ?_, ?_⟩
    · rw [hrecords, hc]
      constructor
      · rintro ⟨hq, ⟨rfl, -⟩ | hr⟩
        · exact absurd rfl hq
        · exact hr
      · intro hr
        exact ⟨fun hq => hno obj' (hq ▸ hr), .inr hr⟩
    · have hd : (indexSU ko O).indexesDelete ((indexSU ko O).indexesInsert s.index obj p).2 obj p = (.ok, s.index) := by
        refine indexesDelete_indexesInsert fun ix hix => ⟨hv ix hix, fun e hin => ?_⟩
        obtain ⟨obj', hr, -⟩ := (hk ix hix e p).1 hin
        exact hno obj' hr
      rw [hi] at hd
      exact congrArg Prod.snd hd
    · have hcounts := inserted_counts s.store cfg p obj
      simp only [Store.counts, Prod.mk.injEq] at hcounts
      rw [takenBack_counts, hcounts.1, hcounts.2.1, hcounts.2.2]
      simp [Store.counts]

variable {env : Env} {f : ReserveFaults} {r : Rc × State O (List (Index ko O))}

theorem insertRecord_spec (hc : Consistent cfg s) (he : env.Fresh s.store) (hf : f.extent = false) {obj : O}
    (hr : s.insertRecord cfg (indexSU ko O) env obj { reserve := f } = r) :
    (r.1 ≠ .ok → NoTrace s r.2) ∧ (r.1 = .ok → Consistent cfg r.2) := by
  obtain ⟨g, h⟩ := hc.layout
  subst hr
  unfold State.insertRecord
  simp only
  split
  · exact ⟨fun _ => NoTrace.refl s, nofun⟩
  · next hmax =>
    generalize hres : reserveFromDeleteList .. = r
    have hcounts := reserve_counts hres
    cases h.reserve hf he.1 he.2 hres with
    | some h1 hout hs hk1 =>
      rename_i st1 g1 p
      have hrec : ∀ q obj', HasRecord st1 q obj' ↔ HasRecord s.store q obj' := fun q obj' => hk1.hasRecord_iff h h1
      have hk : ∀ ix ∈ s.index, ix.Exact st1 := fun ix hix e q => by simpa only [hrec] using hc.keys ix hix e q
      obtain ⟨hfail, hok⟩ := insertReserved_spec env (s := ⟨st1, s.index⟩) h1 (by omega) hs hc.valid hk f
      refine ⟨fun hne => ?_, hok⟩
      have ht := hfail hne
      exact ⟨fun q obj' => (ht.records q obj').trans (hrec q obj'), ht.index, ht.counts.trans hcounts⟩
    | none hrc h1 hk1 =>
      split
      · next heq => cases heq
      · next heq =>
        cases heq
        exact ⟨fun _ => ⟨fun q obj' => hk1.hasRecord_iff h h1, rfl, hcounts⟩, fun hok => absurd hok hrc⟩

/-! ### Updating -/

variable {old obj : O}

theorem Updated.hasRecord_iff (hupd : Updated cfg p (cfg.recordData obj) st g (.ok, st')) (h : Holding cfg st g [])
    (hrec : HasRecord st p old) (q : RID) (obj' : O) :
    HasRecord st' q obj' ↔ q = p ∧ obj' = obj ∨ q ≠ p ∧ HasRecord st q obj' := by
  cases hupd with
  | failed hrc _ _ _ => exact absurd rfl hrc
  | ok h' hk hl hd hdel =>
    obtain ⟨hp, hu⟩ := h.isRecord_iff.1 hrec.1
    by_cases hq : q = p
    · subst hq
      have hrec' := h'.isRecord_iff.2 ((hl q).2 ⟨hp, hu⟩)
      simp only [HasRecord, hrec', hdel hrec.2.1, hd, Option.map_some, cfg.recordData_obj, Option.some.injEq,
        true_and, ne_eq, not_true_eq_false, false_and, or_false]
      exact eq_comm
    · simp only [hq, false_and, false_or, ne_eq, not_false_eq_true, true_and]
      by_cases hql : IsTile st g q ∧ g.use q = .live
      · -- another record in use, and its overflow target is not that of `p`
        refine hk.hasRecord_iff h h' (fun hX => ?_) fun hqt hqu t ht hX => ?_
        · rcases hX with (hX | hX) | hX
          · exact hq hX
          · have hut := (h.ovf.target_of hp hu hX).2
            rw [hql.2] at hut
            cases hut
          · exact hX ⟨hql.1, .inl hql.2⟩
        · have htgt := h.ovf.target_of hqt hqu ht
          rcases hX with (rfl | hX) | hX
          · rw [hu] at htgt
            cases htgt.2
          · obtain ⟨hs, hr⟩ := ovfTarget_eq_some.1 ht
            obtain ⟨hs', hr'⟩ := ovfTarget_eq_some.1 hX
            exact hq (h.ovf.ovf_inj q p hqt hp hqu hu hs hs' (hr.trans hr'.symm))
          · exact hX ⟨htgt.1, .inr htgt.2⟩
      · exact iff_of_false (fun hr => hql ((hl q).1 (h'.isRecord_iff.1 hr.1)))
          fun hr => hql (h.isRecord_iff.1 hr.1)

variable {old : O} {dataPtr : Option O}

/-- A date, or the seconds and the increment of a timestamp -/
abbrev Time := BitVec 64 ⊕ BitVec 32 × BitVec 32

def Time.element : Time → Bson.Element
  | .inl millis => .date millis
  | .inr (secs, inc) => .timestamp secs inc

def cstr (bytes : List Nat) : List Nat := bytes.takeWhile (· ≠ 0)

end SequoiaDB.Dms.StorageIndex

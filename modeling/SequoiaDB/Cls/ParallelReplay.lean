import SequoiaDB.Cls.SmoothReplay
import SequoiaDB.Cls.ReplayClasses

/-!
# Parallel replay

The replay of a log through the bucket: the session thread takes the records of the log one after the other and puts
each one into its unit, or replays it when the bucket is empty, and the workers replay the records of the units on a
shared store.

The records are replayed in an order that the units allow.  Since records of different units commute, the store is the
one that the serial replay leads to: as far as the last record that the session thread has replayed itself, and from
there on for some completion of what has been replayed (`Agrees`).  `run_serial` is the result; `equal_ids_apart` is a
run in which two equal `_id`s go to different units.
-/

namespace SequoiaDB.Cls

open Dps Bson Lib List Option

structure LogRecord (μ κ : Type*) where
  version : Nat
  length : Nat
  data : Record μ κ

open LogRecord

/-- A replica that replays a log: the bucket and its threads, what is stored, the records still to come, and whether a
replay has failed. -/
structure ParallelReplay (μ κ : Type*) (bitSize w : Nat) where
  bucket : BucketSystem (Record μ κ) (2 ^ bitSize) w
  store : Store
  log : List (LogRecord μ κ)
  failed : Bool

inductive ReplayAction (w : Nat)
  | session
  | wait
  | proceed
  | beginUnit (i : Fin w)
  | popData (i : Fin w)
  | replay (i : Fin w)
  | submit (i : Fin w)
  | endUnit (i : Fin w)
  | signal (i : Fin w)

variable {μ κ : Type*} {bitSize w : Nat}

namespace BucketSystem

variable {δ : Type*} {b : Nat} (s : BucketSystem δ b w)

def ready (version length : Nat) : Bool := s.free && s.isRecord version length

/-- The session thread can replay a record: `waitEmptyWithCheck` and the check of the expected LSN succeed. -/
def drained (version length : Nat) : Bool :=
  s.ready version length && s.bucket.emptyEvent && s.bucket.allEmptyEvent &&
    (s.bucket.expectLSN.invalid || s.bucket.expectLSN.compareOffset s.next = .eq)

end BucketSystem

namespace ParallelReplay

def start (base : Lsn) (store : Store) (log : List (LogRecord μ κ)) : ParallelReplay μ κ bitSize w :=
  ⟨BucketSystem.start base, store, log, false⟩

def session (R : Replayer μ κ) (s : ParallelReplay μ κ bitSize w) : ParallelReplay μ κ bitSize w :=
  match s.log with
  | [] => s
  | r :: rest =>
    match s.store.bucketID bitSize r.data with
    | some u =>
      if s.bucket.ready r.version r.length then
        { s with bucket := s.bucket.step (.push u r.version r.length r.data), log := rest }
      else s
    | none =>
      if s.bucket.drained r.version r.length then
        let x := R.replay s.store r.data
        { bucket := s.bucket.step (.barrier r.version r.length r.data x.1)
          store := x.2
          log := rest
          failed := x.1 ≠ .ok }
      else s

def replay (R : Replayer μ κ) (s : ParallelReplay μ κ bitSize w) (i : Fin w) : ParallelReplay μ κ bitSize w :=
  match s.bucket.workers i with
  | .holds _ e =>
    let x := R.replay s.store e.data
    { s with bucket := s.bucket.step (.replay i fun _ => x.1), store := x.2, failed := x.1 ≠ .ok }
  | _ => s

def step (R : Replayer μ κ) (s : ParallelReplay μ κ bitSize w) (a : ReplayAction w) : ParallelReplay μ κ bitSize w :=
  if s.failed then s
  else
    match a with
    | .session => s.session R
    | .wait => { s with bucket := s.bucket.step .wait }
    | .proceed => { s with bucket := s.bucket.step .proceed }
    | .beginUnit i => { s with bucket := s.bucket.step (.beginUnit i) }
    | .popData i => { s with bucket := s.bucket.step (.popData i) }
    | .replay i => s.replay R i
    | .submit i => { s with bucket := s.bucket.step (.submit i) }
    | .endUnit i => { s with bucket := s.bucket.step (.endUnit i) }
    | .signal i => { s with bucket := s.bucket.step (.signal i) }

end ParallelReplay

/-! ### The unit of a record -/

def Store.idIndexed (s : Store) : Record μ κ → Bool
  | .dataInsert fullname _ | .dataDelete fullname _ | .dataUpdate fullname _ _ _ =>
    match s.collections fullname with
    | some c => !c.noIdIndex || c.unique.isEmpty
    | none => true
  | .lobWrite .. | .lobUpdate .. | .lobRemove .. | .dummy | .other _ => true

def Store.frames (s : Store) (n : Name) : Option Collection := (s.collections n).map Collection.frame

namespace Record

def piece? : Record μ κ → Option LobPiece
  | .lobWrite _ piece _ _ | .lobUpdate _ piece _ _ | .lobRemove _ piece => some piece
  | .dataInsert .. | .dataDelete .. | .dataUpdate .. | .dummy | .other _ => none

structure Home (K : Set IdEle) (u : Fin (2 ^ bitSize)) (r : Record μ κ) : Prop where
  ids : ∀ i ∈ r.ids, i ∈ K ∧ calcIndex bitSize i.value = u
  piece : ∀ p, r.piece? = some p → calcIndex bitSize p.bytes = u

end Record

section Units

variable {R : Replayer μ κ} {M : Name → Option Collection} {K : Set IdEle} {s : Store} {u v : Fin (2 ^ bitSize)}
  {r r' : Record μ κ}

theorem Store.plain_of_idIndexed {n : Name} (hp : s.paralla n) (hi : (match s.collections n with
      | some c => !c.noIdIndex || c.unique.isEmpty
      | none => true) = true) : ∃ c, s.collections n = some c ∧ c.Plain := by
  unfold Store.paralla at hp
  cases hc : s.collections n with
  | none =>
    rw [hc] at hp
    cases hp
  | some c =>
    rw [hc] at hp hi
    simp only [Bool.and_eq_true, Bool.not_eq_true', decide_eq_true_eq] at hp hi
    obtain ⟨⟨hn, -⟩, hcapped⟩ := hp
    refine ⟨c, rfl, ?_, hcapped⟩
    cases hid : c.noIdIndex with
    | true =>
      rw [hid] at hi
      exact List.isEmpty_iff.1 hi
    | false =>
      rw [Collection.uniqueIdxNum, hid] at hn
      exact eq_nil_of_length_eq_zero (by simpa using hn)

theorem Store.Over.frame_plain (hs : s.Over M K) {n : Name} (h : ∃ c, s.collections n = some c ∧ c.Plain) :
    ∃ c, M n = some c ∧ c.Plain := by
  obtain ⟨c, hc, hp⟩ := h
  exact ⟨c.frame, by rw [← hs.frames n, hc, map_some], hp⟩

theorem placed_of_bucketID (hs : s.Over M K) (hu : s.bucketID bitSize r = some u) (hids : ∀ i ∈ r.ids, i ∈ K)
    (hnamed : r.WellNamed R) (hindexed : s.idIndexed r) : Placed R M K u r := by
  cases r with
  | dataInsert n obj | dataDelete n obj =>
    simp only [Store.bucketID] at hu
    split at hu
    · obtain ⟨i, hi, rfl⟩ := map_eq_some_iff.1 hu
      refine ⟨hs.frame_plain (s.plain_of_idIndexed ‹_› hindexed), i, hids i ?_, hi, rfl⟩
      simp [Record.ids, hi]
    · cases hu
  | dataUpdate n i j modifier =>
    simp only [Store.bucketID] at hu
    split at hu
    · obtain ⟨hsame, hp⟩ := Bool.and_eq_true_iff.1 ‹_›
      refine ⟨hs.frame_plain (s.plain_of_idIndexed hp hindexed), hids i ?_, hids j ?_, hsame, some.inj hu, hnamed⟩
      · simp [Record.ids]
      · simp [Record.ids]
    · cases hu
  | lobWrite | lobUpdate | lobRemove => exact some.inj hu
  | dummy => trivial
  | other kind => cases hu

theorem Placed.home (hK : HashAgrees bitSize K) (h : Placed R M K u r) : r.Home K u := by
  cases r with
  | dataInsert n obj | dataDelete n obj =>
    obtain ⟨-, i, hi, ho, hu⟩ := h
    refine ⟨fun k hk => ?_, fun _ hq => by cases hq⟩
    simp only [Record.ids, ho, toList_some, mem_singleton] at hk
    exact hk ▸ ⟨hi, hu⟩
  | dataUpdate n i j modifier =>
    obtain ⟨-, hi, hj, hs, hu, -⟩ := h
    refine ⟨fun k hk => ?_, fun _ hq => by cases hq⟩
    simp only [Record.ids, mem_cons, not_mem_nil, or_false] at hk
    rcases hk with rfl | rfl
    · exact ⟨hi, hu⟩
    · exact ⟨hj, (hK i hi k hj hs).symm.trans hu⟩
  | lobWrite n p offset data | lobUpdate n p offset data | lobRemove n p =>
    refine ⟨(fun _ hk => by cases hk), fun q hq => ?_⟩
    exact some.inj hq ▸ h
  | dummy => exact ⟨(fun _ hk => by cases hk), fun _ hq => by cases hq⟩
  | other kind => exact absurd h id

end Units

/-! ### Agreement with the serial replay -/

namespace Replayer

def execEntry (R : Replayer μ κ) {b : Nat} (s : Store) (e : Entry (Record μ κ) b) : Option Store := R.exec s e.data

theorem foldlM_execEntry (R : Replayer μ κ) {b : Nat} (l : List (Entry (Record μ κ) b)) (s : Store) :
    l.foldlM R.execEntry s = (l.map Entry.data).foldlM R.exec s := by
  rw [foldlM_map]
  rfl

theorem replay_of_exec {R : Replayer μ κ} {s t : Store} {r : Record μ κ} (h : R.exec s r = some t) :
    R.replay s r = (.ok, t) := by
  unfold exec at h
  split at h
  · exact Prod.ext ‹_› (some.inj h)
  · cases h

end Replayer

namespace ParallelReplay

/-- The replica has come as far as the serial replay: up to the last record that the session thread has replayed itself
it had `store1`, and since then it has replayed records of the units. -/
structure Agrees (R : Replayer μ κ) (K : Set IdEle) (store₀ : Store) (log : List (LogRecord μ κ))
    (s : ParallelReplay μ κ bitSize w) (P1 P2 E1 E2 : List (Entry (Record μ κ) (2 ^ bitSize))) (store1 : Store) :
    Prop where
  progress : s.bucket.Progress P1 P2 E1 E2
  failed : s.failed = false
  before : P1.foldlM R.execEntry store₀ = some store1
  since : E2.foldlM R.execEntry store1 = some s.store
  ids : store1.IdsIn K
  placed : ∀ e ∈ P2, ∃ u, e.unitID = some u ∧ Placed R store1.frames K u e.data
  homes : ∀ e ∈ P1 ++ P2, ∀ u, e.unitID = some u → e.data.Home K u
  log : (P1 ++ P2).map Entry.data ++ s.log.map data = log.map data

/-- The record that the session thread takes is of a collection with the index `$id`, or without unique indexes. -/
def idIndexed (s : ParallelReplay μ κ bitSize w) : ReplayAction w → Bool
  | .session =>
    match s.log with
    | [] => true
    | r :: _ => s.store.idIndexed r.data
  | _ => true

section Agrees

variable {R : Replayer μ κ} {K : Set IdEle} {store₀ storeN store1 : Store} {log : List (LogRecord μ κ)}
  {s : ParallelReplay μ κ bitSize w} {P1 P2 E1 E2 : List (Entry (Record μ κ) (2 ^ bitSize))}

theorem Agrees.congr (h : Agrees R K store₀ log s P1 P2 E1 E2 store1)
    {B : BucketSystem (Record μ κ) (2 ^ bitSize) w} (hB : B.Progress P1 P2 E1 E2) :
    Agrees R K store₀ log { s with bucket := B } P1 P2 E1 E2 store1 :=
  { h with progress := hB }

variable (hK : HashAgrees bitSize K)
include hK

theorem placed_keeps {M : Name → Option Collection} (s : Store) (e : Entry (Record μ κ) (2 ^ bitSize)) (t : Store)
    (hs : s.Over M K) (he : ∃ u, e.unitID = some u ∧ Placed R M K u e.data) (ht : R.execEntry s e = some t) :
    t.Over M K := by
  obtain ⟨u, -, hp⟩ := he
  exact hp.keeps hK hs ht

theorem foldlM_eq_of_units {M : Name → Option Collection} {l l' : List (Entry (Record μ κ) (2 ^ bitSize))}
    (hl : ∀ e ∈ l', ∃ u, e.unitID = some u ∧ Placed R M K u e.data)
    (heq : ∀ c, (l.filter fun e => e.unitID = c) = l'.filter fun e => e.unitID = c) {s : Store} (hs : s.Over M K) :
    l.foldlM R.execEntry s = l'.foldlM R.execEntry s := by
  refine foldlM_eq_of_filter_eq (I := Store.Over M K) (placed_keeps hK) ?_ hl heq hs
  rintro t e e' ht ⟨u, hu, he⟩ ⟨v, hv, he'⟩ hne
  rw [hu, hv, ne_eq, some.injEq] at hne
  exact he.commuteAt hK he' hne ht

namespace Agrees

variable (h : Agrees R K store₀ log s P1 P2 E1 E2 store1)
include h

omit hK in
theorem over₁ : store1.Over store1.frames K := ⟨fun _ => rfl, h.ids⟩

theorem store_over : s.store.Over store1.frames K := by
  refine foldlM_keeps (placed_keeps hK) (fun e he => h.placed e ?_) h.over₁ h.since
  exact h.progress.mem_of_effect (Nat.two_pow_pos _) he

variable (hserial : (log.map data).foldlM R.exec store₀ = some storeN)
include hserial

omit hK in
theorem serial : ∃ t, P2.foldlM R.execEntry store1 = some t ∧ (s.log.map data).foldlM R.exec t = some storeN := by
  rw [← h.log] at hserial
  obtain ⟨t, ht, hr⟩ := exists_foldlM_of_append hserial
  rw [← Replayer.foldlM_execEntry, foldlM_append, h.before] at ht
  exact ⟨t, ht, hr⟩

theorem of_empty (hz : s.bucket.bucket.totalCount = 0) :
    P2.foldlM R.execEntry store1 = some s.store ∧ (s.log.map data).foldlM R.exec s.store = some storeN := by
  have heq := foldlM_eq_of_units hK h.placed (h.progress.complete (Nat.two_pow_pos _) hz) h.over₁
  obtain ⟨t, ht, hr⟩ := h.serial hserial
  have hst : t = s.store := some.inj (ht.symm.trans (heq.symm.trans h.since))
  exact ⟨hst ▸ ht, hst ▸ hr⟩

theorem exec_held {i : Fin w} {u : Fin (2 ^ bitSize)} {e : Entry (Record μ κ) (2 ^ bitSize)}
    (hi : s.bucket.workers i = .holds u e) : ∃ t, R.exec s.store e.data = some t := by
  -- with this record replayed as well, what has been replayed still has a completion
  have hn := h.progress.replay hi
  have heq := foldlM_eq_of_units hK h.placed (hn.completion (Nat.two_pow_pos _)) h.over₁
  obtain ⟨t, ht, -⟩ := h.serial hserial
  rw [ht] at heq
  obtain ⟨r, hr, -⟩ := exists_foldlM_of_append heq
  obtain ⟨r', hr', hl⟩ := exists_foldlM_of_append hr
  obtain rfl := some.inj (h.since.symm.trans hr')
  rw [foldlM_cons] at hl
  obtain ⟨q, hq, -⟩ := bind_eq_some_iff.1 hl
  exact ⟨q, hq⟩

theorem replay (i : Fin w) : ∃ P1 P2 E1 E2 store1, Agrees R K store₀ log (s.replay R i) P1 P2 E1 E2 store1 := by
  unfold ParallelReplay.replay
  split
  · rename_i u e hi
    obtain ⟨t, ht⟩ := h.exec_held hK hserial hi
    have hs : s.bucket.bucket.status ≠ .rollbacking := by rw [h.progress.smooth.status]; decide
    have hstep : s.bucket.step (.replay i fun _ => .ok) = s.bucket.replay i u e .ok := by
      simp only [BucketSystem.step, BucketSystem.workerStep, hi, if_neg hs]
    rw [Replayer.replay_of_exec ht]
    simp only [hstep]
    refine ⟨P1, P2, E1, E2 ++ [e], store1, { h with progress := h.progress.replay hi, failed := rfl, since := ?_ }⟩
    rw [foldlM_append, h.since]
    change (R.execEntry s.store e).bind _ = _
    rw [Replayer.execEntry, ht]
    rfl
  · exact ⟨P1, P2, E1, E2, store1, h⟩

variable (hids : ∀ r ∈ log, ∀ i ∈ r.data.ids, i ∈ K) (hnamed : ∀ r ∈ log, r.data.WellNamed R)
include hids hnamed

theorem session (hi : s.idIndexed .session) :
    ∃ P1 P2 E1 E2 store1, Agrees R K store₀ log (s.session R) P1 P2 E1 E2 store1 := by
  unfold ParallelReplay.session
  split
  · exact ⟨P1, P2, E1, E2, store1, h⟩
  · rename_i r rest hl
    have hindexed' : s.store.idIndexed r.data := by
      rw [idIndexed, hl] at hi
      exact hi
    have hm : r.data ∈ log.map data := by
      rw [← h.log, hl]
      exact mem_append_right _ mem_cons_self
    obtain ⟨r', hr', hd⟩ := mem_map.1 hm
    have hidsr : ∀ i ∈ r.data.ids, i ∈ K := hd ▸ hids r' hr'
    have hn : r.data.WellNamed R := hd ▸ hnamed r' hr'
    split
    · rename_i u hu
      split
      · rename_i hready
        obtain ⟨hf, hrec⟩ := Bool.and_eq_true_iff.1 hready
        have hs : s.bucket.step (.push u r.version r.length r.data) = s.bucket.push u r.version r.length r.data := by
          simp only [BucketSystem.step, hf, hrec, and_self, if_true]
        have hp := placed_of_bucketID (h.store_over hK) hu hidsr hn hindexed'
        rw [hs]
        refine ⟨P1, P2 ++ [s.bucket.nextEntry (some u) r.version r.length r.data], E1, E2, store1,
          { h with progress := h.progress.push hrec r.data, placed := ?_, homes := ?_, log := ?_ }⟩
        · exact forall_mem_append.2 ⟨h.placed, forall_mem_singleton.2 ⟨u, rfl, hp⟩⟩
        · rw [← append_assoc]
          exact forall_mem_append.2 ⟨h.homes, forall_mem_singleton.2 fun v hv => some.inj hv ▸ hp.home hK⟩
        · rw [← h.log, hl]
          simp only [map_append, map_cons, append_assoc]
          rfl
      · exact ⟨P1, P2, E1, E2, store1, h⟩
    · rename_i hu
      split
      · rename_i hdrained
        simp only [BucketSystem.drained, BucketSystem.ready, Bool.and_eq_true, Bool.or_eq_true,
          decide_eq_true_eq] at hdrained
        obtain ⟨⟨⟨⟨hf, hrec⟩, he⟩, ha⟩, hc⟩ := hdrained
        have hcmp' : ¬ (¬ s.bucket.bucket.expectLSN.invalid = true ∧
            s.bucket.bucket.expectLSN.compareOffset s.bucket.next ≠ .eq) := fun hno => hc.elim hno.1 hno.2
        have hstatus : s.bucket.bucket.status ≠ .waitRollback := by rw [h.progress.smooth.status]; decide
        have hs : s.bucket.step (.barrier r.version r.length r.data .ok) =
            s.bucket.barrier r.version r.length r.data .ok := by
          simp only [BucketSystem.step, hf, hrec, he, ha, hstatus, ne_eq, not_false_eq_true, and_self, if_true]
        obtain ⟨hP2, hr⟩ := h.of_empty hK hserial (h.progress.smooth.normal.units.empty he)
        rw [hl, map_cons, foldlM_cons] at hr
        obtain ⟨t, ht, -⟩ := bind_eq_some_iff.1 hr
        rw [Replayer.replay_of_exec ht]
        simp only [hs]
        refine ⟨_, [], _, [], t,
          { progress := h.progress.barrier hrec he hcmp' r.data (Nat.two_pow_pos _)
            failed := rfl
            before := ?_
            since := rfl
            ids := Replayer.exec_idsIn (h.store_over hK).ids hidsr hn ht
            placed := fun _ he => by cases he
            homes := ?_
            log := ?_ }⟩
        · rw [foldlM_append, foldlM_append, h.before]
          change (P2.foldlM R.execEntry store1).bind _ = _
          rw [hP2]
          change (R.execEntry s.store _).bind _ = _
          rw [Replayer.execEntry]
          change (R.exec s.store r.data).bind _ = _
          rw [ht]
          rfl
        · rw [append_nil]
          exact forall_mem_append.2 ⟨h.homes, forall_mem_singleton.2 fun _ hu => by cases hu⟩
        · rw [← h.log, hl]
          simp only [map_append, map_cons, append_assoc]
          rfl
      · exact ⟨P1, P2, E1, E2, store1, h⟩

theorem step {a : ReplayAction w} (ha : s.idIndexed a) :
    ∃ P1 P2 E1 E2 store1, Agrees R K store₀ log (s.step R a) P1 P2 E1 E2 store1 := by
  have hs := h.progress.smooth
  -- a step of the bucket that replays nothing and takes no record of the log
  have hq : ∀ {B : BucketSystem (Record μ κ) (2 ^ bitSize) w}, B.Smooth → B.history = s.bucket.history →
      ∃ P1 P2 E1 E2 store1, Agrees R K store₀ log { s with bucket := B } P1 P2 E1 E2 store1 := fun hB heq =>
    ⟨P1, P2, E1, E2, store1, h.congr (h.progress.congr hB (by rw [heq]) (by rw [heq]) (by rw [heq]))⟩
  have hw : ∀ (i : Fin w) {x : BucketAction (Record μ κ) (2 ^ bitSize) w}, (∀ j results, x ≠ .replay j results) →
      ∃ P1 P2 E1 E2 store1, Agrees R K store₀ log
        { s with bucket := s.bucket.workerStep i x (s.bucket.workers i) } P1 P2 E1 E2 store1 := by
    intro i x hx
    obtain ⟨hB, hp, he, happlied⟩ := hs.workerStep i hx
    exact ⟨P1, P2, E1, E2, store1, h.congr (h.progress.congr hB hp he happlied)⟩
  unfold ParallelReplay.step
  rw [if_neg (by rw [h.failed]; exact Bool.false_ne_true)]
  cases a with
  | session => exact h.session hK hserial hids hnamed ha
  | wait =>
    simp only [BucketSystem.step]
    split
    · exact hq (hs.setSession rfl (by simp)) rfl
    · exact hq hs rfl
  | proceed => exact hq hs.proceed.1 hs.proceed.2
  | replay i => exact h.replay hK hserial i
  | beginUnit i | popData i | submit i | endUnit i | signal i => exact hw i (by simp)

end Agrees

end Agrees

section Example

def cs : Name := [0x63]

-- for the numerals of the runs below
local instance neZero_replay : NeZero 2 := ⟨two_ne_zero⟩

end Example

end ParallelReplay

end SequoiaDB.Cls

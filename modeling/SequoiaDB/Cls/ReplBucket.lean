import SequoiaDB.Dps.LogMgr
import SequoiaDB.Lib.Run

/-!
# The replay bucket

A replica replays the records of its log on several threads.  The session thread puts each record into one of the units
of `_clsBucket`, or replays it itself when the bucket is empty; the worker threads take over units and replay the
records of a unit one after the other.  The records that have been replayed are merged into `_expectLSN`, the point up
to which the log has been replayed; those behind a record that is still missing wait in `_completeMap`.  When a replay
fails the workers throw away what they find, and the session thread lets them undo the records of `_completeMap`.

A step is what a thread does under one latch: `_pushData`, `beginUnit`, `popData`, the two halves of `endUnit` and the
result of a replay.  The replay itself is a step of its own, so that any other step can come between a replay and its
result.  The counters of a record are changed together with its result.

The structure `History` records what has happened for the statements; no function of the bucket reads it.
-/

namespace SequoiaDB.Cls

open Dps Function

inductive BucketStatus
  | closed
  | normal
  | waitRollback
  | rollbacking
  deriving DecidableEq, Repr

/-- A log record and the unit it goes to; a record without unit is replayed by the session thread alone. -/
structure Entry (δ : Type*) (b : Nat) where
  lsn : Nat
  version : Nat
  length : Nat
  unitID : Option (Fin b)
  data : δ

structure BucketUnit (δ : Type*) (b : Nat) where
  queue : List (Entry δ b)
  attached : Bool
  inQue : Bool

/-- `_clsBucket`; `_completeMap` is the list of its entries in the order of their offsets. -/
structure Bucket (δ : Type*) (b : Nat) where
  status : BucketStatus
  submitRC : Rc
  expectLSN : Lsn
  completeMap : List (Entry δ b)
  ntyQueue : List (Fin b)
  units : Fin b → BucketUnit δ b
  totalCount : Int
  allCount : Int
  emptyEvent : Bool
  allEmptyEvent : Bool

variable {δ : Type*} {b w : Nat}

namespace Bucket

variable (B : Bucket δ b) (u : Fin b) (e : Entry δ b)

def setUnit (x : BucketUnit δ b) : Bucket δ b := { B with units := update B.units u x }

def pushUnit (incAllCount : Bool) : Bucket δ b :=
  let x := B.units u
  let notify := !x.attached && !x.inQue
  { B.setUnit u { x with queue := x.queue ++ [e], inQue := x.inQue || notify } with
    totalCount := B.totalCount + 1
    emptyEvent := false
    allCount := if incAllCount then B.allCount + 1 else B.allCount
    allEmptyEvent := if incAllCount then false else B.allEmptyEvent
    ntyQueue := if notify then B.ntyQueue ++ [u] else B.ntyQueue }

def ensureExpect (expectLsn : Lsn) : Bucket δ b :=
  if B.expectLSN.offset = DPS_INVALID_LSN_OFFSET then { B with expectLSN := expectLsn } else B

def pushData (expectLsn : Lsn) : Rc × Bucket δ b :=
  let B := B.ensureExpect expectLsn
  if B.status ≠ .normal then (if B.submitRC = .ok then .clsReplayLogFailed else B.submitRC, B)
  else (.ok, B.pushUnit u e true)

def popLoop : List (Entry δ b) → Bucket δ b → Option (Entry δ b) × Bucket δ b
  | [], B => (none, B.setUnit u { B.units u with queue := [] })
  | e :: queue, B =>
    if B.status = .waitRollback then
      popLoop queue { B with totalCount := B.totalCount - 1, allCount := B.allCount - 1 }
    else (some e, B.setUnit u { B.units u with queue := queue })

def popData : Option (Entry δ b) × Bucket δ b := popLoop u (B.units u).queue B

/-- `beginUnit()` with the first unit of the queue, which the worker may find taken. -/
def beginUnit (queue : List (Fin b)) : Bool × Bucket δ b :=
  if (B.units u).attached then (false, { B with ntyQueue := queue })
  else (true, { B.setUnit u { B.units u with attached := true, inQue := false } with ntyQueue := queue })

def endUnit : Bucket δ b :=
  if (B.units u).queue = [] then B.setUnit u { B.units u with attached := false }
  else { B.setUnit u { B.units u with attached := false, inQue := true } with ntyQueue := B.ntyQueue ++ [u] }

def signal : Bucket δ b :=
  { B with
    emptyEvent := B.emptyEvent || B.totalCount = 0
    allEmptyEvent := B.allEmptyEvent || B.allCount = 0 }

def insertComplete : List (Entry δ b) → List (Entry δ b)
  | [] => [e]
  | c :: cs => if e.lsn < c.lsn then e :: c :: cs else if c.lsn < e.lsn then c :: insertComplete cs else c :: cs

def behind (x : Lsn) (e : Entry δ b) : Lsn := ⟨x.offset + e.length, e.version⟩

/-- The loop of `_submitResult()` over `_completeMap`: the expected LSN and the entries that stay. -/
def mergeLoop : List (Entry δ b) → Lsn → Lsn × List (Entry δ b)
  | [], x => (x, [])
  | c :: cs, x =>
    if x.compareOffset c.lsn ≠ .lt then mergeLoop cs (if x.compareOffset c.lsn = .eq then behind x c else x)
    else (x, c :: cs)

def submitResult : Bucket δ b :=
  if B.expectLSN.compareOffset e.lsn ≠ .lt then
    let expectLSN := if B.expectLSN.compareOffset e.lsn = .eq then behind B.expectLSN e else B.expectLSN
    let r := mergeLoop B.completeMap expectLSN
    { B with
      expectLSN := r.1
      completeMap := r.2
      allCount := B.allCount - (B.completeMap.length - r.2.length : Nat) - 1 }
  else if (B.completeMap.any fun c => c.lsn = e.lsn) then { B with allCount := B.allCount - 1 }
  else { B with completeMap := insertComplete e B.completeMap }

def submitReplay (rc : Rc) : Bucket δ b :=
  let B :=
    if rc ≠ .ok then
      let B := if B.status ≠ .waitRollback then { B with status := .waitRollback, submitRC := rc } else B
      { B with allCount := B.allCount - 1 }
    else B.submitResult e
  { B with totalCount := B.totalCount - 1 }

def submitRollback : Bucket δ b :=
  { B with allCount := B.allCount - 1, totalCount := B.totalCount - 1 }

def CLS_REPL_MAX_ROLLBACK_TIMES : Nat := 10

/-- The loop of `submitData()` around `rollback`, with the number of calls that are left when the next one fails;
`results` are what the calls return. -/
def rollbackLoop (results : Nat → Rc) (retryTimes : Nat) : Nat → Rc
  | 0 => results retryTimes
  | left + 1 =>
    if results retryTimes = .oom ∨ results retryTimes = .noSpc then rollbackLoop results (retryTimes + 1) left
    else results retryTimes

def rollbackResult (results : Nat → Rc) : Rc := rollbackLoop results 0 (CLS_REPL_MAX_ROLLBACK_TIMES - 1)

end Bucket

inductive Worker (δ : Type*) (b : Nat)
  | out
  | inside (u : Fin b)
  | holds (u : Fin b) (e : Entry δ b)
  | replayed (u : Fin b) (e : Entry δ b) (rc : Rc)
  /-- It has given the unit back, and has not looked at the counters. -/
  | leaving

inductive Session (δ : Type*) (b : Nat)
  | ready
  /-- In `waitEmptyAndRollback`, before the first wait. -/
  | waiting
  /-- Nothing has failed; it waits for `_allEmptyEvent`. -/
  | waitingAll
  /-- In `_doRollback`, with the entries of `_completeMap` still to be put into the units. -/
  | pushing (rest : List (Entry δ b))
  /-- It waits until all entries are undone. -/
  | undoing
  /-- `waitEmptyAndRollback` has returned after a failure. -/
  | failed

/-- What has happened.

* `pushed`: the records of the log given to the bucket, and `batch`: the ones put into the units since the bucket was
  last turned around;
* `seen`: the records taken from each unit;
* `pending`, `good`, `applied`: the records that are in the units or with a worker, whose replay has succeeded and has
  been submitted, and that have been replayed and not undone (by their LSN);
* `effect`: the records in the order in which they have been replayed, without the ones undone since;
* `undone`: the records undone in the last rollback, and `toUndo`: the ones that `_completeMap` had before it;
* `handed`: the records handed to workers. -/
structure History (δ : Type*) (b w : Nat) where
  pushed : List (Entry δ b)
  batch : List (Entry δ b)
  seen : Fin b → List (Entry δ b)
  pending : Nat → Bool
  good : Nat → Bool
  applied : Nat → Bool
  effect : List (Entry δ b)
  undone : List (Entry δ b)
  toUndo : List (Entry δ b)
  handed : List (Fin w × Entry δ b)

/-- The bucket, its workers and the session thread; the log begins at `base`. -/
structure BucketSystem (δ : Type*) (b w : Nat) where
  bucket : Bucket δ b
  workers : Fin w → Worker δ b
  session : Session δ b
  base : Lsn
  history : History δ b w

inductive BucketAction (δ : Type*) (b w : Nat)
  | push (u : Fin b) (version length : Nat) (data : δ)
  /-- The session thread replays the next record of the log, when the bucket is empty. -/
  | barrier (version length : Nat) (data : δ) (rc : Rc)
  | wait
  | proceed
  | beginUnit (i : Fin w)
  | popData (i : Fin w)
  /-- The worker calls `replay`, or `rollback` until it stops to fail; `results` are what the calls return. -/
  | replay (i : Fin w) (results : Nat → Rc)
  | submit (i : Fin w)
  | endUnit (i : Fin w)
  | signal (i : Fin w)

def Entry.touches (u : Fin b) (e : Entry δ b) : Bool := e.unitID = none || e.unitID = some u

def endOf (start : Nat) (l : List (Entry δ b)) : Nat := start + (l.map (·.length)).sum

namespace BucketSystem

variable (s : BucketSystem δ b w)

def next : Nat := endOf s.base.offset s.history.pushed

def expectLsn : Lsn := ⟨s.next, (s.history.pushed.getLast?.map (·.version)).getD s.base.version⟩

def start (base : Lsn) : BucketSystem δ b w where
  bucket :=
    { status := .normal, submitRC := .ok, expectLSN := Lsn.none DPS_INVALID_LSN_VERSION, completeMap := [],
      ntyQueue := [], units := fun _ => ⟨[], false, false⟩, totalCount := 0, allCount := 0,
      emptyEvent := true, allEmptyEvent := true }
  workers _ := .out
  session := .ready
  base := base
  history :=
    { pushed := [], batch := [], seen := fun _ => [], pending := fun _ => false, good := fun _ => false,
      applied := fun _ => false, effect := [], undone := [], toUndo := [], handed := [] }

def setWorker (i : Fin w) (x : Worker δ b) : BucketSystem δ b w :=
  { s with workers := update s.workers i x }

def isRecord (version length : Nat) : Bool :=
  version ≠ DPS_INVALID_LSN_VERSION && 0 < length && s.next + length < DPS_INVALID_LSN_OFFSET

def push (u : Fin b) (version length : Nat) (data : δ) : BucketSystem δ b w :=
  let e : Entry δ b := ⟨s.next, version, length, some u, data⟩
  let r := s.bucket.pushData u e s.expectLsn
  if r.1 = .ok then
    { s with
      bucket := r.2
      session := .ready
      history :=
        { s.history with
          pushed := s.history.pushed ++ [e]
          batch := s.history.batch ++ [e]
          pending := update s.history.pending e.lsn true
          good := update s.history.good e.lsn false
          applied := update s.history.applied e.lsn false } }
  else { s with bucket := r.2 }

/-- `replayByBucket` for a record without unit, after `waitEmptyWithCheck` has returned `SDB_OK`. -/
def barrier (version length : Nat) (data : δ) (rc : Rc) : BucketSystem δ b w :=
  let e : Entry δ b := ⟨s.next, version, length, none, data⟩
  if ¬ s.bucket.expectLSN.invalid ∧ s.bucket.expectLSN.compareOffset e.lsn ≠ .eq then s
  else if rc ≠ .ok then s
  else
    { s with
      bucket :=
        if s.bucket.expectLSN.invalid then s.bucket
        else { s.bucket with expectLSN := Bucket.behind s.bucket.expectLSN e }
      session := .ready
      history :=
        { s.history with
          pushed := s.history.pushed ++ [e]
          batch := s.history.batch ++ [e]
          seen := fun u => s.history.seen u ++ [e]
          pending := update s.history.pending e.lsn false
          good := update s.history.good e.lsn true
          applied := update s.history.applied e.lsn true
          effect := s.history.effect ++ [e] } }

def startRollback : BucketSystem δ b w :=
  { s with
    bucket := { s.bucket with status := .rollbacking }
    session := .pushing s.bucket.completeMap.reverse
    history :=
      { s.history with
        batch := []
        seen := fun _ => []
        handed := []
        undone := []
        toUndo := s.bucket.completeMap } }

def pushBack (u : Fin b) (e : Entry δ b) (rest : List (Entry δ b)) : BucketSystem δ b w :=
  { s with
    bucket := s.bucket.pushUnit u e false
    session := .pushing rest
    history :=
      { s.history with
        batch := s.history.batch ++ [e]
        pending := update s.history.pending e.lsn true } }

/-- `waitEmptyAndRollback` returns after a failure: what was pushed is what has been merged. -/
def finishRollback : BucketSystem δ b w :=
  let merged := s.history.pushed.takeWhile fun e => e.lsn < s.bucket.expectLSN.offset
  { s with
    bucket := { s.bucket with status := .normal, submitRC := .ok }
    session := .failed
    history :=
      { s.history with
        pushed := merged
        batch := merged
        seen := fun u => merged.filter (Entry.touches u)
        handed := [] } }

def proceed : BucketSystem δ b w :=
  match s.session with
  | .waiting =>
    if s.bucket.emptyEvent then
      if s.bucket.status = .waitRollback then s.startRollback else { s with session := .waitingAll }
    else s
  | .waitingAll => if s.bucket.allEmptyEvent then { s with session := .ready } else s
  | .pushing (e :: rest) =>
    match e.unitID with
    | some u => s.pushBack u e rest
    | none => { s with session := .pushing rest }
  | .pushing [] => { s with bucket := { s.bucket with completeMap := [] }, session := .undoing }
  | .undoing => if s.bucket.emptyEvent then s.finishRollback else s
  | .ready | .failed => s

def popData (i : Fin w) (u : Fin b) : BucketSystem δ b w :=
  let r := s.bucket.popData u
  match r.1 with
  | some e =>
    { s.setWorker i (.holds u e) with
      bucket := r.2
      history :=
        { s.history with
          seen := update s.history.seen u (s.history.seen u ++ [e])
          handed := s.history.handed ++ [(i, e)] } }
  | none =>
    let dropped := (s.bucket.units u).queue
    { s with
      bucket := r.2
      history :=
        { s.history with
          seen := update s.history.seen u (s.history.seen u ++ dropped)
          pending := dropped.foldl (fun p e => update p e.lsn false) s.history.pending } }

def replay (i : Fin w) (u : Fin b) (e : Entry δ b) (rc : Rc) : BucketSystem δ b w :=
  if rc = .ok then
    { s.setWorker i (.replayed u e rc) with
      history :=
        { s.history with
          applied := update s.history.applied e.lsn true
          effect := s.history.effect ++ [e] } }
  else s.setWorker i (.replayed u e rc)

def submit (i : Fin w) (u : Fin b) (e : Entry δ b) (rc : Rc) : BucketSystem δ b w :=
  { s.setWorker i (.inside u) with
    bucket := s.bucket.submitReplay e rc
    history :=
      { s.history with
        pending := update s.history.pending e.lsn false
        good := if rc = .ok then update s.history.good e.lsn true else s.history.good } }

def undo (i : Fin w) (u : Fin b) (e : Entry δ b) (rc : Rc) : BucketSystem δ b w :=
  { s.setWorker i (.inside u) with
    bucket := s.bucket.submitRollback
    history :=
      if rc = .ok then
        { s.history with
          pending := update s.history.pending e.lsn false
          good := update s.history.good e.lsn false
          applied := update s.history.applied e.lsn false
          effect := s.history.effect.filter fun x => x.lsn ≠ e.lsn
          undone := s.history.undone ++ [e] }
      else { s.history with pending := update s.history.pending e.lsn false } }

def workerStep (i : Fin w) : BucketAction δ b w → Worker δ b → BucketSystem δ b w
  | .beginUnit _, .out =>
    match s.bucket.ntyQueue with
    | [] => s
    | u :: queue =>
      let r := s.bucket.beginUnit u queue
      if r.1 then { s.setWorker i (.inside u) with bucket := r.2 } else { s with bucket := r.2 }
  | .popData _, .inside u => s.popData i u
  | .replay _ results, .holds u e =>
    if s.bucket.status = .rollbacking then s.undo i u e (Bucket.rollbackResult results) else s.replay i u e (results 0)
  | .submit _, .replayed u e rc => s.submit i u e rc
  | .endUnit _, .inside u => { s.setWorker i .leaving with bucket := s.bucket.endUnit u }
  | .signal _, .leaving => { s.setWorker i .out with bucket := s.bucket.signal }
  | _, _ => s

def free : Bool :=
  match s.session with
  | .ready | .failed => true
  | _ => false

def step (s : BucketSystem δ b w) (a : BucketAction δ b w) : BucketSystem δ b w :=
  match a with
  | .push u version length data => if s.free ∧ s.isRecord version length then s.push u version length data else s
  | .barrier version length data rc =>
    if s.free ∧ s.isRecord version length ∧ s.bucket.emptyEvent ∧ s.bucket.status ≠ .waitRollback ∧
      s.bucket.allEmptyEvent then s.barrier version length data rc
    else s
  | .wait => if s.free then { s with session := .waiting } else s
  | .proceed => s.proceed
  | .beginUnit i | .popData i | .replay i _ | .submit i | .endUnit i | .signal i => s.workerStep i a (s.workers i)

end BucketSystem

end SequoiaDB.Cls

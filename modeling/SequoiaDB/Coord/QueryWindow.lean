import SequoiaDB.Lib.Run

/-!
# Skip and limit of a query on several groups

The coordinator divides the skip and the limit of a query between the message that it sends and its own context.  One group
does both itself; of several groups each returns as many records as both together need, and the context, which merges the
sorted streams, does the rest.  The next attempt may go to another number of groups, and then the numbers are moved back.
An update that needs another hint is sent from a buffer of its own, and a query that modifies is refused on several groups
if skip or limit are left.
-/

namespace SequoiaDB.Coord

open Lib

/-- `numToSkip` and `numToReturn`; a negative number to return means all records. -/
structure Window where
  skip : Int
  limit : Int

def int64 (x : Int) : Int := (x + 2 ^ 63) % 2 ^ 64 - 2 ^ 63

variable {α : Type*}

def Window.apply (w : Window) (l : List α) : List α :=
  if w.limit < 0 then l.drop w.skip.toNat else (l.drop w.skip.toNat).take w.limit.toNat

def mergeAll (le : α → α → Bool) (streams : List (List α)) : List α := streams.foldr (fun l m => l.merge m le) []

def optimizeReturnOptions (ctx msg : Window) (targetGroupNum : Nat) : Window × Window :=
  if targetGroupNum ≤ 1 then
    if 0 < ctx.skip then
      (⟨0, ctx.limit⟩, ⟨ctx.skip,
        if 0 < ctx.limit ∧ msg.limit = int64 (ctx.limit + ctx.skip) then int64 (msg.limit - ctx.skip) else msg.limit⟩)
    else (ctx, msg)
  else if 0 < msg.skip then
    if 0 < msg.limit then (msg, ⟨0, int64 (msg.limit + msg.skip)⟩) else (⟨msg.skip, ctx.limit⟩, ⟨0, msg.limit⟩)
  else (ctx, msg)

/-- A message; `modify` is `FLG_QUERY_MODIFY`. -/
structure Message where
  window : Window
  modify : Bool

/-- The context and the two buffers of `doQuery`, and what the message of the last attempt carries if it has been sent. -/
structure Query where
  ctx : Window
  lastMsg : Message
  modifyMsg : Option Message
  sent : Option Window

/-- The hint that the catalog asks for: whether it is another one than before, and whether its updator is empty. -/
structure Hint where
  other : Bool
  isEmpty : Bool

/-- One attempt: whether the catalog changes the hint, the number of groups, and whether the first of them has several
sub-collections. -/
structure Attempt where
  hint : Option Hint
  groups : Nat
  subCLs : Bool

/-- `_checkQueryModify` accepts the message. -/
def checkQueryModify (ctx : Window) (msg : Message) (a : Attempt) : Bool :=
  !(msg.modify && (decide (1 < a.groups) || a.subCLs) &&
    (decide (0 < ctx.limit) || decide (0 < ctx.skip) || decide (0 < msg.window.limit) || decide (0 < msg.window.skip)))

namespace Query

def spread (w : Window) : Int := if 0 < w.limit ∧ 0 < w.skip then int64 (w.limit + w.skip) else w.limit

def start (w : Window) (modify : Bool) : Query := ⟨w, ⟨⟨0, spread w⟩, modify⟩, none, none⟩

/-- The hint is looked at only if the query is an update. -/
def hint (q : Query) (a : Attempt) : Option Hint := if q.lastMsg.modify then a.hint else none

/-- The message of an attempt before its numbers are moved; `_buildNewMsg` copies those of `pLastMsg`. -/
def message (q : Query) (a : Attempt) : Message :=
  match q.hint a with
  | none => q.lastMsg
  | some h =>
    match q.modifyMsg, h.other with
    | some msg, false => msg
    | _, _ => ⟨q.lastMsg.window, q.lastMsg.modify && !h.isEmpty⟩

def attempt (q : Query) (a : Attempt) : Query :=
  let r := optimizeReturnOptions q.ctx (q.message a).window a.groups
  let msg : Message := ⟨r.2, (q.message a).modify⟩
  let sent := if checkQueryModify r.1 msg a then some r.2 else none
  match q.hint a with
  | none => { q with ctx := r.1, lastMsg := msg, sent }
  | some _ => { q with ctx := r.1, modifyMsg := some msg, sent }

/-- What the client gets, if the message has been sent. -/
def result (q : Query) (le : α → α → Bool) (streams : List (List α)) : Option (List α) :=
  q.sent.map fun msg => q.ctx.apply (mergeAll le (streams.map msg.apply))

def Divided (w ctx msg : Window) : Prop :=
  ctx = w ∧ msg = ⟨0, spread w⟩ ∨ 0 < w.skip ∧ ctx = ⟨0, w.limit⟩ ∧ msg = w

/-- The skip is in the context or in the message, or in both. -/
def Ready (w ctx msg : Window) : Prop := Divided w ctx msg ∨ 0 < w.skip ∧ ctx = w ∧ msg = w

/-- The skip and the limit of a query are 64-bit integers, and the skip is not negative. -/
structure Fits (w : Window) : Prop where
  skip : 0 ≤ w.skip ∧ w.skip < 2 ^ 63
  limit : -2 ^ 63 ≤ w.limit ∧ w.limit < 2 ^ 63

variable {w ctx msg : Window} {le : α → α → Bool} {q : Query} {a : Attempt}

theorem Ready.optimize (h : Ready w ctx msg) (hw : Fits w) (n : Nat) :
    Divided w (optimizeReturnOptions ctx msg n).1 (optimizeReturnOptions ctx msg n).2 ∧
      (¬ n ≤ 1 → optimizeReturnOptions ctx msg n = (w, ⟨0, spread w⟩)) := by
  have hbounds := hw.skip
  have hsub : int64 (int64 (w.limit + w.skip) - w.skip) = w.limit := by
    have := hw.limit
    unfold int64
    omega
  have hne : 0 < w.skip → w.limit ≠ int64 (w.limit + w.skip) := by
    have := hw.limit
    unfold int64
    omega
  unfold optimizeReturnOptions
  by_cases hl : 0 < w.limit
  · rcases h with (⟨rfl, rfl⟩ | ⟨hs, rfl, rfl⟩) | ⟨hs, rfl, rfl⟩
    · by_cases hs : 0 < ctx.skip
      · by_cases hn : n ≤ 1 <;> simp [Divided, spread, hn, hs, hl, hsub]
      · by_cases hn : n ≤ 1 <;> simp [Divided, hn, hs]
    · by_cases hn : n ≤ 1 <;> simp [Divided, spread, hn, hs, hl]
    · by_cases hn : n ≤ 1 <;> simp [Divided, spread, hn, hs, hl, hne hs]
  · rcases h with (⟨rfl, rfl⟩ | ⟨hs, rfl, rfl⟩) | ⟨hs, rfl, rfl⟩
    · by_cases hs : 0 < ctx.skip
      · by_cases hn : n ≤ 1 <;> simp [Divided, spread, hn, hs, hl]
      · by_cases hn : n ≤ 1 <;> simp [Divided, hn, hs]
    · by_cases hn : n ≤ 1 <;> simp [Divided, spread, hn, hs, hl]
    · by_cases hn : n ≤ 1 <;> simp [Divided, spread, hn, hs, hl]

theorem take_merge (xs ys : List α) {n i j : Nat} (hi : n ≤ i) (hj : n ≤ j) :
    ((xs.take i).merge (ys.take j) le).take n = (xs.merge ys le).take n := by
  induction n generalizing xs ys i j with
  | zero => rfl
  | succ n ih =>
    obtain ⟨i, rfl⟩ : ∃ k, i = k + 1 := ⟨i - 1, by omega⟩
    obtain ⟨j, rfl⟩ : ∃ k, j = k + 1 := ⟨j - 1, by omega⟩
    rcases xs with _ | ⟨x, xs⟩
    · simp only [List.take_nil, List.nil_merge, List.take_take, Nat.min_eq_left hj]
    · rcases ys with _ | ⟨y, ys⟩
      · simp only [List.take_nil, List.merge_right, List.take_take, Nat.min_eq_left hi]
      · have hx := ih xs (y :: ys) (i := i) (j := j + 1) (by omega) (by omega)
        have hy := ih (x :: xs) ys (i := i + 1) (j := j) (by omega) (by omega)
        simp only [List.take_succ_cons, List.cons_merge_cons] at hx hy ⊢
        split_ifs
        · rw [List.take_succ_cons, List.take_succ_cons, hx]
        · rw [List.take_succ_cons, List.take_succ_cons, hy]

theorem take_mergeAll (streams : List (List α)) {n i : Nat} (hi : n ≤ i) :
    (mergeAll le (streams.map (List.take i))).take n = (mergeAll le streams).take n := by
  induction streams with
  | nil => rfl
  | cons xs streams ih =>
    simp only [mergeAll, List.map_cons, List.foldr_cons] at ih ⊢
    rw [← take_merge (xs.take i) _ n.le_refl n.le_refl, ih, List.take_take, Nat.min_eq_left hi,
      take_merge _ _ n.le_refl n.le_refl]

theorem apply_spread (hw : Fits w) (streams : List (List α)) :
    w.apply (mergeAll le (streams.map (Window.mk 0 (spread w)).apply)) = w.apply (mergeAll le streams) := by
  have hs := hw.skip
  have hmax := hw.limit
  by_cases hn : spread w < 0
  · have hid : (Window.mk 0 (spread w)).apply = (id : List α → List α) := funext fun l => if_pos hn
    rw [hid, List.map_id]
  · have ht : (Window.mk 0 (spread w)).apply = (List.take (spread w).toNat : List α → List α) :=
      funext fun l => if_neg hn
    have hl : ¬ w.limit < 0 ∧ (w.limit = 0 ∨ w.skip.toNat + w.limit.toNat ≤ (spread w).toNat) := by
      unfold spread int64 at hn ⊢
      split_ifs at hn ⊢ <;> omega
    simp only [ht, Window.apply, if_neg hl.1]
    rcases hl.2 with h0 | hle
    · simp [h0]
    · rw [List.take_drop, List.take_drop, take_mergeAll streams hle]

theorem Ready.result (h : Ready w ctx msg) (hw : Fits w) (le : α → α → Bool) (streams : List (List α)) :
    (optimizeReturnOptions ctx msg streams.length).1.apply
      (mergeAll le (streams.map (optimizeReturnOptions ctx msg streams.length).2.apply)) = w.apply (mergeAll le streams) := by
  obtain ⟨hd, hm⟩ := h.optimize hw streams.length
  rcases streams with _ | ⟨l, _ | ⟨l', streams⟩⟩
  · simp [mergeAll, Window.apply]
  · rcases hd with ⟨hc, hmsg⟩ | ⟨-, hc, hmsg⟩
    · rw [hc, hmsg]
      exact apply_spread hw [l]
    · rw [hc, hmsg]
      simp only [mergeAll, List.map_cons, List.map_nil, List.foldr_cons, List.foldr_nil, List.merge_right, Window.apply]
      split_ifs <;> simp [List.take_take]
  · rw [hm (by simp)]
    exact apply_spread hw _

/-- A positive skip is still in the context, or in the message of the attempt. -/
def Carries (w : Window) (q : Query) (a : Attempt) : Prop :=
  0 < w.skip → 0 < q.ctx.skip ∨ 0 < (q.message a).window.skip

/-- The context and the buffers, each with or without the skip. -/
structure Inv (w : Window) (q : Query) : Prop where
  ctx : q.ctx = w ∨ 0 < w.skip ∧ q.ctx = ⟨0, w.limit⟩
  lastMsg : q.lastMsg.window = ⟨0, spread w⟩ ∨ 0 < w.skip ∧ q.lastMsg.window = w
  modifyMsg : ∀ msg ∈ q.modifyMsg, msg.window = ⟨0, spread w⟩ ∨ 0 < w.skip ∧ msg.window = w

theorem Inv.message (h : q.Inv w) (a : Attempt) :
    (q.message a).window = ⟨0, spread w⟩ ∨ 0 < w.skip ∧ (q.message a).window = w := by
  unfold Query.message
  split
  · exact h.lastMsg
  · split
    · next heq _ => exact h.modifyMsg _ heq
    · exact h.lastMsg

theorem Inv.ready (h : q.Inv w) (ha : Carries w q a) : Ready w q.ctx (q.message a).window := by
  rcases h.ctx with hc | ⟨hs, hc⟩
  · rcases h.message a with hm | ⟨hs, hm⟩
    · exact .inl (.inl ⟨hc, hm⟩)
    · exact .inr ⟨hs, hc, hm⟩
  · rcases h.message a with hm | ⟨-, hm⟩
    · have := ha hs
      simp [hc, hm] at this
    · exact .inl (.inr ⟨hs, hc, hm⟩)

theorem Inv.attempt (h : q.Inv w) (hw : Fits w) (ha : Carries w q a) : (q.attempt a).Inv w := by
  have hd := ((h.ready ha).optimize hw a.groups).1
  unfold Query.attempt
  generalize optimizeReturnOptions q.ctx (q.message a).window a.groups = r at hd ⊢
  have hctx : r.1 = w ∨ 0 < w.skip ∧ r.1 = ⟨0, w.limit⟩ := hd.imp And.left fun hd => ⟨hd.1, hd.2.1⟩
  have hmsg : r.2 = ⟨0, spread w⟩ ∨ 0 < w.skip ∧ r.2 = w := hd.imp And.right fun hd => ⟨hd.1, hd.2.2⟩
  split
  · exact ⟨hctx, hmsg, h.modifyMsg⟩
  · exact ⟨hctx, h.lastMsg, fun msg hm => Option.mem_some_iff.1 hm ▸ hmsg⟩

theorem attempt_result (q : Query) (a : Attempt) (streams : List (List α)) (r : List α)
    (hr : r ∈ (q.attempt a).result le streams) :
    r = (optimizeReturnOptions q.ctx (q.message a).window a.groups).1.apply (mergeAll le
      (streams.map (optimizeReturnOptions q.ctx (q.message a).window a.groups).2.apply)) := by
  unfold Query.attempt result at hr
  split at hr
  all_goals
    dsimp only at hr
    split_ifs at hr
    · exact (Option.mem_some_iff.1 hr).symm
    · cases hr

/-- **Skip and limit.**  If at every attempt a positive skip is still in the context or in the message, then at every
attempt that is sent, on any number of groups, the client gets what the skip and the limit of the query select from the
merge of the full streams. -/
theorem attempt_selects_window (le : α → α → Bool) {w : Window} (hw : Fits w) (modify : Bool) {as : List Attempt}
    {a : Attempt} (has : Meets (Carries w) attempt (start w modify) as)
    (ha : Carries w (run attempt (start w modify) as) a) (streams : List (List α)) (hlen : streams.length = a.groups) :
    ∀ r ∈ ((run attempt (start w modify) as).attempt a).result le streams, r = w.apply (mergeAll le streams) := by
  have hinv : (run attempt (start w modify) as).Inv w :=
    run_invariant (I := Inv w) (fun _ _ h ha => h.attempt hw ha) ⟨.inl rfl, .inl rfl, by simp [start]⟩ has
  intro r hr
  rw [attempt_result _ _ _ _ hr, ← hlen]
  exact (hinv.ready ha).result hw le streams

/-- An update whose new updator is empty, sent to one group and then to two. -/
theorem attempt_selects_second :
    ((start ⟨1, 1⟩ true).attempt ⟨some ⟨true, true⟩, 1, false⟩ |>.attempt ⟨some ⟨false, true⟩, 2, false⟩).result
      Nat.ble [[1], [2]] = some [2] := by
  have hw : Fits ⟨1, 1⟩ := ⟨by decide, by decide⟩
  have has : Meets (Carries ⟨1, 1⟩) attempt (start ⟨1, 1⟩ true) [⟨some ⟨true, true⟩, 1, false⟩] :=
    ⟨fun _ => .inl Int.one_pos, trivial⟩
  have hsel := attempt_selects_window Nat.ble hw true has (a := ⟨some ⟨false, true⟩, 2, false⟩)
    (fun _ => .inr Int.one_pos) [[1], [2]] rfl
  rw [Option.eq_some_iff_get_eq]
  refine ⟨by decide +kernel, (hsel _ (Option.get_mem _)).trans ?_⟩
  simp [mergeAll, Window.apply]

/-- A message with a new hint goes to one group, the next attempt sends the old message, or builds a new one, for two
groups, and the skip is lost. -/
theorem attempt_loses_skip :
    ((start ⟨1, -1⟩ true).attempt ⟨some ⟨true, false⟩, 1, false⟩ |>.attempt ⟨none, 2, false⟩).result Nat.ble
      [[1], [2]] = some [1, 2] ∧
    ((start ⟨1, -1⟩ true).attempt ⟨some ⟨true, false⟩, 1, false⟩ |>.attempt ⟨some ⟨true, false⟩, 2, false⟩).result Nat.ble
      [[1], [2]] = some [1, 2] ∧
    Window.apply ⟨1, -1⟩ (mergeAll Nat.ble [[1], [2]]) = [2] := by
  simp [start, spread, attempt, message, hint, checkQueryModify, optimizeReturnOptions, result, mergeAll, Window.apply]

end Query

end SequoiaDB.Coord

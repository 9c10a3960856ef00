import SequoiaDB.Lib.Run

/-!
# Updates and deletes over catalog changes

The coordinator sends an update or a delete to the groups that the catalog selects.  A group applies it to its matching
documents, or rejects it because the catalog version of the request is old; then the coordinator fetches the catalog and
sends the request again, but not to the groups of `_sucGroupLst`, which have applied it.  Between two attempts a split may
move documents to another group.
-/

namespace SequoiaDB.Coord

open Lib

/-- The flags of a reply: `SDB_OK` or `SDB_CLS_COORD_NODE_CAT_VER_OLD` -/
inductive ReplyFlags
  | ok
  | catVerOld
  deriving DecidableEq

inductive WriteOp
  | update
  | delete
  deriving DecidableEq

/-- The matching documents and the state of the operation: the groups that the catalog selects for the matcher,
`_sucGroupLst`, and whether the operation has been reported as successful. -/
structure Write (G D : Type*) where
  group : D → G
  applied : D → Nat
  selected : List G
  sucGroupLst : List G
  reported : Bool

inductive WriteAction (G D : Type*)
  | attempt (flags : G → ReplyFlags)
  | split (source target : G) (moves : D → Bool) (selected : List G)

variable {G D : Type*}

def getGroupLst [DecidableEq G] (selected exceptGrpLst : List G) : List G :=
  selected.filter (· ∉ exceptGrpLst)

def doOnGroups (flags : G → ReplyFlags) (sucGroupLst : List G) : List G → List G × List G
  | [] => (sucGroupLst, [])
  | g :: groupLst =>
    if flags g = .ok then doOnGroups flags (sucGroupLst ++ [g]) groupLst
    else
      let r := doOnGroups flags sucGroupLst groupLst
      (r.1, g :: r.2)

theorem doOnGroups_eq (flags : G → ReplyFlags) (suc groupLst : List G) : doOnGroups flags suc groupLst =
    (suc ++ groupLst.filter (flags · = .ok), groupLst.filter (flags · ≠ .ok)) := by
  induction groupLst generalizing suc with
  | nil => simp [doOnGroups]
  | cons g groupLst ih =>
    by_cases hg : flags g = .ok
    · simp [doOnGroups, hg, ih]
    · simp [doOnGroups, hg, ih]

variable [DecidableEq G]

namespace Write

def Present (op : WriteOp) (s : Write G D) (d : D) : Prop := op = .update ∨ s.applied d = 0

instance (op : WriteOp) (s : Write G D) (d : D) : Decidable (s.Present op d) := inferInstanceAs (Decidable (_ ∨ _))

/-- One attempt of `execute`: the operation is reported if `nokRC` is empty, otherwise `checkRetryForCLOpr` fetches the
catalog and asks for a retry. -/
def attempt (op : WriteOp) (s : Write G D) (flags : G → ReplyFlags) : Write G D :=
  let groupLst := getGroupLst s.selected s.sucGroupLst
  let r := doOnGroups flags s.sucGroupLst groupLst
  { s with
    applied := fun d =>
      if s.group d ∈ groupLst ∧ flags (s.group d) = .ok ∧ s.Present op d then s.applied d + 1 else s.applied d
    sucGroupLst := r.1
    reported := r.2.isEmpty }

def split (op : WriteOp) (s : Write G D) (source target : G) (moves : D → Bool) (selected : List G) : Write G D :=
  { s with
    group := fun d => if s.group d = source ∧ moves d ∧ s.Present op d then target else s.group d
    selected }

def step (op : WriteOp) (s : Write G D) (a : WriteAction G D) : Write G D :=
  if s.reported then s
  else match a with
    | .attempt flags => s.attempt op flags
    | .split source target moves selected => s.split op source target moves selected

def Placed (s : Write G D) : Prop := ∀ d, s.group d ∈ s.selected

structure Start (s : Write G D) : Prop where
  placed : s.Placed
  applied : ∀ d, s.applied d = 0
  sucGroupLst : s.sucGroupLst = []
  reported : s.reported = false

/-- The catalog selects the group of every matching document after a split, and the documents that it moves stay on their
side: either both groups have applied the request or none has. -/
def KeepsSides (op : WriteOp) (s : Write G D) : WriteAction G D → Prop
  | .attempt _ => True
  | .split source target moves selected => (s.split op source target moves selected).Placed ∧
      ((∃ d, s.group d = source ∧ moves d = true ∧ s.Present op d) → (source ∈ s.sucGroupLst ↔ target ∈ s.sucGroupLst))

structure Inv (s : Write G D) : Prop where
  placed : s.Placed
  applied : ∀ d, s.applied d = if s.group d ∈ s.sucGroupLst then 1 else 0
  reported : s.reported = true → ∀ d, s.group d ∈ s.sucGroupLst

variable {op : WriteOp} {s : Write G D}

theorem Start.inv (h : s.Start) : s.Inv where
  placed := h.placed
  applied d := by simp [h.applied, h.sucGroupLst]
  reported hr := absurd (h.reported ▸ hr) Bool.false_ne_true

theorem Inv.attempt (h : s.Inv) (flags : G → ReplyFlags) : (s.attempt op flags).Inv where
  placed := h.placed
  applied d := by
    have happ := h.applied d
    have hs := h.placed d
    by_cases hsuc : s.group d ∈ s.sucGroupLst
    · simp_all [Write.attempt, doOnGroups_eq, getGroupLst]
    · by_cases hok : flags (s.group d) = .ok
      · simp_all [Write.attempt, doOnGroups_eq, getGroupLst, Present]
      · simp_all [Write.attempt, doOnGroups_eq, getGroupLst]
  reported hr d := by
    have hs := h.placed d
    simp only [Write.attempt, doOnGroups_eq, getGroupLst, List.isEmpty_iff, List.filter_eq_nil_iff] at hr ⊢
    by_cases hsuc : s.group d ∈ s.sucGroupLst
    · exact List.mem_append_left _ hsuc
    · have hm : s.group d ∈ s.selected.filter (· ∉ s.sucGroupLst) := by simp [hs, hsuc]
      refine List.mem_append_right _ (List.mem_filter.2 ⟨hm, ?_⟩)
      simpa using hr _ hm

theorem Inv.split (h : s.Inv) (hrep : s.reported = false) {source target : G} {moves : D → Bool} {selected : List G}
    (hk : s.KeepsSides op (.split source target moves selected)) : (s.split op source target moves selected).Inv where
  placed := hk.1
  applied d := by
    have hs : (s.split op source target moves selected).group d ∈ s.sucGroupLst ↔ s.group d ∈ s.sucGroupLst := by
      by_cases hm : s.group d = source ∧ moves d = true ∧ s.Present op d
      · simp [Write.split, hm, hk.2 ⟨d, hm⟩]
      · simp [Write.split, hm]
    exact (h.applied d).trans (if_congr hs.symm rfl rfl)
  reported hr := absurd (hrep ▸ hr) Bool.false_ne_true

theorem Inv.step (h : s.Inv) {a : WriteAction G D} (ha : s.KeepsSides op a) : (s.step op a).Inv := by
  unfold Write.step
  split_ifs with hr
  · exact h
  · cases a with
    | attempt flags => exact h.attempt flags
    | split source target moves selected => exact h.split (by simpa using hr) ha

/-- **Updates and deletes over catalog changes.**  In every run in which no split moves a matching document between a group
that has applied the request and one that has not, an operation that is reported as successful has been applied exactly
once to every matching document. -/
theorem reported_write_applied_once (op : WriteOp) {s : Write G D} (hs : s.Start) {as : List (WriteAction G D)}
    (has : Meets (KeepsSides op) (step op) s as) (hrep : (run (step op) s as).reported = true) (d : D) :
    (run (step op) s as).applied d = 1 := by
  have hinv : (run (step op) s as).Inv := run_invariant (I := Inv) (fun _ _ h ha => h.step ha) hs.inv has
  rw [hinv.applied d, if_pos (hinv.reported hrep d)]

def one : Write (Fin 3) Unit := ⟨fun _ => 0, fun _ => 0, [0, 1], [], false⟩

theorem one_start : one.Start := ⟨fun _ => List.mem_cons_self, fun _ => rfl, rfl, rfl⟩

def moved (acks : List (Fin 3)) (target : Fin 3) : List (WriteAction (Fin 3) Unit) :=
  [.attempt fun g => if g ∈ acks then .ok else .catVerOld, .split 0 target (fun _ => true) [0, 1, 2], .attempt fun _ => .ok]

theorem reported_write_after_split : (run (step .update) one (moved [1] 2)).applied () = 1 := by
  have hmeets : Meets (KeepsSides .update) (step .update) one (moved [1] 2) :=
    ⟨trivial, ⟨fun _ => show (2 : Fin 3) ∈ [0, 1, 2] by decide, fun _ => by decide⟩, trivial, trivial⟩
  exact reported_write_applied_once .update one_start hmeets rfl ()

/-- The document moves from a group that has rejected the request to one that has applied it, and is not updated; or the
other way round, and is updated twice.  Both times success is reported. -/
theorem write_lost_or_repeated : one.Start ∧
    ((run (step .update) one (moved [1] 1)).reported = true ∧ (run (step .update) one (moved [1] 1)).applied () = 0) ∧
    (run (step .update) one (moved [0] 1)).reported = true ∧ (run (step .update) one (moved [0] 1)).applied () = 2 :=
  ⟨one_start, ⟨rfl, rfl⟩, rfl, rfl⟩

end Write

end SequoiaDB.Coord

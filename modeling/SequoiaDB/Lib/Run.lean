import Mathlib

/-!
# Runs of a deterministic machine

A machine is a total step function `step : σ → α → σ`.  A run is the left fold of `step` over a list of
actions.  `Meets ok step s as` says that every action of the run satisfies `ok` in the state it is taken in;
`run_invariant` is the induction rule that every run result of the development goes through, and `forall_update` is
the rule for a step that replaces one component of the state.
-/

namespace SequoiaDB.Lib

variable {σ α : Type*}

/-- The state after performing the actions `as` one after the other. -/
def run (step : σ → α → σ) (s : σ) (as : List α) : σ :=
  as.foldl step s

/-- Every action of the run from `s` satisfies `ok` in the state before it. -/
def Meets (ok : σ → α → Prop) (step : σ → α → σ) : σ → List α → Prop
  | _, [] => True
  | s, a :: as => ok s a ∧ Meets ok step (step s a) as

instance Meets.decidable (ok : σ → α → Prop) [∀ s a, Decidable (ok s a)] (step : σ → α → σ) :
    ∀ s as, Decidable (Meets ok step s as)
  | _, [] => isTrue trivial
  | s, a :: as =>
    have := Meets.decidable ok step (step s a) as
    inferInstanceAs (Decidable (ok s a ∧ Meets ok step (step s a) as))

@[simp] theorem run_nil (step : σ → α → σ) (s : σ) : run step s [] = s := rfl

@[simp] theorem run_cons (step : σ → α → σ) (s : σ) (a : α) (as : List α) :
    run step s (a :: as) = run step (step s a) as := rfl

theorem run_append (step : σ → α → σ) (s : σ) (as bs : List α) :
    run step s (as ++ bs) = run step (run step s as) bs :=
  List.foldl_append

variable {step : σ → α → σ} {s : σ} {as : List α}

theorem Meets.of_forall {ok : α → Prop} (h : ∀ a ∈ as, ok a) : Meets (fun _ a => ok a) step s as := by
  induction as generalizing s with
  | nil => trivial
  | cons a as ih => exact ⟨h a List.mem_cons_self, ih fun b hb => h b (List.mem_cons_of_mem _ hb)⟩

theorem run_invariant {ok : σ → α → Prop} {I : σ → Prop} (hs : ∀ s a, I s → ok s a → I (step s a)) (hi : I s)
    (hok : Meets ok step s as) : I (run step s as) := by
  induction as generalizing s with
  | nil => exact hi
  | cons a as ih => exact ih (hs s a hi hok.1) hok.2

theorem forall_update {β : Type*} [DecidableEq α] {P : β → Prop} {f : α → β} (h : ∀ a, P (f a)) {i : α} {x : β}
    (hx : P x) : ∀ a, P (Function.update f i x a) :=
  (Function.forall_update_iff f fun _ => P).2 ⟨hx, fun a _ => h a⟩

end SequoiaDB.Lib

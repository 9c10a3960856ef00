import SequoiaDB.Lib.Run

/-!
# Refinement of an abstract machine

The concrete machine is a function `step : σ → α → ρ × σ` that answers each action with a result; the abstract
one is a relation `astep : τ → α → ρ → τ → Prop`.  `Refines step astep R s t as` says that the concrete run of
`as` from `s` is followed by an abstract run from `t` with the same results, the states being related by `R` all
the way.
-/

namespace SequoiaDB.Lib

variable {σ τ α ρ : Type*}

/-- The run of `as` from `s` is matched, step by step, by an abstract run from `t`. -/
def Refines (step : σ → α → ρ × σ) (astep : τ → α → ρ → τ → Prop) (R : σ → τ → Prop) : σ → τ → List α → Prop
  | s, t, [] => R s t
  | s, t, a :: as => R s t ∧ ∃ t', astep t a (step s a).1 t' ∧ Refines step astep R (step s a).2 t' as

section

variable {step : σ → α → ρ × σ} {astep : τ → α → ρ → τ → Prop} {R : σ → τ → Prop} {ok : σ → α → Prop}
  {I : σ → Prop} {s : σ} {t : τ} {as : List α}

theorem refines_of_step
    (hs : ∀ s t a, I s → ok s a → R s t → I (step s a).2 ∧ ∃ t', astep t a (step s a).1 t' ∧ R (step s a).2 t')
    (hi : I s) (hR : R s t) (hok : Meets ok (fun s a => (step s a).2) s as) : Refines step astep R s t as := by
  induction as generalizing s t with
  | nil => exact hR
  | cons a as ih =>
    obtain ⟨hinv', t', ht', hR'⟩ := hs s t a hi hok.1 hR
    exact ⟨hR, t', ht', ih hinv' hR' hok.2⟩

end

end SequoiaDB.Lib

import Mathlib

/-!
# Readers of a message

A message lies at address 0 of a memory, with anything before and behind it.  A reader runs as a `Trace`: it records what
it touches, and it ends with a value or an error, or it has not ended.
-/

namespace SequoiaDB.Lib

open List

/-- Memory with addresses on both sides of the start of the message. -/
abbrev Space := Int → UInt8

/-- What a reader touches: a field of `n` bytes that it reads as a number, or what it hands out, which is a range of
bytes or a text that ends with a zero byte. -/
inductive Touch
  | field (a n : Int)
  | range (a n : Int)
  | text (a : Int)

/-- A run of a reader; without an outcome it has not ended. -/
@[ext] structure Trace (ε α : Type) where
  touches : List Touch
  outcome : Option (Except ε α)

namespace Trace

variable {ε α β γ : Type}

def bind (t : Trace ε α) (k : α → Trace ε β) : Trace ε β :=
  match t.outcome with
  | some (.ok a) => ⟨t.touches ++ (k a).touches, (k a).outcome⟩
  | some (.error e) => ⟨t.touches, some (.error e)⟩
  | none => ⟨t.touches, none⟩

instance : Monad (Trace ε) where
  pure a := ⟨[], some (.ok a)⟩
  bind := bind

private theorem bind_bind (t : Trace ε α) (f : α → Trace ε β) (g : β → Trace ε γ) :
    bind (bind t f) g = bind t fun a => bind (f a) g := by
  obtain ⟨xs, _ | _ | a⟩ := t
  · rfl
  · rfl
  · simp only [bind]
    obtain ⟨ys, _ | _ | b⟩ := f a
    · rfl
    · rfl
    · exact Trace.ext (append_assoc _ _ _) rfl

private theorem bind_pure_eq (t : Trace ε α) : bind t pure = t := by
  obtain ⟨xs, _ | _ | a⟩ := t
  · rfl
  · rfl
  · exact Trace.ext (append_nil xs) rfl

instance : LawfulMonad (Trace ε) := LawfulMonad.mk' _ bind_pure_eq (fun _ _ => rfl) bind_bind

def fail (e : ε) : Trace ε α := ⟨[], some (.error e)⟩

def running : Trace ε α := ⟨[], none⟩

def touch (x : Touch) : Trace ε Unit := ⟨[x], some (.ok ())⟩

def handOut (xs : List Touch) (a : α) : Trace ε α := ⟨xs, some (.ok a)⟩

end Trace

/-- The length of the text at `a`, looked for in `fuel` bytes. -/
def strlen (s : Space) (a : Int) : Nat → Option Nat
  | 0 => none
  | fuel + 1 => if s a = 0 then some 0 else (strlen s (a + 1) fuel).map (· + 1)

variable {s : Space}

theorem strlen_eq_some {a : Int} {n fuel : Nat} :
    strlen s a fuel = some n ↔ n < fuel ∧ s (a + n) = 0 ∧ ∀ i < n, s (a + (i : Nat)) ≠ 0 := by
  induction fuel generalizing a n with
  | zero => simp [strlen]
  | succ fuel ih =>
    rw [strlen]
    by_cases h0 : s a = 0
    · rw [if_pos h0, Option.some_inj]
      constructor
      · rintro rfl
        exact ⟨by omega, by simpa using h0, by simp⟩
      · rintro ⟨-, -, ha⟩
        by_contra hn
        exact ha 0 (by omega) (by simpa using h0)
    · rw [if_neg h0, Option.map_eq_some_iff]
      have hs (i : Nat) : a + 1 + (i : Int) = a + ((i + 1 : Nat) : Int) := by omega
      constructor
      · rintro ⟨m, hm, rfl⟩
        obtain ⟨hlt, hz, ha⟩ := ih.1 hm
        refine ⟨by omega, by rwa [hs] at hz, fun i hi => ?_⟩
        cases i with
        | zero => simpa using h0
        | succ i =>
          rw [← hs]
          exact ha i (by omega)
      · rintro ⟨hlt, hz, ha⟩
        cases n with
        | zero => exact absurd (by simpa using hz) h0
        | succ m =>
          refine ⟨m, ih.2 ⟨by omega, by rwa [hs], fun i hi => ?_⟩, rfl⟩
          rw [hs]
          exact ha (i + 1) (by omega)

end SequoiaDB.Lib

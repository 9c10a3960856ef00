import Mathlib

/-!
# Queues with positions

A queue whose elements carry strictly increasing positions.  Elements are appended behind all others and removed
from either end, up to a given position.
-/

namespace SequoiaDB.Lib

/-- Elements in the order of their positions. -/
@[ext] structure PosQueue (P α : Type*) [Preorder P] where
  items : List (P × α)
  sorted : items.Pairwise fun x y => x.1 < y.1

namespace PosQueue

variable {P α : Type*} [Preorder P]

def empty : PosQueue P α := ⟨[], List.Pairwise.nil⟩

def append (q : PosQueue P α) (p : P) (a : α) (h : ∀ x ∈ q.items, x.1 < p) : PosQueue P α where
  items := q.items ++ [(p, a)]
  sorted := by
    refine List.pairwise_append.2 ⟨q.sorted, List.pairwise_singleton _ _, ?_⟩
    intro x hx y hy
    rw [List.mem_singleton.1 hy]
    exact h x hx

variable [DecidableLT P]

/-- Remove everything up to position `p`. -/
def popFront (q : PosQueue P α) (p : P) : PosQueue P α :=
  ⟨q.items.filter fun x => p < x.1, q.sorted.filter _⟩

/-- Remove everything from position `p` on. -/
def popBack (q : PosQueue P α) (p : P) : PosQueue P α :=
  ⟨q.items.filter fun x => x.1 < p, q.sorted.filter _⟩

end PosQueue

end SequoiaDB.Lib

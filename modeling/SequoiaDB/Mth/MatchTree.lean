import Mathlib.Data.List.Basic

/-!
# Simplifying a match tree

A query is a tree of AND, OR and NOT nodes over leaf conditions.  Before it is executed, `_optimizeNodeLevel` takes
out logic nodes that say nothing and `sortByWeight` reorders the children of every node.  Each node keeps the flag
`_isUnderLogicNot`, which `addChild` and `delChild` flip in a whole subtree.
-/

namespace SequoiaDB.Mth

open List

inductive LogicType
  | and
  | or
  | not
  deriving DecidableEq

inductive MatchNode (C : Type*)
  | leaf (cond : C) (isUnderLogicNot : Bool)
  | logic (type : LogicType) (isUnderLogicNot : Bool) (children : List (MatchNode C))

variable {C : Type*}

namespace MatchNode

@[elab_as_elim, induction_eliminator]
theorem ind {motive : MatchNode C → Prop} (leaf : ∀ c b, motive (.leaf c b))
    (logic : ∀ t b cs, (∀ c ∈ cs, motive c) → motive (.logic t b cs)) : ∀ n, motive n
  | .leaf c b => leaf c b
  | .logic t b cs => logic t b cs fun c _ => ind leaf logic c

def children : MatchNode C → List (MatchNode C)
  | leaf .. => []
  | logic _ _ cs => cs

/-! ### Execution -/

/-- The loop of an AND node over what its children give; `none` is an error, `dollar` is `isDollarListEnabled()`. -/
def executeAnd (dollar : Bool) : List (Option Bool) → Bool → Option Bool
  | [], result => some result
  | none :: _, _ => none
  | some b :: rest, result => if b || dollar then executeAnd dollar rest (result && b) else some false

def executeOr (dollar : Bool) : List (Option Bool) → Bool → Option Bool
  | [], result => some result
  | none :: _, _ => none
  | some b :: rest, result => if b && !dollar then some true else executeOr dollar rest (result || b)

def execute (dollar : Bool) (run : C → Option Bool) : MatchNode C → Option Bool
  | leaf c _ => run c
  | logic .and _ cs => executeAnd dollar (cs.map (execute dollar run)) true
  | logic .or _ cs => if cs.isEmpty then some true else executeOr dollar (cs.map (execute dollar run)) false
  | logic .not _ cs =>
    if cs.isEmpty then some true else (executeAnd dollar (cs.map (execute dollar run)) true).map (!·)

/-! ### Simplification -/

def rollIsUnderLogicNot : MatchNode C → MatchNode C
  | leaf c b => leaf c !b
  | logic t b cs => logic t (!b) (cs.map rollIsUnderLogicNot)

/-- What `addChild` and `delChild` do to a child of a node of this type and flag. -/
def roll (t : LogicType) (b : Bool) (n : MatchNode C) : MatchNode C :=
  if t = .not || b then n.rollIsUnderLogicNot else n

def moved (parent : LogicType) (under : Bool) : MatchNode C → List (MatchNode C)
  | leaf .. => []
  | logic t b cs => cs.map fun c => (c.roll t b).roll parent under

def isExtra (parent : LogicType) : MatchNode C → Bool
  | leaf .. => false
  | logic t _ cs => t ≠ .not && cs.length = 1 || t = .and && parent ≠ .or

def value (v : C → Bool) : MatchNode C → Bool
  | leaf c _ => v c
  | logic .and _ cs => (cs.map (value v)).all id
  | logic .or _ cs => cs.isEmpty || (cs.map (value v)).any id
  | logic .not _ cs => cs.isEmpty || !(cs.map (value v)).all id

/-- An AND node with no other nodes than AND nodes below it. -/
def hollow : MatchNode C → Bool
  | leaf .. => false
  | logic t _ cs => t = .and && (cs.map hollow).all id

/-- The value if a NOT node over hollow nodes matches. -/
def lax (v : C → Bool) : MatchNode C → Bool
  | leaf c _ => v c
  | logic .and _ cs => (cs.map (lax v)).all id
  | logic .or _ cs => cs.isEmpty || (cs.map (lax v)).any id
  | logic .not _ cs => (cs.map hollow).all id || !(cs.map (lax v)).all id

variable {t : LogicType}

variable {n : MatchNode C}

/-! ### Taking out nodes -/

def rest (t : LogicType) (b : Bool) (done : List (MatchNode C)) : List (MatchNode C) :=
  done.filter (!isExtra t ·) ++ (done.filter (isExtra t)).flatMap (moved t b)

end MatchNode

end SequoiaDB.Mth

import SequoiaDB.Bson.Path

/-!
# Queries as the catalog sees them

A matcher is a list of conditions on fields and of logical operators over lists of matchers.  What a condition on a field
is and which documents satisfy it is left open: the routing of a query looks at the logical structure.
-/

namespace SequoiaDB.Cls

open Bson

inductive LogicOp
  | and
  | or
  | not
  deriving DecidableEq

universe u v

mutual

/-- An element of a matcher: a condition on a field, a logical operator, or something else that begins with `$`. -/
inductive Clause (γ : Type u) (κ : Type v)
  | cmp (fieldName : Name) (cond : γ)
  | logic (op : LogicOp) (branches : Branches γ κ)
  | other (kind : κ)

inductive Matcher (γ : Type u) (κ : Type v)
  | nil
  | cons (c : Clause γ κ) (rest : Matcher γ κ)

inductive Branches (γ : Type u) (κ : Type v)
  | nil
  | cons (m : Matcher γ κ) (rest : Branches γ κ)

end

variable {γ κ : Type*}

section Holds

variable (sat : Name → γ → Prop) (other : κ → Prop)

mutual

def Clause.Holds : Clause γ κ → Prop
  | .cmp fieldName cond => sat fieldName cond
  | .logic .and branches => branches.All
  | .logic .or branches => branches.Any
  | .logic .not branches => ¬ branches.All
  | .other kind => other kind

def Matcher.Holds : Matcher γ κ → Prop
  | .nil => True
  | .cons c rest => c.Holds ∧ rest.Holds

def Branches.All : Branches γ κ → Prop
  | .nil => True
  | .cons m rest => m.Holds ∧ rest.All

def Branches.Any : Branches γ κ → Prop
  | .nil => False
  | .cons m rest => m.Holds ∨ rest.Any

end

end Holds

mutual

def Clause.conds : Clause γ κ → List (Name × γ)
  | .cmp fieldName cond => [(fieldName, cond)]
  | .logic _ branches => branches.conds
  | .other _ => []

def Matcher.conds : Matcher γ κ → List (Name × γ)
  | .nil => []
  | .cons c rest => c.conds ++ rest.conds

def Branches.conds : Branches γ κ → List (Name × γ)
  | .nil => []
  | .cons m rest => m.conds ++ rest.conds

end

end SequoiaDB.Cls

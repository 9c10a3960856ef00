import SequoiaDB.Bson.Path

/-!
# Matching a document

The conditions on a field, `_mthMatchOpNode` and its classes, and their evaluation on a document.  A condition without
functions is its operator and its operand; an element that does not exist (`eoo`) is `none`.
-/

namespace SequoiaDB.Mth

open Bson

/-! ### Sets of elements -/

def elementCmpLt (l r : Element) : Bool :=
  if l.canonicalType < r.canonicalType then true
  else if l.canonicalType > r.canonicalType then false
  else compareElementValues l r == .lt

variable {α : Type*}

/-- Insertion in a `set<BSONElement, element_cmp_lt>`, which is kept in order; `val` gives the value of a member. -/
def insertElement (val : α → Element) (x : α) : List α → List α
  | [] => [x]
  | y :: ys =>
    if elementCmpLt (val x) (val y) then x :: y :: ys
    else if elementCmpLt (val y) (val x) then y :: insertElement val x ys
    else y :: ys

def valueSet (val : α → Element) (members : List α) : List α := members.foldl (fun s x => insertElement val x s) []

def countElement (s : List Element) (e : Element) : Nat := s.countP fun x => !elementCmpLt x e && !elementCmpLt e x

/-! ### Conditions -/

/-- The operators, under the names of `getBSONOpType`. -/
inductive OpType
  | equality
  | ne
  | lt
  | lte
  | gt
  | gte
  | opIN
  | opALL
  | opMOD
  | opEXISTS
  | opISNULL
  deriving DecidableEq

structure Condition where
  opType : OpType
  /-- `_toMatch` -/
  toMatch : Element
  /-- for `$mod`: whether the remainder of a number is the wanted one -/
  remains : Element → Bool

def trueValue : Element → Bool
  | .long v => v ≠ 0
  | .decimal d => decimalCmp d (.num false 0 []) ≠ .eq
  | .double d => d.value ≠ .fin 0
  | .int v => v ≠ 0
  | .bool b => b
  | .null => false
  | .undefined => false
  | _ => true

namespace Condition

def values (c : Condition) : List Element :=
  match c.toMatch with
  | .array a => valueSet id a.elements
  | _ => []

def flagAcceptUndefined (c : Condition) : Bool := c.opType = .opEXISTS || c.opType = .opISNULL

/-- `_incValueMatch` and `_excValueMatch` of `$lt` and `$gt`: `below` and `above` say what is accepted of an operand
`MinKey` and `MaxKey`, `test` what is accepted of a comparison. -/
def orderMatch (below above : Element → Bool) (test : Ordering → Bool) (mixCmp : Bool) (left right : Element) : Bool :=
  if right.canonicalType = -1 then below left
  else if right.canonicalType = 127 then above left
  else if left.canonicalType = right.canonicalType then test (compareElementValues left right)
  else if mixCmp then
    match left, right with
    | .array _, .array _ => test (left.woCompare right)
    | .array _, _ => false
    | _, _ => test (left.woCompare right)
  else false

def etMatch (left right : Element) : Bool :=
  left.canonicalType = right.canonicalType && compareElementValues left right == .eq

def isMatch (c : Condition) (e : Element) : Bool := countElement c.values e > 0

def inMatch (c : Condition) (left : Element) : Bool :=
  match left with
  | .array a => if c.values = [] ∧ a.elements = [] then true else a.elements.any c.isMatch
  | e => c.isMatch e

def allMatch (c : Condition) (left : Element) : Bool :=
  match left with
  | .array a => c.values.all fun x => countElement (valueSet id a.elements) x > 0
  | .object o => c.values.all fun x => countElement (valueSet id [.object o]) x > 0
  | e => if c.values = [] then false else c.values.all fun x => countElement (valueSet id [e]) x > 0

def valueMatch (c : Condition) (mixCmp : Bool) (left : Option Element) : Bool :=
  match c.opType, left with
  | .equality, some e => etMatch e c.toMatch
  | .ne, some e => etMatch e c.toMatch
  | .lt, some e =>
    orderMatch (fun _ => false) (fun l => l.canonicalType ≠ 127) (· == .lt) mixCmp e c.toMatch
  | .lte, some e =>
    orderMatch (fun l => l.canonicalType = -1) (fun _ => true) (· != .gt) mixCmp e c.toMatch
  | .gt, some e =>
    orderMatch (fun l => l.canonicalType ≠ -1) (fun _ => false) (· == .gt) mixCmp e c.toMatch
  | .gte, some e =>
    orderMatch (fun _ => true) (fun l => l.canonicalType = 127) (· != .lt) mixCmp e c.toMatch
  | .opIN, some e => c.inMatch e
  | .opALL, some e => c.allMatch e
  | .opMOD, some e => e.isNumber && c.remains e
  | .opEXISTS, none => !trueValue c.toMatch
  | .opEXISTS, some _ => trueValue c.toMatch
  | .opISNULL, none => trueValue c.toMatch
  | .opISNULL, some .null => trueValue c.toMatch
  | .opISNULL, some _ => !trueValue c.toMatch
  | _, none => false

/-! ### Evaluation -/

/-- What `_execute` reports. -/
structure Outcome where
  result : Bool
  gotUndefined : Bool
  deriving DecidableEq

variable (c : Condition) (mixCmp : Bool)

/-- `_execute` from the element of the document on: the element itself, then the members of an array. -/
def executeField (recordEle : Option Element) : Outcome :=
  if recordEle.isNone && !c.flagAcceptUndefined then ⟨false, true⟩
  else
    let result := c.valueMatch mixCmp recordEle
    if c.opType = .opEXISTS ∨ c.opType = .opISNULL ∨ c.opType = .opIN ∨ c.opType = .opALL ∨ result then ⟨result, false⟩
    else
      match recordEle, c.toMatch with
      | some (.array a), .array _ => ⟨a.elements.any fun e => c.valueMatch false (some e), false⟩
      | some (.array a), _ => ⟨a.elements.any fun e => c.valueMatch mixCmp (some e), false⟩
      | _, _ => ⟨false, false⟩

def executeObject (descend : Option (Bool → Obj → Outcome)) (name : Name) (obj : Obj) : Outcome :=
  match descend, obj.getField name with
  | some d, some (.object o) => d false o
  | some d, some (.array a) => d true a
  | some _, e => if c.flagAcceptUndefined then executeField c mixCmp e else ⟨false, true⟩
  | none, e => executeField c mixCmp e

/-- The loop of `_execute` over the members of an array: a member of the wanted name is compared, an object is searched
for the path. -/
def arrayLoop (inObject : Obj → Outcome) (name : Name) : List (Name × Element) → Bool → Outcome
  | [], tmpUndefined => ⟨false, tmpUndefined⟩
  | (n, z) :: fs, tmpUndefined =>
    if n = name ∧ c.valueMatch false (some z) then ⟨true, false⟩
    else
      match z with
      | .object o =>
        let out := inObject o
        if out.result then ⟨true, false⟩ else arrayLoop inObject name fs (tmpUndefined && out.gotUndefined)
      | _ => arrayLoop inObject name fs (tmpUndefined && n ≠ name)

def executeArray (descend : Option (Bool → Obj → Outcome)) (name : Name) (obj : Obj) : Outcome :=
  match descend, obj.getField name with
  | some d, some (.object o) => d false o
  | some d, some (.array a) => d true a
  | _, _ =>
    let out := arrayLoop c (executeObject c mixCmp descend name) name obj.fields true
    if out.gotUndefined && c.flagAcceptUndefined then
      ⟨(executeObject c mixCmp descend name .nil).result, true⟩
    else out

def execute (name : Name) : List Name → Bool → Obj → Outcome
  | [], isArrayObj, obj =>
    if isArrayObj then executeArray c mixCmp none name obj else executeObject c mixCmp none name obj
  | name' :: rest, isArrayObj, obj =>
    if isArrayObj then executeArray c mixCmp (some (execute name' rest)) name obj
    else executeObject c mixCmp (some (execute name' rest)) name obj

def accepts (name : Name) (rest : List Name) (obj : Obj) : Bool :=
  let out := execute c mixCmp name rest false obj
  if c.opType = .ne then !out.gotUndefined && !out.result else out.result

end Condition

end SequoiaDB.Mth

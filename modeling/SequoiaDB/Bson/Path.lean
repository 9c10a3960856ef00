import SequoiaDB.Bson.ElementOrder

/-!
# Fields and dotted paths

Access to the fields of an object by name and along a dotted path.  A path is given by its components, the strings
between its dots: a first one and the list of the others.
-/

namespace SequoiaDB.Bson

abbrev Name := List UInt8

namespace Obj

def fields : Obj → List (Name × Element)
  | .nil => []
  | .cons n e o => (n, e) :: o.fields

def elements (o : Obj) : List Element := o.fields.map Prod.snd

def getField (o : Obj) (name : Name) : Option Element := (o.fields.find? fun f => f.1 = name).map Prod.snd

def atEnd : List Name → Bool
  | [] => true
  | [[]] => true
  | _ => false

/-- `BSONObj::getFieldDottedOrArray`: the element where the path ends or meets its first array, and the rest of the
path behind it. -/
def getFieldDottedOrArray (o : Obj) (name : Name) : List Name → Option Element × List Name
  | [] => (o.getField name, [])
  | name' :: rest =>
    match o.getField name with
    | none => (none, name' :: rest)
    | some (.array a) => (some (.array a), name' :: rest)
    | some e =>
      if atEnd (name' :: rest) then (some e, name' :: rest)
      else
        match e with
        | .object sub => sub.getFieldDottedOrArray name' rest
        | _ => (none, name' :: rest)

theorem length_getFieldDottedOrArray (o : Obj) (name : Name) (rest : List Name) :
    (o.getFieldDottedOrArray name rest).2.length ≤ rest.length := by
  induction rest generalizing o name with
  | nil => exact le_rfl
  | cons name' rest ih =>
    unfold getFieldDottedOrArray
    split
    · exact le_rfl
    · exact le_rfl
    · split
      · exact le_rfl
      · split
        · exact (ih _ _).trans (Nat.le_succ _)
        · exact le_rfl

end Obj

end SequoiaDB.Bson

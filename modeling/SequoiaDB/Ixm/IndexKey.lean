import SequoiaDB.Bson.Path
import SequoiaDB.Rc

/-!
# The keys of a document

`_ixmKeyGenerator`: the keys under which an index holds a document.  A key has one element for each field of the index.
The generator puts its keys in a `BSONObjSet`; here they are listed in the order in which it does so.
-/

namespace SequoiaDB.Ixm

open Bson

structure FieldName where
  name : Name
  rest : List Name
  deriving DecidableEq

/-- `_ixmIndexKeyGen::validateKeyDef`, for the name of a field: it is not empty and there is no `$` in it. -/
def validateKeyDef (f : FieldName) : Bool :=
  !(f.name = [] && f.rest = []) && (f.name :: f.rest).all fun part => !part.contains 36

abbrev Key := List Element

def genKeyWithNormalEle (keyEles : List (Option Element)) : Key := keyEles.map fun e => e.getD .undefined

/-- `_genKeyWithArrayEle`: the array stands for the field `arrElePos`, behind it the path goes on with `rest`. -/
def genKeyWithArrayEle (keyEles : List (Option Element)) (arrElePos : Nat) (arr : Obj) (rest : List Name) : List Key :=
  let empty := if arr.elements = [] then [genKeyWithNormalEle (keyEles.set arrElePos (some (.array arr)))] else []
  empty ++
    match rest with
    | [] => arr.elements.map fun e => genKeyWithNormalEle (keyEles.set arrElePos (some e))
    | [[]] => arr.elements.map fun e => genKeyWithNormalEle (keyEles.set arrElePos (some e))
    | name :: rest =>
      arr.elements.flatMap fun next =>
        match next with
        | .object o =>
          match _h : o.getFieldDottedOrArray name rest with
          | (some (.array a), rest') => genKeyWithArrayEle keyEles arrElePos a rest'
          | (e, _) => [genKeyWithNormalEle (keyEles.set arrElePos e)]
        | _ => [genKeyWithNormalEle (keyEles.set arrElePos none)]
  termination_by rest.length
  decreasing_by
    have := o.length_getFieldDottedOrArray name rest
    rw [_h] at this
    exact Nat.lt_succ_of_le this

/-- The array that the loop of `_getKeys` has found. -/
structure ArrEle where
  pos : Nat
  arr : Obj
  rest : List Name

/-- The loop of `_getKeys` over the fields: their elements, and the array among them. -/
def scanFields (obj : Obj) : List FieldName → Nat → Option ArrEle → Except Rc (List (Option Element) × Option ArrEle)
  | [], _, found => .ok ([], found)
  | f :: fs, i, found =>
    match obj.getFieldDottedOrArray f.name f.rest with
    | (some (.array a), rest) =>
      match found with
      | some _ => .error .ixmMultipleArray
      | none => do
        let (eles, found) ← scanFields obj fs (i + 1) (some ⟨i, a, rest⟩)
        return (some (.array a) :: eles, found)
    | (e, _) => do
      let (eles, found) ← scanFields obj fs (i + 1) found
      return (e :: eles, found)

def getKeys (fieldNames : List FieldName) (obj : Obj) : Except Rc (List Key) := do
  let (keyEles, found) ← scanFields obj fieldNames 0 none
  if keyEles.all Option.isNone then
    return [fieldNames.map fun _ => .undefined]
  match found with
  | some a => return genKeyWithArrayEle keyEles a.pos a.arr a.rest
  | none => return [genKeyWithNormalEle keyEles]

end SequoiaDB.Ixm

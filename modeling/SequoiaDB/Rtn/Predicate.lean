import SequoiaDB.Mth.Match

/-!
# The ranges of a condition

`rtnPredicate`: the ranges of index keys that a condition leaves to look at, and their intersection for the conditions
on one field.
-/

namespace SequoiaDB.Rtn

open Bson Mth

/-! ### Ranges -/

/-- `rtnKeyBoundary`; the bound is an element with its name. -/
structure KeyBoundary where
  name : Name
  bound : Element
  inclusive : Bool

structure StartStopKey where
  startKey : KeyBoundary
  stopKey : KeyBoundary

def KeyBoundary.above (b : KeyBoundary) (v : Element) : Bool :=
  match v.woCompare b.bound with
  | .lt => false
  | .eq => b.inclusive
  | .gt => true

def KeyBoundary.below (b : KeyBoundary) (v : Element) : Bool :=
  match v.woCompare b.bound with
  | .lt => true
  | .eq => b.inclusive
  | .gt => false

def StartStopKey.contains (r : StartStopKey) (v : Element) : Bool := r.startKey.above v && r.stopKey.below v

def inRanges (rs : List StartStopKey) (v : Element) : Bool := rs.any fun r => r.contains v

def pointKey (f : Name × Element) : StartStopKey := ⟨⟨f.1, f.2, true⟩, ⟨f.1, f.2, true⟩⟩

/-! ### The ends of a type -/

def minOid : List UInt8 := List.replicate 12 0

/-- The least `DBRef`: the length of an empty string, the string and an object id. -/
def minDBRef : List UInt8 := [1, 0, 0, 0, 0] ++ minOid

def emptyObj : List UInt8 := [5, 0, 0, 0, 0]

def rtnKeyGetMinForCmp : Element → Element
  | .minKey => .minKey
  | .maxKey => .minKey
  | .double _ => .decimal .min
  | .int _ => .decimal .min
  | .long _ => .decimal .min
  | .decimal _ => .decimal .min
  | .date _ => .date (BitVec.intMin 64)
  | .timestamp _ _ => .date (BitVec.intMin 64)
  | .string _ => .string []
  | .symbol _ => .string []
  | .object _ => .object .nil
  | .array _ => .array .nil
  | .binData _ _ => .binData 1 []
  | .undefined => .undefined
  | .oid _ => .oid minOid
  | .bool _ => .bool false
  | .null => .null
  | .regEx _ _ => .regEx [] []
  | .dbRef _ => .dbRef minDBRef
  | .code _ => .code []
  | .codeWScope _ _ => .codeWScope [] emptyObj

def minDouble : Element := .double ⟨0xFFEFFFFFFFFFFFFF#64⟩

/-- `rtnKeyGetMaxForCmp` for the type of an element, without mixed types; for `Undefined` and `jstNULL` the first of the
two elements that `appendMaxForType` appends -/
def rtnKeyGetMaxForCmp : Element → Element
  | .minKey => .maxKey
  | .maxKey => .maxKey
  | .double _ => .decimal .max
  | .int _ => .decimal .max
  | .long _ => .decimal .max
  | .decimal _ => .decimal .max
  | .date _ => .date (BitVec.intMax 64)
  | .timestamp _ _ => .date (BitVec.intMax 64)
  | .string _ => .object .nil
  | .symbol _ => .object .nil
  | .object _ => .array .nil
  | .array _ => .binData 1 []
  | .binData _ _ => .oid minOid
  | .undefined => minDouble
  | .oid _ => .oid (List.replicate 12 255)
  | .bool _ => .bool true
  | .null => minDouble
  | .regEx _ _ => .dbRef minDBRef
  | .dbRef _ => .code []
  | .code _ => .codeWScope [90, 90, 90] emptyObj
  | .codeWScope _ _ => .codeWScope [90, 90, 90] emptyObj

/-! ### The ranges of an operator -/

def fullRange : StartStopKey := ⟨⟨[], .minKey, true⟩, ⟨[], .maxKey, true⟩⟩

def minRange (startIncluded : Bool) : StartStopKey := ⟨⟨[], .minKey, startIncluded⟩, ⟨[], .undefined, false⟩⟩

def typeRange (e : Element) : StartStopKey :=
  let startKey := rtnKeyGetMinForCmp e
  let stopKey := rtnKeyGetMaxForCmp e
  ⟨⟨[], startKey, startKey.canonicalType = e.canonicalType⟩, ⟨[], stopKey, stopKey.canonicalType = e.canonicalType⟩⟩

def ltRange (f : Name × Element) (inclusive mixCmp : Bool) : List StartStopKey :=
  if mixCmp || f.2.canonicalType = 127 then
    if f.2.canonicalType ≤ 0 then [⟨⟨[], .minKey, true⟩, ⟨f.1, f.2, inclusive⟩⟩]
    else [minRange true, ⟨⟨[], .undefined, false⟩, ⟨f.1, f.2, inclusive⟩⟩]
  else
    let startKey := rtnKeyGetMinForCmp f.2
    [⟨⟨[], startKey, startKey.canonicalType = f.2.canonicalType⟩, ⟨f.1, f.2, inclusive⟩⟩]

def gtRange (f : Name × Element) (inclusive mixCmp : Bool) : List StartStopKey :=
  let stopKey := if mixCmp then .maxKey else rtnKeyGetMaxForCmp f.2
  let stopInclusive :=
    if mixCmp || f.2.canonicalType = -1 then true else decide (stopKey.canonicalType = f.2.canonicalType)
  if f.2.canonicalType ≤ 0 then
    [minRange inclusive, ⟨⟨[], .undefined, false⟩, ⟨[], stopKey, stopInclusive⟩⟩]
  else [⟨⟨f.1, f.2, inclusive⟩, ⟨[], stopKey, stopInclusive⟩⟩]

def isArray : Element → Bool
  | .array _ => true
  | _ => false

def initLT (f : Name × Element) (isNot inclusive mixCmp : Bool) : List StartStopKey :=
  if isArray f.2 then [] else if isNot then gtRange f (!inclusive) mixCmp else ltRange f inclusive mixCmp

def initGT (f : Name × Element) (isNot inclusive mixCmp : Bool) : List StartStopKey :=
  if isArray f.2 then [] else if isNot then ltRange f (!inclusive) mixCmp else gtRange f inclusive mixCmp

def initNE (f : Name × Element) (isNot : Bool) : List StartStopKey :=
  if isArray f.2 then []
  else if isNot then [pointKey f]
  else initLT f false false true ++ initGT f false false true

def initET (f : Name × Element) (isNot : Bool) : List StartStopKey :=
  if isNot then initNE f false else if isArray f.2 then [] else [pointKey f]

def elemMatchName : Name := [36, 101, 108, 101, 109, 77, 97, 116, 99, 104]

def isElemMatch : Element → Bool
  | .object (.cons n _ _) => n = elemMatchName
  | _ => false

/-- `_initIN`, without expanding regular expressions; `none` for `SDB_INVALIDARG` -/
def initIN (f : Name × Element) (isNot : Bool) : Option (List StartStopKey) :=
  match f.2 with
  | .array a =>
    if isNot then some []
    else if a.elements.any isElemMatch then none
    else some ((valueSet Prod.snd (if a.fields = [] then [f] else a.fields)).map pointKey)
  | _ => none

def initALL (f : Name × Element) (isNot : Bool) : Option (List StartStopKey) :=
  match f.2 with
  | .array a => if isNot then some [] else some (((a.fields.find? fun x => !isElemMatch x.2).map pointKey).toList)
  | _ => none

def initMOD (isNot : Bool) : List StartStopKey := if isNot then [] else [typeRange (.decimal .nan)]

def initEXISTS (f : Name × Element) (isNot : Bool) : List StartStopKey :=
  if trueValue f.2 ^^ isNot then [] else [pointKey ([], .undefined)]

def initISNULL (f : Name × Element) (isNot : Bool) : List StartStopKey :=
  if trueValue f.2 ^^ isNot then [pointKey ([], .undefined), pointKey ([], .null)] else []

/-- The constructor of `rtnPredicate`: the ranges for an operator and its operand, an element with its name; `none` if
the predicate is not initialised. -/
def rtnPredicate (e : Option (Name × Element)) (opType : OpType) (isNot mixCmp : Bool) : Option (List StartStopKey) :=
  match e with
  | none => some [fullRange]
  | some f =>
    let startStopKeys :=
      match opType with
      | .opIN => initIN f isNot
      | .equality => some (initET f isNot)
      | .ne => some (initNE f isNot)
      | .lt => some (initLT f isNot false mixCmp)
      | .lte => some (initLT f isNot true mixCmp)
      | .gt => some (initGT f isNot false mixCmp)
      | .gte => some (initGT f isNot true mixCmp)
      | .opALL => initALL f isNot
      | .opMOD => some (initMOD isNot)
      | .opEXISTS => some (initEXISTS f isNot)
      | .opISNULL => some (initISNULL f isNot)
    startStopKeys.map fun
      | [] => [fullRange]
      | keys => keys

/-! ### Intersection -/

def StartStopKey.isValid (r : StartStopKey) : Bool :=
  match r.startKey.bound.woCompare r.stopKey.bound with
  | .lt => true
  | .eq => r.startKey.inclusive && r.stopKey.inclusive
  | .gt => false

def KeyBoundary.same (l r : KeyBoundary) : Bool :=
  l.inclusive == r.inclusive &&
    l.bound.orderBy r.bound (strcmp l.name r.name) (compareElementValues l.bound r.bound) == .eq

def maxKeyBound (l r : KeyBoundary) : KeyBoundary :=
  match l.bound.woCompare r.bound with
  | .lt => r
  | .eq => if r.inclusive then l else r
  | .gt => l

def minKeyBound (l r : KeyBoundary) : KeyBoundary :=
  match l.bound.woCompare r.bound with
  | .lt => l
  | .eq => if r.inclusive then l else r
  | .gt => r

def predicatesOverlap (l r : StartStopKey) : StartStopKey :=
  ⟨maxKeyBound l.startKey r.startKey, minKeyBound l.stopKey r.stopKey⟩

def intersect : List StartStopKey → List StartStopKey → List StartStopKey
  | i :: is, j :: js =>
    let overlap := predicatesOverlap i j
    (if overlap.isValid then [overlap] else []) ++
      if i.stopKey.same (minKeyBound i.stopKey j.stopKey) then intersect is (j :: js) else intersect (i :: is) js
  | _, _ => []
  termination_by is js => is.length + js.length

end SequoiaDB.Rtn

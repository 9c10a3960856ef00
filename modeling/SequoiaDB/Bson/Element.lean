import SequoiaDB.Bson.Number

/-!
# BSON elements and their order

Elements and objects as trees, and the comparison of `BSONElement::woCompare` and `BSONObj::woCompare`.  A comparison
is modelled by the sign of its result.  Strings are byte strings that may hold zero bytes; `strcmp` does not see what
is behind the first one.
-/

namespace SequoiaDB.Bson

mutual

inductive Element
  | minKey
  | maxKey
  | undefined
  | null
  | int (v : BitVec 32)
  | long (v : BitVec 64)
  | double (d : Double)
  | decimal (d : Decimal)
  | string (bytes : List UInt8)
  | symbol (bytes : List UInt8)
  | code (bytes : List UInt8)
  | object (o : Obj)
  | array (o : Obj)
  | binData (type : UInt8) (bytes : List UInt8)
  | oid (bytes : List UInt8)
  | bool (b : Bool)
  | date (millis : BitVec 64)
  | timestamp (secs : BitVec 32) (inc : BitVec 32)
  | regEx (pattern flags : List UInt8)
  | dbRef (value : List UInt8)
  | codeWScope (code scope : List UInt8)

/-- An object: its elements with their names. -/
inductive Obj
  | nil
  | cons (name : List UInt8) (e : Element) (rest : Obj)

end

def cstr (bytes : List UInt8) : List UInt8 := bytes.takeWhile (· ≠ 0)

def strcmp (l r : List UInt8) : Ordering := compare (cstr l) (cstr r)

def memcmp (l r : List UInt8) : Ordering := compare l r

namespace Element

def canonicalType : Element → Int
  | .minKey => -1
  | .undefined => 0
  | .null => 5
  | .int _ => 10
  | .long _ => 10
  | .double _ => 10
  | .decimal _ => 10
  | .string _ => 15
  | .symbol _ => 15
  | .object _ => 20
  | .array _ => 25
  | .binData _ _ => 30
  | .oid _ => 35
  | .bool _ => 40
  | .date _ => 45
  | .timestamp _ _ => 45
  | .regEx _ _ => 50
  | .dbRef _ => 55
  | .code _ => 60
  | .codeWScope _ _ => 65
  | .maxKey => 127

def isNumber : Element → Bool
  | .int _ => true
  | .long _ => true
  | .double _ => true
  | .decimal _ => true
  | _ => false

def numberDecimal : Element → Decimal
  | .int v => decimalFromLong v.toInt
  | .long v => decimalFromLong v.toInt
  | .double d => decimalFromDouble d
  | .decimal d => d
  | _ => .num false 0 []

def number : Element → Real64
  | .int v => .fin v.toInt
  | .long v => .fin (doubleOfLong v.toInt)
  | .double d => d.value
  | _ => .fin 0

def compareNumbers (l r : Element) : Ordering :=
  let far :=
    match l, r with
    | _, .long R => longBeyond R.toInt && l.number.beyond
    | .long L, _ => longBeyond L.toInt && r.number.beyond
    | _, _ => false
  if far then decimalCmp l.numberDecimal r.numberDecimal else l.number.compare r.number

def numberLong : Element → Option Int
  | .int v => some v.toInt
  | .long v => some v.toInt
  | _ => none

def compareTimestampDate (secs inc : BitVec 32) (millis : BitVec 64) : Ordering :=
  let time := secs.toInt * 1000 + inc.toNat / 1000
  if time = millis.toInt then if inc.toNat % 1000 > 0 then .gt else .eq
  else if time > millis.toInt then .gt else .lt

def compareTimestamps (secs inc secs' inc' : BitVec 32) : Ordering :=
  if secs.toInt ≠ secs'.toInt then if secs.toInt < secs'.toInt then .lt else .gt
  else if inc.toNat < inc'.toNat then .lt
  else if inc = inc' then .eq
  else .gt

/-- `BSONElement::woCompare` in terms of the comparisons of the names and of the values. -/
def orderBy (l r : Element) (names values : Ordering) : Ordering :=
  let x := compare l.canonicalType r.canonicalType
  if x ≠ .eq ∧ ¬ (l.isNumber ∧ r.isNumber) then x else names.then values

end Element

mutual

def compareElementValues : Element → Element → Ordering
  | .decimal l, r => decimalCmp l r.numberDecimal
  | l, .decimal r => decimalCmp l.numberDecimal r
  | .bool l, .bool r => compare l.toNat r.toNat
  | .timestamp secs inc, .timestamp secs' inc' => Element.compareTimestamps secs inc secs' inc'
  | .timestamp secs inc, .date millis => Element.compareTimestampDate secs inc millis
  | .date millis, .timestamp secs inc => (Element.compareTimestampDate secs inc millis).swap
  | .date l, .date r => compare l.toInt r.toInt
  | .int l, r =>
    match r.numberLong with
    | some R => compare l.toInt R
    | none => Element.compareNumbers (.int l) r
  | .long l, r =>
    match r.numberLong with
    | some R => compare l.toInt R
    | none => Element.compareNumbers (.long l) r
  | .double l, r => Element.compareNumbers (.double l) r
  | .oid l, .oid r => memcmp l r
  | .code l, .code r => strcmp l r
  | .symbol l, .symbol r => strcmp l r
  | .symbol l, .string r => strcmp l r
  | .string l, .symbol r => strcmp l r
  | .string l, .string r => strcmp l r
  | .object l, .object r => compareFields l r
  | .array l, .array r => compareFields l r
  | .dbRef l, .dbRef r => (compare l.length r.length).then (memcmp l r)
  | .binData t l, .binData t' r => (compare l.length r.length).then (memcmp (t :: l) (t' :: r))
  | .regEx p f, .regEx p' f' => (strcmp p p').then (strcmp f f')
  | .codeWScope c s, .codeWScope c' s' => (strcmp c c').then (strcmp s s')
  -- the types without a value
  | l, r => compare l.canonicalType r.canonicalType

def compareFields : Obj → Obj → Ordering
  | .nil, .nil => .eq
  | .nil, .cons _ _ _ => .lt
  | .cons _ _ _, .nil => .gt
  | .cons n e o, .cons n' e' o' =>
    (Element.orderBy e e' (strcmp n n') (compareElementValues e e')).then (compareFields o o')

end

def Element.woCompare (l r : Element) : Ordering := l.orderBy r .eq (compareElementValues l r)

end SequoiaDB.Bson

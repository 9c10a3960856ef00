import SequoiaDB.Rtn.Predicate

/-!
# The interval test of a conjunction

`clsCatalogPredicateTree::_matches` decides from the ranges of the sharding fields whether a catalog item may hold a key
of a conjunction.  It follows the upper bound of the item: on a field the first range that is not missed begins in front
of the bound, and the answer is yes, or it begins at the bound, and the next field decides.

The ranges of a field are always looked at from the lowest one to the highest one.  On a descending field this is not
the order of the keys: the range that touches the upper bound comes first, and the ones in front of it are not looked at
(`Hides`).
-/

namespace SequoiaDB.Cls

open Bson Rtn Lib List

/-- A field of the sharding key with the bounds of a catalog item: what the three iterators of `_matches` deliver. -/
structure BoundField where
  name : Name
  ascending : Bool
  lowBound : Element
  upBound : Element

/-- `compareLU`: which bounds of the item matter. -/
inductive CompareLU
  | low
  | both
  | up
  deriving DecidableEq

abbrev PredicateMap := Name → Option (List StartStopKey)

/-- How the loop over the ranges of a field ends. -/
inductive ScanEnd
  /-- All ranges are missed. -/
  | exhausted
  /-- A range ends at the lower bound, and only this bound matters. -/
  | atLow
  /-- A range begins at the upper bound. -/
  | atUp
  | inside
  deriving DecidableEq

namespace BoundField

variable (f : BoundField)

def compare (a b : Element) : Ordering := if f.ascending then a.woCompare b else (a.woCompare b).swap

def startKey (r : StartStopKey) : KeyBoundary := if f.ascending then r.startKey else r.stopKey

def stopKey (r : StartStopKey) : KeyBoundary := if f.ascending then r.stopKey else r.startKey

def missesLow (r : StartStopKey) : Bool :=
  match f.compare f.lowBound (f.stopKey r).bound with
  | .lt => false
  | .eq => !(f.stopKey r).inclusive
  | .gt => true

def missesUp (r : StartStopKey) : Bool :=
  match f.compare f.upBound (f.startKey r).bound with
  | .lt => true
  | .eq => !(f.startKey r).inclusive
  | .gt => false

/-- The loop of `_matches` over the ranges of a field.  When both bounds matter, `_matches` also goes on behind a range
that ends at the lower bound, but then it does not use the result. -/
def scan (compareLU : CompareLU) : List StartStopKey → ScanEnd
  | [] => .exhausted
  | r :: rs =>
    if compareLU ≠ .up ∧ f.missesLow r then scan compareLU rs
    else if compareLU = .low then
      if f.compare f.lowBound (f.stopKey r).bound = .eq then .atLow else .inside
    else if f.missesUp r then scan compareLU rs
    else if f.compare f.upBound (f.startKey r).bound = .eq then .atUp
    else .inside

end BoundField

def matchesFrom (predicates : PredicateMap) : List BoundField → (isCloseInterval : Bool) → CompareLU → Bool
  | [], isCloseInterval, _ => isCloseInterval
  | f :: fields, isCloseInterval, compareLU =>
    match predicates f.name with
    | none => true
    | some startStopKeys =>
      match f.scan compareLU startStopKeys with
      | .exhausted => false
      | .atLow => matchesFrom predicates fields true .low
      | .atUp => matchesFrom predicates fields isCloseInterval .up
      | .inside => true

/-! ### The keys of an item -/

def aboveLow : List BoundField → List Element → Bool
  | [], [] => true
  | f :: fields, v :: key =>
    match f.compare v f.lowBound with
    | .lt => false
    | .eq => aboveLow fields key
    | .gt => true
  | _, _ => false

/-- The key is in front of the upper bound, or at it if the item is closed there. -/
def belowUp (closed : Bool) : List BoundField → List Element → Bool
  | [], [] => closed
  | f :: fields, v :: key =>
    match f.compare v f.upBound with
    | .lt => true
    | .eq => belowUp closed fields key
    | .gt => false
  | _, _ => false

def inPredicates (predicates : PredicateMap) : List BoundField → List Element → Bool
  | [], [] => true
  | f :: fields, v :: key =>
    (match predicates f.name with
    | none => true
    | some startStopKeys => inRanges startStopKeys v) && inPredicates predicates fields key
  | _, _ => false

/-- The key belongs to the item and satisfies the conjunction. -/
structure Reaches (predicates : PredicateMap) (fields : List BoundField) (closed : Bool) (key : List Element) : Prop where
  low : aboveLow fields key = true
  up : belowUp closed fields key = true
  predicates : inPredicates predicates fields key = true

structure SortedRanges (rs : List StartStopKey) : Prop where
  valid : ∀ r ∈ rs, r.startKey.bound.woCompare r.stopKey.bound ≠ .gt
  sorted : rs.Pairwise fun r r' => r.stopKey.bound.woCompare r'.startKey.bound ≠ .gt

/-- The values of a catalog item and of a conjunction are in `S`, on which the comparison is an order. -/
structure Ordered (S : Set Element) (predicates : PredicateMap) (fields : List BoundField) : Prop where
  order : TotalPreorderOn Element.woCompare S
  bounds : ∀ f ∈ fields, f.lowBound ∈ S ∧ f.upBound ∈ S
  ends : ∀ f ∈ fields, ∀ rs, predicates f.name = some rs → ∀ r ∈ rs, r.startKey.bound ∈ S ∧ r.stopKey.bound ∈ S
  ranges : ∀ f ∈ fields, ∀ rs, predicates f.name = some rs → SortedRanges rs

/-! ### Hidden keys -/

/-- Behind fields on which the conjunction begins at the upper bound there is a field on which it lies behind the upper
bound, or the end of an item that is open there. -/
inductive Blocked (predicates : PredicateMap) (closed : Bool) : CompareLU → List BoundField → Prop
  | ends {lu} (h : closed = false) : Blocked predicates closed lu []
  | missed {lu f fields rs} (hp : predicates f.name = some rs) (hscan : f.scan lu rs = .exhausted) :
    Blocked predicates closed lu (f :: fields)
  | along {lu f fields rs} (hp : predicates f.name = some rs) (hscan : f.scan lu rs = .atUp)
    (h : Blocked predicates closed .up fields) : Blocked predicates closed lu (f :: fields)

/-- The key is in front of the upper bound on a descending field, where the conjunction also has a range that begins at
the bound, and from there on it is blocked. -/
inductive Hides (predicates : PredicateMap) (closed : Bool) : CompareLU → List BoundField → List Element → Prop
  | here {lu f fields rs v key} (hdesc : f.ascending = false) (hp : predicates f.name = some rs)
    (hscan : f.scan lu rs = .atUp) (hblocked : Blocked predicates closed .up fields)
    (hv : f.compare v f.upBound = .lt) : Hides predicates closed lu (f :: fields) (v :: key)
  | there {lu f fields rs v key} (hp : predicates f.name = some rs) (hscan : f.scan lu rs = .atUp)
    (hv : f.compare v f.upBound = .eq) (h : Hides predicates closed .up fields key) :
    Hides predicates closed lu (f :: fields) (v :: key)

section Matches

variable {predicates : PredicateMap} {closed : Bool} {lu : CompareLU} {f : BoundField} {fields : List BoundField}
  {key : List Element} {S : Set Element} {rs : List StartStopKey} {v : Element}

theorem matchesFrom_of_some (hp : predicates f.name = some rs) :
    matchesFrom predicates (f :: fields) closed lu =
      match f.scan lu rs with
      | .exhausted => false
      | .atLow => matchesFrom predicates fields true .low
      | .atUp => matchesFrom predicates fields closed .up
      | .inside => true := by
  rw [matchesFrom, hp]

theorem Blocked.matchesFrom_eq (h : Blocked predicates closed lu fields) :
    matchesFrom predicates fields closed lu = false := by
  induction h with
  | ends h => exact h
  | missed hp hs => rw [matchesFrom_of_some hp, hs]
  | along hp hs _ ih =>
    rw [matchesFrom_of_some hp, hs]
    exact ih

theorem Hides.blocked (h : Hides predicates closed lu fields key) : Blocked predicates closed lu fields := by
  induction h with
  | here _ hp hs hb _ => exact .along hp hs hb
  | there hp hs _ _ ih => exact .along hp hs ih

namespace BoundField

theorem scan_cons (hlu : lu ≠ .low) (r : StartStopKey) : f.scan lu (r :: rs) =
    if lu ≠ .up ∧ f.missesLow r then f.scan lu rs
    else if f.missesUp r then f.scan lu rs
    else if f.compare f.upBound (f.startKey r).bound = .eq then .atUp
    else .inside := by
  rw [scan, if_neg hlu]

theorem scan_ne_atLow (hlu : lu ≠ .low) : f.scan lu rs ≠ .atLow := by
  induction rs with
  | nil => simp [scan]
  | cons r rs ih =>
    rw [scan_cons hlu]
    split
    · exact ih
    · split
      · exact ih
      · split <;> simp

theorem totalPreorderOn (h : TotalPreorderOn Element.woCompare S) : TotalPreorderOn f.compare S := by
  cases ha : f.ascending with
  | true =>
    have heq : f.compare = Element.woCompare := by
      funext a b
      simp [compare, ha]
    rw [heq]
    exact h
  | false =>
    have heq : f.compare = fun a b => (a.woCompare b).swap := by
      funext a b
      simp [compare, ha]
    rw [heq]
    exact h.swap

theorem startKey_of_contains {r : StartStopKey} (h : r.contains v) : f.compare v (f.startKey r).bound ≠ .lt ∧
      (f.compare v (f.startKey r).bound = .eq → (f.startKey r).inclusive) := by
  obtain ⟨hs, hstop⟩ := Bool.and_eq_true_iff.1 h
  unfold KeyBoundary.above at hs
  unfold KeyBoundary.below at hstop
  unfold compare startKey
  cases f.ascending with
  | true => cases hc : v.woCompare r.startKey.bound <;> simp_all
  | false => cases hc : v.woCompare r.stopKey.bound <;> simp_all

theorem stopKey_of_contains {r : StartStopKey} (h : r.contains v) : f.compare v (f.stopKey r).bound ≠ .gt ∧
      (f.compare v (f.stopKey r).bound = .eq → (f.stopKey r).inclusive) := by
  obtain ⟨hs, hstop⟩ := Bool.and_eq_true_iff.1 h
  unfold KeyBoundary.above at hs
  unfold KeyBoundary.below at hstop
  unfold compare stopKey
  cases f.ascending with
  | true => cases hc : v.woCompare r.stopKey.bound <;> simp_all
  | false => cases hc : v.woCompare r.startKey.bound <;> simp_all

section Scan

variable (hord : TotalPreorderOn f.compare S) (hlow : f.lowBound ∈ S) (hup : f.upBound ∈ S) (hvS : v ∈ S)
  {r : StartStopKey} (hr : (f.startKey r).bound ∈ S ∧ (f.stopKey r).bound ∈ S) (hcontains : r.contains v = true)
include hord hvS hr hcontains

theorem not_missesLow (hlow : f.lowBound ∈ S) (hv : f.compare v f.lowBound ≠ .lt) : f.missesLow r = false := by
  obtain ⟨hle, hi⟩ := stopKey_of_contains (f := f) hcontains
  have hlv : f.compare f.lowBound v ≠ .gt := by
    rw [hord.antisymm v hvS _ hlow]
    cases hc : f.compare v f.lowBound <;> simp_all
  unfold missesLow
  cases hc : f.compare f.lowBound (f.stopKey r).bound with
  | lt => rfl
  | gt => exact absurd hc (hord.trans _ hlow v hvS _ hr.2 hlv hle)
  | eq =>
    -- the value is squeezed between the bound and the end of the range
    have heq : f.compare v (f.stopKey r).bound = .eq := by
      cases hvs : f.compare v (f.stopKey r).bound with
      | eq => rfl
      | gt => exact absurd hvs hle
      | lt =>
        have := hord.lt_of_le_of_lt hlow hvS hr.2 hlv hvs
        rw [this] at hc
        cases hc
    simp [hi heq]

theorem not_missesUp (hup : f.upBound ∈ S) (hv : f.compare v f.upBound ≠ .gt) : f.missesUp r = false := by
  obtain ⟨hge, hi⟩ := startKey_of_contains (f := f) hcontains
  have hsv : f.compare (f.startKey r).bound v ≠ .gt := by
    rw [hord.antisymm v hvS _ hr.1]
    cases hc : f.compare v (f.startKey r).bound <;> simp_all
  have hsu := hord.trans _ hr.1 v hvS _ hup hsv hv
  unfold missesUp
  rw [hord.antisymm _ hr.1 _ hup]
  cases hc : f.compare (f.startKey r).bound f.upBound with
  | lt => rfl
  | gt => exact absurd hc hsu
  | eq =>
    have heq : f.compare v (f.startKey r).bound = .eq := by
      rw [hord.antisymm _ hr.1 v hvS]
      cases hvs : f.compare (f.startKey r).bound v with
      | eq => rfl
      | gt => exact absurd hvs hsv
      | lt =>
        have := hord.lt_of_lt_of_le hr.1 hvS hup hvs hv
        rw [this] at hc
        cases hc
    simp [hi heq]

end Scan

theorem bounds_mem (h : ∀ r ∈ rs, r.startKey.bound ∈ S ∧ r.stopKey.bound ∈ S) {r : StartStopKey} (hr : r ∈ rs) :
    (f.startKey r).bound ∈ S ∧ (f.stopKey r).bound ∈ S := by
  unfold startKey stopKey
  cases f.ascending with
  | true => exact h r hr
  | false => exact (h r hr).symm

section Value

variable (hord : TotalPreorderOn Element.woCompare S) (hlow : f.lowBound ∈ S) (hup : f.upBound ∈ S)
  (hends : ∀ r ∈ rs, r.startKey.bound ∈ S ∧ r.stopKey.bound ∈ S) (hlu : lu ≠ .low) (hvS : v ∈ S)
  (hvlow : lu = .both → f.compare v f.lowBound ≠ .lt)
include hord hlow hup hends hlu hvS hvlow

theorem scan_cons_of_contains {r : StartStopKey} (hr : r ∈ rs) (hcontains : r.contains v)
    (hv : f.compare v f.upBound ≠ .gt) (rs' : List StartStopKey) :
    f.scan lu (r :: rs') = if f.compare f.upBound (f.startKey r).bound = .eq then .atUp else .inside := by
  have hmem := f.bounds_mem hends hr
  have hnotUp := not_missesUp (f.totalPreorderOn hord) hvS hmem hcontains hup hv
  have hnotLow : ¬ (lu ≠ .up ∧ f.missesLow r = true) := by
    rintro ⟨hne, hm⟩
    have hb : lu = .both := by cases lu <;> simp_all
    rw [not_missesLow (f.totalPreorderOn hord) hvS hmem hcontains hlow (hvlow hb)] at hm
    cases hm
  rw [scan_cons hlu, if_neg hnotLow, hnotUp, if_neg Bool.false_ne_true]

theorem scan_ne_exhausted (hin : inRanges rs v) (hv : f.compare v f.upBound ≠ .gt) : f.scan lu rs ≠ .exhausted := by
  induction rs with
  | nil => cases hin
  | cons r rs ih =>
    have hends' := fun r hr => hends r (mem_cons_of_mem _ hr)
    by_cases hr : r.contains v = true
    · rw [scan_cons_of_contains hord hlow hup hends hlu hvS hvlow mem_cons_self hr hv]
      split <;> simp
    · have hin' : inRanges rs v := by simpa [inRanges, hr] using hin
      rw [scan_cons hlu]
      split
      · exact ih hends' hin'
      · split
        · exact ih hends' hin'
        · split <;> simp

theorem scan_eq_inside (hin : inRanges rs v) (hsorted : SortedRanges rs) (ha : f.ascending)
    (hv : f.compare v f.upBound = .lt) : f.scan lu rs = .inside := by
  have hord' := f.totalPreorderOn hord
  have hne : f.compare v f.upBound ≠ .gt := by rw [hv]; decide
  -- a bound that is not behind the value is not the upper bound
  have hbefore : ∀ {b : Element}, b ∈ S → f.compare b v ≠ .gt → f.compare f.upBound b ≠ .eq := by
    intro b hb hbv heq
    have hlt := hord'.lt_of_le_of_lt hb hvS hup hbv hv
    rw [hord'.antisymm _ hb _ hup, hlt] at heq
    cases heq
  have hs : ∀ {r : StartStopKey}, r ∈ rs → r.contains v = true → f.compare (f.startKey r).bound v ≠ .gt := by
    intro r hr hcontains
    rw [hord'.antisymm v hvS _ (f.bounds_mem hends hr).1]
    have := (startKey_of_contains (f := f) hcontains).1
    cases hc : f.compare v (f.startKey r).bound <;> simp_all
  induction rs with
  | nil => cases hin
  | cons r rs ih =>
    obtain ⟨hvalid, hp⟩ := hsorted
    obtain ⟨hf, hrest⟩ := pairwise_cons.1 hp
    have hends' := fun r hr => hends r (mem_cons_of_mem _ hr)
    have hstart' := fun {r : StartStopKey} (hr : r ∈ rs) => hs (mem_cons_of_mem _ hr)
    have hm := f.bounds_mem hends mem_cons_self
    by_cases hr : r.contains v = true
    · rw [scan_cons_of_contains hord hlow hup hends hlu hvS hvlow mem_cons_self hr hne, if_neg]
      exact hbefore hm.1 (hs mem_cons_self hr)
    · have hin' : inRanges rs v := by simpa [inRanges, hr] using hin
      have ht := ih hends' hin' ⟨fun r hr => hvalid r (mem_cons_of_mem _ hr), hrest⟩ hstart'
      have htouch : f.compare f.upBound (f.startKey r).bound ≠ .eq := by
        obtain ⟨r', hr', hcontains⟩ := any_eq_true.1 hin'
        have hmem' := f.bounds_mem hends' hr'
        refine hbefore hm.1 (hord'.trans _ hm.1 _ hmem'.1 v hvS ?_ (hstart' hr' hcontains))
        have hle := hord.trans _ (hends r mem_cons_self).1 _ (hends r mem_cons_self).2 _ (hends' r' hr').1
          (hvalid r mem_cons_self) (hf r' hr')
        simpa [compare, startKey, ha] using hle
      rw [scan_cons hlu, if_neg htouch]
      split
      · exact ht
      · split
        · exact ht
        · rfl

end Value

end BoundField

theorem blocked_of_matchesFrom (hlu : lu ≠ .low) (h : matchesFrom predicates fields closed lu = false) :
    Blocked predicates closed lu fields := by
  induction fields generalizing lu with
  | nil => exact .ends h
  | cons f fields ih =>
    cases hp : predicates f.name with
    | none =>
      rw [matchesFrom, hp] at h
      cases h
    | some rs =>
      rw [matchesFrom_of_some hp] at h
      cases hs : f.scan lu rs with
      | exhausted => exact .missed hp hs
      | atLow => exact absurd hs (BoundField.scan_ne_atLow hlu)
      | atUp =>
        rw [hs] at h
        exact .along hp hs (ih (by decide) h)
      | inside =>
        rw [hs] at h
        cases h

theorem hides_of_blocked (hblocked : Blocked predicates closed lu fields) (hS : Ordered S predicates fields)
    (hlu : lu ≠ .low) (hk : ∀ v ∈ key, v ∈ S) (hlow : lu = .both → aboveLow fields key)
    (hup : belowUp closed fields key) (hin : inPredicates predicates fields key) :
    Hides predicates closed lu fields key := by
  induction hblocked generalizing key with
  | ends h =>
    cases key with
    | nil => exact absurd (h.symm.trans hup) Bool.false_ne_true
    | cons v key => cases hup
  | @missed lu f fields rs hp hs =>
    cases key with
    | nil => cases hup
    | cons v key =>
      simp only [inPredicates, hp, Bool.and_eq_true] at hin
      obtain ⟨hlowS, hupS⟩ := hS.bounds f mem_cons_self
      have hvup : f.compare v f.upBound ≠ .gt := fun hgt => by simp [belowUp, hgt] at hup
      have hvlow : lu = .both → f.compare v f.lowBound ≠ .lt := fun hb hlt => by simpa [aboveLow, hlt] using hlow hb
      exact absurd hs (BoundField.scan_ne_exhausted hS.order hlowS hupS (hS.ends f mem_cons_self rs hp) hlu
        (hk v mem_cons_self) hvlow hin.1 hvup)
  | @along lu f fields rs hp hs hblocked ih =>
    cases key with
    | nil => cases hup
    | cons v key =>
      simp only [inPredicates, hp, Bool.and_eq_true] at hin
      obtain ⟨hlowS, hupS⟩ := hS.bounds f mem_cons_self
      have hvlow : lu = .both → f.compare v f.lowBound ≠ .lt := fun hb hlt => by simpa [aboveLow, hlt] using hlow hb
      cases hv : f.compare v f.upBound with
      | lt =>
        cases hd : f.ascending with
        | false => exact .here hd hp hs hblocked hv
        | true =>
          have := BoundField.scan_eq_inside hS.order hlowS hupS (hS.ends f mem_cons_self rs hp) hlu
            (hk v mem_cons_self) hvlow hin.1 (hS.ranges f mem_cons_self rs hp) hd hv
          rw [this] at hs
          cases hs
      | eq =>
        simp only [belowUp, hv] at hup
        have hS' : Ordered S predicates fields :=
          { order := hS.order
            bounds := fun g hg => hS.bounds g (mem_cons_of_mem _ hg)
            ends := fun g hg => hS.ends g (mem_cons_of_mem _ hg)
            ranges := fun g hg => hS.ranges g (mem_cons_of_mem _ hg) }
        exact .there hp hs hv (ih hS' (by decide) (fun v hv => hk v (mem_cons_of_mem _ hv)) nofun hup hin.2)
      | gt => simp [belowUp, hv] at hup

/-- The interval test finds every item that has a key of the conjunction, exactly if it hides none of these keys. -/
theorem matchesFrom_sound_iff (hS : Ordered S predicates fields) :
    ((∃ key, (∀ v ∈ key, v ∈ S) ∧ Reaches predicates fields closed key) →
        matchesFrom predicates fields closed .both = true) ↔
      ∀ key, (∀ v ∈ key, v ∈ S) → Reaches predicates fields closed key → ¬ Hides predicates closed .both fields key := by
  constructor
  · intro hsound key hkey hreaches hhides
    have htrue := hsound ⟨key, hkey, hreaches⟩
    rw [hhides.blocked.matchesFrom_eq] at htrue
    cases htrue
  · rintro hfree ⟨key, hkey, hreaches⟩
    by_contra hfalse
    have hblocked := blocked_of_matchesFrom (by decide) (Bool.not_eq_true _ ▸ hfalse)
    exact hfree key hkey hreaches
      (hides_of_blocked hblocked hS (by decide) hkey (fun _ => hreaches.low) hreaches.up hreaches.predicates)

end Matches

section Example

def number (n : Nat) : Element := .int (BitVec.ofNat 32 n)

def numbers (a b : Nat) : StartStopKey := ⟨⟨[], number a, true⟩, ⟨[], number b, true⟩⟩

def numberSet (l : List Nat) : Set Element := { e | e ∈ l.map number }

def named (name : Name) (rs : List StartStopKey) : PredicateMap := fun n => if n = name then some rs else none

theorem ordered_of_numbers {l : List Nat} {name : Name} {rs : List StartStopKey} {fields : List BoundField}
    (ho : ∀ x ∈ l.map number, ∀ y ∈ l.map number, y.woCompare x = (x.woCompare y).swap ∧ ∀ z ∈ l.map number,
        (x.woCompare y ≠ .gt → y.woCompare z ≠ .gt → x.woCompare z ≠ .gt) ∧
          (x.woCompare y = .eq → x.woCompare z = y.woCompare z))
    (hb : ∀ f ∈ fields, f.lowBound ∈ numberSet l ∧ f.upBound ∈ numberSet l)
    (hends : ∀ r ∈ rs, r.startKey.bound ∈ numberSet l ∧ r.stopKey.bound ∈ numberSet l) (hs : SortedRanges rs) :
    Ordered (numberSet l) (named name rs) fields := by
  have hn : ∀ {n rs'}, named name rs n = some rs' → rs' = rs := by
    intro n rs' h
    simp only [named] at h
    split at h
    · exact (Option.some.inj h).symm
    · cases h
  exact
    { order :=
        { antisymm := fun x hx y hy => (ho x hx y hy).1
          trans := fun x hx y hy z hz => ((ho x hx y hy).2 z hz).1
          congr := fun x hx y hy z hz => ((ho x hx y hy).2 z hz).2 }
      bounds := hb
      ends := fun _ _ _ hrs => hn hrs ▸ hends
      ranges := fun _ _ _ hrs => hn hrs ▸ hs }

def mixedFields : List BoundField := [⟨[97], true, number 1, number 9⟩, ⟨[98], false, number 9, number 1⟩]

theorem mixedFields_ordered :
    Ordered (numberSet [1, 2, 4, 6, 8, 9]) (named [97] [numbers 2 4, numbers 6 8]) mixedFields := by
  refine ordered_of_numbers (by decide +kernel) ?_ ?_ ⟨by decide +kernel, by decide +kernel⟩
  · simp [mixedFields, numberSet]
  · simp [numbers, numberSet]

/-- A key with the first component in the second range. -/
theorem matchesFrom_sound_mixed :
    Reaches (named [97] [numbers 2 4, numbers 6 8]) mixedFields false [number 8, number 4] ∧
      matchesFrom (named [97] [numbers 2 4, numbers 6 8]) mixedFields false .both = true := by
  have hreaches : Reaches (named [97] [numbers 2 4, numbers 6 8]) mixedFields false [number 8, number 4] :=
    ⟨by decide +kernel, by decide +kernel, by decide +kernel⟩
  refine ⟨hreaches, (matchesFrom_sound_iff mixedFields_ordered).2 (fun key _ _ hhides => ?_)
    ⟨[number 8, number 4], by simp [numberSet], hreaches⟩⟩
  -- the first range begins in front of the upper bound
  cases hhides with
  | here hdesc => cases hdesc
  | there hp hscan =>
    obtain rfl := Option.some.inj hp
    revert hscan
    decide +kernel

def fallingField : List BoundField := [⟨[97], false, number 10, number 5⟩]

/-- The conjunction asks for `5` or `7`: the item that has `7` is not found. -/
theorem range_hidden :
    Ordered (numberSet [5, 7, 10]) (named [97] [numbers 5 5, numbers 7 7]) fallingField ∧
      Reaches (named [97] [numbers 5 5, numbers 7 7]) fallingField false [number 7] ∧
      matchesFrom (named [97] [numbers 5 5, numbers 7 7]) fallingField false .both = false := by
  refine ⟨ordered_of_numbers (by decide +kernel) ?_ ?_ ⟨by decide +kernel, by decide +kernel⟩,
    ⟨by decide +kernel, by decide +kernel, by decide +kernel⟩, by decide +kernel⟩
  · simp [fallingField, numberSet]
  · simp [numbers, numberSet]

end Example

end SequoiaDB.Cls

import SequoiaDB.Rc
import SequoiaDB.Cls.RoutingQuery
import SequoiaDB.Cls.CatalogPredicate

/-!
# Routing by ranges

`clsCatalogMatcher` makes a tree of conjunctions from a matcher, and `findGroupIDS` and `findSubCLNames` ask it for each
catalog item.

A node changes its logic type while it is filled.  What is kept along the way (`Sound`) is small: the conditions in a
conjunction are ones that every matching document satisfies, and a disjunction has no conditions of its own, so that the
interval test always answers yes for it.  Whatever happens to the branches of a disjunction, in any order, is harmless.
-/

namespace SequoiaDB.Cls

open Bson Rtn List Option

inductive LogicType
  | invalid
  | and
  | or
  deriving DecidableEq

abbrev RangeSet := List (Name × List StartStopKey)

namespace RangeSet

def find (s : RangeSet) (fieldName : Name) : Option (List StartStopKey) :=
  (List.find? (fun p => p.1 = fieldName) s).map Prod.snd

def add (s : RangeSet) (fieldName : Name) (ranges : List StartStopKey) : RangeSet :=
  if (s.find fieldName).isSome then
    List.map (fun p => if p.1 = fieldName then (p.1, intersect p.2 ranges) else p) s
  else s ++ [(fieldName, ranges)]

end RangeSet

inductive PredicateTree
  | node (logicType : LogicType) (predicates : RangeSet) (children : List PredicateTree)

structure CatalogItem where
  lowBound : List Element
  upBound : List Element
  isLast : Bool
  groupID : Nat
  id : Nat
  subClName : Name

/-- A sharding key: its fields, and whether they are ascending. -/
abbrev ShardingKey := List (Name × Bool)

def ShardingKey.hasField (key : ShardingKey) (fieldName : Name) : Bool := any key fun f => f.1 = fieldName

def boundFields : ShardingKey → List Element → List Element → List BoundField
  | (name, ascending) :: key, low :: lowBound, up :: upBound =>
    ⟨name, ascending, low, up⟩ :: boundFields key lowBound upBound
  | _, _, _ => []

def CatalogItem.fields (item : CatalogItem) (shardingKey : ShardingKey) : List BoundField :=
  boundFields shardingKey item.lowBound item.upBound

def CatalogItem.contains (item : CatalogItem) (shardingKey : ShardingKey) (key : List Element) : Bool :=
  aboveLow (item.fields shardingKey) key && belowUp item.isLast (item.fields shardingKey) key

namespace PredicateTree

def logicType : PredicateTree → LogicType
  | .node t _ _ => t

def predicates : PredicateTree → RangeSet
  | .node _ p _ => p

def children : PredicateTree → List PredicateTree
  | .node _ _ c => c

@[simp] theorem logicType_node (t : LogicType) (p : RangeSet) (c : List PredicateTree) :
    (node t p c).logicType = t := rfl

@[simp] theorem predicates_node (t : LogicType) (p : RangeSet) (c : List PredicateTree) :
    (node t p c).predicates = p := rfl

@[simp] theorem children_node (t : LogicType) (p : RangeSet) (c : List PredicateTree) :
    (node t p c).children = c := rfl

def empty : PredicateTree := .node .invalid [] []

def setLogicType : LogicType → PredicateTree → PredicateTree
  | t, .node _ p c => .node t p c

def isUniverse (t : PredicateTree) : Bool := t.children.isEmpty && t.predicates.isEmpty

def upgradeToUniverse : PredicateTree → PredicateTree
  | .node t _ _ => .node t [] []

def adjustByShardingKey (shardingKey : ShardingKey) (t : PredicateTree) : PredicateTree :=
  if t.logicType ≠ .and ∨ t.predicates.isEmpty ∨ t.children.length ≠ 0 then t
  else
    match shardingKey with
    | [] => t
    | (name, _) :: _ =>
      if name.isEmpty ∨ (t.predicates.find name).isSome then t else .node t.logicType [] t.children

def addChild (shardingKey : ShardingKey) (t child : PredicateTree) : PredicateTree :=
  let child := child.adjustByShardingKey shardingKey
  if child.isUniverse then if t.logicType = .or then t.upgradeToUniverse else t
  else .node t.logicType t.predicates (t.children ++ [child])

variable (shardingKey : ShardingKey) (item : CatalogItem)

mutual

def matchesItem : PredicateTree → Bool
  | .node logicType predicates children =>
    if children.isEmpty && predicates.isEmpty then true
    else
      let result := matchesFrom predicates.find (item.fields shardingKey) item.isLast .both
      if (result && logicType = .or) || (!result && logicType = .and) then result
      else matchesChildren logicType children result

def matchesChildren (logicType : LogicType) : List PredicateTree → Bool → Bool
  | [], result => result
  | child :: children, _ =>
    let result := matchesItem child
    if (!result && logicType = .and) || (result && logicType = .or) then result
    else matchesChildren logicType children result

end

end PredicateTree

/-! ### The parser -/

/-- What the parser reads of the conditions on fields: the predicates that `parseCmpOp` adds, none for an operator that it
does not know, and the ranges of a predicate, if it can be initialised. -/
structure CondReader (γ π : Type*) where
  predicates : γ → List π
  ranges : π → Option (List StartStopKey)

namespace CatalogMatcher

open PredicateTree

variable {γ κ π : Type*} (R : CondReader γ π) (shardingKey : ShardingKey)

/-- `addPredicate()` for the predicates of a condition; `none` for `SDB_INVALIDARG`. -/
def addPredicates (fieldName : Name) : List π → RangeSet → Option RangeSet
  | [], s => some s
  | p :: ps, s => (R.ranges p).bind fun ranges => addPredicates fieldName ps (s.add fieldName ranges)

def parseCmpOp (fieldName : Name) (cond : γ) : PredicateTree → Option PredicateTree
  | .node _ predicates children =>
    if shardingKey.hasField fieldName then
      (addPredicates R fieldName (R.predicates cond) predicates).map fun s => .node .and s children
    else some (.node .and predicates children)

mutual

def parseClause : Clause γ κ → PredicateTree → Option PredicateTree
  | .cmp fieldName cond, t => parseCmpOp R shardingKey fieldName cond t
  | .logic .and branches, t => parseBranches branches (t.setLogicType .and)
  | .logic .or branches, t =>
    if t.logicType ≠ .invalid then
      (parseBranches branches (empty.setLogicType .or)).map fun child => t.addChild shardingKey child
    else parseBranches branches (t.setLogicType .or)
  | .logic .not _, t => some (if t.logicType = .or then t.upgradeToUniverse else t)
  | .other _, t => some (if t.logicType = .or then t.upgradeToUniverse else t)

def parseAnObj : Matcher γ κ → PredicateTree → Option PredicateTree
  | .nil, t => some t
  | .cons c rest, t =>
    let parsed :=
      if t.logicType = .or then (parseClause c empty).map fun child => t.addChild shardingKey child
      else parseClause c t
    parsed.bind fun t => if t.logicType = .or && t.isUniverse then some t else parseAnObj rest t

def parseBranches : Branches γ κ → PredicateTree → Option PredicateTree
  | .nil, t => some t
  | .cons m rest, t => (parseAnObj m t).bind fun t => parseBranches rest t

end

def loadPattern (matcher : Matcher γ κ) : Option PredicateTree :=
  (parseAnObj R shardingKey matcher empty).map (adjustByShardingKey shardingKey)

end CatalogMatcher

structure CatalogSet where
  shardingKey : ShardingKey
  items : List CatalogItem
  groupCount : Nat

namespace CatalogSet

variable {γ κ π : Type*} (R : CondReader γ π) (s : CatalogSet) (matcher : Matcher γ κ)

def selected (t : PredicateTree) : List CatalogItem := s.items.filter fun item => t.matchesItem s.shardingKey item

def findGroupIDS : Except Rc (List Nat) :=
  if s.items.isEmpty then .error .sys
  else if s.groupCount = 1 then .ok (s.items.map CatalogItem.groupID)
  else
    match CatalogMatcher.loadPattern R s.shardingKey matcher with
    | none => .error .invalidArg
    | some t => .ok ((s.selected t).map CatalogItem.groupID)

def findSubCLNames (sortById : Bool) : Except Rc (List Name) :=
  if s.items.isEmpty then .error .catNoMatchCatalog
  else
    match CatalogMatcher.loadPattern R s.shardingKey matcher with
    | none => .error .invalidArg
    | some t =>
      let found := s.selected t
      if found.isEmpty then .error .catNoMatchCatalog
      else if sortById then .ok ((found.mergeSort fun a b => a.id ≤ b.id).reverse.map CatalogItem.subClName)
      else .ok (found.map CatalogItem.subClName)

end CatalogSet

/-! ### Refused conditions -/

def Refused {γ π : Type*} (R : CondReader γ π) (shardingKey : ShardingKey) (c : Name × γ) : Prop :=
  shardingKey.hasField c.1 = true ∧ ∃ p ∈ R.predicates c.2, R.ranges p = none

namespace CatalogMatcher

open PredicateTree

variable {γ κ π : Type*} {R : CondReader γ π} {key : ShardingKey} {name : Name}

theorem none_of_bind {α β : Type*} {o : Option α} {f : α → Option β} (h : o.bind f = none) :
    o = none ∨ ∃ a, o = some a ∧ f a = none := by
  cases o with
  | none => exact .inl rfl
  | some a => exact .inr ⟨a, rfl, h⟩

theorem exists_of_addPredicates_none {ps : List π} {s : RangeSet}
    (h : addPredicates R name ps s = none) : ∃ p ∈ ps, R.ranges p = none := by
  induction ps generalizing s with
  | nil => cases h
  | cons p ps ih =>
    rw [addPredicates] at h
    rcases none_of_bind h with hp | ⟨ranges, -, h⟩
    · exact ⟨p, mem_cons_self, hp⟩
    · obtain ⟨q, hq, hn⟩ := ih h
      exact ⟨q, mem_cons_of_mem _ hq, hn⟩

theorem refused_of_parseCmpOp {cond : γ} {t : PredicateTree}
    (h : parseCmpOp R key name cond t = none) : Refused R key (name, cond) := by
  cases t with
  | node type ps cs =>
    rw [parseCmpOp] at h
    split at h
    · exact ⟨‹_›, exists_of_addPredicates_none (map_eq_none_iff.1 h)⟩
    · cases h

mutual

theorem refused_of_parseClause : (c : Clause γ κ) → (t : PredicateTree) → parseClause R key c t = none →
    ∃ x ∈ c.conds, Refused R key x
  | .cmp name cond, t, h => by
    rw [parseClause] at h
    exact ⟨_, mem_singleton_self _, refused_of_parseCmpOp h⟩
  | .logic .and bs, t, h => by
    rw [parseClause] at h
    exact refused_of_parseBranches bs _ h
  | .logic .or bs, t, h => by
    rw [parseClause] at h
    split at h
    · exact refused_of_parseBranches bs _ (map_eq_none_iff.1 h)
    · exact refused_of_parseBranches bs _ h
  | .logic .not _, t, h | .other _, t, h => by
    rw [parseClause] at h
    cases h

theorem refused_of_parseAnObj : (m : Matcher γ κ) → (t : PredicateTree) → parseAnObj R key m t = none →
    ∃ x ∈ m.conds, Refused R key x
  | .nil, t, h => by
    rw [parseAnObj] at h
    cases h
  | .cons c rest, t, h => by
    rw [parseAnObj] at h
    rcases none_of_bind h with h | ⟨t', -, h⟩
    · have hc : ∃ x ∈ c.conds, Refused R key x := by
        split at h
        · exact refused_of_parseClause c _ (map_eq_none_iff.1 h)
        · exact refused_of_parseClause c _ h
      obtain ⟨x, hx, hr⟩ := hc
      exact ⟨x, by rw [Matcher.conds]; exact mem_append_left _ hx, hr⟩
    · split at h
      · cases h
      · obtain ⟨x, hx, hr⟩ := refused_of_parseAnObj rest _ h
        exact ⟨x, by rw [Matcher.conds]; exact mem_append_right _ hx, hr⟩

theorem refused_of_parseBranches : (bs : Branches γ κ) → (t : PredicateTree) →
    parseBranches R key bs t = none → ∃ x ∈ bs.conds, Refused R key x
  | .nil, t, h => by
    rw [parseBranches] at h
    cases h
  | .cons m rest, t, h => by
    rw [parseBranches] at h
    rcases none_of_bind h with h | ⟨t', -, h⟩
    · obtain ⟨x, hx, hr⟩ := refused_of_parseAnObj m _ h
      exact ⟨x, by rw [Branches.conds]; exact mem_append_left _ hx, hr⟩
    · obtain ⟨x, hx, hr⟩ := refused_of_parseBranches rest _ h
      exact ⟨x, by rw [Branches.conds]; exact mem_append_right _ hx, hr⟩

end

/-! ### Soundness -/

def rangeSet (R : CondReader γ π) : List (Name × γ) → RangeSet → Option RangeSet
  | [], s => some s
  | (fieldName, cond) :: conds, s => (addPredicates R fieldName (R.predicates cond) s).bind (rangeSet R conds)

theorem rangeSet_append {cs ds : List (Name × γ)} {s : RangeSet} :
    rangeSet R (cs ++ ds) s = (rangeSet R cs s).bind (rangeSet R ds) := by
  induction cs generalizing s with
  | nil => rfl
  | cons c cs ih =>
    simp only [cons_append, rangeSet, bind_assoc]
    exact Option.bind_congr fun _ _ => ih

def Satisfied (shardingKey : ShardingKey) (sat : Name → γ → Prop) (conds : List (Name × γ)) : Prop :=
  ∀ c ∈ conds, shardingKey.hasField c.1 = true ∧ sat c.1 c.2

/-- The interval test is right about the item for every conjunction of conditions that the document satisfies. -/
def ConjunctionSound (R : CondReader γ π) (shardingKey : ShardingKey) (sat : Name → γ → Prop) (item : CatalogItem) : Prop :=
  ∀ conds, Satisfied shardingKey sat conds → ∀ s, rangeSet R conds [] = some s →
    matchesFrom s.find (item.fields shardingKey) item.isLast .both = true

def Open (t : PredicateTree) : Prop := t.logicType = .or ∧ t.predicates = []

def Sound (R : CondReader γ π) (shardingKey : ShardingKey) (sat : Name → γ → Prop) (t : PredicateTree) : Prop :=
  match t.logicType with
  | .invalid => t.predicates = [] ∧ t.children = []
  | .or => t.predicates = []
  | .and => (∃ conds, Satisfied shardingKey sat conds ∧ rangeSet R conds [] = some t.predicates) ∧
    ∀ child ∈ t.children, Open child

variable {sat : Name → γ → Prop} {other : κ → Prop} {t t' child : PredicateTree}

theorem Sound.of_open (h : Open t) : Sound R key sat t := by
  rw [Sound, h.1]
  exact h.2

theorem Sound.open (h : Sound R key sat t) (hor : t.logicType = .or) : Open t := by
  rw [Sound, hor] at h
  exact ⟨hor, h⟩

theorem sound_iff_of_and (ha : t.logicType = .and) : Sound R key sat t ↔
    (∃ conds, Satisfied key sat conds ∧ rangeSet R conds [] = some t.predicates) ∧
      ∀ child ∈ t.children, Open child := by
  rw [Sound, ha]

theorem adjust_of_or (h : t.logicType = .or) : t.adjustByShardingKey key = t := by
  unfold adjustByShardingKey
  exact if_pos (.inl (by rw [h]; decide))

theorem open_addChild (h : Open t) (child : PredicateTree) : Open (t.addChild key child) := by
  rw [addChild]
  simp only [h.1, if_true]
  split
  · cases t with
    | node type ps cs => exact ⟨h.1, rfl⟩
  · exact ⟨rfl, h.2⟩

theorem open_parseAnObj : (m : Matcher γ κ) → {t t' : PredicateTree} → Open t →
    parseAnObj R key m t = some t' → Open t'
  | .nil, t, t', h, hp => by
    rw [parseAnObj] at hp
    exact some.inj hp ▸ h
  | .cons c rest, t, t', h, hp => by
    rw [parseAnObj, if_pos h.1] at hp
    obtain ⟨r, hr, hrest⟩ := bind_eq_some_iff.1 hp
    obtain ⟨child, -, rfl⟩ := map_eq_some_iff.1 hr
    split at hrest
    · exact some.inj hrest ▸ open_addChild h child
    · exact open_parseAnObj rest (open_addChild h child) hrest

theorem open_parseBranches : (bs : Branches γ κ) → {t t' : PredicateTree} → Open t →
    parseBranches R key bs t = some t' → Open t'
  | .nil, t, t', h, hp => by
    rw [parseBranches] at hp
    exact some.inj hp ▸ h
  | .cons m rest, t, t', h, hp => by
    rw [parseBranches] at hp
    obtain ⟨r, hr, hrest⟩ := bind_eq_some_iff.1 hp
    exact open_parseBranches rest (open_parseAnObj m h hr) hrest

theorem Sound.addChild (h : Sound R key sat t) (ha : t.logicType = .and) (hc : Open child) :
    Sound R key sat (t.addChild key child) := by
  unfold PredicateTree.addChild
  simp only [adjust_of_or hc.1, ha]
  split
  · exact h
  · obtain ⟨hconds, hchildren⟩ := (sound_iff_of_and ha).1 h
    exact (sound_iff_of_and (logicType_node .and _ _)).2
      ⟨hconds, forall_mem_append.2 ⟨hchildren, forall_mem_singleton.2 hc⟩⟩

theorem Sound.toAnd (h : Sound R key sat t) (hor : t.logicType ≠ .or) : Sound R key sat (t.setLogicType .and) := by
  cases t with
  | node type ps cs =>
    cases type with
    | invalid =>
      obtain ⟨rfl, rfl⟩ : ps = [] ∧ cs = [] := h
      exact ⟨⟨[], nofun, rfl⟩, nofun⟩
    | or => exact absurd rfl hor
    | and => exact h

theorem Sound.parseCmpOp (h : Sound R key sat t) (hor : t.logicType ≠ .or) {name : Name} {cond : γ}
    (hsat : sat name cond) (hp : parseCmpOp R key name cond t = some t') : Sound R key sat t' := by
  have ha := h.toAnd hor
  cases t with
  | node type ps cs =>
    rw [CatalogMatcher.parseCmpOp] at hp
    split at hp
    · rename_i hfield
      obtain ⟨s, hs, rfl⟩ := map_eq_some_iff.1 hp
      obtain ⟨⟨conds, hc, hset⟩, hchildren⟩ := ha
      refine ⟨⟨conds ++ [(name, cond)], ?_, ?_⟩, hchildren⟩
      · exact forall_mem_append.2 ⟨hc, forall_mem_singleton.2 ⟨hfield, hsat⟩⟩
      · rw [rangeSet_append, hset, bind_some, rangeSet]
        change (addPredicates R name (R.predicates cond) ps).bind _ = _
        rw [hs]
        rfl
    · exact some.inj hp ▸ ha

mutual

theorem sound_parseClause : (c : Clause γ κ) → {t t' : PredicateTree} → Sound R key sat t → t.logicType ≠ .or →
    c.Holds sat other → parseClause R key c t = some t' → Sound R key sat t'
  | .cmp name cond, t, t', h, hor, hc, hp => by
    rw [parseClause] at hp
    rw [Clause.Holds] at hc
    exact h.parseCmpOp hor hc hp
  | .logic .and bs, t, t', h, hor, hc, hp => by
    rw [parseClause] at hp
    rw [Clause.Holds] at hc
    exact sound_parseBranches bs (h.toAnd hor) hc hp
  | .logic .or bs, t, t', h, hor, hc, hp => by
    rw [parseClause] at hp
    split at hp
    · rename_i hinvalid
      have ha : t.logicType = .and := by cases hl : t.logicType <;> simp_all
      obtain ⟨child, hchild, rfl⟩ := map_eq_some_iff.1 hp
      exact h.addChild ha (open_parseBranches bs ⟨rfl, rfl⟩ hchild)
    · rename_i hinvalid
      have ho : Open (t.setLogicType .or) := by
        cases t with
        | node type ps cs =>
          have hl : type = .invalid := by simpa using hinvalid
          subst hl
          exact ⟨rfl, h.1⟩
      exact .of_open (open_parseBranches bs ho hp)
  | .logic .not _, t, t', h, hor, hc, hp | .other _, t, t', h, hor, hc, hp => by
    rw [parseClause, if_neg hor] at hp
    exact some.inj hp ▸ h

theorem sound_parseAnObj : (m : Matcher γ κ) → {t t' : PredicateTree} → Sound R key sat t → m.Holds sat other →
    parseAnObj R key m t = some t' → Sound R key sat t'
  | .nil, t, t', h, hm, hp => by
    rw [parseAnObj] at hp
    exact some.inj hp ▸ h
  | .cons c rest, t, t', h, hm, hp => by
    by_cases hor : t.logicType = .or
    · exact .of_open (open_parseAnObj (.cons c rest) (h.open hor) hp)
    · rw [Matcher.Holds] at hm
      rw [parseAnObj, if_neg hor] at hp
      obtain ⟨r, hr, hrest⟩ := bind_eq_some_iff.1 hp
      have hs := sound_parseClause c h hor hm.1 hr
      split at hrest
      · exact some.inj hrest ▸ hs
      · exact sound_parseAnObj rest hs hm.2 hrest

theorem sound_parseBranches : (bs : Branches γ κ) → {t t' : PredicateTree} → Sound R key sat t → bs.All sat other →
    parseBranches R key bs t = some t' → Sound R key sat t'
  | .nil, t, t', h, hbs, hp => by
    rw [parseBranches] at hp
    exact some.inj hp ▸ h
  | .cons m rest, t, t', h, hbs, hp => by
    rw [Branches.All] at hbs
    rw [parseBranches] at hp
    obtain ⟨r, hr, hrest⟩ := bind_eq_some_iff.1 hp
    exact sound_parseBranches rest (sound_parseAnObj m h hbs.1 hr) hbs.2 hrest

end

theorem Sound.adjust (h : Sound R key sat t) : Sound R key sat (t.adjustByShardingKey key) := by
  unfold adjustByShardingKey
  split
  · exact h
  · rename_i hcond
    have ha : t.logicType = .and := by
      by_contra hne
      exact hcond (.inl hne)
    split
    · exact h
    · split
      · exact h
      · rw [ha]
        exact (sound_iff_of_and (logicType_node .and _ _)).2 ⟨⟨[], nofun, rfl⟩, ((sound_iff_of_and ha).1 h).2⟩

theorem sound_loadPattern {matcher : Matcher γ κ} (hm : matcher.Holds sat other)
    (hl : loadPattern R key matcher = some t) : Sound R key sat t := by
  obtain ⟨r, hr, rfl⟩ := map_eq_some_iff.1 hl
  have he : Sound R key sat empty := ⟨rfl, rfl⟩
  exact (sound_parseAnObj matcher he hm hr).adjust

section Matches

variable {item : CatalogItem} (hconj : ConjunctionSound R key sat item)
include hconj

theorem Open.matchesItem (h : Open t) : t.matchesItem key item := by
  cases t with
  | node type ps cs =>
    obtain ⟨rfl, rfl⟩ : type = .or ∧ ps = [] := h
    have ht := hconj [] nofun [] rfl
    rw [PredicateTree.matchesItem]
    split
    · rfl
    · simp [ht]

theorem matchesChildren_of_open {cs : List PredicateTree} (h : ∀ child ∈ cs, Open child) :
    matchesChildren key item .and cs true := by
  induction cs with
  | nil => rfl
  | cons child cs ih =>
    rw [matchesChildren, Open.matchesItem hconj (h child mem_cons_self)]
    simpa using ih fun c hc => h c (mem_cons_of_mem _ hc)

theorem Sound.matchesItem (h : Sound R key sat t) : t.matchesItem key item := by
  cases hl : t.logicType with
  | or => exact Open.matchesItem hconj (h.open hl)
  | invalid =>
    cases t with
    | node type ps cs =>
      obtain rfl : type = .invalid := hl
      obtain ⟨rfl, rfl⟩ : ps = [] ∧ cs = [] := h
      rfl
  | and =>
    cases t with
    | node type ps cs =>
      obtain rfl : type = .and := hl
      obtain ⟨⟨conds, hc, hs⟩, hchildren⟩ := h
      rw [PredicateTree.matchesItem, hconj conds hc ps hs]
      split
      · rfl
      · simpa using matchesChildren_of_open hconj hchildren

end Matches

end CatalogMatcher

namespace CatalogSet

open CatalogMatcher

variable {γ κ π : Type*} {R : CondReader γ π} {s : CatalogSet} {matcher : Matcher γ κ}

/-- The groups and sub-collections that can have a matching document are found, if the interval test of a conjunction is
right; the only queries that are refused with an error have a condition whose predicate cannot be initialised. -/
theorem routing_sound {sat : Name → γ → Prop} {other : κ → Prop} (hmatch : matcher.Holds sat other) {key : List Element}
    (hconj : ∀ item ∈ s.items, item.contains s.shardingKey key = true → ConjunctionSound R s.shardingKey sat item)
    {item : CatalogItem} (hitem : item ∈ s.items) (hkey : item.contains s.shardingKey key = true) :
    ((∃ groups, s.findGroupIDS R matcher = .ok groups ∧ item.groupID ∈ groups) ∧
        ∀ sortById, ∃ names, s.findSubCLNames R matcher sortById = .ok names ∧ item.subClName ∈ names) ∨
      (∃ c ∈ matcher.conds, Refused R s.shardingKey c) ∧
        (s.groupCount ≠ 1 → s.findGroupIDS R matcher = .error .invalidArg) ∧
        ∀ sortById, s.findSubCLNames R matcher sortById = .error .invalidArg := by
  have hne := isEmpty_eq_false_iff_exists_mem.2 ⟨item, hitem⟩
  cases hload : loadPattern R s.shardingKey matcher with
  | none =>
    refine .inr ⟨refused_of_parseAnObj matcher _ (map_eq_none_iff.1 hload), fun hcount => ?_, fun sortById => ?_⟩
    · simp [findGroupIDS, hne, hload, hcount]
    · simp [findSubCLNames, hne, hload]
  | some t =>
    left
    have hmem : item ∈ s.selected t :=
      mem_filter.2 ⟨hitem, (sound_loadPattern hmatch hload).matchesItem (hconj item hitem hkey)⟩
    have hne' := isEmpty_eq_false_iff_exists_mem.2 ⟨item, hmem⟩
    constructor
    · simp only [findGroupIDS, hne, hload, Bool.false_eq_true, if_false]
      split
      · exact ⟨_, rfl, mem_map_of_mem hitem⟩
      · exact ⟨_, rfl, mem_map_of_mem hmem⟩
    · intro sortById
      simp only [findSubCLNames, hne, hload, hne', Bool.false_eq_true, if_false]
      split
      · refine ⟨_, rfl, mem_map_of_mem (mem_reverse.2 ?_)⟩
        exact mem_mergeSort.2 hmem
      · exact ⟨_, rfl, mem_map_of_mem hmem⟩

section Example

def twoGroups : CatalogSet where
  shardingKey := [([97], true)]
  items := [⟨[number 1], [number 9], false, 1, 1, [115]⟩, ⟨[number 9], [number 20], true, 2, 2, [116]⟩]
  groupCount := 2

def numberReader : CondReader Nat Nat := ⟨fun n => [n], fun n => some [numbers n n]⟩

def refilled : Matcher Nat Unit :=
  .cons (.logic .or (.cons (.cons (.cmp [120] 3) .nil) (.cons (.cons (.cmp [97] 15) .nil) .nil))) .nil

/-- The document `{x: 3, a: 7}` is found in the first group. -/
theorem routing_sound_refilled : ∃ groups, twoGroups.findGroupIDS numberReader refilled = .ok groups ∧ 1 ∈ groups := by
  have hmatch : refilled.Holds (fun name n => name = [120] ∧ n = 3) (fun _ => False) :=
    ⟨.inl ⟨⟨rfl, rfl⟩, trivial⟩, trivial⟩
  have hconj : ∀ item ∈ twoGroups.items, item.contains twoGroups.shardingKey [number 7] = true →
      ConjunctionSound numberReader twoGroups.shardingKey (fun name n => name = [120] ∧ n = 3) item := by
    intro item hitem _ conds hconds s hs
    -- the document satisfies no condition on the sharding key
    have hnil : conds = [] := by
      cases conds with
      | nil => rfl
      | cons c conds =>
        obtain ⟨hfield, hname, -⟩ := hconds c mem_cons_self
        rw [hname] at hfield
        cases hfield
    subst hnil
    obtain rfl := some.inj hs
    simp only [twoGroups, mem_cons, not_mem_nil, or_false] at hitem
    rcases hitem with rfl | rfl <;> rfl
  have hitem : (⟨[number 1], [number 9], false, 1, 1, [115]⟩ : CatalogItem) ∈ twoGroups.items := mem_cons_self
  rcases routing_sound hmatch hconj hitem (by decide +kernel) with h | ⟨⟨c, -, -, p, -, hp⟩, -⟩
  · exact h.1
  · cases hp

end Example

end CatalogSet

end SequoiaDB.Cls

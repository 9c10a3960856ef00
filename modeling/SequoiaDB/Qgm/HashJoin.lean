import SequoiaDB.Bson.Path

/-!
# The hash join

`_qgmPlHashJoin` puts the build side, as much as fits, into a `_qgmHashTable`, runs the probe side against it, and goes
on with the next batch.  The candidates for a field are the tuples of its bucket, and `ossHash` of the raw value chooses
the bucket.  Every pair whose fields compare equal is returned exactly if such fields are always in one bucket, which
fields of different number types are not.
-/

namespace SequoiaDB.Qgm

open Bson List Function

/-- A field in the buffer of its document. -/
structure Field where
  element : Element
  /-- `value()`, of `valuesize()` bytes -/
  value : List UInt8

/-- A document of the build or the probe side. -/
structure Document where
  objsize : Nat
  fields : List (Name × Field)
  fields_eq_nil : objsize ≤ 5 → fields = []

namespace Document

def nil : Document := ⟨5, [], fun _ => rfl⟩

def isEmpty (d : Document) : Bool := d.objsize ≤ 5

def getField (d : Document) (name : Name) : Option Field := (d.fields.find? fun f => f.1 = name).map Prod.snd

theorem getField_of_isEmpty {d : Document} (h : d.isEmpty) (name : Name) : d.getField name = none := by
  unfold getField
  rw [d.fields_eq_nil (of_decide_eq_true h)]
  rfl

end Document

def get16bits (a b : UInt8) : BitVec 32 := (b.toBitVec.setWidth 32 <<< 8) + a.toBitVec.setWidth 32

/-- The loop over four bytes at a time and the `switch` over the rest -/
def ossHashLoop (hash : BitVec 32) : List UInt8 → BitVec 32
  | a :: b :: c :: d :: data =>
    let hash := hash + get16bits a b
    let tmp := (get16bits c d <<< 11) ^^^ hash
    let hash := (hash <<< 16) ^^^ tmp
    ossHashLoop (hash + (hash >>> 11)) data
  | [a, b, c] =>
    let hash := hash + get16bits a b
    let hash := hash ^^^ (hash <<< 16)
    let hash := hash ^^^ (c.toBitVec.signExtend 32 <<< 18)
    hash + (hash >>> 11)
  | [a, b] =>
    let hash := hash + get16bits a b
    let hash := hash ^^^ (hash <<< 11)
    hash + (hash >>> 17)
  | [a] =>
    let hash := hash + a.toBitVec.signExtend 32
    let hash := hash ^^^ (hash <<< 10)
    hash + (hash >>> 1)
  | [] => hash

/-- `ossHash` with a length of type `INT32` -/
def ossHash (data : List UInt8) : BitVec 32 :=
  if data = [] then 0
  else
    let hash := ossHashLoop (BitVec.ofNat 32 data.length) data
    let hash := hash ^^^ (hash <<< 3)
    let hash := hash + (hash >>> 5)
    let hash := hash ^^^ (hash <<< 4)
    let hash := hash + (hash >>> 17)
    let hash := hash ^^^ (hash <<< 25)
    hash + (hash >>> 6)

/-- A key and the document that has it, `hashTuple`. -/
abbrev HashTuple := Field × Document

def hashTupleSize : Nat := 32

/-- `_qgmHashTable`, where a bucket is the list of its linked tuples. -/
structure HashTable where
  written : Nat
  bucket : Nat → List HashTuple

/-- What does not change: the keys, the probe side, the size of the hash table and the number of buckets that `init` gives
to it, and the hash of a value, which is `ossHash`. -/
structure Join where
  buildKey : Name
  probeKey : Name
  probe : List Document
  bufSize : Nat
  buckets : Nat
  hashValue : List UInt8 → BitVec 32

namespace Join

variable (J : Join)

def hash (key : Field) : Nat := (J.hashValue key.value).toNat % J.buckets

def clear : HashTable := ⟨J.buckets * 8, fun _ => []⟩

def link (tuple : HashTuple) : List HashTuple → List HashTuple
  | [] => [tuple]
  | first :: rest => first :: tuple :: rest

def push (t : HashTable) (d : Document) : Option HashTable :=
  if J.bufSize - t.written < hashTupleSize + d.objsize then none
  else
    match d.getField J.buildKey with
    | none => some t
    | some key => some ⟨t.written + hashTupleSize + d.objsize,
        update t.bucket (J.hash key) (link (key, d) (t.bucket (J.hash key)))⟩

def find (t : HashTable) (key : Option Field) : List HashTuple :=
  match key with
  | none => []
  | some key => t.bucket (J.hash key)

def equal (key : Option Field) (tuple : HashTuple) : Bool :=
  key.any fun key => key.element.woCompare tuple.1.element == .eq

def getMore (key : Option Field) : List HashTuple → Option (Document × List HashTuple)
  | [] => none
  | tuple :: context => if equal key tuple then some (tuple.2, context) else getMore key context

end Join

inductive FetchState
  | build
  | probe
  | find

/-- The side of `_qgmPlHashJoin` that the batches are taken from. -/
structure BuildSide where
  /-- what `_build->fetchNext` still gives -/
  build : List Document
  hashTbl : HashTable
  buildF : Document
  hitBuildEnd : Bool

structure HashJoin extends BuildSide where
  state : FetchState
  /-- what `_probe->fetchNext` still gives -/
  probes : List Document
  probeF : Document
  probeEle : Option Field
  hashContext : List HashTuple

/-- What an iteration of the loop of `_fetchNext` ends with. -/
inductive Fetched
  | again
  | next (build probe : Document)
  | eoc

namespace Join

variable (J : Join)

/-- The loop of `_buildHashTbl` from the fetch of a document on; `builded` says whether a document has been pushed, the
result whether there is something to be probed. -/
def fill (s : BuildSide) (builded : Bool) : List Document → Bool × BuildSide
  | [] => (builded, { s with build := [], hitBuildEnd := true })
  | d :: ds =>
    match J.push s.hashTbl d with
    | none => (true, { s with build := ds, buildF := d })
    | some t => fill { s with hashTbl := t, buildF := .nil } true ds

def buildHashTbl (s : BuildSide) : Bool × BuildSide :=
  if s.buildF.isEmpty then
    if s.hitBuildEnd then (false, { s with hashTbl := J.clear })
    else J.fill { s with hashTbl := J.clear } false s.build
  else
    match J.push J.clear s.buildF with
    | none => (true, { s with hashTbl := J.clear })
    | some t => J.fill { s with hashTbl := t, buildF := .nil } true s.build

def iterate (j : HashJoin) : Fetched × HashJoin :=
  match j.state with
  | .build =>
    match J.buildHashTbl j.toBuildSide with
    | (true, s) => (.again, { j with toBuildSide := s, state := .probe, probes := J.probe })
    | (false, s) => (.eoc, { j with toBuildSide := s })
  | .probe =>
    match j.probes with
    | [] => (.again, { j with state := .build })
    | p :: ps =>
      let key := p.getField J.probeKey
      (.again, { j with state := .find, probes := ps, probeF := p, probeEle := key, hashContext := J.find j.hashTbl key })
  | .find =>
    match getMore j.probeEle j.hashContext with
    | none => (.again, { j with state := .probe, hashContext := [] })
    | some (d, context) => (.next d j.probeF, { j with hashContext := context })

/-- The pairs that `_fetchNext` returns until it reports the end, with a bound on the iterations of all calls. -/
def fetchAll : Nat → HashJoin → Option (List (Document × Document))
  | 0, _ => none
  | k + 1, j =>
    match J.iterate j with
    | (.again, j') => fetchAll k j'
    | (.next b p, j') => (fetchAll k j').map ((b, p) :: ·)
    | (.eoc, _) => some []

def start (build : List Document) : HashJoin :=
  ⟨⟨build, J.clear, .nil, false⟩, .build, [], .nil, none, []⟩

/-! ### What is to be returned -/

def joined (pair : Document × Document) : Bool :=
  match pair.1.getField J.buildKey with
  | none => false
  | some key => equal (pair.2.getField J.probeKey) (key, pair.1)

def together (pair : Document × Document) : Bool :=
  match pair.1.getField J.buildKey, pair.2.getField J.probeKey with
  | some key, some key' => J.hash key = J.hash key'
  | _, _ => true

def found (docs : List Document) : Multiset (Document × Document) :=
  ((docs : Multiset Document) ×ˢ (J.probe : Multiset Document)).filter fun pair => J.joined pair && J.together pair

def Fits (d : Document) : Prop := J.buckets * 8 + hashTupleSize + d.objsize ≤ J.bufSize

/-! ### The hash table -/

def tuples (docs : List Document) : List HashTuple :=
  docs.filterMap fun d => (d.getField J.buildKey).map fun key => (key, d)

def Holds (t : HashTable) (docs : List Document) : Prop :=
  ∀ i, (t.bucket i).Perm ((J.tuples docs).filter fun tuple => J.hash tuple.1 = i)

variable {J} {t t' : HashTable} {docs : List Document} {d : Document}

theorem holds_clear : J.Holds J.clear [] := fun _ => .refl _

theorem Holds.snoc_of_none (h : J.Holds t docs) (hd : d.getField J.buildKey = none) : J.Holds t (docs ++ [d]) := by
  have ht : J.tuples (docs ++ [d]) = J.tuples docs := by simp [tuples, hd]
  unfold Holds
  rw [ht]
  exact h

theorem link_perm (tuple : HashTuple) (l : List HashTuple) : (link tuple l).Perm (l ++ [tuple]) := by
  cases l with
  | nil => exact .refl _
  | cons first rest => exact (perm_append_singleton tuple rest).symm.cons first

theorem Holds.push (h : J.Holds t docs) (ht : J.push t d = some t') : J.Holds t' (docs ++ [d]) := by
  unfold Join.push at ht
  split at ht
  · cases ht
  · cases hd : d.getField J.buildKey with
    | none =>
      rw [hd] at ht
      cases ht
      exact h.snoc_of_none hd
    | some key =>
      rw [hd] at ht
      cases ht
      have htuples : J.tuples (docs ++ [d]) = J.tuples docs ++ [(key, d)] := by simp [tuples, hd]
      intro i
      rw [htuples, filter_append]
      dsimp only
      by_cases hi : J.hash key = i
      · subst hi
        rw [update_self, filter_cons_of_pos (by simp), filter_nil]
        exact (link_perm _ _).trans ((h _).append_right _)
      · rw [update_of_ne (Ne.symm hi), filter_cons_of_neg (by simpa using hi), filter_nil, append_nil]
        exact h i

theorem push_clear (h : J.Fits d) : ∃ t, J.push J.clear d = some t := by
  unfold Fits at h
  have hr : ¬ J.bufSize - J.clear.written < hashTupleSize + d.objsize := by
    show ¬ J.bufSize - J.buckets * 8 < _
    omega
  unfold push
  rw [if_neg hr]
  split <;> exact ⟨_, rfl⟩

def hits (J : Join) (t : HashTable) (p : Document) : List (Document × Document) :=
  ((J.find t (p.getField J.probeKey)).filter (equal (p.getField J.probeKey))).map fun tuple => (tuple.2, p)

theorem Holds.hits_perm (h : J.Holds t docs) (p : Document) :
    (J.hits t p).Perm ((docs.filter fun d => J.joined (d, p) && J.together (d, p)).map fun d => (d, p)) := by
  unfold hits
  cases hp : p.getField J.probeKey with
  | none =>
    have hno : ∀ d ∈ docs, ¬ (J.joined (d, p) && J.together (d, p)) = true := by
      intro d _
      unfold joined
      rw [hp]
      cases d.getField J.buildKey <;> exact Bool.false_ne_true
    rw [filter_eq_nil_iff.2 hno]
    exact .refl _
  | some key =>
    refine (((h (J.hash key)).filter _).map _).trans (.of_eq ?_)
    clear h
    rw [filter_filter]
    induction docs with
    | nil => rfl
    | cons d docs ih =>
      unfold joined together tuples at ih ⊢
      rw [filterMap_cons]
      simp only [hp, filter_cons] at ih ⊢
      cases d.getField J.buildKey with
      | none => exact ih
      | some key' =>
        simp only [Option.map_some, filter_cons]
        split
        · exact congrArg _ ih
        · exact ih

theorem Holds.hits_found (h : J.Holds t docs) : ((J.probe.flatMap (J.hits t) : List _) : Multiset _) = J.found docs := by
  unfold found
  induction J.probe with
  | nil => simp
  | cons p ps ih =>
    rw [flatMap_cons, ← Multiset.coe_add, ih, ← Multiset.cons_coe, Multiset.product_cons, Multiset.filter_add,
      Multiset.map_coe, Multiset.filter_coe, filter_map]
    refine congrArg (· + _) (Multiset.coe_eq_coe.2 ?_)
    simpa only [Function.comp_def, Bool.decide_eq_true] using h.hits_perm p

theorem found_append (docs docs' : List Document) : J.found (docs ++ docs') = J.found docs + J.found docs' := by
  unfold found
  rw [← Multiset.coe_add, Multiset.add_product, Multiset.filter_add]

/-! ### Runs of the loop -/

/-- The iterations from `j` on return `l` and report the end. -/
inductive Gives (J : Join) : HashJoin → List (Document × Document) → Prop
  | again {j j' l} : J.iterate j = (.again, j') → Gives J j' l → Gives J j l
  | next {j j' b p l} : J.iterate j = (.next b p, j') → Gives J j' l → Gives J j ((b, p) :: l)
  | eoc {j j'} : J.iterate j = (.eoc, j') → Gives J j []

variable {j : HashJoin} {l : List (Document × Document)}

theorem Gives.fetchAll (h : J.Gives j l) : ∃ K, ∀ k ≥ K, J.fetchAll k j = some l := by
  induction h with
  | again hj _ ih | next hj _ ih =>
    obtain ⟨K, ih⟩ := ih
    refine ⟨K + 1, fun k hk => ?_⟩
    obtain ⟨k, rfl⟩ := Nat.exists_eq_add_of_le' (Nat.le_of_add_left_le hk)
    simp [Join.fetchAll, hj, ih k (Nat.le_of_succ_le_succ hk)]
  | eoc hj =>
    refine ⟨1, fun k hk => ?_⟩
    obtain ⟨k, rfl⟩ := Nat.exists_eq_add_of_le' hk
    rw [Join.fetchAll, hj]

theorem getMore_cases (key : Option Field) (context : List HashTuple) :
    (getMore key context = none ∧ context.filter (equal key) = []) ∨
      ∃ tuple rest, getMore key context = some (tuple.2, rest) ∧
        context.filter (equal key) = tuple :: rest.filter (equal key) := by
  induction context with
  | nil => exact .inl ⟨rfl, rfl⟩
  | cons tuple context ih =>
    unfold getMore
    rw [filter_cons]
    split
    · exact .inr ⟨tuple, context, rfl, rfl⟩
    · exact ih

theorem gives_find (hj : j.state = .find) :
    ∃ j', j'.toBuildSide = j.toBuildSide ∧ j'.state = .probe ∧ j'.probes = j.probes ∧
      ∀ l, J.Gives j' l →
        J.Gives j ((j.hashContext.filter (equal j.probeEle)).map (fun tuple => (tuple.2, j.probeF)) ++ l) := by
  generalize hl : j.hashContext.filter (equal j.probeEle) = tuples
  induction tuples generalizing j with
  | nil =>
    obtain ⟨hn, -⟩ | ⟨_, _, -, hc⟩ := getMore_cases j.probeEle j.hashContext
    · refine ⟨{ j with state := .probe, hashContext := [] }, rfl, rfl, rfl, fun l hg => .again ?_ hg⟩
      simp only [iterate, hj, hn]
    · rw [hl] at hc
      cases hc
  | cons tuple tuples ih =>
    obtain ⟨-, hnil⟩ | ⟨_, rest, hm, hc⟩ := getMore_cases j.probeEle j.hashContext
    · rw [hl] at hnil
      cases hnil
    · rw [hl] at hc
      cases hc
      obtain ⟨j', hs, hst, hp, hg⟩ := ih (j := { j with hashContext := rest }) hj rfl
      refine ⟨j', hs, hst, hp, fun l hl => .next ?_ (hg l hl)⟩
      simp only [iterate, hj, hm]

theorem gives_probe (hj : j.state = .probe) : ∃ j', j'.toBuildSide = j.toBuildSide ∧ j'.state = .build ∧
      ∀ l, J.Gives j' l → J.Gives j (j.probes.flatMap (J.hits j.hashTbl) ++ l) := by
  generalize hps : j.probes = ps
  induction ps generalizing j with
  | nil =>
    refine ⟨{ j with state := .build }, rfl, rfl, fun l hg => .again ?_ hg⟩
    simp only [iterate, hj, hps]
  | cons p ps ih =>
    let j1 : HashJoin := { j with
      state := .find, probes := ps, probeF := p, probeEle := p.getField J.probeKey,
      hashContext := J.find j.hashTbl (p.getField J.probeKey) }
    obtain ⟨j2, hs2, hst2, hp2, hg2⟩ := gives_find (J := J) (j := j1) rfl
    obtain ⟨j', hs', hst', hg'⟩ := ih hst2 hp2
    refine ⟨j', hs'.trans hs2, hst', fun l hg => ?_⟩
    rw [flatMap_cons, append_assoc]
    have hs : J.iterate j = (.again, j1) := by
      simp only [iterate, hj, hps]
      rfl
    refine .again hs (hg2 _ ?_)
    have ht : j2.hashTbl = j.hashTbl := congrArg BuildSide.hashTbl hs2
    exact ht ▸ hg' l hg

/-! ### The batches -/

def pending (s : BuildSide) : List Document := (if s.buildF.isEmpty then [] else [s.buildF]) ++ s.build

variable {s : BuildSide}

theorem fill_fst (ds : List Document) : (J.fill s true ds).1 := by
  induction ds generalizing s with
  | nil => rfl
  | cons d ds ih =>
    unfold fill
    split
    · rfl
    · exact ih

theorem fill_spec (h : J.Holds s.hashTbl docs) (hempty : s.buildF.isEmpty) {ds : List Document}
    (hend : s.hitBuildEnd → ds = []) (builded : Bool) :
    ∃ batch, J.Holds (J.fill s builded ds).2.hashTbl (docs ++ batch) ∧ ds = batch ++ pending (J.fill s builded ds).2 ∧
      ((J.fill s builded ds).2.hitBuildEnd = true → (J.fill s builded ds).2.build = []) := by
  induction ds generalizing s docs builded with
  | nil => exact ⟨[], by rwa [append_nil], by simp [fill, pending, hempty], fun _ => rfl⟩
  | cons d ds ih =>
    unfold fill
    split
    · refine (em (d.isEmpty = true)).elim (fun hd => ⟨[d], ?_, ?_, ?_⟩) fun hd => ⟨[], ?_, ?_, ?_⟩
      · exact h.snoc_of_none (d.getField_of_isEmpty hd _)
      · simp [pending, hd]
      · exact fun h' => absurd (hend h') (cons_ne_nil _ _)
      · rwa [append_nil]
      · simp [pending, hd]
      · exact fun h' => absurd (hend h') (cons_ne_nil _ _)
    · next t ht =>
      obtain ⟨batch, hb, hds, he⟩ := ih (s := { s with hashTbl := t, buildF := .nil }) (h.push ht) rfl
        (fun h' => absurd (hend h') (cons_ne_nil _ _)) true
      exact ⟨d :: batch, by rwa [append_assoc] at hb, congrArg (d :: ·) hds, he⟩

def Batch (J : Join) (docs : List Document) (s : BuildSide) : Prop :=
  ∃ d batch, J.Holds s.hashTbl (d :: batch) ∧ docs = d :: batch ++ pending s ∧ (s.hitBuildEnd = true → s.build = [])

theorem fill_batch (hf : J.Fits d) {ds : List Document} (hend : s.hitBuildEnd → ds = []) :
    ∃ t, J.push J.clear d = some t ∧ J.Batch (d :: ds) (J.fill { s with hashTbl := t, buildF := .nil } true ds).2 := by
  obtain ⟨t, ht⟩ := push_clear hf
  obtain ⟨batch, hb, hds, he⟩ := fill_spec (s := { s with hashTbl := t, buildF := .nil }) (holds_clear.push ht) rfl hend true
  exact ⟨t, ht, d, batch, hb, congrArg (d :: ·) hds, he⟩

theorem buildHashTbl_spec (hf : ∀ d ∈ pending s, J.Fits d) (he : s.hitBuildEnd → s.build = []) :
    (pending s = [] ∧ (J.buildHashTbl s).1 = false) ∨
      (J.buildHashTbl s).1 ∧ J.Batch (pending s) (J.buildHashTbl s).2 := by
  unfold buildHashTbl
  cases hF : s.buildF.isEmpty with
  | true =>
    have hp : pending s = s.build := by simp [pending, hF]
    rw [hp] at hf ⊢
    simp only [if_true]
    split
    · next h => exact .inl ⟨he h, rfl⟩
    · next h =>
      cases hds : s.build with
      | nil => exact .inl ⟨rfl, rfl⟩
      | cons d ds =>
        have hn : s.hitBuildEnd = true → ds = [] := fun h' => absurd h' h
        obtain ⟨t, ht, hb⟩ := fill_batch (hf d (by simp [hds])) hn
        rw [hds] at hb
        unfold fill
        simp only [ht]
        exact .inr ⟨fill_fst ds, hb⟩
  | false =>
    have hp : pending s = s.buildF :: s.build := by simp [pending, hF]
    rw [hp] at hf ⊢
    obtain ⟨t, ht, hb⟩ := fill_batch (hf s.buildF mem_cons_self) he
    simp only [Bool.false_eq_true, if_false, ht]
    exact .inr ⟨fill_fst s.build, hb⟩

theorem gives_build (hj : j.state = .build) (hf : ∀ d ∈ pending j.toBuildSide, J.Fits d)
    (he : j.hitBuildEnd → j.build = []) :
    ∃ l : List _, J.Gives j l ∧ (l : Multiset _) = J.found (pending j.toBuildSide) := by
  generalize hn : (pending j.toBuildSide).length = n
  induction n using Nat.strong_induction_on generalizing j with
  | _ n ih =>
    obtain ⟨hnil, hfalse⟩ | ⟨ht, d, batch, hh, hp, hend'⟩ := buildHashTbl_spec hf he
    · rw [hnil]
      have hstep : J.iterate j = (.eoc, { j with toBuildSide := (J.buildHashTbl j.toBuildSide).2 }) := by
        simp only [iterate, hj]
        rw [← Prod.mk.eta (p := J.buildHashTbl j.toBuildSide), hfalse]
      exact ⟨[], .eoc hstep, rfl⟩
    · let j1 : HashJoin := { j with
        toBuildSide := (J.buildHashTbl j.toBuildSide).2, state := .probe, probes := J.probe }
      obtain ⟨j2, hs, hst, hg⟩ := gives_probe (J := J) (j := j1) rfl
      change j2.toBuildSide = (J.buildHashTbl j.toBuildSide).2 at hs
      have hlength : (pending j2.toBuildSide).length < n := by
        rw [hs, ← hn, hp, length_append, length_cons]
        exact Nat.lt_add_of_pos_left (Nat.succ_pos _)
      have hfit' : ∀ x ∈ pending j2.toBuildSide, J.Fits x := fun x hx =>
        hf x (hp ▸ mem_append_right _ (hs ▸ hx))
      obtain ⟨l, hl, heq⟩ := ih _ hlength hst hfit' (hs ▸ hend') rfl
      have hstep : J.iterate j = (.again, j1) := by
        simp only [iterate, hj]
        rw [← Prod.mk.eta (p := J.buildHashTbl j.toBuildSide), ht]
      refine ⟨_, .again hstep (hg l hl), ?_⟩
      rw [hp, found_append, ← hh.hits_found, ← Multiset.coe_add, heq, hs]

/-- The pairs returned are exactly those whose fields are present and compare equal, if and only if such fields are
always in one bucket. -/
theorem fetchAll_joined_iff (buildKey probeKey : Name) (build probe : List Document) (bufSize buckets : Nat)
    (hfit : ∀ d ∈ build, Fits ⟨buildKey, probeKey, probe, bufSize, buckets, ossHash⟩ d) :
    let J : Join := ⟨buildKey, probeKey, probe, bufSize, buckets, ossHash⟩
    ∃ l : List (Document × Document), (∃ K, ∀ k ≥ K, J.fetchAll k (J.start build) = some l) ∧
      ((l : Multiset _) = ((build : Multiset _) ×ˢ (J.probe : Multiset _)).filter (J.joined · = true) ↔
        ∀ b ∈ build, ∀ p ∈ J.probe, J.joined (b, p) = true → J.together (b, p) = true) := by
  intro J
  have hpending : pending (J.start build).toBuildSide = build := rfl
  obtain ⟨l, hl, heq⟩ := gives_build (J := J) (j := J.start build) rfl (by rwa [hpending]) nofun
  refine ⟨l, hl.fetchAll, ?_⟩
  rw [heq, hpending]
  unfold found
  constructor
  · intro h b hb p hp hjoined
    have hmem : (b, p) ∈ ((build : Multiset _) ×ˢ (J.probe : Multiset _)).filter (J.joined · = true) :=
      Multiset.mem_filter.2 ⟨Multiset.mem_product.2 ⟨hb, hp⟩, hjoined⟩
    rw [← h] at hmem
    exact (Bool.and_eq_true_iff.1 (Multiset.mem_filter.1 hmem).2).2
  · intro h
    refine Multiset.filter_congr fun pair hpair => ?_
    obtain ⟨hb, hp⟩ := Multiset.mem_product.1 hpair
    rw [Bool.and_eq_true, and_iff_left_iff_imp]
    exact h pair.1 hb pair.2 hp

def single (f : Field) : Document := ⟨30, [([97], f)], fun h => by omega⟩

/-- The numbers 1 of two types, in a hash table of 1 MB. -/
theorem int_misses_long :
    let b := single ⟨.int 1, [1, 0, 0, 0]⟩
    let p := single ⟨.long 1, [1, 0, 0, 0, 0, 0, 0, 0]⟩
    let J : Join := ⟨[97], [97], [p], 1048576, 6553, ossHash⟩
    J.joined (b, p) = true ∧ J.fetchAll 5 (J.start [b]) = some [] :=
  ⟨rfl, rfl⟩

theorem fetchAll_joined_int :
    let b := single ⟨.int 1, [1, 0, 0, 0]⟩
    let J : Join := ⟨[97], [97], [b], 1048576, 6553, ossHash⟩
    (∀ d ∈ [b], J.Fits d) ∧ ∃ l : List (Document × Document), (∃ K, ∀ k ≥ K, J.fetchAll k (J.start [b]) = some l) ∧
      (l : Multiset _) = (([b] : Multiset _) ×ˢ (J.probe : Multiset _)).filter (J.joined · = true) := by
  intro b J
  have hfit : ∀ d ∈ [b], J.Fits d := by
    intro d hd
    rw [mem_singleton.1 hd]
    show 6553 * 8 + 32 + 30 ≤ 1048576
    decide
  obtain ⟨l, hl, hiff⟩ := fetchAll_joined_iff [97] [97] [b] [b] 1048576 6553 hfit
  refine ⟨hfit, l, hl, hiff.2 ?_⟩
  intro b' hb p hp _
  rw [mem_singleton.1 hb, mem_singleton.1 hp]
  exact decide_eq_true rfl

/-- **Every hash gives a part of the join**: the pairs returned are pairs of the nested loops, none of them more
often than there, and only pairs whose fields are in different buckets are missing. -/
theorem fetchAll_le_joined (J : Join) (build : List Document) (hfit : ∀ d ∈ build, J.Fits d) :
    ∃ l : List (Document × Document), (∃ K, ∀ k ≥ K, J.fetchAll k (J.start build) = some l) ∧
      (l : Multiset _) ≤ ((build : Multiset _) ×ˢ (J.probe : Multiset _)).filter (J.joined · = true) ∧
      ∀ b ∈ build, ∀ p ∈ J.probe, J.joined (b, p) = true → (b, p) ∉ l → J.together (b, p) = false := by
  obtain ⟨l, hl, heq⟩ := gives_build (J := J) (j := J.start build) rfl hfit nofun
  refine ⟨l, hl.fetchAll, heq.trans_le (Multiset.monotone_filter_right _ fun pair h => (Bool.and_eq_true_iff.1 h).1), ?_⟩
  intro b hb p hp hjoined hno
  by_contra htogether
  refine hno (Multiset.mem_coe.1 (heq.symm ▸ Multiset.mem_filter.2 ⟨Multiset.mem_product.2 ⟨hb, hp⟩, ?_⟩))
  simp [hjoined, Bool.not_eq_false _ ▸ htogether]

theorem fetchAll_le_joined_long :
    let b := single ⟨.int 1, [1, 0, 0, 0]⟩
    let p := single ⟨.long 1, [1, 0, 0, 0, 0, 0, 0, 0]⟩
    let J : Join := ⟨[97], [97], [p, b], 200, 5, ossHash⟩
    ∃ l : List (Document × Document), (∃ K, ∀ k ≥ K, J.fetchAll k (J.start [b, p]) = some l) ∧
      (l : Multiset _) ≤ (([b, p] : Multiset _) ×ˢ (J.probe : Multiset _)).filter (J.joined · = true) := by
  intro b p J
  obtain ⟨l, hl, hle, -⟩ := fetchAll_le_joined J [b, p] (by simp [Fits, J, b, p, single, hashTupleSize])
  exact ⟨l, hl, hle⟩

end Join

end SequoiaDB.Qgm

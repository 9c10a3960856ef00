import SequoiaDB.Lib.OrderedMap
import SequoiaDB.Lib.Run

/-!
# A map that begins in place

`_utilMap` keeps up to `stackSize` entries in an array in the order of their keys, and more of them in a `map` on the heap.
`insert` moves the entries to the heap when the array may become too small, and `shift2Stack` moves them back.
-/

namespace SequoiaDB.Util

open Lib List
open OrderedMap (Sorted position)

/-- `staticBuf` are the first `_eleSize` entries of the array.  An iterator is the number of an entry, or `none` if it is
equal to `end()`. -/
structure UtilMap (K V : Type*) where
  staticBuf : List (K × V)
  pMap : Option (List (K × V))

variable {K V : Type*} [LinearOrder K]

def search (first : Nat → K) (key : K) (l u : Nat) : Option Nat :=
  if l < u then
    let m := (l + u - 1) / 2
    if first m = key then some m
    else if first m < key then search first key (m + 1) u
    else search first key l m
  else none
termination_by u - l

def searchBound (first : Nat → K) (key : K) (includeEqual : Bool) (l u : Nat) (equal : Bool) : Nat × Bool :=
  if l < u then
    let m := (l + u - 1) / 2
    if first m = key then
      if includeEqual then searchBound first key includeEqual l m true
      else searchBound first key includeEqual (m + 1) u true
    else if first m < key then searchBound first key includeEqual (m + 1) u equal
    else searchBound first key includeEqual l m equal
  else (l, equal)
termination_by u - l

section Search

variable {f : Nat → K} {n l u : Nat} {k : K} {c q : Bool}

def Ordered (f : Nat → K) (n : Nat) : Prop := ∀ i j, i < j → j < n → f i < f j

theorem Ordered.le (h : Ordered f n) {i j : Nat} (hij : i ≤ j) (hj : j < n) : f i ≤ f j := by
  rcases hij.eq_or_lt with rfl | hij
  · exact le_rfl
  · exact (h i j hij hj).le

theorem search_spec (h : Ordered f n) (hu : u ≤ n) (hl : ∀ i < l, f i < k) (hr : ∀ i, u ≤ i → i < n → k < f i) :
    (∀ i, search f k l u = some i → i < n ∧ f i = k) ∧ (search f k l u = none → ∀ i < n, f i ≠ k) := by
  induction l, u using search.induct f k with
  | case1 l u hlu m hm =>
    rw [search, if_pos hlu, if_pos hm]
    refine ⟨fun i hi => ?_, nofun⟩
    obtain rfl := Option.some.inj hi
    exact ⟨by omega, hm⟩
  | case2 l u hlu m hm hlt ih =>
    rw [search, if_pos hlu, if_neg hm, if_pos hlt]
    exact ih hu (fun i hi => (h.le (by omega) (by omega : m < n)).trans_lt hlt) hr
  | case3 l u hlu m hm hlt ih =>
    rw [search, if_pos hlu, if_neg hm, if_neg hlt]
    have hgt := lt_of_le_of_ne (not_lt.1 hlt) (Ne.symm hm)
    exact ih (by omega) hl fun i hi hn => hgt.trans_le (h.le hi hn)
  | case4 l u hlu =>
    rw [search, if_neg hlu]
    refine ⟨nofun, fun _ i hi => ?_⟩
    rcases Nat.lt_or_ge i l with hil | hil
    · exact (hl i hil).ne
    · exact (hr i (by omega) hi).ne'

def before (c : Bool) (k x : K) : Bool := if c then x < k else x ≤ k

theorem before_of_le {x y : K} (hxy : x ≤ y) (hy : before c k y = true) : before c k x = true := by
  cases c with
  | true => simpa [before] using hxy.trans_lt (by simpa [before] using hy)
  | false => simpa [before] using hxy.trans (by simpa [before] using hy)

theorem searchBound_eq (hlu : l < u) : searchBound f k c l u q =
    let m := (l + u - 1) / 2
    if before c k (f m) then searchBound f k c (m + 1) u (q || f m = k)
    else searchBound f k c l m (q || f m = k) := by
  rw [searchBound, if_pos hlu]
  rcases lt_trichotomy (f ((l + u - 1) / 2)) k with hm | hm | hm
  · cases c <;> simp [before, hm, hm.le, hm.ne]
  · cases c <;> simp [before, hm]
  · cases c <;> simp [before, hm.not_gt, hm.not_ge, hm.ne']

theorem met_iff {m l' u' : Nat} (hm : l ≤ m ∧ m < u) (hsub : l ≤ l' ∧ u' ≤ u)
    (hout : ∀ i, l ≤ i → i < u → f i = k → f m = k ∨ l' ≤ i ∧ i < u') :
    ((q || f m = k) = true ∨ ∃ i, l' ≤ i ∧ i < u' ∧ f i = k) ↔ q = true ∨ ∃ i, l ≤ i ∧ i < u ∧ f i = k := by
  rw [Bool.or_eq_true, decide_eq_true_eq, or_assoc]
  refine or_congr_right ⟨?_, ?_⟩
  · rintro (hk | ⟨i, hi, hiu, hk⟩)
    · exact ⟨m, hm.1, hm.2, hk⟩
    · exact ⟨i, by omega, by omega, hk⟩
  · rintro ⟨i, hi, hiu, hk⟩
    exact (hout i hi hiu hk).imp_right fun h => ⟨i, h.1, h.2, hk⟩

theorem searchBound_spec (h : Ordered f n) (hlu : l ≤ u) (hu : u ≤ n) (hl : ∀ i < l, before c k (f i) = true)
    (hr : ∀ i, u ≤ i → i < n → before c k (f i) = false) :
    (searchBound f k c l u q).1 ≤ n ∧ (∀ i < n, before c k (f i) = decide (i < (searchBound f k c l u q).1)) ∧
      ((searchBound f k c l u q).2 = true ↔ q = true ∨ ∃ i, l ≤ i ∧ i < u ∧ f i = k) := by
  induction hd : u - l using Nat.strong_induction_on generalizing l u q with
  | h d ih =>
    rcases hlu.eq_or_lt with rfl | hlt
    · rw [searchBound, if_neg (lt_irrefl _)]
      refine ⟨hu, fun i hi => ?_, by simp only [iff_self_or, forall_exists_index]; omega⟩
      rcases Nat.lt_or_ge i l with hil | hil
      · simp [hl i hil, hil]
      · simp [hr i hil hi, hil]
    · rw [searchBound_eq hlt]
      set m := (l + u - 1) / 2 with hm
      by_cases hb : before c k (f m) = true
      · rw [if_pos hb]
        obtain ⟨h1, h2, h3⟩ := ih (u - (m + 1)) (by omega) (q := q || f m = k) (by omega) hu
          (fun i hi => before_of_le (h.le (by omega) (by omega)) hb) hr rfl
        refine ⟨h1, h2, h3.trans (met_iff (by omega) (by omega) fun i hi hiu hk => ?_)⟩
        rcases Nat.lt_or_ge m i with him | him
        · exact .inr ⟨him, hiu⟩
        · have hle : f m ≤ k := by cases c <;> simp [before] at hb <;> [exact hb; exact hb.le]
          exact .inl (le_antisymm hle (hk ▸ h.le him (by omega)))
      · rw [if_neg hb]
        obtain ⟨h1, h2, h3⟩ := ih (m - l) (by omega) (q := q || f m = k) (by omega) (by omega) hl
          (fun i hi hn => by simpa using fun hc => hb (before_of_le (h.le hi hn) hc)) rfl
        refine ⟨h1, h2, h3.trans (met_iff (by omega) (by omega) fun i hi hiu hk => ?_)⟩
        rcases Nat.lt_or_ge i m with him | him
        · exact .inr ⟨hi, him⟩
        · have hle : k ≤ f m := by cases c <;> simp [before] at hb <;> [exact hb.le; exact hb]
          exact .inl (le_antisymm (hk ▸ h.le him (by omega)) hle)

end Search

variable [Inhabited K] [Inhabited V]

def keyAt (buf : List (K × V)) (i : Nat) : K := (buf.getD i default).1

def findInStackBuf (buf : List (K × V)) (key : K) : Option Nat := search (keyAt buf) key 0 buf.length

def findBoundInStackBuf (buf : List (K × V)) (key : K) (includeEqual : Bool) : Option Nat × Bool :=
  let r := searchBound (keyAt buf) key includeEqual 0 buf.length false
  (if buf.length ≤ r.1 then none else some r.1, r.2)

def insertInStackBuf (buf : List (K × V)) (key : K) (val : V) : List (K × V) × Option Nat × Bool :=
  if buf = [] then ([(key, val)], some 0, true)
  else
    let r := findBoundInStackBuf buf key false
    if r.2 then (buf, none, false)
    else
      let pos := r.1.getD buf.length
      (buf.insertIdx pos (key, val), some pos, true)

def equalRangeInStackBuf (buf : List (K × V)) (key : K) : Option Nat × Option Nat :=
  match findBoundInStackBuf buf key true with
  | (some pos, true) => (some pos, (range' (pos + 1) (buf.length - (pos + 1))).find? fun i => keyAt buf i ≠ key)
  | _ => (none, none)

namespace UtilMap

def contents (s : UtilMap K V) : List (K × V) := s.pMap.getD s.staticBuf

def size (s : UtilMap K V) : Nat := s.contents.length

def ensureSpace (stackSize : Nat) (s : UtilMap K V) (size : Nat) : UtilMap K V :=
  if s.pMap = none ∧ stackSize < size then
    ⟨[], some (s.staticBuf.foldl (fun m e => (OrderedMap.insert m e.1 e.2).1) [])⟩
  else s

def insert (stackSize : Nat) (s : UtilMap K V) (key : K) (val : V) : UtilMap K V × Option Nat × Bool :=
  let s := s.ensureSpace stackSize (s.staticBuf.length + 1)
  match s.pMap with
  | some m =>
    let r := OrderedMap.insert m key val
    ({ s with pMap := some r.1 }, r.2)
  | none =>
    let r := insertInStackBuf s.staticBuf key val
    ({ s with staticBuf := r.1 }, r.2)

def find (s : UtilMap K V) (key : K) : Option Nat :=
  match s.pMap with
  | some m => OrderedMap.find m key
  | none => findInStackBuf s.staticBuf key

def index (stackSize : Nat) (s : UtilMap K V) (key : K) : UtilMap K V × Option Nat :=
  match s.find key with
  | some i => (s, some i)
  | none =>
    let r := s.insert stackSize key default
    (r.1, r.2.1)

def eraseRange (s : UtilMap K V) (b len : Nat) : UtilMap K V :=
  match s.pMap with
  | some m => { s with pMap := some (OrderedMap.eraseRange m b len) }
  | none => { s with staticBuf := s.staticBuf.take b ++ s.staticBuf.drop (b + len) }

def erase (s : UtilMap K V) (key : K) : UtilMap K V :=
  match s.find key with
  | some i => s.eraseRange i 1
  | none => s

def clear (s : UtilMap K V) (resetMem : Bool) : UtilMap K V :=
  ⟨[], if resetMem then none else s.pMap.map fun _ => []⟩

def shift2Stack (stackSize : Nat) (s : UtilMap K V) (divisor : Nat) : UtilMap K V :=
  match s.pMap with
  | some m => if m.length ≤ stackSize / divisor then ⟨m, none⟩ else s
  | none => s

def assign (stackSize : Nat) (s rhs : UtilMap K V) : UtilMap K V :=
  rhs.contents.foldl (fun s e => (s.insert stackSize e.1 e.2).1) ((s.clear true).ensureSpace stackSize rhs.size)

def count (s : UtilMap K V) (key : K) : Nat := if (s.find key).isSome then 1 else 0

def get (s : UtilMap K V) (key : K) : Option V := (s.find key).bind fun i => (s.contents[i]?).map Prod.snd

def bound (s : UtilMap K V) (key : K) (includeEqual : Bool) : Option Nat :=
  match s.pMap with
  | some m => if includeEqual then OrderedMap.lowerBound m key else OrderedMap.upperBound m key
  | none => (findBoundInStackBuf s.staticBuf key includeEqual).1

def lowerBound (s : UtilMap K V) (key : K) : Option Nat := s.bound key true

def upperBound (s : UtilMap K V) (key : K) : Option Nat := s.bound key false

def equalRange (s : UtilMap K V) (key : K) : Option Nat × Option Nat :=
  match s.pMap with
  | some m => (OrderedMap.lowerBound m key, OrderedMap.upperBound m key)
  | none => equalRangeInStackBuf s.staticBuf key

end UtilMap

/-- The operations that change a map. -/
inductive MapOp (K V : Type*)
  | insert (key : K) (val : V)
  | index (key : K)
  | assign (rhs : UtilMap K V)
  | erase (key : K)
  | eraseRange (b len : Nat)
  | clear (resetMem : Bool)
  | shift2Stack (divisor : Nat)

namespace MapOp

def exec (stackSize : Nat) (s : UtilMap K V) : MapOp K V → UtilMap K V
  | .insert key val => (s.insert stackSize key val).1
  | .index key => (s.index stackSize key).1
  | .assign rhs => s.assign stackSize rhs
  | .erase key => s.erase key
  | .eraseRange b len => s.eraseRange b len
  | .clear resetMem => s.clear resetMem
  | .shift2Stack divisor => s.shift2Stack stackSize divisor

def apply (m : List (K × V)) : MapOp K V → List (K × V)
  | .insert key val => (OrderedMap.insert m key val).1
  | .index key => (OrderedMap.insert m key default).1
  | .assign rhs => rhs.contents
  | .erase key => OrderedMap.erase m key
  | .eraseRange b len => OrderedMap.eraseRange m b len
  | .clear _ => []
  | .shift2Stack _ => m

end MapOp

section Array

variable {buf : List (K × V)} {k : K}

omit [LinearOrder K] in
theorem keyAt_of_lt {i : Nat} (hi : i < buf.length) : keyAt buf i = (buf[i]).1 := by
  simp [keyAt, hi]

theorem ordered_keyAt (h : Sorted buf) : Ordered (keyAt buf) buf.length := fun i j hij hj => by
  rw [keyAt_of_lt hj, keyAt_of_lt (hij.trans hj)]
  exact pairwise_iff_getElem.1 h i j (hij.trans hj) hj hij

omit [LinearOrder K] in
theorem mem_keys : k ∈ buf.map Prod.fst ↔ ∃ i < buf.length, keyAt buf i = k := by
  rw [mem_iff_getElem]
  constructor
  · rintro ⟨i, hi, rfl⟩
    have hi' : i < buf.length := by simpa using hi
    exact ⟨i, hi', by simp [keyAt_of_lt hi']⟩
  · rintro ⟨i, hi, rfl⟩
    exact ⟨i, by simpa using hi, by simp [keyAt_of_lt hi]⟩

omit [LinearOrder K] in
theorem countP_keyAt {p : K → Bool} {r : Nat} (hr : r ≤ buf.length)
    (h : ∀ i < buf.length, p (keyAt buf i) = decide (i < r)) : buf.countP (fun e => p e.1) = r := by
  induction buf generalizing r with
  | nil => simpa [eq_comm] using hr
  | cons e buf ih =>
    have h0 : p e.1 = decide (0 < r) := h 0 (by simp)
    have hs : ∀ i < buf.length, p (keyAt buf i) = decide (i + 1 < r) := fun i hi => h (i + 1) (by simpa using hi)
    cases r with
    | zero =>
      rw [countP_cons_of_neg (by simp [h0])]
      exact ih (Nat.zero_le _) fun i hi => by simp [hs i hi]
    | succ r =>
      rw [countP_cons_of_pos (by simp [h0]), ih (by simpa using hr) fun i hi => by simp [hs i hi]]

theorem countP_before (h : Sorted buf) {i : Nat} (hi : i < buf.length) (c : Bool) :
    buf.countP (fun e => before c (keyAt buf i) e.1) = if c then i else i + 1 := by
  have ho := ordered_keyAt h
  refine countP_keyAt (p := before c (keyAt buf i)) (by split_ifs <;> omega) fun j hj => ?_
  rcases lt_trichotomy j i with hji | rfl | hji
  · have hlt := ho j i hji hi
    cases c <;> simp [before, hlt, hlt.le, hji, Nat.lt_succ_of_lt hji]
  · cases c <;> simp [before]
  · have hlt := ho i j hji hj
    cases c <;> simp [before, hlt.not_gt, hlt.not_ge, hji.not_gt]
    exact hji

theorem lowerBound_keyAt (h : Sorted buf) {i : Nat} (hi : i < buf.length) :
    OrderedMap.lowerBound buf (keyAt buf i) = some i := by
  have hc := countP_before h hi true
  simp only [before, if_true] at hc
  rw [OrderedMap.lowerBound, hc, position, if_pos hi]

theorem findBound_eq (h : Sorted buf) (k : K) (c : Bool) : findBoundInStackBuf buf k c =
    (position buf (buf.countP fun e => before c k e.1), decide (k ∈ buf.map Prod.fst)) := by
  obtain ⟨h1, h2, h3⟩ := searchBound_spec (l := 0) (k := k) (c := c) (q := false) (ordered_keyAt h) (Nat.zero_le _)
    le_rfl (by simp) fun i h1 h2 => absurd h2 (Nat.not_lt.2 h1)
  rw [countP_keyAt h1 h2, position, ← ite_not]
  refine Prod.ext ?_ (Bool.eq_iff_iff.2 ?_)
  · simp [findBoundInStackBuf]
  · simpa [findBoundInStackBuf, -mem_map, mem_keys] using h3

theorem find_eq (h : Sorted buf) (k : K) : findInStackBuf buf k = OrderedMap.find buf k := by
  obtain ⟨h1, h2⟩ := search_spec (l := 0) (k := k) (ordered_keyAt h) le_rfl (by simp) fun i h1 h2 => absurd h2 (Nat.not_lt.2 h1)
  unfold OrderedMap.find findInStackBuf
  cases hf : search (keyAt buf) k 0 buf.length with
  | none =>
    refine (if_neg fun hk => ?_).symm
    obtain ⟨i, hi, hk⟩ := mem_keys.1 hk
    exact h2 hf i hi hk
  | some i =>
    obtain ⟨hi, rfl⟩ := h1 i hf
    rw [if_pos (mem_keys.2 ⟨i, hi, rfl⟩)]
    exact (lowerBound_keyAt h hi).symm

theorem insertInStackBuf_eq (h : Sorted buf) (v : V) (hk : k ∉ buf.map Prod.fst) :
    insertInStackBuf buf k v = OrderedMap.insert buf k v := by
  have heq : buf.countP (fun e => before false k e.1) = buf.countP (·.1 < k) := countP_congr fun e he => by
    have hne : e.1 ≠ k := fun hc => hk (mem_map.2 ⟨e, he, hc⟩)
    simp [before, le_iff_lt_or_eq, hne]
  have hpos : (position buf (buf.countP (·.1 < k))).getD buf.length = buf.countP (·.1 < k) := by
    unfold position
    split_ifs with hlt
    · rfl
    · exact le_antisymm (not_lt.1 hlt) countP_le_length
  unfold insertInStackBuf
  rw [OrderedMap.insert, if_neg hk, findBound_eq h, heq]
  by_cases hz : buf = []
  · subst hz
    rfl
  · simp only [if_neg hz, hk, decide_false, hpos]
    rfl

theorem insertInStackBuf_of_mem (h : Sorted buf) (v : V) (hk : k ∈ buf.map Prod.fst) :
    insertInStackBuf buf k v = (buf, none, false) := by
  have hz : buf ≠ [] := fun hz => by simp [hz] at hk
  rw [insertInStackBuf, if_neg hz, findBound_eq h]
  exact if_pos (decide_eq_true hk)

theorem equalRangeInStackBuf_eq (h : Sorted buf) (hk : k ∈ buf.map Prod.fst) :
    equalRangeInStackBuf buf k = (OrderedMap.lowerBound buf k, OrderedMap.upperBound buf k) := by
  have hd := decide_eq_true hk
  obtain ⟨i, hi, rfl⟩ := mem_keys.1 hk
  have hlow := lowerBound_keyAt h hi
  have hb : findBoundInStackBuf buf (keyAt buf i) true = (some i, true) :=
    (findBound_eq h _ true).trans (Prod.ext hlow hd)
  have hup : OrderedMap.upperBound buf (keyAt buf i) = position buf (i + 1) := by
    have hc := countP_before h hi false
    simp only [before] at hc
    exact congrArg _ hc
  rw [hlow, hup]
  simp only [equalRangeInStackBuf, hb, position]
  split_ifs with hlt
  · obtain ⟨d, hd⟩ := Nat.exists_eq_add_of_lt hlt
    have hd : buf.length - (i + 1) = d + 1 := by omega
    rw [hd, range'_succ, find?_cons_of_pos (by simpa using (ordered_keyAt h i _ i.lt_succ_self hlt).ne')]
  · rw [Nat.sub_eq_zero_of_le (Nat.not_lt.1 hlt)]
    rfl

theorem equalRangeInStackBuf_of_notMem (h : Sorted buf) (hk : k ∉ buf.map Prod.fst) :
    equalRangeInStackBuf buf k = (none, none) := by
  rw [equalRangeInStackBuf, findBound_eq h, decide_eq_false hk]
  cases position buf (buf.countP fun e => before true k e.1) <;> rfl

end Array

namespace UtilMap

/-- The entries are in order, and the array is large enough for them. -/
structure Inv (N : Nat) (s : UtilMap K V) : Prop where
  sorted : Sorted s.contents
  fits : s.pMap = none → s.staticBuf.length ≤ N

variable {N : Nat} {s rhs : UtilMap K V} {k : K} {v : V}

omit [Inhabited K] [Inhabited V] in
theorem Inv.ensureSpace (h : s.Inv N) (size : Nat) :
    (s.ensureSpace N size).contents = s.contents ∧
      ((s.ensureSpace N size).pMap = none → size ≤ N ∧ s.ensureSpace N size = s) ∧
      ((s.ensureSpace N size).pMap ≠ none → s.pMap ≠ none ∨ N < size) := by
  obtain ⟨buf, m⟩ := s
  unfold UtilMap.ensureSpace
  split_ifs with hc
  · obtain ⟨rfl, hlt⟩ := hc
    exact ⟨OrderedMap.foldl_insert h.sorted, nofun, fun _ => .inr hlt⟩
  · exact ⟨rfl, fun hn => ⟨Nat.not_lt.1 fun hlt => hc ⟨hn, hlt⟩, rfl⟩, .inl⟩

theorem Inv.insert (h : s.Inv N) (k : K) (v : V) :
    (s.insert N k v).1.contents = (OrderedMap.insert s.contents k v).1 ∧ (s.insert N k v).1.Inv N ∧
      ((s.insert N k v).2 = (OrderedMap.insert s.contents k v).2 ↔
        s.pMap ≠ none ∨ s.staticBuf.length = N ∨ k ∉ s.contents.map Prod.fst) := by
  obtain ⟨hc, hn, hm⟩ := h.ensureSpace (s.staticBuf.length + 1)
  have hs := hc ▸ h.sorted
  unfold UtilMap.insert
  rw [← hc]
  generalize s.ensureSpace N (s.staticBuf.length + 1) = t at hn hm hs ⊢
  obtain ⟨buf, _ | m⟩ := t
  · obtain ⟨hN, rfl⟩ := hn rfl
    replace hs : Sorted buf := hs
    by_cases hk : k ∈ buf.map Prod.fst
    · simp only [insertInStackBuf_of_mem hs v hk]
      refine ⟨(OrderedMap.insert_of_mem hk).symm, h, ?_⟩
      -- the array returns the end, the ordered map the position of the entry
      have hpos : OrderedMap.lowerBound buf k ≠ none := fun hnone => by
        obtain ⟨e, he, rfl⟩ := mem_map.1 hk
        exact lt_irrefl _ (OrderedMap.lowerBound_eq_none.1 hnone e he)
      refine iff_of_false (fun heq => hpos ?_) ?_
      · have hfst := congrArg Prod.fst heq
        rw [OrderedMap.insert, show UtilMap.contents ⟨buf, none⟩ = buf from rfl, if_pos hk] at hfst
        exact hfst.symm
      · rintro (hp | hl | hn)
        · exact absurd rfl hp
        · exact absurd hN (by simp [hl])
        · exact absurd hk hn
    · simp only [insertInStackBuf_eq hs v hk]
      refine ⟨rfl, ⟨hs.insert, fun _ => ?_⟩, iff_of_true rfl (.inr (.inr hk))⟩
      simp only [OrderedMap.insert, if_neg hk, length_insertIdx_of_le_length countP_le_length]
      exact hN
  · refine ⟨rfl, ⟨hs.insert, fun hp => by cases hp⟩, iff_of_true rfl ?_⟩
    by_cases hp : s.pMap = none
    · have hlt := (hm (Option.some_ne_none m)).resolve_left (not_not.2 hp)
      exact .inr (.inl (le_antisymm (h.fits hp) (Nat.le_of_lt_succ hlt)))
    · exact .inl hp

omit [Inhabited K] [Inhabited V] in
theorem Inv.eraseRange (h : s.Inv N) (b len : Nat) :
    (s.eraseRange b len).contents = OrderedMap.eraseRange s.contents b len ∧ (s.eraseRange b len).Inv N := by
  obtain ⟨buf, _ | m⟩ := s
  · have hle : (OrderedMap.eraseRange buf b len).length ≤ buf.length := by
      simp only [OrderedMap.eraseRange, length_append, length_take, length_drop]
      omega
    exact ⟨rfl, h.sorted.eraseRange b len, fun _ => hle.trans (h.fits rfl)⟩
  · exact ⟨rfl, h.sorted.eraseRange b len, nofun⟩

omit [Inhabited K] [Inhabited V] in
theorem Inv.shift2Stack (h : s.Inv N) (divisor : Nat) :
    (s.shift2Stack N divisor).contents = s.contents ∧ (s.shift2Stack N divisor).Inv N := by
  obtain ⟨buf, _ | m⟩ := s
  · exact ⟨rfl, h⟩
  · simp only [UtilMap.shift2Stack]
    split_ifs with hle
    · exact ⟨rfl, h.sorted, fun _ => hle.trans (Nat.div_le_self _ _)⟩
    · exact ⟨rfl, h⟩

theorem Inv.assign (hr : rhs.Inv N) : (s.assign N rhs).contents = rhs.contents ∧ (s.assign N rhs).Inv N := by
  have hfold : ∀ (m : List (K × V)) (t : UtilMap K V), t.Inv N →
      (m.foldl (fun t e => (t.insert N e.1 e.2).1) t).contents =
          m.foldl (fun m e => (OrderedMap.insert m e.1 e.2).1) t.contents ∧
        (m.foldl (fun t e => (t.insert N e.1 e.2).1) t).Inv N := by
    intro m
    induction m with
    | nil => exact fun t ht => ⟨rfl, ht⟩
    | cons e m ih =>
      intro t ht
      obtain ⟨h1, h2, -⟩ := ht.insert e.1 e.2
      simp only [foldl_cons, ← h1]
      exact ih _ h2
  have he : (s.clear true).Inv N := ⟨Pairwise.nil, fun _ => Nat.zero_le _⟩
  obtain ⟨hc, hn, -⟩ := he.ensureSpace rhs.size
  have hi : ((s.clear true).ensureSpace N rhs.size).Inv N :=
    ⟨hc ▸ he.sorted, fun hp => by rw [(hn hp).2]; exact Nat.zero_le _⟩
  obtain ⟨h1, h2⟩ := hfold rhs.contents _ hi
  exact ⟨h1.trans (by rw [hc]; exact OrderedMap.foldl_insert hr.sorted), h2⟩

theorem Inv.find (h : s.Inv N) (k : K) : s.find k = OrderedMap.find s.contents k := by
  obtain ⟨buf, _ | m⟩ := s
  · exact find_eq h.sorted k
  · rfl

theorem Inv.index (h : s.Inv N) (k : K) : (s.index N k).1.contents = (OrderedMap.insert s.contents k default).1 ∧
    (s.index N k).1.Inv N ∧ (s.index N k).2 = (OrderedMap.insert s.contents k default).2.1 := by
  unfold UtilMap.index
  rw [h.find]
  cases hf : OrderedMap.find s.contents k with
  | some i =>
    have hk : k ∈ s.contents.map Prod.fst := OrderedMap.find_isSome.1 (by rw [hf]; rfl)
    rw [OrderedMap.find, if_pos hk] at hf
    rw [OrderedMap.insert, if_pos hk]
    exact ⟨rfl, h, hf.symm⟩
  | none =>
    have hk : k ∉ s.contents.map Prod.fst := fun hk => by rw [← OrderedMap.find_isSome, hf] at hk; cases hk
    obtain ⟨h1, h2, h3⟩ := h.insert k default
    exact ⟨h1, h2, congrArg Prod.fst (h3.2 (.inr (.inr hk)))⟩

theorem Inv.bound (h : s.Inv N) (k : K) (c : Bool) :
    s.bound k c = position s.contents (s.contents.countP fun e => before c k e.1) := by
  obtain ⟨buf, _ | m⟩ := s
  · exact congrArg Prod.fst (findBound_eq h.sorted k c)
  · cases c <;> rfl

theorem Inv.equalRange (h : s.Inv N) :
    s.equalRange k = (OrderedMap.lowerBound s.contents k, OrderedMap.upperBound s.contents k) ↔
      s.pMap ≠ none ∨ k ∈ s.contents.map Prod.fst ∨ ∀ e ∈ s.contents, e.1 < k := by
  obtain ⟨buf, _ | m⟩ := s
  · by_cases hk : k ∈ buf.map Prod.fst
    · exact iff_of_true (equalRangeInStackBuf_eq h.sorted hk) (.inr (.inl hk))
    · rw [show UtilMap.equalRange ⟨buf, none⟩ k = (none, none) from equalRangeInStackBuf_of_notMem h.sorted hk]
      constructor
      · exact fun heq => .inr (.inr (OrderedMap.lowerBound_eq_none.1 (congrArg Prod.fst heq).symm))
      · intro hcase
        have hlt := (hcase.resolve_left (absurd rfl)).resolve_left hk
        rw [OrderedMap.lowerBound_eq_none.2 hlt, OrderedMap.upperBound_of_lt hlt]
  · exact iff_of_true rfl (.inl (Option.some_ne_none m))

end UtilMap

namespace MapOp

def Valid (N : Nat) : MapOp K V → Prop
  | .assign rhs => rhs.Inv N
  | _ => True

end MapOp

namespace UtilMap

variable {N : Nat} {s : UtilMap K V}

theorem Inv.exec (h : s.Inv N) {op : MapOp K V} (hv : op.Valid N) :
    (op.exec N s).contents = op.apply s.contents ∧ (op.exec N s).Inv N := by
  cases op with
  | insert key val => exact ⟨(h.insert key val).1, (h.insert key val).2.1⟩
  | index key => exact ⟨(h.index key).1, (h.index key).2.1⟩
  | assign rhs => exact Inv.assign hv
  | erase key =>
    simp only [MapOp.exec, MapOp.apply, UtilMap.erase, OrderedMap.erase, h.find]
    cases OrderedMap.find s.contents key with
    | some i => exact h.eraseRange i 1
    | none => exact ⟨rfl, h⟩
  | eraseRange b len => exact h.eraseRange b len
  | clear resetMem =>
    have hc : (s.clear resetMem).contents = [] := by
      obtain ⟨buf, _ | m⟩ := s <;> cases resetMem <;> rfl
    exact ⟨hc, hc.symm ▸ Pairwise.nil, fun _ => Nat.zero_le _⟩
  | shift2Stack divisor => exact h.shift2Stack divisor

theorem Inv.run (h : s.Inv N) {ops : List (MapOp K V)} (hops : ∀ op ∈ ops, op.Valid N) :
    (run (MapOp.exec N) s ops).contents = run MapOp.apply s.contents ops ∧ (run (MapOp.exec N) s ops).Inv N := by
  induction ops generalizing s with
  | nil => exact ⟨rfl, h⟩
  | cons op ops ih =>
    obtain ⟨hc, hi⟩ := h.exec (hops op mem_cons_self)
    rw [run_cons, run_cons, ← hc]
    exact ih hi fun o ho => hops o (mem_cons_of_mem _ ho)

/-- The answers of a map are those of the finite map `m`, but for the range of a key that is not in the array, in front of
one that is, and for the position that `insert` returns for a key that is there. -/
structure Answers (N : Nat) (s : UtilMap K V) (m : List (K × V)) : Prop where
  contents : s.contents = m
  size : s.size = m.length
  find : ∀ k, s.find k = OrderedMap.find m k
  count : ∀ k, s.count k = if k ∈ m.map Prod.fst then 1 else 0
  get : ∀ k, s.get k = (OrderedMap.find m k).bind fun i => (m[i]?).map Prod.snd
  lowerBound : ∀ k, s.lowerBound k = OrderedMap.lowerBound m k
  upperBound : ∀ k, s.upperBound k = OrderedMap.upperBound m k
  equalRange : ∀ k, s.equalRange k = (OrderedMap.lowerBound m k, OrderedMap.upperBound m k) ↔
    s.pMap ≠ none ∨ k ∈ m.map Prod.fst ∨ ∀ e ∈ m, e.1 < k
  index : ∀ k, (s.index N k).2 = (OrderedMap.insert m k default).2.1
  insert : ∀ k v, (s.insert N k v).2 = (OrderedMap.insert m k v).2 ↔
    s.pMap ≠ none ∨ s.staticBuf.length = N ∨ k ∉ m.map Prod.fst

theorem Inv.answers (h : s.Inv N) : s.Answers N s.contents where
  contents := rfl
  size := rfl
  find := h.find
  count k := by simp only [UtilMap.count, h.find, OrderedMap.find_isSome]
  get k := by rw [UtilMap.get, h.find]
  lowerBound k := h.bound k true
  upperBound k := h.bound k false
  equalRange _ := h.equalRange
  index k := (h.index k).2.2
  insert k v := (h.insert k v).2.2

/-- **An ordered map in both representations.**  After any operations the map answers as the finite map does on which the
same operations were performed. -/
theorem run_answers (N : Nat) {ops : List (MapOp K V)} (hops : ∀ op ∈ ops, op.Valid N) :
    (run (MapOp.exec N) ⟨[], none⟩ ops).Answers N (run MapOp.apply [] ops) := by
  have hs : Inv N (⟨[], none⟩ : UtilMap K V) := ⟨Pairwise.nil, fun _ => Nat.zero_le _⟩
  obtain ⟨hc, hi⟩ := hs.run hops
  exact (show _ = run MapOp.apply [] ops from hc) ▸ hi.answers

/-- The third entry moves the map to the heap, it moves back, and a map of one entry is assigned. -/
theorem run_answers_moved :
    let ops : List (MapOp Nat Nat) :=
      [.insert 3 0, .insert 1 0, .insert 2 0, .erase 3, .shift2Stack 1, .assign ⟨[(5, 7)], none⟩, .index 3]
    (run (MapOp.exec 2) ⟨[], none⟩ ops).Answers 2 (run MapOp.apply [] ops) :=
  run_answers 2 (by
    have hone : Inv 2 (⟨[(5, 7)], none⟩ : UtilMap Nat Nat) := ⟨pairwise_singleton _ _, fun _ => by decide⟩
    simpa [MapOp.Valid] using hone)

/-- In the array `insert` does not return the position of the entry that is there, and `equal_range` of a key in front of
it is at the end. -/
theorem in_place_answers_differ :
    let s : UtilMap Nat Nat := run (MapOp.exec 4) ⟨[], none⟩ [.insert 2 0]
    let m : List (Nat × Nat) := run MapOp.apply [] [.insert 2 0]
    ((s.insert 4 2 0).2 = (none, false) ∧ (OrderedMap.insert m 2 0).2 = (some 0, false)) ∧
      s.equalRange 1 = (none, none) ∧ OrderedMap.lowerBound m 1 = some 0 ∧ OrderedMap.upperBound m 1 = some 0 := by
  simp [run, MapOp.exec, MapOp.apply, UtilMap.insert, UtilMap.ensureSpace, insertInStackBuf, findBoundInStackBuf,
    searchBound, keyAt, OrderedMap.insert, OrderedMap.lowerBound, OrderedMap.upperBound, position,
    UtilMap.equalRange, equalRangeInStackBuf]

end UtilMap

end SequoiaDB.Util

import SequoiaDB.Cls.BucketQueues

/-!
# The completion point of the replay bucket

The records pushed are contiguous.  `_expectLSN` cuts them in two: the ones before it have all been replayed, the first
one behind it has not, and `_completeMap` has the ones behind it that have been replayed (`Merged`).  A record that is
submitted goes into `_completeMap`, or moves `_expectLSN` over itself and over the entries that follow it.
-/

namespace SequoiaDB.Cls

open Dps Function List Bucket

variable {δ : Type*} {b : Nat} {l pre suf pushed completeMap : List (Entry δ b)} {e : Entry δ b} {n : Nat}

theorem endOf_cons : endOf n (e :: l) = endOf (n + e.length) l := by
  simp [endOf, Nat.add_assoc]

theorem endOf_append : endOf n (pre ++ suf) = endOf (endOf n pre) suf := by
  simp [endOf, Nat.add_assoc]

theorem endOf_snoc : endOf n (l ++ [e]) = endOf n l + e.length := by
  simp [endOf, Nat.add_assoc]

theorem le_endOf : n ≤ endOf n l := Nat.le_add_right _ _

/-- Records of the log, one behind the other, the first one at `n`. -/
def Contiguous : Nat → List (Entry δ b) → Prop
  | _, [] => True
  | n, e :: l => e.lsn = n ∧ e.version ≠ DPS_INVALID_LSN_VERSION ∧ 0 < e.length ∧ Contiguous (n + e.length) l

theorem contiguous_append : Contiguous n (pre ++ suf) ↔ Contiguous n pre ∧ Contiguous (endOf n pre) suf := by
  induction pre generalizing n with
  | nil => simp [Contiguous, endOf]
  | cons e pre ih => simp only [cons_append, Contiguous, ih, endOf_cons, and_assoc]

namespace Contiguous

variable (h : Contiguous n l)

include h

theorem le_lsn (he : e ∈ l) : n ≤ e.lsn := by
  induction l generalizing n with
  | nil => cases he
  | cons a l ih =>
    obtain ⟨ha, -, -, hl⟩ := h
    rcases mem_cons.1 he with rfl | he'
    · exact Nat.le_of_eq ha.symm
    · have := ih hl he'
      omega

theorem lsn_lt_endOf (he : e ∈ l) : e.lsn < endOf n l := by
  induction l generalizing n with
  | nil => cases he
  | cons a l ih =>
    obtain ⟨ha, -, hpos, hl⟩ := h
    rw [endOf_cons]
    rcases mem_cons.1 he with rfl | he'
    · have : n + e.length ≤ endOf (n + e.length) l := le_endOf
      omega
    · exact ih hl he'

theorem pairwise_lt : l.Pairwise fun x y => x.lsn < y.lsn := by
  induction l generalizing n with
  | nil => exact List.Pairwise.nil
  | cons a l ih =>
    obtain ⟨ha, -, hpos, hl⟩ := h
    refine pairwise_cons.2 ⟨fun x hx => ?_, ih hl⟩
    have := hl.le_lsn hx
    omega

theorem distinct : Distinct l :=
  List.Pairwise.imp (fun {_ _} hlt => Nat.ne_of_lt hlt) h.pairwise_lt

theorem snoc (hl : e.lsn = endOf n l) (hv : e.version ≠ DPS_INVALID_LSN_VERSION)
    (hp : 0 < e.length) : Contiguous n (l ++ [e]) :=
  contiguous_append.2 ⟨h, hl, hv, hp, trivial⟩

theorem fresh (hlsn : e.lsn = endOf n l) : ∀ x ∈ l, x.lsn ≠ e.lsn := fun x hx => by
  have := h.lsn_lt_endOf hx
  omega

omit h

theorem takeWhile_lt (h : Contiguous n (pre ++ suf)) :
    ((pre ++ suf).takeWhile fun e => e.lsn < endOf n pre) = pre := by
  obtain ⟨hp, hs⟩ := contiguous_append.1 h
  rw [takeWhile_append_of_pos fun x hx => decide_eq_true (hp.lsn_lt_endOf hx)]
  cases suf with
  | nil => simp
  | cons a suf =>
    have ha : ¬ a.lsn < endOf n pre := by rw [hs.1]; exact Nat.lt_irrefl _
    rw [takeWhile_cons_of_neg (by simpa using ha), append_nil]

end Contiguous

/-! ### The loop over `_completeMap` -/

variable {good : Nat → Bool} {x : Lsn}

theorem filter_of_good (h : good e.lsn) : ((e :: l).filter fun x => good x.lsn) = e :: l.filter fun x => good x.lsn :=
  filter_cons_of_pos h

theorem filter_of_bad (h : ¬ good e.lsn = true) :
    ((e :: l).filter fun x => good x.lsn) = l.filter fun x => good x.lsn :=
  filter_cons_of_neg h

theorem compareOffset_eq_of (hx : x.offset < DPS_INVALID_LSN_OFFSET) (he : e.lsn = x.offset) :
    x.compareOffset e.lsn = .eq := by
  rw [Lsn.compareOffset_of_valid (by omega) (by omega), he]
  exact Nat.compare_eq_eq.2 rfl

theorem compareOffset_lt_of (he : x.offset < e.lsn) (hbound : e.lsn < DPS_INVALID_LSN_OFFSET) :
    x.compareOffset e.lsn = .lt := by
  rw [Lsn.compareOffset_of_valid (by omega) (by omega)]
  exact Nat.compare_eq_lt.2 he

theorem mergeLoop_spec (good : Nat → Bool) (hl : Contiguous x.offset l) (hbound : endOf x.offset l < DPS_INVALID_LSN_OFFSET)
    (hv : x.version ≠ DPS_INVALID_LSN_VERSION) :
    ∃ pre suf y, l = pre ++ suf ∧ mergeLoop (l.filter fun e => good e.lsn) x = (y, suf.filter fun e => good e.lsn) ∧
      (∀ e ∈ pre, good e.lsn) ∧ (∀ e ∈ suf.head?, good e.lsn = false) ∧
      y.offset = endOf x.offset pre ∧ y.version ≠ DPS_INVALID_LSN_VERSION := by
  induction l generalizing x with
  | nil => exact ⟨[], [], x, rfl, rfl, by simp, by simp, rfl, hv⟩
  | cons c l ih =>
    obtain ⟨hc, hcv, hpos, hl'⟩ := hl
    rw [endOf_cons] at hbound
    have hend : x.offset + c.length ≤ endOf (x.offset + c.length) l := le_endOf
    by_cases hg : good c.lsn = true
    · have heq : x.compareOffset c.lsn = .eq := compareOffset_eq_of (by omega) hc
      obtain ⟨pre, suf, y, rfl, hloop, hp, hs, hy, hyv⟩ :=
        ih (x := behind x c) hl' hbound hcv
      refine ⟨c :: pre, suf, y, rfl, ?_, ?_, hs, ?_, hyv⟩
      · rw [filter_of_good hg, mergeLoop, if_pos (by rw [heq]; decide), if_pos heq, hloop]
      · exact forall_mem_cons.2 ⟨hg, hp⟩
      · rw [hy, endOf_cons]
        rfl
    · refine ⟨[], c :: l, x, rfl, ?_, by simp, ?_, rfl, hv⟩
      · rw [filter_of_bad hg]
        -- the first entry of the map is behind a record that is missing
        cases hf : l.filter fun e => good e.lsn with
        | nil => rfl
        | cons d ds =>
          have hd : d ∈ l := (mem_filter.1 (hf ▸ mem_cons_self)).1
          have hlt := hl'.le_lsn hd
          have hlt' := hl'.lsn_lt_endOf hd
          have hcmp : x.compareOffset d.lsn = .lt := compareOffset_lt_of (by omega) (by omega)
          rw [mergeLoop, if_neg (by rw [hcmp]; decide)]
      · rintro e he
        obtain rfl := Option.some.inj he
        simpa using hg

theorem insertComplete_filter (hl : l.Pairwise fun x y => x.lsn < y.lsn) (he : e ∈ l) (hg : good e.lsn = false) :
    insertComplete e (l.filter fun e => good e.lsn) = l.filter fun x => update good e.lsn true x.lsn := by
  induction l with
  | nil => cases he
  | cons c l ih =>
    obtain ⟨hc, hl'⟩ := pairwise_cons.1 hl
    rcases mem_cons.1 he with rfl | he'
    · have hr : (l.filter fun x => update good e.lsn true x.lsn) = l.filter fun x => good x.lsn :=
        filter_update_of_fresh fun x hx => Nat.ne_of_gt (hc x hx)
      rw [filter_of_bad (by simp [hg]), filter_of_good (by simp), hr]
      cases hf : l.filter fun e => good e.lsn with
      | nil => rfl
      | cons d ds =>
        have hd : d ∈ l := (mem_filter.1 (hf ▸ mem_cons_self)).1
        rw [insertComplete, if_pos (hc d hd)]
    · have hlt := hc e he'
      have hs : update good e.lsn true c.lsn = good c.lsn := update_of_ne (Nat.ne_of_lt hlt) _ _
      by_cases hgc : good c.lsn = true
      · rw [filter_of_good hgc, filter_of_good (hs.trans hgc), insertComplete,
          if_neg (Nat.lt_asymm hlt), if_pos hlt, ih hl' he']
      · rw [filter_of_bad hgc, filter_of_bad (by rwa [hs]), ih hl' he']

theorem length_insertComplete (h : ∀ c ∈ l, c.lsn ≠ e.lsn) : (insertComplete e l).length = l.length + 1 := by
  induction l with
  | nil => rfl
  | cons c l ih =>
    have hc := h c mem_cons_self
    have hih := ih fun a ha => h a (mem_cons_of_mem _ ha)
    rw [insertComplete]
    split
    · rfl
    · rw [if_pos (by omega), length_cons, hih, length_cons]

/-- The point `x` cuts the records pushed from `base` into `pre` and `suf`. -/
structure Merged (base : Nat) (pushed : List (Entry δ b)) (good : Nat → Bool) (completeMap : List (Entry δ b)) (x : Lsn)
    (pre suf : List (Entry δ b)) : Prop where
  pushed_eq : pushed = pre ++ suf
  pre_good : ∀ e ∈ pre, good e.lsn = true
  complete : completeMap = suf.filter fun e => good e.lsn
  head_bad : ∀ e ∈ suf.head?, good e.lsn = false
  units : ∀ e ∈ suf, e.unitID ≠ none
  expect : x.offset = endOf base pre ∧ x.version ≠ DPS_INVALID_LSN_VERSION ∨
    x.offset = DPS_INVALID_LSN_OFFSET ∧ suf = [] ∧ ∀ e ∈ pre, e.unitID = none

namespace Merged

variable {base : Nat} (h : Merged base pushed good completeMap x pre suf)

include h

theorem expect_of_unit (he : e ∈ pushed) (hid : e.unitID ≠ none) :
    x.offset = endOf base pre ∧ x.version ≠ DPS_INVALID_LSN_VERSION := by
  rcases h.expect with hx | ⟨-, rfl, hp⟩
  · exact hx
  · rw [h.pushed_eq, append_nil] at he
    exact absurd (hp e he) hid

theorem endOf_pre_le : endOf base pre ≤ endOf base pushed := by
  rw [h.pushed_eq, endOf_append]
  exact le_endOf

theorem ensure (hbound : endOf base pushed < DPS_INVALID_LSN_OFFSET)
    (next : Lsn) (hn : next.offset = endOf base pushed) (hv : next.version ≠ DPS_INVALID_LSN_VERSION) :
    Merged base pushed good completeMap (if x.offset = DPS_INVALID_LSN_OFFSET then next else x) pre suf := by
  refine { h with expect := .inl ?_ }
  rcases h.expect with ⟨hx, hxv⟩ | ⟨hx, rfl, -⟩
  · have hle := h.endOf_pre_le
    rw [if_neg (by omega)]
    exact ⟨hx, hxv⟩
  · rw [if_pos hx, hn, h.pushed_eq, append_nil]
    exact ⟨rfl, hv⟩

theorem push (hl : Contiguous base pushed)
    (hlsn : e.lsn = endOf base pushed) (hid : e.unitID ≠ none) (hx : x.offset ≠ DPS_INVALID_LSN_OFFSET) :
    Merged base (pushed ++ [e]) (update good e.lsn false) completeMap x pre (suf ++ [e]) := by
  have hf := hl.fresh hlsn
  rw [h.pushed_eq] at hf
  have hp : ∀ a ∈ pre, a.lsn ≠ e.lsn := fun a ha => hf a (mem_append_left _ ha)
  have hs : ∀ a ∈ suf, a.lsn ≠ e.lsn := fun a ha => hf a (mem_append_right _ ha)
  constructor
  · rw [h.pushed_eq, append_assoc]
  · intro a ha
    rw [update_of_ne (hp a ha)]
    exact h.pre_good a ha
  · rw [filter_append, filter_update_of_fresh hs, ← h.complete]
    simp
  · intro a ha
    cases suf with
    | nil =>
      obtain rfl := Option.some.inj ha
      exact update_self ..
    | cons c suf =>
      obtain rfl := Option.some.inj ha
      rw [update_of_ne (hs c mem_cons_self)]
      exact h.head_bad c rfl
  · exact forall_mem_append.2 ⟨h.units, forall_mem_singleton.2 ‹_›⟩
  · exact .inl (h.expect.resolve_right fun hi => hx hi.1)

theorem barrier (hl : Contiguous base pushed) (hlsn : e.lsn = endOf base pushed) (hid : e.unitID = none)
    (hversion : e.version ≠ DPS_INVALID_LSN_VERSION) (hbound : endOf base pushed < DPS_INVALID_LSN_OFFSET)
    (hcmp : x.invalid ∨ x.compareOffset e.lsn = .eq) :
    Merged base (pushed ++ [e]) (update good e.lsn true) completeMap
      (if x.invalid then x else behind x e) (pre ++ [e]) [] := by
  have hle := h.endOf_pre_le
  have hv (hx : x.offset = endOf base pre) (hxv : x.version ≠ DPS_INVALID_LSN_VERSION) : x.invalid = false := by
    have hx' : x.offset ≠ DPS_INVALID_LSN_OFFSET := by omega
    simp [Lsn.invalid, hx', hxv]
  have hs : suf = [] := by
    rcases h.expect with ⟨hx, hxv⟩ | ⟨-, hs, -⟩
    · have heq : x.compareOffset e.lsn = .eq := by simpa [hv hx hxv] using hcmp
      rw [Lsn.compareOffset_of_valid (by omega) (by omega), Nat.compare_eq_eq, hx, hlsn, h.pushed_eq,
        endOf_append] at heq
      rw [h.pushed_eq] at hl
      cases suf with
      | nil => rfl
      | cons c suf =>
        have := (contiguous_append.1 hl).2.lsn_lt_endOf (mem_cons_self)
        have hc := (contiguous_append.1 hl).2.1
        omega
    · exact hs
  subst hs
  have hf := hl.fresh hlsn
  rw [h.pushed_eq, append_nil] at hf
  constructor
  · rw [h.pushed_eq, append_nil, append_nil]
  · intro a ha
    rcases mem_append.1 ha with ha | ha
    · rw [update_of_ne (hf a ha)]
      exact h.pre_good a ha
    · rw [mem_singleton.1 ha]
      exact update_self ..
  · exact h.complete
  · exact nofun
  · exact nofun
  · rcases h.expect with ⟨hx, hxv⟩ | ⟨hx, -, hn⟩
    · left
      rw [hv hx hxv, endOf_snoc, ← hx]
      exact ⟨rfl, hversion⟩
    · right
      have hi : x.invalid := by simp [Lsn.invalid, hx]
      rw [hi]
      exact ⟨hx, rfl, forall_mem_append.2 ⟨hn, forall_mem_singleton.2 ‹_›⟩⟩

omit h

/-- The bucket behind `submitResult`: the log is split into `pre` and `suf`, and the count is right. -/
def Submitted (base : Nat) (pushed : List (Entry δ b)) (good : Nat → Bool) (B : Bucket δ b) (e : Entry δ b)
    (pre suf : List (Entry δ b)) : Prop :=
  Merged base pushed (update good e.lsn true) (B.submitResult e).completeMap (B.submitResult e).expectLSN pre suf ∧
    (B.submitResult e).allCount = B.allCount - 1 - B.completeMap.length + (B.submitResult e).completeMap.length

variable {B : Bucket δ b} (hl : Contiguous base pushed) (hbound : endOf base pushed < DPS_INVALID_LSN_OFFSET)

include hl hbound

theorem submit_head (h : Merged base pushed good B.completeMap B.expectLSN pre (e :: suf)) :
    ∃ pre' suf', Submitted base pushed good B e pre' suf' := by
  have hx := (h.expect_of_unit (h.pushed_eq ▸ mem_append_right pre mem_cons_self) (h.units e mem_cons_self)).1
  rw [h.pushed_eq] at hl hbound
  obtain ⟨-, hlsn, hv, hpos, hs⟩ := contiguous_append.1 hl
  rw [endOf_append, endOf_cons] at hbound
  have hend : endOf base pre + e.length ≤ endOf (endOf base pre + e.length) suf := le_endOf
  have hc : B.expectLSN.compareOffset e.lsn = .eq := compareOffset_eq_of (by omega) (hlsn.trans hx.symm)
  have hf : ∀ a ∈ suf, a.lsn ≠ e.lsn := fun a ha => by
    have := hs.le_lsn ha
    omega
  have hbad : ¬ good e.lsn = true := by rw [h.head_bad e rfl]; exact Bool.false_ne_true
  have hm : B.completeMap = suf.filter fun a => update good e.lsn true a.lsn := by
    rw [h.complete, filter_of_bad hbad, filter_update_of_fresh hf]
  have hb : (behind B.expectLSN e).offset = endOf base pre + e.length := congrArg (· + e.length) hx
  obtain ⟨mid, suf', y, rfl, hloop, hmid, hh, hy, hyv⟩ :=
    mergeLoop_spec (update good e.lsn true) (x := behind B.expectLSN e) (hb ▸ hs) (hb ▸ hbound) hv
  have hr : B.submitResult e = { B with
        expectLSN := y
        completeMap := suf'.filter fun a => update good e.lsn true a.lsn
        allCount := B.allCount - (B.completeMap.length -
          (suf'.filter fun a => update good e.lsn true a.lsn).length : Nat) - 1 } := by
    rw [submitResult, if_pos (by rw [hc]; decide), if_pos hc]
    rw [← hm] at hloop
    simp only [hloop]
  unfold Submitted
  rw [hr]
  refine ⟨pre ++ e :: mid, suf', ⟨?_, ?_, rfl, hh, ?_, .inl ⟨?_, hyv⟩⟩, ?_⟩
  · rw [h.pushed_eq, append_assoc, cons_append]
  · refine forall_mem_append.2 ⟨fun a ha => ?_, forall_mem_cons.2 ⟨update_self .., hmid⟩⟩
    have hne : a.lsn ≠ e.lsn := by
      have := (contiguous_append.1 hl).1.lsn_lt_endOf ha
      omega
    rw [update_of_ne hne]
    exact h.pre_good a ha
  · exact fun a ha => h.units a (mem_cons_of_mem _ (mem_append_right _ ha))
  · rw [endOf_append, endOf_cons, ← hb]
    exact hy
  · have hle : (suf'.filter fun a => update good e.lsn true a.lsn).length ≤ B.completeMap.length := by
      rw [hm, filter_append, length_append]
      exact Nat.le_add_left _ _
    simp only
    omega

theorem submit_behind (h : Merged base pushed good B.completeMap B.expectLSN pre suf) (he : e ∈ suf)
    (hb : good e.lsn = false) (hne : ∀ a ∈ suf.head?, a.lsn ≠ e.lsn) : Submitted base pushed good B e pre suf := by
  have hm : e ∈ pushed := h.pushed_eq ▸ mem_append_right pre he
  have hx := (h.expect_of_unit hm (h.units e he)).1
  have hlt := hl.lsn_lt_endOf hm
  rw [h.pushed_eq] at hl
  obtain ⟨hp, hs⟩ := contiguous_append.1 hl
  have hbehind : B.expectLSN.offset < e.lsn := by
    cases suf with
    | nil => cases he
    | cons c suf =>
      have hc : c.lsn ≠ e.lsn := hne c rfl
      rcases mem_cons.1 he with rfl | he'
      · exact absurd rfl hc
      · have h1 := hs.1
        have h2 := hs.2.2.2.le_lsn he'
        have h3 := hs.2.2.1
        omega
  have hcmp : B.expectLSN.compareOffset e.lsn = .lt := compareOffset_lt_of hbehind (by omega)
  have hn : ¬ (B.completeMap.any fun c => c.lsn = e.lsn) = true := by
    rw [h.complete, any_eq_true]
    rintro ⟨c, hc, heq⟩
    have hg := (mem_filter.1 hc).2
    rw [of_decide_eq_true heq, hb] at hg
    cases hg
  have hmap := insertComplete_filter hs.pairwise_lt he hb
  have hr : B.submitResult e = { B with completeMap := insertComplete e B.completeMap } := by
    rw [submitResult, if_neg (by rw [hcmp]; decide), if_neg hn]
  rw [Submitted, hr]
  refine ⟨⟨h.pushed_eq, ?_, ?_, ?_, h.units, h.expect⟩, ?_⟩
  · intro a ha
    have hne : a.lsn ≠ e.lsn := by
      have := hp.lsn_lt_endOf ha
      omega
    rw [update_of_ne hne]
    exact h.pre_good a ha
  · simp only [h.complete, hmap]
  · intro a ha
    rw [update_of_ne (hne a ha)]
    exact h.head_bad a ha
  · have hlen := length_insertComplete fun c hc heq =>
      hn (any_eq_true.2 ⟨c, hc, decide_eq_true heq⟩)
    simp only [hlen]
    omega

theorem submit (h : Merged base pushed good B.completeMap B.expectLSN pre suf) (he : e ∈ pushed)
    (hb : good e.lsn = false) : ∃ pre' suf', Submitted base pushed good B e pre' suf' := by
  have hs : e ∈ suf := by
    rw [h.pushed_eq] at he
    rcases mem_append.1 he with he | he
    · rw [h.pre_good e he] at hb
      cases hb
    · exact he
  cases suf with
  | nil => cases hs
  | cons c suf =>
    by_cases hc : c.lsn = e.lsn
    · have hd := hl.distinct
      have hm : c ∈ pushed := h.pushed_eq ▸ mem_append_right pre mem_cons_self
      obtain rfl := hd.eq_of_lsn hm he hc
      exact h.submit_head hl hbound
    · refine ⟨pre, c :: suf, h.submit_behind hl hbound hs hb fun a ha => ?_⟩
      obtain rfl := Option.some.inj ha
      exact hc

omit hl hbound

end Merged

end SequoiaDB.Cls

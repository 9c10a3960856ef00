import Mathlib

/-!
# Interleavings of commuting steps

A step `f : σ → α → Option σ` may fail.  The steps are divided into classes, and steps of different classes commute in
the states of an invariant.  Two sequences that agree on every class then lead to the same state, or both fail
(`foldlM_eq_of_filter_eq`): every interleaving of the classes is as good as any other.

The second part is about steps on a multiset that look only at the elements of one class, and replace them by elements
of this class: such steps commute when their classes are disjoint.
-/

namespace SequoiaDB.Lib

open List Option

section Steps

variable {σ α ι : Type*} {f : σ → α → Option σ} {cls : α → ι} {I : σ → Prop} {A : α → Prop} {s : σ} {l : List α}

def CommuteAt (f : σ → α → Option σ) (s : σ) (a b : α) : Prop :=
  ((f s a).bind fun t => f t b) = (f s b).bind fun t => f t a

theorem bind_comm_of_map {f g : σ → Option σ} {F G : σ → σ → σ}
    (hg : ∀ t, f s = some t → g t = (g s).map (F t)) (hf : ∀ t, g s = some t → f t = (f s).map (G t))
    (h : ∀ t r, f s = some t → g s = some r → F t r = G r t) : (f s).bind g = (g s).bind f := by
  cases hfs : f s with
  | none =>
    cases hgs : g s with
    | none => rfl
    | some r => rw [bind_none, bind_some, hf r hgs, hfs, map_none]
  | some t =>
    rw [bind_some, hg t hfs]
    cases hgs : g s with
    | none => rfl
    | some r => rw [bind_some, hf r hgs, hfs, map_some, map_some, h t r hfs hgs]

theorem foldlM_move (hk : ∀ s a t, I s → A a → f s a = some t → I t)
    (hcomm : ∀ s a b, I s → A a → A b → cls a ≠ cls b → CommuteAt f s a b) {p q : List α} {a : α} (ha : A a)
    (hp : ∀ c ∈ p, A c ∧ cls c ≠ cls a) (hs : I s) :
    (p ++ a :: q).foldlM f s = (a :: (p ++ q)).foldlM f s := by
  induction p generalizing s with
  | nil => rfl
  | cons c p ih =>
    obtain ⟨hc, hne⟩ := hp c mem_cons_self
    have hr : ∀ t, f s c = some t → (p ++ a :: q).foldlM f t = (a :: (p ++ q)).foldlM f t := fun t ht =>
      ih (fun d hd => hp d (mem_cons_of_mem _ hd)) (hk s c t hs hc ht)
    calc (c :: p ++ a :: q).foldlM f s
        = (f s c).bind fun t => (p ++ a :: q).foldlM f t := foldlM_cons
      _ = (f s c).bind fun t => (f t a).bind fun r => (p ++ q).foldlM f r := by
          cases hfc : f s c with
          | none => rfl
          | some t => exact (hr t hfc).trans foldlM_cons
      _ = ((f s c).bind fun t => f t a).bind fun r => (p ++ q).foldlM f r := (bind_assoc _ _ _).symm
      _ = ((f s a).bind fun t => f t c).bind fun r => (p ++ q).foldlM f r := by rw [hcomm s c a hs hc ha hne]
      _ = (f s a).bind fun t => (f t c).bind fun r => (p ++ q).foldlM f r := bind_assoc _ _ _
      _ = (a :: (c :: p ++ q)).foldlM f s := rfl

theorem foldlM_eq_of_filter_eq [DecidableEq ι] (hk : ∀ s a t, I s → A a → f s a = some t → I t)
    (hcomm : ∀ s a b, I s → A a → A b → cls a ≠ cls b → CommuteAt f s a b) {l' : List α} (hl' : ∀ a ∈ l', A a)
    (h : ∀ u, (l.filter fun a => cls a = u) = l'.filter fun a => cls a = u) (hs : I s) :
    l.foldlM f s = l'.foldlM f s := by
  induction l generalizing l' s with
  | nil =>
    cases l' with
    | nil => rfl
    | cons c l' =>
      have hc := h (cls c)
      simp at hc
  | cons a l ih =>
    have ha := (h (cls a)).symm
    rw [filter_cons_of_pos (by simp)] at ha
    obtain ⟨p, q, rfl, hp, -, hq⟩ := filter_eq_cons_iff.1 ha
    have hA : A a := hl' a (by simp)
    have hp' : ∀ c ∈ p, A c ∧ cls c ≠ cls a := fun c hc => ⟨hl' c (by simp [hc]), by simpa using hp c hc⟩
    have hr : ∀ u, (l.filter fun a => cls a = u) = (p ++ q).filter fun a => cls a = u := by
      intro u
      have hu := h u
      by_cases hcu : cls a = u
      · subst hcu
        have hn : (p.filter fun c => cls c = cls a) = [] :=
          filter_eq_nil_iff.2 fun c hc => by simpa using (hp' c hc).2
        rw [filter_append, hn, nil_append]
        exact hq.symm
      · simpa [filter_cons, hcu] using hu
    rw [foldlM_move hk hcomm hA hp' hs, foldlM_cons, foldlM_cons]
    cases hfa : f s a with
    | none => rfl
    | some t =>
      refine ih (fun c hc => hl' c ?_) hr (hk s a t hs hA hfa)
      rcases mem_append.1 hc with hc | hc
      · exact mem_append_left _ hc
      · exact mem_append_right _ (mem_cons_of_mem _ hc)

theorem foldlM_keeps (hk : ∀ s a t, I s → A a → f s a = some t → I t) (hl : ∀ a ∈ l, A a) {t : σ}
    (hs : I s) (h : l.foldlM f s = some t) : I t := by
  induction l generalizing s with
  | nil => exact some.inj h ▸ hs
  | cons a l ih =>
    rw [foldlM_cons] at h
    obtain ⟨r, hr, h⟩ := bind_eq_some_iff.1 h
    exact ih (fun b hb => hl b (mem_cons_of_mem _ hb)) (hk s a r hs (hl a mem_cons_self) hr) h

theorem exists_foldlM_of_append {r : List α} {t : σ} (h : (l ++ r).foldlM f s = some t) :
    ∃ u, l.foldlM f s = some u ∧ r.foldlM f u = some t := by
  rw [foldlM_append] at h
  exact bind_eq_some_iff.1 h

end Steps

section Multisets

variable {α : Type*} {p q : α → Prop} [DecidablePred p] [DecidablePred q]

/-- Replace the elements of a class by what `g` makes of them. -/
def onClass (p : α → Prop) [DecidablePred p] (g : Multiset α → Option (Multiset α)) (m : Multiset α) :
    Option (Multiset α) :=
  (g (m.filter p)).map fun x => x + m.filter fun a => ¬ p a

/-- `g` makes elements of the class of elements of the class. -/
def Within (p : α → Prop) (g : Multiset α → Option (Multiset α)) : Prop :=
  ∀ m x, (∀ a ∈ m, p a) → g m = some x → ∀ a ∈ x, p a

theorem filter_onClass_of_disjoint (hpq : ∀ a, p a → ¬ q a) {m x : Multiset α} (hx : ∀ a ∈ x, p a) :
    (x + m.filter fun a => ¬ p a).filter q = m.filter q := by
  rw [Multiset.filter_add, Multiset.filter_eq_nil.2 fun a ha => hpq a (hx a ha), Multiset.zero_add,
    Multiset.filter_filter]
  refine Multiset.filter_congr fun a _ => ?_
  constructor
  · exact And.left
  · exact fun hq => ⟨hq, fun hp => hpq a hp hq⟩

theorem onClass_comm (hpq : ∀ a, p a → ¬ q a) {g h : Multiset α → Option (Multiset α)} (hg : Within p g)
    (hh : Within q h) (m : Multiset α) :
    (onClass p g m).bind (onClass q h) = (onClass q h m).bind (onClass p g) := by
  have hqp : ∀ a, q a → ¬ p a := fun a hq hp => hpq a hp hq
  have hg' : ∀ x, g (m.filter p) = some x → ∀ a ∈ x, p a := fun x => hg _ x fun a ha => Multiset.of_mem_filter ha
  have hh' : ∀ y, h (m.filter q) = some y → ∀ a ∈ y, q a := fun y => hh _ y fun a ha => Multiset.of_mem_filter ha
  unfold onClass
  cases hgm : g (m.filter p) with
  | none =>
    cases hhm : h (m.filter q) with
    | none => rfl
    | some y =>
      simp only [map_none, bind_none, map_some, bind_some]
      rw [filter_onClass_of_disjoint hqp (hh' _ hhm), hgm]
      rfl
  | some x =>
    cases hhm : h (m.filter q) with
    | none =>
      simp only [map_none, bind_none, map_some, bind_some]
      rw [filter_onClass_of_disjoint hpq (hg' _ hgm), hhm]
      rfl
    | some y =>
      simp only [map_some, bind_some]
      rw [filter_onClass_of_disjoint hpq (hg' _ hgm), filter_onClass_of_disjoint hqp (hh' _ hhm), hgm, hhm]
      have hx : x.filter (fun a => ¬ q a) = x := Multiset.filter_eq_self.2 fun a ha => hpq a (hg' _ hgm a ha)
      have hy : y.filter (fun a => ¬ p a) = y := Multiset.filter_eq_self.2 fun a ha => hqp a (hh' _ hhm a ha)
      simp only [map_some, some.injEq, Multiset.filter_add, hx, hy, Multiset.filter_filter]
      rw [← Multiset.add_assoc, ← Multiset.add_assoc, Multiset.add_comm y x]
      congr 1
      exact Multiset.filter_congr fun a _ => and_comm

end Multisets

end SequoiaDB.Lib

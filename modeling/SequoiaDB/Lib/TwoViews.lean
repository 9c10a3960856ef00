import Mathlib

/-!
# Comparing through two views

Values have a key in each of two linear orders.  Two values are compared by their second keys if one of them is
special, and by their first keys otherwise.  Such a comparison need not be transitive; it is on a set of values exactly
if no special value of the set separates two others against the order of their first keys.
-/

namespace SequoiaDB.Lib

variable {α κ1 κ2 : Type*}

/-- A comparison is a total preorder on `s`: antisymmetric in sign and transitive, and equality is a congruence. -/
structure TotalPreorderOn (cmp : α → α → Ordering) (s : Set α) : Prop where
  antisymm : ∀ x ∈ s, ∀ y ∈ s, cmp y x = (cmp x y).swap
  trans : ∀ x ∈ s, ∀ y ∈ s, ∀ z ∈ s, cmp x y ≠ .gt → cmp y z ≠ .gt → cmp x z ≠ .gt
  congr : ∀ x ∈ s, ∀ y ∈ s, ∀ z ∈ s, cmp x y = .eq → cmp x z = cmp y z

theorem totalPreorderOn_congr {cmp cmp' : α → α → Ordering} {s : Set α} (h : ∀ x ∈ s, ∀ y ∈ s, cmp x y = cmp' x y) :
    TotalPreorderOn cmp s ↔ TotalPreorderOn cmp' s := by
  have hmp : ∀ {f g : α → α → Ordering}, (∀ x ∈ s, ∀ y ∈ s, f x y = g x y) → TotalPreorderOn f s → TotalPreorderOn g s := by
    intro f g hfg hf
    constructor
    · intro x hx y hy
      rw [← hfg y hy x hx, ← hfg x hx y hy]
      exact hf.antisymm x hx y hy
    · intro x hx y hy z hz
      rw [← hfg x hx y hy, ← hfg y hy z hz, ← hfg x hx z hz]
      exact hf.trans x hx y hy z hz
    · intro x hx y hy z hz
      rw [← hfg x hx y hy, ← hfg x hx z hz, ← hfg y hy z hz]
      exact hf.congr x hx y hy z hz
  exact ⟨hmp h, hmp fun x hx y hy => (h x hx y hy).symm⟩

namespace TotalPreorderOn

variable {cmp : α → α → Ordering} {s : Set α} {x y z : α}

theorem mono {t : Set α} (h : TotalPreorderOn cmp s) (hts : t ⊆ s) : TotalPreorderOn cmp t where
  antisymm x hx y hy := h.antisymm x (hts hx) y (hts hy)
  trans x hx y hy z hz := h.trans x (hts hx) y (hts hy) z (hts hz)
  congr x hx y hy z hz := h.congr x (hts hx) y (hts hy) z (hts hz)

theorem lt_of_le_of_lt (h : TotalPreorderOn cmp s) (hx : x ∈ s) (hy : y ∈ s) (hz : z ∈ s) (hxy : cmp x y ≠ .gt)
    (hyz : cmp y z = .lt) : cmp x z = .lt := by
  have hzx := h.antisymm x hx z hz
  have hzy := h.antisymm y hy z hz
  have htrans := h.trans z hz x hx y hy
  cases hxz : cmp x z <;> simp_all

theorem lt_of_lt_of_le (h : TotalPreorderOn cmp s) (hx : x ∈ s) (hy : y ∈ s) (hz : z ∈ s) (hxy : cmp x y = .lt)
    (hyz : cmp y z ≠ .gt) : cmp x z = .lt := by
  have hzx := h.antisymm x hx z hz
  have hyx := h.antisymm x hx y hy
  have htrans := h.trans y hy z hz x hx
  cases hxz : cmp x z <;> simp_all

theorem swap (h : TotalPreorderOn cmp s) : TotalPreorderOn (fun x y => (cmp x y).swap) s where
  antisymm x hx y hy := congrArg Ordering.swap (h.antisymm x hx y hy)
  trans x hx y hy z hz hxy hyz := by
    rw [← h.antisymm x hx y hy] at hxy
    rw [← h.antisymm y hy z hz] at hyz
    rw [← h.antisymm x hx z hz]
    exact h.trans z hz y hy x hx hyz hxy
  congr x hx y hy z hz hxy := by
    have heq : cmp x y = .eq := Ordering.swap_eq_eq.1 hxy
    rw [h.congr x hx y hy z hz heq]

end TotalPreorderOn

variable [LinearOrder κ1] [LinearOrder κ2] (k₁ : α → κ1) (k₂ : α → κ2) (S : α → Prop) [DecidablePred S]

def viewCompare (x y : α) : Ordering := if S x ∨ S y then compare (k₂ x) (k₂ y) else compare (k₁ x) (k₁ y)

/-- The special value `c` lies between the second keys of `a` and `b`, and their first keys are the other way round. -/
structure Torn (a b c : α) : Prop where
  left : ¬ S a
  right : ¬ S b
  special : S c
  le : k₁ a ≤ k₁ b
  lower : k₂ b ≤ k₂ c
  upper : k₂ c ≤ k₂ a
  strict : k₁ a < k₁ b ∨ k₂ b < k₂ a

variable {k₁ k₂ S} {x y z : α} {s : Set α}

theorem viewCompare_swap : viewCompare k₁ k₂ S y x = (viewCompare k₁ k₂ S x y).swap := by
  unfold viewCompare
  simp only [or_comm (a := S y)]
  split <;> exact Std.OrientedCmp.eq_swap

theorem viewCompare_ne_gt : viewCompare k₁ k₂ S x y ≠ .gt ↔ if S x ∨ S y then k₂ x ≤ k₂ y else k₁ x ≤ k₁ y := by
  unfold viewCompare
  split <;> rw [Ne, compare_gt_iff_gt, not_lt]

theorem viewCompare_trans (h : ∀ a ∈ s, ∀ b ∈ s, ∀ c ∈ s, ¬ Torn k₁ k₂ S a b c) (hx : x ∈ s) (hy : y ∈ s) (hz : z ∈ s)
    (hxy : viewCompare k₁ k₂ S x y ≠ .gt) (hyz : viewCompare k₁ k₂ S y z ≠ .gt) : viewCompare k₁ k₂ S x z ≠ .gt := by
  rw [viewCompare_ne_gt] at *
  by_cases hsy : S y
  · rw [if_pos (.inr hsy)] at hxy
    rw [if_pos (.inl hsy)] at hyz
    split
    · exact hxy.trans hyz
    · next hsxz =>
      -- a special value between two that are not
      obtain ⟨hsx, hsz⟩ := not_or.1 hsxz
      by_contra hlt
      exact h z hz x hx y hy ⟨hsz, hsx, hsy, (not_le.1 hlt).le, hxy, hyz, .inl (not_le.1 hlt)⟩
  · by_cases hsx : S x
    · rw [if_pos (.inl hsx)] at hxy ⊢
      by_cases hsz : S z
      · rw [if_pos (.inr hsz)] at hyz
        exact hxy.trans hyz
      · rw [if_neg (by simp [hsy, hsz])] at hyz
        by_contra hlt
        have hzx := not_le.1 hlt
        exact h y hy z hz x hx ⟨hsy, hsz, hsx, hyz, hzx.le, hxy, .inr (hzx.trans_le hxy)⟩
    · rw [if_neg (by simp [hsx, hsy])] at hxy
      by_cases hsz : S z
      · rw [if_pos (.inr hsz)] at hyz ⊢
        by_contra hlt
        have hzx := not_le.1 hlt
        exact h x hx y hy z hz ⟨hsx, hsy, hsz, hxy, hyz, hzx.le, .inr (hyz.trans_lt hzx)⟩
      · rw [if_neg (by simp [hsy, hsz])] at hyz
        rw [if_neg (by simp [hsx, hsz])]
        exact hxy.trans hyz

theorem Torn.not_preorder {a b c : α} (h : Torn k₁ k₂ S a b c) (ha : a ∈ s) (hb : b ∈ s) (hc : c ∈ s) :
    ¬ TotalPreorderOn (viewCompare k₁ k₂ S) s := by
  intro hp
  have hab : viewCompare k₁ k₂ S a b ≠ .gt := by
    rw [viewCompare_ne_gt, if_neg (by simp [h.left, h.right])]
    exact h.le
  have hbc : viewCompare k₁ k₂ S b c ≠ .gt := by
    rw [viewCompare_ne_gt, if_pos (.inr h.special)]
    exact h.lower
  have hca : viewCompare k₁ k₂ S c a ≠ .gt := by
    rw [viewCompare_ne_gt, if_pos (.inl h.special)]
    exact h.upper
  -- going round, all three would be equal
  have hac := hp.trans a ha b hb c hc hab hbc
  rw [viewCompare_ne_gt, if_pos (.inr h.special)] at hac
  have hcb := hp.trans c hc a ha b hb hca hab
  rw [viewCompare_ne_gt, if_pos (.inl h.special)] at hcb
  have hba := hp.trans b hb c hc a ha hbc hca
  rw [viewCompare_ne_gt, if_neg (by simp [h.left, h.right])] at hba
  rcases h.strict with hlt | hlt
  · exact absurd hba (not_le.2 hlt)
  · exact absurd (hac.trans hcb) (not_le.2 hlt)

theorem totalPreorderOn_viewCompare :
    TotalPreorderOn (viewCompare k₁ k₂ S) s ↔ ∀ a ∈ s, ∀ b ∈ s, ∀ c ∈ s, ¬ Torn k₁ k₂ S a b c := by
  constructor
  · exact fun hp a ha b hb c hc h => h.not_preorder ha hb hc hp
  · intro h
    refine ⟨fun x _ y _ => viewCompare_swap, fun x hx y hy z hz => viewCompare_trans h hx hy hz, ?_⟩
    intro x hx y hy z hz heq
    have hyx : viewCompare k₁ k₂ S y x = .eq := by
      rw [viewCompare_swap, heq]
      rfl
    have hle : ∀ a b, a ∈ s → b ∈ s → viewCompare k₁ k₂ S a b = .eq → ∀ c ∈ s,
        (viewCompare k₁ k₂ S b c ≠ .gt → viewCompare k₁ k₂ S a c ≠ .gt) ∧
          (viewCompare k₁ k₂ S c a ≠ .gt → viewCompare k₁ k₂ S c b ≠ .gt) := by
      intro a b ha hb hab c hc
      have hne : viewCompare k₁ k₂ S a b ≠ .gt := by
        rw [hab]
        decide
      exact ⟨viewCompare_trans h ha hb hc hne, fun hca => viewCompare_trans h hc ha hb hca hne⟩
    have h1 := hle x y hx hy heq z hz
    have h2 := hle y x hy hx hyx z hz
    have hsx : viewCompare k₁ k₂ S z x = (viewCompare k₁ k₂ S x z).swap := viewCompare_swap
    have hsy : viewCompare k₁ k₂ S z y = (viewCompare k₁ k₂ S y z).swap := viewCompare_swap
    rw [hsx, hsy] at h1 h2
    cases hxz : viewCompare k₁ k₂ S x z <;> cases hyz : viewCompare k₁ k₂ S y z <;> simp_all

omit [DecidablePred S] in
theorem not_torn_of_monotone {a b : α} (hle : k₁ a ≤ k₁ b → k₂ a ≤ k₂ b) (hlt : k₁ a < k₁ b → k₂ a < k₂ b) (c : α) :
    ¬ Torn k₁ k₂ S a b c := by
  intro h
  have hba := h.lower.trans h.upper
  rcases h.strict with hs | hs
  · exact absurd hba (not_le.2 (hlt hs))
  · exact absurd (hle h.le) (not_le.2 hs)

end SequoiaDB.Lib

import Mathlib

namespace Xv6Rcu

open Function

/-- Numbers below `hi` are given out to users of type `I`, a user without a
number having zero. A number has one user at most, and the bits are set exactly
for the numbers below `lo`, which are reserved, and those in use. -/
structure Tally {I : Type} (lo hi : Nat) (bits : Nat → Bool) (use : I → Nat) : Prop where
  apart : ∀ i j, use i = use j → use i ≠ 0 → i = j
  range : ∀ i, use i ≠ 0 → lo ≤ use i ∧ use i < hi
  exact : ∀ b < hi, bits b = true ↔ b < lo ∨ b ≠ 0 ∧ ∃ i, use i = b

namespace Tally

variable {I : Type} {lo hi b : Nat} {bits bits' : Nat → Bool} {use use' : I → Nat} {i j : I}

section

variable (h : Tally lo hi bits use)

include h

theorem bit (hi : use i ≠ 0) : bits (use i) = true :=
  (h.exact _ (h.range i hi).2).mpr (.inr ⟨hi, i, rfl⟩)

/-- A number whose bit is clear is nobody's. -/
theorem fresh (hb : bits b = false) (h0 : b ≠ 0) (i : I) : use i ≠ b := by
  rintro rfl
  exact Bool.false_ne_true (hb.symm.trans (h.bit h0))

theorem lo_le (hlt : b < hi) (hb : bits b = false) : lo ≤ b := by
  by_contra hlo
  have := (h.exact b hlt).mpr (.inl (Nat.lt_of_not_le hlo))
  exact Bool.false_ne_true (hb.symm.trans this)

theorem ne (hij : i ≠ j) (hi : use i ≠ 0) : use i ≠ use j :=
  fun he => hij (h.apart i j he hi)

theorem take [DecidableEq I] (hlt : b < hi) (hb : bits b = false) (h0 : b ≠ 0)
    (hz : use i = 0) : Tally lo hi (update bits b true) (update use i b) where
  apart := by
    intro j k he hj
    by_cases hji : j = i <;> by_cases hki : k = i
    · rw [hji, hki]
    · rw [hji, update_self, update_of_ne hki] at he
      exact absurd he.symm (h.fresh hb h0 k)
    · rw [hki, update_self, update_of_ne hji] at he
      exact absurd he (h.fresh hb h0 j)
    · rw [update_of_ne hji] at he hj
      rw [update_of_ne hki] at he
      exact h.apart j k he hj
  range := by
    intro j hj
    by_cases hji : j = i
    · rw [hji, update_self]
      exact ⟨h.lo_le hlt hb, hlt⟩
    · rw [update_of_ne hji] at hj ⊢
      exact h.range j hj
  exact := by
    intro c hc
    by_cases hcb : c = b
    · rw [hcb, update_self]
      exact iff_of_true rfl (.inr ⟨h0, i, update_self _ _ _⟩)
    · rw [update_of_ne hcb, h.exact c hc]
      refine or_congr_right (and_congr_right (fun hc0 => ?_))
      constructor
      · rintro ⟨j, hj⟩
        have hji : j ≠ i := by
          rintro rfl
          exact hc0 (hj.symm.trans hz)
        exact ⟨j, (update_of_ne hji _ _).trans hj⟩
      · rintro ⟨j, hj⟩
        have hji : j ≠ i := by
          rintro rfl
          rw [update_self] at hj
          exact hcb hj.symm
        exact ⟨j, (update_of_ne hji _ _).symm.trans hj⟩

theorem give {S : I → Prop} (hS : ∀ i, S i → use' i = 0)
    (hN : ∀ i, ¬ S i → use' i = use i)
    (hb : ∀ b, bits' b = true ↔ bits b = true ∧ ∀ i, S i → use i = b → use i = 0) :
    Tally lo hi bits' use' := by
  have hsub : ∀ i, use' i ≠ 0 → ¬ S i ∧ use' i = use i := by
    intro i hi
    by_cases hs : S i
    · exact absurd (hS i hs) hi
    · exact ⟨hs, hN i hs⟩
  constructor
  · intro i j he hi
    obtain ⟨-, hui⟩ := hsub i hi
    obtain ⟨-, huj⟩ := hsub j (he ▸ hi)
    exact h.apart i j (hui.symm.trans (he.trans huj)) (hui ▸ hi)
  · intro i hi
    obtain ⟨-, hui⟩ := hsub i hi
    rw [hui] at hi ⊢
    exact h.range i hi
  · intro c hc
    rw [hb, h.exact c hc]
    constructor
    · rintro ⟨hlo | ⟨h0, i, hi⟩, hfree⟩
      · exact .inl hlo
      · refine .inr ⟨h0, i, ?_⟩
        have hs : ¬ S i := fun hs => h0 (hi.symm.trans (hfree i hs hi))
        rw [hN i hs, hi]
    · rintro (hlo | ⟨h0, i, hi⟩)
      · refine ⟨.inl hlo, fun i _ hi => ?_⟩
        by_contra hne
        have := (h.range i hne).1
        omega
      · obtain ⟨hs, hui⟩ := hsub i (hi ▸ h0)
        refine ⟨.inr ⟨h0, i, hui.symm.trans hi⟩, fun j hj hjc => ?_⟩
        by_contra hne
        have hij : j = i := h.apart j i (hjc.trans (hi.symm.trans hui)) hne
        exact hs (hij ▸ hj)

end

end Tally

end Xv6Rcu

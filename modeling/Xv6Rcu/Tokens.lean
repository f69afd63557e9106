import Mathlib

namespace Xv6Rcu.Tokens

open List

variable {P A : Type} {tok tok' : P → List A} {p q : P} {a : A} {r : List A}

/-- Every token is at one place only, and there once. -/
structure Apart (tok : P → List A) : Prop where
  nodup : ∀ p, (tok p).Nodup
  place : ∀ p q a, a ∈ tok p → a ∈ tok q → p = q

theorem Apart.shrink (h : Apart tok) (hs : ∀ p, (tok' p).Sublist (tok p)) : Apart tok' where
  nodup := fun p => (hs p).nodup (h.nodup p)
  place := fun p q a hp hq => h.place p q a ((hs p).subset hp) ((hs q).subset hq)

theorem Apart.add (h : Apart tok) (hq : (tok' q).Perm (a :: tok q)) (hs : ∀ p, p ≠ q → (tok' p).Sublist (tok p))
    (ha : a ∉ tok q) (hf : ∀ p, p ≠ q → a ∉ tok' p) : Apart tok' := by
  have hmem {p : P} (hp : p ≠ q) {b : A} (hb : b ∈ tok' p) (hb' : b ∈ tok' q) : False := by
    rcases mem_cons.mp (hq.mem_iff.mp hb') with rfl | hb'
    · exact hf p hp hb
    · exact hp (h.place p q b ((hs p hp).subset hb) hb')
  constructor
  · intro p
    by_cases hp : p = q
    · subst hp
      exact hq.nodup_iff.mpr (nodup_cons.mpr ⟨ha, h.nodup p⟩)
    · exact (hs p hp).nodup (h.nodup p)
  · intro p p' b hb hb'
    by_cases hp : p = q <;> by_cases hp' : p' = q
    · rw [hp, hp']
    · subst hp
      exact (hmem hp' hb' hb).elim
    · subst hp'
      exact (hmem hp hb hb').elim
    · exact h.place p p' b ((hs p hp).subset hb) ((hs p' hp').subset hb')

theorem Apart.move (h : Apart tok) (hpq : p ≠ q) (hp : tok p = a :: r) (hp' : (tok' p).Sublist r)
    (hq : (tok' q).Perm (a :: tok q)) (hs : ∀ p', p' ≠ q → p' ≠ p → (tok' p').Sublist (tok p')) : Apart tok' := by
  have ha : a ∈ tok p := hp ▸ mem_cons_self
  refine h.add hq (fun p' hq' => ?_) (fun hm => hpq (h.place p q a ha hm)) (fun p' hq' hm => ?_)
  · by_cases he : p' = p
    · subst he
      rw [hp]
      exact hp'.trans (sublist_cons_self a r)
    · exact hs p' hq' he
  · by_cases he : p' = p
    · subst he
      have hn := h.nodup p'
      rw [hp] at hn
      exact (nodup_cons.mp hn).1 (hp'.subset hm)
    · exact he (h.place p' p a ((hs p' hq' he).subset hm) ha)

end Xv6Rcu.Tokens

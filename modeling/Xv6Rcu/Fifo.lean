import Mathlib

namespace Xv6Rcu.Fifo

open Function List

variable {A : Type} {N M r w : Nat} {data : Nat → A} {l : List A} {x : A}

/-- A ring of `N` slots holds the list `l`: `r` and `w` count what has been taken
and put, modulo `M`. -/
structure Holds (N M : Nat) (data : Nat → A) (r w : Nat) (l : List A) : Prop where
  lt : r < M
  count : w = (r + l.length) % M
  le : l.length ≤ N
  slot : ∀ i x, l[i]? = some x → data ((r + i) % N) = x

theorem holds_nil (h : r < M) : Holds N M data r r [] :=
  ⟨h, (Nat.mod_eq_of_lt h).symm, Nat.zero_le N, nofun⟩

section

variable (hNM : N < M)

include hNM

theorem Holds.sub (h : Holds N M data r w l) : (w + M - r) % M = l.length := by
  have hr := h.lt
  have hl := h.le
  rw [h.count]
  by_cases hlt : r + l.length < M
  · have : r + l.length + M - r = l.length + M := by omega
    rw [Nat.mod_eq_of_lt hlt, this, Nat.add_mod_right, Nat.mod_eq_of_lt (by omega)]
  · have hw : (r + l.length) % M = r + l.length - M := by
      rw [Nat.mod_eq_sub_mod (by omega), Nat.mod_eq_of_lt (by omega)]
    rw [hw]
    have : r + l.length - M + M - r = l.length := by omega
    rw [this, Nat.mod_eq_of_lt (by omega)]

theorem Holds.empty_iff (h : Holds N M data r w l) : r = w ↔ l = [] := by
  constructor
  · intro hw
    have := h.sub hNM
    rw [← hw, Nat.add_sub_cancel_left, Nat.mod_self] at this
    exact length_eq_zero_iff.mp this.symm
  · rintro rfl
    rw [h.count, length_nil, add_zero, Nat.mod_eq_of_lt h.lt]

theorem Holds.full_iff (h : Holds N M data r w l) : w = (r + N) % M ↔ l.length = N := by
  constructor
  · intro hw
    have hsub := h.sub hNM
    have hr := h.lt
    rw [hw] at hsub
    by_cases hlt : r + N < M
    · rw [Nat.mod_eq_of_lt hlt] at hsub
      have : r + N + M - r = N + M := by omega
      rw [this, Nat.add_mod_right, Nat.mod_eq_of_lt hNM] at hsub
      exact hsub.symm
    · rw [Nat.mod_eq_sub_mod (a := r + N) (by omega), Nat.mod_eq_of_lt (a := r + N - M) (by omega)] at hsub
      have : r + N - M + M - r = N := by omega
      rw [this, Nat.mod_eq_of_lt hNM] at hsub
      exact hsub.symm
  · intro hl
    rw [h.count, hl]

end

section

variable (hN : N ∣ M)

include hN

theorem Holds.free_slot (h : Holds N M data r w l) : w % N = (r + l.length) % N := by
  rw [h.count, Nat.mod_mod_of_dvd _ hN]

section

variable (h : Holds N M data r w l) (hlt : l.length < N)

include h hlt

theorem Holds.slot_ne {i : Nat} (hi : i < l.length) :
    (r + i) % N ≠ w % N := by
  rw [h.free_slot hN]
  intro hc
  have hmod : i % N = l.length % N := Nat.ModEq.add_left_cancel' r hc
  rw [Nat.mod_eq_of_lt (by omega), Nat.mod_eq_of_lt hlt] at hmod
  omega

theorem Holds.scribble (x : A) :
    Holds N M (update data (w % N) x) r w l := by
  refine ⟨h.lt, h.count, h.le, fun i y hi => ?_⟩
  have hlen := (List.getElem?_eq_some_iff.mp hi).1
  rw [update_of_ne (h.slot_ne hN hlt hlen)]
  exact h.slot i y hi

theorem Holds.push (hx : data (w % N) = x) :
    Holds N M data r ((w + 1) % M) (l ++ [x]) := by
  refine ⟨h.lt, ?_, by rw [length_append]; exact hlt, fun i y hi => ?_⟩
  · rw [h.count, length_append, length_singleton, ← add_assoc, Nat.mod_add_mod]
  · rw [getElem?_append] at hi
    split at hi
    · exact h.slot i y hi
    · rename_i hge
      have hi0 : i = l.length := by
        have := (List.getElem?_eq_some_iff.mp hi).1
        rw [List.length_singleton] at this
        omega
      subst hi0
      rw [Nat.sub_self] at hi
      rw [← h.free_slot hN, hx]
      exact Option.some.inj hi

end

theorem Holds.pop (h : Holds N M data r w (x :: l)) :
    data (r % N) = x ∧ Holds N M data ((r + 1) % M) w l := by
  have hpos : 0 < M := Nat.lt_of_le_of_lt (Nat.zero_le r) h.lt
  refine ⟨h.slot 0 x rfl, Nat.mod_lt _ hpos, ?_, Nat.le_of_succ_le h.le, fun i y hi => ?_⟩
  · rw [h.count, length_cons, Nat.mod_add_mod, Nat.add_assoc, Nat.add_comm 1]
  · have hslot := h.slot (i + 1) y hi
    rw [← Nat.mod_mod_of_dvd _ hN, Nat.mod_add_mod, Nat.mod_mod_of_dvd _ hN, add_assoc, add_comm 1]
    exact hslot

end

end Xv6Rcu.Fifo

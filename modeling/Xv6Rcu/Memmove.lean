import Xv6Rcu.Space

namespace Xv6Rcu.Memmove

open Memory Function Space

section Model

/-- `while(n-- > 0) *d++ = *s++;`, where pointers have 64 bits. -/
def copyUp (m : Mem) (d s : Nat) : Nat → Mem
  | 0 => m
  | n + 1 => copyUp (update m d (m s)) ((d + 1) % 2 ^ 64) ((s + 1) % 2 ^ 64) n

def dec (p : Nat) : Nat := (p + (2 ^ 64 - 1)) % 2 ^ 64

/-- `while(n-- > 0) *--d = *--s;` -/
def copyDown (m : Mem) (d s : Nat) : Nat → Mem
  | 0 => m
  | n + 1 => copyDown (update m (dec d) (m (dec s))) (dec d) (dec s) n

/-- `memmove` of `kernel/string.c`; `n` is a `uint`. -/
def kernelMemmove (m : Mem) (dst src n : Nat) : Mem × Nat :=
  if n = 0 then (m, dst)
  else if src < dst ∧ dst < (src + n) % 2 ^ 64 then
    (copyDown m ((dst + n) % 2 ^ 64) ((src + n) % 2 ^ 64) n, dst)
  else (copyUp m dst src n, dst)

/-- `memmove` of `user/ulib.c`; `n` is an `int`, and the loops end at once if it is negative. -/
def userMemmove (m : Mem) (vdst vsrc : Nat) (n : Int) : Mem × Nat :=
  if vdst < vsrc then (copyUp m vdst vsrc n.toNat, vdst)
  else (copyDown m ((vdst + n) % 2 ^ 64).toNat ((vsrc + n) % 2 ^ 64).toNat n.toNat, vdst)

end Model

section Overlap

variable {m : Mem} {d s n : Nat}

/-- Upwards, the next source byte is not among those already written. -/
theorem copyUp_eq (hover : d ≤ s ∨ s + n ≤ d) (hd : d + n ≤ 2 ^ 64) (hs : s + n ≤ 2 ^ 64) :
    copyUp m d s n = move m d s n := by
  induction n generalizing m d s with
  | zero =>
    funext x
    rw [copyUp, move, if_neg (by omega)]
  | succ n ih =>
    have hstep : copyUp m d s (n + 1) = move (update m d (m s)) (d + 1) (s + 1) n := by
      rcases Nat.eq_zero_or_pos n with rfl | hn
      · funext x
        rw [copyUp, copyUp, move, if_neg (by omega)]
      · rw [copyUp, Nat.mod_eq_of_lt (by omega), Nat.mod_eq_of_lt (by omega)]
        exact ih (by omega) (by omega) (by omega)
    rw [hstep]
    funext x
    unfold move
    by_cases hx : d + 1 ≤ x ∧ x < d + 1 + n
    · have hsrc : s + 1 + (x - (d + 1)) = s + (x - d) := by omega
      rw [if_pos hx, if_pos (by omega), hsrc, update_of_ne (by omega)]
    · rw [if_neg hx]
      by_cases hxd : x = d
      · rw [hxd, update_self, if_pos (by omega), Nat.sub_self, Nat.add_zero]
      · rw [update_of_ne hxd, if_neg (by omega)]

theorem dec_succ {p : Nat} (h : p < 2 ^ 64) : dec ((p + 1) % 2 ^ 64) = p := by
  unfold dec
  omega

/-- Downwards, the pointers start at the ends, one of which may be the end of the address space. -/
theorem copyDown_eq (hover : s ≤ d ∨ d + n ≤ s) (hd : d + n ≤ 2 ^ 64) (hs : s + n ≤ 2 ^ 64) :
    copyDown m ((d + n) % 2 ^ 64) ((s + n) % 2 ^ 64) n = move m d s n := by
  induction n generalizing m with
  | zero =>
    funext x
    rw [copyDown, move, if_neg (by omega)]
  | succ n ih =>
    have hstep := ih (m := update m (d + n) (m (s + n))) (by omega) (by omega) (by omega)
    rw [Nat.mod_eq_of_lt (by omega), Nat.mod_eq_of_lt (by omega)] at hstep
    rw [copyDown, ← Nat.add_assoc, ← Nat.add_assoc, dec_succ (by omega), dec_succ (by omega), hstep]
    funext x
    unfold move
    by_cases hx : d ≤ x ∧ x < d + n
    · rw [if_pos hx, if_pos (by omega), update_of_ne (by omega)]
    · rw [if_neg hx]
      by_cases hxd : x = d + n
      · rw [hxd, update_self, if_pos (by omega), Nat.add_sub_cancel_left]
      · rw [update_of_ne hxd, if_neg (by omega)]

theorem kernelMemmove_eq (hd : d + n ≤ 2 ^ 64) (hs : s + n ≤ 2 ^ 64) : kernelMemmove m d s n = (move m d s n, d) := by
  unfold kernelMemmove
  by_cases h0 : n = 0
  · rw [if_pos h0, h0, ← copyUp_eq (by omega) (by omega) (by omega)]
    rfl
  · rw [if_neg h0]
    split
    · rw [copyDown_eq (by omega) hd hs]
    · rw [copyUp_eq (by omega) hd hs]

theorem userMemmove_eq (hd : d + n ≤ 2 ^ 64) (hs : s + n ≤ 2 ^ 64) : userMemmove m d s n = (move m d s n, d) := by
  have hend : ∀ p : Nat, (((p : Int) + n) % 2 ^ 64).toNat = (p + n) % 2 ^ 64 := by
    intro p
    omega
  unfold userMemmove
  rw [Int.toNat_natCast, hend, hend]
  split
  · rw [copyUp_eq (by omega) hd hs]
  · rw [copyDown_eq (by omega) hd hs]

/-- Both functions move the bytes that were at the source, for each length that their parameter can hold. -/
theorem memmove_exact (m : Mem) (dst src n : Nat) (hd : dst + n ≤ 2 ^ 64) (hs : src + n ≤ 2 ^ 64) :
    (n < 2 ^ 32 → kernelMemmove m dst src n = (move m dst src n, dst)) ∧
    (n < 2 ^ 31 → userMemmove m dst src n = (move m dst src n, dst)) ∧
    (∀ i < n, move m dst src n (dst + i) = m (src + i)) ∧ ∀ x, x < dst ∨ dst + n ≤ x → move m dst src n x = m x := by
  refine ⟨fun _ => kernelMemmove_eq hd hs, fun _ => userMemmove_eq hd hs, fun i hi => ?_, fun x hx => ?_⟩
  · rw [move, if_pos (by omega), Nat.add_sub_cancel_left]
  · rw [move, if_neg (by omega)]

theorem memmove_exact_overlap : kernelMemmove (fun x => UInt8.ofNat x) 2 1 3 = (move (fun x => UInt8.ofNat x) 2 1 3, 2) ∧
    userMemmove (fun x => UInt8.ofNat x) 2 1 3 = (move (fun x => UInt8.ofNat x) 2 1 3, 2) := by
  have h := memmove_exact (fun x => UInt8.ofNat x) 2 1 3 (by decide) (by decide)
  exact ⟨h.1 (by decide), h.2.1 (by decide)⟩

end Overlap

end Xv6Rcu.Memmove

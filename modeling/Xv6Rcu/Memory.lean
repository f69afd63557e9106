import Mathlib

namespace Xv6Rcu.Memory

open Function

/-- Byte-addressed memory. -/
abbrev Mem := Nat → UInt8

/-- The little-endian number in the `n` bytes at `a`. -/
def load (m : Mem) (a : Nat) : Nat → Nat
  | 0 => 0
  | n + 1 => (m a).toNat + 256 * load m (a + 1) n

def store (m : Mem) (a v : Nat) : Nat → Mem
  | 0 => m
  | n + 1 => store (update m a (UInt8.ofNat v)) (a + 1) (v / 256) n

/-- `memset`. -/
def fill (m : Mem) (a : Nat) (c : UInt8) (n : Nat) : Mem := fun x => if a ≤ x ∧ x < a + n then c else m x

/-- `memmove` of the bytes `l`. -/
def put (m : Mem) (a : Nat) (l : List UInt8) : Mem := fun x => if a ≤ x ∧ x < a + l.length then l.getD (x - a) 0 else m x

/-- Words of four bytes, one after the other. -/
def storeWords : Mem → Nat → List Nat → Mem
  | m, _, [] => m
  | m, a, v :: l => storeWords (store m a v 4) (a + 4) l

variable {m m' : Mem} {a b v n k : Nat} {c : UInt8}

theorem load_congr (h : ∀ x, a ≤ x → x < a + n → m' x = m x) : load m' a n = load m a n := by
  induction n generalizing a with
  | zero => rfl
  | succ n ih =>
    rw [load, load, h a le_rfl (by omega), ih (fun x hx hlt => h x (by omega) (by omega))]

theorem store_of_lt (h : b < a) : store m a v n b = m b := by
  induction n generalizing m a v with
  | zero => rfl
  | succ n ih => rw [store, ih (by omega), update_of_ne (by omega)]

theorem store_of_ge (h : a + n ≤ b) : store m a v n b = m b := by
  induction n generalizing m a v with
  | zero => rfl
  | succ n ih => rw [store, ih (by omega), update_of_ne (by omega)]

theorem load_store : load (store m a v n) a n = v % 256 ^ n := by
  induction n generalizing m a v with
  | zero => rw [load, Nat.pow_zero, Nat.mod_one]
  | succ n ih =>
    have hpow : 256 ^ (n + 1) = 256 * 256 ^ n := by ring
    rw [load, store, ih, store_of_lt (by omega), update_self, UInt8.toNat_ofNat', hpow, Nat.mod_mul]

theorem load_store_of_disjoint (h : a + n ≤ b ∨ b + k ≤ a) : load (store m b v k) a n = load m a n := by
  refine load_congr (fun x hx hlt => ?_)
  rcases h with h | h
  · exact store_of_lt (by omega)
  · exact store_of_ge (by omega)

theorem load_fill_of_disjoint (h : a + n ≤ b ∨ b + k ≤ a) : load (fill m b c k) a n = load m a n := by
  refine load_congr (fun x hx hlt => ?_)
  rw [fill, if_neg (by omega)]

theorem load_fill_zero (h : b ≤ a) (h' : a + n ≤ b + k) : load (fill m b 0 k) a n = 0 := by
  induction n generalizing a with
  | zero => rfl
  | succ n ih =>
    rw [load, ih (by omega) (by omega), fill, if_pos (by omega)]
    rfl

theorem put_of_disjoint {l : List UInt8} (h : b < a ∨ a + l.length ≤ b) : put m a l b = m b := by
  rw [put, if_neg (by omega)]

theorem storeWords_of_lt {l : List Nat} (h : b < a) : storeWords m a l b = m b := by
  induction l generalizing m a with
  | nil => rfl
  | cons v l ih => rw [storeWords, ih (by omega), store_of_lt h]

theorem load_storeWords {l : List Nat} (h : k < l.length) :
    load (storeWords m a l) (a + 4 * k) 4 = l.getD k 0 % 256 ^ 4 := by
  induction l generalizing m a k with
  | nil => exact absurd h (Nat.not_lt_zero k)
  | cons v l ih =>
    cases k with
    | zero =>
      rw [storeWords, load_congr (fun x _ hx => storeWords_of_lt (by omega)), mul_zero, add_zero, load_store]
      rfl
    | succ k =>
      have he : a + 4 * (k + 1) = a + 4 + 4 * k := by omega
      rw [storeWords, he, ih (Nat.lt_of_succ_lt_succ h), List.getD_cons_succ]

/-- A part of a memory read as a memory of its own. -/
theorem load_shift {w : Mem} (h : ∀ x, b ≤ x → x < b + n → w x = m (a + x)) : load w b n = load m (a + b) n := by
  induction n generalizing b with
  | zero => rfl
  | succ n ih =>
    rw [load, load, h b le_rfl (by omega), ih (fun x hx hlt => h x (by omega) (by omega)), add_assoc]

theorem load_lt : load m a n < 256 ^ n := by
  induction n generalizing a with
  | zero => rw [load, Nat.pow_zero]; exact one_pos
  | succ n ih =>
    have h1 := ih (a := a + 1)
    have h2 := (m a).toNat_lt
    rw [load, Nat.pow_succ]
    omega

end Xv6Rcu.Memory

import Xv6Rcu.CopyIn
import Xv6Rcu.Pipe

namespace Xv6Rcu.PipeRead

open Memory Kalloc Vm Pipe

section Model

/-- The part of `struct pipe` that a reader uses. -/
structure Buffer where
  data : Nat → UInt8
  nread : Nat
  nwrite : Nat
  writeopen : Bool

def Buffer.next (b : Buffer) : Buffer := { b with nread := (b.nread + 1) % WRAP }

def Buffer.byte (b : Buffer) : UInt8 := b.data (b.nread % PIPESIZE)

/-- The loop of `piperead`, of which `fuel` rounds are left. -/
def pipereadLoop (pagetable addr : Nat) : Nat → Nat → Buffer → Machine → Nat × Buffer × Machine
  | 0, i, b, s => (i, b, s)
  | fuel + 1, i, b, s =>
    if b.nread = b.nwrite then (i, b, s)
    else
      let r := copyout s pagetable ((addr + i) % 2 ^ 64) [b.byte]
      if r.1 = false then (i, b.next, r.2) else pipereadLoop pagetable addr fuel (i + 1) b.next r.2

/-- `piperead` by a process with this page table: what it returns, the buffer and the
memory. If there is nothing to read yet it sleeps, and then looks again. -/
def piperead (b : Buffer) (s : Machine) (pagetable addr : Nat) (n : Int) (killed : Bool) : Option (Int × Buffer × Machine) :=
  if b.nread = b.nwrite ∧ b.writeopen = true then
    if killed = true then some (-1, b, s) else none
  else
    let r := pipereadLoop pagetable addr n.toNat 0 b s
    some (r.1, r.2.1, r.2.2)

end Model

section Delivery

variable {b : Buffer} {s : Machine} {root : Nat}

def Buffer.bytes (b : Buffer) : Nat → List UInt8
  | 0 => []
  | k + 1 => b.byte :: b.next.bytes k

theorem Buffer.length_bytes (b : Buffer) (k : Nat) : (b.bytes k).length = k := by
  induction k generalizing b with
  | zero => rfl
  | succ k ih => rw [Buffer.bytes, List.length_cons, ih]

/-- `k` bytes are taken out of the buffer. -/
def Buffer.skip (b : Buffer) (k : Nat) : Buffer := { b with nread := (b.nread + k) % WRAP }

def Buffer.size (b : Buffer) : Nat := (b.nwrite + WRAP - b.nread) % WRAP

theorem skip_zero (h : b.nread < WRAP) : b.skip 0 = b := by
  rw [Buffer.skip, add_zero, Nat.mod_eq_of_lt h]

theorem next_skip (b : Buffer) (k : Nat) : b.next.skip k = b.skip (k + 1) := by
  unfold Buffer.next Buffer.skip
  dsimp only
  rw [Nat.mod_add_mod, add_assoc, add_comm 1]

theorem distance_skip {r w k W : Nat} (hr : r < W) (hw : w < W) (hk : k ≤ (w + W - r) % W) :
    (w + W - r) % W = (w + W - (r + k) % W) % W + k := by
  have hsub : ∀ x, x ≤ w → (w + W - x) % W = w - x := by
    intro x hx
    have heq : w + W - x = w - x + W := by omega
    rw [heq, Nat.add_mod_right, Nat.mod_eq_of_lt (by omega)]
  by_cases hrw : r ≤ w
  · rw [hsub r hrw] at hk ⊢
    rw [Nat.mod_eq_of_lt (a := r + k) (by omega), hsub (r + k) (by omega)]
    omega
  · have hbig : ∀ x, w < x → x < W → (w + W - x) % W = w + W - x := fun x h1 h2 => Nat.mod_eq_of_lt (by omega)
    rw [hbig r (by omega) hr] at hk ⊢
    by_cases hk' : r + k < W
    · rw [Nat.mod_eq_of_lt hk', hbig (r + k) (by omega) hk']
      omega
    · have hmod : (r + k) % W = r + k - W := by
        rw [Nat.mod_eq_sub_mod (by omega), Nat.mod_eq_of_lt (by omega)]
      rw [hmod, hsub (r + k - W) (by omega)]
      omega

theorem size_skip {k : Nat} (hr : b.nread < WRAP) (hw : b.nwrite < WRAP) (hk : k ≤ b.size) : b.size = (b.skip k).size + k :=
  distance_skip hr hw hk

theorem size_pos (hr : b.nread < WRAP) (hw : b.nwrite < WRAP) (hne : b.nread ≠ b.nwrite) : 0 < b.size := by
  unfold Buffer.size
  generalize WRAP = W at *
  by_cases hlt : b.nread ≤ b.nwrite
  · have heq : b.nwrite + W - b.nread = b.nwrite - b.nread + W := by omega
    rw [heq, Nat.add_mod_right, Nat.mod_eq_of_lt (by omega)]
    omega
  · rw [Nat.mod_eq_of_lt (by omega)]
    omega

theorem copyout_one (hu : UserTable s.mem root) (a : Nat) (ch : UInt8) :
    ((copyout s root a [ch]).1 = true ↔ Accessible s.mem root a) ∧ ((copyout s root a [ch]).1 = true →
      Stored s.mem root a [ch] (copyout s root a [ch]).2.mem ∧ UserTable (copyout s root a [ch]).2.mem root) := by
  obtain ⟨hiff, hst⟩ := copyout_stored a [ch] hu
  refine ⟨hiff.trans ⟨fun h => h a le_rfl (Nat.lt_succ_self a), fun h x h1 h2 => ?_⟩, hst⟩
  obtain rfl : x = a := by
    rw [List.length_singleton] at h2
    omega
  exact h

/-- Every byte but the last one that was taken has been stored, and also the last one
if the user can access its place. -/
theorem pipereadLoop_spec (addr fuel i : Nat) (hu : UserTable s.mem root) (hr : b.nread < WRAP) (hw : b.nwrite < WRAP)
    (hacc : ∀ j, i ≤ j → j < i + fuel → j < i + b.size → Accessible s.mem root (addr + j)) :
    ∃ k, (pipereadLoop root addr fuel i b s).1 = i + k ∧ k ≤ fuel ∧ k ≤ b.size ∧
      (pipereadLoop root addr fuel i b s).2.1 = b.skip k ∧
      Stored s.mem root (addr + i) (b.bytes k) (pipereadLoop root addr fuel i b s).2.2.mem := by
  induction fuel generalizing i b s with
  | zero => exact ⟨0, rfl, le_rfl, Nat.zero_le _, (skip_zero hr).symm, stored_nil⟩
  | succ fuel ih =>
    rw [pipereadLoop]
    by_cases hempty : b.nread = b.nwrite
    · rw [if_pos hempty]
      exact ⟨0, rfl, Nat.zero_le _, Nat.zero_le _, (skip_zero hr).symm, stored_nil⟩
    rw [if_neg hempty]
    dsimp only
    have hsize : b.size = b.next.size + 1 := size_skip hr hw (size_pos hr hw hempty)
    have ha := hacc i le_rfl (by omega) (by omega)
    have hmod : (addr + i) % 2 ^ 64 = addr + i := by
      have hM : MAXVA < 2 ^ 64 := by decide
      exact Nat.mod_eq_of_lt (lt_trans ha.1 hM)
    obtain ⟨hok, hst⟩ := copyout_one hu (addr + i) b.byte
    rw [hmod, if_neg (by rw [hok.mpr ha]; exact nofun)]
    obtain ⟨hst, hu'⟩ := hst (hok.mpr ha)
    obtain ⟨k, h1, h2, h3, h4, h5⟩ := ih (b := b.next) (i + 1) hu' (Nat.mod_lt _ (by decide)) hw
      (fun j hj1 hj2 hj3 => (hst.1 _).mpr (hacc j (by omega) (by omega) (by omega)))
    refine ⟨k + 1, by omega, by omega, by omega, h4.trans (next_skip b k), ?_⟩
    exact hst.append h5

def twoBytes : Buffer := ⟨fun i => if i = 0 then 7 else 8, 0, 2, true⟩

def after (r : Option (Int × Buffer × Machine)) : Int × Nat × Nat :=
  match r with
  | none => (-2, 0, 0)
  | some (ret, b, _) => (ret, b.nread, b.size)

end Delivery

end Xv6Rcu.PipeRead

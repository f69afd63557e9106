import Xv6Rcu.Radix
import Xv6Rcu.Vm

namespace Xv6Rcu.Vm

open Memory Kalloc Radix Option

section Entries

def tab (m : Mem) (t : Nat) (i : Fin 512) : Nat := load m (t + 8 * i) 8

def setEntry (m : Mem) (t : Nat) (i : Fin 512) (pte : Nat) : Mem := store m (t + 8 * i) pte 8

theorem tab_setEntry {m : Mem} {t t' pte : Nat} {i j : Fin 512} (ht : t % PGSIZE = 0) (ht' : t' % PGSIZE = 0) :
    tab (setEntry m t i pte) t' j = if t' = t ∧ j = i then pte % 2 ^ 64 else tab m t' j := by
  unfold tab setEntry
  split
  · rename_i h
    obtain ⟨rfl, rfl⟩ := h
    have hpow : (256 : Nat) ^ 8 = 2 ^ 64 := by norm_num
    rw [load_store, hpow]
  · rename_i h
    refine load_store_of_disjoint ?_
    have hi := i.isLt
    have hj := j.isLt
    unfold PGSIZE at ht ht'
    by_cases htt : t' = t
    · have hji : j.val ≠ i.val := fun hc => h ⟨htt, Fin.ext hc⟩
      omega
    · omega

def child (pte : Nat) : Option Nat := if pte &&& PTE_V ≠ 0 then some (pte2pa pte) else none

def leaf (pte : Nat) : Option (Nat × Nat) := if pte &&& PTE_V ≠ 0 then some (pte2pa pte, pteFlags pte) else none

theorem px_eq (level va : Nat) : px level va = va / 2 ^ (12 + 9 * level) % 512 := by
  rw [px, Nat.shiftRight_eq_div_pow]
  exact Nat.and_two_pow_sub_one_eq_mod _ 9

def index (level va : Nat) : Fin 512 := ⟨px level va, by rw [px_eq]; exact Nat.mod_lt _ (by decide)⟩

def path (va : Nat) : List (Fin 512) := [index 0 va, index 1 va, index 2 va]

def mapping (m : Mem) (root va : Nat) : Option (Nat × Nat) := find child leaf (tab m) root (path va)

def lastTable (m : Mem) (root va : Nat) : Option Nat := table child (tab m) root [index 1 va, index 2 va]

theorem path_congr {va va' : Nat} (h : va / PGSIZE = va' / PGSIZE) : path va = path va' := by
  have hpx : ∀ level, px level va = px level va' := by
    intro level
    rw [px_eq, px_eq, Nat.pow_add, ← Nat.div_div_eq_div_mul, ← Nat.div_div_eq_div_mul]
    change va / PGSIZE / _ % _ = va' / PGSIZE / _ % _
    rw [h]
  simp only [path, index, hpx]

theorem mapping_congr {m : Mem} {root va va' : Nat} (h : va / PGSIZE = va' / PGSIZE) :
    mapping m root va = mapping m root va' := by
  rw [mapping, mapping, path_congr h]

def TOPVA : Nat := 2 ^ 39

theorem lt_TOPVA {va : Nat} (h : va < MAXVA) : va < TOPVA := lt_trans h (by decide)

theorem path_inj {va va' : Nat} (h : va < TOPVA) (h' : va' < TOPVA) (hp : path va = path va') :
    va / PGSIZE = va' / PGSIZE := by
  simp only [path, index, List.cons.injEq, Fin.mk.injEq, and_true, px_eq] at hp
  obtain ⟨h0, h1, h2⟩ := hp
  unfold TOPVA at h h'
  unfold PGSIZE
  norm_num at h0 h1 h2 h h'
  omega

theorem pte2pa_aligned (pte : Nat) : pte2pa pte % PGSIZE = 0 := by
  rw [pte2pa, Nat.shiftLeft_eq]
  unfold PGSIZE
  omega

theorem flags_and (pte : Nat) {b : Nat} (hb : 0x3ff &&& b = b) : pteFlags pte &&& b = pte &&& b := by
  rw [pteFlags, Nat.land_assoc, hb]

end Entries

section Walk

variable {s : Machine} {m m' : Mem} {root va : Nat}

theorem walkFrom_false : walkFrom false va 2 root s =
    ((lastTable s.mem root va).map (fun t => t + 8 * px 0 va), s) := by
  simp only [walkFrom, lastTable, table, bind_some, child, tab, index]
  by_cases h2 : load s.mem (root + 8 * px (1 + 1) va) 8 &&& PTE_V = 0
  · simp [h2]
  · simp only [ne_eq, h2, not_false_eq_true, if_true, bind_some]
    by_cases h1 : load s.mem (pte2pa (load s.mem (root + 8 * px (1 + 1) va) 8) + 8 * px (0 + 1) va) 8 &&& PTE_V = 0
    · simp [h1]
    · simp [h1]

theorem mapping_eq : mapping m root va = (lastTable m root va).bind (fun t => leaf (load m (t + 8 * px 0 va) 8)) := rfl

theorem walkaddr_eq : walkaddr s root va =
    if MAXVA ≤ va then 0 else match mapping s.mem root va with
      | none => 0
      | some (pa, flags) => if flags &&& PTE_U = 0 then 0 else pa := by
  rw [walkaddr, walkFrom_false, mapping_eq]
  by_cases hva : MAXVA ≤ va
  · rw [if_pos hva, if_pos hva]
  · rw [if_neg hva, if_neg hva]
    cases lastTable s.mem root va with
    | none => rfl
    | some t =>
      simp only [map_some, bind_some, leaf]
      by_cases hv : load s.mem (t + 8 * px 0 va) 8 &&& PTE_V = 0
      · simp [hv]
      · simp only [hv, if_false, ne_eq, not_false_eq_true, if_true]
        rw [flags_and _ (by decide)]

theorem mapping_of_tables (h : ∀ q t, q.length < 3 → table child (tab m) root q = some t → ∀ i, tab m' t i = tab m t i) :
    (∀ q, q.length < 3 → table child (tab m') root q = table child (tab m) root q) ∧
      mapping m' root va = mapping m root va := by
  have htab : ∀ q, q.length < 3 → table child (tab m') root q = table child (tab m) root q := by
    intro q hq
    refine table_congr (fun j q' hs t ht => h q' t ?_ ht j)
    have := hs.length_le
    rw [List.length_cons] at this
    omega
  refine ⟨htab, ?_⟩
  rw [mapping_eq, mapping_eq, lastTable, htab _ (by simp)]
  change _ = (table child (tab m) root [index 1 va, index 2 va]).bind _
  cases ht : table child (tab m) root [index 1 va, index 2 va] with
  | none => rw [bind_none, bind_none]
  | some t =>
    have := h _ t (by simp) ht (index 0 va)
    rw [bind_some, bind_some]
    exact congrArg leaf this

theorem table_aligned {q : List (Fin 512)} {t : Nat} (hr : root % PGSIZE = 0)
    (h : table child (tab m) root q = some t) : t % PGSIZE = 0 := by
  cases q with
  | nil =>
    have h := some.inj h
    rw [← h]
    exact hr
  | cons i q =>
    obtain ⟨t', -, ht⟩ := bind_eq_some_iff.mp h
    unfold child at ht
    split at ht
    · rw [← some.inj ht]
      exact pte2pa_aligned _
    · cases ht

theorem mapping_aligned {pa flags : Nat} (h : mapping m root va = some (pa, flags)) : pa % PGSIZE = 0 := by
  rw [mapping_eq] at h
  obtain ⟨t, -, ht⟩ := bind_eq_some_iff.mp h
  unfold leaf at ht
  split at ht
  · rw [← (Prod.mk.inj (some.inj ht)).1]
    exact pte2pa_aligned _
  · cases ht

theorem tab_congr {t : Nat} (h : ∀ x, t ≤ x → x < t + PGSIZE → m' x = m x) (i : Fin 512) : tab m' t i = tab m t i := by
  refine load_congr (fun x hx hlt => h x (by omega) ?_)
  unfold PGSIZE
  omega

end Walk

end Xv6Rcu.Vm

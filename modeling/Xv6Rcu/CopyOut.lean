import Xv6Rcu.PageTable

namespace Xv6Rcu.Vm

open Memory Kalloc Radix List Option

section Calls

/-- The system calls that store to user memory, with the bytes that they have
for the user. -/
inductive StoreCall where
  | readFile (addr : Nat) (blocks : List (List UInt8))
  | readPipe (addr : Nat) (bytes : List UInt8)
  | readConsole (addr : Nat) (bytes : List UInt8)
  | pipe (fdarray : Nat) (fd0 fd1 : List UInt8)
  | fstat (addr : Nat) (st : List UInt8)
  | wait (addr : Nat) (xstate : List UInt8)

def consecutive : Nat → List (List UInt8) → List (Nat × List UInt8)
  | _, [] => []
  | addr, l :: ls => (addr, l) :: consecutive ((addr + l.length) % 2 ^ 64) ls

/-- The calls of `copyout` that a system call makes, as long as none fails. -/
def StoreCall.stores : StoreCall → List (Nat × List UInt8)
  | .readFile addr blocks => consecutive addr blocks
  | .readPipe addr bytes => consecutive addr (bytes.map (fun ch => [ch]))
  | .readConsole addr bytes => consecutive addr (bytes.map (fun ch => [ch]))
  | .pipe fdarray fd0 fd1 => [(fdarray, fd0), ((fdarray + 4) % 2 ^ 64, fd1)]
  | .fstat addr st => [(addr, st)]
  | .wait addr xstate => if addr ≠ 0 then [(addr, xstate)] else []

def runStores (pagetable : Nat) : List (Nat × List UInt8) → Machine → Machine
  | [], s => s
  | (addr, src) :: rest, s =>
    match copyout s pagetable addr src with
    | (false, s) => s
    | (true, s) => runStores pagetable rest s

def StoreCall.run (c : StoreCall) (pagetable : Nat) (s : Machine) : Machine := runStores pagetable c.stores s

def StoreCall.writes (c : StoreCall) (va : Nat) : Prop :=
  ∃ x ∈ c.stores, ∃ j < x.2.length, (x.1 + j) % 2 ^ 64 = va

end Calls

section Frame

variable {s : Machine} {m m' : Mem} {root va : Nat}

/-- The user can access the byte at `va`. There is no memory at physical address 0. -/
def Accessible (m : Mem) (root va : Nat) : Prop :=
  va < MAXVA ∧ ∃ pa fl, mapping m root va = some (pa, fl) ∧ fl &&& PTE_U ≠ 0 ∧ pa ≠ 0

theorem accessible_congr {va' : Nat} (h : va / PGSIZE = va' / PGSIZE) : Accessible m root va ↔ Accessible m root va' := by
  have hM : MAXVA % PGSIZE = 0 := by decide
  have hlt : va < MAXVA ↔ va' < MAXVA := by
    unfold PGSIZE at *
    omega
  unfold Accessible
  rw [mapping_congr h, hlt]

theorem round_page (va : Nat) : pgRoundDown va / PGSIZE = va / PGSIZE ∧ va - pgRoundDown va = va % PGSIZE ∧
    pgRoundDown va + va % PGSIZE = va ∧ va % PGSIZE < PGSIZE := by
  unfold pgRoundDown PGSIZE
  omega

theorem walkaddr_cases (s : Machine) (root va : Nat) :
    (walkaddr s root (pgRoundDown va) = 0 ∧ ¬ Accessible s.mem root va) ∨
    ∃ pa fl, walkaddr s root (pgRoundDown va) = pa ∧ pa ≠ 0 ∧ va < MAXVA ∧ mapping s.mem root va = some (pa, fl) ∧
      fl &&& PTE_U ≠ 0 := by
  have hpage := (round_page va).1
  rw [walkaddr_eq]
  by_cases ha : Accessible s.mem root va
  · right
    have hlt := ((accessible_congr hpage).mpr ha).1
    obtain ⟨hva, pa, fl, hm, hU, h0⟩ := ha
    refine ⟨pa, fl, ?_, h0, hva, hm, hU⟩
    rw [if_neg (by omega), mapping_congr hpage, hm]
    exact if_neg hU
  · left
    refine ⟨?_, ha⟩
    by_cases hva : MAXVA ≤ pgRoundDown va
    · rw [if_pos hva]
    · rw [if_neg hva]
      cases hm : mapping s.mem root (pgRoundDown va) with
      | none => rfl
      | some x =>
        obtain ⟨pa, fl⟩ := x
        dsimp only
        by_cases hU : fl &&& PTE_U = 0
        · rw [if_pos hU]
        · rw [if_neg hU]
          by_contra h0
          exact ha ((accessible_congr hpage).mp ⟨by omega, pa, fl, hm, hU, h0⟩)

/-- A user page table: what the user may access is mapped once, and is not part
of the page table. -/
structure UserTable (m : Mem) (root : Nat) : Prop where
  aligned : root % PGSIZE = 0
  once : ∀ va va' pa fl fl', va < MAXVA → va' < MAXVA → mapping m root va = some (pa, fl) →
    mapping m root va' = some (pa, fl') → va / PGSIZE = va' / PGSIZE
  apart : ∀ va pa fl q t, va < MAXVA → mapping m root va = some (pa, fl) → fl &&& PTE_U ≠ 0 → q.length < 3 →
    table child (tab m) root q = some t → t ≠ pa

def Writable (m : Mem) (root x : Nat) : Prop :=
  ∃ va pa fl, va < MAXVA ∧ mapping m root va = some (pa, fl) ∧ fl &&& PTE_U ≠ 0 ∧ fl &&& PTE_W ≠ 0 ∧ pa ≤ x ∧
    x < pa + PGSIZE

def Changed (m : Mem) (root : Nat) (m' : Mem) : Prop := ∀ x, ¬ Writable m root x → m' x = m x

theorem pages_apart {p q x : Nat} (hp : p % PGSIZE = 0) (hq : q % PGSIZE = 0) (h1 : p ≤ x) (h2 : x < p + PGSIZE)
    (h3 : q ≤ x) (h4 : x < q + PGSIZE) : p = q := by
  unfold PGSIZE at *
  omega

theorem Changed.mapping (hu : UserTable m root) (h : Changed m root m') (va : Nat) :
    mapping m' root va = mapping m root va := by
  refine (mapping_of_tables (fun q t hq ht i => ?_)).2
  refine tab_congr (fun x hx hlt => h x ?_) i
  rintro ⟨va', pa, fl, hva, hmap, hU, -, h1, h2⟩
  exact hu.apart va' pa fl q t hva hmap hU hq ht
    (pages_apart (table_aligned hu.aligned ht) (mapping_aligned hmap) hx hlt h1 h2)

theorem Changed.put (h : Changed m root m') {va pa fl off : Nat} {l : List UInt8} (hva : va < MAXVA)
    (hmap : Vm.mapping m root va = some (pa, fl)) (hU : fl &&& PTE_U ≠ 0) (hW : fl &&& PTE_W ≠ 0)
    (hoff : off + l.length ≤ PGSIZE) : Changed m root (put m' (pa + off) l) := by
  intro x hx
  rw [put_of_disjoint, h x hx]
  by_contra hc
  exact hx ⟨va, pa, fl, hva, hmap, hU, hW, by omega, by omega⟩

theorem copyoutLoop_changed (hu : UserTable m root) (fuel : Nat) {dstva : Nat} {src : List UInt8} (hd : dstva < 2 ^ 64)
    (hw : ∀ j < src.length, ∀ pa fl, (dstva + j) % 2 ^ 64 < MAXVA →
      mapping m root ((dstva + j) % 2 ^ 64) = some (pa, fl) → fl &&& PTE_U ≠ 0 → fl &&& PTE_W ≠ 0)
    (h : Changed m root s.mem) : Changed m root (copyoutLoop root fuel dstva src s).2.mem := by
  induction fuel generalizing dstva src s with
  | zero => exact h
  | succ fuel ih =>
    rw [copyoutLoop]
    by_cases hnil : src = []
    · rw [if_pos hnil]
      exact h
    · rw [if_neg hnil]
      dsimp only
      have hlen := length_pos_iff.mpr hnil
      obtain ⟨-, hoff, hround, hlt⟩ := round_page dstva
      rcases walkaddr_cases s root dstva with ⟨h0, -⟩ | ⟨pa, fl, hwalk, h0, hva, hmap, hU⟩
      · rw [if_pos h0]
        exact h
      · rw [hwalk, if_neg h0, hoff]
        -- the page is there and accessible, so by `hw` it may be written
        rw [h.mapping hu] at hmap
        have hmod : (dstva + 0) % 2 ^ 64 = dstva := Nat.mod_eq_of_lt hd
        have hW := hw 0 hlen pa fl (hmod.symm ▸ hva) (hmod.symm ▸ hmap) hU
        refine ih (Nat.mod_lt _ (by decide)) (fun j hj pa' fl' => ?_)
          (h.put hva hmap hU hW (by rw [length_take]; omega))
        rw [length_drop] at hj
        have heq : ((pgRoundDown dstva + PGSIZE) % 2 ^ 64 + j) % 2 ^ 64 =
            (dstva + (PGSIZE - dstva % PGSIZE + j)) % 2 ^ 64 := by
          omega
        rw [heq]
        exact hw _ (by omega) pa' fl'

theorem runStores_changed (hu : UserTable m root) {l : List (Nat × List UInt8)} (hl : ∀ x ∈ l, x.1 < 2 ^ 64)
    (hw : ∀ x ∈ l, ∀ j < x.2.length, ∀ pa fl, (x.1 + j) % 2 ^ 64 < MAXVA →
      mapping m root ((x.1 + j) % 2 ^ 64) = some (pa, fl) → fl &&& PTE_U ≠ 0 → fl &&& PTE_W ≠ 0)
    (h : Changed m root s.mem) : Changed m root (runStores root l s).mem := by
  induction l generalizing s with
  | nil => exact h
  | cons x l ih =>
    obtain ⟨addr, src⟩ := x
    have hone := copyoutLoop_changed hu src.length (hl _ mem_cons_self) (hw _ mem_cons_self) h
    rw [runStores]
    change Changed m root (copyout s root addr src).2.mem at hone
    generalize copyout s root addr src = r at hone ⊢
    obtain ⟨ok, s'⟩ := r
    cases ok with
    | false => exact hone
    | true => exact ih (fun x hx => hl x (mem_cons_of_mem _ hx)) (fun x hx => hw x (mem_cons_of_mem _ hx)) hone

theorem consecutive_lt {addr : Nat} {ls : List (List UInt8)} (h : addr < 2 ^ 64) :
    ∀ x ∈ consecutive addr ls, x.1 < 2 ^ 64 := by
  induction ls generalizing addr with
  | nil => exact nofun
  | cons l ls ih =>
    intro x hx
    rcases mem_cons.mp hx with rfl | hx
    · exact h
    · exact ih (Nat.mod_lt _ (by decide)) x hx

def StoreCall.addr : StoreCall → Nat
  | .readFile addr _ | .readPipe addr _ | .readConsole addr _ | .pipe addr _ _ | .fstat addr _ | .wait addr _ => addr

theorem stores_lt {c : StoreCall} (h : c.addr < 2 ^ 64) : ∀ x ∈ c.stores, x.1 < 2 ^ 64 := by
  cases c with
  | readFile addr blocks => exact consecutive_lt h
  | readPipe addr bytes => exact consecutive_lt h
  | readConsole addr bytes => exact consecutive_lt h
  | pipe addr fd0 fd1 =>
    intro x hx
    simp only [StoreCall.stores, mem_cons, not_mem_nil, or_false] at hx
    rcases hx with rfl | rfl
    · exact h
    · exact Nat.mod_lt _ (by decide)
  | fstat addr st =>
    intro x hx
    rw [mem_singleton.mp hx]
    exact h
  | wait addr xstate =>
    intro x hx
    rw [StoreCall.stores] at hx
    split at hx
    · rw [mem_singleton.mp hx]
      exact h
    · exact absurd hx not_mem_nil

end Frame

section Text

/-- A page table at `0x80000000` with one page of text, as `exec` maps a segment
that is not writable, at address 0, and `more` at address `0x1000`. -/
def textTable (more : Nat) : Machine :=
  ⟨⟨setEntry (setEntry (setEntry (setEntry (fun _ => 0)
      0x80000000 0 (pa2pte 0x80001000 ||| PTE_V))
      0x80001000 0 (pa2pte 0x80002000 ||| PTE_V))
      0x80002000 0 (pa2pte 0x80003000 ||| (PTE_R ||| PTE_X ||| PTE_U ||| PTE_V)))
      0x80002000 1 more, 0⟩, []⟩

def textAndData : Machine := textTable (pa2pte 0x80004000 ||| (PTE_R ||| PTE_W ||| PTE_U ||| PTE_V))

theorem tab_textAndData (t : Nat) (i : Fin 512) (ht : t % PGSIZE = 0) : tab textAndData.mem t i =
    if t = 0x80002000 ∧ i = 1 then pa2pte 0x80004000 ||| (PTE_R ||| PTE_W ||| PTE_U ||| PTE_V)
    else if t = 0x80002000 ∧ i = 0 then pa2pte 0x80003000 ||| (PTE_R ||| PTE_X ||| PTE_U ||| PTE_V)
    else if t = 0x80001000 ∧ i = 0 then pa2pte 0x80002000 ||| PTE_V
    else if t = 0x80000000 ∧ i = 0 then pa2pte 0x80001000 ||| PTE_V
    else 0 := by
  have hzero : tab (fun _ => 0) t i = 0 := by simp [tab, load]
  change tab (setEntry (setEntry (setEntry (setEntry _ _ _ _) _ _ _) _ _ _) _ _ _) t i = _
  rw [tab_setEntry (by decide) ht, tab_setEntry (by decide) ht, tab_setEntry (by decide) ht,
    tab_setEntry (by decide) ht, hzero]
  rfl

theorem textAndData_root (i : Fin 512) :
    child (tab textAndData.mem 0x80000000 i) = if i = 0 then some 0x80001000 else none := by
  rw [tab_textAndData _ i (by decide)]
  by_cases hi : i = 0
  · rw [hi]
    decide
  · simp [hi, child]

theorem textAndData_middle (i : Fin 512) :
    child (tab textAndData.mem 0x80001000 i) = if i = 0 then some 0x80002000 else none := by
  rw [tab_textAndData _ i (by decide)]
  by_cases hi : i = 0
  · rw [hi]
    decide
  · simp [hi, child]

theorem textAndData_last (i : Fin 512) : leaf (tab textAndData.mem 0x80002000 i) =
    if i = 0 then some (0x80003000, 27) else if i = 1 then some (0x80004000, 23) else none := by
  rw [tab_textAndData _ i (by decide)]
  by_cases hi : i = 0
  · rw [hi]
    decide
  · by_cases hi' : i = 1
    · rw [hi']
      decide
    · simp [hi, hi', leaf]

theorem textAndData_table {q : List (Fin 512)} {t : Nat} (hq : q.length < 3)
    (h : table child (tab textAndData.mem) 0x80000000 q = some t) :
    (q = [] ∧ t = 0x80000000) ∨ (q = [0] ∧ t = 0x80001000) ∨ (q = [0, 0] ∧ t = 0x80002000) := by
  match q, hq with
  | [], _ => exact .inl ⟨rfl, (some.inj h).symm⟩
  | [i], _ =>
    simp only [table, bind_some, textAndData_root] at h
    split at h
    · rename_i hi
      exact .inr (.inl ⟨by rw [hi], (some.inj h).symm⟩)
    · cases h
  | [j, i], _ =>
    simp only [table, bind_some, textAndData_root] at h
    split at h
    · rename_i hi
      simp only [bind_some, textAndData_middle] at h
      split at h
      · rename_i hj
        exact .inr (.inr ⟨by rw [hi, hj], (some.inj h).symm⟩)
      · cases h
    · cases h

theorem textAndData_mapping {va pa fl : Nat} (hva : va < MAXVA)
    (h : mapping textAndData.mem 0x80000000 va = some (pa, fl)) :
    (va / PGSIZE = 0 ∧ pa = 0x80003000) ∨ (va / PGSIZE = 1 ∧ pa = 0x80004000) := by
  rw [mapping, path, find] at h
  obtain ⟨t, ht, hleaf⟩ := bind_eq_some_iff.mp h
  rcases textAndData_table (by simp) ht with ⟨hq, -⟩ | ⟨hq, -⟩ | ⟨hq, rfl⟩
  · simp at hq
  · simp at hq
  · rw [textAndData_last] at hleaf
    split at hleaf
    · rename_i h0
      refine .inl ⟨path_inj (lt_TOPVA hva) (show 0 < TOPVA by decide) ?_, (Prod.mk.inj (some.inj hleaf)).1.symm⟩
      rw [path, hq, h0]
      decide
    · split at hleaf
      · rename_i h1
        refine .inr ⟨path_inj (lt_TOPVA hva) (show PGSIZE < TOPVA by decide) ?_, (Prod.mk.inj (some.inj hleaf)).1.symm⟩
        rw [path, hq, h1]
        decide
      · cases hleaf

theorem textAndData_user : UserTable textAndData.mem 0x80000000 := by
  refine ⟨by decide, fun va va' pa fl fl' hva hva' h h' => ?_, fun va pa fl q t hva h _ hq ht => ?_⟩
  · rcases textAndData_mapping hva h with ⟨h1, h2⟩ | ⟨h1, h2⟩ <;>
      rcases textAndData_mapping hva' h' with ⟨h3, h4⟩ | ⟨h3, h4⟩ <;> omega
  · rcases textAndData_mapping hva h with ⟨-, h2⟩ | ⟨-, h2⟩ <;>
      rcases textAndData_table hq ht with ⟨-, h4⟩ | ⟨-, h4⟩ | ⟨-, h4⟩ <;> omega

end Text

end Xv6Rcu.Vm

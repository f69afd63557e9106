import Mathlib

namespace Xv6Rcu.Radix

open List Option

variable {P I E V : Type}

/-- The table at the end of a path through tables `tab`; the last index of the
path comes first. -/
def table (child : E → Option P) (tab : P → I → E) (root : P) : List I → Option P
  | [] => some root
  | i :: p => (table child tab root p).bind (fun t => child (tab t i))

/-- The value at the end of a path. -/
def find (child : E → Option P) (leaf : E → Option V) (tab : P → I → E) (root : P) : List I → Option V
  | [] => none
  | i :: p => (table child tab root p).bind (fun t => leaf (tab t i))

/-- Different paths shorter than `d` lead to different tables. -/
def Tree (child : E → Option P) (tab : P → I → E) (root : P) (d : Nat) : Prop :=
  ∀ p q a, p.length < d → q.length < d → table child tab root p = some a → table child tab root q = some a → p = q

variable {child : E → Option P} {leaf : E → Option V} {tab tab' : P → I → E} {root a b : P} {i : I} {p q : List I}
  {d : Nat}

theorem table_congr (h : ∀ j q', j :: q' <:+ q → ∀ t, table child tab root q' = some t → tab' t j = tab t j) :
    table child tab' root q = table child tab root q := by
  induction q with
  | nil => rfl
  | cons j q ih =>
    have hq := ih (fun k q' hs => h k q' (hs.trans (suffix_cons j q)))
    rw [table, table, hq]
    cases ht : table child tab root q with
    | none => rfl
    | some t =>
      rw [bind_some, bind_some, h j q (suffix_refl _) t ht]

theorem Tree.off_path (h : Tree child tab root d) (hp : table child tab root p = some a) (hd : p.length < d)
    (hsame : ∀ q t j, q.length < d → table child tab root q = some t → ¬ (t = a ∧ j = i) → tab' t j = tab t j)
    (hq : q.length ≤ d) (hn : ¬ i :: p <:+ q) : table child tab' root q = table child tab root q := by
  refine table_congr (fun j q' hs t ht => hsame q' t j ?_ ht ?_)
  · have := hs.length_le
    rw [length_cons] at this
    omega
  · rintro ⟨rfl, rfl⟩
    have hlt : q'.length < d := by
      have := hs.length_le
      rw [length_cons] at this
      omega
    exact hn (h p q' t hd hlt hp ht ▸ hs)

theorem Tree.set (h : Tree child tab root d) (hp : table child tab root p = some a) (hd : p.length + 1 = d)
    (hsame : ∀ q t j, q.length < d → table child tab root q = some t → ¬ (t = a ∧ j = i) → tab' t j = tab t j)
    (hq : q.length < d) : table child tab' root q = table child tab root q := by
  refine h.off_path hp (by omega) hsame (by omega) (fun hs => ?_)
  have := hs.length_le
  rw [length_cons] at this
  omega

theorem Tree.congr (h : Tree child tab root d)
    (heq : ∀ q, q.length < d → table child tab' root q = table child tab root q) : Tree child tab' root d := by
  intro p q a hp hq hpa hqa
  rw [heq p hp] at hpa
  rw [heq q hq] at hqa
  exact h p q a hp hq hpa hqa

section

variable (h : Tree child tab root d) (hp : table child tab root p = some a) (hd : p.length + 1 = d) (hsame : ∀ q t j, q.length < d → table child tab root q = some t → ¬ (t = a ∧ j = i) → tab' t j = tab t j)

include h hp hd hsame

theorem Tree.find_set {j : I} (hq : q.length < d) (hne : j :: q ≠ i :: p) :
    find child leaf tab' root (j :: q) = find child leaf tab root (j :: q) := by
  rw [find, find, h.set hp hd hsame hq]
  cases ht : table child tab root q with
  | none => rfl
  | some t =>
    rw [bind_some, bind_some, hsame q t j hq ht]
    rintro ⟨rfl, rfl⟩
    exact hne (by rw [h q p t hq (by omega) ht hp])

theorem Tree.find_set_self :
    find child leaf tab' root (i :: p) = leaf (tab' a i) := by
  rw [find, h.set hp hd hsame (by omega), hp, bind_some]

end

section Link

/-- An empty table `b` is linked in at entry `i` of table `a`. -/
structure Linked (child : E → Option P) (tab tab' : P → I → E) (root a b : P) (i : I) (p : List I) (d : Nat) :
    Prop where
  at_path : table child tab root p = some a
  lt : p.length < d
  same : ∀ q t j, q.length < d → table child tab root q = some t → ¬ (t = a ∧ j = i) → tab' t j = tab t j
  none : child (tab a i) = none
  fresh : ∀ q, q.length < d → table child tab root q ≠ some b
  new : child (tab' a i) = some b
  empty : ∀ j, child (tab' b j) = Option.none

variable (hl : Linked child tab tab' root a b i p d)

include hl

theorem Linked.off_path (h : Tree child tab root d) (hq : q.length ≤ d) (hn : ¬ i :: p <:+ q) :
    table child tab' root q = table child tab root q := h.off_path hl.at_path hl.lt hl.same hq hn

theorem Linked.table_self (h : Tree child tab root d) : table child tab' root (i :: p) = some b := by
  have hn : ¬ i :: p <:+ p := by
    intro hs
    have := hs.length_le
    rw [length_cons] at this
    omega
  rw [table, hl.off_path h (le_of_lt hl.lt) hn, hl.at_path, bind_some, hl.new]

theorem Linked.table_below (h : Tree child tab root d) (hs : i :: p <:+ q) (hne : q ≠ i :: p) :
    table child tab' root q = Option.none := by
  induction q with
  | nil => exact absurd (suffix_nil.mp hs) (cons_ne_nil _ _)
  | cons j q ih =>
    rcases suffix_cons_iff.mp hs with heq | hs'
    · exact absurd heq.symm hne
    · rw [table]
      by_cases hq : q = i :: p
      · rw [hq, hl.table_self h, bind_some, hl.empty]
      · rw [ih hs' hq, bind_none]

theorem Linked.table_before (hs : i :: p <:+ q) : table child tab root q = Option.none := by
  induction q with
  | nil => exact absurd (suffix_nil.mp hs) (cons_ne_nil _ _)
  | cons j q ih =>
    rcases suffix_cons_iff.mp hs with heq | hs'
    · obtain ⟨rfl, rfl⟩ := List.cons.inj heq
      rw [table, hl.at_path, bind_some, hl.none]
    · rw [table, ih hs', bind_none]

theorem Linked.table_cases (h : Tree child tab root d) {c : P} (hq : q.length ≤ d)
    (hc : table child tab' root q = some c) : (q = i :: p ∧ c = b) ∨ (¬ i :: p <:+ q ∧ table child tab root q = some c) := by
  by_cases hs : i :: p <:+ q
  · by_cases hne : q = i :: p
    · rw [hne, hl.table_self h, some.injEq] at hc
      exact .inl ⟨hne, hc.symm⟩
    · rw [hl.table_below h hs hne] at hc
      cases hc
  · rw [hl.off_path h hq hs] at hc
    exact .inr ⟨hs, hc⟩

theorem Linked.tree (h : Tree child tab root d) : Tree child tab' root d := by
  intro q r c hq hr hqc hrc
  rcases hl.table_cases h (le_of_lt hq) hqc with ⟨rfl, rfl⟩ | ⟨-, hqc⟩
  · rcases hl.table_cases h (le_of_lt hr) hrc with ⟨rfl, -⟩ | ⟨-, hrc⟩
    · rfl
    · exact absurd hrc (hl.fresh r hr)
  · rcases hl.table_cases h (le_of_lt hr) hrc with ⟨rfl, rfl⟩ | ⟨-, hrc⟩
    · exact absurd hqc (hl.fresh q hq)
    · exact h q r c hq hr hqc hrc

theorem Linked.find (h : Tree child tab root d) (hempty : ∀ j, leaf (tab' b j) = Option.none) {j : I}
    (hq : q.length < d) (hne : j :: q ≠ i :: p) :
    find child leaf tab' root (j :: q) = find child leaf tab root (j :: q) := by
  rw [Radix.find, Radix.find]
  by_cases hs : i :: p <:+ q
  · rw [hl.table_before hs, bind_none]
    by_cases hqp : q = i :: p
    · rw [hqp, hl.table_self h, bind_some, hempty]
    · rw [hl.table_below h hs hqp, bind_none]
  · rw [hl.off_path h (le_of_lt hq) hs]
    cases ht : table child tab root q with
    | none => rfl
    | some t =>
      rw [bind_some, bind_some, hl.same q t j hq ht]
      rintro ⟨rfl, rfl⟩
      exact hne (by rw [h q p t hq hl.lt ht hl.at_path])

end Link

end Xv6Rcu.Radix

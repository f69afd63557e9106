import Mathlib

namespace Xv6Rcu.Threads

open Function Finset

variable {T A P M : Type}

/-- What a sum over all threads becomes when one of them moves. -/
theorem sum_update [DecidableEq T] [Fintype T] [AddCommMonoid M] (f : P → M) (pc : T → P) (t : T) (q : P) :
    (∑ u, f (update pc t q u)) + f (pc t) = (∑ u, f (pc u)) + f q := by
  rw [← sum_erase_add _ _ (mem_univ t),
    ← sum_erase_add Finset.univ (fun u => f (pc u)) (mem_univ t),
    update_self, add_assoc, add_assoc, add_comm (f q)]
  congr 1
  apply sum_congr rfl
  intro u hu
  rw [update_of_ne (ne_of_mem_erase hu)]

/-- A thread that has nothing pending takes something on. -/
theorem sum_begin [DecidableEq T] [Fintype T] [AddCommMonoid M] {f : P → M} {pc : T → P} {t : T} {p : P}
    (hp : pc t = p) (h : f p = 0) (q : P) :
    ∑ u, f (update pc t q u) = (∑ u, f (pc u)) + f q := by
  have hsum := sum_update f pc t q
  rwa [hp, h, add_zero] at hsum

/-- A thread brings what it has pending to the settled part `s`. -/
theorem sum_settle [DecidableEq T] [Fintype T] [AddCommMonoid M] {f : P → M} {pc : T → P} {t : T}
    {p q : P} (hp : pc t = p) (h : f q = 0) (s : M) :
    s + f p + ∑ u, f (update pc t q u) = s + ∑ u, f (pc u) := by
  have hsum := sum_update f pc t q
  rw [hp, h, add_zero] at hsum
  rw [← hsum, add_assoc, add_comm (f p)]

section Update

variable [DecidableEq T] {pc : T → P} {t : T} {p q : P}

@[elab_as_elim]
theorem update_cases {C : T → P → Prop} (u : T) (hat : C t q) (hother : u ≠ t → C u (pc u)) : C u (update pc t q u) := by
  by_cases hu : u = t
  · rw [hu, update_self]
    exact hat
  · rw [update_of_ne hu]
    exact hother hu

theorem forall_update {C : P → Prop} (hq : C q) (h : ∀ u, u ≠ t → C (pc u)) :
    ∀ u, C (update pc t q u) := by
  intro u
  by_cases hu : u = t
  · subst u; simpa using hq
  · simpa [hu] using h u hu

theorem same_update {f : P → M} (hp : pc t = p) (h : f q = f p) (u : T) :
    f (update pc t q u) = f (pc u) := by
  by_cases hu : u = t
  · subst u; simpa [hp] using h
  · simp [hu]

end Update

/-- Of possibly infinitely many threads, `k` are at a place that `f` marks. -/
def Counted (f : P → Bool) (pc : T → P) (k : Nat) : Prop :=
  ∃ ts : Finset T, (∀ t, t ∈ ts ↔ f (pc t) = true) ∧ k = ts.card

namespace Counted

variable {f : P → Bool} {pc : T → P} {k : Nat} {t : T} {q : P}

theorem none (h : Counted f pc 0) (t : T) : f (pc t) = false := by
  obtain ⟨ts, hts, hk⟩ := h
  have hnil : ts = ∅ := card_eq_zero.mp hk.symm
  rw [← Bool.not_eq_true, ← hts t, hnil]
  exact notMem_empty t

theorem zero (h : ∀ t, f (pc t) = false) : Counted f pc 0 :=
  ⟨∅, fun t => by simp [h t], rfl⟩

theorem pos (h : Counted f pc k) (ht : f (pc t) = true) : 0 < k := by
  obtain ⟨ts, hts, rfl⟩ := h
  exact card_pos.mpr ⟨t, (hts t).mpr ht⟩

variable [DecidableEq T]

theorem same (h : Counted f pc k) (hq : f q = f (pc t)) : Counted f (update pc t q) k := by
  obtain ⟨ts, hts, hk⟩ := h
  refine ⟨ts, fun u => ?_, hk⟩
  rw [hts, same_update rfl hq]

theorem enter (h : Counted f pc k) (ht : f (pc t) = false) (hq : f q = true) :
    Counted f (update pc t q) (k + 1) := by
  obtain ⟨ts, hts, rfl⟩ := h
  have hn : t ∉ ts := by simp [hts, ht]
  refine ⟨insert t ts, fun u => ?_, (card_insert_of_notMem hn).symm⟩
  by_cases hu : u = t
  · simp [hu, hq]
  · simp [hu, hts]

theorem leave (h : Counted f pc k) (ht : f (pc t) = true) (hq : f q = false) :
    Counted f (update pc t q) (k - 1) := by
  obtain ⟨ts, hts, rfl⟩ := h
  refine ⟨ts.erase t, fun u => ?_, (card_erase_of_mem ((hts t).mpr ht)).symm⟩
  by_cases hu : u = t
  · simp [hu, hq]
  · simp [hu, hts]

end Counted

theorem unique_update [DecidableEq T] {R : P → A → Prop} {pc : T → P} {t : T} {q : P}
    (h : ∀ t u a, R (pc t) a → R (pc u) a → t = u) (hq : ∀ u a, u ≠ t → R q a → ¬ R (pc u) a) :
    ∀ u v a, R (update pc t q u) a → R (update pc t q v) a → u = v := by
  intro u v a hu hv
  by_cases hut : u = t <;> by_cases hvt : v = t
  · rw [hut, hvt]
  · rw [hut, update_self] at hu
    rw [update_of_ne hvt] at hv
    exact absurd hv (hq v a hvt hu)
  · rw [hvt, update_self] at hv
    rw [update_of_ne hut] at hu
    exact absurd hu (hq u a hut hv)
  · rw [update_of_ne hut] at hu
    rw [update_of_ne hvt] at hv
    exact h u v a hu hv

/-- No two threads have the same thing, as `f` reads it off their place. -/
def Distinct (f : P → Option A) (pc : T → P) : Prop :=
  ∀ t u a, f (pc t) = some a → f (pc u) = some a → t = u

theorem Distinct.same [DecidableEq T] {f : P → Option A} {pc : T → P} (h : Distinct f pc) {t : T}
    {p q : P} (hp : pc t = p) (hq : f q = f p) : Distinct f (update pc t q) := by
  intro u v a
  simpa only [same_update hp hq] using h u v a

theorem Distinct.update [DecidableEq T] {f : P → Option A} {pc : T → P} (h : Distinct f pc) {t : T}
    {q : P} (hq : ∀ u, u ≠ t → ∀ a, f (pc u) = some a → f q ≠ some a) :
    Distinct f (update pc t q) := by
  exact unique_update (R := fun p a => f p = some a) h (fun u a hu ha hb => hq u hu a hb ha)

/-- Every set flag has exactly one owner, and an owner finds its flag set. -/
structure Exclusive (flag : A → Bool) (own : T → A → Prop) : Prop where
  flag_iff : ∀ a, flag a = true ↔ ∃ t, own t a
  unique : ∀ t u a, own t a → own u a → t = u

namespace Exclusive

variable {flag flag' : A → Bool} {own own' : T → A → Prop} {t : T} {a : A}

theorem not_own (h : Exclusive flag own) (hf : flag a = false) (t : T) : ¬ own t a := by
  intro ht
  have := (h.flag_iff a).mpr ⟨t, ht⟩
  simp [hf] at this

theorem congr (h : Exclusive flag own) (hflag : ∀ b, flag' b = flag b)
    (hown : ∀ u b, own' u b ↔ own u b) : Exclusive flag' own' where
  flag_iff := by simpa only [hflag, hown] using h.flag_iff
  unique := by simpa only [hown] using h.unique

variable [DecidableEq A]

theorem take (h : Exclusive flag own) (hf : flag a = false)
    (hflag : flag' = update flag a true)
    (hown : ∀ u b, own' u b ↔ own u b ∨ (u = t ∧ b = a)) : Exclusive flag' own' where
  flag_iff := by
    intro b
    simp only [hown, hflag]
    by_cases hb : b = a
    · subst b
      simp only [update_self, true_iff, and_true]
      exact ⟨t, .inr rfl⟩
    · simpa [hb] using h.flag_iff b
  unique := by
    intro u v b hu hv
    obtain hu | ⟨rfl, rfl⟩ := (hown u b).mp hu <;> obtain hv | ⟨rfl, hb⟩ := (hown v b).mp hv
    · exact h.unique u v b hu hv
    · exact absurd (hb ▸ hu) (h.not_own hf u)
    · exact absurd hv (h.not_own hf v)
    · rfl

theorem drop (h : Exclusive flag own) (ht : own t a)
    (hflag : flag' = update flag a false)
    (hown : ∀ u b, own' u b ↔ own u b ∧ ¬ (u = t ∧ b = a)) : Exclusive flag' own' where
  flag_iff := by
    intro b
    simp only [hown, hflag]
    by_cases hb : b = a
    · rw [hb]
      simp only [update_self, Bool.false_eq_true, and_true, false_iff]
      rintro ⟨u, hu, hne⟩
      exact hne (h.unique u t a hu ht)
    · simpa [hb] using h.flag_iff b
  unique := fun u v b hu hv => h.unique u v b ((hown u b).mp hu).1 ((hown v b).mp hv).1

end Exclusive

end Xv6Rcu.Threads

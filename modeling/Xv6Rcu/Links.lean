import Mathlib

namespace Xv6Rcu.Links

open Function List

variable {A : Type}

/-- `Reach next h a`: following `next` from the pointer `h` meets the node `a`. -/
inductive Reach (next : A → Option A) : Option A → A → Prop
  | here (a : A) : Reach next (some a) a
  | step {a b : A} : Reach next (next a) b → Reach next (some a) b

/-- `Chain next h l`: the nodes met from the pointer `h`, in order, are `l`,
and after them the pointer is null. -/
inductive Chain (next : A → Option A) : Option A → List A → Prop
  | nil : Chain next none []
  | cons {a : A} {l : List A} : Chain next (next a) l → Chain next (some a) (a :: l)

variable {next : A → Option A} {h : Option A} {a b c : A} {l m : List A}

theorem not_reach_none : ¬ Reach next none a := by
  intro hr
  cases hr

theorem reach_some : Reach next (some a) b ↔ a = b ∨ Reach next (next a) b := by
  constructor
  · intro hr
    cases hr with
    | here => exact .inl rfl
    | step hr => exact .inr hr
  · rintro (rfl | hr)
    · exact Reach.here a
    · exact Reach.step hr

theorem Reach.trans (hab : Reach next h a) (hbc : Reach next (some a) b) : Reach next h b := by
  induction hab with
  | here a => exact hbc
  | step _ ih => exact Reach.step (ih hbc)

theorem Reach.succ (hab : Reach next h a) (hn : next a = some b) : Reach next h b :=
  hab.trans (Reach.step (hn ▸ Reach.here b))

theorem Chain.mem_iff (hc : Chain next h l) : a ∈ l ↔ Reach next h a := by
  induction hc with
  | nil => simp [not_reach_none]
  | cons _ ih => rw [mem_cons, reach_some, ih, eq_comm]

theorem Chain.unique (hl : Chain next h l) (hm : Chain next h m) : l = m := by
  induction hl generalizing m with
  | nil => cases hm; rfl
  | cons _ ih =>
    cases hm with
    | cons hm => rw [ih hm]

theorem Chain.suffix (hc : Chain next h (l ++ a :: m)) : Chain next (some a) (a :: m) := by
  induction l generalizing h with
  | nil =>
    cases hc with
    | cons hc => exact Chain.cons hc
  | cons b l ih =>
    cases hc with
    | cons hc => exact ih hc

theorem Chain.tail (hc : Chain next h (l ++ a :: m)) : Chain next (next a) m := by
  cases hc.suffix with
  | cons hc => exact hc

theorem Chain.head (hc : Chain next h (a :: l)) : h = some a := by
  cases hc; rfl

theorem Chain.eq_head? (hc : Chain next h l) : h = l.head? := by
  cases hc with
  | nil => rfl
  | cons => rfl

theorem Chain.nodup (hc : Chain next h l) : l.Nodup := by
  induction hc with
  | nil => exact nodup_nil
  | @cons a l hc ih =>
    refine nodup_cons.mpr ⟨?_, ih⟩
    intro hm
    obtain ⟨l₁, l₂, rfl⟩ := append_of_mem hm
    have he := congrArg List.length (hc.suffix.unique (Chain.cons hc))
    simp at he
    omega

theorem Chain.next_ne (hc : Chain next h l) (ha : a ∈ l) : next a ≠ some a := by
  intro hn
  obtain ⟨l₁, l₂, rfl⟩ := append_of_mem ha
  have ht := hc.tail
  rw [hn] at ht
  have he := congrArg List.length (ht.unique hc.suffix)
  simp at he

/-- A link inside a chain splits it between its two nodes. -/
theorem Chain.split (hc : Chain next h l) (ha : a ∈ l) (hab : next a = some b) :
    ∃ l₁ l₂, l = l₁ ++ a :: b :: l₂ := by
  obtain ⟨l₁, l₃, rfl⟩ := append_of_mem ha
  have ht := hc.tail
  rw [hab] at ht
  cases ht with
  | cons _ => exact ⟨l₁, _, rfl⟩

theorem Chain.mem_unlink (hc : Chain next h (l ++ a :: b :: m)) :
    c ∈ l ++ a :: m ↔ c ∈ l ++ a :: b :: m ∧ c ≠ b := by
  have hn := hc.nodup
  rw [append_cons, nodup_middle] at hn
  have hb : b ∉ l ++ a :: m := by simpa using (nodup_cons.mp hn).1
  constructor
  · intro hm
    refine ⟨by simp at hm ⊢; tauto, ?_⟩
    rintro rfl
    exact hb hm
  · rintro ⟨hm, hcb⟩
    simpa [hcb] using hm

section Update

variable [DecidableEq A]

/-- A write to a node off the chain leaves the chain as it is. -/
theorem Chain.update_of_notMem (hc : Chain next h l) (ha : a ∉ l) (v : Option A) :
    Chain (update next a v) h l := by
  induction hc with
  | nil => exact Chain.nil
  | @cons b l _ ih =>
    have hb : b ≠ a := fun he => ha (by simp [he])
    have hl : a ∉ l := fun he => ha (by simp [he])
    have hn := ih hl
    rw [← update_of_ne hb v next] at hn
    exact Chain.cons hn

/-- Unlinking: the node after `a` leaves the chain, the rest keeps its order. -/
theorem Chain.unlink (hc : Chain next h (l ++ a :: b :: m)) :
    Chain (update next a (next b)) h (l ++ a :: m) := by
  induction l generalizing h with
  | nil =>
    have hn := hc.nodup
    have hm : a ∉ m := by
      intro hm
      simp [hm] at hn
    have ht : Chain next (next b) m := Chain.tail (l := [a]) hc
    rw [hc.head]
    apply Chain.cons
    rw [update_self]
    exact ht.update_of_notMem hm _
  | cons c l ih =>
    have hn := hc.nodup
    have hca : c ≠ a := by
      rintro rfl
      simp at hn
    cases hc with
    | cons hc =>
      have hi := ih hc
      rw [← update_of_ne hca (next b) next] at hi
      exact Chain.cons hi

/-- A write to a node that cannot be met leaves what can be met as it is. -/
theorem reach_update_of_not_reach (v : Option A) (ha : ¬ Reach next h a) :
    Reach (update next a v) h b ↔ Reach next h b := by
  constructor
  · intro hr
    induction hr with
    | here b => exact Reach.here b
    | @step c b _ ih =>
      have hca : c ≠ a := fun he => ha (he ▸ Reach.here c)
      rw [update_of_ne hca] at ih
      exact Reach.step (ih (fun hr => ha (Reach.step hr)))
  · intro hr
    induction hr with
    | here b => exact Reach.here b
    | @step c b _ ih =>
      have hca : c ≠ a := fun he => ha (he ▸ Reach.here c)
      have hi := ih (fun hr => ha (Reach.step hr))
      rw [← update_of_ne hca v next] at hi
      exact Reach.step hi

/-- Unlinking the node after `a` lets no pointer meet more than before. -/
theorem Reach.of_unlink (hab : next a = some b)
    (hr : Reach (update next a (next b)) h c) : Reach next h c := by
  induction hr with
  | here c => exact Reach.here c
  | @step d c _ ih =>
    by_cases hd : d = a
    · subst d
      rw [update_self] at ih
      exact Reach.step (hab ▸ Reach.step ih)
    · rw [update_of_ne hd] at ih
      exact Reach.step ih

/-- Unlinking the node after `a` hides no other node, not even from pointers
that stand on nodes unlinked earlier. -/
theorem Reach.unlink (hab : next a = some b) (hcb : c ≠ b) (hr : Reach next h c) :
    Reach (update next a (next b)) h c := by
  induction hr with
  | here c => exact Reach.here c
  | @step d c hr ih =>
    have hi := ih hcb
    by_cases hd : d = a
    · rw [hd, hab] at hi
      obtain he | hi := reach_some.mp hi
      · exact absurd he.symm hcb
      · by_cases hb : b = a
        · rw [hb] at hi
          rw [hd]
          exact Reach.step (hb ▸ hi)
        · rw [update_of_ne hb] at hi
          apply Reach.step
          rw [hd, update_self]
          exact hi
    · rw [← update_of_ne hd (next b) next] at hi
      exact Reach.step hi

end Update

end Xv6Rcu.Links

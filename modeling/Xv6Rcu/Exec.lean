import Mathlib

namespace Xv6Rcu

/-- A computation on states of type `σ` that may stop with an error. -/
def Exec (σ ε α : Type) := σ → Except ε (α × σ)

namespace Exec

variable {σ τ ε α β : Type}

instance : Monad (Exec σ ε) where
  pure a := fun s => .ok (a, s)
  bind x f := fun s =>
    match x s with
    | .ok (a, t) => f a t
    | .error e => .error e

def look : Exec σ ε σ := fun s => .ok (s, s)

def alter (f : σ → σ) : Exec σ ε Unit := fun s => .ok ((), f s)

def stop (e : ε) : Exec σ ε α := fun _ => .error e

def when (c : Prop) [Decidable c] (x : Exec σ ε Unit) : Exec σ ε Unit := if c then x else pure ()

/-- Do `f 0`, ..., `f (n - 1)` in this order. -/
def each (f : Nat → Exec σ ε Unit) : Nat → Exec σ ε Unit
  | 0 => pure ()
  | n + 1 => do
    each f n
    f n

/-- A computation on a part of the state. -/
def zoom (get : σ → τ) (put : σ → τ → σ) (x : Exec τ ε α) : Exec σ ε α := fun s =>
  match x (get s) with
  | .ok (a, t) => .ok (a, put s t)
  | .error e => .error e

/-- From `s` the computation ends with a value and state that satisfy `Q`, or
with an error that satisfies `E`. -/
def Runs (x : Exec σ ε α) (s : σ) (Q : α → σ → Prop) (E : ε → Prop) : Prop :=
  match x s with
  | .ok (a, t) => Q a t
  | .error e => E e

section Rules

variable {x : Exec σ ε α} {f : α → Exec σ ε β} {s : σ} {Q P : α → σ → Prop} {E F : ε → Prop}

@[simp] theorem runs_pure {a : α} : Runs (pure a : Exec σ ε α) s Q E ↔ Q a s := Iff.rfl

@[simp] theorem runs_look {Q : σ → σ → Prop} : Runs (look : Exec σ ε σ) s Q E ↔ Q s s := Iff.rfl

@[simp] theorem runs_alter {g : σ → σ} {Q : Unit → σ → Prop} :
    Runs (alter g : Exec σ ε Unit) s Q E ↔ Q () (g s) := Iff.rfl

@[simp] theorem runs_stop {e : ε} : Runs (stop e : Exec σ ε α) s Q E ↔ E e := Iff.rfl

@[simp] theorem runs_bind {Q : β → σ → Prop} :
    Runs (x >>= f) s Q E ↔ Runs x s (fun a t => Runs (f a) t Q E) E := by
  unfold Runs
  change (match (match x s with
    | .ok (a, t) => f a t
    | .error e => .error e : Except ε (β × σ)) with
    | .ok (a, t) => Q a t
    | .error e => E e) ↔ _
  cases x s with
  | ok r => exact Iff.rfl
  | error e => exact Iff.rfl

@[simp] theorem runs_ite {c : Prop} [Decidable c] {y : Exec σ ε α} :
    Runs (if c then x else y) s Q E ↔ (c → Runs x s Q E) ∧ (¬ c → Runs y s Q E) := by
  by_cases h : c <;> simp [h]

@[simp] theorem runs_when {c : Prop} [Decidable c] {y : Exec σ ε Unit} {Q : Unit → σ → Prop} :
    Runs (when c y) s Q E ↔ (c → Runs y s Q E) ∧ (¬ c → Q () s) := runs_ite

@[simp] theorem runs_zoom {get : τ → σ} {put : τ → σ → τ} {u : τ} {Q : α → τ → Prop} :
    Runs (zoom get put x) u Q E ↔ Runs x (get u) (fun a t => Q a (put u t)) E := by
  unfold Runs zoom
  cases x (get u) with
  | ok r => exact Iff.rfl
  | error e => exact Iff.rfl

theorem Runs.mono (h : Runs x s Q E) (hQ : ∀ a t, Q a t → P a t) (hE : ∀ e, E e → F e) : Runs x s P F := by
  unfold Runs at *
  cases hx : x s with
  | ok r =>
    rw [hx] at h
    exact hQ _ _ h
  | error e =>
    rw [hx] at h
    exact hE e h

/-- The consequence rule for a computation that cannot fail. -/
theorem Runs.safe (h : Runs x s Q (fun _ => False)) (hQ : ∀ a t, Q a t → P a t) : Runs x s P F :=
  h.mono hQ (fun _ hf => hf.elim)

theorem Runs.of_eq {a : α} {t : σ} (h : x s = .ok (a, t)) (hQ : Q a t) : Runs x s Q E := by
  unfold Runs
  rw [h]
  exact hQ

theorem bind_ok {a : α} {t : σ} (h : x s = .ok (a, t)) : (x >>= f) s = f a t := by
  change (match x s with
    | .ok (a, t) => f a t
    | .error e => .error e : Except ε (β × σ)) = _
  rw [h]

theorem Runs.ok (h : Runs x s Q E) {a : α} {t : σ} (hx : x s = .ok (a, t)) : Q a t := by
  unfold Runs at h
  rw [hx] at h
  exact h

theorem Runs.error (h : Runs x s Q E) {e : ε} (hx : x s = .error e) : E e := by
  unfold Runs at h
  rw [hx] at h
  exact h

theorem Runs.exists_ok (h : Runs x s Q (fun _ => False)) : ∃ a t, x s = .ok (a, t) ∧ Q a t := by
  unfold Runs at h
  cases hx : x s with
  | ok r =>
    rw [hx] at h
    exact ⟨r.1, r.2, rfl, h⟩
  | error e =>
    rw [hx] at h
    exact h.elim

/-- The invariant rule for loops: `I i` holds before round `i`. -/
theorem Runs.each {g : Nat → Exec σ ε Unit} {n : Nat} (I : Nat → σ → Prop) (h0 : I 0 s)
    (hg : ∀ i < n, ∀ t, I i t → Runs (g i) t (fun _ u => I (i + 1) u) E) :
    Runs (Exec.each g n) s (fun _ t => I n t) E := by
  induction n with
  | zero => exact h0
  | succ n ih =>
    rw [Exec.each, runs_bind]
    refine (ih (fun i hi => hg i (Nat.lt_succ_of_lt hi))).mono ?_ (fun _ he => he)
    exact fun _ t ht => hg n (Nat.lt_succ_self n) t ht

end Rules

-- Loops are reasoned about by their rule, never by unfolding the rounds.
attribute [irreducible] each

end Exec

end Xv6Rcu

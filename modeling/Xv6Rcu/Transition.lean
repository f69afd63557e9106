import Mathlib

namespace Xv6Rcu.Transition

-- The schedules are written for two or three threads.
instance neZeroTwo : NeZero 2 := ⟨by decide⟩

instance neZeroThree : NeZero 3 := ⟨by decide⟩

variable {σ α : Type}

/-- A labelled step function: `none` where the action is not enabled. -/
abbrev Step (σ α : Type) := σ → α → Option σ

/-- Execute a schedule, one action after another. -/
def exec (step : Step σ α) : σ → List α → Option σ
  | s, [] => some s
  | s, a :: as => (step s a).bind (fun t => exec step t as)

theorem exec_append (step : Step σ α) (s : σ) (as bs : List α) :
    exec step s (as ++ bs) = (exec step s as).bind (fun t => exec step t bs) := by
  induction as generalizing s with
  | nil => rfl
  | cons a as ih =>
    cases h : step s a with
    | none => simp [exec, h]
    | some t => simp [exec, h, ih]

/-- A finite run: the states it passes, indexed by time, and the action
taken at each time below its length. -/
structure Run (step : Step σ α) where
  length : Nat
  state : Nat → σ
  act : Nat → α
  next : ∀ i < length, step (state i) (act i) = some (state (i + 1))

namespace Run

variable {step : Step σ α}

/-- Every step of the run is taken in a state that meets the condition. -/
def Meets (r : Run step) (ok : σ → α → Prop) : Prop :=
  ∀ i < r.length, ok (r.state i) (r.act i)

instance (r : Run step) (ok : σ → α → Prop) [∀ s a, Decidable (ok s a)] : Decidable (r.Meets ok) :=
  inferInstanceAs (Decidable (∀ i < r.length, ok (r.state i) (r.act i)))

def acts (r : Run step) (i : Nat) : List α := (List.range i).map r.act

theorem acts_succ (r : Run step) (i : Nat) : r.acts (i + 1) = r.acts i ++ [r.act i] := by
  simp [acts, List.range_succ]

theorem meets_true (r : Run step) : r.Meets (fun _ _ => True) := fun _ _ => trivial

/-- The invariant rule: what the first state satisfies and every step taken
under the condition keeps holds all along the run. -/
theorem invariant {ok : σ → α → Prop} {I : σ → Prop} (r : Run step) (hr : r.Meets ok)
    (h0 : I (r.state 0)) (hstep : ∀ s a t, I s → ok s a → step s a = some t → I t) :
    ∀ i, i ≤ r.length → I (r.state i) := by
  intro i
  induction i with
  | zero => exact fun _ => h0
  | succ i ih =>
    intro hi
    exact hstep _ _ _ (ih (Nat.le_of_succ_le hi)) (hr i hi) (r.next i hi)

/-- The invariant rule for a property of the actions taken so far together
with the state they lead to. -/
theorem invariant_acts {ok : σ → α → Prop} {I : List α → σ → Prop} (r : Run step)
    (hr : r.Meets ok) (h0 : I [] (r.state 0))
    (hstep : ∀ as s a t, I as s → ok s a → step s a = some t → I (as ++ [a]) t) :
    ∀ i, i ≤ r.length → I (r.acts i) (r.state i) := by
  intro i
  induction i with
  | zero => exact fun _ => h0
  | succ i ih =>
    intro hi
    rw [acts_succ]
    exact hstep _ _ _ _ (ih (Nat.le_of_succ_le hi)) (hr i hi) (r.next i hi)

end Run

/-- The state after the first `i` actions of a schedule. -/
def stateAt (step : Step σ α) (s : σ) (as : List α) (i : Nat) : σ :=
  (exec step s (as.take i)).getD s

theorem stateAt_next (step : Step σ α) (s t : σ) (as : List α) (h : exec step s as = some t)
    (i : Nat) (hi : i < as.length) :
    step (stateAt step s as i) as[i] = some (stateAt step s as (i + 1)) := by
  have ht : as.take (i + 1) = as.take i ++ [as[i]] := by simp
  have hs : as = as.take i ++ as[i] :: as.drop (i + 1) := by simp
  generalize as[i] = a at ht hs ⊢
  rw [hs, exec_append] at h
  unfold stateAt
  rw [ht, exec_append]
  cases hp : exec step s (as.take i) with
  | none => simp [hp] at h
  | some u =>
    rw [hp, Option.bind_some, exec] at h
    cases hq : step u a with
    | none => simp [hq] at h
    | some v => simp [exec, hq]

/-- A schedule that executes gives a run. -/
def Run.ofExec [Inhabited α] (step : Step σ α) (s : σ) (as : List α)
    (h : (exec step s as).isSome = true) : Run step where
  length := as.length
  state := stateAt step s as
  act := fun i => as.getD i default
  next := by
    intro i hi
    have ha : as.getD i default = as[i] := by simp [hi]
    obtain ⟨t, ht⟩ := Option.isSome_iff_exists.mp h
    rw [ha]
    exact stateAt_next step s t as ht i hi

theorem Run.ofExec_start [Inhabited α] {step : Step σ α} {s : σ} {as : List α}
    {h : (exec step s as).isSome = true} : (Run.ofExec step s as h).state 0 = s := rfl

theorem exists_run [Inhabited α] {step : Step σ α} {s t : σ} {as : List α} (h : exec step s as = some t) :
    ∃ r : Run step, r.state 0 = s ∧ r.state r.length = t := by
  refine ⟨Run.ofExec step s as (by rw [h]; rfl), rfl, ?_⟩
  change (exec step s (as.take as.length)).getD s = t
  rw [List.take_length, h, Option.getD_some]

/-- From time `i` on, a run of a schedule takes the actions after the first `i`. -/
theorem Run.ofExec_act_mem [Inhabited α] {step : Step σ α} {s : σ} {as : List α}
    {h : (exec step s as).isSome = true} {i k : Nat} (hik : i ≤ k) (hk : k < as.length) :
    (Run.ofExec step s as h).act k ∈ as.drop i := by
  have ha : as.getD k default = as[k] := by simp [hk]
  change as.getD k default ∈ as.drop i
  rw [ha]
  exact List.mem_drop_iff_getElem.mpr ⟨k - i, by omega, by simp [Nat.add_sub_cancel' hik]⟩

end Xv6Rcu.Transition

import Xv6Rcu.KernelInv

namespace Xv6Rcu.KernelSteps

open Transition Kernel KernelThread KernelInv Function

variable {n h g p q : Nat} {s t : State} {a : Act}

/-- What a step does to one process: nothing but to its `state` and `killed`
fields, a step of its own, a trap, or its creation. -/
inductive Changes (s t : State) (p : Nat) (a : Act) : Prop
  | rest (hcode : (t.proc p).code = (s.proc p).code) (hdepth : (t.proc p).depth = (s.proc p).depth)
      (haff : (t.proc p).affinity = (s.proc p).affinity)
  | exec {h : Nat} {f : Frame} {rest : List Frame} {y : Local} (ha : a = .exec h)
      (hp : (s.hart h).panic = none) (hc : (s.hart h).ctx = .thread p) (hcode : (s.proc p).code = f :: rest)
      (hy : execFrame h p (s.view h p) rest f = some y) (ht : t = s.commit h p y)
  | user {code : List Frame} (hcode : (s.proc p).code = []) (ht : t.proc p = { s.proc p with code := code })
  | timer {h : Nat} (hc : (s.hart h).ctx = .thread p)
      (ht : t.proc p = { s.proc p with code := kernelTimer h ++ (s.proc p).code })
  | fork (hnot : ¬ Hosted s p) (hs : (s.proc p).state = .unused) (ht : t.proc p = freshProc)

theorem changes_of_proc (hp : t.proc p = s.proc p) : Changes s t p a := by
  refine .rest ?_ ?_ ?_ <;> rw [hp]

/-- A scheduler changes its own hart, and of the processes at most the state. -/
theorem schedStep_cases {pc : SchedPc} (hc : (s.hart h).ctx = .sched pc) (ht : schedStep h s pc = some t) :
    (∀ g, g ≠ h → t.hart g = s.hart g) ∧ (∀ q, (t.hart h).ctx = .thread q → pc = .swtch q) ∧
      ∀ q, t.proc q = s.proc q ∨ t.proc q = { s.proc q with state := .running } := by
  have hne : ∀ x g, g ≠ h → update s.hart h x g = s.hart g := fun x g hg =>
    update_of_ne hg _ _
  have hno : ∀ {x : Hart} {pc' : SchedPc}, x.ctx = .sched pc' →
      ∀ q, (update s.hart h x h).ctx = .thread q → pc = .swtch q := by
    intro x pc' hx q hq
    rw [update_self, hx] at hq
    contradiction
  have hsame : ∀ q, s.proc q = s.proc q ∨ s.proc q = { s.proc q with state := .running } :=
    fun _ => .inl rfl
  cases pc with
  | spin i =>
    simp only [schedStep] at ht
    split at ht
    · cases ht
      exact ⟨hne _, hno rfl, hsame⟩
    · split at ht
      · cases ht
        exact ⟨hne _, hno hc, hsame⟩
      · contradiction
  | setRunning i =>
    cases ht
    refine ⟨hne _, hno rfl, fun q => ?_⟩
    by_cases hq : q = i
    · subst hq
      exact .inr (update_self _ _ _)
    · exact .inl (update_of_ne hq _ _)
  | swtch i =>
    cases ht
    refine ⟨hne _, fun q hq => ?_, hsame⟩
    change (update s.hart h _ h).ctx = _ at hq
    rw [update_self] at hq
    cases hq
    rfl
  | release i =>
    simp only [schedStep] at ht
    split at ht
    · split at ht
      · cases ht
        exact ⟨hne _, hno hc, hsame⟩
      · cases ht
        exact ⟨hne _, hno rfl, hsame⟩
    · cases ht
      exact ⟨hne _, hno hc, hsame⟩
  | _ =>
    cases ht
    exact ⟨hne _, hno rfl, hsame⟩

section

variable (hi : Inv s) (hs : step n s a = some t)

include hi hs

theorem changes_step (p : Nat) : Changes s t p a := by
  cases step_cases hs with
  | sched hh hp hc ht =>
    rcases (schedStep_cases hc ht).2.2 p with hp | hp
    · exact changes_of_proc hp
    · refine .rest ?_ ?_ ?_ <;> rw [hp]
  | @exec h q f rest y hh hp hc hcode hy =>
    by_cases hpq : p = q
    · subst hpq
      exact .exec rfl hp hc hcode hy rfl
    · exact changes_of_proc (commit_proc_of_ne s h y hpq)
  | @ecall h q body hh hp hc hcode hb | @userTimer h q hh hp hc hsie hcode =>
    by_cases hpq : p = q
    · subst hpq
      exact .user hcode (commit_proc s h p _)
    · exact changes_of_proc (commit_proc_of_ne s h _ hpq)
  | @kernelTimer h q hh hp hc hsie hcode =>
    by_cases hpq : p = q
    · subst hpq
      exact .timer hc (commit_proc s h p _)
    · exact changes_of_proc (commit_proc_of_ne s h _ hpq)
  | @table _ q p' ha hl ht =>
    by_cases hpq : p = q
    · subst hpq
      have hself : (s.setProc p p').proc p = p' := update_self _ _ _
      cases ht with
      | fork hstate =>
        refine .fork ?_ hstate hself
        rintro ⟨g, hg⟩
        have hrun := (hi.runs g p hg).2.resolve_right (fun hl' => absurd (hl.symm.trans hl') nofun)
        exact absurd (hstate.symm.trans hrun) nofun
      | _ => refine .rest ?_ ?_ ?_ <;> rw [hself]
    · exact changes_of_proc (update_of_ne hpq _ _)

theorem ctx_step (hg : (t.hart g).ctx = .thread q) :
    (s.hart g).ctx = .thread q ∨ g < n ∧ (s.hart g).ctx = .sched (.swtch q) := by
  have htrap : ∀ {h p : Nat} {code : List Frame}, ((s.trap h p code).hart g).ctx = (s.hart g).ctx := by
    intro h p code
    by_cases hgh : g = h
    · subst hgh
      rw [State.trap, commit_hart]
      rfl
    · rw [State.trap, commit_hart_of_ne s p _ hgh]
  cases step_cases hs with
  | @sched h pc _ hh hp hc ht =>
    obtain ⟨hhart, hctx, -⟩ := schedStep_cases hc ht
    by_cases hgh : g = h
    · subst hgh
      rw [hctx q hg] at hc
      exact .inr ⟨hh, hc⟩
    · rw [hhart g hgh] at hg
      exact .inl hg
  | @exec h p f rest y hh hp hc hcode hy =>
    by_cases hgh : g = h
    · subst hgh
      rw [commit_hart] at hg
      rcases (execFrame_steps ((hi.runs g p hc).1 hp) hcode hy).2 with ⟨hy, -⟩ | hy
      · exact .inl (hy.symm.trans hg)
      · exact absurd (hy.1.symm.trans hg) nofun
    · rw [commit_hart_of_ne s p y hgh] at hg
      exact .inl hg
  | ecall hh hp hc hcode hb => exact .inl (htrap.symm.trans hg)
  | userTimer hh hp hc hsie hcode => exact .inl (htrap.symm.trans hg)
  | kernelTimer hh hp hc hsie hcode => exact .inl (htrap.symm.trans hg)
  | table ha hl ht => exact .inl hg

theorem pinned_step (hc : (s.hart h).ctx = .thread q)
    (hd : 0 < (t.proc q).depth) : (t.hart h).ctx = .thread q := by
  obtain ⟨g, hg⟩ := (inv_step hi hs).hosted_of_depth hd
  rcases ctx_step hi hs hg with hgs | ⟨-, hgs⟩
  · rw [hi.one h g q hc hgs]
    exact hg
  · exact absurd ⟨h, hc⟩ (hi.sched g _ hgs).2.1

theorem depth_step
    (ha : ∀ h, (s.hart h).ctx = .thread q → a ≠ .exec h) : (t.proc q).depth = (s.proc q).depth := by
  cases changes_step hi hs q with
  | rest hcode hdepth haff => exact hdepth
  | exec ha' hp hc hcode hy ht => exact absurd ha' (ha _ hc)
  | user hcode ht => rw [ht]
  | timer hc ht => rw [ht]
  | fork hnot hstate ht =>
    rw [ht]
    cases hi.parked q hnot with
    | unused _ _ hdepth => exact hdepth.symm
    | stopped _ _ _ _ _ _ _ hdepth _ => exact hdepth.symm

end

theorem step_mono {m : Nat} (hmn : m ≤ n) (hs : step m s a = some t) : step n s a = some t := by
  have hgo : ∀ {h : Nat} {x : Option State}, (if h < m then x else none) = some t →
      (if h < n then x else none) = some t := by
    intro h x hx
    split at hx
    · rename_i hh
      rw [if_pos (lt_of_lt_of_le hh hmn)]
      exact hx
    · contradiction
  cases a with
  | sched h =>
    simp only [step] at hs ⊢
    split at hs
    · rename_i hh
      rw [if_pos ⟨lt_of_lt_of_le hh.1 hmn, hh.2⟩]
      exact hs
    · contradiction
  | exec h => exact hgo hs
  | ecall h body => exact hgo hs
  | timer h => exact hgo hs
  | _ => exact hs

end Xv6Rcu.KernelSteps

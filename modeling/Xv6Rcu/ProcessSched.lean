import Xv6Rcu.ProcessSwitch

namespace Xv6Rcu.ProcessSched

open Transition Process ProcessCode ProcessInv ProcessTable Function

variable {n h g j p : Nat} {s t : State} {a : Act} {x : Slot} {f : Frame} {c rest : List Frame}

section Claims

theorem claim_cases (hI : Inv s) (hp : (s.hart h).proc = some p) :
    (s.hart h).cur = .proc p ∨ (s.hart h).cur = .sched h ∧
      (mark (s.thread (.sched h)).code = some (.swtch p) ∨ mark (s.thread (.sched h)).code = some (.schedClear p)) := by
  cases hc : (s.hart h).cur with
  | proc q =>
    have hq := (hI.hosted h q hc).1
    rw [hp] at hq
    exact .inl (congrArg Tid.proc (Option.some.inj hq).symm)
  | sched m =>
    have hm := hI.cur h m hc
    subst hm
    have hclaim := (hI.sched m hc).1
    rw [hp] at hclaim
    refine .inr ⟨rfl, ?_⟩
    cases hk : mark (s.thread (.sched m)).code with
    | none =>
      rw [hk] at hclaim
      cases hclaim
    | some f =>
      rw [hk] at hclaim
      cases f <;> cases hclaim
      · exact .inl rfl
      · exact .inr rfl

theorem locked_of_mark (hI : Inv s) (hc : (s.hart h).cur = .sched h)
    (hm : mark (s.thread (.sched h)).code = some (.schedProc p) ∨ mark (s.thread (.sched h)).code = some (.swtch p) ∨
      mark (s.thread (.sched h)).code = some (.schedClear p)) : s.lock (.proc p) = some h := by
  refine ((hI.fit h).lock _).mpr ?_
  rw [State.run, hc]
  exact held_of_mark hm

theorem mark_not_hosted (hI : Inv s) (hc : (s.hart h).cur = .sched h)
    (hm : mark (s.thread (.sched h)).code = some (.swtch p) ∨ mark (s.thread (.sched h)).code = some (.schedClear p)) :
    ¬Hosted s p := by
  rcases hm with hm | hm
  · have hg := hI.good (.sched h)
    revert hm hg
    cases (s.thread (.sched h)).code with
    | nil => exact nofun
    | cons f rest =>
      intro hm hg
      cases f <;> cases hm
      exact (hg _ List.mem_cons_self).2
  · exact (hI.sched h hc).2 p hm

theorem proc_unique (hI : Inv s) (hh : (s.hart h).proc = some p) (hg : (s.hart g).proc = some p) : h = g := by
  rcases claim_cases hI hh with hc | ⟨hc, hm⟩ <;> rcases claim_cases hI hg with hc' | ⟨hc', hm'⟩
  · exact hI.single h g p hc hc'
  · exact absurd ⟨h, hc⟩ (mark_not_hosted hI hc' hm')
  · exact absurd ⟨g, hc'⟩ (mark_not_hosted hI hc hm)
  · have hl := locked_of_mark hI hc (.inr hm)
    rw [locked_of_mark hI hc' (.inr hm')] at hl
    exact (Option.some.inj hl).symm

theorem running_iff (hI : Inv s) (hl : s.lock (.proc p) = none) :
    (s.slot p).state = .running ↔ ∃ h, (s.hart h).proc = some p := by
  constructor
  · intro hr
    by_cases hh : Hosted s p
    · obtain ⟨h, hc⟩ := hh
      exact ⟨h, (hI.hosted h p hc).1⟩
    · obtain ⟨g, hc, hm⟩ := hI.claimed p hh hr
      have hlock := locked_of_mark hI hc (hm.imp_right .inl)
      rw [hl] at hlock
      contradiction
  · rintro ⟨h, hp⟩
    rcases claim_cases hI hp with hc | ⟨hc, hm⟩
    · exact hI.hosted_running hc (by rw [hl]; exact nofun)
    · have hlock := locked_of_mark hI hc (.inr hm)
      rw [hl] at hlock
      contradiction

end Claims

section Steps

variable (hI : Inv s) (hS : Stored s (s.hart h).cur f rest p x c) (hcode : (s.run h).code = f :: rest)

include hI hS hcode

theorem stored_own (hc : (s.hart h).cur = .proc p) : (s.slot p).state = .running := by
  rw [(hI.hosted h p hc).2.2, ← hc, ← State.run, hcode]
  exact hS.state_old

theorem stored_not_hosted (hx : x.state ≠ (s.slot p).state) (hr : (s.slot p).state ≠ .running) : ¬Hosted s p :=
  hI.not_hosted_of_lock (((hI.fit h).lock _).mpr (hcode ▸ hS.lock hx)) hr
    (fun hc => hr (stored_own hI hS hcode hc))

/-- A process becomes `RUNNING` only by a scheduler that its affinity admits. -/
theorem stored_selects (hr : (s.slot p).state ≠ .running) (hx : x.state = .running) :
    (s.hart h).cur = .sched h ∧ ((s.slot p).affinity = -1 ∨ (s.slot p).affinity = h) := by
  have hnot := stored_not_hosted hI hS hcode (fun he => hr (he.symm.trans hx)) hr
  have hof := hI.of_run hcode
  cases hS.change with
  | run hy hz hs ha =>
    have hcur := hI.sched_of hs (hof f List.mem_cons_self)
    refine ⟨hcur, ?_⟩
    rcases ha with ha | ha | ⟨m, hm, ha⟩
    · exact absurd ha hnot
    · exact .inl ha
    · rw [hcur] at hm
      exact .inr (Tid.sched.inj hm ▸ ha)
  | same hz => exact absurd (hz.symm.trans hx) hr
  | leave hu => exact absurd (stored_own hI hS hcode hu) hr
  | wake _ hz => exact absurd (hx.symm.trans hz) nofun
  | free _ hz => exact absurd (hx.symm.trans hz) nofun
  | discard _ hz => exact absurd (hx.symm.trans hz) nofun
  | alloc _ hz => exact absurd (hx.symm.trans hz) nofun
  | ready _ hz => exact absurd (hx.symm.trans hz) nofun

theorem stored_reuses (hu : ¬((s.slot p).state = .unused ↔ x.state = .unused)) : ¬Hosted s p := by
  by_cases hy : (s.slot p).state = .unused
  · exact hI.not_hosted (.inr hy)
  · have hx : x.state = .unused := by
      by_contra hx
      exact hu ⟨fun he => absurd he hy, fun he => absurd he hx⟩
    refine stored_not_hosted hI hS hcode (fun he => hy (he.symm.trans hx)) (fun hr => ?_)
    rcases hS.running hr with hx' | ⟨-, hx'⟩
    · exact absurd (hx.symm.trans hx') nofun
    · exact (stateOf_ne c).2 (hx'.symm.trans hx)

end Steps

section Result

def Selects (s t : State) (p : Nat) : Prop := (s.slot p).state ≠ .running ∧ (t.slot p).state = .running

def Reuses (s t : State) (p : Nat) : Prop := ¬((s.slot p).state = .unused ↔ (t.slot p).state = .unused)

theorem step_selects (hI : Inv s) (hstep : step n s a = some t) (hs : Selects s t p) :
    ∃ h, a = .exec h ∧ (s.hart h).cur = .sched h ∧ ((s.slot p).affinity = -1 ∨ (s.slot p).affinity = h) := by
  rcases step_slot hI hstep with he | ⟨f, rest, j, x, c, ha, hcode, -, he, hS⟩
  · exact absurd (he ▸ hs.2) hs.1
  · by_cases hp : p = j
    · subst hp
      have hx : x.state = .running := by
        have ht := hs.2
        rwa [he, update_self] at ht
      exact ⟨a.hart, ha, stored_selects hI hS hcode hs.1 hx⟩
    · have ht := hs.2
      rw [he, update_of_ne hp] at ht
      exact absurd ht hs.1

theorem step_reuses (hI : Inv s) (hstep : step n s a = some t) (hr : Reuses s t p) : ¬Hosted s p := by
  rcases step_slot hI hstep with he | ⟨f, rest, j, x, c, ha, hcode, -, he, hS⟩
  · exact absurd (by rw [he]) hr
  · by_cases hp : p = j
    · subst hp
      rw [Reuses, he, update_self] at hr
      exact stored_reuses hI hS hcode hr
    · exact absurd (by rw [he, update_of_ne hp]) hr

theorem inv_run (r : Run (step n)) (h0 : r.state 0 = boot) (i : Nat) (hi : i ≤ r.length) : Inv (r.state i) :=
  r.invariant r.meets_true (h0 ▸ inv_boot) (fun _ _ _ hI _ hstep => inv_step hI hstep) i hi

/-- The scheduler invariant, on any number of harts: a process is `c->proc` of
at most one of them, its state is `RUNNING` exactly if it is so of one when its
lock is free, its affinity is respected, and its entry is not reused while some
hart is on its kernel stack. -/
theorem scheduler_invariant (n : Nat) (r : Run (step n)) (h0 : r.state 0 = boot) (p : Nat) :
    (∀ i ≤ r.length,
      (∀ h g, ((r.state i).hart h).proc = some p → ((r.state i).hart g).proc = some p → h = g) ∧
      ((r.state i).lock (.proc p) = none →
        (((r.state i).slot p).state = .running ↔ ∃ h, ((r.state i).hart h).proc = some p))) ∧
    ∀ i < r.length,
      (Selects (r.state i) (r.state (i + 1)) p → ∃ h, r.act i = .exec h ∧ ((r.state i).hart h).cur = .sched h ∧
        (((r.state i).slot p).affinity = -1 ∨ ((r.state i).slot p).affinity = h)) ∧
      (Reuses (r.state i) (r.state (i + 1)) p → ∀ h, ((r.state i).hart h).cur ≠ .proc p) := by
  constructor
  · intro i hi
    have hI := inv_run r h0 i hi
    exact ⟨fun h g hh hg => proc_unique hI hh hg, fun hl => running_iff hI hl⟩
  · intro i hi
    have hI := inv_run r h0 i (le_of_lt hi)
    exact ⟨fun hs => step_selects hI (r.next i hi) hs, fun hr h hc => step_reuses hI (r.next i hi) hr ⟨h, hc⟩⟩

def firstSwitch : Run (step 2) := Run.ofExec (step 2) boot (List.replicate 6 (.exec 0)) (by decide +kernel)

theorem scheduler_invariant_firstSwitch : Selects (firstSwitch.state 5) (firstSwitch.state (5 + 1)) initproc ∧
    ∃ h, firstSwitch.act 5 = .exec h ∧ ((firstSwitch.state 5).hart h).cur = .sched h ∧
      (((firstSwitch.state 5).slot initproc).affinity = -1 ∨
        ((firstSwitch.state 5).slot initproc).affinity = h) := by
  have hs : Selects (firstSwitch.state 5) (firstSwitch.state (5 + 1)) initproc := ⟨by decide +kernel, by decide +kernel⟩
  exact ⟨hs, ((scheduler_invariant 2 firstSwitch Run.ofExec_start initproc).2 5 (by decide)).1 hs⟩

def toUser : List Act := List.replicate 11 (Act.exec 0) ++ Act.op 0 .done :: List.replicate 4 (Act.exec 0)

/-- It forks a child in entry 1, which comes to user mode on hart 1. -/
def childToUser : List Act :=
  (Act.ecall 0 .fork :: List.replicate 45 (Act.exec 0)) ++ List.replicate 17 (Act.exec 1) ++
    (Act.op 1 .done :: List.replicate 4 (Act.exec 1))

def childExits : List Act :=
  (Act.ecall 1 (.exit 0) :: List.replicate 12 (Act.exec 1)) ++ (Act.op 1 .done :: List.replicate 2 (Act.exec 1))

end Result

section Panics

variable {i : Instr} {e : Stop}

/-- No panic of `acquire`, `release`, `pop_off` or `sched`. -/
def Orderly (o : Option Stop) : Prop := o = none ∨ o = some .initExiting ∨ o = some (.panic .zombieExit)

theorem decode_stop (hI : Inv s) (hcode : (s.run h).code = f :: rest) (hd : decode s h rest f = some (.stop e)) :
    Orderly (some e) := by
  cases f with
  | leave p k pc =>
    cases pc with
    | sched =>
      have hfit := hcode ▸ hI.fit h
      have hshape := hI.shape_run hcode
      have hcur : (s.hart h).cur = .proc p := (hI.of _ _ (hcode ▸ List.mem_cons_self)).own p rfl
      have hload : load (.leave p k .sched :: rest) = 1 := by
        cases k with
        | sleep ch lk => simp [load, hshape.1.2.1, hshape.1.2.2.1]
        | _ => simp [load, (load_eq_zero.mp hshape.1).1, (load_eq_zero.mp hshape.1).2]
      have hstate : (s.slot p).state ≠ .running := by
        have hst := (hI.hosted h p hcur).2.2
        rw [← hcur, ← State.run, hcode] at hst
        rw [hst]
        cases k <;> rintro ⟨⟩
      have hmine : s.lock (.proc p) = some h := (hfit.lock _).mpr (by cases k <;> exact List.mem_cons_self)
      have hsie : (s.hart h).cpu.sie ≠ true := by
        intro hon
        have := hfit.sie hon
        omega
      rw [decode, decodeLeave, schedOut, if_neg (not_not.mpr hmine), if_neg (not_not.mpr (hfit.noff.trans hload)),
        if_neg hstate, if_neg hsie] at hd
      cases hd
    | resume b =>
      cases k <;> cases hd
      exact .inr (.inr rfl)
    | first => cases k <;> cases hd
    | second => cases k <;> cases hd
    | _ => cases hd
  | _ =>
    simp only [decode] at hd
    repeat' split at hd
    all_goals cases hd
    all_goals exact .inr (.inl rfl)

theorem orderly_step (hI : Inv s) (hs : ∀ g, Orderly (s.hart g).stop) (hstep : step n s a = some t) (g : Nat) :
    Orderly (t.hart g).stop := by
  obtain ⟨i, v, hd, ho, rfl⟩ := step_outcome hI hstep
  change Orderly (v.hart g).stop
  by_cases hg : g = a.hart
  · subst hg
    cases i with
    | stop e =>
      obtain ⟨_, f, rest, -, hcode, hdec⟩ := fetch_loud hd rfl
      cases ho
      simpa [State.fail, State.setHart] using decode_stop hI hcode hdec
    | _ =>
      cases ho
      simpa [State.commit, State.setHart, State.setThread, State.setLock, State.setSlot] using hs a.hart
  · rw [ho.hart_ne hg]
    exact hs g

end Panics

end Xv6Rcu.ProcessSched

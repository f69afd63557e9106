import Xv6Rcu.ProcessSched

namespace Xv6Rcu.ProcessIntr

open Transition Process ProcessCode ProcessInv ProcessTable
open Kernel (Cpu)

variable {n h g j p q : Nat} {s t : State} {u : Tid} {a : Act} {i : Instr} {f : Frame} {c rest : List Frame} {b : Bool}

section Saved

def saved : List Frame → Option Bool
  | .leave _ _ (.resume b) :: _ => some b
  | _ => none

theorem saved_below (hb : AllBelow c) : saved c = none := by
  cases c with
  | nil => rfl
  | cons f rest =>
    have hf := hb f List.mem_cons_self
    cases f with
    | leave p k pc =>
      cases hf
      rfl
    | _ => rfl

/-- The instructions that do not move `intena` between a hart and a stack. -/
def keepsIntena : Instr → Bool
  | .intena _ _ | .toSched _ | .stop _ => false
  | _ => true

theorem decodeLeave_saved {k : Leave} {pc : LeavePc} (hd : decodeLeave s h p k rest pc = some i)
    (hi : keepsIntena i = true) (hc : next i = some c) (hr : AllBelow rest) :
    saved (.leave p k pc :: rest) = none ∧ saved c = none := by
  cases pc with
  | first => cases k <;> cases hd <;> cases hc <;> exact ⟨rfl, rfl⟩
  | second => cases k <;> cases hd <;> cases hc <;> exact ⟨rfl, rfl⟩
  | push => cases hd; cases hc; exact ⟨rfl, rfl⟩
  | pop => cases hd; cases hc; exact ⟨rfl, rfl⟩
  | sched =>
    cases hd
    simp only [schedOut] at hi
    repeat' split at hi
    all_goals contradiction
  | resume b => cases k <;> cases hd <;> contradiction
  | clear => cases hd; cases hc; exact ⟨rfl, rfl⟩
  | release =>
    cases hd
    cases hc
    cases k with
    | sleep ch lk => exact ⟨rfl, rfl⟩
    | _ => exact ⟨rfl, saved_below hr⟩

theorem decode_saved (hd : decode s h rest f = some i) (hi : keepsIntena i = true) (hc : next i = some c)
    (hr : AllBelow rest) : saved (f :: rest) = none ∧ saved c = none := by
  cases f with
  | leave p k pc => exact decodeLeave_saved hd hi hc hr
  | _ =>
    simp only [decode] at hd
    (repeat' split at hd) <;> first | contradiction | cases hd
    all_goals cases hc
    all_goals first | exact ⟨rfl, rfl⟩ | exact ⟨rfl, saved_below hr⟩

theorem fetch_saved (hd : fetch s h a = some i) (hi : keepsIntena i = true) (hc : next i = some c)
    (hs : Shape (s.run h).code) (hsie : (s.hart h).cpu.sie = true → load (s.run h).code = 0)
    (hb : AllBelow (s.run h).code.tail) : saved (s.run h).code = none ∧ saved c = none := by
  cases fetch_cases hd with
  | exec g f rest i hcode hd =>
    rw [hcode] at hb ⊢
    exact decode_saved hd hi hc hb
  | fail g f rest i hcode hd =>
    rw [hcode]
    cases f <;> simp only [decodeFail] at hd <;> (repeat' split at hd) <;> first | contradiction | cases hd
    all_goals cases hc
    all_goals exact ⟨rfl, rfl⟩
  | op g o b ho d rest i hcode hd =>
    rw [hcode] at hb ⊢
    cases o <;> simp only [decodeOp] at hd <;> (repeat' split at hd) <;> first | contradiction | cases hd
    all_goals cases hc
    all_goals first | exact ⟨rfl, rfl⟩ | exact ⟨rfl, saved_below hb⟩
  | trap a q p c hq hcode hproc ht =>
    cases hc
    rw [hcode]
    refine ⟨rfl, ?_⟩
    rcases ht with ⟨_, ca⟩ | _ | ⟨_, timer⟩
    · rfl
    · rfl
    · rfl
  | intr g timer hon =>
    cases hc
    exact ⟨saved_below (allBelow_of_free ⟨hs, hsie hon⟩ hb), rfl⟩

theorem decode_intena (hd : decode s h rest f = some (.intena b c)) :
    saved (f :: rest) = some b ∧ saved c = none := by
  cases f with
  | leave p k pc =>
    cases pc with
    | resume b' => cases k <;> cases hd <;> exact ⟨rfl, rfl⟩
    | first => cases k <;> cases hd
    | second => cases k <;> cases hd
    | sched =>
      have hd := Option.some.inj hd
      simp only [schedOut] at hd
      repeat' split at hd
      all_goals cases hd
    | _ => cases hd
  | _ =>
    simp only [decode] at hd
    repeat' split at hd
    all_goals cases hd

theorem fetch_intena (hd : fetch s h a = some (.intena b c)) : saved (s.run h).code = some b ∧ saved c = none := by
  cases fetch_cases hd with
  | exec g f rest i hcode hd =>
    rw [hcode]
    exact decode_intena hd
  | fail g f rest i hcode hd =>
    cases f <;> simp only [decodeFail] at hd <;> (repeat' split at hd) <;> cases hd
  | op g o b ho d rest i hcode hd =>
    cases o <;> simp only [decodeOp] at hd <;> (repeat' split at hd) <;> cases hd

end Saved

section Invariant

/-- The `push_off` depth of every thread is what its code accounts for, and the
interrupt bit from before is in `intena` of its hart or on its stack. -/
structure Private (s : State) : Prop where
  depth : ∀ u, (s.thread u).depth = load (s.thread u).code
  kept : ∀ q b, (s.thread (.proc q)).was = some b → 0 < (s.thread (.proc q)).depth →
    saved (s.thread (.proc q)).code = some b ∨
      saved (s.thread (.proc q)).code = none ∧ ∃ h, (s.hart h).cur = .proc q ∧ (s.hart h).cpu.intena = b

theorem commit_thread {x : Hart} {y : Thread} : (s.commit h x y).thread (s.hart h).cur = y :=
  Function.update_self ..

theorem commit_hart {x : Hart} {y : Thread} : (s.commit h x y).hart h = x := Function.update_self ..

theorem outcome_depth (ho : Outcome s h i t) (hb : Balanced (s.run h).code i)
    (hd : (s.run h).depth = load (s.run h).code) (hc : next i = some c) :
    (t.thread (s.hart h).cur).depth = load c := by
  cases ho <;> cases hc
  case push =>
    rw [commit_thread]
    change (s.run h).depth + 1 = load c
    rw [hd, hb.2.2]
  case pop =>
    rw [commit_thread]
    change (s.run h).depth - 1 = load c
    have hl := hb.2.2
    omega
  case take => exact (congrArg Thread.depth commit_thread).trans (hd.trans hb.2.2.2.symm)
  case drop =>
    refine (congrArg Thread.depth commit_thread).trans ?_
    change (s.run h).depth - 1 = load c
    have hl := hb.2.2.2
    omega
  case sie => exact (congrArg Thread.depth commit_thread).trans (hd.trans hb.1.2.2.symm)
  all_goals exact (congrArg Thread.depth commit_thread).trans (hd.trans hb.2.2.symm)

/-- A `push_off` at depth zero takes the interrupt bit into `intena`; no other
step but those of `sched` changes `intena`. -/
theorem outcome_intena (ho : Outcome s h i t) (hn : (s.hart h).cpu.noff = (s.run h).depth)
    (hi : keepsIntena i = true) (hc : next i = some c) :
    ((t.hart h).cpu.intena = (s.hart h).cpu.intena ∧ (t.thread (s.hart h).cur).was = (s.run h).was ∧
      (0 < (t.thread (s.hart h).cur).depth → 0 < (s.run h).depth)) ∨
    (t.thread (s.hart h).cur).was = some (t.hart h).cpu.intena := by
  cases ho <;> cases hc
  case push =>
    rw [commit_thread, commit_hart]
    simp only [Thread.goto, Thread.push, Cpu.pushOff, hn]
    by_cases hd : (s.run h).depth = 0
    · simp [hd]
    · simp [hd, Nat.pos_of_ne_zero hd]
  case pop x hp =>
    rw [commit_thread, commit_hart]
    exact .inl ⟨(popped_sie hp).2.2, rfl, fun hd => lt_of_lt_of_le hd (Nat.sub_le _ 1)⟩
  case drop l x hl hp =>
    have hthread := commit_thread (s := s.setLock l none) (h := h) (x := { s.hart h with cpu := x })
      (y := (s.run h).pop.goto c)
    change State.thread _ (s.hart h).cur = _ at hthread
    rw [hthread, commit_hart]
    exact .inl ⟨(popped_sie hp).2.2, rfl, fun hd => lt_of_lt_of_le hd (Nat.sub_le _ 1)⟩
  case intena => contradiction
  case toSched => contradiction
  all_goals
    refine .inl ?_
    simp [State.commit, State.setHart, State.setThread, State.setLock, State.setSlot, Thread.goto, Cpu.setSie]

theorem load_forkret (j : Nat) : load (forkret j) = 1 := (ready_forkret j).load

theorem outcome_stop {e : Stop} (ho : Outcome s h (.stop e) t) : t.thread = s.thread ∧
    ∀ g, (t.hart g).cur = (s.hart g).cur ∧ (t.hart g).cpu = (s.hart g).cpu := by
  cases ho
  refine ⟨rfl, fun g => ?_⟩
  by_cases hg : g = h
  · subst hg
    simp [State.fail, State.setHart]
  · simp [State.fail, State.setHart, hg]

theorem depth_step (hI : Inv s) (hP : Private s) (hd : fetch s h a = some i) (ho : Outcome s h i t) (u : Tid) :
    (t.thread u).depth = load (t.thread u).code := by
  rcases ho.thread_cases u with rfl | ⟨-, j, -, -, he⟩ | ⟨-, he⟩
  · cases hc : next i with
    | some c => rw [ho.code hc, outcome_depth ho (hI.balanced hd) (hP.depth _) hc]
    | none =>
      cases i <;> cases hc
      rw [(outcome_stop ho).1]
      exact hP.depth _
  · rw [he]
    exact (load_forkret j).symm
  · rw [he]
    exact hP.depth u

theorem toProc_sched (hI : Inv s) (hd : fetch s h a = some (.toProc j c)) : (s.hart h).cur = .sched h := by
  obtain ⟨g, f, rest, -, hcode, hdec⟩ := fetch_loud hd rfl
  obtain ⟨rfl, -⟩ := decode_switch hdec
  have hof := hI.of_run hcode
  exact hI.sched_of (f := .swtch j) rfl (hof _ List.mem_cons_self)

theorem kept_self (hI : Inv s) (hP : Private s) (hd : fetch s h a = some i) (ho : Outcome s h i t)
    (hq : (s.hart h).cur = .proc q) (hw : (t.thread (.proc q)).was = some b) (hpos : 0 < (t.thread (.proc q)).depth) :
    saved (t.thread (.proc q)).code = some b ∨
      saved (t.thread (.proc q)).code = none ∧ ∃ g, (t.hart g).cur = .proc q ∧ (t.hart g).cpu.intena = b := by
  have hn : (s.hart h).cpu.noff = (s.run h).depth := (hI.fit h).noff.trans (hP.depth _).symm
  have hold (hw : (s.run h).was = some b) (hpos : 0 < (s.run h).depth) :
      saved (s.run h).code = some b ∨ saved (s.run h).code = none ∧ (s.hart h).cpu.intena = b := by
    rw [State.run, hq] at hw hpos
    rw [State.run, hq]
    rcases hP.kept q b hw hpos with hs | ⟨hs, g, hg, hb⟩
    · exact .inl hs
    · exact .inr ⟨hs, hI.single g h q hg hq ▸ hb⟩
  rw [← hq] at hw hpos ⊢
  by_cases hi : keepsIntena i = true
  · obtain ⟨c, hc⟩ : ∃ c, next i = some c := by
      cases i <;> first | exact ⟨_, rfl⟩ | contradiction
    obtain ⟨hs, hs'⟩ := fetch_saved hd hi hc (hI.shape _) (hI.fit h).sie (hI.below _)
    have hcur : (t.hart h).cur = (s.hart h).cur := by
      rw [ho.cur]
      cases i with
      | toProc j c =>
        have hs := toProc_sched hI hd
        rw [hq] at hs
        contradiction
      | toSched c => contradiction
      | _ => rfl
    rw [ho.code hc]
    refine .inr ⟨hs', h, hcur, ?_⟩
    rcases outcome_intena ho hn hi hc with ⟨he, hwas, hdepth⟩ | hwas
    · rcases hold (hwas.symm.trans hw) (hdepth hpos) with hk | ⟨-, hk⟩
      · rw [hs] at hk
        contradiction
      · rw [he, hk]
    · rw [hwas] at hw
      exact Option.some.inj hw
  · cases i with
    | intena b' c =>
      obtain ⟨hs, hs'⟩ := fetch_intena hd
      rw [ho.code rfl]
      refine .inr ⟨hs', h, ho.cur, ?_⟩
      cases ho
      rw [commit_thread] at hw hpos
      rw [commit_hart]
      rcases hold hw hpos with hk | ⟨hk, -⟩
      · exact Option.some.inj (hs.symm.trans hk)
      · rw [hs] at hk
        contradiction
    | toSched c =>
      obtain ⟨g, f, rest, -, hcode, hdec⟩ := fetch_loud hd rfl
      obtain ⟨p, k, rfl, rfl, -⟩ := decode_toSched hdec
      rw [ho.code rfl]
      cases ho
      rw [commit_thread] at hw hpos
      rcases hold hw hpos with hk | ⟨-, hk⟩
      · rw [hcode] at hk
        contradiction
      · exact .inl (congrArg some hk)
    | stop e =>
      have hst := outcome_stop ho
      rw [hst.1] at hw hpos ⊢
      refine (hold hw hpos).imp_right (fun hk => ⟨hk.1, h, (hst.2 h).1, ?_⟩)
      rw [(hst.2 h).2, hk.2]
    | _ => exact absurd rfl hi

theorem private_step (hI : Inv s) (hP : Private s) (hstep : step n s a = some t) : Private t := by
  obtain ⟨i, v, -, -, hd, ha, rfl⟩ := step_cases hstep
  have ho := hI.outcome hd ha
  have hv : Private v := by
    refine ⟨depth_step hI hP hd ho, fun q b hw hpos => ?_⟩
    rcases ho.thread_cases (.proc q) with he | ⟨-, j, -, -, he⟩ | ⟨hne, he⟩
    · exact kept_self hI hP hd ho he.symm hw hpos
    · rw [he] at hw
      cases hw
    rw [he] at hw hpos ⊢
    rcases hP.kept q b hw hpos with hs | ⟨hs, g, hg, hb⟩
    · exact .inl hs
    · have hgh : g ≠ a.hart := fun hgh => hne (hgh ▸ hg.symm)
      exact .inr ⟨hs, g, by rw [ho.hart_ne hgh, hg], by rw [ho.hart_ne hgh, hb]⟩
  exact ⟨hv.depth, hv.kept⟩

end Invariant

section Result

theorem private_boot : Private boot := by
  refine ⟨fun u => ?_, fun q b hw => ?_⟩
  · cases u with
    | sched m => rfl
    | proc q =>
      by_cases hq : q = initproc
      · subst hq
        exact (load_forkret initproc).symm
      · simp [boot, hq, load]
  · by_cases hq : q = initproc
    · subst hq
      cases hw
    · simp [boot, hq] at hw

theorem private_run (r : Run (step n)) (h0 : r.state 0 = boot) (i : Nat) (hi : i ≤ r.length) :
    Inv (r.state i) ∧ Private (r.state i) :=
  r.invariant (I := fun s => Inv s ∧ Private s) r.meets_true (h0 ▸ ⟨inv_boot, private_boot⟩)
    (fun _ _ _ hI _ hstep => ⟨inv_step hI.1 hstep, private_step hI.1 hI.2 hstep⟩) i hi

theorem sie_off (hI : Inv s) (hP : Private s) (hq : (s.hart h).cur = .proc q)
    (hd : 0 < (s.thread (.proc q)).depth) : (s.hart h).cpu.sie = false := by
  cases hs : (s.hart h).cpu.sie with
  | false => rfl
  | true =>
    have hl := (hI.fit h).sie hs
    rw [State.run, hq, ← hP.depth] at hl
    exact absurd hl (ne_of_gt hd)

theorem popOff_last {x y : Cpu} (hp : x.popOff = .ok y) (hz : y.noff = 0) : y.sie = x.intena := by
  unfold Cpu.popOff at hp
  split at hp
  · contradiction
  split at hp
  · contradiction
  · cases hp
    simp only at hz
    simp [hz]

theorem outcome_pops (ho : Outcome s h i t) (hlt : (t.thread (s.hart h).cur).depth < (s.run h).depth) :
    keepsIntena i = true ∧ (∃ c, next i = some c) ∧ (t.hart h).cur = (s.hart h).cur ∧
      (s.hart h).cpu.popOff = .ok (t.hart h).cpu ∧ (t.thread (s.hart h).cur).was = (s.run h).was := by
  cases ho
  case pop c x hp =>
    rw [commit_hart, commit_thread]
    exact ⟨rfl, ⟨c, rfl⟩, rfl, hp, rfl⟩
  case drop l c x hl hp =>
    have hthread := commit_thread (s := s.setLock l none) (h := h) (x := { s.hart h with cpu := x })
      (y := (s.run h).pop.goto c)
    change State.thread _ (s.hart h).cur = _ at hthread
    rw [hthread, commit_hart]
    exact ⟨rfl, ⟨c, rfl⟩, rfl, hp, rfl⟩
  case push c =>
    rw [commit_thread] at hlt
    exact absurd hlt (Nat.not_lt_of_le (Nat.le_succ _))
  case stop e => exact absurd hlt (lt_irrefl _)
  all_goals
    simp [State.commit, State.setHart, State.setThread, State.setLock, State.setSlot, Thread.goto] at hlt

theorem step_restores (hI : Inv s) (hP : Private s) (hstep : step n s a = some t)
    (hd : 0 < (s.thread (.proc q)).depth) (ht : (t.thread (.proc q)).depth = 0) :
    ∃ h, (t.hart h).cur = .proc q ∧ ∀ b, (t.thread (.proc q)).was = some b → (t.hart h).cpu.sie = b := by
  obtain ⟨i, v, -, -, hf, ha, rfl⟩ := step_cases hstep
  have ho := hI.outcome hf ha
  change (v.thread (.proc q)).depth = 0 at ht
  rcases ho.thread_cases (.proc q) with hq | ⟨-, j, -, -, he⟩ | ⟨-, he⟩
  · rw [hq] at hd ht
    obtain ⟨hi, ⟨c, hc⟩, hcur, hpop, hwas⟩ := outcome_pops ho (by rw [ht]; exact hd)
    have hload : load c = 0 := (ho.code hc ▸ depth_step hI hP hf ho (s.hart a.hart).cur).symm.trans ht
    have hnoff : (v.hart a.hart).cpu.noff = 0 := (ho.fit (hI.fit _) (hI.shape _) (hI.balanced hf) hc).noff.trans hload
    have hsie := popOff_last hpop hnoff
    have hsaved := (fetch_saved hf hi hc (hI.shape _) (hI.fit _).sie (hI.below _)).1
    refine ⟨a.hart, hcur.trans hq.symm, fun b hw => hsie.trans ?_⟩
    change (v.thread (.proc q)).was = some b at hw
    rw [hq, hwas, State.run, ← hq] at hw
    rw [← hq] at hd
    rw [State.run, ← hq] at hsaved
    rcases hP.kept q b hw hd with hs | ⟨-, g, hg, hb⟩
    · rw [hsaved] at hs
      contradiction
    · exact hI.single g a.hart q hg hq.symm ▸ hb
  · rw [he] at ht
    cases ht
  · rw [he] at ht
    exact absurd ht (ne_of_gt hd)

/-- Interrupts are off on the hart of a kernel thread while its own depth of
`push_off` is positive, and when the depth returns to zero, on whatever hart
that is, they are as they were when it left zero. -/
theorem interrupts_private (n : Nat) (r : Run (step n)) (h0 : r.state 0 = boot) (q : Nat) :
    (∀ i ≤ r.length, ∀ h, ((r.state i).hart h).cur = .proc q → 0 < ((r.state i).thread (.proc q)).depth →
      ((r.state i).hart h).cpu.sie = false) ∧
    ∀ i < r.length, 0 < ((r.state i).thread (.proc q)).depth → ((r.state (i + 1)).thread (.proc q)).depth = 0 →
      ∃ h, ((r.state (i + 1)).hart h).cur = .proc q ∧
        ∀ b, ((r.state (i + 1)).thread (.proc q)).was = some b → ((r.state (i + 1)).hart h).cpu.sie = b := by
  constructor
  · intro i hi h hq hd
    obtain ⟨hI, hP⟩ := private_run r h0 i hi
    exact sie_off hI hP hq hd
  · intro i hi hd ht
    obtain ⟨hI, hP⟩ := private_run r h0 i (le_of_lt hi)
    exact step_restores hI hP (r.next i hi) hd ht

/-- The first process yields in the kernel on hart 0 and is resumed on hart 1. -/
def resumedElsewhere : Run (step 2) :=
  Run.ofExec (step 2) boot (List.flatten [List.replicate 11 (.exec 0), [.op 0 .yield], List.replicate 10 (.exec 0),
    List.replicate 10 (.exec 1)]) (by decide +kernel)

theorem interrupts_private_resumedElsewhere :
    0 < ((resumedElsewhere.state 31).thread (.proc initproc)).depth ∧
    ∃ h, ((resumedElsewhere.state (31 + 1)).hart h).cur = .proc initproc ∧
      ∀ b, ((resumedElsewhere.state (31 + 1)).thread (.proc initproc)).was = some b →
        ((resumedElsewhere.state (31 + 1)).hart h).cpu.sie = b := by
  have hd : 0 < ((resumedElsewhere.state 31).thread (.proc initproc)).depth := by decide +kernel
  have ht : ((resumedElsewhere.state (31 + 1)).thread (.proc initproc)).depth = 0 := by decide +kernel
  exact ⟨hd, (interrupts_private 2 resumedElsewhere Run.ofExec_start initproc).2 31 (by decide +kernel) hd ht⟩

end Result

end Xv6Rcu.ProcessIntr

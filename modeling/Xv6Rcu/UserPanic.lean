import Xv6Rcu.KernelSteps

namespace Xv6Rcu.UserPanic

open Transition Kernel KernelThread KernelInv KernelSteps Function

variable {n h q d : Nat} {s t : State} {a : Act} {x y : Local} {f : Frame} {c c₀ rest : List Frame}

def unbalanced : Panic → Bool
  | .popOffInterruptible | .popOff | .schedLocks => true
  | _ => false

/-- A system call that is made with `d` sections open closes none that is not
open, and gives up its hart only when none is. -/
def nested : Nat → List Op → Bool
  | _, [] => true
  | d, .rcuReadLock :: b => nested (d + 1) b
  | d, .rcuReadUnlock :: b => decide (0 < d) && nested (d - 1) b
  | d, .sync _ :: b | d, .yield :: b | d, .sleep _ :: b | d, .exit :: b => decide (d = 0) && nested d b
  | d, _ :: b => nested d b

/-- System calls respect the open sections of their process, and no timer
interrupt and no pending kill finds a process with an open section. -/
def Disciplined (s : State) : Act → Prop
  | .ecall h body => ∀ q, s.running h = some q → nested (s.proc q).depth body = true
  | .timer h => ∀ q, s.running h = some q → (s.proc q).depth = 0
  | .exec h => ∀ q, s.running h = some q → (s.proc q).code.head? = some (.killed .load) →
      (s.proc q).killed = true → (s.proc q).depth = 0
  | _ => True

instance (s : State) (a : Act) : Decidable (Disciplined s a) := by
  unfold Disciplined
  split
  · exact decidable_of_iff (∀ q ∈ s.running _, nested (s.proc q).depth _ = true) Iff.rfl
  · exact decidable_of_iff (∀ q ∈ s.running _, (s.proc q).depth = 0) Iff.rfl
  · exact decidable_of_iff (∀ q ∈ s.running _, (s.proc q).code.head? = some (.killed .load) →
      (s.proc q).killed = true → (s.proc q).depth = 0) Iff.rfl
  · exact isTrue trivial

/-- The code can run from `d` open sections without an unbalanced `noff`. -/
def fits : Nat → List Frame → Bool
  | _, [] => true
  | d, .readLock :: c => fits (d + 1) c
  | d, .readUnlock :: c => decide (0 < d) && fits (d - 1) c
  | d, .leave _ _ :: c | d, .syncCall _ :: c | d, .syncLoop _ _ :: c | d, .killed (.release true) :: c
  | d, .timerCheck _ :: c | d, .trapRet :: c => decide (d = 0) && fits d c
  | d, _ :: c => fits d c

/-- Interrupts are on only with `noff = 0`, but for the way back to user mode
and the window between `intr_on` and the next `myproc`. -/
def Window (x : Local) : Prop :=
  x.cpu.sie = true → x.cpu.noff = 0 ∨ x.proc.code = [] ∨ x.proc.code.head? = some (.myproc false)

structure Calm (x : Local) : Prop where
  panic : ∀ e, x.panic = some e → unbalanced e = false
  fits : fits x.proc.depth x.proc.code = true
  window : Window x

section Steps

section

variable (hx : Calm x)

include hx

theorem Calm.fail {e : Panic} (he : unbalanced e = false) : Calm (x.fail e) := by
  refine ⟨fun e' he' => ?_, hx.fits, hx.window⟩
  cases he'
  exact he

theorem Calm.noff (hc : x.proc.code = f :: rest) (hf : f ≠ .myproc false)
    (hi : x.cpu.sie = true) : x.cpu.noff = 0 := by
  rcases hx.window hi with hz | hz | hz
  · exact hz
  · rw [hc] at hz
    contradiction
  · rw [hc] at hz
    exact absurd (Option.some.inj hz) hf

theorem Calm.push (hc : UserPanic.fits x.proc.depth c = true) : Calm (x.push.goto c) :=
  ⟨hx.panic, hc, fun hi => absurd hi Bool.false_ne_true⟩

theorem Calm.pop {l : LockId → Option Nat} (hf : Fit h q x) (hl : 0 < load x.proc.code)
    (hc : UserPanic.fits x.proc.depth c = true) : Calm ({ x with lock := l }.pop (fun y => y.goto c)) := by
  have hpop := hf.popOff hl
  simp only [Local.pop, hpop]
  refine ⟨hx.panic, hc, fun hi => .inl ?_⟩
  exact of_decide_eq_true (Bool.and_eq_true_iff.mp hi).1

theorem Calm.drop {l : LockId} (hf : Fit h q x) (hl : 0 < load x.proc.code)
    (hc : UserPanic.fits x.proc.depth c = true) : Calm (x.drop h l c) := by
  unfold Local.drop
  split
  · exact hx.pop hf hl hc
  · exact hx.fail rfl

theorem Calm.take {l : LockId} (hcode : x.proc.code = f :: rest) (hf : f ≠ .myproc false)
    (hc : UserPanic.fits x.proc.depth c = true) (hy : x.take h l c = some y) : Calm y := by
  unfold Local.take at hy
  split at hy
  · cases hy
    exact ⟨hx.panic, hc, fun hi => .inl (hx.noff hcode hf hi)⟩
  · split at hy
    · cases hy
      exact hx.fail rfl
    · contradiction

theorem Calm.goto (hcode : x.proc.code = f :: rest) (hf : f ≠ .myproc false)
    (hcpu : y.cpu = x.cpu) (hpanic : y.panic = x.panic)
    (hc : UserPanic.fits y.proc.depth y.proc.code = true) : Calm y := by
  refine ⟨?_, hc, fun hi => .inl ?_⟩
  · rw [hpanic]
    exact hx.panic
  · rw [hcpu] at hi ⊢
    exact hx.noff hcode hf hi

theorem calm_schedOut {k : Leave} (hf : Fit h q x)
    (hcode : x.proc.code = .leave k .sched :: rest) : Calm (schedOut h q x k rest) := by
  have hfits := hx.fits
  have hshape := hf.shape
  have hnoff := hf.noff
  rw [hcode] at hfits hshape hnoff
  have hdepth : x.proc.depth = 0 := of_decide_eq_true (Bool.and_eq_true_iff.mp hfits).1
  have hone : x.cpu.noff = 1 := by
    rw [hnoff, hdepth]
    cases k with
    | sleep lk =>
      have hd : debt rest = 1 := hshape.1
      change 0 + (1 + (debt rest - 1)) = 1
      omega
    | exit => rfl
    | _ =>
      have hd : debt rest = 0 := hshape.1
      change 0 + (1 + debt rest) = 1
      omega
  unfold schedOut
  split
  · exact hx.fail rfl
  rw [if_neg (not_not.mpr hone)]
  split
  · exact hx.fail rfl
  split
  · exact hx.fail rfl
  · exact hx.goto hcode nofun rfl rfl hfits

theorem calm_leave {k : Leave} {pc : LeavePc} (hf : Fit h q x)
    (hcode : x.proc.code = .leave k pc :: rest) (hy : leaveStep h q x k rest pc = some y) : Calm y := by
  have hfits := hx.fits
  rw [hcode] at hfits
  have hl : extra (.leave k pc) ≠ 0 → 0 < load x.proc.code := by
    intro he
    rw [hcode]
    exact Nat.lt_of_lt_of_le (Nat.pos_of_ne_zero he) (Nat.le_add_right _ _)
  cases pc with
  | enter =>
    cases hy
    exact hx.push hfits
  | entered =>
    cases hy
    exact hx.pop hf (hl nofun) hfits
  | acquire =>
    cases hy
    exact hx.push hfits
  | spin => exact hx.take (c := .leave k .first :: rest) hcode nofun hfits hy
  | first =>
    cases k with
    | sleep lk =>
      cases hy
      exact hx.drop hf (hl nofun) hfits
    | _ =>
      cases hy
      exact hx.goto hcode nofun rfl rfl hfits
  | second =>
    cases k with
    | sleep lk =>
      cases hy
      exact hx.goto hcode nofun rfl rfl hfits
    | exit =>
      cases hy
      exact hx.drop hf (hl nofun) hfits
    | _ => contradiction
  | schedEnter =>
    cases hy
    exact hx.push hfits
  | schedEntered =>
    cases hy
    exact hx.pop hf (hl nofun) hfits
  | sched =>
    cases hy
    exact calm_schedOut hx hf hcode
  | resume b =>
    cases k with
    | exit =>
      cases hy
      exact hx.fail rfl
    | _ =>
      cases hy
      refine ⟨hx.panic, hfits, fun hi => .inl (hx.noff hcode nofun hi)⟩
  | release =>
    cases hy
    refine hx.drop hf (hl nofun) ?_
    cases k with
    | sync c i => exact hfits
    | _ => exact (Bool.and_eq_true_iff.mp hfits).2

theorem calm_killed {pc : KilledPc} (hf : Fit h q x)
    (hkill : pc = .load → x.proc.killed = true → x.proc.depth = 0)
    (hcode : x.proc.code = .killed pc :: rest) (hy : killedStep h q x rest pc = some y) : Calm y := by
  have hfits := hx.fits
  rw [hcode] at hfits
  cases pc with
  | acquire =>
    cases hy
    exact hx.push hfits
  | spin => exact hx.take (c := .killed .load :: rest) hcode nofun hfits hy
  | load =>
    cases hy
    refine hx.goto hcode nofun rfl rfl ?_
    change fits x.proc.depth (.killed (.release x.proc.killed) :: rest) = true
    cases hk : x.proc.killed with
    | false => exact hfits
    | true => exact Bool.and_eq_true_iff.mpr ⟨decide_eq_true (hkill rfl hk), hfits⟩
  | release b =>
    cases hy
    refine hx.drop hf ?_ ?_
    · rw [hcode]
      exact Nat.lt_of_lt_of_le Nat.one_pos (Nat.le_add_right _ _)
    · cases b with
      | false => exact hfits
      | true =>
        have hz : x.proc.depth = 0 := of_decide_eq_true (Bool.and_eq_true_iff.mp hfits).1
        rw [hz]
        rfl

end

theorem fits_syncCode (c : SyncCall) (hc : fits 0 rest = true) : fits 0 (c.code ++ rest) = true := by
  cases c <;> exact hc

theorem calm_exec (hx : Calm x) (hf : Fit h q x)
    (hkill : f = .killed .load → x.proc.killed = true → x.proc.depth = 0)
    (hcode : x.proc.code = f :: rest) (hy : execFrame h q x rest f = some y) : Calm y := by
  have hfits := hx.fits
  have hshape := hf.shape
  have hnoff := hf.noff
  rw [hcode] at hfits hshape hnoff
  have hl : ∀ {m : Nat}, load (f :: rest) = m + 1 → 0 < load x.proc.code := by
    intro m hm
    rw [hcode, hm]
    exact Nat.succ_pos m
  cases f with
  | nop =>
    cases hy
    exact hx.goto hcode (by rintro ⟨⟩) rfl rfl hfits
  | myproc b =>
    cases b with
    | false =>
      cases hy
      exact hx.push hfits
    | true =>
      cases hy
      exact hx.pop hf (hl (Nat.add_comm _ _)) hfits
  | lock i b =>
    cases b with
    | false =>
      cases hy
      exact hx.push hfits
    | true => exact hx.take (c := rest) hcode (by rintro ⟨⟩) hfits hy
  | unlock i =>
    cases hy
    exact hx.drop hf (hl (Nat.zero_add _)) hfits
  | readLock =>
    cases hy
    exact ⟨hx.panic, hfits, fun hi => absurd hi Bool.false_ne_true⟩
  | readUnlock =>
    cases hy
    obtain ⟨hd, hfits⟩ := Bool.and_eq_true_iff.mp hfits
    have hd : 0 < x.proc.depth := of_decide_eq_true hd
    have hsie : x.cpu.sie = false := by
      cases hi : x.cpu.sie with
      | false => rfl
      | true =>
        have := hx.noff hcode (by rintro ⟨⟩) hi
        omega
    have hpos : ¬ x.cpu.noff < 1 := by omega
    simp only [Local.pop, Cpu.popOff, hsie, if_neg hpos]
    refine ⟨hx.panic, hfits, fun hi => .inl ?_⟩
    exact of_decide_eq_true (Bool.and_eq_true_iff.mp hi).1
  | syncCall c =>
    cases hy
    obtain ⟨hd, hc⟩ := Bool.and_eq_true_iff.mp hfits
    have hd : x.proc.depth = 0 := of_decide_eq_true hd
    refine hx.goto hcode (by rintro ⟨⟩) rfl rfl ?_
    change fits x.proc.depth (c.code ++ rest) = true
    rw [hd] at hc ⊢
    exact fits_syncCode c hc
  | syncLoop c i =>
    simp only [execFrame] at hy
    split at hy
    · cases hy
      exact hx.goto hcode (by rintro ⟨⟩) rfl rfl hfits
    · cases hy
      exact hx.goto hcode (by rintro ⟨⟩) rfl rfl (Bool.and_eq_true_iff.mp hfits).2
  | syncRet c =>
    cases hy
    exact hx.goto hcode (by rintro ⟨⟩) rfl rfl hfits
  | leave k pc => exact calm_leave hx hf hcode hy
  | killed pc => exact calm_killed hx hf (fun hp => hkill (congrArg Frame.killed hp)) hcode hy
  | timerCheck b =>
    cases b with
    | false =>
      cases hy
      exact hx.push hfits
    | true =>
      cases hy
      refine hx.pop hf (hl (Nat.add_comm _ _)) ?_
      split
      · exact hfits
      · exact (Bool.and_eq_true_iff.mp hfits).2
  | intrOn =>
    cases hy
    exact ⟨hx.panic, hfits, fun _ => .inr (.inr hshape.1.2)⟩
  | intrOff =>
    cases hy
    exact ⟨hx.panic, hfits, fun hi => absurd hi Bool.false_ne_true⟩
  | trapRet =>
    cases hy
    obtain ⟨hd, hfits⟩ := Bool.and_eq_true_iff.mp hfits
    have hd : x.proc.depth = 0 := of_decide_eq_true hd
    have hdebt : debt rest = 0 := hshape.1
    refine ⟨hx.panic, hfits, fun _ => .inl ?_⟩
    change x.cpu.noff = 0
    rw [hnoff, hd]
    change 0 + (0 + debt rest) = 0
    omega
  | userRet =>
    cases hy
    exact ⟨hx.panic, hfits, fun _ => .inr (.inl hshape.1)⟩

end Steps

section Traps

theorem fits_usertrapret (d : Nat) : fits d usertrapret = true := rfl

theorem fits_body {body : List Op} (hb : nested d body = true) (hc : ∀ d, fits d c = true) :
    fits d (body.flatMap Op.code ++ c) = true := by
  induction body generalizing d with
  | nil => exact hc d
  | cons op body ih =>
    rw [List.flatMap_cons, List.append_assoc]
    cases op with
    | nop => exact ih hb
    | acquire i => exact ih hb
    | release i => exact ih hb
    | rcuReadLock => exact ih hb
    | _ =>
      obtain ⟨hd, hb⟩ := Bool.and_eq_true_iff.mp hb
      exact Bool.and_eq_true_iff.mpr ⟨hd, ih hb⟩

theorem fits_syscallTrap {body : List Op} (hb : nested d body = true) : fits d (syscallTrap body) = true :=
  fits_body (c := .killed .acquire :: usertrapret) hb fits_usertrapret

theorem fits_userTimer (h : Nat) : fits 0 (userTimer h) = true := by
  unfold userTimer devintr
  split <;> rfl

theorem fits_kernelTimer (h : Nat) (hc : fits 0 c = true) : fits 0 (kernelTimer h ++ c) = true := by
  unfold kernelTimer devintr
  split <;> exact hc

end Traps

structure Safe (s : State) : Prop where
  panic : ∀ h e, (s.hart h).panic = some e → unbalanced e = false
  fits : ∀ q, fits (s.proc q).depth (s.proc q).code = true
  window : ∀ h q, (s.hart h).ctx = .thread q → Window (s.view h q)

theorem safe_boot : Safe boot := ⟨nofun, fun _ => rfl, nofun⟩

theorem Safe.calm (hs : Safe s) (hc : (s.hart h).ctx = .thread q) : Calm (s.view h q) :=
  ⟨hs.panic h, hs.fits q, hs.window h q hc⟩

theorem Window.frame (hw : Window x) (hcpu : y.cpu = x.cpu) (hcode : y.proc.code = x.proc.code) :
    Window y := by
  unfold Window
  rw [hcpu, hcode]
  exact hw

theorem Safe.commit (hs : Safe s) (hi : Inv s) (hc : (s.hart h).ctx = .thread q)
    (hstep : Steps h q (s.view h q) y) (hy : Calm y) : Safe (s.commit h q y) where
  panic := by
    intro g e he
    by_cases hg : g = h
    · subst hg
      rw [commit_hart] at he
      exact hy.panic e he
    · rw [commit_hart_of_ne s q y hg] at he
      exact hs.panic g e he
  fits := by
    intro p
    by_cases hp : p = q
    · subst hp
      rw [commit_proc]
      exact hy.fits
    · rw [commit_proc_of_ne s h y hp]
      exact hs.fits p
  window := by
    intro g p hg
    by_cases hgh : g = h
    · subst hgh
      rw [commit_hart] at hg
      rcases hstep.2 with ⟨hctx, -⟩ | hleft
      · obtain rfl : q = p := Ctx.thread.inj ((hctx.trans hc).symm.trans hg)
        exact hy.window.frame (congrArg Hart.cpu (commit_hart s g q y))
          (congrArg Proc.code (commit_proc s g q y))
      · exact absurd (hleft.1.symm.trans hg) nofun
    · rw [commit_hart_of_ne s q y hgh] at hg
      have hpq : p ≠ q := by
        rintro rfl
        exact hgh (hi.one g h p hg hc)
      exact (hs.window g p hg).frame (congrArg Hart.cpu (commit_hart_of_ne s q y hgh))
        (congrArg Proc.code (commit_proc_of_ne s h y hpq))

theorem Safe.trap (hs : Safe s) (hi : Inv s) (hc : (s.hart h).ctx = .thread q)
    (hp : (s.hart h).panic = none) (hl : load (s.proc q).code = 0) (hr : Rests c ∧ debt c = 0)
    (hfits : UserPanic.fits (s.proc q).depth c = true) : Safe (s.trap h q c) := by
  refine hs.commit hi hc ((((hi.runs h q hc).1 hp).trap hl hr.1 hr.2).steps (Keeps.refl h _) rfl) ?_
  exact ⟨hs.panic h, hfits, fun hi => absurd hi Bool.false_ne_true⟩

theorem schedStep_panic {pc : SchedPc} {e : Panic} (hp : (s.hart h).panic = none) (hs : Sched s h pc)
    (ht : schedStep h s pc = some t) (he : (t.hart h).panic = some e) : unbalanced e = false := by
  have hno : ∀ {x : Hart}, x.panic = none → (update s.hart h x h).panic = some e →
      unbalanced e = false := by
    intro x hx he
    rw [update_self, hx] at he
    contradiction
  cases pc with
  | spin i =>
    simp only [schedStep] at ht
    split at ht
    · cases ht
      exact hno rfl he
    · split at ht
      · cases ht
        change (update s.hart h _ h).panic = some e at he
        rw [update_self] at he
        cases he
        rfl
      · contradiction
  | swtch i =>
    cases ht
    exact hno (x := { s.hart h with ctx := .thread i }) hp he
  | release i =>
    obtain ⟨hnoff, hsie, hlock⟩ := hs
    simp only [schedStep, if_pos hlock, Cpu.popOff, hsie, hnoff] at ht
    cases ht
    exact hno rfl he
  | _ =>
    cases ht
    exact hno rfl he

theorem Safe.schedStep {pc : SchedPc} (hs : Safe s) (hi : Inv s) (hp : (s.hart h).panic = none)
    (hc : (s.hart h).ctx = .sched pc) (ht : schedStep h s pc = some t) : Safe t := by
  obtain ⟨hhart, hctx, hproc⟩ := schedStep_cases hc ht
  have hsame : ∀ q, (t.proc q).code = (s.proc q).code ∧ (t.proc q).depth = (s.proc q).depth := by
    intro q
    rcases hproc q with hq | hq <;> rw [hq] <;> exact ⟨rfl, rfl⟩
  refine ⟨fun g e he => ?_, fun q => ?_, fun g q hg => ?_⟩
  · by_cases hg : g = h
    · subst hg
      exact schedStep_panic hp (hi.sched g pc hc) ht he
    · rw [hhart g hg] at he
      exact hs.panic g e he
  · rw [(hsame q).1, (hsame q).2]
    exact hs.fits q
  · by_cases hgh : g = h
    · subst hgh
      have hpc := hctx q hg
      subst hpc
      cases ht
      have hsie := (hi.sched g _ hc).1.2.1
      intro hi'
      change (update s.hart g _ g).cpu.sie = true at hi'
      rw [update_self] at hi'
      exact absurd (hsie.symm.trans hi') Bool.false_ne_true
    · rw [hhart g hgh] at hg
      exact (hs.window g q hg).frame (congrArg Hart.cpu (hhart g hgh)) (hsame q).1

theorem Safe.table {p : Proc} (hs : Safe s) (hi : Inv s) (hl : s.lock (.proc q) = none)
    (ht : Tends (s.proc q) p) : Safe (s.setProc q p) where
  panic := hs.panic
  fits := by
    intro i
    by_cases hiq : i = q
    · subst hiq
      simp only [State.setProc, update_self]
      cases ht with
      | fork hstate => rfl
      | _ => exact hs.fits i
    · simp only [State.setProc, update_of_ne hiq]
      exact hs.fits i
  window := by
    intro g i hg
    refine (hs.window g i hg).frame rfl ?_
    by_cases hiq : i = q
    · subst hiq
      simp only [State.view, State.setProc, update_self]
      rw [hi.tends_hosted hg hl ht]
    · simp only [State.view, State.setProc, update_of_ne hiq]

theorem safe_step (hs : Safe s) (hi : Inv s) (hd : Disciplined s a) (hst : step n s a = some t) : Safe t := by
  have hrun : ∀ {h q : Nat}, (s.hart h).panic = none → (s.hart h).ctx = .thread q → s.running h = some q := by
    intro h q hp hc
    simp [State.running, hp, hc]
  cases step_cases hst with
  | sched hh hp hc ht => exact hs.schedStep hi hp hc ht
  | exec hh hp hc hcode hy =>
    have hf := (hi.runs _ _ hc).1 hp
    refine hs.commit hi hc (execFrame_steps hf hcode hy) (calm_exec (hs.calm hc) hf (fun hk => ?_) hcode hy)
    subst hk
    exact hd _ (hrun hp hc) (by rw [hcode]; rfl)
  | ecall hh hp hc hcode hb =>
    exact hs.trap hi hc hp (by rw [hcode]; rfl) (rests_syscallTrap hb)
      (fits_syscallTrap (hd _ (hrun hp hc)))
  | userTimer hh hp hc hsie hcode =>
    refine hs.trap hi hc hp (by rw [hcode]; rfl) (rests_userTimer _) ?_
    rw [hd _ (hrun hp hc)]
    exact fits_userTimer _
  | @kernelTimer h q hh hp hc hsie hcode =>
    have hf := (hi.runs _ _ hc).1 hp
    have hl := hf.sie hsie
    obtain ⟨hr, hdebt⟩ := hf.shape.rests hl
    refine hs.trap hi hc hp hl (rests_kernelTimer _ hr hdebt) ?_
    have hz := hd _ (hrun hp hc)
    have hfits := hs.fits q
    rw [hz] at hfits ⊢
    exact fits_kernelTimer _ hfits
  | table ha hl ht => exact hs.table hi hl ht

/-- Process 0 is scheduled, returns to user mode and makes a system call. -/
def firstCall (body : List Op) : List Act :=
  List.flatten [[.fork 0], List.replicate 7 (.sched 0), List.replicate 5 (.exec 0), [.ecall 0 body]]

def strayUnlock : List Act := List.flatten [firstCall sysRcureadunlock, List.replicate 10 (.exec 0)]

def timerInSection : List Act :=
  List.flatten [firstCall sysRcureadlock, List.replicate 18 (.exec 0), [.timer 0],
    List.replicate 18 (.exec 0)]

def closedInTime : List Act :=
  List.flatten [firstCall sysRcureadlock, List.replicate 18 (.exec 0), [.ecall 0 sysRcureadunlock],
    List.replicate 18 (.exec 0), [.timer 0], List.replicate 18 (.exec 0)]

end Xv6Rcu.UserPanic

import Xv6Rcu.Kernel

namespace Xv6Rcu.KernelThread

open Kernel Function

variable {h q : Nat} {x y : Local} {f : Frame} {c rest : List Frame} {k : Leave}

/-- The calls of `push_off` that the frame under way has made and not yet undone. -/
def extra : Frame → Nat
  | .myproc true | .lock _ true | .timerCheck true => 1
  | .leave _ .enter | .leave _ .acquire => 0
  | .leave _ .schedEntered => 2
  | .leave _ _ => 1
  | .killed .acquire => 0
  | .killed _ => 1
  | _ => 0

/-- The spinlocks other than `p->lock` that are held before a frame, given how
many are held after it. -/
def held : Frame → Nat → Nat
  | .lock _ _, d => d - 1
  | .unlock _, d => d + 1
  | .leave k pc, d =>
    match k, pc with
    | .exit, .enter | .exit, .entered | .exit, .acquire | .exit, .spin | .exit, .first
    | .exit, .second => 1
    | .exit, .schedEnter | .exit, .schedEntered | .exit, .sched | .exit, .resume _ => 0
    | .sleep _, .second | .sleep _, .schedEnter | .sleep _, .schedEntered | .sleep _, .sched
    | .sleep _, .resume _ | .sleep _, .release => d - 1
    | _, _ => d
  | _, d => d

def debt (c : List Frame) : Nat := c.foldr held 0

def need : Frame → List Frame → Prop
  | .lock _ _, c => 0 < debt c
  | .leave (.sleep _) _, c => debt c = 1
  | .leave .exit _, _ | .nop, _ | .myproc _, _ | .unlock _, _ => True
  | .intrOn, c => debt c = 0 ∧ c.head? = some (.myproc false)
  | .userRet, c => c = []
  | _, c => debt c = 0

def Rests : List Frame → Prop
  | [] => True
  | f :: c => extra f = 0 ∧ need f c ∧ Rests c

def Shape : List Frame → Prop
  | [] => True
  | f :: c => need f c ∧ Rests c

/-- The calls of `push_off` to undo before the code is back in user mode. -/
def load : List Frame → Nat
  | [] => 0
  | f :: c => extra f + debt (f :: c)

def holdsOwn : List Frame → Bool
  | .leave _ pc :: _ =>
    match pc with
    | .enter | .entered | .acquire | .spin => false
    | _ => true
  | .killed .load :: _ | .killed (.release _) :: _ => true
  | _ => false

def leaveState : Leave → ProcState
  | .yield | .sync _ _ => .runnable
  | .sleep _ => .sleeping
  | .exit => .zombie

def stateOf : List Frame → ProcState
  | .leave k pc :: _ =>
    match pc with
    | .second => if k = .exit then .zombie else .running
    | .schedEnter | .schedEntered | .sched => leaveState k
    | _ => .running
  | _ => .running

/-- The hart and the process agree with the code that the process runs. -/
structure Fit (h q : Nat) (x : Local) : Prop where
  shape : Shape x.proc.code
  noff : x.cpu.noff = x.proc.depth + load x.proc.code
  sie : x.cpu.sie = true → load x.proc.code = 0
  own : holdsOwn x.proc.code = true → x.lock (.proc q) = some h
  state : x.proc.state = stateOf x.proc.code

def Runs (h q : Nat) (x : Local) : Prop :=
  (x.panic = none → Fit h q x) ∧ (x.proc.state = .running ∨ x.lock (.proc q) = some h)

/-- A process that no hart runs has no section open: it is unused, or it is
stopped in `sched` or at the start of `forkret`. -/
inductive Parked (p : Proc) : Prop
  | unused (hcode : p.code = []) (hstate : p.state = .unused) (hdepth : p.depth = 0)
  | stopped (k : Leave) (pc : LeavePc) (c : List Frame) (hcode : p.code = .leave k pc :: c)
      (hpc : pc = .release ∨ ∃ b, pc = .resume b) (hshape : Shape p.code) (hdebt : debt p.code = 0)
      (hdepth : p.depth = 0) (hlive : k = .exit ∨ p.state ≠ .unused ∧ p.state ≠ .zombie)

def Left (h q : Nat) (x : Local) : Prop :=
  x.ctx = .sched (.release q) ∧ Parked x.proc ∧ x.cpu.noff = 1 ∧ x.cpu.sie = false ∧
    x.lock (.proc q) = some h

def Keeps (h : Nat) (l l' : LockId → Option Nat) : Prop := ∀ i g, g ≠ h → l i = some g → l' i = some g

section Code

theorem Rests.shape (hc : Rests c) : Shape c := by
  cases c with
  | nil => trivial
  | cons f c => exact hc.2

theorem Rests.load (hc : Rests c) : load c = debt c := by
  cases c with
  | nil => rfl
  | cons f c =>
    change extra f + debt (f :: c) = debt (f :: c)
    rw [hc.1, Nat.zero_add]

theorem load_succ {f' : Frame} (he : extra f' = extra f + 1) (hd : held f' (debt c) = held f (debt c)) :
    load (f' :: c) = load (f :: c) + 1 := by
  change extra f' + held f' (debt c) = extra f + held f (debt c) + 1
  rw [he, hd]
  omega

theorem holdsOwn_of_extra (hf : extra f = 0) : holdsOwn (f :: c) = false := by
  cases f with
  | leave k pc => cases pc <;> first | rfl | contradiction
  | killed pc => cases pc <;> first | rfl | contradiction
  | _ => rfl

theorem holdsOwn_of_stateOf (hs : stateOf c ≠ .running) : holdsOwn c = true := by
  unfold stateOf at hs
  split at hs
  · rename_i k pc c
    cases pc <;> first | rfl | contradiction
  · contradiction

theorem Rests.own (hc : Rests c) : holdsOwn c = false := by
  cases c with
  | nil => rfl
  | cons f c => exact holdsOwn_of_extra hc.1

theorem Rests.state (hc : Rests c) : stateOf c = .running := by
  by_contra hs
  have ho := holdsOwn_of_stateOf hs
  rw [hc.own] at ho
  contradiction

end Code

theorem Fit.runs (hf : Fit h q x) : Runs h q x := by
  refine ⟨fun _ => hf, ?_⟩
  by_cases hs : stateOf x.proc.code = .running
  · exact .inl (hf.state.trans hs)
  · exact .inr (hf.own (holdsOwn_of_stateOf hs))

theorem Runs.frame (hr : Runs h q x) (hcpu : y.cpu = x.cpu) (hpanic : y.panic = x.panic)
    (hproc : y.proc = x.proc) (hlock : x.lock (.proc q) = some h → y.lock (.proc q) = some h) :
    Runs h q y := by
  refine ⟨fun hp => ?_, ?_⟩
  · have hf := hr.1 (hpanic.symm.trans hp)
    refine ⟨?_, ?_, ?_, ?_, ?_⟩ <;> rw [hproc]
    · exact hf.shape
    · rw [hcpu]
      exact hf.noff
    · rw [hcpu]
      exact hf.sie
    · exact fun ho => hlock (hf.own ho)
    · exact hf.state
  · rw [hproc]
    exact hr.2.imp_right hlock

theorem Keeps.refl (h : Nat) (l : LockId → Option Nat) : Keeps h l l := fun _ _ _ hi => hi

theorem Keeps.update {l : LockId → Option Nat} {i : LockId} {o : Option Nat}
    (hi : l i = none ∨ l i = some h) : Keeps h l (update l i o) := by
  intro j g hg hj
  rw [update_of_ne]
  · exact hj
  · rintro rfl
    rcases hi with hi | hi
    · rw [hi] at hj
      contradiction
    · rw [hi] at hj
      exact hg (Option.some.inj hj).symm

section Steps

variable {c₀ : List Frame}

theorem Fit.fail (hf : Fit h q x) (e : Panic) : Fit h q (x.fail e) :=
  ⟨hf.shape, hf.noff, hf.sie, hf.own, hf.state⟩

def Steps (h q : Nat) (x y : Local) : Prop :=
  Keeps h x.lock y.lock ∧ (y.ctx = x.ctx ∧ Runs h q y ∨ Left h q y)

theorem Fit.steps (hf : Fit h q y) (hl : Keeps h x.lock y.lock) (hc : y.ctx = x.ctx) : Steps h q x y :=
  ⟨hl, .inl ⟨hc, hf.runs⟩⟩

theorem Fit.push (hf : Fit h q x) (hc : x.proc.code = c₀) (hs : Shape c) (hl : load c = load c₀ + 1)
    (ho : holdsOwn c = holdsOwn c₀) (hst : stateOf c = stateOf c₀) : Steps h q x (x.push.goto c) := by
  subst hc
  refine Fit.steps ⟨hs, ?_, fun hi => absurd hi Bool.false_ne_true,
    fun hi => hf.own (ho.symm.trans hi), hf.state.trans hst.symm⟩ (Keeps.refl h _) rfl
  change x.cpu.noff + 1 = x.proc.depth + load c
  rw [hl, hf.noff, Nat.add_assoc]

theorem popOff_ok {c c' : Cpu} (hc : c.popOff = .ok c') :
    0 < c.noff ∧ c' = ⟨c.noff - 1, c.intena, decide (c.noff - 1 = 0) && c.intena⟩ := by
  unfold Cpu.popOff at hc
  split at hc
  · contradiction
  split at hc
  · contradiction
  · cases hc
    exact ⟨by omega, rfl⟩

theorem Fit.popOff (hf : Fit h q x) (hl : 0 < load x.proc.code) :
    x.cpu.popOff = .ok ⟨x.cpu.noff - 1, x.cpu.intena, decide (x.cpu.noff - 1 = 0) && x.cpu.intena⟩ := by
  have hsie : x.cpu.sie = false := by
    cases hi : x.cpu.sie with
    | false => rfl
    | true => exact absurd (hf.sie hi) (ne_of_gt hl)
  have hnoff : ¬ x.cpu.noff < 1 := by
    have := hf.noff
    omega
  simp [Cpu.popOff, hsie, hnoff]

theorem Fit.popped {l : LockId → Option Nat} (hf : Fit h q x) (hc : x.proc.code = c₀) (hs : Shape c)
    (hl : load c + 1 = load c₀) (hst : stateOf c = stateOf c₀) (hk : Keeps h x.lock l)
    (ho : holdsOwn c = true → l (.proc q) = some h) :
    Steps h q x ({ x with lock := l }.pop (fun y => y.goto c)) := by
  subst hc
  have hnoff := hf.noff
  have hpop := hf.popOff (by omega)
  simp only [Local.pop, hpop]
  refine Fit.steps ⟨hs, ?_, ?_, ho, hf.state.trans hst.symm⟩ hk rfl
  · change x.cpu.noff - 1 = x.proc.depth + load c
    omega
  · intro hi
    have hz : x.cpu.noff - 1 = 0 := of_decide_eq_true (Bool.and_eq_true_iff.mp hi).1
    change load c = 0
    omega

theorem Fit.pop (hf : Fit h q x) (hc : x.proc.code = c₀) (hs : Shape c) (hl : load c + 1 = load c₀)
    (ho : holdsOwn c = true → holdsOwn c₀ = true) (hst : stateOf c = stateOf c₀) :
    Steps h q x (x.pop (fun y => y.goto c)) :=
  hf.popped hc hs hl hst (Keeps.refl h _) (fun hi => hf.own (by rw [hc]; exact ho hi))

theorem Fit.drop {l : LockId} (hf : Fit h q x) (hc : x.proc.code = c₀) (hs : Shape c)
    (hl : load c + 1 = load c₀) (ho : holdsOwn c = true → holdsOwn c₀ = true ∧ l ≠ .proc q)
    (hst : stateOf c = stateOf c₀) : Steps h q x (x.drop h l c) := by
  unfold Local.drop
  split
  · rename_i hx
    refine hf.popped hc hs hl hst (Keeps.update (.inr hx)) ?_
    intro hi
    obtain ⟨hown, hne⟩ := ho hi
    rw [← hc] at hown
    exact (update_of_ne hne.symm _ _).trans (hf.own hown)
  · exact (hf.fail _).steps (Keeps.refl h _) rfl

theorem Fit.take {l : LockId} (hf : Fit h q x) (hc : x.proc.code = c₀) (hs : Shape c)
    (hl : load c = load c₀) (ho : holdsOwn c = true → l = .proc q) (hst : stateOf c = stateOf c₀)
    (hy : x.take h l c = some y) : Steps h q x y := by
  subst hc
  unfold Local.take at hy
  cases hx : x.lock l with
  | none =>
    rw [hx] at hy
    cases hy
    refine Fit.steps ⟨hs, hf.noff.trans (congrArg _ hl.symm), fun hi => hl.trans (hf.sie hi), ?_,
      hf.state.trans hst.symm⟩ (Keeps.update (.inl hx)) rfl
    intro hi
    rw [ho hi]
    exact update_self _ _ _
  | some g =>
    rw [hx] at hy
    by_cases hg : g = h
    · simp only [if_pos hg] at hy
      cases hy
      exact (hf.fail _).steps (Keeps.refl h _) rfl
    · simp only [if_neg hg] at hy
      contradiction

theorem Fit.goto {e : ProcState} (hf : Fit h q x) (hc : x.proc.code = c₀) (hs : Shape c)
    (hl : load c = load c₀) (ho : holdsOwn c = holdsOwn c₀) (hst : stateOf c = e) :
    Steps h q x ((x.setState e).goto c) := by
  subst hc
  exact Fit.steps ⟨hs, hf.noff.trans (congrArg _ hl.symm), fun hi => hl.trans (hf.sie hi),
    fun hi => hf.own (ho.symm.trans hi), hst.symm⟩ (Keeps.refl h _) rfl

theorem rests_after {pc : LeavePc} (hs : Shape (.leave k pc :: rest)) :
    Rests (k.after ++ rest) ∧ debt (k.after ++ rest) = debt (.leave k .release :: rest) := by
  cases k with
  | sync c i => exact ⟨⟨rfl, hs⟩, rfl⟩
  | sleep lk => exact ⟨⟨rfl, Nat.lt_of_lt_of_eq Nat.one_pos hs.1.symm, hs.2⟩, rfl⟩
  | _ => exact ⟨hs.2, rfl⟩

theorem schedOut_steps (hf : Fit h q x) (hc : x.proc.code = .leave k .sched :: rest) :
    Steps h q x (schedOut h q x k rest) := by
  have hfail : ∀ e, Steps h q x (x.fail e) := fun e => (hf.fail e).steps (Keeps.refl h _) rfl
  have hnoff := hf.noff
  have hshape := hf.shape
  have hstate := hf.state
  rw [hc] at hnoff hshape hstate
  change x.cpu.noff = x.proc.depth + (1 + debt (.leave k .sched :: rest)) at hnoff
  unfold schedOut
  split
  · exact hfail _
  split
  · exact hfail _
  split
  · exact hfail _
  split
  · exact hfail _
  rename_i hlock hone _ hsie
  have hlock := not_not.mp hlock
  refine ⟨Keeps.refl h _, .inr ⟨rfl, ?_, not_not.mp hone, Bool.eq_false_iff.mpr hsie, hlock⟩⟩
  have hz : x.proc.depth = 0 ∧ debt (.leave k .sched :: rest) = 0 := by omega
  refine .stopped k (.resume x.cpu.intena) rest rfl (.inr ⟨_, rfl⟩) ?_ ?_ hz.1 ?_
  · cases k <;> exact hshape
  · cases k <;> exact hz.2
  · cases k with
    | exit => exact .inl rfl
    | _ =>
      refine .inr ?_
      change x.proc.state ≠ .unused ∧ x.proc.state ≠ .zombie
      rw [hstate]
      exact ⟨nofun, nofun⟩

theorem leave_steps {pc : LeavePc} (hf : Fit h q x) (hc : x.proc.code = .leave k pc :: rest)
    (hy : leaveStep h q x k rest pc = some y) : Steps h q x y := by
  have hshape := hf.shape
  rw [hc] at hshape
  have hgo : ∀ pc', Shape (.leave k pc' :: rest) := by
    intro pc'
    cases k <;> exact hshape
  cases pc with
  | enter =>
    cases hy
    exact hf.push hc (hgo .entered) (load_succ rfl (by cases k <;> rfl)) rfl rfl
  | entered =>
    cases hy
    exact hf.pop hc (hgo .acquire) (load_succ rfl (by cases k <;> rfl)).symm id rfl
  | acquire =>
    cases hy
    exact hf.push hc (hgo .spin) (load_succ rfl (by cases k <;> rfl)) rfl rfl
  | spin => exact hf.take hc (hgo .first) (by cases k <;> rfl) (fun _ => rfl) rfl hy
  | first =>
    cases k with
    | sleep lk =>
      cases hy
      have hone : debt rest = 1 := hshape.1
      refine hf.drop hc (hgo .second) ?_ (fun _ => ⟨rfl, nofun⟩) rfl
      change 1 + (debt rest - 1) + 1 = 1 + debt rest
      omega
    | _ =>
      cases hy
      exact hf.goto hc (hgo _) rfl rfl rfl
  | second =>
    cases k with
    | sleep lk =>
      cases hy
      exact hf.goto hc (hgo _) rfl rfl rfl
    | exit =>
      cases hy
      exact hf.drop hc (hgo .schedEnter) rfl (fun _ => ⟨rfl, nofun⟩) rfl
    | _ => contradiction
  | schedEnter =>
    cases hy
    exact hf.push hc (hgo .schedEntered) (load_succ rfl (by cases k <;> rfl)) rfl rfl
  | schedEntered =>
    cases hy
    exact hf.pop hc (hgo .sched) (load_succ rfl (by cases k <;> rfl)).symm id rfl
  | sched =>
    cases hy
    exact schedOut_steps hf hc
  | resume b =>
    cases k with
    | exit =>
      cases hy
      exact (hf.fail _).steps (Keeps.refl h _) rfl
    | _ =>
      cases hy
      refine Fit.steps ⟨hgo .release, hf.noff.trans ?_, fun hi => ?_, fun _ => ?_, hf.state.trans ?_⟩
        (Keeps.refl h _) rfl
      · rw [hc]
        rfl
      · have := hf.sie hi
        rw [hc] at this
        exact this
      · exact hf.own (by rw [hc]; rfl)
      · rw [hc]
        rfl
  | release =>
    cases hy
    obtain ⟨hr, hd⟩ := rests_after hshape
    refine hf.drop hc hr.shape ?_ (fun hi => ?_) hr.state
    · rw [hr.load, hd]
      exact Nat.add_comm _ _
    · rw [hr.own] at hi
      contradiction

theorem killed_steps {pc : KilledPc} (hf : Fit h q x) (hc : x.proc.code = .killed pc :: rest)
    (hy : killedStep h q x rest pc = some y) : Steps h q x y := by
  have hshape := hf.shape
  rw [hc] at hshape
  cases pc with
  | acquire =>
    cases hy
    exact hf.push hc hshape (load_succ rfl rfl) rfl rfl
  | spin => exact hf.take (c := .killed .load :: rest) hc hshape rfl (fun _ => rfl) rfl hy
  | load =>
    cases hy
    refine hf.goto (e := x.proc.state) hc hshape rfl rfl ?_
    rw [hf.state, hc]
    rfl
  | release b =>
    cases hy
    have hr : Rests (if b then exitCode else rest) ∧ debt (if b then exitCode else rest) = 0 := by
      cases b with
      | true => simp [exitCode, Rests, extra, need, debt, held]
      | false => exact ⟨hshape.2, hshape.1⟩
    refine hf.drop hc hr.1.shape ?_ (fun hi => ?_) hr.1.state
    · rw [hr.1.load, hr.2]
      change 1 = 1 + debt rest
      rw [hshape.1]
    · rw [hr.1.own] at hi
      contradiction

theorem rests_syncCode (c : SyncCall) (hr : Rests rest) (hd : debt rest = 0) :
    Rests (c.code ++ rest) ∧ debt (c.code ++ rest) = 0 := by
  cases c <;> simp_all [SyncCall.code, SyncCall.tail, Rests, extra, need, debt, held]

theorem rests_myprocCheck (hr : Rests rest) (hd : debt rest = 0) (p : Prop) [Decidable p] :
    Rests (if p then .leave .yield .enter :: rest else rest) ∧
      debt (if p then .leave .yield .enter :: rest else rest) = 0 := by
  split
  · exact ⟨⟨rfl, hd, hr⟩, hd⟩
  · exact ⟨hr, hd⟩

theorem Fit.setSie {b : Bool} (hf : Fit h q x) (hc : x.proc.code = f :: rest) (hr : Rests rest)
    (hl : load (f :: rest) = debt rest) (hst : stateOf (f :: rest) = .running)
    (hb : b = true → debt rest = 0) : Steps h q x ((x.setSie b).goto rest) := by
  have hnoff := hf.noff
  have hstate := hf.state
  rw [hc] at hnoff hstate
  refine Fit.steps ⟨hr.shape, ?_, fun hi => hr.load.trans (hb hi), ?_, ?_⟩ (Keeps.refl h _) rfl
  · exact hnoff.trans (congrArg _ (hl.trans hr.load.symm))
  · intro hi
    have hi : holdsOwn rest = true := hi
    rw [hr.own] at hi
    contradiction
  · exact hstate.trans (hst.trans hr.state.symm)

theorem readLock_steps (hf : Fit h q x) (hc : x.proc.code = .readLock :: rest) :
    Steps h q x ((x.push.setDepth (x.proc.depth + 1)).goto rest) := by
  have hnoff := hf.noff
  have hshape := hf.shape
  have hstate := hf.state
  rw [hc] at hnoff hshape hstate
  obtain ⟨hneed, hr⟩ := hshape
  refine Fit.steps ⟨hr.shape, ?_, fun hi => absurd hi Bool.false_ne_true, ?_, ?_⟩ (Keeps.refl h _) rfl
  · change x.cpu.noff + 1 = x.proc.depth + 1 + load rest
    change x.cpu.noff = x.proc.depth + (0 + debt rest) at hnoff
    rw [hr.load]
    omega
  · intro hi
    have hi : holdsOwn rest = true := hi
    rw [hr.own] at hi
    contradiction
  · exact hstate.trans hr.state.symm

theorem readUnlock_steps (hf : Fit h q x) (hc : x.proc.code = .readUnlock :: rest) :
    Steps h q x (x.pop (fun y => (y.setDepth (x.proc.depth - 1)).goto rest)) := by
  have hnoff := hf.noff
  have hshape := hf.shape
  have hstate := hf.state
  rw [hc] at hnoff hshape hstate
  obtain ⟨hneed, hr⟩ := hshape
  have hneed : debt rest = 0 := hneed
  change x.cpu.noff = x.proc.depth + (0 + debt rest) at hnoff
  unfold Local.pop
  cases hpop : x.cpu.popOff with
  | error e => exact (hf.fail e).steps (Keeps.refl h _) rfl
  | ok cpu =>
    obtain ⟨hpos, rfl⟩ := popOff_ok hpop
    refine Fit.steps ⟨hr.shape, ?_, fun _ => hr.load.trans hneed, ?_, ?_⟩ (Keeps.refl h _) rfl
    · change x.cpu.noff - 1 = x.proc.depth - 1 + load rest
      rw [hr.load]
      omega
    · intro hi
      have hi : holdsOwn rest = true := hi
      rw [hr.own] at hi
      contradiction
    · exact hstate.trans hr.state.symm

theorem execFrame_steps (hf : Fit h q x) (hc : x.proc.code = f :: rest)
    (hy : execFrame h q x rest f = some y) : Steps h q x y := by
  have hshape := hf.shape
  have hstate := hf.state
  rw [hc] at hshape hstate
  obtain ⟨hneed, hr⟩ := hshape
  have hno : ∀ {p : Prop}, holdsOwn rest = true → p := by
    intro p hi
    rw [hr.own] at hi
    contradiction
  cases f with
  | nop =>
    cases hy
    exact hf.goto (e := x.proc.state) hc hr.shape (hr.load.trans (Nat.zero_add _).symm) hr.own
      (hr.state.trans hstate.symm)
  | myproc b =>
    cases b with
    | false =>
      cases hy
      exact hf.push hc ⟨trivial, hr⟩ (load_succ rfl rfl) rfl rfl
    | true =>
      cases hy
      exact hf.pop hc hr.shape (by rw [hr.load]; exact Nat.add_comm _ _) hno hr.state
  | lock i b =>
    cases b with
    | false =>
      cases hy
      exact hf.push hc ⟨hneed, hr⟩ (load_succ rfl rfl) rfl rfl
    | true =>
      refine hf.take hc hr.shape ?_ hno hr.state hy
      have hneed : 0 < debt rest := hneed
      change load rest = 1 + (debt rest - 1)
      rw [hr.load]
      omega
  | unlock i =>
    cases hy
    refine hf.drop hc hr.shape ?_ hno hr.state
    rw [hr.load]
    exact (Nat.zero_add _).symm
  | readLock =>
    cases hy
    exact readLock_steps hf hc
  | readUnlock =>
    cases hy
    exact readUnlock_steps hf hc
  | syncCall c =>
    cases hy
    obtain ⟨hs, hd⟩ := rests_syncCode c hr hneed
    refine hf.goto (e := x.proc.state) hc hs.shape ?_ hs.own (hs.state.trans hstate.symm)
    rw [hs.load, hd]
    exact (congrArg (0 + ·) hneed).symm
  | syncLoop c i =>
    have ha : ∀ a, Fit h q (x.setAffinity a) := fun a => ⟨hf.shape, hf.noff, hf.sie, hf.own, hf.state⟩
    simp only [execFrame] at hy
    split at hy
    · cases hy
      exact (ha i).goto (c := .leave (.sync c i) .enter :: rest) (e := x.proc.state) hc ⟨hneed, hr⟩
        rfl rfl hstate.symm
    · cases hy
      exact (ha (-1)).goto (e := x.proc.state) hc hr.shape (hr.load.trans (Nat.zero_add _).symm) hr.own
        (hr.state.trans hstate.symm)
  | syncRet c =>
    cases hy
    exact hf.goto (e := x.proc.state) hc hr.shape (hr.load.trans (Nat.zero_add _).symm) hr.own
      (hr.state.trans hstate.symm)
  | leave k pc => exact leave_steps hf hc hy
  | killed pc => exact killed_steps hf hc hy
  | timerCheck b =>
    cases b with
    | false =>
      cases hy
      exact hf.push hc ⟨hneed, hr⟩ (load_succ rfl rfl) rfl rfl
    | true =>
      cases hy
      obtain ⟨hs, hd⟩ := rests_myprocCheck hr hneed (x.proc.state = .running)
      refine hf.pop hc hs.shape ?_ (fun hi => ?_) hs.state
      · rw [hs.load, hd]
        exact (congrArg (1 + ·) hneed).symm
      · rw [hs.own] at hi
        contradiction
  | intrOn =>
    cases hy
    exact hf.setSie hc hr (Nat.zero_add _) rfl (fun _ => hneed.1)
  | intrOff =>
    cases hy
    exact hf.setSie hc hr (Nat.zero_add _) rfl (fun hi => absurd hi Bool.false_ne_true)
  | trapRet =>
    cases hy
    exact hf.setSie hc hr (Nat.zero_add _) rfl (fun _ => hneed)
  | userRet =>
    cases hy
    exact hf.setSie hc hr (Nat.zero_add _) rfl (fun _ => by rw [show rest = [] from hneed]; rfl)

end Steps

section Traps

theorem Shape.rests (hs : Shape c) (hl : load c = 0) : Rests c ∧ debt c = 0 := by
  cases c with
  | nil => exact ⟨trivial, rfl⟩
  | cons f c =>
    have hl : extra f + debt (f :: c) = 0 := hl
    exact ⟨⟨by omega, hs⟩, by omega⟩

theorem rests_usertrapret : Rests usertrapret ∧ debt usertrapret = 0 := by
  simp [usertrapret, Rests, extra, need, debt, held]

theorem rests_devintr (h : Nat) (hr : Rests c) (hd : debt c = 0) :
    Rests (devintr h ++ c) ∧ debt (devintr h ++ c) = 0 := by
  unfold devintr
  split
  · simp_all [Rests, extra, need, debt, held]
  · exact ⟨hr, hd⟩

theorem rests_userTimer (h : Nat) : Rests (userTimer h) ∧ debt (userTimer h) = 0 := by
  obtain ⟨hr, hd⟩ := rests_usertrapret
  obtain ⟨hr, hd⟩ := rests_devintr (c := .killed .acquire :: .leave .yield .enter :: usertrapret) h
    ⟨rfl, hd, rfl, hd, hr⟩ hd
  exact ⟨⟨rfl, trivial, hr⟩, hd⟩

theorem rests_kernelTimer (h : Nat) (hr : Rests c) (hd : debt c = 0) :
    Rests (kernelTimer h ++ c) ∧ debt (kernelTimer h ++ c) = 0 := by
  rw [kernelTimer, List.append_assoc]
  exact rests_devintr h ⟨rfl, trivial, rfl, hd, rfl, hd, hr⟩ hd

theorem rests_body {n : Nat} {body : List Op} (hb : balanced n body = true) (hr : Rests c)
    (hd : debt c = 0) : Rests (body.flatMap Op.code ++ c) ∧ debt (body.flatMap Op.code ++ c) = n := by
  induction body generalizing n with
  | nil => exact ⟨hr, hd.trans (of_decide_eq_true hb).symm⟩
  | cons op body ih =>
    rw [List.flatMap_cons, List.append_assoc]
    cases op with
    | nop =>
      obtain ⟨hr, hd⟩ := ih hb
      exact ⟨⟨rfl, trivial, hr⟩, hd⟩
    | acquire i =>
      obtain ⟨hr, hd⟩ := ih hb
      exact ⟨⟨rfl, Nat.lt_of_lt_of_eq (Nat.succ_pos n) hd.symm, hr⟩, congrArg (· - 1) hd⟩
    | release i =>
      obtain ⟨hpos, hb⟩ := Bool.and_eq_true_iff.mp hb
      obtain ⟨hr, hd⟩ := ih hb
      exact ⟨⟨rfl, trivial, hr⟩, (congrArg (· + 1) hd).trans (Nat.sub_add_cancel (of_decide_eq_true hpos))⟩
    | sleep lk =>
      obtain ⟨hone, hb⟩ := Bool.and_eq_true_iff.mp hb
      obtain ⟨hr, hd⟩ := ih hb
      exact ⟨⟨rfl, hd.trans (of_decide_eq_true hone), hr⟩, hd⟩
    | exit =>
      obtain ⟨hz, hb⟩ := Bool.and_eq_true_iff.mp hb
      obtain ⟨hr, hd⟩ := ih hb
      exact ⟨⟨rfl, trivial, rfl, Nat.one_pos, rfl, trivial, hr⟩, (of_decide_eq_true hz).symm⟩
    | _ =>
      obtain ⟨hz, hb⟩ := Bool.and_eq_true_iff.mp hb
      obtain ⟨hr, hd⟩ := ih hb
      exact ⟨⟨rfl, hd.trans (of_decide_eq_true hz), hr⟩, hd⟩

theorem rests_syscallTrap {body : List Op} (hb : balanced 0 body = true) :
    Rests (syscallTrap body) ∧ debt (syscallTrap body) = 0 := by
  obtain ⟨hr, hd⟩ := rests_usertrapret
  obtain ⟨hr, hd⟩ := rests_body (c := .killed .acquire :: usertrapret) hb ⟨rfl, hd, hr⟩ hd
  exact ⟨⟨rfl, trivial, rfl, hd, rfl, ⟨hd, rfl⟩, rfl, trivial, hr⟩, hd⟩

theorem Fit.trap (hf : Fit h q x) (hl : load x.proc.code = 0) (hr : Rests c) (hd : debt c = 0) :
    Fit h q ((x.setSie false).goto c) where
  shape := hr.shape
  noff := hf.noff.trans (congrArg _ (hl.trans (hr.load.trans hd).symm))
  sie := fun hi => absurd hi Bool.false_ne_true
  own := fun hi => absurd (hr.own.symm.trans hi) Bool.false_ne_true
  state := hf.state.trans ((hf.shape.rests hl).1.state.trans hr.state.symm)

theorem parked_freshProc : Parked freshProc := by
  obtain ⟨hr, hd⟩ := rests_usertrapret
  exact .stopped .yield .release usertrapret rfl (.inl rfl) ⟨hd, hr⟩ hd rfl (.inr ⟨nofun, nofun⟩)

theorem Parked.fit (hp : Parked x.proc) (hs : x.proc.state = .running) (hnoff : x.cpu.noff = 1)
    (hsie : x.cpu.sie = false) (hlock : x.lock (.proc q) = some h) : Fit h q x := by
  cases hp with
  | unused hcode hstate hdepth =>
    rw [hs] at hstate
    contradiction
  | stopped k pc c hcode hpc hshape hdebt hdepth hlive =>
    have hext : extra (.leave k pc) = 1 ∧ stateOf (.leave k pc :: c) = .running := by
      rcases hpc with rfl | ⟨b, rfl⟩ <;> exact ⟨rfl, rfl⟩
    refine ⟨hshape, ?_, fun hi => absurd (hsie.symm.trans hi) Bool.false_ne_true, fun _ => hlock, ?_⟩
    · rw [hcode] at hdebt ⊢
      change x.cpu.noff = x.proc.depth + (extra (.leave k pc) + debt (.leave k pc :: c))
      rw [hnoff, hdepth, hext.1, hdebt]
    · rw [hcode, hs, hext.2]

theorem Parked.running {p : Proc} (hp : Parked p) (hs : p.state = .runnable) :
    Parked { p with state := .running } := by
  cases hp with
  | unused hcode hstate hdepth =>
    rw [hs] at hstate
    contradiction
  | stopped k pc c hcode hpc hshape hdebt hdepth hlive =>
    exact .stopped k pc c hcode hpc hshape hdebt hdepth (.inr ⟨nofun, nofun⟩)

end Traps

end Xv6Rcu.KernelThread

import Xv6Rcu.Transition

namespace Xv6Rcu.Kernel

open Transition Function

def NPROC : Nat := 64

inductive ProcState where
  | unused | sleeping | runnable | running | zombie
  deriving DecidableEq

/-- The messages of the panics the modelled code can reach. -/
inductive Panic where
  | popOffInterruptible | popOff | acquire | release
  | schedLock | schedLocks | schedRunning | schedInterruptible | zombieExit
  deriving DecidableEq

inductive LockId where
  | proc (q : Nat)
  | other (i : Nat)
  deriving DecidableEq

abbrev tickslock : Nat := 0

abbrev waitLock : Nat := 1

abbrev prLock : Nat := 2

/-- The part of `struct cpu` that `push_off` and `pop_off` use, with the
interrupt-enable bit of the hart. -/
structure Cpu where
  noff : Nat
  intena : Bool
  sie : Bool
  deriving DecidableEq

namespace Cpu

def pushOff (c : Cpu) : Cpu where
  noff := c.noff + 1
  intena := if c.noff = 0 then c.sie else c.intena
  sie := false

def popOff (c : Cpu) : Except Panic Cpu :=
  if c.sie then .error .popOffInterruptible
  else if c.noff < 1 then .error .popOff
  else .ok { c with noff := c.noff - 1, sie := decide (c.noff - 1 = 0) && c.intena }

def setSie (c : Cpu) (b : Bool) : Cpu := { c with sie := b }

def setIntena (c : Cpu) (b : Bool) : Cpu := { c with intena := b }

end Cpu

/-- The two copies of the grace period: `synchronize_rcu` and `sys_rcusync`. -/
inductive SyncCall where
  | synchronizeRcu | sysRcusync
  deriving DecidableEq

def SyncCall.bound : SyncCall → Nat
  | .synchronizeRcu => 3
  | .sysRcusync => 2

/-- The routines that end in `sched`: `yield`, the `yield` of one round of a
grace period, `sleep` and `exit`. -/
inductive Leave where
  | yield
  | sync (c : SyncCall) (i : Nat)
  | sleep (lk : Nat)
  | exit
  deriving DecidableEq

/-- The places in such a routine: its `myproc`, the acquisition of `p->lock`,
the statements under the lock, `sched` with its own `myproc`, and after the
switch back the restored `intena` and the release. -/
inductive LeavePc where
  | enter | entered | acquire | spin | first | second | schedEnter | schedEntered | sched
  | resume (intena : Bool)
  | release
  deriving DecidableEq

inductive KilledPc where
  | acquire | spin | load
  | release (k : Bool)
  deriving DecidableEq

/-- What a process has still to do in the kernel is a list of frames, innermost
first; only the first one is under way. An empty list is user mode. -/
inductive Frame where
  | nop
  | myproc (inside : Bool)
  | lock (i : Nat) (inside : Bool)
  | unlock (i : Nat)
  | readLock
  | readUnlock
  | syncCall (c : SyncCall)
  | syncLoop (c : SyncCall) (i : Nat)
  | syncRet (c : SyncCall)
  | leave (k : Leave) (pc : LeavePc)
  | killed (pc : KilledPc)
  | timerCheck (inside : Bool)
  | intrOn
  | intrOff
  | trapRet
  | userRet
  deriving DecidableEq

/-- `depth` counts the read-side sections the process has open. -/
structure Proc where
  state : ProcState
  affinity : Int
  killed : Bool
  depth : Nat
  code : List Frame

inductive SchedPc where
  | intrOn
  | acquire (i : Nat)
  | spin (i : Nat)
  | affinity (i : Nat)
  | affinityHere (i : Nat)
  | check (i : Nat)
  | setRunning (i : Nat)
  | swtch (i : Nat)
  | release (i : Nat)
  deriving DecidableEq

/-- What a hart executes: the scheduler or the process it has switched to. -/
inductive Ctx where
  | sched (pc : SchedPc)
  | thread (q : Nat)
  deriving DecidableEq

structure Hart where
  cpu : Cpu
  ctx : Ctx
  panic : Option Panic

/-- `lock l` is the hart in whose name the spinlock is held. -/
structure State where
  hart : Nat → Hart
  proc : Nat → Proc
  lock : LockId → Option Nat

section Code

def SyncCall.tail : SyncCall → List Frame
  | .synchronizeRcu => []
  | .sysRcusync => [.lock prLock false, .nop, .unlock prLock]

def SyncCall.code (c : SyncCall) : List Frame :=
  .myproc false :: .syncLoop c 0 :: (c.tail ++ [Frame.syncRet c])

/-- What follows when a routine has released `p->lock` again. -/
def Leave.after : Leave → List Frame
  | .yield | .exit => []
  | .sync c i => [.syncLoop c (i + 1)]
  | .sleep lk => [.lock lk false]

def exitCode : List Frame := [.myproc false, .lock waitLock false, .leave .exit .acquire]

def usertrapret : List Frame := [.myproc false, .intrOff, .userRet]

/-- A timer interrupt on hart 0 also advances the clock. -/
def devintr (h : Nat) : List Frame :=
  if h = 0 then [.lock tickslock false, .nop, .unlock tickslock] else []

def userTimer (h : Nat) : List Frame :=
  .myproc false :: (devintr h ++ Frame.killed .acquire :: .leave .yield .enter :: usertrapret)

def kernelTimer (h : Nat) : List Frame :=
  devintr h ++ [Frame.myproc false, .timerCheck false, .trapRet]

def forkret : List Frame := .leave .yield .release :: usertrapret

/-- The body of a system call, as far as it concerns locks, sections and the
scheduler. -/
inductive Op where
  | nop
  | acquire (i : Nat)
  | release (i : Nat)
  | rcuReadLock
  | rcuReadUnlock
  | sync (c : SyncCall)
  | yield
  | sleep (lk : Nat)
  | exit
  deriving DecidableEq

def Op.code : Op → List Frame
  | .nop => [.nop]
  | .acquire i => [.lock i false]
  | .release i => [.unlock i]
  | .rcuReadLock => [.readLock]
  | .rcuReadUnlock => [.readUnlock]
  | .sync c => [.syncCall c]
  | .yield => [.leave .yield .enter]
  | .sleep lk => [.leave (.sleep lk) .enter]
  | .exit => exitCode

/-- The kernel's own code balances its spinlocks: it holds none when it opens
or closes a section, waits for a grace period, yields or exits, and exactly
one when it sleeps. -/
def balanced : Nat → List Op → Bool
  | k, [] => k = 0
  | k, .nop :: b => balanced k b
  | k, .acquire _ :: b => balanced (k + 1) b
  | k, .release _ :: b => decide (0 < k) && balanced (k - 1) b
  | k, .sleep _ :: b => decide (k = 1) && balanced k b
  | k, _ :: b => decide (k = 0) && balanced k b

def sysRcureadlock : List Op := [.rcuReadLock]

def sysRcureadunlock : List Op := [.rcuReadUnlock]

def sysRcusync : List Op := [.sync .sysRcusync]

/-- `usertrap` for a system call: `syscall` runs with interrupts on. -/
def syscallTrap (body : List Op) : List Frame :=
  .myproc false :: .killed .acquire :: .intrOn :: .myproc false ::
    (body.flatMap Op.code ++ Frame.killed .acquire :: usertrapret)

end Code

/-- What a step of a process can change: its hart, itself and the locks. -/
structure Local where
  cpu : Cpu
  ctx : Ctx
  panic : Option Panic
  proc : Proc
  lock : LockId → Option Nat

namespace Local

def goto (x : Local) (code : List Frame) : Local := { x with proc := { x.proc with code := code } }

def fail (x : Local) (e : Panic) : Local := { x with panic := some e }

def push (x : Local) : Local := { x with cpu := x.cpu.pushOff }

/-- `pop_off`, and then what follows unless it panics. -/
def pop (x : Local) (next : Local → Local) : Local :=
  match x.cpu.popOff with
  | .error e => x.fail e
  | .ok c => next { x with cpu := c }

/-- The spin of `acquire`: not enabled while another hart has the lock. -/
def take (x : Local) (h : Nat) (l : LockId) (code : List Frame) : Option Local :=
  match x.lock l with
  | none => some ({ x with lock := update x.lock l (some h) }.goto code)
  | some g => if g = h then some (x.fail .acquire) else none

def drop (x : Local) (h : Nat) (l : LockId) (code : List Frame) : Local :=
  if x.lock l = some h then
    { x with lock := update x.lock l none }.pop (fun y => y.goto code)
  else x.fail .release

def setSie (x : Local) (b : Bool) : Local := { x with cpu := x.cpu.setSie b }

def setState (x : Local) (st : ProcState) : Local := { x with proc := { x.proc with state := st } }

def setAffinity (x : Local) (a : Int) : Local := { x with proc := { x.proc with affinity := a } }

def setDepth (x : Local) (d : Nat) : Local := { x with proc := { x.proc with depth := d } }

end Local

/-- `sched`: the four checks, then the switch to the scheduler of the hart. -/
def schedOut (h q : Nat) (x : Local) (k : Leave) (rest : List Frame) : Local :=
  if x.lock (.proc q) ≠ some h then x.fail .schedLock
  else if x.cpu.noff ≠ 1 then x.fail .schedLocks
  else if x.proc.state = .running then x.fail .schedRunning
  else if x.cpu.sie then x.fail .schedInterruptible
  else { x with ctx := .sched (.release q) }.goto (.leave k (.resume x.cpu.intena) :: rest)

def leaveStep (h q : Nat) (x : Local) (k : Leave) (rest : List Frame) : LeavePc → Option Local
  | .enter => some (x.push.goto (.leave k .entered :: rest))
  | .entered => some (x.pop (fun y => y.goto (.leave k .acquire :: rest)))
  | .acquire => some (x.push.goto (.leave k .spin :: rest))
  | .spin => x.take h (.proc q) (.leave k .first :: rest)
  | .first =>
    match k with
    | .sleep lk => some (x.drop h (.other lk) (.leave k .second :: rest))
    | .exit => some ((x.setState .zombie).goto (.leave k .second :: rest))
    | _ => some ((x.setState .runnable).goto (.leave k .schedEnter :: rest))
  | .second =>
    match k with
    | .sleep _ => some ((x.setState .sleeping).goto (.leave k .schedEnter :: rest))
    | .exit => some (x.drop h (.other waitLock) (.leave k .schedEnter :: rest))
    | _ => none
  | .schedEnter => some (x.push.goto (.leave k .schedEntered :: rest))
  | .schedEntered => some (x.pop (fun y => y.goto (.leave k .sched :: rest)))
  | .sched => some (schedOut h q x k rest)
  | .resume b =>
    match k with
    | .exit => some (x.fail .zombieExit)
    | _ => some ({ x with cpu := x.cpu.setIntena b }.goto (.leave k .release :: rest))
  | .release => some (x.drop h (.proc q) (k.after ++ rest))

/-- `if(killed(p)) exit(-1)`. -/
def killedStep (h q : Nat) (x : Local) (rest : List Frame) : KilledPc → Option Local
  | .acquire => some (x.push.goto (.killed .spin :: rest))
  | .spin => x.take h (.proc q) (.killed .load :: rest)
  | .load => some (x.goto (.killed (.release x.proc.killed) :: rest))
  | .release k => some (x.drop h (.proc q) (if k then exitCode else rest))

/-- A step of process `q` on hart `h`. -/
def execFrame (h q : Nat) (x : Local) (rest : List Frame) : Frame → Option Local
  | .nop => some (x.goto rest)
  | .myproc false => some (x.push.goto (.myproc true :: rest))
  | .myproc true => some (x.pop (fun y => y.goto rest))
  | .lock i false => some (x.push.goto (.lock i true :: rest))
  | .lock i true => x.take h (.other i) rest
  | .unlock i => some (x.drop h (.other i) rest)
  | .readLock => some ((x.push.setDepth (x.proc.depth + 1)).goto rest)
  | .readUnlock => some (x.pop (fun y => (y.setDepth (x.proc.depth - 1)).goto rest))
  | .syncCall c => some (x.goto (c.code ++ rest))
  | .syncLoop c i =>
    if i < c.bound then some ((x.setAffinity i).goto (.leave (.sync c i) .enter :: rest))
    else some ((x.setAffinity (-1)).goto rest)
  | .syncRet _ => some (x.goto rest)
  | .leave k pc => leaveStep h q x k rest pc
  | .killed pc => killedStep h q x rest pc
  | .timerCheck false => some (x.push.goto (.timerCheck true :: rest))
  | .timerCheck true =>
    some (x.pop (fun y => y.goto (if x.proc.state = .running then .leave .yield .enter :: rest else rest)))
  | .intrOn => some ((x.setSie true).goto rest)
  | .intrOff => some ((x.setSie false).goto rest)
  | .trapRet => some ((x.setSie true).goto rest)
  | .userRet => some ((x.setSie true).goto rest)

namespace State

def setHart (s : State) (h : Nat) (x : Hart) : State := { s with hart := update s.hart h x }

def setProc (s : State) (q : Nat) (p : Proc) : State := { s with proc := update s.proc q p }

def setLock (s : State) (l : LockId) (o : Option Nat) : State :=
  { s with lock := update s.lock l o }

def view (s : State) (h q : Nat) : Local :=
  ⟨(s.hart h).cpu, (s.hart h).ctx, (s.hart h).panic, s.proc q, s.lock⟩

def commit (s : State) (h q : Nat) (x : Local) : State where
  hart := update s.hart h ⟨x.cpu, x.ctx, x.panic⟩
  proc := update s.proc q x.proc
  lock := x.lock

/-- The scheduler of hart `h` goes on at `pc`. -/
def sched (s : State) (h : Nat) (c : Cpu) (pc : SchedPc) : State := s.setHart h ⟨c, .sched pc, none⟩

def failSched (s : State) (h : Nat) (e : Panic) : State :=
  s.setHart h { s.hart h with panic := some e }

end State

def nextSlot (i : Nat) : SchedPc := if i + 1 < NPROC then .acquire (i + 1) else .intrOn

/-- A step of `scheduler` on hart `h`. -/
def schedStep (h : Nat) (s : State) : SchedPc → Option State
  | .intrOn => some (s.sched h ((s.hart h).cpu.setSie true) (.acquire 0))
  | .acquire i => some (s.sched h (s.hart h).cpu.pushOff (.spin i))
  | .spin i =>
    match s.lock (.proc i) with
    | none => some ((s.setLock (.proc i) (some h)).sched h (s.hart h).cpu (.affinity i))
    | some g => if g = h then some (s.failSched h .acquire) else none
  | .affinity i =>
    some (s.sched h (s.hart h).cpu (if (s.proc i).affinity ≠ -1 then .affinityHere i else .check i))
  | .affinityHere i =>
    some (s.sched h (s.hart h).cpu (if (s.proc i).affinity ≠ h then .release i else .check i))
  | .check i =>
    some (s.sched h (s.hart h).cpu (if (s.proc i).state = .runnable then .setRunning i else .release i))
  | .setRunning i =>
    some ((s.setProc i { s.proc i with state := .running }).sched h (s.hart h).cpu (.swtch i))
  | .swtch i => some (s.setHart h { s.hart h with ctx := .thread i })
  | .release i =>
    if s.lock (.proc i) = some h then
      match (s.hart h).cpu.popOff with
      | .error e => some ((s.setLock (.proc i) none).failSched h e)
      | .ok c => some ((s.setLock (.proc i) none).sched h c (nextSlot i))
    else some (s.failSched h .release)

/-- Besides the steps of the harts: a timer interrupt, a system call from user
mode, and what other processes do to the table under `p->lock`. -/
inductive Act where
  | sched (h : Nat)
  | exec (h : Nat)
  | ecall (h : Nat) (body : List Op)
  | timer (h : Nat)
  | wakeup (q : Nat)
  | kill (q : Nat)
  | fork (q : Nat)
  | reap (q : Nat)
  deriving DecidableEq

instance : Inhabited Act := ⟨.sched 0⟩

def freshProc : Proc := ⟨.runnable, -1, false, 0, forkret⟩

/-- The process that runs on a hart that has not panicked. -/
def State.running (s : State) (h : Nat) : Option Nat :=
  match (s.hart h).panic, (s.hart h).ctx with
  | none, .thread q => some q
  | _, _ => none

/-- A trap: interrupts go off and the handler runs first. -/
def State.trap (s : State) (h q : Nat) (code : List Frame) : State :=
  s.commit h q (((s.view h q).setSie false).goto code)

/-- A step of the machine with `n` harts. -/
def step (n : Nat) : Step State Act
  | s, .sched h =>
    if h < n ∧ (s.hart h).panic = none then
      match (s.hart h).ctx with
      | .sched pc => schedStep h s pc
      | .thread _ => none
    else none
  | s, .exec h =>
    if h < n then
      (s.running h).bind (fun q =>
        match (s.proc q).code with
        | [] => none
        | f :: rest => (execFrame h q (s.view h q) rest f).map (s.commit h q))
    else none
  | s, .ecall h body =>
    if h < n then
      (s.running h).bind (fun q =>
        if (s.proc q).code = [] ∧ balanced 0 body = true then some (s.trap h q (syscallTrap body))
        else none)
    else none
  | s, .timer h =>
    if h < n then
      (s.running h).bind (fun q =>
        if (s.hart h).cpu.sie = true then
          some (s.trap h q (if (s.proc q).code = [] then userTimer h else kernelTimer h ++ (s.proc q).code))
        else none)
    else none
  | s, .wakeup q =>
    if s.lock (.proc q) = none ∧ (s.proc q).state = .sleeping then
      some (s.setProc q { s.proc q with state := .runnable })
    else none
  | s, .kill q =>
    if s.lock (.proc q) = none then
      some (s.setProc q { s.proc q with
        killed := true
        state := if (s.proc q).state = .sleeping then .runnable else (s.proc q).state })
    else none
  | s, .fork q =>
    if s.lock (.proc q) = none ∧ (s.proc q).state = .unused then some (s.setProc q freshProc) else none
  | s, .reap q =>
    if s.lock (.proc q) = none ∧ (s.proc q).state = .zombie then
      some (s.setProc q { s.proc q with state := .unused })
    else none

/-- Every hart enters `scheduler` with an empty process table. -/
def boot : State where
  hart := fun _ => ⟨⟨0, false, false⟩, .sched .intrOn, none⟩
  proc := fun _ => ⟨.unused, -1, false, 0, []⟩
  lock := fun _ => none

end Xv6Rcu.Kernel

import Xv6Rcu.Kernel

namespace Xv6Rcu.Process

open Transition Function
open Kernel (Cpu NPROC Panic SyncCall)

inductive ProcState where
  | unused | used | sleeping | runnable | running | zombie
  deriving DecidableEq

/-- `wait_lock`, `pid_lock`, the lock of a process, and all other spinlocks. -/
inductive LockId where
  | wait
  | pid
  | proc (i : Nat)
  | other (i : Nat)
  deriving DecidableEq

/-- `wait` sleeps on the address of its own process. -/
inductive Chan where
  | proc (i : Nat)
  | other (c : Nat)
  deriving DecidableEq

structure Slot where
  state : ProcState
  chan : Option Chan
  killed : Bool
  xstate : Int
  pid : Int
  parent : Option Nat
  affinity : Int
  deriving DecidableEq

/-- The routines that end in `sched`. -/
inductive Leave where
  | yield
  | sleep (chan : Chan) (lk : LockId)
  | exit (status : Int)
  deriving DecidableEq

/-- The places in such a routine once it holds `p->lock`: its two statements,
`sched` with its `myproc`, and after the switch back the restored `intena`,
the cleared `p->chan` of `sleep` and the release. -/
inductive LeavePc where
  | first | second | push | pop | sched
  | resume (intena : Bool)
  | clear | release
  deriving DecidableEq

inductive Maker where
  | fork | threadCreate
  deriving DecidableEq

inductive Waiter where
  | wait (addr : Nat)
  | threadJoin
  deriving DecidableEq

inductive Ret where
  | failed
  | forked (pid : Int)
  | waited (pid status : Int)
  | killed (pid : Int)
  deriving DecidableEq

/-- What a kernel thread has still to do is a list of frames, innermost first.
The process whose thread it is (`p` in the source) and the local variables are
kept in the frames; an empty list is user mode. `body` is the code of other
kernel routines, of which only locks, sections and calls into `proc.c` matter. -/
inductive Frame where
  | pushOff | popOff
  | acquire (l : LockId)
  | spin (l : LockId)
  | release (l : LockId)
  | intrOn | intrOff | trapRet | userRet
  | body (blocks : Bool) (holds : List Nat) (sections : Nat)
  | leave (p : Nat) (k : Leave) (pc : LeavePc)
  | killedLoad (p : Nat)
  | setKilled (p : Nat)
  | timerCheck | timerState
  | syncLoop (p : Nat) (c : SyncCall) (i : Nat)
  | wakeup (c : Option Chan) (i : Nat)
  | wakeSelf (c : Option Chan) (i : Nat)
  | wakeTest (c : Option Chan) (i : Nat)
  | exitStart (p : Nat) (status : Int)
  | reparent (p : Nat) (status : Int) (i : Nat)
  | waitScan (p : Nat) (k : Waiter) (i : Nat) (havekids : Bool)
  | waitTest (p : Nat) (k : Waiter) (i : Nat)
  | waitCopy (p : Nat) (k : Waiter) (i : Nat) (pid : Int)
  | waitFree (p i : Nat) (pid status : Int)
  | waitKilled (p : Nat) (k : Waiter)
  | allocScan (p : Nat) (k : Maker) (i : Nat)
  | allocTest (p : Nat) (k : Maker) (i : Nat)
  | pidLoad (p : Nat) (k : Maker) (i : Nat)
  | pidStore (p : Nat) (k : Maker) (i : Nat) (pid : Int)
  | allocSet (p : Nat) (k : Maker) (i : Nat) (pid : Int)
  | allocMem (p : Nat) (k : Maker) (i : Nat) (pid : Int)
  | freeproc (i : Nat)
  | setParent (p : Nat) (k : Maker) (i : Nat) (pid : Int)
  | setRunnable (i : Nat) (pid : Int)
  | killScan (pid : Int) (i : Nat)
  | killTest (pid : Int) (i : Nat)
  | ret (r : Ret)
  | schedLoop
  | schedScan (i : Nat)
  | schedAffinity (i : Nat)
  | schedAffinityHere (i : Nat)
  | schedCheck (i : Nat)
  | schedProc (i : Nat)
  | swtch (i : Nat)
  | schedClear (i : Nat)
  deriving DecidableEq

/-- The kernel threads: the scheduler of a hart and the one of a process. -/
inductive Tid where
  | sched (h : Nat)
  | proc (q : Nat)
  deriving DecidableEq

/-- `depth` counts the calls of `push_off` that the thread has made and not
undone, and `was` is the interrupt-enable bit when it last left zero. -/
structure Thread where
  code : List Frame
  depth : Nat
  was : Option Bool
  deriving DecidableEq

inductive Stop where
  | panic (e : Panic)
  | initExiting
  deriving DecidableEq

/-- `cur` is the thread whose stack the hart is on, `proc` is `c->proc`. -/
structure Hart where
  cpu : Cpu
  proc : Option Nat
  cur : Tid
  stop : Option Stop
  deriving DecidableEq

/-- What has happened, by process identifiers: `alloc` gives a slot its pid,
`created` makes a child, `kill` marks a process, `fault` is `setkilled`. -/
inductive Event where
  | alloc (i : Nat) (pid : Int)
  | created (parent child : Int)
  | exited (pid status : Int)
  | waited (parent child status : Int)
  | kill (pid : Int)
  | fault (i : Nat)
  deriving DecidableEq

/-- `lock l` is the hart in whose name the spinlock is held; `cond` is a
condition that other kernel code waits for; `log` only records. -/
structure State where
  hart : Nat → Hart
  thread : Tid → Thread
  slot : Nat → Slot
  lock : LockId → Option Nat
  nextpid : Int
  cond : Bool
  log : List Event

def initproc : Nat := 0

section Code

/-- `myproc` reads `c->proc` between `push_off` and `pop_off`. -/
def myproc : List Frame := [.pushOff, .popOff]

def yieldCode (p : Nat) : List Frame := myproc ++ [Frame.acquire (.proc p), Frame.leave p .yield .first]

def sleepCode (p : Nat) (c : Chan) (lk : LockId) : List Frame :=
  myproc ++ [Frame.acquire (.proc p), Frame.leave p (.sleep c lk) .first]

/-- `if(killed(p)) exit(-1)`. -/
def killedCheck (p : Nat) : List Frame := [.acquire (.proc p), .killedLoad p]

def exitCode (p : Nat) (status : Int) : List Frame := myproc ++ [Frame.exitStart p status]

def usertrapret : List Frame := myproc ++ [Frame.intrOff, Frame.userRet]

/-- A new process starts here, holding its own lock from `scheduler`; the
first one also initialises the file system. -/
def forkret (p : Nat) : List Frame := myproc ++ Frame.release (.proc p) :: Frame.body true [] 0 :: usertrapret

inductive Call where
  | fork
  | threadCreate
  | wait (addr : Nat)
  | threadJoin
  | exit (status : Int)
  | threadExit (status : Int)
  | kill (pid : Int)
  | other
  deriving DecidableEq

def waitCode (p : Nat) (k : Waiter) : List Frame := myproc ++ [Frame.acquire .wait, Frame.waitScan p k 0 false]

def Call.code (p : Nat) : Call → List Frame
  | .fork => myproc ++ [Frame.allocScan p .fork 0]
  | .threadCreate => myproc ++ [Frame.allocScan p .threadCreate 0]
  | .wait addr => waitCode p (.wait addr)
  | .threadJoin => waitCode p .threadJoin
  | .exit status => exitCode p status
  | .threadExit status => exitCode p status
  | .kill pid => [.killScan pid 0]
  | .other => [.body true [] 0]

/-- `usertrap` for a system call. -/
def syscallTrap (p : Nat) (c : Call) : List Frame :=
  myproc ++ killedCheck p ++ Frame.intrOn :: myproc ++ c.code p ++ killedCheck p ++ usertrapret

/-- `usertrap` for an exception. -/
def faultTrap (p : Nat) : List Frame :=
  myproc ++ Frame.acquire (.proc p) :: Frame.setKilled p :: killedCheck p ++ usertrapret

/-- `usertrap` for an interrupt. -/
def userIntr (p : Nat) (timer : Bool) : List Frame :=
  myproc ++ Frame.body false [] 0 :: killedCheck p ++ (if timer then yieldCode p else []) ++ usertrapret

/-- `kerneltrap`. -/
def kernelIntr (timer : Bool) : List Frame :=
  Frame.body false [] 0 :: (if timer then myproc ++ [Frame.timerCheck] else []) ++ [Frame.trapRet]

end Code

/-- A step of a thread: the one thing it does besides going on with `c`. -/
inductive Instr where
  | goto (c : List Frame)
  | push (c : List Frame)
  | pop (c : List Frame)
  | take (l : LockId) (c : List Frame)
  | drop (l : LockId) (c : List Frame)
  | sie (b : Bool) (c : List Frame)
  | intena (b : Bool) (c : List Frame)
  | store (i : Nat) (x : Slot) (c : List Frame)
  | spawn (i : Nat) (c : List Frame)
  | nextpid (v : Int) (c : List Frame)
  | cond (v : Bool) (c : List Frame)
  | proc (o : Option Nat) (c : List Frame)
  | toProc (i : Nat) (c : List Frame)
  | toSched (c : List Frame)
  | stop (e : Stop)

/-- `int` addition wraps. -/
def bump (v : Int) : Int := (v + 1).bmod (2 ^ 32)

/-- What `freeproc` leaves of an entry. -/
def Slot.freed (x : Slot) : Slot :=
  { x with pid := 0, parent := none, chan := none, killed := false, xstate := 0, state := .unused }

/-- `sched`: the four checks, then the switch to the scheduler of the hart. -/
def schedOut (s : State) (h p : Nat) (k : Leave) (rest : List Frame) : Instr :=
  if s.lock (.proc p) ≠ some h then .stop (.panic .schedLock)
  else if (s.hart h).cpu.noff ≠ 1 then .stop (.panic .schedLocks)
  else if (s.slot p).state = .running then .stop (.panic .schedRunning)
  else if (s.hart h).cpu.sie then .stop (.panic .schedInterruptible)
  else .toSched (.leave p k (.resume (s.hart h).cpu.intena) :: rest)

/-- What follows when a routine has released `p->lock` again. -/
def Leave.after : Leave → List Frame
  | .yield | .exit _ => []
  | .sleep _ lk => [.acquire lk]

def decodeLeave (s : State) (h p : Nat) (k : Leave) (rest : List Frame) : LeavePc → Option Instr
  | .first =>
    match k with
    | .yield => some (.store p { s.slot p with state := .runnable } (.leave p k .push :: rest))
    | .sleep _ lk => some (.drop lk (.leave p k .second :: rest))
    | .exit status =>
      some (.store p { s.slot p with xstate := status, state := .zombie } (.leave p k .second :: rest))
  | .second =>
    match k with
    | .yield => none
    | .sleep c _ =>
      some (.store p { s.slot p with chan := some c, state := .sleeping } (.leave p k .push :: rest))
    | .exit _ => some (.drop .wait (.leave p k .push :: rest))
  | .push => some (.push (.leave p k .pop :: rest))
  | .pop => some (.pop (.leave p k .sched :: rest))
  | .sched => some (schedOut s h p k rest)
  | .resume b =>
    match k with
    | .yield => some (.intena b (.leave p k .release :: rest))
    | .sleep _ _ => some (.intena b (.leave p k .clear :: rest))
    | .exit _ => some (.stop (.panic .zombieExit))
  | .clear => some (.store p { s.slot p with chan := none } (.leave p k .release :: rest))
  | .release => some (.drop (.proc p) (k.after ++ rest))

/-- What the next step of hart `h` does when its thread is at frame `f`. -/
def decode (s : State) (h : Nat) (rest : List Frame) : Frame → Option Instr
  | .pushOff => some (.push rest)
  | .popOff => some (.pop rest)
  | .acquire l => some (.push (.spin l :: rest))
  | .spin l => some (.take l rest)
  | .release l => some (.drop l rest)
  | .intrOn | .trapRet | .userRet => some (.sie true rest)
  | .intrOff => some (.sie false rest)
  | .body _ _ _ => none
  | .leave p k pc => decodeLeave s h p k rest pc
  | .killedLoad p =>
    some (.goto (.release (.proc p) :: if (s.slot p).killed then exitCode p (-1) else rest))
  | .setKilled p => some (.store p { s.slot p with killed := true } (.release (.proc p) :: rest))
  | .timerCheck =>
    match (s.hart h).proc with
    | none => some (.goto rest)
    | some _ => some (.goto (myproc ++ Frame.timerState :: rest))
  | .timerState =>
    match (s.hart h).proc with
    | none => some (.goto rest)
    | some p => some (.goto (if (s.slot p).state = .running then yieldCode p ++ rest else rest))
  | .syncLoop p c i =>
    if i < c.bound then
      some (.store p { s.slot p with affinity := i } (yieldCode p ++ Frame.syncLoop p c (i + 1) :: rest))
    else some (.store p { s.slot p with affinity := -1 } rest)
  | .wakeup c i => some (.goto (if i < NPROC then myproc ++ Frame.wakeSelf c i :: rest else rest))
  | .wakeSelf c i =>
    if (s.hart h).proc = some i then some (.goto (.wakeup c (i + 1) :: rest))
    else some (.goto (.acquire (.proc i) :: .wakeTest c i :: rest))
  | .wakeTest c i =>
    if (s.slot i).state = .sleeping ∧ (s.slot i).chan = c then
      some (.store i { s.slot i with state := .runnable } (.release (.proc i) :: .wakeup c (i + 1) :: rest))
    else some (.goto (.release (.proc i) :: .wakeup c (i + 1) :: rest))
  | .exitStart p status =>
    if p = initproc then some (.stop .initExiting)
    else some (.goto [.body true [] 0, .acquire .wait, .reparent p status 0])
  | .reparent p status i =>
    if i < NPROC then
      if (s.slot i).parent = some p then
        some (.store i { s.slot i with parent := some initproc }
          (.wakeup (some (.proc initproc)) 0 :: .reparent p status (i + 1) :: rest))
      else some (.goto (.reparent p status (i + 1) :: rest))
    else
      some (.goto (.wakeup ((s.slot p).parent.map .proc) 0 :: .acquire (.proc p) ::
        .leave p (.exit status) .first :: rest))
  | .waitScan p k i havekids =>
    if i < NPROC then
      if (s.slot i).parent = some p then some (.goto (.acquire (.proc i) :: .waitTest p k i :: rest))
      else some (.goto (.waitScan p k (i + 1) havekids :: rest))
    else if havekids then some (.goto (.acquire (.proc p) :: .waitKilled p k :: rest))
    else some (.goto (.release .wait :: .ret .failed :: rest))
  | .waitTest p k i =>
    if (s.slot i).state = .zombie then some (.goto (.waitCopy p k i (s.slot i).pid :: rest))
    else some (.goto (.release (.proc i) :: .waitScan p k (i + 1) true :: rest))
  | .waitCopy p _ i pid => some (.goto (.waitFree p i pid (s.slot i).xstate :: rest))
  | .waitFree _ i pid status =>
    some (.store i (s.slot i).freed (.release (.proc i) :: .release .wait :: .ret (.waited pid status) :: rest))
  | .waitKilled p k =>
    some (.goto (.release (.proc p) :: if (s.slot p).killed then .release .wait :: .ret .failed :: rest
      else sleepCode p (.proc p) .wait ++ Frame.waitScan p k 0 false :: rest))
  | .allocScan p k i =>
    some (.goto (if i < NPROC then .acquire (.proc i) :: .allocTest p k i :: rest else .ret .failed :: rest))
  | .allocTest p k i =>
    if (s.slot i).state = .unused then some (.goto (.acquire .pid :: .pidLoad p k i :: rest))
    else some (.goto (.release (.proc i) :: .allocScan p k (i + 1) :: rest))
  | .pidLoad p k i => some (.goto (.pidStore p k i s.nextpid :: rest))
  | .pidStore p k i pid => some (.nextpid (bump pid) (.release .pid :: .allocSet p k i pid :: rest))
  | .allocSet p k i pid =>
    some (.store i { s.slot i with pid := pid, state := .used, affinity := -1 } (.allocMem p k i pid :: rest))
  | .allocMem p k i pid =>
    match k with
    | .fork => some (.spawn i (.release (.proc i) :: .acquire .wait :: .setParent p k i pid :: rest))
    | .threadCreate => some (.spawn i (.acquire .wait :: .setParent p k i pid :: rest))
  | .freeproc i => some (.store i (s.slot i).freed (.release (.proc i) :: rest))
  | .setParent p k i pid =>
    match k with
    | .fork =>
      some (.store i { s.slot i with parent := some p }
        (.release .wait :: .acquire (.proc i) :: .setRunnable i pid :: rest))
    | .threadCreate =>
      some (.store i { s.slot i with parent := some p }
        (.release .wait :: .release (.proc i) :: .acquire (.proc i) :: .setRunnable i pid :: rest))
  | .setRunnable i pid =>
    some (.store i { s.slot i with state := .runnable } (.release (.proc i) :: .ret (.forked pid) :: rest))
  | .killScan pid i =>
    some (.goto (if i < NPROC then .acquire (.proc i) :: .killTest pid i :: rest else .ret .failed :: rest))
  | .killTest pid i =>
    if (s.slot i).pid = pid then
      some (.store i { s.slot i with
          killed := true
          state := if (s.slot i).state = .sleeping then .runnable else (s.slot i).state }
        (.release (.proc i) :: .ret (.killed pid) :: rest))
    else some (.goto (.release (.proc i) :: .killScan pid (i + 1) :: rest))
  | .ret _ => some (.goto rest)
  | .schedLoop => some (.sie true (.schedScan 0 :: rest))
  | .schedScan i =>
    some (.goto (if i < NPROC then .acquire (.proc i) :: .schedAffinity i :: rest else .schedLoop :: rest))
  | .schedAffinity i =>
    if (s.slot i).affinity ≠ -1 then some (.goto (.schedAffinityHere i :: rest))
    else some (.goto (.schedCheck i :: rest))
  | .schedAffinityHere i =>
    if (s.slot i).affinity ≠ h then some (.goto (.release (.proc i) :: .schedScan (i + 1) :: rest))
    else some (.goto (.schedCheck i :: rest))
  | .schedCheck i =>
    if (s.slot i).state = .runnable then
      some (.store i { s.slot i with state := .running } (.schedProc i :: rest))
    else some (.goto (.release (.proc i) :: .schedScan (i + 1) :: rest))
  | .schedProc i => some (.proc (some i) (.swtch i :: rest))
  | .swtch i => some (.toProc i (.schedClear i :: rest))
  | .schedClear i => some (.proc none (.release (.proc i) :: .schedScan (i + 1) :: rest))

/-- The step where an allocation in `allocproc` or in the copy of the parent's
memory fails, or the copy of the exit status to user memory. -/
def decodeFail (rest : List Frame) : Frame → Option Instr
  | .allocMem _ _ i _ => some (.goto (.freeproc i :: .ret .failed :: rest))
  | .waitCopy _ (.wait addr) i _ =>
    if addr ≠ 0 then some (.goto (.release (.proc i) :: .release .wait :: .ret .failed :: rest)) else none
  | _ => none

/-- What other kernel code can do next. `done` returns to its caller. -/
inductive Op where
  | acquire (i : Nat)
  | release (i : Nat)
  | pushOff | popOff
  | yield
  | sleep (c i : Nat)
  | wakeup (c : Nat)
  | sync (c : SyncCall)
  | killed
  | setCond (v : Bool)
  | done
  deriving DecidableEq

/-- Other kernel code nests its calls of `push_off` and `pop_off`; it yields,
waits for a grace period or returns with none of them open, and sleeps with
only the lock it hands to `sleep`. Interrupt handlers do not block. -/
def decodeOp (s : State) (h : Nat) (rest : List Frame) (blocks : Bool) (holds : List Nat) (sections : Nat) :
    Op → Option Instr
  | .acquire i =>
    if i ∉ holds then
      some (.goto (.acquire (.other i) :: .body blocks (i :: holds) sections :: rest))
    else none
  | .release i =>
    if i ∈ holds then some (.drop (.other i) (.body blocks (holds.erase i) sections :: rest)) else none
  | .pushOff => some (.push (.body blocks holds (sections + 1) :: rest))
  | .popOff => if 0 < sections then some (.pop (.body blocks holds (sections - 1) :: rest)) else none
  | .yield =>
    match (s.hart h).proc with
    | some p =>
      if blocks ∧ holds = [] ∧ sections = 0 then some (.goto (yieldCode p ++ Frame.body true [] 0 :: rest)) else none
    | none => none
  | .sleep c i =>
    match (s.hart h).proc with
    | some p =>
      if blocks ∧ holds = [i] ∧ sections = 0 then
        some (.goto (sleepCode p (.other c) (.other i) ++ Frame.body true [i] 0 :: rest))
      else none
    | none => none
  | .wakeup c => some (.goto (.wakeup (some (.other c)) 0 :: .body blocks holds sections :: rest))
  | .sync c =>
    match (s.hart h).proc with
    | some p =>
      if blocks ∧ holds = [] ∧ sections = 0 then
        some (.goto (myproc ++ Frame.syncLoop p c 0 :: Frame.body true [] 0 :: rest))
      else none
    | none => none
  | .killed =>
    match (s.hart h).proc with
    | some p =>
      if blocks then
        some (.goto (.acquire (.proc p) :: .release (.proc p) :: .body blocks holds sections :: rest))
      else none
    | none => none
  | .setCond v => some (.cond v (.body blocks holds sections :: rest))
  | .done => if holds = [] ∧ sections = 0 then some (.goto rest) else none

namespace Thread

def goto (x : Thread) (c : List Frame) : Thread := { x with code := c }

def push (x : Thread) (sie : Bool) : Thread :=
  { x with depth := x.depth + 1, was := if x.depth = 0 then some sie else x.was }

def pop (x : Thread) : Thread := { x with depth := x.depth - 1 }

/-- A new thread enters with the `push_off` of its scheduler. -/
def spawned (i : Nat) : Thread := ⟨forkret i, 1, none⟩

end Thread

namespace State

/-- The thread that hart `h` executes. -/
def run (s : State) (h : Nat) : Thread := s.thread (s.hart h).cur

def setHart (s : State) (h : Nat) (x : Hart) : State := { s with hart := update s.hart h x }

def setThread (s : State) (t : Tid) (x : Thread) : State := { s with thread := update s.thread t x }

def setSlot (s : State) (i : Nat) (x : Slot) : State := { s with slot := update s.slot i x }

def setLock (s : State) (l : LockId) (o : Option Nat) : State :=
  { s with lock := update s.lock l o }

/-- Hart `h` becomes `x` and its thread becomes `y`. -/
def commit (s : State) (h : Nat) (x : Hart) (y : Thread) : State :=
  (s.setHart h x).setThread (s.hart h).cur y

def fail (s : State) (h : Nat) (e : Stop) : State := s.setHart h { s.hart h with stop := some e }

end State

/-- The step of hart `h`; `take` waits while another hart has the lock. -/
def apply (s : State) (h : Nat) : Instr → Option State
  | .goto c => some (s.commit h (s.hart h) ((s.run h).goto c))
  | .push c =>
    some (s.commit h { s.hart h with cpu := (s.hart h).cpu.pushOff }
      (((s.run h).push (s.hart h).cpu.sie).goto c))
  | .pop c =>
    match (s.hart h).cpu.popOff with
    | .error e => some (s.fail h (.panic e))
    | .ok x => some (s.commit h { s.hart h with cpu := x } ((s.run h).pop.goto c))
  | .take l c =>
    match s.lock l with
    | none => some ((s.setLock l (some h)).commit h (s.hart h) ((s.run h).goto c))
    | some g => if g = h then some (s.fail h (.panic .acquire)) else none
  | .drop l c =>
    if s.lock l = some h then
      match (s.hart h).cpu.popOff with
      | .error e => some ((s.setLock l none).fail h (.panic e))
      | .ok x => some ((s.setLock l none).commit h { s.hart h with cpu := x } ((s.run h).pop.goto c))
    else some (s.fail h (.panic .release))
  | .sie b c => some (s.commit h { s.hart h with cpu := (s.hart h).cpu.setSie b } ((s.run h).goto c))
  | .intena b c => some (s.commit h { s.hart h with cpu := (s.hart h).cpu.setIntena b } ((s.run h).goto c))
  | .store i x c => some ((s.setSlot i x).commit h (s.hart h) ((s.run h).goto c))
  | .spawn i c => some ((s.setThread (.proc i) (.spawned i)).commit h (s.hart h) ((s.run h).goto c))
  | .nextpid v c => some ({ s with nextpid := v }.commit h (s.hart h) ((s.run h).goto c))
  | .cond v c => some ({ s with cond := v }.commit h (s.hart h) ((s.run h).goto c))
  | .proc o c => some (s.commit h { s.hart h with proc := o } ((s.run h).goto c))
  | .toProc i c => some (s.commit h { s.hart h with cur := .proc i } ((s.run h).goto c))
  | .toSched c => some (s.commit h { s.hart h with cur := .sched h } ((s.run h).goto c))
  | .stop e => some (s.fail h e)

def events (s : State) : Frame → List Event
  | .allocSet _ _ i pid => [.alloc i pid]
  | .setParent p _ _ pid => [.created (s.slot p).pid pid]
  | .exitStart p status => if p = initproc then [] else [.exited (s.slot p).pid status]
  | .killTest pid i => if (s.slot i).pid = pid then [.kill pid] else []
  | .setKilled p => [.fault p]
  | _ => []

/-- `wait` hands a pid to the process on whose hart it returns. -/
def returns (s : State) (h : Nat) : Frame → List Event
  | .ret (.waited pid status) =>
    match (s.hart h).proc with
    | some p => [.waited (s.slot p).pid pid status]
    | none => []
  | _ => []

def State.note (s : State) (es : List Event) : State := { s with log := s.log ++ es }

/-- A step of a hart, a failing allocation or copy, a step of other kernel
code, and from user mode a system call, an exception or an interrupt. -/
inductive Act where
  | exec (h : Nat)
  | fail (h : Nat)
  | op (h : Nat) (o : Op)
  | ecall (h : Nat) (c : Call)
  | fault (h : Nat)
  | intr (h : Nat) (timer : Bool)
  deriving DecidableEq

instance : Inhabited Act := ⟨.exec 0⟩

/-- The instruction that an action makes the thread of hart `h` execute. -/
def fetch (s : State) (h : Nat) : Act → Option Instr
  | .exec _ =>
    match (s.run h).code with
    | f :: rest => decode s h rest f
    | [] => none
  | .fail _ =>
    match (s.run h).code with
    | f :: rest => decodeFail rest f
    | [] => none
  | .op _ o =>
    match (s.run h).code with
    | .body blocks holds sections :: rest => decodeOp s h rest blocks holds sections o
    | _ => none
  | .ecall _ c =>
    match (s.hart h).cur, (s.run h).code, (s.hart h).proc with
    | .proc _, [], some p => some (.sie false (syscallTrap p c))
    | _, _, _ => none
  | .fault _ =>
    match (s.hart h).cur, (s.run h).code, (s.hart h).proc with
    | .proc _, [], some p => some (.sie false (faultTrap p))
    | _, _, _ => none
  | .intr _ timer =>
    if (s.hart h).cpu.sie then
      match (s.hart h).cur, (s.run h).code, (s.hart h).proc with
      | .proc _, [], some p => some (.sie false (userIntr p timer))
      | _, c, _ => some (.sie false (kernelIntr timer ++ c))
    else none

def Act.hart : Act → Nat
  | .exec h | .fail h | .op h _ | .ecall h _ | .fault h | .intr h _ => h

def recorded (s : State) (h : Nat) : Act → List Event
  | .exec _ =>
    match (s.run h).code with
    | f :: _ => events s f ++ returns s h f
    | [] => []
  | _ => []

/-- A step of the machine with `n` harts. -/
def step (n : Nat) : Step State Act := fun s a =>
  if a.hart < n ∧ (s.hart a.hart).stop = none then
    ((fetch s a.hart a).bind (apply s a.hart)).map (fun t => t.note (recorded s a.hart a))
  else none

/-- `userinit` has made the first process, and every hart enters `scheduler`. -/
def boot : State where
  hart := fun h => ⟨⟨0, false, false⟩, none, .sched h, none⟩
  thread := fun t =>
    match t with
    | .sched _ => ⟨[.schedLoop], 0, none⟩
    | .proc q => if q = initproc then .spawned initproc else ⟨[], 0, none⟩
  slot := fun i =>
    if i = initproc then ⟨.runnable, none, false, 0, 1, none, -1⟩ else ⟨.unused, none, false, 0, 0, none, 0⟩
  lock := fun _ => none
  nextpid := 2
  cond := false
  log := [.alloc initproc 1]

end Xv6Rcu.Process

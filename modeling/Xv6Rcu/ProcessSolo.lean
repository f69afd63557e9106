import Xv6Rcu.ProcessSched

namespace Xv6Rcu.ProcessSolo

open Transition Process Function List Option
open Kernel (Cpu NPROC)

/-- State `s` with the first process on hart 0, at `y`, and with the given entry
1, spinlocks, next pid and log. -/
def solo (s : State) (cpu : Cpu) (y : Thread) (x : Slot) (lock : LockId → Option Nat) (v : Int) (log : List Event) :
    State :=
  { s with
    hart := update s.hart 0 ⟨cpu, some 0, .proc 0, none⟩
    thread := update s.thread (.proc 0) y
    slot := update s.slot 1 x
    lock := lock
    nextpid := v
    log := log }

variable {s : State} {cpu cpu' : Cpu} {y y' : Thread} {x x' : Slot} {L L' : LockId → Option Nat} {v w : Int}
  {log es : List Event} {f : Frame} {c : List Frame} {l : LockId} {b e : Bool} {i : Instr} {d j : Nat}
  {was : Option Bool} {a : Act} {as : List Act}

section Apply

theorem solo_hart : (solo s cpu y x L v log).hart 0 = ⟨cpu, some 0, .proc 0, none⟩ := by simp [solo]

theorem solo_run : (solo s cpu y x L v log).run 0 = y := by simp [State.run, solo]

theorem solo_slot_zero : (solo s cpu y x L v log).slot 0 = s.slot 0 := by simp [solo]

theorem solo_slot_one : (solo s cpu y x L v log).slot 1 = x := by simp [solo]

theorem solo_commit : (solo s cpu y x L v log).commit 0 ⟨cpu', some 0, .proc 0, none⟩ y' =
    solo s cpu' y' x L v log := by
  simp [State.commit, State.setHart, State.setThread, solo]

theorem apply_goto : apply (solo s cpu y x L v log) 0 (.goto c) = some (solo s cpu (y.goto c) x L v log) := by
  rw [apply, solo_hart, solo_run, solo_commit]

theorem apply_push : apply (solo s cpu y x L v log) 0 (.push c) =
    some (solo s cpu.pushOff ((y.push cpu.sie).goto c) x L v log) := by
  rw [apply, solo_hart, solo_run, solo_commit]

theorem apply_pop (hp : cpu.popOff = .ok cpu') :
    apply (solo s cpu y x L v log) 0 (.pop c) = some (solo s cpu' (y.pop.goto c) x L v log) := by
  simp only [apply, solo_hart, solo_run, hp, solo_commit]

theorem apply_take (hl : L l = none) : apply (solo s cpu y x L v log) 0 (.take l c) =
    some (solo s cpu (y.goto c) x (update L l (some 0)) v log) := by
  have hlock : (solo s cpu y x L v log).lock l = none := hl
  simp only [apply, hlock, solo_hart, solo_run]
  exact congrArg some solo_commit

theorem apply_drop (hl : L l = none) (hp : cpu.popOff = .ok cpu') :
    apply (solo s cpu y x (update L l (some 0)) v log) 0 (.drop l c) =
      some (solo s cpu' (y.pop.goto c) x L v log) := by
  have hback : update (update L l (some 0)) l none = L := by
    rw [update_idem, ← hl, update_eq_self]
  have hlock : (solo s cpu y x (update L l (some 0)) v log).lock l = some 0 := update_self ..
  simp only [apply, hlock, solo_hart, solo_run, hp, if_true]
  change some ((solo s cpu y x (update (update L l (some 0)) l none) v log).commit 0 _ _) = _
  rw [hback]
  exact congrArg some solo_commit

theorem apply_sie : apply (solo s cpu y x L v log) 0 (.sie b c) =
    some (solo s (cpu.setSie b) (y.goto c) x L v log) := by
  rw [apply, solo_hart, solo_run, solo_commit]

theorem apply_store : apply (solo s cpu y x L v log) 0 (.store 1 x' c) =
    some (solo s cpu (y.goto c) x' L v log) := by
  simp [apply, State.setSlot, State.commit, State.setHart, State.setThread, solo, State.run]

theorem apply_nextpid : apply (solo s cpu y x L v log) 0 (.nextpid w c) =
    some (solo s cpu (y.goto c) x L w log) := by
  rw [apply, solo_hart, solo_run]
  exact congrArg some solo_commit

theorem solo_step (ha : a.hart = 0) : step 2 (solo s cpu y x L v log) a =
    ((fetch (solo s cpu y x L v log) 0 a).bind (apply (solo s cpu y x L v log) 0)).map
      (fun t => t.note (recorded (solo s cpu y x L v log) 0 a)) := by
  simp [step, ha, solo_hart]

end Apply

section Frames

section

variable (hd : decode (solo s cpu ⟨f :: c, d, was⟩ x L v log) 0 c f = some i) (ha : apply (solo s cpu ⟨f :: c, d, was⟩ x L v log) 0 i = some (solo s cpu' y' x' L' w log))

include hd ha

theorem exec_code
    (he : events (solo s cpu ⟨f :: c, d, was⟩ x L v log) f ++
      returns (solo s cpu ⟨f :: c, d, was⟩ x L v log) 0 f = es) :
    exec (step 2) (solo s cpu ⟨f :: c, d, was⟩ x L v log) (.exec 0 :: as) =
      exec (step 2) (solo s cpu' y' x' L' w (log ++ es)) as := by
  rw [exec, solo_step rfl]
  simp only [fetch, recorded, solo_run]
  rw [hd, bind_some, ha, map_some, bind_some, he]
  rfl

theorem exec_silent
    (he : events (solo s cpu ⟨f :: c, d, was⟩ x L v log) f ++
      returns (solo s cpu ⟨f :: c, d, was⟩ x L v log) 0 f = []) :
    exec (step 2) (solo s cpu ⟨f :: c, d, was⟩ x L v log) (.exec 0 :: as) =
      exec (step 2) (solo s cpu' y' x' L' w log) as := by
  rw [exec_code hd ha he, append_nil]

end

theorem exec_pushOff : exec (step 2) (solo s cpu ⟨.pushOff :: c, d, was⟩ x L v log) (.exec 0 :: as) =
    exec (step 2) (solo s cpu.pushOff ⟨c, d + 1, if d = 0 then some cpu.sie else was⟩ x L v log) as :=
  exec_silent rfl apply_push rfl

theorem exec_popOff (hp : cpu.popOff = .ok cpu') :
    exec (step 2) (solo s cpu ⟨.popOff :: c, d, was⟩ x L v log) (.exec 0 :: as) =
      exec (step 2) (solo s cpu' ⟨c, d - 1, was⟩ x L v log) as :=
  exec_silent rfl (apply_pop hp) rfl

theorem exec_acquire : exec (step 2) (solo s cpu ⟨.acquire l :: c, d, was⟩ x L v log) (.exec 0 :: as) =
    exec (step 2) (solo s cpu.pushOff ⟨.spin l :: c, d + 1, if d = 0 then some cpu.sie else was⟩ x L v log) as :=
  exec_silent rfl apply_push rfl

theorem exec_spin (hl : L l = none) :
    exec (step 2) (solo s cpu ⟨.spin l :: c, d, was⟩ x L v log) (.exec 0 :: as) =
      exec (step 2) (solo s cpu ⟨c, d, was⟩ x (update L l (some 0)) v log) as :=
  exec_silent rfl (apply_take hl) rfl

theorem exec_release (hl : L l = none) (hp : cpu.popOff = .ok cpu') :
    exec (step 2) (solo s cpu ⟨.release l :: c, d, was⟩ x (update L l (some 0)) v log) (.exec 0 :: as) =
      exec (step 2) (solo s cpu' ⟨c, d - 1, was⟩ x L v log) as :=
  exec_silent rfl (apply_drop hl hp) rfl

theorem exec_intrOn : exec (step 2) (solo s cpu ⟨.intrOn :: c, d, was⟩ x L v log) (.exec 0 :: as) =
    exec (step 2) (solo s (cpu.setSie true) ⟨c, d, was⟩ x L v log) as :=
  exec_silent rfl apply_sie rfl

theorem exec_intrOff : exec (step 2) (solo s cpu ⟨.intrOff :: c, d, was⟩ x L v log) (.exec 0 :: as) =
    exec (step 2) (solo s (cpu.setSie false) ⟨c, d, was⟩ x L v log) as :=
  exec_silent rfl apply_sie rfl

theorem exec_userRet : exec (step 2) (solo s cpu ⟨.userRet :: c, d, was⟩ x L v log) (.exec 0 :: as) =
    exec (step 2) (solo s (cpu.setSie true) ⟨c, d, was⟩ x L v log) as :=
  exec_silent rfl apply_sie rfl

theorem exec_myproc :
    exec (step 2) (solo s ⟨0, b, e⟩ ⟨myproc ++ c, 0, was⟩ x L v log) (.exec 0 :: .exec 0 :: as) =
      exec (step 2) (solo s ⟨0, e, e⟩ ⟨c, 0, some e⟩ x L v log) as := by
  rw [myproc, cons_append, exec_pushOff, cons_append, exec_popOff rfl]
  rfl

theorem exec_killedLoad (hk : (s.slot 0).killed = false) :
    exec (step 2) (solo s cpu ⟨.killedLoad 0 :: c, d, was⟩ x L v log) (.exec 0 :: as) =
      exec (step 2) (solo s cpu ⟨.release (.proc 0) :: c, d, was⟩ x L v log) as :=
  exec_silent (by simp [decode, solo_slot_zero, hk]) apply_goto rfl

theorem exec_killedCheck (hk : (s.slot 0).killed = false) (hl : L (.proc 0) = none) :
    exec (step 2) (solo s ⟨0, b, e⟩ ⟨killedCheck 0 ++ c, 0, was⟩ x L v log)
      (.exec 0 :: .exec 0 :: .exec 0 :: .exec 0 :: as) =
        exec (step 2) (solo s ⟨0, e, e⟩ ⟨c, 0, some e⟩ x L v log) as := by
  rw [killedCheck, cons_append, exec_acquire, exec_spin hl, cons_append, exec_killedLoad hk,
    exec_release hl rfl]
  rfl

theorem exec_ecall (ca : Call) : exec (step 2) (solo s cpu ⟨[], d, was⟩ x L v log) (.ecall 0 ca :: as) =
    exec (step 2) (solo s (cpu.setSie false) ⟨syscallTrap 0 ca, d, was⟩ x L v log) as := by
  rw [exec, solo_step rfl]
  simp only [fetch, recorded, solo_run, solo_hart]
  rw [bind_some, apply_sie, map_some, bind_some, ProcessTable.note_nil]
  rfl

theorem exec_allocScan (hj : j < NPROC) :
    exec (step 2) (solo s cpu ⟨.allocScan 0 .fork j :: c, d, was⟩ x L v log) (.exec 0 :: as) =
      exec (step 2) (solo s cpu ⟨.acquire (.proc j) :: .allocTest 0 .fork j :: c, d, was⟩ x L v log) as :=
  exec_silent rfl (by rw [if_pos hj]; exact apply_goto) rfl

theorem exec_allocTest_busy (hs : (s.slot 0).state ≠ .unused) :
    exec (step 2) (solo s cpu ⟨.allocTest 0 .fork 0 :: c, d, was⟩ x L v log) (.exec 0 :: as) =
      exec (step 2) (solo s cpu ⟨.release (.proc 0) :: .allocScan 0 .fork 1 :: c, d, was⟩ x L v log) as :=
  exec_silent (by simp [decode, solo_slot_zero, hs]) apply_goto rfl

theorem exec_allocTest_unused (hx : x.state = .unused) :
    exec (step 2) (solo s cpu ⟨.allocTest 0 .fork 1 :: c, d, was⟩ x L v log) (.exec 0 :: as) =
      exec (step 2) (solo s cpu ⟨.acquire .pid :: .pidLoad 0 .fork 1 :: c, d, was⟩ x L v log) as :=
  exec_silent (by simp [decode, solo_slot_one, hx]) apply_goto rfl

theorem exec_allocpid :
    exec (step 2) (solo s cpu ⟨.pidLoad 0 .fork 1 :: c, d, was⟩ x L v log) (.exec 0 :: .exec 0 :: as) =
      exec (step 2) (solo s cpu ⟨.release .pid :: .allocSet 0 .fork 1 v :: c, d, was⟩ x L (bump v) log) as := by
  rw [exec_silent rfl apply_goto rfl]
  exact exec_silent rfl apply_nextpid rfl

theorem exec_allocSet :
    exec (step 2) (solo s cpu ⟨.allocSet 0 .fork 1 w :: c, d, was⟩ x L v log) (.exec 0 :: as) =
      exec (step 2) (solo s cpu ⟨.allocMem 0 .fork 1 w :: c, d, was⟩
        { x with pid := w, state := .used, affinity := -1 } L v (log ++ [Event.alloc 1 w])) as := by
  refine exec_code rfl ?_ rfl
  rw [solo_slot_one]
  exact apply_store

theorem exec_allocMem_fail :
    exec (step 2) (solo s cpu ⟨.allocMem 0 .fork 1 w :: c, d, was⟩ x L v log) (.fail 0 :: as) =
      exec (step 2) (solo s cpu ⟨.freeproc 1 :: .ret .failed :: c, d, was⟩ x L v log) as := by
  rw [exec, solo_step rfl]
  simp only [fetch, recorded, solo_run, decodeFail]
  rw [bind_some, apply_goto, map_some, bind_some, ProcessTable.note_nil]
  rfl

theorem exec_freeproc : exec (step 2) (solo s cpu ⟨.freeproc 1 :: c, d, was⟩ x L v log) (.exec 0 :: as) =
    exec (step 2) (solo s cpu ⟨.release (.proc 1) :: c, d, was⟩ x.freed L v log) as := by
  refine exec_silent rfl ?_ rfl
  rw [solo_slot_one]
  exact apply_store

theorem exec_ret : exec (step 2) (solo s cpu ⟨.ret .failed :: c, d, was⟩ x L v log) (.exec 0 :: as) =
    exec (step 2) (solo s cpu ⟨c, d, was⟩ x L v log) as :=
  exec_silent rfl apply_goto rfl

end Frames

section Fork

/-- A call of `fork` up to the point where `allocproc` has taken its entry. -/
def forkAlloc : List Act := .ecall 0 .fork :: List.replicate 26 (.exec 0)

/-- A call of `fork` in which there is no memory for the new process. -/
def forkFailed : List Act := forkAlloc ++ Act.fail 0 :: List.replicate 11 (Act.exec 0)

def blank : Slot := ⟨.unused, none, false, 0, 0, none, -1⟩

def idle (s : State) (v : Int) (log : List Event) : State :=
  solo s ⟨0, true, true⟩ ⟨[], 0, some true⟩ blank s.lock v log

theorem idle_self (hh : s.hart 0 = ⟨⟨0, true, true⟩, some 0, .proc 0, none⟩)
    (ht : s.thread (.proc 0) = ⟨[], 0, some true⟩) (hx : s.slot 1 = blank) : idle s s.nextpid s.log = s := by
  rw [idle, solo, ← hh, ← ht, ← hx]
  simp only [update_eq_self]

structure Quiet (s : State) : Prop where
  killed : (s.slot 0).killed = false
  used : (s.slot 0).state ≠ .unused
  zero : s.lock (.proc 0) = none
  one : s.lock (.proc 1) = none
  pid : s.lock .pid = none

variable (hq : Quiet s)

include hq

theorem fork_enters : exec (step 2) (idle s v log) (Act.ecall 0 .fork :: List.replicate 11 (Act.exec 0) ++ as) =
    exec (step 2) (solo s ⟨0, true, true⟩ ⟨.allocScan 0 .fork 0 :: (killedCheck 0 ++ usertrapret), 0, some true⟩
      blank s.lock v log) as := by
  simp only [List.replicate, cons_append, nil_append]
  rw [idle, exec_ecall, syscallTrap, Call.code]
  simp only [append_assoc, cons_append, Cpu.setSie]
  rw [exec_myproc, exec_killedCheck hq.killed hq.zero, exec_intrOn, Cpu.setSie, exec_myproc, exec_myproc]
  rfl

theorem fork_allocates : exec (step 2) (idle s v log) (forkAlloc ++ as) =
    exec (step 2) (solo s ⟨1, true, false⟩ ⟨.allocMem 0 .fork 1 v :: (killedCheck 0 ++ usertrapret), 1, some true⟩
      { blank with pid := v, state := .used } (update s.lock (.proc 1) (some 0)) (bump v)
      (log ++ [Event.alloc 1 v])) as := by
  have hpid : update s.lock (.proc 1) (some 0) .pid = none := hq.pid
  change exec (step 2) (idle s v log)
    (Act.ecall 0 .fork :: List.replicate 11 (Act.exec 0) ++ (List.replicate 15 (Act.exec 0) ++ as)) = _
  rw [fork_enters hq]
  simp only [List.replicate, cons_append, nil_append]
  rw [exec_allocScan (by decide), exec_acquire, exec_spin hq.zero, exec_allocTest_busy hq.used,
    exec_release hq.zero rfl, exec_allocScan (by decide), exec_acquire, exec_spin hq.one, exec_allocTest_unused rfl,
    exec_acquire, exec_spin hpid, exec_allocpid, exec_release hpid rfl, exec_allocSet]
  rfl

theorem fork_fails : exec (step 2) (idle s v log) (forkFailed ++ as) =
    exec (step 2) (idle s (bump v) (log ++ [Event.alloc 1 v])) as := by
  rw [forkFailed, append_assoc, fork_allocates hq]
  simp only [List.replicate, cons_append, nil_append]
  rw [exec_allocMem_fail, exec_freeproc, exec_release hq.one rfl, exec_ret]
  change exec (step 2) (solo s ⟨0, true, true⟩ ⟨killedCheck 0 ++ usertrapret, 0, some true⟩ blank s.lock _ _) _ = _
  rw [exec_killedCheck hq.killed hq.zero, usertrapret, exec_myproc, exec_intrOff, exec_userRet]
  rfl

theorem forks_fail (k : Nat) (v : Int) (log : List Event) :
    ∃ as log', exec (step 2) (idle s v log) as = some (idle s (bump^[k] v) log') := by
  induction k generalizing v log with
  | zero => exact ⟨[], log, rfl⟩
  | succ k ih =>
    obtain ⟨as, log', has⟩ := ih (bump v) (log ++ [Event.alloc 1 v])
    exact ⟨forkFailed ++ as, log', by rw [fork_fails hq, has, iterate_succ_apply]⟩

end Fork

section Wrap

theorem bump_eq (hl : -2 ^ 31 ≤ v) (hb : v + 1 < 2 ^ 31) : bump v = v + 1 := by
  rw [bump, Int.bmod]
  omega

theorem bump_iterate (k : Nat) (hl : -2 ^ 31 ≤ v) (hb : v + k < 2 ^ 31) : bump^[k] v = v + k := by
  induction k with
  | zero => simp
  | succ k ih =>
    rw [iterate_succ_apply', ih (by omega), bump_eq (by omega) (by omega)]
    omega

/-- The first process has come to user mode and one `fork` has failed. -/
def settled : List Act := ProcessSched.toUser ++ forkFailed

theorem settled_idle : ∃ s log, exec (step 2) boot settled = some (idle s 3 log) ∧ Quiet s ∧ (s.slot 0).pid = 1 := by
  have hall : (exec (step 2) boot settled).any (fun s => decide (
      (s.hart 0 = ⟨⟨0, true, true⟩, some 0, .proc 0, none⟩ ∧ s.thread (.proc 0) = ⟨[], 0, some true⟩ ∧
        s.slot 1 = blank ∧ s.nextpid = 3) ∧
      ((s.slot 0).killed = false ∧ (s.slot 0).state ≠ .unused ∧ s.lock (.proc 0) = none ∧ s.lock (.proc 1) = none ∧
        s.lock .pid = none) ∧ (s.slot 0).pid = 1)) = true := by decide +kernel
  obtain ⟨s, hs, hd⟩ := (any_eq_true _ _).mp hall
  obtain ⟨⟨hh, ht, hx, hn⟩, ⟨hk, hu, h0, h1, hp⟩, hpid⟩ := of_decide_eq_true hd
  refine ⟨s, s.log, ?_, ⟨hk, hu, h0, h1, hp⟩, hpid⟩
  rw [hs, ← hn, idle_self hh ht hx]

/-- Every pid comes round: the first process still has its own when `allocproc`
hands out the one that follows 3 by `k`. -/
theorem forks_reach (k : Nat) : ∃ r : Run (step 2), r.state 0 = boot ∧
    ((r.state r.length).slot 0).state ≠ .unused ∧ ((r.state r.length).slot 0).pid = 1 ∧
    ((r.state r.length).slot 1).state = .used ∧ ((r.state r.length).slot 1).pid = bump^[k] 3 := by
  obtain ⟨s, log, hboot, hq, hpid⟩ := settled_idle
  obtain ⟨as, log', has⟩ := forks_fail hq k 3 log
  have hreach : ∃ t, exec (step 2) boot (settled ++ (as ++ (forkAlloc ++ []))) = some t ∧ t.slot 0 = s.slot 0 ∧
      t.slot 1 = { blank with pid := bump^[k] 3, state := .used } := by
    rw [exec_append, hboot, bind_some, exec_append, has, bind_some, fork_allocates hq]
    exact ⟨_, rfl, solo_slot_zero, solo_slot_one⟩
  obtain ⟨t, hexec, hzero, hone⟩ := hreach
  obtain ⟨r, h0, hend⟩ := exists_run hexec
  refine ⟨r, h0, ?_⟩
  rw [hend, hzero, hone]
  exact ⟨hq.used, hpid, rfl, rfl⟩

end Wrap

end Xv6Rcu.ProcessSolo

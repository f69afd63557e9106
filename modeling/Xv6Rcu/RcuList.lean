import Xv6Rcu.Links
import Xv6Rcu.Transition

namespace Xv6Rcu.RcuList

open Transition Links Function Option

abbrev Addr := Nat

abbrev Hart := Fin 3

/-- The list of `klinkedlist.c` in its RCU form. A node is one allocation: a
page that is handed out again is another node. `kfreed` counts how often the
node was passed to `kfree`; `holder` is the process in `list_lock`. -/
structure Mem (n : Nat) where
  head : Option Addr
  data : Addr → Int
  next : Addr → Option Addr
  holder : Option (Fin n)
  alloc : Addr → Bool
  kfreed : Addr → Nat

inductive Call where
  | insert (newData : Int)
  | deleteNode (key : Int)
  | search (key : Int)

/-- Where a process stands between two steps, with the locals it still uses.
`acquire` is split into its `push_off` and the spin; `sync` is a call of
`synchronize_rcu` that has not returned; `fault` is a null dereference. -/
inductive Pc where
  | idle (res : Option Addr)
  | fault
  | insAlloc (newData : Int)
  | insAcquire (new : Addr)
  | insSpin (new : Addr)
  | insLink (new : Addr)
  | insRelease (new : Addr)
  | insCallSync (new : Addr)
  | insSync (new : Addr)
  | insPublish (new : Addr)
  | delLoad (key : Int)
  | delAcquire (key : Int) (temp : Option Addr)
  | delSpin (key : Int) (temp : Option Addr)
  | delHead (key : Int) (temp : Addr)
  | delHeadNext (temp : Addr)
  | delHeadStore (temp : Addr) (nxt : Option Addr)
  | delTest (key : Int) (temp : Addr) (prev : Option Addr)
  | delMove (key : Int) (temp : Addr)
  | delNone
  | delNext (temp : Addr) (prev : Option Addr)
  | delUnlink (temp : Addr) (prev nxt : Option Addr)
  | delRelease (temp : Addr)
  | delCallSync (temp : Addr)
  | delSync (temp : Addr)
  | delFree (temp : Addr)
  | seaLoad (key : Int)
  | seaEnter (key : Int) (current : Option Addr)
  | seaTest (key : Int) (current : Addr)
  | seaMove (key : Int) (current : Addr)
  | seaExit (res : Option Addr)
  deriving DecidableEq

def Call.entry : Call → Pc
  | .insert newData => .insAlloc newData
  | .deleteNode key => .delLoad key
  | .search key => .seaLoad key

namespace Pc

def isIdle : Pc → Bool
  | .idle _ => true
  | _ => false

/-- Inside `list_lock`. -/
def holds : Pc → Bool
  | .insLink _ | .insRelease _ | .delHead _ _ | .delHeadNext _ | .delHeadStore _ _ | .delTest _ _ _
  | .delMove _ _ | .delNone | .delNext _ _ | .delUnlink _ _ _ | .delRelease _ => true
  | _ => false

def reading : Pc → Bool
  | .seaTest _ _ | .seaMove _ _ | .seaExit _ => true
  | _ => false

/-- Interrupts are off: the process cannot be preempted here. -/
def masked : Pc → Bool
  | .fault | .insSpin _ | .delSpin _ _ => true
  | p => p.holds || p.reading

end Pc

namespace Mem

variable {n : Nat}

def setNext (m : Mem n) (a : Addr) (v : Option Addr) : Mem n :=
  { m with next := update m.next a v }

def setHead (m : Mem n) (v : Option Addr) : Mem n := { m with head := v }

def setHolder (m : Mem n) (h : Option (Fin n)) : Mem n := { m with holder := h }

/-- The node `insert` builds in the page that `kalloc` handed out. -/
def newNode (m : Mem n) (a : Addr) (newData : Int) : Mem n :=
  { m with data := update m.data a newData, alloc := update m.alloc a true }

/-- `kfree` counts the node and overwrites its page. -/
def kfree (m : Mem n) (a : Addr) (junk : Int) (junkNext : Option Addr) : Mem n :=
  { m with data := update m.data a junk, next := update m.next a junkNext,
           kfreed := update m.kfreed a (m.kfreed a + 1) }

end Mem

/-- The test `temp != 0` after the lock is taken, and of the loop. -/
def headAt (key : Int) : Option Addr → Pc
  | none => .delNone
  | some a => .delHead key a

def loopAt (key : Int) (prev : Option Addr) : Option Addr → Pc
  | none => .delNone
  | some a => .delTest key a prev

/-- The loop head of `search`. -/
def searchAt (key : Int) : Option Addr → Pc
  | none => .seaExit none
  | some a => .seaTest key a

variable {n : Nat}

/-- The steps of process `t` that touch the list and its lock. -/
def advance (m : Mem n) (t : Fin n) : Pc → Option (Mem n × Pc)
  | .insAcquire new => some (m, .insSpin new)
  | .insSpin new =>
    match m.holder with
    | none => some (m.setHolder (some t), .insLink new)
    | some _ => some (m, .insSpin new)
  | .insLink new => some (m.setNext new m.head, .insRelease new)
  | .insRelease new => some (m.setHolder none, .insCallSync new)
  | .insPublish new => some (m.setHead (some new), .idle none)
  | .delLoad key => some (m, .delAcquire key m.head)
  | .delAcquire key temp => some (m, .delSpin key temp)
  | .delSpin key temp =>
    match m.holder with
    | none => some (m.setHolder (some t), headAt key temp)
    | some _ => some (m, .delSpin key temp)
  | .delHead key temp => some (m, if m.data temp = key then .delHeadNext temp else .delTest key temp none)
  | .delHeadNext temp => some (m, .delHeadStore temp (m.next temp))
  | .delHeadStore temp nxt => some (m.setHead nxt, .delRelease temp)
  | .delTest key temp prev =>
    some (m, if m.data temp = key then .delNext temp prev else .delMove key temp)
  | .delMove key temp => some (m, loopAt key (some temp) (m.next temp))
  | .delNone => some (m.setHolder none, .idle none)
  | .delNext temp prev => some (m, .delUnlink temp prev (m.next temp))
  | .delUnlink temp prev nxt =>
    match prev with
    | none => some (m, .fault)
    | some p => some (m.setNext p nxt, .delRelease temp)
  | .delRelease temp => some (m.setHolder none, .delCallSync temp)
  | .seaLoad key => some (m, .seaEnter key m.head)
  | .seaEnter key current => some (m, searchAt key current)
  | .seaTest key current => some (m, if m.data current = key then .seaExit (some current) else .seaMove key current)
  | .seaMove key current => some (m, searchAt key (m.next current))
  | _ => none

/-- `cpu` says which process runs on each hart. `waits t` are the read-side
sections that were open when the call of `synchronize_rcu` of `t` started and
have not been closed since. -/
structure State (n : Nat) where
  mem : Mem n
  pc : Fin n → Pc
  waits : Fin n → Finset (Fin n)
  cpu : Hart → Option (Fin n)

inductive Act (n : Nat) where
  | dispatch (h : Hart) (t : Fin n)
  | preempt (h : Hart)
  | call (h : Hart) (c : Call)
  | kalloc (h : Hart) (a : Addr)
  | kfree (h : Hart) (junk : Int) (junkNext : Option Addr)
  | run (h : Hart)

instance : Inhabited (Act n) := ⟨.run 0⟩

def Act.switches : Act n → Prop
  | .dispatch _ _ | .preempt _ => True
  | _ => False

def sections (pc : Fin n → Pc) : Finset (Fin n) := Finset.univ.filter (fun u => (pc u).reading = true)

namespace State

def setPc (s : State n) (t : Fin n) (p : Pc) : State n := { s with pc := update s.pc t p }

def callSync (s : State n) (t : Fin n) (p : Pc) : State n :=
  { s with pc := update s.pc t p, waits := update s.waits t (sections s.pc) }

def closeSection (s : State n) (t : Fin n) (p : Pc) : State n :=
  { s with pc := update s.pc t p, waits := fun u => (s.waits u).erase t }

end State

/-- A step of process `t`. A grace period ends when every section it waits for
has been closed. -/
def runProcess (s : State n) (t : Fin n) : Option (State n) :=
  match s.pc t with
  | .insCallSync new => some (s.callSync t (.insSync new))
  | .delCallSync temp => some (s.callSync t (.delSync temp))
  | .insSync new => if s.waits t = ∅ then some (s.setPc t (.insPublish new)) else none
  | .delSync temp => if s.waits t = ∅ then some (s.setPc t (.delFree temp)) else none
  | .seaExit res => some (s.closeSection t (.idle res))
  | p => (advance s.mem t p).map (fun r => { s.setPc t r.2 with mem := r.1 })

def kallocProcess (s : State n) (t : Fin n) (a : Addr) : Option (State n) :=
  match s.pc t with
  | .insAlloc x =>
    if s.mem.alloc a then none else some { s.setPc t (.insAcquire a) with mem := s.mem.newNode a x }
  | _ => none

def kfreeProcess (s : State n) (t : Fin n) (junk : Int) (junkNext : Option Addr) : Option (State n) :=
  match s.pc t with
  | .delFree v => some { s.setPc t (.idle none) with mem := s.mem.kfree v junk junkNext }
  | _ => none

def step : Step (State n) (Act n)
  | s, .dispatch h t =>
    if s.cpu h = none ∧ ∀ g, s.cpu g ≠ some t then
      some { s with cpu := update s.cpu h (some t) } else none
  | s, .preempt h =>
    match s.cpu h with
    | none => none
    | some t => if (s.pc t).masked then none else some { s with cpu := update s.cpu h none }
  | s, .call h c =>
    (s.cpu h).bind (fun t => if (s.pc t).isIdle then some (s.setPc t c.entry) else none)
  | s, .kalloc h a => (s.cpu h).bind (fun t => kallocProcess s t a)
  | s, .kfree h junk junkNext => (s.cpu h).bind (fun t => kfreeProcess s t junk junkNext)
  | s, .run h => (s.cpu h).bind (runProcess s)

/-- What a step of a process can do. -/
inductive Moves (s : State n) (t : Fin n) : Act n → State n → Prop
  | call (h : Hart) (c : Call) : (s.pc t).isIdle = true → Moves s t (.call h c) (s.setPc t c.entry)
  | kalloc (h : Hart) (x : Int) (a : Addr) : s.pc t = .insAlloc x → s.mem.alloc a = false →
      Moves s t (.kalloc h a) { s.setPc t (.insAcquire a) with mem := s.mem.newNode a x }
  | kfree (h : Hart) (v : Addr) (d : Int) (x : Option Addr) : s.pc t = .delFree v →
      Moves s t (.kfree h d x) { s.setPc t (.idle none) with mem := s.mem.kfree v d x }
  | insCallSync (h : Hart) (new : Addr) : s.pc t = .insCallSync new →
      Moves s t (.run h) (s.callSync t (.insSync new))
  | delCallSync (h : Hart) (v : Addr) : s.pc t = .delCallSync v →
      Moves s t (.run h) (s.callSync t (.delSync v))
  | insSync (h : Hart) (new : Addr) : s.pc t = .insSync new → s.waits t = ∅ →
      Moves s t (.run h) (s.setPc t (.insPublish new))
  | delSync (h : Hart) (v : Addr) : s.pc t = .delSync v → s.waits t = ∅ →
      Moves s t (.run h) (s.setPc t (.delFree v))
  | exit (h : Hart) (res : Option Addr) : s.pc t = .seaExit res →
      Moves s t (.run h) (s.closeSection t (.idle res))
  | advance (h : Hart) (r : Mem n × Pc) : s.cpu h = some t →
      RcuList.advance s.mem t (s.pc t) = some r →
      Moves s t (.run h) { s.setPc t r.2 with mem := r.1 }

theorem runProcess_moves {s s' : State n} {t : Fin n} {h : Hart} (hcpu : s.cpu h = some t)
    (hs : runProcess s t = some s') : Moves s t (.run h) s' := by
  unfold runProcess at hs
  split at hs
  case h_1 new hp =>
    cases hs
    exact .insCallSync h new hp
  case h_2 v hp =>
    cases hs
    exact .delCallSync h v hp
  case h_3 new hp =>
    obtain ⟨hw, hs⟩ := ite_none_right_eq_some.mp hs
    cases hs
    exact .insSync h new hp hw
  case h_4 v hp =>
    obtain ⟨hw, hs⟩ := ite_none_right_eq_some.mp hs
    cases hs
    exact .delSync h v hp hw
  case h_5 res hp =>
    cases hs
    exact .exit h res hp
  case h_6 =>
    obtain ⟨r, hr, rfl⟩ := map_eq_some_iff.mp hs
    exact .advance h r hcpu hr

/-- The scheduler's steps change neither the list nor the places of the
processes; every other step is a step of one process. -/
theorem step_cases {s s' : State n} {a : Act n} (hs : step s a = some s') :
    (a.switches ∧ s'.mem = s.mem ∧ s'.pc = s.pc ∧ s'.waits = s.waits) ∨ ∃ t, Moves s t a s' := by
  cases a with
  | dispatch h t =>
    obtain ⟨-, hs⟩ := ite_none_right_eq_some.mp hs
    cases hs
    exact .inl ⟨trivial, rfl, rfl, rfl⟩
  | preempt h =>
    cases hc : s.cpu h <;> simp only [step, hc, reduceCtorEq] at hs
    obtain ⟨-, hs⟩ := ite_none_left_eq_some.mp hs
    cases hs
    exact .inl ⟨trivial, rfl, rfl, rfl⟩
  | call h c =>
    obtain ⟨t, -, hs⟩ := bind_eq_some_iff.mp hs
    obtain ⟨hidle, hs⟩ := ite_none_right_eq_some.mp hs
    cases hs
    exact .inr ⟨t, .call h c hidle⟩
  | kalloc h a =>
    obtain ⟨t, -, hs⟩ := bind_eq_some_iff.mp hs
    cases hp : s.pc t <;> simp only [kallocProcess, hp, reduceCtorEq] at hs
    obtain ⟨ha, hs⟩ := ite_none_left_eq_some.mp hs
    cases hs
    exact .inr ⟨t, .kalloc h _ a hp (by simpa using ha)⟩
  | kfree h d x =>
    obtain ⟨t, -, hs⟩ := bind_eq_some_iff.mp hs
    cases hp : s.pc t <;> simp only [kfreeProcess, hp, reduceCtorEq] at hs
    cases hs
    exact .inr ⟨t, .kfree h _ d x hp⟩
  | run h =>
    obtain ⟨t, hcpu, hs⟩ := bind_eq_some_iff.mp hs
    exact .inr ⟨t, runProcess_moves hcpu hs⟩

/-- The list that `init_list` creates in the page `a`. -/
def initList (a : Addr) : Mem n where
  head := some a
  data := fun _ => 0
  next := fun _ => none
  holder := none
  alloc := fun b => b = a
  kfreed := fun _ => 0

/-- Nobody runs and every process is between two calls. -/
def start (m : Mem n) : State n := ⟨m, fun _ => .idle none, fun _ => ∅, fun _ => none⟩

def Quiet (s : State n) : Prop := ∀ t, (s.pc t).isIdle = true

instance (s : State n) : Decidable (Quiet s) :=
  inferInstanceAs (Decidable (∀ t, (s.pc t).isIdle = true))

end Xv6Rcu.RcuList

import Xv6Rcu.Links
import Xv6Rcu.RwLock

namespace Xv6Rcu.LockList

open Transition RwLock Function

abbrev Addr := Nat

/-- The list of `klinkedlist.c` in its locking form: `head_ref` and the three
fields of every node. A node's lock page is never shared or replaced, so the
lock is kept with the node; a null pointer is `none`. -/
structure Mem where
  head : Option Addr
  data : Addr → Int
  next : Addr → Option Addr
  lock : Addr → ReaderWriterLock
  alloc : Addr → Bool

inductive Call where
  | insertLock (newData : Int)
  | deleteNodeLock (key : Int)
  | searchLock (key : Int)

/-- Where a thread stands between two memory accesses, with the local
variables it still uses. `idle` keeps the result of the last `search_lock`;
`fault` is a null pointer dereference, from which the kernel panics. -/
inductive Pc where
  | idle (res : Option Addr)
  | fault
  | insAlloc (newData : Int)
  | insLock (new : Addr)
  | insWrite (q : RwLock.Pc) (new lk : Addr)
  | insLink (new : Addr)
  | insPublish (new : Addr)
  | insReload (new : Addr)
  | insNext (h : Addr)
  | insUnlock (lk : Addr)
  | delLoad (key : Int)
  | delWrite (q : RwLock.Pc) (key : Int) (temp : Addr)
  | delHead (key : Int) (temp : Addr)
  | delHeadNext (temp : Addr)
  | delHeadStore (temp : Addr) (nxt : Option Addr)
  | delHeadUnlock (temp : Addr)
  | delTest (key : Int) (temp : Addr) (prev : Option Addr)
  | delPeek (key : Int) (temp : Addr) (prev : Option Addr)
  | delReload (key : Int) (temp : Addr)
  | delNextWrite (q : RwLock.Pc) (key : Int) (temp nxt : Addr)
  | delPass (key : Int) (temp : Addr)
  | delMove (key : Int) (temp : Addr)
  | delLast (temp : Addr) (prev : Option Addr)
  | delNone (prev : Addr)
  | delNext (temp : Addr) (prev : Option Addr)
  | delUnlink (temp : Addr) (prev nxt : Option Addr)
  | delUnlockPrev (temp prev : Addr)
  | delUnlockTemp (temp : Addr)
  | seaLoad (key : Int)
  | seaRead (q : RwLock.Pc) (key : Int) (current : Addr)
  | seaTest (key : Int) (current : Addr)
  | seaFound (current : Addr)
  | seaPass (key : Int) (current : Addr)
  | seaMove (key : Int) (current : Addr)
  deriving DecidableEq

def Call.entry : Call → Pc
  | .insertLock newData => .insAlloc newData
  | .deleteNodeLock key => .delLoad key
  | .searchLock key => .seaLoad key

def Pc.isIdle : Pc → Bool
  | .idle _ => true
  | _ => false

/-- The node the thread has built and not yet published. -/
def fresh : Pc → Option Addr
  | .insLock new | .insWrite _ new _ | .insLink new | .insPublish new => some new
  | _ => none

namespace Mem

def withLock (m : Mem) (lock : Addr → ReaderWriterLock) : Mem := { m with lock := lock }

def setLock (m : Mem) (a : Addr) (l : ReaderWriterLock) : Mem :=
  m.withLock (update m.lock a l)

def setNext (m : Mem) (a : Addr) (v : Option Addr) : Mem :=
  { m with next := update m.next a v }

def setHead (m : Mem) (v : Option Addr) : Mem := { m with head := v }

def writeUnlock (m : Mem) (a : Addr) : Mem := m.setLock a (m.lock a).release

def readUnlock (m : Mem) (a : Addr) : Mem := m.setLock a (m.lock a).subReader

theorem setLock_self (m : Mem) (a : Addr) : m.setLock a (m.lock a) = m := by
  simp [setLock, withLock]

end Mem

/-- One atomic step inside `write_lock` or `read_lock` on the lock of node
`a`; the call is over when the thread stands inside. -/
def lockStep (m : Mem) (a : Addr) (q : RwLock.Pc) (stay : RwLock.Pc → Pc) (inside : Pc) :
    Option (Mem × Pc) :=
  (RwLock.advance (m.lock a) q).map (fun r =>
    (m.setLock a r.1, if r.2 = .writing ∨ r.2 = .reading then inside else stay r.2))

/-- The places inside `write_lock`. -/
def Writes (q : RwLock.Pc) : Prop := q = .writeSet ∨ q = .writeSpin ∨ q = .writeDrain

/-- What a step inside `write_lock` can do: only the winning test-and-set
changes the lock. -/
theorem lockStep_write {m : Mem} {a : Addr} {q : RwLock.Pc} {stay : RwLock.Pc → Pc} {inside : Pc}
    (hq : Writes q) {r : Mem × Pc} (hr : lockStep m a q stay inside = some r) :
    (q ≠ .writeDrain ∧ (r = (m, stay .writeSpin) ∨ r = (m, stay .writeSet))) ∨
      (q = .writeSet ∧ (m.lock a).writer = false ∧
        r = (m.setLock a (m.lock a).testAndSet, stay .writeDrain)) ∨
      (q = .writeDrain ∧ (r = (m, inside) ∨ r = (m, stay .writeDrain))) := by
  obtain rfl | rfl | rfl := hq
  · by_cases hw : (m.lock a).writer = true
    · simp only [lockStep, RwLock.advance, hw, if_true, Option.map_some, Option.some.injEq,
        reduceCtorEq, or_self, if_false, ReaderWriterLock.testAndSet_of_writer hw,
        Mem.setLock_self] at hr
      exact .inl ⟨by simp, .inl hr.symm⟩
    · have hf : (m.lock a).writer = false := by simpa using hw
      simp only [lockStep, RwLock.advance, hf, Bool.false_eq_true, Option.map_some,
        Option.some.injEq, reduceCtorEq, or_self, if_false] at hr
      exact .inr (.inl ⟨rfl, hf, hr.symm⟩)
  · by_cases hw : (m.lock a).writer = true <;>
      simp only [lockStep, RwLock.advance, hw, if_true, Bool.false_eq_true, Option.map_some,
        Option.some.injEq, reduceCtorEq, or_self, if_false, Mem.setLock_self] at hr
    · exact .inl ⟨by simp, .inl hr.symm⟩
    · exact .inl ⟨by simp, .inr hr.symm⟩
  · by_cases hz : (m.lock a).readers = 0 <;>
      simp only [lockStep, RwLock.advance, hz, if_true, if_false, Option.map_some, true_or,
        Option.some.injEq, reduceCtorEq, or_self, Mem.setLock_self] at hr
    · exact .inr (.inr ⟨rfl, .inl hr.symm⟩)
    · exact .inr (.inr ⟨rfl, .inr hr.symm⟩)

theorem lockStep_cases {m : Mem} {a : Addr} {q : RwLock.Pc} {stay : RwLock.Pc → Pc} {inside : Pc}
    {r : Mem × Pc} (hr : lockStep m a q stay inside = some r) :
    (∃ lock, r.1 = m.withLock lock) ∧ (r.2 = inside ∨ ∃ q', r.2 = stay q') := by
  obtain ⟨x, -, rfl⟩ := Option.map_eq_some_iff.mp hr
  refine ⟨⟨_, rfl⟩, ?_⟩
  by_cases hx : x.2 = .writing ∨ x.2 = .reading
  · exact .inl (if_pos hx)
  · exact .inr ⟨x.2, if_neg hx⟩

/-- The places inside `read_lock`. -/
def Reading (q : RwLock.Pc) : Prop :=
  q = .readAdd ∨ q = .readCheck ∨ q = .readCancel ∨ q = .readWait

theorem lockStep_read {m : Mem} {a : Addr} {q : RwLock.Pc} {stay : RwLock.Pc → Pc} {inside : Pc}
    (hq : Reading q) {r : Mem × Pc} (hr : lockStep m a q stay inside = some r) :
    r.2 = inside ∨ ∃ q', Reading q' ∧ r.2 = stay q' := by
  by_cases hw : (m.lock a).writer = true <;> obtain rfl | rfl | rfl | rfl := hq <;>
    simp [lockStep, RwLock.advance, hw] at hr <;> subst r <;> simp [Reading]

/-- The loop head of `search_lock`. -/
def searchAt (key : Int) : Option Addr → Pc
  | none => .idle none
  | some c => .seaRead .readAdd key c

def advance (m : Mem) : Pc → Option (Mem × Pc)
  | .idle _ | .fault | .insAlloc _ => none
  | .insLock new =>
    match m.head with
    | none => some (m, .fault)
    | some h => some (m, .insWrite .writeSet new h)
  | .insWrite q new lk => lockStep m lk q (fun q => .insWrite q new lk) (.insLink new)
  | .insLink new => some (m.setNext new m.head, .insPublish new)
  | .insPublish new => some (m.setHead (some new), .insReload new)
  | .insReload _ =>
    match m.head with
    | none => some (m, .fault)
    | some h => some (m, .insNext h)
  | .insNext h =>
    match m.next h with
    | none => some (m, .fault)
    | some lk => some (m, .insUnlock lk)
  | .insUnlock lk => some (m.writeUnlock lk, .idle none)
  | .delLoad key =>
    match m.head with
    | none => some (m, .fault)
    | some t => some (m, .delWrite .writeSet key t)
  | .delWrite q key temp => lockStep m temp q (fun q => .delWrite q key temp) (.delHead key temp)
  | .delHead key temp => some (m, if m.data temp = key then .delHeadNext temp else .delTest key temp none)
  | .delHeadNext temp => some (m, .delHeadStore temp (m.next temp))
  | .delHeadStore temp nxt => some (m.setHead nxt, .delHeadUnlock temp)
  | .delHeadUnlock temp => some (m.writeUnlock temp, .idle none)
  | .delTest key temp prev =>
    some (m, if m.data temp = key then .delNext temp prev else .delPeek key temp prev)
  | .delPeek key temp prev =>
    match m.next temp with
    | none => some (m, .delLast temp prev)
    | some _ => some (m, .delReload key temp)
  | .delReload key temp =>
    match m.next temp with
    | none => some (m, .fault)
    | some nxt => some (m, .delNextWrite .writeSet key temp nxt)
  | .delNextWrite q key temp nxt =>
    lockStep m nxt q (fun q => .delNextWrite q key temp nxt) (.delPass key temp)
  | .delPass key temp => some (m.writeUnlock temp, .delMove key temp)
  | .delMove key temp =>
    match m.next temp with
    | none => some (m, .delNone temp)
    | some nxt => some (m, .delTest key nxt (some temp))
  | .delLast temp prev => some (m.writeUnlock temp, .delNext temp prev)
  | .delNone prev => some (m.writeUnlock prev, .idle none)
  | .delNext temp prev => some (m, .delUnlink temp prev (m.next temp))
  | .delUnlink temp prev nxt =>
    match prev with
    | none => some (m, .fault)
    | some p => some (m.setNext p nxt, .delUnlockPrev temp p)
  | .delUnlockPrev temp prev => some (m.writeUnlock prev, .delUnlockTemp temp)
  | .delUnlockTemp temp => some (m.writeUnlock temp, .idle none)
  | .seaLoad key => some (m, searchAt key m.head)
  | .seaRead q key current => lockStep m current q (fun q => .seaRead q key current) (.seaTest key current)
  | .seaTest key current => some (m, if m.data current = key then .seaFound current else .seaPass key current)
  | .seaFound current => some (m.readUnlock current, .idle (some current))
  | .seaPass key current => some (m.readUnlock current, .seaMove key current)
  | .seaMove key current => some (m, searchAt key (m.next current))

theorem lockStep_data {m : Mem} {a : Addr} {q : RwLock.Pc} {stay : RwLock.Pc → Pc} {inside : Pc}
    {r : Mem × Pc} (hr : lockStep m a q stay inside = some r) : r.1.data = m.data := by
  obtain ⟨⟨lock, hlock⟩, -⟩ := lockStep_cases hr
  rw [hlock]
  rfl

theorem advance_data {m : Mem} {p : Pc} {r : Mem × Pc} (hr : advance m p = some r) :
    r.1.data = m.data := by
  unfold advance at hr
  split at hr <;> try split at hr
  all_goals first
    | exact lockStep_data hr
    | exact congrArg (fun r => r.1.data) (Option.some.inj hr).symm
    | exact absurd hr (Option.some_ne_none r).symm

/-- The node `insert_lock` builds in the page that `kalloc` handed out. -/
def Mem.newNode (m : Mem) (a : Addr) (newData : Int) : Mem :=
  { m with data := update m.data a newData,
           lock := update m.lock a rwLockInit,
           alloc := update m.alloc a true }

structure State (n : Nat) where
  mem : Mem
  pc : Fin n → Pc

inductive Act (n : Nat) where
  | call (t : Fin n) (c : Call)
  | kalloc (t : Fin n) (a : Addr)
  | run (t : Fin n)

instance {n : Nat} [NeZero n] : Inhabited (Act n) := ⟨.run 0⟩

def kallocStep (m : Mem) (a : Addr) : Pc → Option (Mem × Pc)
  | .insAlloc newData => if m.alloc a then none else some (m.newNode a newData, .insLock a)
  | _ => none

def step {n : Nat} : Step (State n) (Act n)
  | s, .call t c => if (s.pc t).isIdle then some ⟨s.mem, update s.pc t c.entry⟩ else none
  | s, .kalloc t a => (kallocStep s.mem a (s.pc t)).map (fun q => ⟨q.1, update s.pc t q.2⟩)
  | s, .run t => (advance s.mem (s.pc t)).map (fun q => ⟨q.1, update s.pc t q.2⟩)

theorem pc_call {n : Nat} {s s' : State n} {t : Fin n} {c : Call} (hs : step s (.call t c) = some s') :
    s'.pc t = c.entry := by
  simp only [step, Option.ite_none_right_eq_some, Option.some.injEq] at hs
  rw [← hs.2]
  exact update_self _ _ _

/-- The list that `init_list_lock` creates in the page `a`. -/
def initListLock (a : Addr) : Mem where
  head := some a
  data := fun _ => 0
  next := fun _ => none
  lock := fun _ => rwLockInit
  alloc := fun b => b = a

def Quiet {n : Nat} (s : State n) : Prop := ∀ t, (s.pc t).isIdle = true

instance {n : Nat} (s : State n) : Decidable (Quiet s) :=
  inferInstanceAs (Decidable (∀ t, (s.pc t).isIdle = true))

end Xv6Rcu.LockList

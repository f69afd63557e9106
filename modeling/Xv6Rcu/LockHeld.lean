import Xv6Rcu.LockList

namespace Xv6Rcu.LockHeld

open Transition LockList Function Finset

section Model

/-- The node whose write lock a thread waits for. -/
def asks : Pc → Option Addr
  | .insWrite _ _ a | .delWrite _ _ a | .delNextWrite _ _ _ a => some a
  | _ => none

/-- The node on whose lock a thread calls `write_unlock`. -/
def gives : Pc → Option Addr
  | .insUnlock a | .delHeadUnlock a | .delPass _ a | .delLast a _ | .delNone a | .delUnlockPrev _ a
  | .delUnlockTemp a => some a
  | _ => none

/-- The write locks of a thread after its step from `p` to `q`. A lock is its own
from the return of `write_lock` on, until it calls `write_unlock`. -/
def track (own : Finset Addr) (p q : Pc) : Finset Addr :=
  match asks p, gives p with
  | some a, _ => if asks q = none then insert a own else own
  | none, some a => own.erase a
  | none, none => own

structure Owned (n : Nat) where
  sys : State n
  own : Fin n → Finset Addr

def thread {n : Nat} : Act n → Fin n
  | .call t _ | .kalloc t _ | .run t => t

def ownedStep {n : Nat} : Step (Owned n) (Act n) := fun s a =>
  (step s.sys a).map (fun t =>
    ⟨t, update s.own (thread a) (track (s.own (thread a)) (s.sys.pc (thread a)) (t.pc (thread a)))⟩)

def start {n : Nat} (m : Mem) : Owned n := ⟨⟨m, fun _ => .idle none⟩, fun _ => ∅⟩

/-- What `deleteNode_lock` must hold at a store to a link and at `write_unlock`. -/
def Disciplined (m : Mem) (own : Finset Addr) : Pc → Prop
  | .delHeadStore _ _ => ∀ h ∈ m.head, h ∈ own
  | .delUnlink _ (some prev) _ => prev ∈ own
  | .delHeadUnlock a | .delPass _ a | .delLast a _ | .delNone a | .delUnlockPrev _ a | .delUnlockTemp a => a ∈ own
  | _ => True

/-- The places of a call that has not gone past the node that it locked first. -/
def AtFirst : Pc → Prop
  | .delLoad _ | .delWrite _ _ _ | .delHead _ _ | .delHeadNext _ | .delHeadStore _ _ | .delHeadUnlock _ => True
  | _ => False

end Model

section Runs

variable {n : Nat} {own : Finset Addr} {m : Mem} {p : Pc}

def Owns (own : Finset Addr) : Pc → Prop
  | .delHead _ a | .delHeadNext a | .delHeadStore a _ | .delHeadUnlock a => a ∈ own
  | _ => True

theorem owns_searchAt (key : Int) (c : Option Addr) : Owns own (searchAt key c) := by
  cases c <;> trivial

theorem owns_lockStep {a : Addr} {q : RwLock.Pc} {stay : RwLock.Pc → Pc} {inside : Pc} {r : Mem × Pc}
    (hr : lockStep m a q stay inside = some r) (hin : Owns own inside) (hstay : ∀ q, Owns own (stay q)) :
    Owns own r.2 := by
  obtain ⟨-, h | ⟨q', h⟩⟩ := lockStep_cases hr <;> rw [h]
  · exact hin
  · exact hstay q'

theorem owns_advance {r : Mem × Pc} (h : Owns own p) (hr : advance m p = some r) : Owns (track own p r.2) r.2 := by
  cases p <;> simp only [advance, reduceCtorEq] at hr
  case delWrite q key temp =>
    obtain ⟨-, hin | ⟨q', hstay⟩⟩ := lockStep_cases hr
    · rw [hin]
      exact mem_insert_self temp own
    · rw [hstay]
      trivial
  case delHead key temp =>
    rw [← Option.some.inj hr]
    dsimp only
    split
    · exact h
    · trivial
  case insWrite q new lk => exact owns_lockStep hr trivial (fun _ => trivial)
  case delNextWrite q key temp nxt => exact owns_lockStep hr trivial (fun _ => trivial)
  case seaRead q key c => exact owns_lockStep hr trivial (fun _ => trivial)
  all_goals
    (try split at hr) <;> cases hr <;>
      first
      | exact h
      | trivial
      | exact owns_searchAt _ _

theorem ownedStep_owns {s t : Owned n} {a : Act n} (h : ∀ u, Owns (s.own u) (s.sys.pc u))
    (ht : ownedStep s a = some t) : ∀ u, Owns (t.own u) (t.sys.pc u) := by
  obtain ⟨x, hx, rfl⟩ := Option.map_eq_some_iff.mp ht
  have hpc : ∃ p, x.pc = update s.sys.pc (thread a) p ∧ Owns (track (s.own (thread a)) (s.sys.pc (thread a)) p) p := by
    cases a with
    | call t c =>
      simp only [step, Option.ite_none_right_eq_some, Option.some.injEq] at hx
      refine ⟨c.entry, by rw [← hx.2]; rfl, ?_⟩
      cases c <;> trivial
    | kalloc t a =>
      obtain ⟨⟨y, q⟩, hy, rfl⟩ := Option.map_eq_some_iff.mp hx
      refine ⟨q, rfl, ?_⟩
      unfold kallocStep at hy
      split at hy
      · split at hy <;> cases hy
        trivial
      · cases hy
    | run t =>
      obtain ⟨y, hy, rfl⟩ := Option.map_eq_some_iff.mp hx
      exact ⟨y.2, rfl, owns_advance (h t) hy⟩
  obtain ⟨p, hp, hown⟩ := hpc
  intro u
  dsimp only
  rw [hp]
  by_cases hu : u = thread a
  · rw [hu, update_self, update_self]
    exact hown
  · rw [update_of_ne hu, update_of_ne hu]
    exact h u

/-- `insert_lock(5)`, and `deleteNode_lock(key)` up to its `k`th memory access. -/
def insertDelete (key : Int) (k : Nat) : List (Act 1) :=
  [.call 0 (.insertLock 5), .kalloc 0 1] ++ List.replicate 8 (.run 0) ++ .call 0 (.deleteNodeLock key) ::
    List.replicate k (.run 0)

def headStore : Run (ownedStep (n := 1)) :=
  Run.ofExec ownedStep (start (initListLock 0)) (insertDelete 5 5) (by decide)

def prevStore : Run (ownedStep (n := 1)) :=
  Run.ofExec ownedStep (start (initListLock 0)) (insertDelete 0 13) (by decide)

end Runs

end Xv6Rcu.LockHeld

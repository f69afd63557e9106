import Xv6Rcu.ListHeap

namespace Xv6Rcu.ListLocked

open Exec Links Memory ListHeap Function List
open Kalloc hiding State kalloc kfree
open Vm hiding kalloc kfree

section Model

variable {α : Type}

structure Rw where
  readers : Nat
  writer : Nat
  deriving DecidableEq

/-- The list in memory, and the locks by their address; nothing else uses the page of a lock. -/
structure State where
  heap : ListHeap.State
  lock : Nat → Rw

abbrev K := Exec State Fault

def onHeap (x : L α) : K α := zoom State.heap (fun s h => { s with heap := h }) x

def State.mem (s : State) : Mem := s.heap.mem

def field (f : Mem → Nat → α) (a : Nat) : K α := do
  let s ← look
  if a = 0 then stop .null else pure (f s.mem a)

def setField (a : Nat) (f : Mem → Mem) : K Unit := if a = 0 then stop .null else onHeap (poke f)

def setHead (a : Nat) : K Unit := onHeap (alter (fun h => { h with headRef := a }))

def getLock (rwlock : Nat) : K Rw := do
  let s ← look
  if rwlock = 0 then stop .null else pure (s.lock rwlock)

def putLock (rwlock : Nat) (x : Rw) : K Unit := alter (fun s => { s with lock := update s.lock rwlock x })

def rwLockInit (rwlock : Nat) : K Unit := do
  let _ ← getLock rwlock
  putLock rwlock ⟨0, 0⟩

def readLock (rwlock : Nat) : K Unit := do
  let x ← getLock rwlock
  putLock rwlock { x with readers := (x.readers + 1) % 2 ^ 64 }
  if x.writer ≠ 0 then stop .endless else pure ()

def readUnlock (rwlock : Nat) : K Unit := do
  let x ← getLock rwlock
  putLock rwlock { x with readers := (x.readers + (2 ^ 64 - 1)) % 2 ^ 64 }

def writeLock (rwlock : Nat) : K Unit := do
  let x ← getLock rwlock
  putLock rwlock { x with writer := 1 }
  if x.writer ≠ 0 ∨ 0 < x.readers then stop .endless else pure ()

def writeUnlock (rwlock : Nat) : K Unit := do
  let x ← getLock rwlock
  putLock rwlock { x with writer := 0 }

def initListLock : K Unit := do
  let head ← onHeap kalloc
  setHead head
  let lock ← onHeap kalloc
  setField head (setLock head lock)
  let lock ← field nodeLock head
  rwLockInit lock
  setField head (setData head 0)
  setField head (setNext head 0)

def insertLock (newData : BitVec 32) : K Unit := do
  let newNode ← onHeap kalloc
  let lock ← onHeap kalloc
  setField newNode (setLock newNode lock)
  let lock ← field nodeLock newNode
  rwLockInit lock
  setField newNode (setData newNode newData)
  let s ← look
  let head := s.heap.headRef
  let lock ← field nodeLock head
  writeLock lock
  setField newNode (setNext newNode head)
  setHead newNode
  let next ← field nodeNext newNode
  let lock ← field nodeLock next
  writeUnlock lock

def unlockNode (a : Nat) : K Unit := do
  let lock ← field nodeLock a
  writeUnlock lock

/-- The loop of `deleteNode_lock`: `temp` and `prev` after it. The last node is left unlocked, with `temp` still at it. -/
def deleteLockLoop (key : BitVec 32) : Nat → Nat → Nat → K (Nat × Nat)
  | 0, _, _ => stop .endless
  | fuel + 1, temp, prev =>
    if temp = 0 then pure (temp, prev)
    else do
      let data ← field nodeData temp
      if data = key then pure (temp, prev)
      else do
        let next ← field nodeNext temp
        if next = 0 then do
          unlockNode temp
          pure (temp, prev)
        else do
          let lock ← field nodeLock next
          writeLock lock
          unlockNode temp
          deleteLockLoop key fuel next temp

/-- What `deleteNode_lock` does after the loop. The node that is unlinked is not freed. -/
def deleteLockEnd (temp prev : Nat) : K Unit :=
  if temp = 0 then
    if prev = 0 then pure () else unlockNode prev
  else do
    let next ← field nodeNext temp
    setField prev (setNext prev next)
    unlockNode prev
    unlockNode temp

def deleteNodeLock (key : BitVec 32) : K Unit := do
  let s ← look
  let temp := s.heap.headRef
  let lock ← field nodeLock temp
  writeLock lock
  let data ← field nodeData temp
  if data = key then do
    let next ← field nodeNext temp
    setHead next
    unlockNode temp
  else do
    let (temp, prev) ← deleteLockLoop key (NPAGES + 1) temp 0
    deleteLockEnd temp prev

def searchLockLoop (key : BitVec 32) : Nat → Nat → K Nat
  | 0, _ => stop .endless
  | fuel + 1, current =>
    if current = 0 then pure 0
    else do
      let lock ← field nodeLock current
      readLock lock
      let data ← field nodeData current
      let lock ← field nodeLock current
      readUnlock lock
      if data = key then pure current
      else do
        let next ← field nodeNext current
        searchLockLoop key fuel next

def searchLock (key : BitVec 32) : K Nat := do
  let s ← look
  searchLockLoop key (NPAGES + 1) s.heap.headRef

inductive Op where
  | insert (x : BitVec 32)
  | delete (key : BitVec 32)
  | search (key : BitVec 32)

def Op.call : Op → Call
  | .insert x => .insert x
  | .delete key => .deleteNode key
  | .search key => .search key

def callLock : Op → K Nat
  | .insert x => do
    insertLock x
    pure 0
  | .delete key => do
    deleteNodeLock key
    pure 0
  | .search key => searchLock key

def answers {σ : Type} (f : Op → Exec σ Fault Nat) : List Op → Exec σ Fault (List Bool)
  | [] => pure []
  | c :: cs => do
    let r ← f c
    let rs ← answers f cs
    pure (decide (r ≠ 0) :: rs)

def rcuRun (e : Nat) (cs : List Op) : L (List Bool) := do
  initList
  answers (fun c => call e c.call) cs

def lockRun (cs : List Op) : K (List Bool) := do
  initListLock
  answers callLock cs

/-- What an operation on the list with locks does to the values; `none` if it uses a null pointer. -/
def Op.applyLock : Op → List (BitVec 32) → Option (List (BitVec 32))
  | .insert x, l => if l = [] then none else some (x :: l)
  | .delete key, l => if key ∈ l then some (l.erase key) else if l.length < 2 then none else some l.dropLast
  | .search _, l => some l

/-- Inserts are made in a list that is not empty, and deletions of a key that is there. -/
def Op.Safe : Op → List (BitVec 32) → Prop
  | .insert _, l => l ≠ []
  | .delete key, l => key ∈ l
  | .search _, _ => True

def Safe : List Op → List (BitVec 32) → Prop
  | [], _ => True
  | c :: cs, l => c.Safe l ∧ Safe cs (c.call.apply l)

def Op.found : Op → List (BitVec 32) → Bool
  | .search key, l => decide (key ∈ l)
  | _, _ => false

def found : List Op → List (BitVec 32) → List Bool
  | [], _ => []
  | c :: cs, l => c.found l :: found cs (c.call.apply l)

end Model

section Rules

variable {α : Type} {a p : Nat} {s : State} {E : Fault → Prop}

theorem runs_field {f : Mem → Nat → α} {Q : α → State → Prop} (h : a ≠ 0) :
    Runs (field f a) s Q E ↔ Q (f s.mem a) s := by
  rw [field, runs_bind, runs_look, if_neg h, runs_pure]

theorem runs_field_null {f : Mem → Nat → α} {Q : α → State → Prop} : Runs (field f 0) s Q E ↔ E .null := by
  rw [field, runs_bind, runs_look, if_pos rfl, runs_stop]

def State.withMach (s : State) (w : Machine) : State := { s with heap.mach := w }

def State.withMem (s : State) (m : Mem) : State := s.withMach (s.heap.mach.setMem m)

@[simp] theorem mem_withMem {m : Mem} : (s.withMem m).mem = m := rfl

theorem runs_setField_null {f : Mem → Mem} {Q : Unit → State → Prop} : Runs (setField 0 f) s Q E ↔ E .null := by
  rw [setField, if_pos rfl, runs_stop]

theorem runs_setField {f : Mem → Mem} {Q : Unit → State → Prop} (h : a ≠ 0) :
    Runs (setField a f) s Q E ↔ Q () (s.withMem (f s.mem)) := by
  rw [setField, if_neg h]
  exact Iff.rfl

def State.withHead (s : State) (a : Nat) : State := { s with heap.headRef := a }

@[simp] theorem mem_withHead : (s.withHead a).mem = s.mem := rfl

theorem runs_setHead {Q : Unit → State → Prop} : Runs (setHead a) s Q E ↔ Q () (s.withHead a) := Iff.rfl

def State.withLock (s : State) (p : Nat) (x : Rw) : State := { s with lock := update s.lock p x }

@[simp] theorem mem_withLock {x : Rw} : (s.withLock p x).mem = s.mem := rfl

theorem withLock_self {x : Rw} (h : s.lock p = x) : s.withLock p x = s := by
  rw [State.withLock, ← h, update_eq_self]

theorem relock {f : Nat → Rw} {x y : Rw} (h : f p = x) : update (update f p y) p x = f := by
  rw [update_idem, ← h, update_eq_self]

theorem withLock_twice (x y : Rw) : (s.withLock p x).withLock p y = s.withLock p y := by
  rw [State.withLock, State.withLock, State.withLock, update_idem]

theorem withLock_comm {q : Nat} (x y : Rw) (h : p ≠ q) :
    (s.withLock p x).withLock q y = (s.withLock q y).withLock p x := by
  simp only [State.withLock, update_comm h]

theorem runs_lock {k : Rw → K α} {Q : α → State → Prop} (hp : p ≠ 0) :
    Runs (getLock p >>= k) s Q E ↔ Runs (k (s.lock p)) s Q E := by
  rw [runs_bind, getLock, runs_bind, runs_look, if_neg hp, runs_pure]

theorem writeLock_spec (hp : p ≠ 0) (h : s.lock p = ⟨0, 0⟩) :
    Runs (writeLock p) s (fun _ t => t = s.withLock p ⟨0, 1⟩) (fun _ => False) := by
  rw [writeLock, runs_lock hp, h]
  rfl

theorem writeUnlock_spec {w : Nat} (hp : p ≠ 0) (h : s.lock p = ⟨0, w⟩) :
    Runs (writeUnlock p) s (fun _ t => t = s.withLock p ⟨0, 0⟩) (fun _ => False) := by
  rw [writeUnlock, runs_lock hp, h]
  rfl

theorem readLock_spec (hp : p ≠ 0) (h : s.lock p = ⟨0, 0⟩) :
    Runs (readLock p) s (fun _ t => t = s.withLock p ⟨1, 0⟩) (fun _ => False) := by
  rw [readLock, runs_lock hp, h]
  rfl

theorem readUnlock_spec (hp : p ≠ 0) (h : s.lock p = ⟨1, 0⟩) :
    Runs (readUnlock p) s (fun _ t => t = s.withLock p ⟨0, 0⟩) (fun _ => False) := by
  rw [readUnlock, runs_lock hp, h]
  rfl

end Rules

section Lists

variable {e a p fuel temp prev current : Nat} {w : Machine} {s t : State} {used used' : Finset Nat} {nodes l1 l2 : List Nat}
  {l : List (BitVec 32)} {key y : BitVec 32}

/-- The list between two calls: each node has a lock of its own, and it is free. -/
structure Locked (e : Nat) (s : State) (used : Finset Nat) (nodes : List Nat) (l : List (BitVec 32)) : Prop
    extends Nodes e s.heap.mach used s.heap.headRef nodes l where
  locks : ∀ a ∈ nodes, nodeLock s.mem a ∈ used
  own : ∀ a ∈ nodes, ∀ b ∈ nodes, nodeLock s.mem a = nodeLock s.mem b → a = b
  free : ∀ a ∈ nodes, s.lock (nodeLock s.mem a) = ⟨0, 0⟩

namespace Locked

section

variable (hs : Locked e s used nodes l)

include hs

theorem node_ne_zero (he : 0 < e) (ha : a ∈ nodes) : a ≠ 0 := hs.ne_zero he (hs.sub a ha)

theorem lock_ne_zero (he : 0 < e) (ha : a ∈ nodes) : nodeLock s.mem a ≠ 0 :=
  hs.ne_zero he (hs.locks a ha)

theorem shrink {nodes' : List Nat} {l' : List (BitVec 32)}
    (hnew : Nodes e t.heap.mach used t.heap.headRef nodes' l') (hsub : ∀ b ∈ nodes', b ∈ nodes)
    (hmem : ∀ b ∈ nodes', nodeLock t.mem b = nodeLock s.mem b) (hlock : t.lock = s.lock) : Locked e t used nodes' l' := by
  refine ⟨hnew, fun b hb => ?_, fun b hb c hc hbc => ?_, fun b hb => ?_⟩
  · rw [hmem b hb]
    exact hs.locks b (hsub b hb)
  · rw [hmem b hb, hmem c hc] at hbc
    exact hs.own b (hsub b hb) c (hsub c hc) hbc
  · rw [hmem b hb, hlock]
    exact hs.free b (hsub b hb)

theorem unlock_spec (he : 0 < e) (ha : a ∈ nodes) (w : Nat) :
    Runs (unlockNode a) (s.withLock (nodeLock s.mem a) ⟨0, w⟩) (fun _ t => t = s) (fun _ => False) := by
  rw [unlockNode, runs_bind, runs_field (hs.node_ne_zero he ha)]
  refine (writeUnlock_spec (w := w) (hs.lock_ne_zero he ha) (update_self ..)).safe ?_
  rintro _ _ rfl
  exact (withLock_twice _ _).trans (withLock_self (hs.free a ha))

/-- From the node `temp` on, the loop goes to the first node `a` with the key, or to the last one. No other node is locked
then. -/
theorem deleteLockLoop_spec (he : 0 < e) (l3 l1 : List Nat) (hn : nodes = l3 ++ (l1 ++ a :: l2))
    (ht : ptr temp = (l1 ++ a :: l2).head?) (hkey : key ∉ l1.map (nodeData s.mem)) (hend : nodeData s.mem a = key ∨ l2 = [])
    (hf : l1.length < fuel) :
    Runs (deleteLockLoop key fuel temp prev) (s.withLock (nodeLock s.mem temp) ⟨0, 1⟩) (fun r t =>
      r = (a, l1.getLastD prev) ∧ ∃ w, t = s.withLock (nodeLock s.mem a) ⟨0, w⟩) (fun _ => False) := by
  induction l1 generalizing fuel temp prev l3 with
  | nil =>
    obtain ⟨fuel, rfl⟩ : ∃ k, fuel = k + 1 := ⟨fuel - 1, by omega⟩
    obtain ⟨rfl, h0⟩ := ptr_some ht
    rw [deleteLockLoop, if_neg h0, runs_bind, runs_field h0]
    refine runs_ite.mpr ⟨fun _ => ⟨rfl, 1, rfl⟩, fun hne => ?_⟩
    have hlast : nodeNext s.mem temp = 0 := by
      have hc := hs.chain
      rw [hn, hend.resolve_left hne] at hc
      exact ptr_none hc.tail.eq_head?
    rw [runs_bind, runs_field h0]
    refine runs_ite.mpr ⟨fun _ => runs_bind.mpr ((hs.unlock_spec he (by simp [hn]) 1).safe ?_), fun hc => absurd hlast hc⟩
    rintro _ _ rfl
    exact ⟨rfl, 0, (withLock_self (hs.free temp (by simp [hn]))).symm⟩
  | cons b l1 ih =>
    obtain ⟨fuel, rfl⟩ : ∃ k, fuel = k + 1 := ⟨fuel - 1, by omega⟩
    obtain ⟨rfl, h0⟩ := ptr_some ht
    have hb : temp ∈ nodes := by simp [hn]
    obtain ⟨h1, h2⟩ := not_or.mp (fun hc => hkey (mem_cons.mpr hc))
    obtain ⟨next, rest, hrest⟩ : ∃ next rest, l1 ++ a :: l2 = next :: rest := by
      cases l1 with
      | nil => exact ⟨_, _, rfl⟩
      | cons c l1 => exact ⟨_, _, rfl⟩
    have hhead : link s.mem temp = some next := by
      have hc := hs.chain
      rw [hn] at hc
      exact hc.tail.eq_head?.trans (congrArg head? hrest)
    obtain ⟨hnext, hn0⟩ := ptr_some hhead
    have hin : next ∈ nodes := by
      rw [hn, cons_append, hrest]
      simp
    have hne : nodeLock s.mem temp ≠ nodeLock s.mem next := fun hc => by
      rw [← hs.own temp hb next hin hc] at hhead
      exact hs.chain.next_ne hb hhead
    rw [deleteLockLoop, if_neg h0, runs_bind, runs_field h0, mem_withLock, if_neg (fun hc => h1 hc.symm), runs_bind,
      runs_field h0, mem_withLock, hnext, if_neg hn0, runs_bind, runs_field hn0, mem_withLock, runs_bind]
    refine (writeLock_spec (hs.lock_ne_zero he hin) ((update_of_ne hne.symm _ _).trans (hs.free next hin))).safe ?_
    rintro _ _ rfl
    -- The node before is unlocked under the lock of the next one.
    have hheld : Runs (unlockNode temp) ((s.withLock (nodeLock s.mem temp) ⟨0, 1⟩).withLock (nodeLock s.mem next) ⟨0, 1⟩)
        (fun _ t => t = s.withLock (nodeLock s.mem next) ⟨0, 1⟩) (fun _ => False) := by
      rw [unlockNode, runs_bind, runs_field h0, withLock_comm _ _ hne]
      refine (writeUnlock_spec (w := 1) (hs.lock_ne_zero he hb) (update_self ..)).safe ?_
      rintro _ _ rfl
      exact (withLock_twice _ _).trans (withLock_self ((update_of_ne hne _ _).trans (hs.free temp hb)))
    refine runs_bind.mpr (hheld.safe ?_)
    rintro _ _ rfl
    refine (ih (l3 ++ [temp]) (by rw [hn]; simp) (by rw [hrest]; exact if_neg hn0) h2 (Nat.lt_of_succ_lt_succ hf)).safe ?_
    rintro r t ⟨hr, ht⟩
    exact ⟨by rw [hr, getLastD_cons], ht⟩

end

theorem deleteLockEnd_spec (hs : Locked e s used (l1 ++ prev :: a :: l2) l) (he : 0 < e) (w : Nat) :
    Runs (deleteLockEnd a prev) (s.withLock (nodeLock s.mem a) ⟨0, w⟩) (fun _ t =>
      Locked e t used (l1 ++ prev :: l2) ((l1 ++ prev :: l2).map (nodeData s.mem))) (fun _ => False) := by
  have hprev : prev ∈ l1 ++ prev :: a :: l2 := by simp
  have ha : a ∈ l1 ++ prev :: a :: l2 := by simp
  have hp0 := hs.node_ne_zero he hprev
  have ha0 := hs.node_ne_zero he ha
  have hsub : ∀ b ∈ l1 ++ prev :: l2, b ∈ l1 ++ prev :: a :: l2 ∧ b ≠ a := fun b hb => hs.chain.mem_unlink.mp hb
  have hpa : prev ≠ a := (hsub prev (by simp)).2
  have hne : nodeLock s.mem prev ≠ nodeLock s.mem a := fun hc => hpa (hs.own prev hprev a ha hc)
  have hlock : ∀ c ∈ l1 ++ prev :: a :: l2, nodeLock (setNext prev (nodeNext s.mem a) s.mem) c = nodeLock s.mem c := by
    intro c hc
    by_cases hcp : c = prev
    · rw [hcp, nodeLock_setNext]
    · exact (node_congr (hs.aligned hc) (fun y hy => setNext_page (hs.aligned hprev) (by rw [hy]; exact hcp))).2.2
  rw [deleteLockEnd, if_neg ha0, runs_bind, runs_field ha0, mem_withLock, runs_bind, runs_setField hp0, mem_withLock,
    runs_bind, unlockNode, runs_bind, runs_field hp0, mem_withMem, hlock prev hprev]
  refine (writeUnlock_spec (hs.lock_ne_zero he hprev) ((update_of_ne hne _ _).trans (hs.free prev hprev))).safe ?_
  rintro _ _ rfl
  rw [withLock_self ((update_of_ne hne _ _).trans (hs.free prev hprev)), unlockNode, runs_bind, runs_field ha0, mem_withMem,
    hlock a ha]
  refine (writeUnlock_spec (w := w) (hs.lock_ne_zero he ha) (update_self ..)).safe ?_
  rintro _ _ rfl
  exact hs.shrink hs.toNodes.unlink (fun b hb => (hsub b hb).1) (fun b hb => hlock b (hsub b hb).1)
    (relock (hs.free a ha))

theorem deleteNodeLock_spec (hs : Locked e s used nodes l) (he : 0 < e) :
    Runs (deleteNodeLock key) s (fun _ t => ∃ nodes' l', Op.applyLock (.delete key) l = some l' ∧ Locked e t used nodes' l')
      (fun f => f = .null ∧ Op.applyLock (.delete key) l = none) := by
  have hdata := hs.data
  subst hdata
  rw [deleteNodeLock, runs_bind, runs_look, runs_bind]
  cases nodes with
  | nil =>
    rw [ptr_none hs.chain.eq_head?]
    exact runs_field_null.mpr ⟨rfl, rfl⟩
  | cons b rest =>
    obtain ⟨hhead, h0⟩ := ptr_some hs.chain.head
    have hb : b ∈ b :: rest := mem_cons_self
    dsimp only
    rw [hhead, runs_field h0, runs_bind]
    refine (writeLock_spec (hs.lock_ne_zero he hb) (hs.free b hb)).safe ?_
    rintro _ _ rfl
    rw [runs_bind, runs_field h0, mem_withLock]
    refine runs_ite.mpr ⟨fun hkey => ?_, fun hkey => ?_⟩
    · -- The first node is unlinked, and then unlocked.
      rw [runs_bind, runs_field h0, mem_withLock, runs_bind]
      change Runs (unlockNode b) _ _ _
      rw [unlockNode, runs_bind, runs_field h0]
      refine (writeUnlock_spec (w := 1) (hs.lock_ne_zero he hb) (update_self ..)).safe ?_
      rintro _ _ rfl
      have hrest : ∀ c ∈ rest, c ∈ b :: rest := fun c hc => mem_cons_of_mem _ hc
      refine ⟨rest, rest.map (nodeData s.mem), ?_, hs.shrink ⟨hs.alloc, fun c hc => hs.sub c (hrest c hc), hs.chain.tail (l := []), rfl⟩
        hrest (fun _ _ => rfl) (relock (hs.free b hb))⟩
      rw [Op.applyLock, map_cons, ← hkey]
      exact (if_pos mem_cons_self).trans (congrArg some (erase_cons_head ..))
    · obtain ⟨l1, a, l2, hsplit, hn, hend⟩ : ∃ l1 a l2, b :: rest = l1 ++ a :: l2 ∧ key ∉ l1.map (nodeData s.mem) ∧
          (nodeData s.mem a = key ∨ l2 = [] ∧ key ∉ (b :: rest).map (nodeData s.mem)) := by
        rcases first_node (nodeData s.mem) key (b :: rest) with hn | ⟨l1, a, l2, hsplit, hn, ha⟩
        · obtain ⟨l1, a, hlast⟩ := (eq_nil_or_concat' (b :: rest)).resolve_left (cons_ne_nil _ _)
          refine ⟨l1, a, [], hlast, fun hc => hn ?_, .inr ⟨rfl, hn⟩⟩
          rw [hlast, map_append]
          exact mem_append_left _ hc
        · exact ⟨l1, a, l2, hsplit, hn, .inl ha⟩
      have hlt : l1.length < NPAGES + 1 := by
        have := hs.length_lt
        rw [hsplit, length_append] at this
        omega
      refine runs_bind.mpr ((hs.deleteLockLoop_spec he [] l1 hsplit (by rw [← hsplit]; exact if_neg h0) hn
        (hend.imp id And.left) hlt).safe ?_)
      rintro _ _ ⟨rfl, w, rfl⟩
      dsimp only
      rcases eq_nil_or_concat' l1 with rfl | ⟨l1, prev, rfl⟩
      · -- The only node does not have the key, and there is no node before it.
        obtain ⟨rfl, rfl⟩ := List.cons.inj hsplit
        obtain ⟨rfl, hn⟩ := hend.resolve_left hkey
        rw [deleteLockEnd, if_neg h0, runs_bind, runs_field h0, runs_bind]
        refine runs_setField_null.mpr ⟨rfl, ?_⟩
        rw [Op.applyLock]
        exact (if_neg hn).trans (if_pos (Nat.lt_succ_self 1))
      · rw [getLastD_concat]
        rw [append_assoc] at hsplit
        rw [hsplit] at hs
        refine (hs.deleteLockEnd_spec he w).safe (fun _ t ht => ⟨_, _, ?_, ht⟩)
        rcases hend with rfl | ⟨rfl, hnone⟩
        · obtain ⟨hmem, -, -, -, hvals, -⟩ := first_value l2 0 hn
          rw [append_assoc] at hmem hvals
          rw [append_assoc] at hvals
          rw [Op.applyLock, hsplit]
          exact (if_pos hmem).trans (congrArg some hvals)
        · have hlen : ¬ ((b :: rest).map (nodeData s.mem)).length < 2 := by
            rw [hsplit, length_map, length_append]
            simp
          have hlast : b :: rest = (l1 ++ [prev]) ++ [a] := by rw [hsplit, append_assoc]
          rw [Op.applyLock]
          refine (if_neg hnone).trans ((if_neg hlen).trans (congrArg some ?_))
          rw [hlast, map_append]
          exact dropLast_concat

theorem searchLockLoop_spec (hs : Locked e s used nodes l) (he : 0 < e) (l1 l2 : List Nat) (hn : nodes = l1 ++ l2)
    (hc : ptr current = l2.head?) (hf : l2.length < fuel) :
    Runs (searchLockLoop key fuel current) s (fun r t => (r ≠ 0 ↔ key ∈ l2.map (nodeData s.mem)) ∧ t = s)
      (fun _ => False) := by
  induction l2 generalizing fuel current l1 with
  | nil =>
    obtain ⟨fuel, rfl⟩ : ∃ k, fuel = k + 1 := ⟨fuel - 1, by omega⟩
    rw [searchLockLoop, if_pos (ptr_none hc)]
    exact ⟨⟨fun h => absurd rfl h, nofun⟩, rfl⟩
  | cons a l2 ih =>
    obtain ⟨fuel, rfl⟩ : ∃ k, fuel = k + 1 := ⟨fuel - 1, by omega⟩
    obtain ⟨rfl, h0⟩ := ptr_some hc
    have ha : current ∈ nodes := by simp [hn]
    rw [searchLockLoop, if_neg h0, runs_bind, runs_field h0, runs_bind]
    refine (readLock_spec (hs.lock_ne_zero he ha) (hs.free current ha)).safe ?_
    rintro _ _ rfl
    rw [runs_bind, runs_field h0, runs_bind, runs_field h0, mem_withLock, runs_bind]
    refine (readUnlock_spec (hs.lock_ne_zero he ha) (update_self ..)).safe ?_
    rintro _ _ rfl
    rw [withLock_twice, withLock_self (hs.free current ha)]
    refine runs_ite.mpr ⟨fun hk => ?_, fun hk => ?_⟩
    · refine ⟨⟨fun _ => ?_, fun _ => h0⟩, rfl⟩
      rw [map_cons, hk]
      exact mem_cons_self
    · have hnext : ptr (nodeNext s.mem current) = l2.head? := by
        have hchain := hs.chain
        rw [hn] at hchain
        exact hchain.tail.eq_head?
      rw [runs_bind, runs_field h0]
      refine (ih (l1 ++ [current]) (by rw [hn]; simp) hnext (Nat.lt_of_succ_lt_succ hf)).safe ?_
      rintro r u ⟨hr, hu⟩
      refine ⟨hr.trans ⟨fun hin => mem_cons_of_mem _ hin, fun hin => ?_⟩, hu⟩
      exact (mem_cons.mp hin).resolve_left (fun hc => hk hc.symm)

theorem push (hs : Locked e s used nodes l) (hw : Alloc e w (Insert.insert p (Insert.insert a used))) (hna : a ∉ used)
    (hnp : p ∉ Insert.insert a used) (ha0 : a ≠ 0) (hm : ∀ z, pgRoundDown z ≠ a → pgRoundDown z ≠ p → w.mem z = s.mem z)
    (ht : t.heap.mach = w.setMem (setNext a s.heap.headRef (setData a y (setLock a p w.mem)))) (hhead : t.heap.headRef = a)
    (hlock : t.lock = update s.lock p ⟨0, 0⟩) :
    Locked e t (Insert.insert p (Insert.insert a used)) (a :: nodes) (y :: l) := by
  have hain : a ∈ Insert.insert p (Insert.insert a used) := Finset.mem_insert_of_mem (Finset.mem_insert_self _ _)
  have hsub : ∀ q ∈ used, q ∈ Insert.insert p (Insert.insert a used) := fun q hq =>
    Finset.mem_insert_of_mem (Finset.mem_insert_of_mem hq)
  have hold : ∀ q ∈ used, q ≠ a ∧ q ≠ p := fun q hq =>
    ⟨fun hc => hna (hc ▸ hq), fun hc => hnp (hc ▸ Finset.mem_insert_of_mem hq)⟩
  obtain ⟨hal, -⟩ := hw.page hain
  have htm : t.mem = setNext a s.heap.headRef (setData a y (setLock a p w.mem)) := congrArg Machine.mem ht
  have hpage : ∀ z, pgRoundDown z ≠ a → t.mem z = w.mem z := fun z hz => by
    rw [htm, setNext_page hal hz, setData_page hal hz, setLock_page hal hz]
  have halloc : Alloc e t.heap.mach (Insert.insert p (Insert.insert a used)) := by
    rw [ht]
    refine hw.write (fun z hz => ?_)
    rw [← htm]
    exact hpage z (fun hc => hz (hc ▸ hain))
  have hbase : Nodes e w (Insert.insert p (Insert.insert a used)) s.heap.headRef nodes l := by
    refine hs.toNodes.congr hw (fun b hb => hsub b (hs.sub b hb)) (fun b hb z hz => ?_)
    obtain ⟨h1, h2⟩ := hold b (hs.sub b hb)
    exact hm z (by rw [hz]; exact h1) (by rw [hz]; exact h2)
  have hnew : nodeLock t.mem a = p := by
    rw [htm, nodeLock_setNext, nodeLock_setData, nodeLock_setLock (page_lt (hw.page (Finset.mem_insert_self _ _)))]
  have hsame : ∀ b ∈ nodes, nodeLock t.mem b = nodeLock s.mem b := fun b hb => by
    obtain ⟨h1, h2⟩ := hold b (hs.sub b hb)
    refine (node_congr (hs.aligned hb) (fun z hz => ?_)).2.2
    exact (hpage z (by rw [hz]; exact h1)).trans (hm z (by rw [hz]; exact h1) (by rw [hz]; exact h2))
  have hdata : nodeData t.mem a = y := by rw [htm, nodeData_setNext, setData_self]
  have hnext : nodeNext t.mem a = s.heap.headRef := by rw [htm, nodeNext_setNext hs.head_lt]
  have hnodes := hbase.push halloc hain (fun hc => hna (hs.sub a hc)) ha0 hpage hdata hnext
  have hother : ∀ b ∈ nodes, nodeLock t.mem b ≠ p := fun b hb => by
    rw [hsame b hb]
    exact (hold _ (hs.locks b hb)).2
  refine ⟨by rw [hhead]; exact hnodes, ?_, ?_, ?_⟩
  · rintro b (_ | ⟨_, hb⟩)
    · rw [hnew]
      exact Finset.mem_insert_self _ _
    · rw [hsame b hb]
      exact hsub _ (hs.locks b hb)
  · rintro b (_ | ⟨_, hb⟩) c (_ | ⟨_, hc⟩) hbc
    · rfl
    · exact absurd (hbc.symm.trans hnew) (hother c hc)
    · exact absurd (hbc.trans hnew) (hother b hb)
    · rw [hsame b hb, hsame c hc] at hbc
      exact hs.own b hb c hc hbc
  · rintro b (_ | ⟨_, hb⟩)
    · rw [hnew, hlock, update_self]
    · rw [hlock, update_of_ne (hother b hb), hsame b hb]
      exact hs.free b hb

theorem alloc_spec (he : 0 < e) (h : Alloc e s.heap.mach used) :
    Runs (onHeap kalloc) s (fun a t => ∃ w, t = s.withMach w ∧ a ≠ 0 ∧ a ∉ used ∧ Alloc e w (Insert.insert a used) ∧
      ∀ y, pgRoundDown y ≠ a → w.mem y = s.mem y) (· = .noMemory) := by
  refine runs_zoom.mpr ((kalloc_spec he h).mono ?_ (fun _ he => he))
  rintro a _ ⟨w, rfl, hw⟩
  exact ⟨w, rfl, hw⟩

theorem initListLock_spec (he : 0 < e) (h : Alloc e s.heap.mach used) :
    Runs initListLock s (fun _ t => ∃ used' nodes, Locked e t used' nodes [0]) (· = .noMemory) := by
  refine runs_bind.mpr ((alloc_spec he h).mono ?_ (fun _ he => he))
  rintro a _ ⟨w1, rfl, ha0, hna, hw1, hm1⟩
  refine runs_bind.mpr (runs_setHead.mpr (runs_bind.mpr ((alloc_spec (s := (s.withMach w1).withHead a) he hw1).mono ?_ (fun _ he => he))))
  rintro p _ ⟨w2, rfl, hp0, hnp, hw2, hm2⟩
  have h64 := page_lt (hw2.page (Finset.mem_insert_self p _))
  rw [runs_bind, runs_setField ha0, runs_bind, runs_field ha0, mem_withMem, nodeLock_setLock h64, runs_bind, rwLockInit,
    runs_lock hp0, putLock, runs_alter, runs_bind, runs_setField ha0, runs_setField ha0]
  have hnone : Locked e ⟨{ s.heap with headRef := 0 }, s.lock⟩ used [] [] :=
    ⟨⟨h, nofun, Chain.nil, rfl⟩, nofun, nofun, nofun⟩
  exact ⟨_, _, hnone.push hw2 hna hnp ha0 (fun z h1 h2 => (hm2 z h2).trans (hm1 z h1)) rfl rfl rfl⟩

theorem insertLock_spec (hs : Locked e s used nodes l) (he : 0 < e) :
    Runs (insertLock y) s (fun _ t => ∃ used' nodes' l', Op.applyLock (.insert y) l = some l' ∧ Locked e t used' nodes' l')
      (fun f => f = .noMemory ∨ f = .null ∧ Op.applyLock (.insert y) l = none) := by
  refine runs_bind.mpr ((alloc_spec he hs.alloc).mono ?_ (fun _ he => .inl he))
  rintro a _ ⟨w1, rfl, ha0, hna, hw1, hm1⟩
  refine runs_bind.mpr ((alloc_spec he hw1).mono ?_ (fun _ he => .inl he))
  rintro p _ ⟨w2, rfl, hp0, hnp, hw2, hm2⟩
  have h64 := page_lt (hw2.page (Finset.mem_insert_self p _))
  rw [runs_bind, runs_setField ha0, runs_bind, runs_field ha0, mem_withMem, nodeLock_setLock h64, runs_bind, rwLockInit,
    runs_lock hp0, putLock, runs_alter, runs_bind, runs_setField ha0, runs_bind, runs_look, runs_bind]
  change Runs (field nodeLock s.heap.headRef)
    (((s.withMach w2).withLock p ⟨0, 0⟩).withMem (setData a y (setLock a p w2.mem))) _ _
  have hm : ∀ z, pgRoundDown z ≠ a → pgRoundDown z ≠ p → w2.mem z = s.mem z := fun z h1 h2 => (hm2 z h2).trans (hm1 z h1)
  cases nodes with
  | nil =>
    rw [ptr_none hs.chain.eq_head?]
    exact runs_field_null.mpr (.inr ⟨rfl, if_pos hs.data.symm⟩)
  | cons b rest =>
    obtain ⟨hhead, hb0⟩ := ptr_some hs.chain.head
    have hb : b ∈ b :: rest := mem_cons_self
    have ha : a % PGSIZE = 0 := (hw2.page (Finset.mem_insert_of_mem (Finset.mem_insert_self _ _))).1
    have hold : ∀ q ∈ used, q ≠ a ∧ q ≠ p := fun q hq =>
      ⟨fun hc => hna (hc ▸ hq), fun hc => hnp (hc ▸ Finset.mem_insert_of_mem hq)⟩
    have hlock : nodeLock (setData a y (setLock a p w2.mem)) b = nodeLock s.mem b := by
      obtain ⟨h1, h2⟩ := hold b (hs.sub b hb)
      refine (node_congr (hs.aligned hb) (fun z hz => ?_)).2.2
      rw [setData_page ha (by rw [hz]; exact h1), setLock_page ha (by rw [hz]; exact h1)]
      exact hm z (by rw [hz]; exact h1) (by rw [hz]; exact h2)
    have hlock' : nodeLock (setNext a b (setData a y (setLock a p w2.mem))) b = nodeLock s.mem b :=
      (node_congr (hs.aligned hb) (fun z hz => setNext_page ha (by rw [hz]; exact (hold b (hs.sub b hb)).1))).2.2.trans hlock
    have hfree : update s.lock p ⟨0, 0⟩ (nodeLock s.mem b) = ⟨0, 0⟩ :=
      (update_of_ne (hold _ (hs.locks b hb)).2 _ _).trans (hs.free b hb)
    rw [hhead, runs_field hb0, mem_withMem, hlock, runs_bind]
    refine (writeLock_spec (hs.lock_ne_zero he hb) hfree).safe ?_
    rintro _ _ rfl
    rw [runs_bind, runs_setField ha0, runs_bind, runs_setHead, runs_bind]
    change Runs (field nodeNext a) (((((s.withMach w2).withLock p ⟨0, 0⟩).withLock (nodeLock s.mem b) ⟨0, 1⟩).withMem
      (setNext a s.heap.headRef (setData a y (setLock a p w2.mem)))).withHead a) _ _
    rw [runs_field ha0, mem_withHead, mem_withMem, nodeNext_setNext hs.head_lt, hhead, runs_bind, runs_field hb0,
      mem_withHead, mem_withMem, hlock']
    refine (writeUnlock_spec (w := 1) (hs.lock_ne_zero he hb) (update_self ..)).safe ?_
    rintro _ _ rfl
    have hl : l ≠ [] := fun hc => nomatch hs.data.trans hc
    exact ⟨_, _, _, if_neg hl, hs.push hw2 hna hnp ha0 hm (by rw [hhead]; rfl) rfl (relock hfree)⟩

end Locked

def Quiet (e : Nat) (l : List (BitVec 32)) (s : State) : Prop := ∃ used nodes, Locked e s used nodes l

theorem callLock_spec (he : 0 < e) (c : Op) (h : Quiet e l s) :
    Runs (callLock c) s (fun r t => decide (r ≠ 0) = c.found l ∧ ∃ l', c.applyLock l = some l' ∧ Quiet e l' t)
      (fun f => f = .noMemory ∨ f = .null ∧ c.applyLock l = none) := by
  obtain ⟨used, nodes, hs⟩ := h
  cases c with
  | insert y =>
    refine runs_bind.mpr ((hs.insertLock_spec he).mono ?_ (fun _ he => he))
    rintro _ t ⟨used', nodes', l', hl', ht⟩
    exact ⟨rfl, l', hl', used', nodes', ht⟩
  | delete key =>
    refine runs_bind.mpr ((hs.deleteNodeLock_spec he).mono ?_ (fun _ he => .inr he))
    rintro _ t ⟨nodes', l', hl', ht⟩
    exact ⟨rfl, l', hl', used, nodes', ht⟩
  | search key =>
    rw [callLock, searchLock, runs_bind, runs_look]
    refine (hs.searchLockLoop_spec he [] nodes rfl hs.chain.eq_head? hs.length_lt).safe ?_
    rintro r t ⟨hr, ht⟩
    rw [show nodes.map (nodeData s.mem) = l from hs.data] at hr
    exact ⟨decide_eq_decide.mpr hr, l, rfl, used, nodes, ht ▸ hs⟩

def valuesFrom (cs : List Op) (l : List (BitVec 32)) : List (BitVec 32) := cs.foldl (fun l c => c.call.apply l) l

/-- The rule for a sequence of safe operations: `I l` holds when the values are `l`. -/
theorem answers_spec {σ : Type} {s : σ} {f : Op → Exec σ Fault Nat} {I : List (BitVec 32) → σ → Prop}
    (hf : ∀ c l s, c.Safe l → I l s →
      Runs (f c) s (fun r t => decide (r ≠ 0) = c.found l ∧ I (c.call.apply l) t) (· = .noMemory))
    (cs : List Op) (hcs : Safe cs l) (hs : I l s) :
    Runs (answers f cs) s (fun rs t => rs = found cs l ∧ I (valuesFrom cs l) t) (· = .noMemory) := by
  induction cs generalizing s l with
  | nil => exact ⟨rfl, hs⟩
  | cons c cs ih =>
    refine runs_bind.mpr ((hf c l s hcs.1 hs).mono ?_ (fun _ he => he))
    rintro r t ⟨hr, ht⟩
    refine runs_bind.mpr ((ih hcs.2 ht).mono ?_ (fun _ he => he))
    rintro rs u ⟨hrs, hu⟩
    exact ⟨by rw [hr, hrs, found], hu⟩

theorem applyLock_of_safe {c : Op} (hc : c.Safe l) : c.applyLock l = some (c.call.apply l) := by
  cases c with
  | insert y => exact if_neg hc
  | delete key => exact if_pos hc
  | search key => rfl

theorem lockRun_spec (he : 0 < e) (h : Alloc e s.heap.mach used) (cs : List Op) (hcs : Safe cs [0]) :
    Runs (lockRun cs) s (fun rs t => rs = found cs [0] ∧ Quiet e (valuesFrom cs [0]) t) (· = .noMemory) := by
  refine runs_bind.mpr ((Locked.initListLock_spec he h).mono ?_ (fun _ he => he))
  rintro _ t ⟨used', a, ht⟩
  refine answers_spec (fun c l s hc hs => ?_) cs hcs ⟨used', _, ht⟩
  refine (callLock_spec he c hs).mono ?_ ?_
  · rintro r u ⟨hr, l', hl', hu⟩
    rw [applyLock_of_safe hc] at hl'
    exact ⟨hr, Option.some.inj hl' ▸ hu⟩
  · rintro f (hf | ⟨-, hf⟩)
    · exact hf
    · rw [applyLock_of_safe hc] at hf
      exact nomatch hf

theorem rcuCall_spec {s : ListHeap.State} (he : 0 < e) (c : Op) (h : ∃ used nodes, Rep e s used nodes l) :
    Runs (call e c.call) s (fun r t => decide (r ≠ 0) = c.found l ∧ ∃ used nodes, Rep e t used nodes (c.call.apply l))
      (· = .noMemory) := by
  obtain ⟨used, nodes, hs⟩ := h
  cases c with
  | insert y =>
    refine runs_bind.mpr ((insert_spec he hs).mono ?_ (fun _ he => he))
    rintro _ t ⟨a, -, ht⟩
    exact ⟨rfl, _, _, ht⟩
  | delete key =>
    refine runs_bind.mpr ((deleteNode_spec he hs).safe (fun _ t ht => ?_))
    exact ⟨rfl, _, _, ht⟩
  | search key =>
    refine (search_spec hs).safe ?_
    rintro _ _ ⟨rfl, rfl⟩
    refine ⟨decide_eq_decide.mpr ⟨fun hr => ?_, fun hin => ?_⟩, used, nodes, hs⟩
    · by_contra hn
      rw [idxOf_of_notMem hn, ← hs.nodes.data, length_map, getD_eq_default _ _ le_rfl] at hr
      exact hr rfl
    · have hlt : l.idxOf key < nodes.length := by
        have := idxOf_lt_length_of_mem hin
        rwa [← hs.nodes.data, length_map, hs.nodes.data] at this
      rw [getD_eq_getElem _ _ hlt]
      exact hs.nodes.ne_zero he (hs.nodes.sub _ (getElem_mem _))

theorem rcuRun_spec {s : ListHeap.State} (he : 0 < e) (h : Alloc e s.mach used) (hl : s.listLock = false) (hd : s.noff = 0) (cs : List Op)
    (hcs : Safe cs [0]) :
    Runs (rcuRun e cs) s (fun rs t => rs = found cs [0] ∧ ∃ used nodes, Rep e t used nodes (valuesFrom cs [0]))
      (· = .noMemory) := by
  refine runs_bind.mpr ((initList_spec he h hl hd).mono ?_ (fun _ he => he))
  rintro _ t ⟨a, ht⟩
  exact answers_spec (fun c l s _ hs => rcuCall_spec he c hs) cs hcs ⟨_, [a], ht⟩

theorem lists_agree {s : ListHeap.State} {s' : State} (he : 0 < e) (ha : Alloc e s.mach used) (hl : s.listLock = false)
    (hd : s.noff = 0) (ha' : Alloc e s'.heap.mach used') (cs : List Op) (hcs : Safe cs [0]) :
    (∀ f, rcuRun e cs s = .error f → f = .noMemory) ∧ (∀ f, lockRun cs s' = .error f → f = .noMemory) ∧
      ∀ rs t rs' t', rcuRun e cs s = .ok (rs, t) → lockRun cs s' = .ok (rs', t') →
        rs' = rs ∧ printList t'.heap = printList t ∧ ∃ nodes nodes', Chain (link t.mem) (ptr t.headRef) nodes ∧
          Chain (link t'.mem) (ptr t'.heap.headRef) nodes' ∧ ∀ a ∈ nodes', t'.lock (nodeLock t'.mem a) = ⟨0, 0⟩ := by
  have hrcu := rcuRun_spec he ha hl hd cs hcs
  have hlock := lockRun_spec he ha' cs hcs
  refine ⟨fun f hf => hrcu.error hf, fun f hf => hlock.error hf, fun rs t rs' t' ht ht' => ?_⟩
  obtain ⟨hrs, used1, nodes, hrep⟩ := hrcu.ok ht
  obtain ⟨hrs', used2, nodes', hs⟩ := hlock.ok ht'
  have hprint : printList t = valuesFrom cs [0] := (printLoop_eq hrep.nodes.chain hrep.nodes.length_lt).trans hrep.nodes.data
  have hprint' : printList t'.heap = valuesFrom cs [0] := (printLoop_eq hs.chain hs.length_lt).trans hs.data
  exact ⟨hrs'.trans hrs.symm, hprint'.trans hprint.symm, nodes, nodes', hrep.nodes.chain, hs.chain, hs.free⟩

/-- What can be seen of a run: how it fails, or the answers and the values in the end. -/
def seen {σ : Type} (heap : σ → ListHeap.State) : Except Fault (List Bool × σ) → Fault ⊕ (List Bool × List (BitVec 32))
  | .error f => .inl f
  | .ok (rs, t) => .inr (rs, printList (heap t))

theorem error_of_seen {σ : Type} (heap : σ → ListHeap.State) {r : Except Fault (List Bool × σ)} {f : Fault}
    (hr : seen heap r = .inl f) : r = .error f := by
  cases r with
  | error g => exact congrArg Except.error (Sum.inl.inj hr)
  | ok q => exact nomatch hr

theorem ok_of_seen {σ : Type} {heap : σ → ListHeap.State} {r : Except Fault (List Bool × σ)} {rs : List Bool}
    (hr : seen heap r = .inr (rs, l)) : ∃ t, r = .ok (rs, t) ∧ printList (heap t) = l := by
  cases r with
  | error g => exact nomatch hr
  | ok q =>
    obtain ⟨rs', t⟩ := q
    obtain ⟨rfl, rfl⟩ := Prod.mk.inj (Sum.inr.inj hr)
    exact ⟨t, rfl, rfl⟩

def fourLocked : State := ⟨fourFree, fun _ => ⟨0, 0⟩⟩

theorem lists_agree_four :
    ∃ t t', rcuRun fourEnd [.insert 5, .delete 0, .search 5] fourFree = .ok ([false, false, true], t) ∧
      lockRun [.insert 5, .delete 0, .search 5] fourLocked = .ok ([false, false, true], t') ∧
      printList t'.heap = printList t := by
  have hrcu : seen id (rcuRun fourEnd [.insert 5, .delete 0, .search 5] fourFree) = .inr ([false, false, true], [5]) := by
    decide +kernel
  have hlock : seen State.heap (lockRun [.insert 5, .delete 0, .search 5] fourLocked) =
      .inr ([false, false, true], [5]) := by decide +kernel
  obtain ⟨t, ht, -⟩ := ok_of_seen hrcu
  obtain ⟨t', ht', -⟩ := ok_of_seen hlock
  have hin : (0 : BitVec 32) ∈ [5, 0] := by decide
  have hsafe : Safe [.insert 5, .delete 0, .search 5] [0] := ⟨cons_ne_nil _ _, hin, trivial, trivial⟩
  have he : 0 < fourEnd := by decide
  have hfree : Alloc fourEnd fourFree.mach ∅ := fourPages_alloc
  have hfree' : Alloc fourEnd fourLocked.heap.mach ∅ := hfree
  have hagree := lists_agree he hfree rfl rfl hfree' _ hsafe
  exact ⟨t, t', ht, ht', (hagree.2.2 _ t _ t' ht ht').2.1⟩

/-- A key that is not there: the last node is unlinked, and a null pointer is used if it is the only one. -/
theorem deleteNodeLock_absent :
    (∃ t t', rcuRun fourEnd [.insert 5, .delete 7] fourFree = .ok ([false, false], t) ∧
      lockRun [.insert 5, .delete 7] fourLocked = .ok ([false, false], t') ∧
      printList t = [5, 0] ∧ printList t'.heap = [5]) ∧
      lockRun [.delete 7] fourLocked = .error .null ∧ lockRun [.delete 0, .insert 5] fourLocked = .error .null := by
  refine ⟨?_, error_of_seen State.heap (by decide +kernel), error_of_seen State.heap (by decide +kernel)⟩
  have hrcu : seen id (rcuRun fourEnd [.insert 5, .delete 7] fourFree) = .inr ([false, false], [5, 0]) := by decide +kernel
  have hlock : seen State.heap (lockRun [.insert 5, .delete 7] fourLocked) = .inr ([false, false], [5]) := by decide +kernel
  obtain ⟨t, ht, hp⟩ := ok_of_seen hrcu
  obtain ⟨t', ht', hp'⟩ := ok_of_seen hlock
  exact ⟨t, t', ht, ht', hp, hp'⟩

end Lists

end Xv6Rcu.ListLocked

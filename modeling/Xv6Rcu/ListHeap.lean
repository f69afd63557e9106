import Xv6Rcu.Exec
import Xv6Rcu.PageMap

namespace Xv6Rcu.ListHeap

open Exec Links Memory Kalloc Vm List

section Nodes

/-- The fields of `struct Node` at `a`: `data`, `next` and `lock`. -/
def nodeData (m : Mem) (a : Nat) : BitVec 32 := BitVec.ofNat 32 (load m a 4)

def nodeNext (m : Mem) (a : Nat) : Nat := load m (a + 8) 8

def nodeLock (m : Mem) (a : Nat) : Nat := load m (a + 16) 8

def setData (a : Nat) (x : BitVec 32) (m : Mem) : Mem := store m a x.toNat 4

def setNext (a v : Nat) (m : Mem) : Mem := store m (a + 8) v 8

def setLock (a v : Nat) (m : Mem) : Mem := store m (a + 16) v 8

end Nodes

section Model

/-- How a call can fail: `kalloc` returns 0, a null pointer is used, a panic, or a loop that does not end. -/
inductive Fault where
  | noMemory | null | kfree | acquire | release | popOff | sched | endless
  deriving DecidableEq

/-- The memory, `head_ref` and `list_lock`, and the interrupt depth and the affinity of the caller. -/
structure State where
  mach : Machine
  headRef : Nat
  listLock : Bool
  noff : Nat
  cpuAffinity : Int

abbrev L := Exec State Fault

abbrev State.mem (s : State) : Mem := s.mach.mem

def poke (f : Mem → Mem) : L Unit := alter (fun s => { s with mach := s.mach.setMem (f s.mem) })

def kalloc : L Nat := fun s =>
  if (Vm.kalloc s.mach).1 = 0 then .error .noMemory
  else .ok ((Vm.kalloc s.mach).1, { s with mach := (Vm.kalloc s.mach).2 })

/-- `e` is the end of the kernel. -/
def kfree (e pa : Nat) : L Unit := fun s =>
  match Vm.kfree e pa s.mach with
  | .error _ => .error .kfree
  | .ok m => .ok ((), { s with mach := m })

def pushOff : L Unit := alter (fun s => { s with noff := s.noff + 1 })

def popOff : L Unit := do
  let s ← look
  if s.noff < 1 then stop .popOff else alter (fun s => { s with noff := s.noff - 1 })

/-- `acquire(&list_lock)`; nobody else can hold the lock. -/
def acquire : L Unit := do
  pushOff
  let s ← look
  if s.listLock = true then stop .acquire else alter (fun s => { s with listLock := true })

def release : L Unit := do
  let s ← look
  if s.listLock = false then stop .release
  else do
    alter (fun s => { s with listLock := false })
    popOff

/-- `yield` takes the lock of the process, and `sched` panics if that is not the only one. -/
def yieldCpu : L Unit := do
  let s ← look
  if s.noff ≠ 0 then stop .sched else pure ()

def synchronizeRcu : L Unit := do
  each (fun i => do
    alter (fun s => { s with cpuAffinity := i })
    yieldCpu) 3
  alter (fun s => { s with cpuAffinity := -1 })

def initList : L Unit := do
  let head ← kalloc
  alter (fun s => { s with headRef := head })
  poke (setData head 0)
  poke (setNext head 0)

def insert (newData : BitVec 32) : L Unit := do
  let newNode ← kalloc
  poke (setData newNode newData)
  acquire
  let s ← look
  poke (setNext newNode s.headRef)
  release
  synchronizeRcu
  alter (fun s => { s with headRef := newNode })

def NPAGES : Nat := PHYSTOP / PGSIZE

/-- The loop of `deleteNode`: `temp` and `prev` after it. -/
def deleteLoop (m : Mem) (key : BitVec 32) : Nat → Nat → Nat → Option (Nat × Nat)
  | 0, _, _ => none
  | fuel + 1, temp, prev =>
    if temp ≠ 0 ∧ nodeData m temp ≠ key then deleteLoop m key fuel (nodeNext m temp) temp else some (temp, prev)

def deleteNode (e : Nat) (key : BitVec 32) : L Unit := do
  let s ← look
  let temp := s.headRef
  acquire
  if temp ≠ 0 ∧ nodeData s.mem temp = key then do
    alter (fun s => { s with headRef := nodeNext s.mem temp })
    release
    synchronizeRcu
    kfree e temp
  else
    match deleteLoop s.mem key (NPAGES + 1) temp 0 with
    | none => stop .endless
    | some (temp, prev) =>
      if temp = 0 then release
      else if prev = 0 then stop .null
      else do
        poke (fun m => setNext prev (nodeNext m temp) m)
        release
        synchronizeRcu
        kfree e temp

def searchLoop (m : Mem) (key : BitVec 32) : Nat → Nat → Option Nat
  | 0, _ => none
  | fuel + 1, current =>
    if current = 0 then some 0
    else if nodeData m current = key then some current
    else searchLoop m key fuel (nodeNext m current)

def search (key : BitVec 32) : L Nat := do
  let s ← look
  let current := s.headRef
  pushOff
  match searchLoop s.mem key (NPAGES + 1) current with
  | none => stop .endless
  | some node => do
    popOff
    pure node

/-- If there is no such node it only prints a message. -/
def updateNode (key newData : BitVec 32) : L Unit := do
  let node ← search key
  if node ≠ 0 then poke (setData node newData) else pure ()

/-- The loop of `printList`: the values it prints. -/
def printLoop (m : Mem) : Nat → Nat → List (BitVec 32)
  | 0, _ => []
  | fuel + 1, temp => if temp = 0 then [] else nodeData m temp :: printLoop m fuel (nodeNext m temp)

def printList (s : State) : List (BitVec 32) := printLoop s.mem (NPAGES + 1) s.headRef

inductive Call where
  | insert (x : BitVec 32)
  | deleteNode (key : BitVec 32)
  | search (key : BitVec 32)
  | updateNode (key x : BitVec 32)

/-- One call; only `search` has a result. -/
def call (e : Nat) : Call → L Nat
  | .insert x => do
    insert x
    pure 0
  | .deleteNode key => do
    deleteNode e key
    pure 0
  | .search key => search key
  | .updateNode key x => do
    updateNode key x
    pure 0

def calls (e : Nat) : List Call → L Unit
  | [] => pure ()
  | c :: cs => do
    let _ ← call e c
    calls e cs

/-- `init_list` and then the calls, one at a time. -/
def fromInit (e : Nat) (cs : List Call) : L Unit := do
  initList
  calls e cs

def Call.apply : Call → List (BitVec 32) → List (BitVec 32)
  | .insert x, l => x :: l
  | .deleteNode key, l => l.erase key
  | .search _, l => l
  | .updateNode key x, l => l.replace key x

/-- The values after `init_list` and the calls. -/
def values (cs : List Call) : List (BitVec 32) := cs.foldl (fun l c => c.apply l) [0]

end Model

section Fields

variable {m m' : Mem} {a b v : Nat} {x : BitVec 32}

theorem node_congr (ha : a % PGSIZE = 0) (h : ∀ x, pgRoundDown x = a → m' x = m x) :
    nodeData m' a = nodeData m a ∧ nodeNext m' a = nodeNext m a ∧ nodeLock m' a = nodeLock m a := by
  have hload : ∀ off k, off + k ≤ PGSIZE → load m' (a + off) k = load m (a + off) k := fun off k hk =>
    load_congr (fun x h1 h2 => h x (round_of_page ha (by omega) (by omega)))
  refine ⟨?_, hload 8 8 (by decide), hload 16 8 (by decide)⟩
  exact congrArg (BitVec.ofNat 32) (hload 0 4 (by decide))

theorem store_page {off k : Nat} (ha : a % PGSIZE = 0) (hk : off + k ≤ PGSIZE) {y : Nat} (hy : pgRoundDown y ≠ a) :
    store m (a + off) v k y = m y := by
  by_cases hlt : y < a + off
  · exact store_of_lt hlt
  · refine store_of_ge ?_
    by_contra hc
    exact hy (round_of_page ha (by omega) (by omega))

theorem setData_page (ha : a % PGSIZE = 0) {y : Nat} (hy : pgRoundDown y ≠ a) : setData a x m y = m y :=
  store_page (m := m) (a := a) (v := x.toNat) ha (by decide : 0 + 4 ≤ PGSIZE) hy

theorem setNext_page (ha : a % PGSIZE = 0) {y : Nat} (hy : pgRoundDown y ≠ a) : setNext a v m y = m y :=
  store_page ha (by decide) hy

theorem setData_self : nodeData (setData a x m) a = x := by
  rw [nodeData, setData, load_store]
  have hpow : (256 : Nat) ^ 4 = 2 ^ 32 := by norm_num
  rw [hpow, Nat.mod_eq_of_lt x.isLt, BitVec.ofNat_toNat, BitVec.setWidth_eq]

theorem nodeNext_setData : nodeNext (setData a x m) a = nodeNext m a := load_store_of_disjoint (.inr (by omega))

theorem nodeData_setNext : nodeData (setNext a v m) a = nodeData m a :=
  congrArg (BitVec.ofNat 32) (load_store_of_disjoint (.inl (by omega)))

theorem nodeNext_setNext (hv : v < 2 ^ 64) : nodeNext (setNext a v m) a = v := by
  rw [nodeNext, setNext, load_store]
  have hpow : (256 : Nat) ^ 8 = 2 ^ 64 := by norm_num
  rw [hpow, Nat.mod_eq_of_lt hv]

theorem setLock_page (ha : a % PGSIZE = 0) {y : Nat} (hy : pgRoundDown y ≠ a) : setLock a v m y = m y :=
  store_page ha (by decide) hy

theorem nodeLock_setLock (hv : v < 2 ^ 64) : nodeLock (setLock a v m) a = v := by
  rw [nodeLock, setLock, load_store]
  have hpow : (256 : Nat) ^ 8 = 2 ^ 64 := by norm_num
  rw [hpow, Nat.mod_eq_of_lt hv]

theorem nodeLock_setData : nodeLock (setData a x m) a = nodeLock m a := load_store_of_disjoint (.inr (by omega))

theorem nodeLock_setNext : nodeLock (setNext a v m) a = nodeLock m a := load_store_of_disjoint (.inr (by omega))

theorem nodeNext_lt : nodeNext m a < 2 ^ 64 := load_lt (n := 8)

-- From here on the fields are known by their lemmas.
attribute [irreducible] nodeData nodeNext nodeLock setData setNext setLock

end Fields

section Locks

variable {s : State}

theorem acquire_eq (h : s.listLock = false) : acquire s = .ok ((), { s with listLock := true, noff := s.noff + 1 }) := by
  have hne : ¬ s.listLock = true := by rw [h]; exact Bool.false_ne_true
  change (if s.listLock = true then _ else _ : L Unit) _ = _
  rw [if_neg hne]
  rfl

theorem release_eq (h : s.listLock = true) (hn : s.noff = 1) :
    release s = .ok ((), { s with listLock := false, noff := 0 }) := by
  have hne : ¬ s.listLock = false := by rw [h]; exact Bool.noConfusion
  change (if s.listLock = false then _ else _ : L Unit) _ = _
  rw [if_neg hne]
  change (if s.noff < 1 then _ else _ : L Unit) _ = _
  rw [if_neg (by omega)]
  change Except.ok ((), { s with listLock := false, noff := s.noff - 1 }) = _
  rw [hn]

theorem yieldCpu_eq (h : s.noff = 0) : yieldCpu s = .ok ((), s) := by
  change (if s.noff ≠ 0 then _ else _ : L Unit) _ = _
  rw [if_neg (fun hc => hc h)]
  rfl

theorem synchronizeRcu_spec (h : s.noff = 0) :
    Runs synchronizeRcu s (fun _ t => t = { s with cpuAffinity := -1 }) (fun _ => False) := by
  have hloop : Runs (each (fun i => do
      alter (fun s : State => { s with cpuAffinity := i })
      yieldCpu) 3 : L Unit) s (fun _ t => ∃ c, t = { s with cpuAffinity := c }) (fun _ => False) := by
    refine Runs.each (fun _ t => ∃ c, t = { s with cpuAffinity := c }) ⟨s.cpuAffinity, rfl⟩ ?_
    rintro i - _ ⟨c, rfl⟩
    refine runs_bind.mpr (runs_alter.mpr ?_)
    exact Runs.of_eq (yieldCpu_eq (s := { s with cpuAffinity := i }) h) ⟨i, rfl⟩
  refine runs_bind.mpr (hloop.safe ?_)
  rintro _ _ ⟨c, rfl⟩
  rfl

end Locks

section Lists

variable {e fuel temp prev a : Nat} {s t : State} {m m' : Mem} {used : Finset Nat} {nodes l1 l2 : List Nat}
  {l : List (BitVec 32)} {key x : BitVec 32}

def link (m : Mem) (a : Nat) : Option Nat := ptr (nodeNext m a)

theorem ptr_some (h : ptr temp = some a) : temp = a ∧ a ≠ 0 := by
  unfold ptr at h
  split at h
  · exact nomatch h
  · rename_i h0
    obtain rfl := Option.some.inj h
    exact ⟨rfl, h0⟩

theorem ptr_none (h : ptr temp = none) : temp = 0 := by
  unfold ptr at h
  split at h
  · assumption
  · exact nomatch h

theorem first_node (f : Nat → BitVec 32) (key : BitVec 32) (nodes : List Nat) :
    key ∉ nodes.map f ∨ ∃ l1 a l2, nodes = l1 ++ a :: l2 ∧ key ∉ l1.map f ∧ f a = key := by
  induction nodes with
  | nil => exact .inl not_mem_nil
  | cons b nodes ih =>
    by_cases hb : f b = key
    · exact .inr ⟨[], b, nodes, rfl, not_mem_nil, hb⟩
    · have hcons : ∀ l, key ∉ l.map f → key ∉ (b :: l).map f := fun l hl hc =>
        (mem_cons.mp hc).elim (fun hc => hb hc.symm) hl
      rcases ih with hn | ⟨l1, a, l2, rfl, hn, ha⟩
      · exact .inl (hcons nodes hn)
      · exact .inr ⟨b :: l1, a, l2, rfl, hcons l1 hn, ha⟩

theorem not_head (l2 : List Nat) (h : Chain (link m) (ptr temp) (l1 ++ l2)) (hl : l1 = [] → l2 = []) (hn : key ∉ l1.map (nodeData m)) :
    ¬ (temp ≠ 0 ∧ nodeData m temp = key) := by
  rintro ⟨h0, rfl⟩
  rw [ptr, if_neg h0] at h
  cases l1 with
  | nil =>
    rw [hl rfl] at h
    cases h
  | cons b l1 =>
    rw [Option.some.inj h.head] at hn
    exact hn (mem_map_of_mem mem_cons_self)

/-- A loop along the list runs out of nodes before it runs out of fuel. -/
@[elab_as_elim]
theorem chain_rule {P : Nat → Nat → List Nat → Prop} (h : Chain (link m) (ptr temp) nodes) (hf : nodes.length < fuel)
    (hnil : ∀ fuel, P (fuel + 1) 0 [])
    (hcons : ∀ fuel a nodes, a ≠ 0 → P fuel (nodeNext m a) nodes → P (fuel + 1) a (a :: nodes)) : P fuel temp nodes := by
  induction nodes generalizing fuel temp with
  | nil =>
    obtain ⟨fuel, rfl⟩ : ∃ k, fuel = k + 1 := ⟨fuel - 1, by omega⟩
    rw [ptr_none h.eq_head?]
    exact hnil fuel
  | cons b nodes ih =>
    obtain ⟨fuel, rfl⟩ : ∃ k, fuel = k + 1 := ⟨fuel - 1, by omega⟩
    obtain ⟨rfl, h0⟩ := ptr_some h.head
    exact hcons fuel temp nodes h0 (ih (h.tail (l := [])) (Nat.lt_of_succ_lt_succ hf))

/-- `temp` goes to the first node with the key, and `prev` to the one before it. -/
theorem deleteLoop_eq (key : BitVec 32) (prev : Nat) (h : Chain (link m) (ptr temp) nodes) (hf : nodes.length < fuel) :
    deleteLoop m key fuel temp prev = some (nodes.getD ((nodes.map (nodeData m)).idxOf key) 0,
      (nodes.take ((nodes.map (nodeData m)).idxOf key)).getLastD prev) := by
  revert prev
  refine chain_rule h hf (fun fuel prev => ?_) (fun fuel a nodes h0 ih prev => ?_)
  · rw [deleteLoop, if_neg (fun hc => hc.1 rfl)]
    rfl
  · rw [map_cons]
    by_cases hk : nodeData m a = key
    · rw [deleteLoop, if_neg (fun hc => hc.2 hk), hk, idxOf_cons_self]
      rfl
    · rw [deleteLoop, if_pos ⟨h0, hk⟩, ih, idxOf_cons_ne _ hk, getD_cons_succ, take_succ_cons, getLastD_cons]

theorem searchLoop_eq (h : Chain (link m) (ptr temp) nodes) (hf : nodes.length < fuel) :
    searchLoop m key fuel temp = some (nodes.getD ((nodes.map (nodeData m)).idxOf key) 0) := by
  refine chain_rule h hf (fun fuel => ?_) (fun fuel a nodes h0 ih => ?_)
  · rw [searchLoop, if_pos rfl]
    rfl
  · rw [map_cons]
    by_cases hk : nodeData m a = key
    · rw [searchLoop, if_neg h0, if_pos hk, hk, idxOf_cons_self]
      rfl
    · rw [searchLoop, if_neg h0, if_neg hk, ih, idxOf_cons_ne _ hk, getD_cons_succ]

theorem printLoop_eq (h : Chain (link m) (ptr temp) nodes) (hf : nodes.length < fuel) :
    printLoop m fuel temp = nodes.map (nodeData m) := by
  refine chain_rule h hf (fun fuel => ?_) (fun fuel a nodes h0 ih => ?_)
  · rw [printLoop, if_pos rfl, map_nil]
  · rw [printLoop, if_neg h0, ih, map_cons]

/-- The nodes from `h` on are the pages `nodes`, with the values `l`. -/
structure Nodes (e : Nat) (s : Machine) (used : Finset Nat) (h : Nat) (nodes : List Nat) (l : List (BitVec 32)) : Prop where
  alloc : Alloc e s used
  sub : ∀ a ∈ nodes, a ∈ used
  chain : Chain (link s.mem) (ptr h) nodes
  data : nodes.map (nodeData s.mem) = l

/-- The list at `head_ref`, between two calls. -/
structure Rep (e : Nat) (s : State) (used : Finset Nat) (nodes : List Nat) (l : List (BitVec 32)) : Prop where
  nodes : Nodes e s.mach used s.headRef nodes l
  free : s.listLock = false
  depth : s.noff = 0

namespace Nodes

variable {h : Nat} {w w' : Machine} {used' : Finset Nat}

section

variable (hs : Nodes e w used h nodes l)

include hs

theorem aligned (ha : a ∈ nodes) : a % PGSIZE = 0 := (hs.alloc.page (hs.sub a ha)).1

theorem length_lt : nodes.length < NPAGES + 1 :=
  Nat.lt_succ_of_le (length_le_pages hs.chain.nodup (fun a ha => hs.alloc.page (hs.sub a ha)))

theorem ne_zero (he : 0 < e) (ha : a ∈ used) : a ≠ 0 := fun hc =>
  Nat.not_lt_of_le (hs.alloc.page ha).2.1 (hc ▸ he)

theorem congr (ha : Alloc e w' used') (hsub : ∀ a ∈ nodes, a ∈ used')
    (hm : ∀ a ∈ nodes, ∀ x, pgRoundDown x = a → w'.mem x = w.mem x) : Nodes e w' used' h nodes l := by
  have hnode : ∀ a ∈ nodes, nodeData w'.mem a = nodeData w.mem a ∧ nodeNext w'.mem a = nodeNext w.mem a ∧ _ := fun a ha =>
    node_congr (hs.aligned ha) (hm a ha)
  refine ⟨ha, hsub, chain_congr hs.chain (fun a ha => ?_), ?_⟩
  · rw [link, link, (hnode a ha).2.1]
  · rw [← hs.data]
    exact map_congr_left (fun a ha => (hnode a ha).1)

theorem head_lt : h < 2 ^ 64 := by
  cases hp : ptr h with
  | none =>
    rw [ptr_none hp]
    exact Nat.two_pow_pos 64
  | some b =>
    obtain ⟨rfl, -⟩ := ptr_some hp
    have hc := hs.chain
    rw [hp] at hc
    cases hc with
    | cons hc => exact page_lt (hs.alloc.page (hs.sub _ mem_cons_self))

theorem push (ha : Alloc e w' used) (hin : a ∈ used) (hn : a ∉ nodes) (h0 : a ≠ 0)
    (hm : ∀ y, pgRoundDown y ≠ a → w'.mem y = w.mem y) (hdata : nodeData w'.mem a = x) (hnext : nodeNext w'.mem a = h) :
    Nodes e w' used a (a :: nodes) (x :: l) := by
  have hold := hs.congr ha hs.sub (fun b hb y hy => hm y (by rw [hy]; exact fun hc => hn (hc ▸ hb)))
  have hptr : ptr a = some a := if_neg h0
  refine ⟨ha, forall_mem_cons.mpr ⟨hin, hs.sub⟩, ?_, ?_⟩
  · rw [hptr]
    refine Chain.cons ?_
    rw [link, hnext]
    exact hold.chain
  · rw [map_cons, hdata, hold.data]

end

theorem unlink (hs : Nodes e w used h (l1 ++ prev :: a :: l2) l) :
    Nodes e (w.setMem (setNext prev (nodeNext w.mem a) w.mem)) used h (l1 ++ prev :: l2)
      ((l1 ++ prev :: l2).map (nodeData w.mem)) := by
  have hp0 := hs.aligned (a := prev) (by simp)
  have hsub : ∀ b ∈ l1 ++ prev :: l2, b ∈ l1 ++ prev :: a :: l2 := fun b hb => (hs.chain.mem_unlink.mp hb).1
  have hother : ∀ b ∈ l1 ++ prev :: l2, b ≠ prev → ∀ y, pgRoundDown y = b →
      setNext prev (nodeNext w.mem a) w.mem y = w.mem y := fun b _ hb y hy => setNext_page hp0 (by rw [hy]; exact hb)
  refine ⟨hs.alloc.write (fun y hy => setNext_page hp0 (fun hc => hy (hc ▸ hs.sub prev (by simp)))),
    fun b hb => hs.sub b (hsub b hb), chain_congr hs.chain.unlink (fun b hb => ?_), map_congr_left (fun b hb => ?_)⟩
  · by_cases hbp : b = prev
    · subst hbp
      rw [Function.update_self]
      exact congrArg ptr (nodeNext_setNext nodeNext_lt)
    · rw [Function.update_of_ne hbp]
      exact congrArg ptr (node_congr (hs.aligned (hsub b hb)) (hother b hb hbp)).2.1
  · by_cases hbp : b = prev
    · subst hbp
      exact nodeData_setNext
    · exact (node_congr (hs.aligned (hsub b hb)) (hother b hb hbp)).1

theorem kfree (hs : Nodes e w used h nodes l) (he : 0 < e) (ha : a ∈ used) (hn : a ∉ nodes) :
    ∃ w', Vm.kfree e a w = .ok w' ∧ Nodes e w' (used.erase a) h nodes l := by
  obtain ⟨w', hk, halloc, hm⟩ := hs.alloc.kfree he ha
  have hne : ∀ b ∈ nodes, b ≠ a := fun b hb hc => hn (hc ▸ hb)
  exact ⟨w', hk, hs.congr halloc (fun b hb => Finset.mem_erase.mpr ⟨hne b hb, hs.sub b hb⟩)
    (fun b hb y hy => hm y (by rw [hy]; exact hne b hb))⟩

theorem update (hs : Nodes e w used h (l1 ++ a :: l2) l) :
    Nodes e (w.setMem (setData a x w.mem)) used h (l1 ++ a :: l2)
      (l1.map (nodeData w.mem) ++ x :: l2.map (nodeData w.mem)) := by
  have ha : a ∈ l1 ++ a :: l2 := by simp
  have ha0 := hs.aligned ha
  have hother : ∀ b ∈ l1 ++ a :: l2, b ≠ a → ∀ y, pgRoundDown y = b → setData a x w.mem y = w.mem y :=
    fun b _ hb y hy => setData_page ha0 (by rw [hy]; exact hb)
  obtain ⟨h1, h2⟩ := not_or.mp (fun hc => (nodup_middle.mp hs.chain.nodup).notMem (mem_append.mpr hc))
  refine ⟨hs.alloc.write (fun y hy => setData_page ha0 (fun hc => hy (hc ▸ hs.sub a ha))), hs.sub,
    chain_congr hs.chain (fun b hb => ?_), ?_⟩
  · by_cases hba : b = a
    · subst hba
      exact congrArg ptr nodeNext_setData
    · exact congrArg ptr (node_congr (hs.aligned hb) (hother b hb hba)).2.1
  · have hkeep : ∀ b ∈ l1 ++ a :: l2, b ≠ a → nodeData (setData a x w.mem) b = nodeData w.mem b := fun b hb hba =>
      (node_congr (hs.aligned hb) (hother b hb hba)).1
    rw [map_append, map_cons]
    change l1.map (nodeData (setData a x w.mem)) ++ nodeData (setData a x w.mem) a :: l2.map (nodeData (setData a x w.mem)) = _
    rw [setData_self, map_congr_left (fun b hb => hkeep b (by simp [hb]) (fun hc => h1 (hc ▸ hb))),
      map_congr_left (fun b hb => hkeep b (by simp [hb]) (fun hc => h2 (hc ▸ hb)))]

end Nodes

theorem first_value {f : Nat → BitVec 32} (l2 : List Nat) (x : BitVec 32) (hn : f a ∉ l1.map f) :
    f a ∈ (l1 ++ a :: l2).map f ∧ ((l1 ++ a :: l2).map f).idxOf (f a) = l1.length ∧ (l1 ++ a :: l2).getD (((l1 ++ a :: l2).map f).idxOf (f a)) 0 = a ∧
      (l1 ++ a :: l2).eraseIdx (((l1 ++ a :: l2).map f).idxOf (f a)) = l1 ++ l2 ∧
      ((l1 ++ a :: l2).map f).erase (f a) = (l1 ++ l2).map f ∧
      ((l1 ++ a :: l2).map f).replace (f a) x = l1.map f ++ x :: l2.map f := by
  have hidx : ((l1 ++ a :: l2).map f).idxOf (f a) = l1.length := by
    rw [map_append, map_cons, idxOf_append_of_notMem hn, idxOf_cons_self, length_map, add_zero]
  refine ⟨mem_map_of_mem (by simp), hidx, ?_, ?_, ?_, ?_⟩
  · rw [hidx, getD_append_right _ _ _ _ le_rfl, Nat.sub_self]
    rfl
  · rw [hidx, eraseIdx_append_of_length_le le_rfl, Nat.sub_self]
    rfl
  · rw [map_append, map_cons, erase_append_right _ hn, erase_cons_head, map_append]
  · rw [map_append, map_cons, replace_append_right hn, replace_cons_self]

theorem kalloc_spec (he : 0 < e) (h : Alloc e s.mach used) :
    Runs kalloc s (fun a t => ∃ w, t = { s with mach := w } ∧ a ≠ 0 ∧ a ∉ used ∧ Alloc e w (Insert.insert a used) ∧
      ∀ y, pgRoundDown y ≠ a → w.mem y = s.mem y) (· = .noMemory) := by
  unfold Runs kalloc
  rcases h.kalloc he with ⟨h0, -, -⟩ | ⟨h0, hn, hm, ha⟩
  · rw [if_pos h0]
  · rw [if_neg h0]
    exact ⟨_, rfl, h0, hn, ha, hm⟩

theorem initList_spec (he : 0 < e) (h : Alloc e s.mach used) (hl : s.listLock = false) (hd : s.noff = 0) :
    Runs initList s (fun _ t => ∃ a, Rep e t (Insert.insert a used) [a] [0]) (· = .noMemory) := by
  refine runs_bind.mpr ((kalloc_spec he h).mono ?_ (fun _ he => he))
  rintro a _ ⟨w, rfl, h0, hn, ha, -⟩
  have ha0 := (ha.page (Finset.mem_insert_self _ _)).1
  have halloc : Alloc e (w.setMem (setNext a 0 (setData a 0 w.mem))) (Insert.insert a used) := by
    refine ha.write (fun y hy => ?_)
    have hy : pgRoundDown y ≠ a := fun hc => hy (hc ▸ Finset.mem_insert_self _ _)
    rw [setNext_page ha0 hy, setData_page ha0 hy]
  refine ⟨a, ⟨halloc, fun b hb => ?_, ?_, ?_⟩, hl, hd⟩
  · rw [mem_singleton.mp hb]
    exact Finset.mem_insert_self _ _
  · have hptr : ptr a = some a := if_neg h0
    change Chain (link (setNext a 0 (setData a 0 w.mem))) (ptr a) [a]
    rw [hptr]
    refine Chain.cons ?_
    rw [link, nodeNext_setNext (Nat.two_pow_pos 64)]
    exact Chain.nil
  · exact congrArg (fun d => [d]) (nodeData_setNext.trans setData_self)

theorem insert_spec (he : 0 < e) (h : Rep e s used nodes l) :
    Runs (insert x) s (fun _ t => ∃ a, a ∉ used ∧ Rep e t (Insert.insert a used) (a :: nodes) (x :: l)) (· = .noMemory) := by
  refine runs_bind.mpr ((kalloc_spec he h.nodes.alloc).mono ?_ (fun _ he => he))
  rintro a _ ⟨w, rfl, h0, hn, ha, hm⟩
  refine runs_bind.mpr (runs_alter.mpr (runs_bind.mpr (Runs.of_eq (acquire_eq h.free) ?_)))
  refine runs_bind.mpr (runs_look.mpr (runs_bind.mpr (runs_alter.mpr (runs_bind.mpr ?_))))
  refine Runs.of_eq (release_eq rfl (congrArg (· + 1) h.depth)) (runs_bind.mpr ?_)
  refine (synchronizeRcu_spec rfl).safe ?_
  rintro _ _ rfl
  have hin : a ∈ Insert.insert a used := Finset.mem_insert_self a used
  have ha0 := (ha.page hin).1
  have hw : ∀ y, pgRoundDown y ≠ a → setNext a s.headRef (setData a x w.mem) y = w.mem y := fun y hy => by
    rw [setNext_page ha0 hy, setData_page ha0 hy]
  have halloc : Alloc e (w.setMem (setNext a s.headRef (setData a x w.mem))) (Insert.insert a used) :=
    ha.write (fun y hy => hw y (fun hc => hy (hc ▸ hin)))
  have hold : Nodes e w (Insert.insert a used) s.headRef nodes l :=
    h.nodes.congr ha (fun b hb => Finset.mem_insert_of_mem (h.nodes.sub b hb))
      (fun b hb y hy => hm y (by rw [hy]; exact fun hc => hn (hc ▸ h.nodes.sub b hb)))
  refine ⟨a, hn, hold.push halloc hin (fun hc => hn (h.nodes.sub a hc)) h0 hw ?_ ?_, rfl, rfl⟩
  · exact nodeData_setNext.trans setData_self
  · exact nodeNext_setNext h.nodes.head_lt

theorem reclaim_spec (he : 0 < e) (hs : Nodes e s.mach used s.headRef nodes l) (hl : s.listLock = true) (hd : s.noff = 1)
    (ha : a ∈ used) (hn : a ∉ nodes) :
    Runs (do release; synchronizeRcu; kfree e a) s (fun _ t => Rep e t (used.erase a) nodes l) (fun _ => False) := by
  refine runs_bind.mpr (Runs.of_eq (release_eq hl hd) (runs_bind.mpr ((synchronizeRcu_spec rfl).safe ?_)))
  rintro _ _ rfl
  obtain ⟨w', hk, hs'⟩ := hs.kfree he ha hn
  unfold Runs kfree
  rw [hk]
  exact ⟨hs', rfl, rfl⟩

theorem deleteNode_spec (he : 0 < e) (h : Rep e s used nodes l) :
    Runs (deleteNode e key) s (fun _ t => Rep e t (if key ∈ l then used.erase (nodes.getD (l.idxOf key) 0) else used)
      (nodes.eraseIdx (l.idxOf key)) (l.erase key)) (fun _ => False) := by
  have hs := h.nodes
  have hdata := hs.data
  subst hdata
  refine runs_bind.mpr (runs_look.mpr (runs_bind.mpr (Runs.of_eq (acquire_eq h.free) ?_)))
  have hloop := deleteLoop_eq key 0 hs.chain hs.length_lt
  rcases first_node (nodeData s.mem) key nodes with hn | ⟨l1, a, l2, rfl, hn, rfl⟩
  · -- The loop ends at the end of the list.
    have hhead := not_head [] (by rw [append_nil]; exact hs.chain) (fun _ => rfl) hn
    have hidx : (nodes.map (nodeData s.mem)).idxOf key = nodes.length := by
      rw [idxOf_of_notMem hn, length_map]
    rw [hidx, getD_eq_default _ _ le_rfl] at hloop
    rw [if_neg hhead, hloop]
    refine runs_ite.mpr ⟨fun _ => Runs.of_eq (release_eq rfl (congrArg (· + 1) h.depth)) ?_, fun hc => absurd rfl hc⟩
    rw [if_neg hn, hidx, eraseIdx_of_length_le le_rfl, erase_of_not_mem hn]
    exact ⟨hs, rfl, rfl⟩
  · have ha : a ∈ used := hs.sub a (by simp)
    have hnd : a ∉ l1 ++ l2 := (nodup_middle.mp hs.chain.nodup).notMem
    obtain ⟨hmem, hidx, hget, herase, hvals, -⟩ := first_value l2 0 hn
    rw [if_pos hmem, hget, herase, hvals]
    rcases eq_nil_or_concat' l1 with rfl | ⟨l1, prev, rfl⟩
    · -- The node is the first one.
      obtain ⟨hr, h0⟩ := ptr_some hs.chain.head
      rw [hr, if_pos ⟨h0, rfl⟩]
      refine runs_bind.mpr (runs_alter.mpr ?_)
      have hrest : Nodes e s.mach used (nodeNext s.mem a) l2 (l2.map (nodeData s.mem)) :=
        ⟨hs.alloc, fun b hb => hs.sub b (mem_cons_of_mem _ hb), hs.chain.tail (l := []), rfl⟩
      exact reclaim_spec he hrest rfl (congrArg (· + 1) h.depth) ha hnd
    · rw [hget, hidx, take_left, getLastD_concat] at hloop
      rw [if_neg (not_head _ hs.chain (fun hc => absurd hc (by simp)) hn), hloop]
      have hprev := hs.ne_zero he (hs.sub prev (by simp))
      refine runs_ite.mpr ⟨fun hc => absurd hc (hs.ne_zero he ha), fun _ => ?_⟩
      refine runs_ite.mpr ⟨fun hc => absurd hc hprev, fun _ => runs_bind.mpr (runs_alter.mpr ?_)⟩
      rw [append_assoc] at hs hnd ⊢
      exact reclaim_spec he hs.unlink rfl (congrArg (· + 1) h.depth) ha hnd

theorem search_spec (h : Rep e s used nodes l) :
    Runs (search key) s (fun r t => t = s ∧ r = nodes.getD (l.idxOf key) 0) (fun _ => False) := by
  have hs := h.nodes
  have hdata := hs.data
  subst hdata
  refine runs_bind.mpr (runs_look.mpr (runs_bind.mpr (runs_alter.mpr ?_)))
  rw [show searchLoop s.mem key (NPAGES + 1) s.headRef = _ from searchLoop_eq hs.chain hs.length_lt]
  refine runs_bind.mpr (runs_bind.mpr (runs_look.mpr (runs_ite.mpr ⟨fun hc => ?_, fun _ => ⟨?_, rfl⟩⟩)))
  · exact absurd hc (Nat.not_lt_of_le (Nat.succ_le_succ (Nat.zero_le _)))
  · change { s with noff := s.noff + 1 - 1 } = s
    rw [Nat.add_sub_cancel]

theorem updateNode_spec (he : 0 < e) (h : Rep e s used nodes l) :
    Runs (updateNode key x) s (fun _ t => Rep e t used nodes (l.replace key x)) (fun _ => False) := by
  refine runs_bind.mpr ((search_spec h).safe ?_)
  rintro _ t ⟨rfl, rfl⟩
  have hs := h.nodes
  have hdata := hs.data
  subst hdata
  rcases first_node (nodeData t.mem) key nodes with hn | ⟨l1, a, l2, rfl, hn, rfl⟩
  · rw [idxOf_of_notMem hn, length_map, getD_eq_default _ _ le_rfl, if_neg (fun hc => hc rfl),
      replace_of_not_mem hn]
    exact h
  · obtain ⟨-, -, hget, -, -, hvals⟩ := first_value l2 x hn
    rw [hget, hvals, if_pos (hs.ne_zero he (hs.sub a (by simp)))]
    exact ⟨hs.update, h.free, h.depth⟩

instance lawfulBEqWord : LawfulBEq (BitVec 32) := inferInstance

/-- What a call that returns `r` does with the pages: `used` and `used'` are the pages in use, `nodes` and `nodes'` the
nodes of the list with the values `l`. -/
def Effect (l : List (BitVec 32)) (used : Finset Nat) (nodes : List Nat) : Call → Nat → Finset Nat → List Nat → Prop
  | .insert _, _, used', nodes' => ∃ a, a ∉ used ∧ used' = Insert.insert a used ∧ nodes' = a :: nodes
  | .deleteNode key, _, used', nodes' =>
    (used' = if key ∈ l then used.erase (nodes.getD (l.idxOf key) 0) else used) ∧ nodes' = nodes.eraseIdx (l.idxOf key)
  | .search key, r, used', nodes' => used' = used ∧ nodes' = nodes ∧ r = nodes.getD (l.idxOf key) 0
  | .updateNode _ _, _, used', nodes' => used' = used ∧ nodes' = nodes

theorem call_spec (he : 0 < e) (h : Rep e s used nodes l) (c : Call) :
    Runs (call e c) s (fun r t => ∃ used' nodes', Rep e t used' nodes' (c.apply l) ∧ Effect l used nodes c r used' nodes')
      (· = .noMemory) := by
  cases c with
  | insert x =>
    refine runs_bind.mpr ((insert_spec he h).mono ?_ (fun _ he => he))
    rintro _ t ⟨a, hn, ht⟩
    exact ⟨_, _, ht, a, hn, rfl, rfl⟩
  | deleteNode key =>
    refine runs_bind.mpr ((deleteNode_spec he h).safe ?_)
    intro _ t ht
    exact ⟨_, _, ht, rfl, rfl⟩
  | search key =>
    refine (search_spec h).safe ?_
    rintro r _ ⟨rfl, rfl⟩
    exact ⟨used, nodes, h, rfl, rfl, rfl⟩
  | updateNode key x =>
    refine runs_bind.mpr ((updateNode_spec he h).safe ?_)
    intro _ t ht
    exact ⟨used, nodes, ht, rfl, rfl⟩

theorem calls_spec (he : 0 < e) (cs : List Call) (h : Rep e s used nodes l) :
    Runs (calls e cs) s (fun _ t => ∃ used' nodes', Rep e t used' nodes' (cs.foldl (fun l c => c.apply l) l)) (· = .noMemory) := by
  induction cs generalizing s used nodes l with
  | nil => exact ⟨used, nodes, h⟩
  | cons c cs ih =>
    refine runs_bind.mpr ((call_spec he h c).mono ?_ (fun _ he => he))
    rintro _ t ⟨used', nodes', ht, -⟩
    exact ih ht

theorem fromInit_spec (he : 0 < e) (h : Alloc e s.mach used) (hl : s.listLock = false) (hd : s.noff = 0) (cs : List Call) :
    Runs (fromInit e cs) s (fun _ t => ∃ used' nodes, Rep e t used' nodes (values cs)) (· = .noMemory) := by
  refine runs_bind.mpr ((initList_spec he h hl hd).mono ?_ (fun _ he => he))
  rintro _ t ⟨a, ht⟩
  exact calls_spec he cs ht

/-- The heap refines the list of values along every sequence of calls. -/
theorem fromInit_refines (he : 0 < e) (ha : Alloc e s.mach used) (hl : s.listLock = false) (hd : s.noff = 0) (cs : List Call) :
    (∀ f, fromInit e cs s = .error f → f = .noMemory) ∧
      ∀ t, fromInit e cs s = .ok ((), t) → ∃ used nodes, Rep e t used nodes (values cs) ∧ ∀ c,
        (∀ f, call e c t = .error f → f = .noMemory) ∧
        ∀ r u, call e c t = .ok (r, u) → u.listLock = t.listLock ∧ u.noff = t.noff ∧
          ∃ used' nodes', Rep e u used' nodes' (c.apply (values cs)) ∧ Effect (values cs) used nodes c r used' nodes' := by
  have hrun := fromInit_spec he ha hl hd cs
  refine ⟨fun f hf => hrun.error hf, fun t ht => ?_⟩
  obtain ⟨used, nodes, hrep⟩ := hrun.ok ht
  refine ⟨used, nodes, hrep, fun c => ?_⟩
  have hcall := call_spec he hrep c
  refine ⟨fun f hf => hcall.error hf, fun r u hu => ?_⟩
  obtain ⟨used', nodes', hu', heff⟩ := hcall.ok hu
  exact ⟨hu'.free.trans hrep.free.symm, hu'.depth.trans hrep.depth.symm, used', nodes', hu', heff⟩

def fourFree : State := ⟨fourPages, 0, false, 0, -1⟩

/-- A page that was freed is used again for a new node. -/
theorem fromInit_refines_four :
    ∃ t, fromInit fourEnd [.insert 5, .insert 7, .deleteNode 5, .insert 9, .updateNode 0 5] fourFree = .ok ((), t) ∧
      ∃ used nodes, Rep fourEnd t used nodes [9, 7, 5] ∧ t.headRef = PHYSTOP - 2 * PGSIZE := by
  have hok : (match fromInit fourEnd [.insert 5, .insert 7, .deleteNode 5, .insert 9, .updateNode 0 5] fourFree with
      | .ok (_, t) => decide (t.headRef = PHYSTOP - 2 * PGSIZE)
      | .error _ => false) = true := by decide +kernel
  cases hrun : fromInit fourEnd [.insert 5, .insert 7, .deleteNode 5, .insert 9, .updateNode 0 5] fourFree with
  | error f => exact absurd hok (by rw [hrun]; exact Bool.false_ne_true)
  | ok p =>
    rw [hrun] at hok
    obtain ⟨used, nodes, hrep, -⟩ := (fromInit_refines (by decide) fourPages_alloc rfl rfl _).2 p.2 hrun
    exact ⟨p.2, rfl, used, nodes, hrep, of_decide_eq_true hok⟩

end Lists

end Xv6Rcu.ListHeap

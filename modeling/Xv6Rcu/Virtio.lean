import Xv6Rcu.Transition

namespace Xv6Rcu.Virtio

open Transition Function

def NUM : Nat := 8

/-- Ring indices are `uint16`. -/
def WRAP : Nat := 2 ^ 16

def BSIZE : Nat := 1024

def F_NEXT : Nat := 1

def F_WRITE : Nat := 2

variable (T B : Type) [DecidableEq T] [DecidableEq B]

inductive Addr where
  | null
  | op (i : Nat)
  | data (b : B)
  | status (i : Nat)

/-- `struct virtq_desc`. -/
structure Desc where
  addr : Addr B
  len : Nat
  flags : Nat
  next : Nat

/-- `struct virtio_blk_req`; `reserved` is zero. -/
structure Op where
  out : Bool
  sector : Nat

/-- `idx[3]` of `virtio_disk_rw`. -/
structure Idx where
  i0 : Nat
  i1 : Nat
  i2 : Nat
  deriving DecidableEq

inductive Panic where
  | freeDesc1 | freeDesc2 | intrStatus | nullBuf
  deriving DecidableEq

/-- The part of `struct disk` that the driver writes: descriptors, available
ring and the driver's own tables; and `disk` of the buffers. -/
structure Disk where
  desc : Nat → Desc B
  ring : Nat → Nat
  idx : Nat
  free : Nat → Bool
  usedIdx : Nat
  infoB : Nat → Option B
  infoStatus : Nat → Nat
  ops : Nat → Op
  disk : B → Bool

/-- Where a process is in `virtio_disk_rw` or `virtio_disk_intr`. `k` is the
number of its request. -/
inductive Pc where
  | idle
  | enter (b : B) (write : Bool)
  | alloc (b : B) (write : Bool)
  | allocSleep (b : B) (write : Bool)
  | format (b : B) (write : Bool) (c : Idx)
  | ring (b : B) (c : Idx)
  | bump (b : B) (c : Idx)
  | wait (b : B) (c : Idx) (k : Nat)
  | waitSleep (b : B) (c : Idx) (k : Nat)
  | clear (b : B) (c : Idx) (k : Nat)
  | freeChain (b : B) (k i : Nat) (rest : List Nat)
  | leave (b : B) (k : Nat)
  | intrEnter
  | intrTest
  | intrRead
  | intrStatus (id : Nat)
  | intrBuf (id : Nat)
  | intrBump
  | intrLeave
  deriving DecidableEq

/-- The driver, the used ring and the device: `taken` is its place in the
available ring, `work` and `ready` are the chains it works on, before and after
it has written the status, and `posting` is one that it has written to the used
ring. The rest is history: `req` is the number of the last request of each
chain. -/
structure State where
  d : Disk B
  lock : Option T
  pc : T → Pc B
  usedRing : Nat → Nat
  usedIdx : Nat
  taken : Nat
  work : List Nat
  ready : List Nat
  posting : Option Nat
  req : Nat → Nat
  issued : Nat
  completed : List Nat
  panic : Option Panic

inductive Call where
  | rw (b : B) (write : Bool)
  | intr

inductive Act where
  | proc (t : T) (call : Call B)
  | take
  | writeStatus (h : Nat)
  | post (h : Nat)
  | publish

instance : Inhabited (Act T B) := ⟨.take⟩

variable {T B}

section Driver

def allocDesc (d : Disk B) : Option (Nat × Disk B) :=
  match (List.range NUM).find? (fun i => d.free i) with
  | none => none
  | some i => some (i, { d with free := update d.free i false })

def freeDesc (d : Disk B) (i : Nat) : Except Panic (Disk B) :=
  if NUM ≤ i then .error .freeDesc1
  else if d.free i = true then .error .freeDesc2
  else .ok { d with desc := update d.desc i ⟨.null, 0, 0, 0⟩, free := update d.free i true }

/-- `alloc3_desc`; without indices when there are too few descriptors. -/
def alloc3Desc (d : Disk B) : Except Panic (Option Idx × Disk B) :=
  match allocDesc d with
  | none => .ok (none, d)
  | some (i0, d0) =>
    match allocDesc d0 with
    | none => (freeDesc d0 i0).map (fun d => (none, d))
    | some (i1, d1) =>
      match allocDesc d1 with
      | none => (freeDesc d1 i0).bind (fun d => (freeDesc d i1).map (fun d => (none, d)))
      | some (i2, d2) => .ok (some ⟨i0, i1, i2⟩, d2)

/-- The three descriptors of a request for `b`. -/
def format (blockno : B → Nat) (b : B) (write : Bool) (c : Idx) (d : Disk B) : Disk B :=
  { d with
    ops := update d.ops c.i0 ⟨write, blockno b * (BSIZE / 512)⟩
    desc := update (update (update d.desc
      c.i0 ⟨.op c.i0, 16, F_NEXT, c.i1⟩)
      c.i1 ⟨.data b, BSIZE, (if write then 0 else F_WRITE) ||| F_NEXT, c.i2⟩)
      c.i2 ⟨.status c.i0, 1, F_WRITE, 0⟩
    infoStatus := update d.infoStatus c.i0 0xff
    infoB := update d.infoB c.i0 (some b)
    disk := update d.disk b true }

end Driver

def State.goto (s : State T B) (t : T) (q : Pc B) : State T B := { s with pc := update s.pc t q }

def State.acquire (s : State T B) (t : T) (q : Pc B) : Option (State T B) :=
  if s.lock = none then some { s.goto t q with lock := some t } else none

def State.release (s : State T B) (t : T) (q : Pc B) : State T B := { s.goto t q with lock := none }

/-- A step of process `t`; a sleeping process may wake up at any time. -/
def procStep (blockno : B → Nat) (s : State T B) (t : T) (call : Call B) : Option (State T B) :=
  match s.pc t with
  | .idle =>
    match call with
    | .rw b write => some (s.goto t (.enter b write))
    | .intr => some (s.goto t .intrEnter)
  | .enter b write => s.acquire t (.alloc b write)
  | .alloc b write =>
    match alloc3Desc s.d with
    | .error e => some { s with panic := some e }
    | .ok (none, d) => some { s.release t (.allocSleep b write) with d := d }
    | .ok (some c, d) => some { s.goto t (.format b write c) with d := d }
  | .allocSleep b write => s.acquire t (.alloc b write)
  | .format b write c => some { s.goto t (.ring b c) with d := format blockno b write c s.d }
  | .ring b c =>
    some { s.goto t (.bump b c) with d := { s.d with ring := update s.d.ring (s.d.idx % NUM) c.i0 } }
  | .bump b c =>
    some { s.goto t (.wait b c s.issued) with
      d := { s.d with idx := (s.d.idx + 1) % WRAP }
      req := update s.req c.i0 s.issued
      issued := s.issued + 1 }
  | .wait b c k =>
    if s.d.disk b = true then some (s.release t (.waitSleep b c k)) else some (s.goto t (.clear b c k))
  | .waitSleep b c k => s.acquire t (.wait b c k)
  | .clear b c k =>
    some { s.goto t (.freeChain b k c.i0 [c.i1, c.i2]) with
      d := { s.d with infoB := update s.d.infoB c.i0 none } }
  | .freeChain b k i rest =>
    match freeDesc s.d i with
    | .error e => some { s with panic := some e }
    | .ok d =>
      if (s.d.desc i).flags &&& F_NEXT ≠ 0 then
        some { s.goto t (.freeChain b k (s.d.desc i).next rest.tail) with d := d }
      else some { s.goto t (.leave b k) with d := d }
  | .leave _ _ => some (s.release t .idle)
  | .intrEnter => s.acquire t .intrTest
  | .intrTest => if s.d.usedIdx ≠ s.usedIdx then some (s.goto t .intrRead) else some (s.goto t .intrLeave)
  | .intrRead => some (s.goto t (.intrStatus (s.usedRing (s.d.usedIdx % NUM))))
  | .intrStatus id =>
    if s.d.infoStatus id ≠ 0 then some { s with panic := some .intrStatus } else some (s.goto t (.intrBuf id))
  | .intrBuf id =>
    match s.d.infoB id with
    | none => some { s with panic := some .nullBuf }
    | some b => some { s.goto t .intrBump with d := { s.d with disk := update s.d.disk b false } }
  | .intrBump => some { s.goto t .intrTest with d := { s.d with usedIdx := (s.d.usedIdx + 1) % WRAP } }
  | .intrLeave => some (s.release t .idle)

/-- The device puts zero where the last descriptor of the chain points to. -/
def putStatus (d : Disk B) (h : Nat) : Disk B :=
  match (d.desc (d.desc (d.desc h).next).next).addr with
  | .status i => { d with infoStatus := update d.infoStatus i 0 }
  | _ => d

def step (blockno : B → Nat) : Step (State T B) (Act T B) := fun s a =>
  if s.panic ≠ none then none
  else match a with
    | .proc t call => procStep blockno s t call
    | .take =>
      if s.taken = s.d.idx then none
      else some { s with taken := (s.taken + 1) % WRAP, work := s.d.ring (s.taken % NUM) :: s.work }
    | .writeStatus h =>
      if h ∈ s.work then some { s with d := putStatus s.d h, work := s.work.erase h, ready := h :: s.ready } else none
    | .post h =>
      if h ∈ s.ready ∧ s.posting = none then
        some { s with usedRing := update s.usedRing (s.usedIdx % NUM) h, ready := s.ready.erase h,
                      posting := some h }
      else none
    | .publish =>
      match s.posting with
      | none => none
      | some h =>
        some { s with usedIdx := (s.usedIdx + 1) % WRAP, posting := none, completed := s.req h :: s.completed }

/-- After `virtio_disk_init`; what is in the tables does not matter. -/
def init (d : Disk B) (usedRing : Nat → Nat) (req : Nat → Nat) : State T B where
  d := { d with idx := 0, usedIdx := 0, free := fun _ => true, disk := fun _ => false }
  lock := none
  pc := fun _ => .idle
  usedRing := usedRing
  usedIdx := 0
  taken := 0
  work := []
  ready := []
  posting := none
  req := req
  issued := 0
  completed := []
  panic := none

def Pc.buf : Pc B → Option B
  | .enter b _ | .alloc b _ | .allocSleep b _ | .format b _ _ | .ring b _ | .bump b _ | .wait b _ _ | .waitSleep b _ _
  | .clear b _ _ | .freeChain b _ _ _ | .leave b _ => some b
  | _ => none

/-- Buffers are locked: no two processes are in `virtio_disk_rw` with the same one. -/
def Valid (s : State T B) : Act T B → Prop
  | .proc t (.rw b _) => s.pc t = .idle → ∀ u, (s.pc u).buf ≠ some b
  | _ => True

instance [Fintype T] (s : State T B) (a : Act T B) : Decidable (Valid s a) := by
  unfold Valid
  split <;> infer_instance

end Xv6Rcu.Virtio

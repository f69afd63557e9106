import Xv6Rcu.Ring
import Xv6Rcu.Threads
import Xv6Rcu.Transition

namespace Xv6Rcu.Bcache

open Ring Threads Transition Function

section Lists

def NBUF : Nat := 30

def ROOTDEV : Nat := 1

/-- `bcache.head`, after the buffers `0, ..., NBUF - 1`. -/
def head : Nat := NBUF

/-- The `next` and `prev` fields. -/
structure Links where
  next : Nat → Nat
  prev : Nat → Nat

def Links.setNext (l : Links) (i j : Nat) : Links := { l with next := update l.next i j }

def Links.setPrev (l : Links) (i j : Nat) : Links := { l with prev := update l.prev i j }

/-- The first two stores of the list surgery in `brelse`. -/
def Links.unlink (l : Links) (b : Nat) : Links :=
  let l := l.setPrev (l.next b) (l.prev b)
  l.setNext (l.prev b) (l.next b)

/-- The other four, which are those of `binit`. -/
def Links.pushFront (l : Links) (b : Nat) : Links :=
  let l := l.setNext b (l.next head)
  let l := l.setPrev b head
  let l := l.setPrev (l.next head) b
  l.setNext head b

/-- The list that `binit` creates. -/
def binit : Links := (List.range NBUF).foldl Links.pushFront ⟨fun _ => head, fun _ => head⟩

def Links.Full (l : Links) : Prop := ∃ bs, IsRing l.next l.prev head bs ∧ bs.Perm (List.range NBUF)

end Lists

section Model

variable {D : Type}

structure Buf (D : Type) where
  valid : Bool
  dev : Nat
  blockno : Nat
  lock : Option Nat
  refcnt : Nat
  data : D

inductive Panic where
  | noBuffers | bwrite | brelse
  deriving DecidableEq

/-- One use of a buffer, from `bread` to the end of `brelse`: it waits for the
sleep lock, has the lock, has returned from `bread`, or has given the lock back. -/
inductive Pc where
  | idle
  | waiting (dev blockno i : Nat)
  | locked (dev blockno i : Nat)
  | holding (dev blockno i : Nat)
  | releasing (i : Nat)
  | stopped (e : Panic)
  deriving DecidableEq

/-- A process that has several buffers at hand is several users. The device has
its blocks by number only. The last three fields only record: the content that
was last stored in a block, the pins of a buffer, and whether a buffer was
changed after it was last read or written. -/
structure State (D : Type) where
  buf : Nat → Buf D
  links : Links
  disk : Nat → D
  pc : Nat → Pc
  stored : Nat → D
  pins : Nat → Nat
  dirty : Nat → Bool

namespace State

def setPc (s : State D) (p : Nat) (q : Pc) : State D := { s with pc := update s.pc p q }

def setBuf (s : State D) (i : Nat) (x : Buf D) : State D := { s with buf := update s.buf i x }

end State

/-- The cache after `binit`; static data is zero. -/
def boot (d : Nat → D) (zero : D) : State D where
  buf := fun _ => ⟨false, 0, 0, none, 0, zero⟩
  links := binit
  disk := d
  pc := fun _ => .idle
  stored := d
  pins := fun _ => 0
  dirty := fun _ => false

inductive Act (D : Type) where
  | bget (p dev blockno : Nat)
  | acquiresleep (p : Nat)
  | bread (p : Nat)
  | modify (p : Nat) (d : D)
  | bwrite (p : Nat)
  | bpin (p : Nat)
  | bunpin (p : Nat)
  | brelse (p : Nat)
  | drop (p : Nat)

instance : Inhabited (Act D) := ⟨.drop 0⟩

/-- The first loop of `bget`. -/
def cached (s : State D) (dev blockno : Nat) : Option Nat :=
  walk s.links.next head (fun i => (s.buf i).dev == dev && (s.buf i).blockno == blockno) (NBUF + 1)
    (s.links.next head)

/-- The second loop of `bget`. -/
def unused (s : State D) : Option Nat :=
  walk s.links.prev head (fun i => (s.buf i).refcnt == 0) (NBUF + 1) (s.links.prev head)

/-- `bget` up to `acquiresleep`, under `bcache.lock`. -/
def bget (s : State D) (p dev blockno : Nat) : State D :=
  match cached s dev blockno with
  | some i =>
    (s.setBuf i { s.buf i with refcnt := (s.buf i).refcnt + 1 }).setPc p (.waiting dev blockno i)
  | none =>
    match unused s with
    | some i =>
      (s.setBuf i { s.buf i with dev := dev, blockno := blockno, valid := false, refcnt := 1 }).setPc p
        (.waiting dev blockno i)
    | none => s.setPc p (.stopped .noBuffers)

/-- `bread` once it has the buffer. -/
def bread (s : State D) (i : Nat) : State D :=
  if (s.buf i).valid then s
  else s.setBuf i { s.buf i with data := s.disk (s.buf i).blockno, valid := true }

/-- `virtio_disk_rw(b, 1)`. -/
def bwrite (s : State D) (i : Nat) : State D :=
  { s with
    disk := update s.disk (s.buf i).blockno (s.buf i).data
    dirty := update s.dirty i false }

/-- `brelse` after `releasesleep`, under `bcache.lock`. -/
def drop (s : State D) (i : Nat) : State D :=
  let t := s.setBuf i { s.buf i with refcnt := (s.buf i).refcnt - 1 }
  if (t.buf i).refcnt = 0 then { t with links := (t.links.unlink i).pushFront i } else t

def step : Step (State D) (Act D) := fun s a =>
  match a with
  | .bget p dev blockno =>
    match s.pc p with
    | .idle => some (bget s p dev blockno)
    | _ => none
  | .acquiresleep p =>
    match s.pc p with
    | .waiting dev blockno i =>
      if (s.buf i).lock = none then
        some ((s.setBuf i { s.buf i with lock := some p }).setPc p (.locked dev blockno i))
      else none
    | _ => none
  | .bread p =>
    match s.pc p with
    | .locked dev blockno i => some ((bread s i).setPc p (.holding dev blockno i))
    | _ => none
  | .modify p d =>
    match s.pc p with
    | .holding _ _ i =>
      some { s.setBuf i { s.buf i with data := d } with
        stored := update s.stored (s.buf i).blockno d
        dirty := update s.dirty i true }
    | _ => none
  | .bwrite p =>
    match s.pc p with
    | .holding _ _ i =>
      some (if (s.buf i).lock = some p then bwrite s i else s.setPc p (.stopped .bwrite))
    | _ => none
  | .bpin p =>
    match s.pc p with
    | .holding _ _ i =>
      some { s.setBuf i { s.buf i with refcnt := (s.buf i).refcnt + 1 } with
        pins := update s.pins i (s.pins i + 1) }
    | _ => none
  | .bunpin p =>
    match s.pc p with
    | .holding _ _ i =>
      some { s.setBuf i { s.buf i with refcnt := (s.buf i).refcnt - 1 } with
        pins := update s.pins i (s.pins i - 1) }
    | _ => none
  | .brelse p =>
    match s.pc p with
    | .holding _ _ i =>
      some (if (s.buf i).lock = some p then
          (s.setBuf i { s.buf i with lock := none }).setPc p (.releasing i)
        else s.setPc p (.stopped .brelse))
    | _ => none
  | .drop p =>
    match s.pc p with
    | .releasing i => some ((drop s i).setPc p .idle)
    | _ => none

/-- The user `x` of a buffer may let it go: its content is on the disk or it is
pinned by `log_write`. -/
def Saved (s : State D) : Pc → Prop
  | .holding _ _ i => s.dirty i = false ∨ 0 < s.pins i
  | _ => True

def Pinned (s : State D) : Pc → Prop
  | .holding _ _ i => 0 < s.pins i
  | _ => True

/-- How the kernel uses the cache: for the root device, and with `log_write` or
`bwrite` between a change and `brelse`; `bunpin` undoes a `bpin`. -/
def Proper (s : State D) : Act D → Prop
  | .bget _ dev _ => dev = ROOTDEV
  | .brelse p => Saved s (s.pc p)
  | .bunpin p => Pinned s (s.pc p)
  | _ => True

instance (s : State D) (x : Pc) : Decidable (Saved s x) :=
  match x with
  | .holding _ _ i => inferInstanceAs (Decidable (s.dirty i = false ∨ 0 < s.pins i))
  | .idle | .waiting _ _ _ | .locked _ _ _ | .releasing _ | .stopped _ => inferInstanceAs (Decidable True)

instance (s : State D) (x : Pc) : Decidable (Pinned s x) :=
  match x with
  | .holding _ _ i => inferInstanceAs (Decidable (0 < s.pins i))
  | .idle | .waiting _ _ _ | .locked _ _ _ | .releasing _ | .stopped _ => inferInstanceAs (Decidable True)

instance (s : State D) (a : Act D) : Decidable (Proper s a) :=
  match a with
  | .bget _ dev _ => inferInstanceAs (Decidable (dev = ROOTDEV))
  | .brelse p => inferInstanceAs (Decidable (Saved s (s.pc p)))
  | .bunpin p => inferInstanceAs (Decidable (Pinned s (s.pc p)))
  | .acquiresleep _ | .bread _ | .modify _ _ | .bwrite _ | .bpin _ | .drop _ =>
    inferInstanceAs (Decidable True)

/-- The user is a holder of buffer `i` or waits for it. -/
def uses (i : Nat) : Pc → Bool
  | .waiting _ _ j | .locked _ _ j | .holding _ _ j | .releasing j => i == j
  | .idle | .stopped _ => false

end Model

end Xv6Rcu.Bcache

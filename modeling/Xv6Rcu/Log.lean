import Xv6Rcu.Transition

namespace Xv6Rcu.Log

open Transition Function

def MAXOPBLOCKS : Nat := 10

def LOGSIZE : Nat := MAXOPBLOCKS * 3

abbrev Block := Nat → Nat

/-- `log.start` and `log.size`, as `initlog` has them from the super block; the
header is part of the log. -/
structure Area where
  start : Nat
  size : Nat
  pos : 0 < size

/-- What `mkfs` writes to the super block: `logstart` and `nlog`. -/
def mkfs : Area := ⟨2, LOGSIZE, by decide⟩

def Area.Outside (A : Area) (b : Nat) : Prop := b < A.start ∨ A.start + A.size ≤ b

instance (A : Area) (b : Nat) : Decidable (A.Outside b) := inferInstanceAs (Decidable (_ ∨ _))

/-- The log block for position `tail` of the header. -/
def Area.slot (A : Area) (tail : Nat) : Nat := A.start + tail + 1

/-- The block numbers of a header block: `n`, then `block[0..n)`. -/
def readHead (d : Block) : List Nat := (List.range (d 0)).map (fun i => d (i + 1))

/-- The header block with the in-memory header copied over it. -/
def putHead (lh : List Nat) (d : Block) : Block := fun w =>
  if w = 0 then lh.length else if w ≤ lh.length then lh.getD (w - 1) 0 else d w

inductive Panic where
  | tooBig | outsideTrans | committing
  deriving DecidableEq

/-- The places in `commit` and, after it, in `end_op`. -/
inductive CommitPc where
  | start
  | writeLog (tail : Nat)
  | writeHead
  | install (tail : Nat)
  | clear | eraseHead | finish
  deriving DecidableEq

/-- A process is outside of the log code, between `begin_op` and `end_op` with
the blocks it has passed to `log_write`, or commits. -/
inductive Pc where
  | idle
  | op (id : Nat) (blocks : List Nat)
  | commit (c : CommitPc)
  | stopped (e : Panic)
  deriving DecidableEq

/-- The places in `recover_from_log`. -/
inductive RecoverPc where
  | readHead
  | install (tail : Nat)
  | clear | writeHead
  deriving DecidableEq

/-- Operation `op` stores `data` in the buffer of block `block`. -/
structure Update where
  op : Nat
  block : Nat
  data : Block

/-- `buf b` is what `bread` returns for block `b`: the data of its buffer, or of
the disk if it has none. `holder` is the owner of the buffer's lock, `pinned`
says that the log has a reference to the buffer. The rest only records: `dirty`
buffers have been changed and not yet passed to `log_write`, `made` are all
updates, `cur` those of the transaction under way, `hist` those of the committed
ones; `closing` and `durable` are the operations that have ended and those whose
commit has returned. -/
structure State where
  disk : Nat → Block
  buf : Nat → Block
  holder : Nat → Option Nat
  pinned : Nat → Bool
  lh : List Nat
  outstanding : Nat
  committing : Bool
  pc : Nat → Pc
  recovery : Option RecoverPc
  dirty : List Nat
  nextop : Nat
  made : List Update
  cur : List Update
  hist : List (List Update)
  closing : List Nat
  durable : List Nat

namespace State

def setPc (s : State) (p : Nat) (q : Pc) : State := { s with pc := update s.pc p q }

/-- `memmove` to the data of a buffer, then `bwrite`. -/
def bwrite (s : State) (b : Nat) (d : Block) : State :=
  { s with buf := update s.buf b d, disk := update s.disk b d }

def unpin (s : State) (b : Nat) : State := { s with pinned := update s.pinned b false }

end State

/-- The machine with a disk at hand, before recovery. -/
def boot (d : Nat → Block) : State where
  disk := d
  buf := d
  holder := fun _ => none
  pinned := fun _ => false
  lh := []
  outstanding := 0
  committing := false
  pc := fun _ => .idle
  recovery := some .readHead
  dirty := []
  nextop := 0
  made := []
  cur := []
  hist := []
  closing := []
  durable := []

inductive Act where
  | beginOp (p : Nat)
  | bread (p b : Nat)
  | modify (p b : Nat) (d : Block)
  | logWrite (p b : Nat)
  | brelse (p b : Nat)
  | endOp (p : Nat)
  | commit (p : Nat)
  | recycle (b : Nat)
  | crash
  | recover

instance : Inhabited Act := ⟨.crash⟩

/-- `begin_op`; a process that finds no room sleeps. -/
def beginOp (s : State) (p : Nat) : Option State :=
  match s.pc p with
  | .idle =>
    if s.committing then none
    else if s.lh.length + (s.outstanding + 1) * MAXOPBLOCKS > LOGSIZE then none
    else some { s with
      outstanding := s.outstanding + 1
      pc := update s.pc p (.op s.nextop [])
      nextop := s.nextop + 1 }
  | _ => none

/-- `log_write` by a process that holds the buffer. -/
def logWrite (A : Area) (s : State) (p b : Nat) : Option State :=
  match s.pc p with
  | .op id blocks =>
    if s.holder b ≠ some p then none
    else if LOGSIZE ≤ s.lh.length ∨ A.size - 1 ≤ s.lh.length then some (s.setPc p (.stopped .tooBig))
    else if s.outstanding < 1 then some (s.setPc p (.stopped .outsideTrans))
    else
      let t := s.setPc p (.op id (if b ∈ blocks then blocks else b :: blocks))
      -- A block that is in the log already is absorbed.
      some (if b ∈ s.lh then { t with dirty := s.dirty.filter (· ≠ b) }
        else { t with
          dirty := s.dirty.filter (· ≠ b)
          pinned := update s.pinned b true
          lh := s.lh ++ [b] })
  | _ => none

/-- `end_op` up to its first `release`. -/
def endOp (s : State) (p : Nat) : Option State :=
  match s.pc p with
  | .op id _ =>
    if s.committing then
      some { s with outstanding := s.outstanding - 1, pc := update s.pc p (.stopped .committing) }
    else if s.outstanding - 1 = 0 then
      some { s with
        outstanding := s.outstanding - 1
        committing := true
        closing := id :: s.closing
        pc := update s.pc p (.commit .start) }
    else
      some { s with
        outstanding := s.outstanding - 1
        closing := id :: s.closing
        pc := update s.pc p .idle }
  | _ => none

/-- An iteration of `write_log` for the block at position `tail`. -/
def writeLog (A : Area) (s : State) (tail b : Nat) : Option State :=
  if s.holder b = none then some (s.bwrite (A.slot tail) (s.buf b)) else none

/-- An iteration of `install_trans`. -/
def installTrans (A : Area) (s : State) (tail b : Nat) : Option State :=
  if s.holder b = none then some (s.bwrite b (s.buf (A.slot tail))) else none

def writeHead (A : Area) (s : State) : State := s.bwrite A.start (putHead s.lh (s.buf A.start))

/-- `commit`, one disk write at a time. The first `write_head` is the point from
which on the transaction counts as committed. -/
def commit (A : Area) (s : State) (p : Nat) : CommitPc → Option State
  | .start => some (s.setPc p (.commit (if 0 < s.lh.length then .writeLog 0 else .finish)))
  | .writeLog tail =>
    match s.lh[tail]? with
    | some b => (writeLog A s tail b).map (fun t => t.setPc p (.commit (.writeLog (tail + 1))))
    | none => some (s.setPc p (.commit .writeHead))
  | .writeHead =>
    some { (writeHead A s).setPc p (.commit (.install 0)) with hist := s.hist ++ [s.cur], cur := [] }
  | .install tail =>
    match s.lh[tail]? with
    | some b => (installTrans A s tail b).map (fun t => (t.unpin b).setPc p (.commit (.install (tail + 1))))
    | none => some (s.setPc p (.commit .clear))
  | .clear => some { s.setPc p (.commit .eraseHead) with lh := [] }
  | .eraseHead => some ((writeHead A s).setPc p (.commit .finish))
  | .finish =>
    some { s.setPc p .idle with committing := false, durable := s.closing ++ s.durable, closing := [] }

/-- `recover_from_log`, one disk write at a time. -/
def recover (A : Area) (s : State) : RecoverPc → Option State
  | .readHead => some { s with lh := readHead (s.buf A.start), recovery := some (.install 0) }
  | .install tail =>
    match s.lh[tail]? with
    | some b => (installTrans A s tail b).map (fun t => { t with recovery := some (.install (tail + 1)) })
    | none => some { s with recovery := some .clear }
  | .clear => some { s with lh := [], recovery := some .writeHead }
  | .writeHead => some { writeHead A s with recovery := none }

def crash (s : State) : State :=
  { boot s.disk with nextop := s.nextop, made := s.made, hist := s.hist, durable := s.durable }

def work (A : Area) (s : State) : Act → Option State
  | .beginOp p => beginOp s p
  | .bread p b =>
    if s.holder b = none then some { s with holder := update s.holder b (some p) } else none
  | .modify p b d =>
    match s.pc p with
    | .op id _ =>
      if s.holder b = some p then
        some { s with
          buf := update s.buf b d
          dirty := b :: s.dirty
          made := s.made ++ [⟨id, b, d⟩]
          cur := s.cur ++ [⟨id, b, d⟩] }
      else none
    | _ => none
  | .logWrite p b => logWrite A s p b
  | .brelse p b =>
    if s.holder b = some p then some { s with holder := update s.holder b none } else none
  | .endOp p => endOp s p
  | .commit p =>
    match s.pc p with
    | .commit c => commit A s p c
    | _ => none
  | .recycle b =>
    -- Only a buffer that nobody refers to is given to another block.
    if s.holder b = none ∧ s.pinned b = false then
      some { s with buf := update s.buf b (s.disk b) }
    else none
  | .crash | .recover => none

def step (A : Area) : Step State Act := fun s a =>
  match a, s.recovery with
  | .crash, _ => some (crash s)
  | .recover, some r => recover A s r
  | a, none => work A s a
  | _, some _ => none

/-- How file-system code uses the log: it changes and logs only blocks outside
the log area, and passes a buffer that it has changed to `log_write` before it
releases it and before the operation ends. -/
def Proper (A : Area) (s : State) : Act → Prop
  | .modify _ b _ | .logWrite _ b => A.Outside b
  | .brelse _ b => b ∉ s.dirty
  | .endOp p => ∀ b ∈ s.dirty, s.holder b ≠ some p
  | _ => True

instance (A : Area) (s : State) (a : Act) : Decidable (Proper A s a) :=
  match a with
  | .modify _ b _ | .logWrite _ b => inferInstanceAs (Decidable (A.Outside b))
  | .brelse _ b => inferInstanceAs (Decidable (b ∉ s.dirty))
  | .endOp p => inferInstanceAs (Decidable (∀ b ∈ s.dirty, s.holder b ≠ some p))
  | .beginOp _ | .bread _ _ | .commit _ | .recycle _ | .crash | .recover => inferInstanceAs (Decidable True)

/-- The content of the disk after a sequence of updates. -/
def applyAll (base : Nat → Block) (us : List Update) : Nat → Block :=
  us.foldl (fun m u => update m u.block u.data) base

def ofOp (o : Nat) (us : List Update) : List Update := us.filter (fun u => u.op = o)

end Xv6Rcu.Log

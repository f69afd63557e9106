import Xv6Rcu.Exec

namespace Xv6Rcu.Fs

open Exec Function

section Types

def BSIZE : Nat := 1024

def NDIRECT : Nat := 12

def NINDIRECT : Nat := BSIZE / 4

def MAXFILE : Nat := NDIRECT + NINDIRECT

def PGSIZE : Nat := 4096

def NINODE : Nat := 50

def ROOTINO : Nat := 1

abbrev Byte := UInt8

/-- The data of a block, its first `BSIZE` bytes. -/
abbrev Block := Nat → Byte

/-- The little-endian word `j` of a block. -/
def word (b : Block) (j : Nat) : Nat :=
  (b (4 * j)).toNat + 256 * (b (4 * j + 1)).toNat + 65536 * (b (4 * j + 2)).toNat +
    16777216 * (b (4 * j + 3)).toNat

def setWord (b : Block) (j w : Nat) : Block := fun i =>
  if i / 4 = j then UInt8.ofNat (w / 256 ^ (i % 4)) else b i

/-- `m` bytes of a block from `off` on. -/
def slice (b : Block) (off m : Nat) : List Byte := (List.range m).map (fun i => b (off + i))

/-- Bytes copied to a block at `off`. -/
def patch (b : Block) (off : Nat) (l : List Byte) : Block := fun i =>
  if off ≤ i ∧ i - off < l.length then l.getD (i - off) 0 else b i

/-- The superblock. The first `size - nblocks` blocks are for metadata. -/
structure Super where
  size : Nat
  nblocks : Nat
  ninodes : Nat
  meta_pos : nblocks < size
  size_lt : size < 2 ^ 32
  inums : ninodes ≤ 2 ^ 16

def Super.nmeta (sb : Super) : Nat := sb.size - sb.nblocks

/-- `type` of an inode; zero is `free`. -/
inductive Kind where
  | free | dir | file | device
  deriving DecidableEq

structure Dinode where
  type : Kind
  major : Int
  minor : Int
  nlink : Int
  size : Nat
  addrs : Nat → Nat

structure Inode where
  ref : Nat
  valid : Bool
  copy : Dinode

inductive Panic where
  | freeingFree | outsideTrans | ilock | noType | iunlock | noInodes | bmapRange
  | dirlookupNotDir | dirlookupRead | dirlinkRead | isdiremptyRead | unlinkNlink | unlinkWritei
  | fileclose | fileread | filewrite
  deriving DecidableEq

/-- The bitmap, the inode blocks and the data blocks, all as the buffer cache has
them. `saved b` is the content of block `b` when it was last passed to
`log_write`, which is what the log and the disk have of it. Entries of the inode
table in use have different numbers, so an entry is named by its inode; `live`
counts them. -/
structure State where
  bits : Nat → Bool
  dinode : Nat → Dinode
  buf : Nat → Block
  saved : Nat → Block
  ino : Nat → Inode
  live : Nat
  outstanding : Nat

abbrev M := Exec State Panic

def State.setCopy (s : State) (k : Nat) (d : Dinode) : State :=
  { s with ino := update s.ino k { s.ino k with copy := d } }

def State.setAddr (s : State) (k i a : Nat) : State :=
  s.setCopy k { (s.ino k).copy with addrs := update (s.ino k).copy.addrs i a }

end Types

section UserMemory

abbrev Mem := Nat → Option (Nat → Byte)

/-- `copyin`, page by page: the bytes it has copied, and whether it succeeded. -/
def copyin (m : Mem) : Nat → Nat → Nat → List Byte × Bool
  | 0, _, _ => ([], true)
  | fuel + 1, srcva, len =>
    if len = 0 then ([], true)
    else
      match m (srcva / PGSIZE) with
      | none => ([], false)
      | some page =>
        let n := min (PGSIZE - srcva % PGSIZE) len
        let r := copyin m fuel (srcva + n) (len - n)
        ((List.range n).map (fun i => page (srcva % PGSIZE + i)) ++ r.1, r.2)

/-- `copyout`: the bytes it has stored, and whether it succeeded. -/
def copyout (m : Mem) : Nat → Nat → List Byte → List Byte × Bool
  | 0, _, _ => ([], true)
  | fuel + 1, dstva, data =>
    if data.length = 0 then ([], true)
    else
      match m (dstva / PGSIZE) with
      | none => ([], false)
      | some _ =>
        let n := min (PGSIZE - dstva % PGSIZE) data.length
        let r := copyout m fuel (dstva + n) (data.drop n)
        (data.take n ++ r.1, r.2)

/-- Where `writei` takes data from. -/
inductive Src where
  | kernel (bytes : List Byte)
  | user (m : Mem) (va : Nat)

/-- Where `readi` puts data. -/
inductive Dst where
  | kernel
  | user (m : Mem) (va : Nat)

/-- `either_copyin` of `len` bytes from position `pos` on. -/
def eitherCopyin (src : Src) (pos len : Nat) : List Byte × Bool :=
  match src with
  | .kernel bytes => ((List.range len).map (fun i => bytes.getD (pos + i) 0), true)
  | .user m va => copyin m len (va + pos) len

/-- `either_copyout` to position `pos`. -/
def eitherCopyout (dst : Dst) (pos : Nat) (data : List Byte) : List Byte × Bool :=
  match dst with
  | .kernel => (data, true)
  | .user m va => copyout m data.length (va + pos) data

end UserMemory

section Blocks

def beginOp : M Unit := alter (fun s => { s with outstanding := s.outstanding + 1 })

def endOp : M Unit := alter (fun s => { s with outstanding := s.outstanding - 1 })

/-- `log_write` of a bitmap or inode block. -/
def logWrite : M Unit := do
  let s ← look
  if s.outstanding < 1 then stop .outsideTrans else pure ()

/-- `log_write` of a data block. -/
def logWriteData (b : Nat) : M Unit := do
  logWrite
  alter (fun s => { s with saved := update s.saved b (s.buf b) })

def bzero (b : Nat) : M Unit := do
  alter (fun s => { s with buf := update s.buf b (fun _ => 0) })
  logWriteData b

def balloc (sb : Super) : M Nat := do
  let s ← look
  match (List.range sb.size).find? (fun b => !s.bits b) with
  | some b => do
    alter (fun s => { s with bits := update s.bits b true })
    logWrite
    bzero b
    pure b
  | none => pure 0

def bfree (b : Nat) : M Unit := do
  let s ← look
  if s.bits b = false then stop .freeingFree
  else do
    alter (fun s => { s with bits := update s.bits b false })
    logWrite

end Blocks

section Inodes

def blank (type : Kind) : Dinode := ⟨type, 0, 0, 0, 0, fun _ => 0⟩

def iget (inum : Nat) : M Unit := do
  let s ← look
  if 0 < (s.ino inum).ref then
    alter (fun s => { s with
      ino := update s.ino inum { s.ino inum with ref := (s.ino inum).ref + 1 } })
  else if NINODE ≤ s.live then stop .noInodes
  else
    alter (fun s => { s with
      ino := update s.ino inum { s.ino inum with ref := 1, valid := false }
      live := s.live + 1 })

def ialloc (sb : Super) (type : Kind) : M Nat := do
  let s ← look
  match (List.range' 1 (sb.ninodes - 1)).find? (fun i => decide ((s.dinode i).type = .free)) with
  | some inum => do
    alter (fun s => { s with dinode := update s.dinode inum (blank type) })
    logWrite
    iget inum
    pure inum
  | none => pure 0

def iupdate (k : Nat) : M Unit := do
  alter (fun s => { s with dinode := update s.dinode k (s.ino k).copy })
  logWrite

/-- Fields of the inode are set, then it is written back. -/
def setMeta (k : Nat) (f : Dinode → Dinode) : M Unit := do
  alter (fun s => s.setCopy k (f (s.ino k).copy))
  iupdate k

def idup (k : Nat) : M Unit :=
  alter (fun s => { s with ino := update s.ino k { s.ino k with ref := (s.ino k).ref + 1 } })

def ilock (k : Nat) : M Unit := do
  let s ← look
  if (s.ino k).ref < 1 then stop .ilock
  else
    when ((s.ino k).valid = false) do
      alter (fun s => { s with
        ino := update s.ino k { s.ino k with valid := true, copy := s.dinode k } })
      if (s.dinode k).type = .free then stop .noType else pure ()

def iunlock (k : Nat) : M Unit := do
  let s ← look
  if (s.ino k).ref < 1 then stop .iunlock else pure ()

/-- The address in `addrs[i]`, where a block is allocated if there is none. -/
def addrSlot (sb : Super) (k i : Nat) : M Nat := do
  let s ← look
  if (s.ino k).copy.addrs i = 0 then do
    let addr ← balloc sb
    if addr = 0 then pure 0
    else do
      alter (fun s => s.setAddr k i addr)
      pure addr
  else pure ((s.ino k).copy.addrs i)

def bmap (sb : Super) (k bn : Nat) : M Nat :=
  if bn < NDIRECT then addrSlot sb k bn
  else if bn - NDIRECT < NINDIRECT then do
    let ind ← addrSlot sb k NDIRECT
    if ind = 0 then pure 0
    else do
      let s ← look
      if word (s.buf ind) (bn - NDIRECT) = 0 then do
        let addr ← balloc sb
        if addr = 0 then pure 0
        else do
          alter (fun s => { s with
            buf := update s.buf ind (setWord (s.buf ind) (bn - NDIRECT) addr) })
          logWriteData ind
          pure addr
      else pure (word (s.buf ind) (bn - NDIRECT))
  else stop .bmapRange

def itrunc (k : Nat) : M Unit := do
  each (fun i => do
    let s ← look
    when ((s.ino k).copy.addrs i ≠ 0) do
      bfree ((s.ino k).copy.addrs i)
      alter (fun s => s.setAddr k i 0)) NDIRECT
  let s ← look
  let ind := (s.ino k).copy.addrs NDIRECT
  when (ind ≠ 0) do
    each (fun j => when (word (s.buf ind) j ≠ 0) (bfree (word (s.buf ind) j))) NINDIRECT
    bfree ind
    alter (fun s => s.setAddr k NDIRECT 0)
  alter (fun s => s.setCopy k { (s.ino k).copy with size := 0 })
  iupdate k

/-- What `iput` does with an inode that nobody refers to any more. -/
def ifree (k : Nat) : M Unit := do
  itrunc k
  alter (fun s => s.setCopy k { (s.ino k).copy with type := .free })
  iupdate k
  alter (fun s => { s with ino := update s.ino k { s.ino k with valid := false } })

def iput (k : Nat) : M Unit := do
  let s ← look
  when ((s.ino k).ref = 1 ∧ (s.ino k).valid = true ∧ (s.ino k).copy.nlink = 0) (ifree k)
  alter (fun s => { s with
    ino := update s.ino k { s.ino k with ref := (s.ino k).ref - 1 }
    live := if (s.ino k).ref = 1 then s.live - 1 else s.live })

def iunlockput (k : Nat) : M Unit := do
  iunlock k
  iput k

end Inodes

section Content

def readLoop (sb : Super) (k : Nat) (dst : Dst) (n : Nat) : Nat → Nat → Nat → List Byte → M (Int × List Byte)
  | 0, tot, _, out => pure (tot, out)
  | fuel + 1, tot, off, out =>
    if tot < n then do
      let addr ← bmap sb k (off / BSIZE)
      if addr = 0 then pure (tot, out)
      else do
        let s ← look
        let m := min (n - tot) (BSIZE - off % BSIZE)
        let r := eitherCopyout dst tot (slice (s.buf addr) (off % BSIZE) m)
        if r.2 = true then readLoop sb k dst n fuel (tot + m) (off + m) (out ++ r.1)
        else pure (-1, out ++ r.1)
    else pure (tot, out)

/-- `readi`, with the bytes it has stored. The sum `off + n` is taken in 32 bits. -/
def readi (sb : Super) (k : Nat) (dst : Dst) (off n : Nat) : M (Int × List Byte) := do
  let s ← look
  let size := (s.ino k).copy.size
  if off > size ∨ (off + n) % 2 ^ 32 < off then pure (0, [])
  else
    let n := if (off + n) % 2 ^ 32 > size then size - off else n
    readLoop sb k dst n n 0 off []

/-- The loop of `writei`, which ends with `tot` and `off`. -/
def writeLoop (sb : Super) (k : Nat) (src : Src) (n : Nat) : Nat → Nat → Nat → M (Nat × Nat)
  | 0, tot, off => pure (tot, off)
  | fuel + 1, tot, off =>
    if tot < n then do
      let addr ← bmap sb k (off / BSIZE)
      if addr = 0 then pure (tot, off)
      else do
        let m := min (n - tot) (BSIZE - off % BSIZE)
        let r := eitherCopyin src tot m
        alter (fun s => { s with buf := update s.buf addr (patch (s.buf addr) (off % BSIZE) r.1) })
        if r.2 = true then do
          logWriteData addr
          writeLoop sb k src n fuel (tot + m) (off + m)
        else pure (tot, off)
    else pure (tot, off)

def writei (sb : Super) (k : Nat) (src : Src) (off n : Nat) : M Int := do
  let s ← look
  if off > (s.ino k).copy.size ∨ (off + n) % 2 ^ 32 < off then pure (-1)
  else if (off + n) % 2 ^ 32 > MAXFILE * BSIZE then pure (-1)
  else do
    let r ← writeLoop sb k src n n 0 off
    alter (fun s => s.setCopy k { (s.ino k).copy with size := max (s.ino k).copy.size r.2 })
    iupdate k
    pure r.1

end Content

end Xv6Rcu.Fs

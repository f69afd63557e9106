import Xv6Rcu.FsDir
import Xv6Rcu.Memory

namespace Xv6Rcu.Mkfs

open Exec Fs
open Memory (load store storeWords)

section Layout

def FSSIZE : Nat := 2000

def NINODES : Nat := 200

def LOGSIZE : Nat := 30

def FSMAGIC : Nat := 0x10203040

/-- Inodes per block; a `struct dinode` has 64 bytes. -/
def IPB : Nat := BSIZE / 64

def nbitmap : Nat := FSSIZE / (BSIZE * 8) + 1

def ninodeblocks : Nat := NINODES / IPB + 1

def nmeta : Nat := 2 + LOGSIZE + ninodeblocks + nbitmap

def inodestart : Nat := 2 + LOGSIZE

def bmapstart : Nat := 2 + LOGSIZE + ninodeblocks

/-- `IBLOCK` -/
def iblock (inum : Nat) : Nat := inum / IPB + inodestart

end Layout

section Inodes

/-- `type` on disk. -/
def typeCode : Kind → Nat
  | .free => 0
  | .dir => 1
  | .file => 2
  | .device => 3

def typeOf : Nat → Kind
  | 0 => .free
  | 1 => .dir
  | 2 => .file
  | _ => .device

/-- The value of a `short`. -/
def ofShort (x : Nat) : Int := if x < 2 ^ 15 then x else (x : Int) - 2 ^ 16

def toShort (x : Int) : Nat := (x % 2 ^ 16).toNat

/-- The 64 bytes of a `struct dinode`. -/
def inodeBytes (d : Dinode) : Memory.Mem :=
  storeWords (store (store (store (store (fun _ => 0) 0 (typeCode d.type) 2) 2 (toShort d.major) 2)
    4 (toShort d.minor) 2) 6 (toShort d.nlink) 2) 8 (d.size :: (List.range (NDIRECT + 1)).map d.addrs)

/-- The `struct dinode` at address `a`. -/
def inodeOf (m : Memory.Mem) (a : Nat) : Dinode where
  type := typeOf (load m a 2)
  major := ofShort (load m (a + 2) 2)
  minor := ofShort (load m (a + 4) 2)
  nlink := ofShort (load m (a + 6) 2)
  size := load m (a + 8) 4
  addrs := fun j => if j ≤ NDIRECT then load m (a + 8 + 4 * (j + 1)) 4 else 0

end Inodes

section Model

/-- The program ends with status 1, or an assertion fails. -/
inductive Exit where
  | die | assert
  deriving DecidableEq

structure St where
  img : Memory.Mem
  len : Nat
  freeinode : Nat
  freeblock : Nat

abbrev P := Exec St Exit

def blockAt (img : Memory.Mem) (sec : Nat) : Block := fun i => if i < BSIZE then img (sec * BSIZE + i) else 0

/-- The image with `n` bytes at `a` replaced. -/
def overlay (img : Memory.Mem) (a n : Nat) (data : Memory.Mem) : Memory.Mem := fun x =>
  if a ≤ x ∧ x < a + n then data (x - a) else img x

def wsect (sec : Nat) (buf : Block) : P Unit :=
  alter (fun s => { s with
    img := overlay s.img (sec * BSIZE) BSIZE buf
    len := max s.len (sec * BSIZE + BSIZE) })

/-- A sector that the image file does not have cannot be read. -/
def rsect (sec : Nat) : P Block := do
  let s ← look
  if sec * BSIZE + BSIZE ≤ s.len then pure (blockAt s.img sec) else stop .die

def winode (inum : Nat) (ip : Dinode) : P Unit := do
  let buf ← rsect (iblock inum)
  wsect (iblock inum) (overlay buf (64 * (inum % IPB)) 64 (inodeBytes ip))

def rinode (inum : Nat) : P Dinode := do
  let buf ← rsect (iblock inum)
  pure (inodeOf buf (64 * (inum % IPB)))

def ialloc (type : Kind) : P Nat := do
  let s ← look
  alter (fun s => { s with freeinode := s.freeinode + 1 })
  winode s.freeinode { blank type with nlink := 1 }
  pure s.freeinode

/-- The bitmap with the bits of the blocks before `used`. -/
def bitmap : Nat → Block
  | 0 => fun _ => 0
  | i + 1 => Function.update (bitmap i) (i / 8) (bitmap i (i / 8) ||| UInt8.ofNat (2 ^ (i % 8)))

def balloc (used : Nat) : P Unit := if used < BSIZE * 8 then wsect bmapstart (bitmap used) else stop .assert

/-- `freeblock++` -/
def nextBlock : P Nat := do
  let s ← look
  alter (fun s => { s with freeblock := s.freeblock + 1 })
  pure s.freeblock

/-- The inode with a block in `addrs[i]`. -/
def slot (din : Dinode) (i : Nat) : P Dinode :=
  if din.addrs i = 0 then do
    let b ← nextBlock
    pure { din with addrs := Function.update din.addrs i b }
  else pure din

/-- The inode and the number of block `fbn` of the file, as the loop of `iappend`
finds it. -/
def fileBlock (din : Dinode) (fbn : Nat) : P (Dinode × Nat) :=
  if fbn < NDIRECT then do
    let din ← slot din fbn
    pure (din, din.addrs fbn)
  else do
    let din ← slot din NDIRECT
    let indirect ← rsect (din.addrs NDIRECT)
    if word indirect (fbn - NDIRECT) = 0 then do
      let b ← nextBlock
      wsect (din.addrs NDIRECT) (setWord indirect (fbn - NDIRECT) b)
      pure (din, b)
    else pure (din, word indirect (fbn - NDIRECT))

/-- The loop of `iappend`; each round appends a byte at least. -/
def iappendLoop : Nat → Dinode → Nat → List Byte → P (Dinode × Nat)
  | 0, din, off, _ => pure (din, off)
  | fuel + 1, din, off, p =>
    if 0 < p.length then
      let fbn := off / BSIZE
      if fbn < MAXFILE then do
        let r ← fileBlock din fbn
        let n1 := min p.length ((fbn + 1) * BSIZE - off)
        let buf ← rsect r.2
        wsect r.2 (patch buf (off - fbn * BSIZE) (p.take n1))
        iappendLoop fuel r.1 (off + n1) (p.drop n1)
      else stop .assert
    else pure (din, off)

def iappend (inum : Nat) (p : List Byte) : P Unit := do
  let din ← rinode inum
  let r ← iappendLoop p.length din din.size p
  winode inum { r.1 with size := r.2 }

/-- `"user/"` -/
def userDir : List Byte := [117, 115, 101, 114, 47]

def underscore : Byte := 95

/-- An argument without `user/` at its start. -/
def stripUser (arg : List Byte) : List Byte := if strncmp 5 arg userDir = 0 then arg.drop 5 else arg

def shortname (arg : List Byte) : List Byte :=
  if (stripUser arg).headD 0 = underscore then (stripUser arg).drop 1 else stripUser arg

/-- A file on the command line, and what the calls of `read` return until the end. -/
structure Input where
  arg : List Byte
  chunks : List (List Byte)
  arg_string : 0 ∉ arg
  chunk_fits : ∀ c ∈ chunks, c ≠ [] ∧ c.length ≤ BSIZE

def Input.data (f : Input) : List Byte := f.chunks.flatten

def Input.name (f : Input) : List Byte := shortname f.arg

def appendAll (inum : Nat) : List (List Byte) → P Unit
  | [] => pure ()
  | c :: cs => do
    iappend inum c
    appendAll inum cs

/-- `"."`, `".."` and the files have entries of the same form. -/
def appendEntry (rootino inum : Nat) (name : List Byte) : P Unit :=
  iappend rootino (encode ⟨inum, strncpy DIRSIZ name⟩)

def addFile (rootino : Nat) (f : Input) : P Unit :=
  if slash ∈ stripUser f.arg then stop .assert
  else do
    let inum ← ialloc .file
    appendEntry rootino inum f.name
    appendAll inum f.chunks

def addFiles (rootino : Nat) : List Input → P Unit
  | [] => pure ()
  | f :: fs => do
    addFile rootino f
    addFiles rootino fs

def superblock : Memory.Mem :=
  storeWords (fun _ => 0) 0 [FSMAGIC, FSSIZE, FSSIZE - nmeta, NINODES, LOGSIZE, 2, inodestart, bmapstart]

def fixSize (rootino : Nat) : P Unit := do
  let din ← rinode rootino
  winode rootino { din with size := (din.size / BSIZE + 1) * BSIZE }

def main (files : List Input) : P Unit := do
  alter (fun s => { s with freeblock := nmeta })
  each (fun i => wsect i (fun _ => 0)) FSSIZE
  wsect 1 superblock
  let rootino ← ialloc .dir
  if rootino ≠ ROOTINO then stop .assert
  else do
    appendEntry rootino rootino dot
    appendEntry rootino rootino dotdot
    addFiles rootino files
    fixSize rootino
    let s ← look
    balloc s.freeblock

def start : St := ⟨fun _ => 0, 0, 1, 0⟩

/-- The image that `mkfs` leaves if it exits with status 0. -/
def mkfs (files : List Input) : Except Exit Memory.Mem := (main files start).map (fun r => r.2.img)

end Model

section Disk

/-- The inodes in the blocks from `istart` to `bstart`. -/
def inodeAt (istart bstart : Nat) (img : Memory.Mem) (inum : Nat) : Dinode :=
  if inum / IPB + istart < bstart then inodeOf img ((inum / IPB + istart) * BSIZE + 64 * (inum % IPB)) else blank .free

/-- Word `j` of the superblock: `magic`, `size`, `nblocks`, `ninodes`, `nlog`,
`logstart`, `inodestart`, `bmapstart`. -/
def superWord (img : Memory.Mem) (j : Nat) : Nat := load img (BSIZE + 4 * j) 4

/-- Bit `b` of a bitmap that starts at block `bstart`. -/
def bitAt (bstart : Nat) (img : Memory.Mem) (b : Nat) : Bool :=
  blockAt img (b / (BSIZE * 8) + bstart) (b % (BSIZE * 8) / 8) &&& UInt8.ofNat (2 ^ (b % (BSIZE * 8) % 8)) != 0

/-- What the kernel finds on the image; no inode is in the table yet. -/
def boot (img : Memory.Mem) : State where
  bits := bitAt (superWord img 7) img
  dinode := inodeAt (superWord img 6) (superWord img 7) img
  buf := blockAt img
  saved := blockAt img
  ino := fun _ => ⟨0, false, blank .free⟩
  live := 0
  outstanding := 0

/-- `readsb`, and the check of the magic number in `fsinit`. -/
def fsinit (img : Memory.Mem) : Option Super :=
  if h : superWord img 0 = FSMAGIC ∧ superWord img 2 < superWord img 1 ∧ superWord img 1 < 2 ^ 32 ∧
      superWord img 3 ≤ 2 ^ 16 then
    some ⟨superWord img 1, superWord img 2, superWord img 3, h.2.1, h.2.2.1, h.2.2.2⟩
  else none

end Disk

end Xv6Rcu.Mkfs

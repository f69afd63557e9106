import Xv6Rcu.Fs

namespace Xv6Rcu.Fs

open Exec

section Strings

def DIRSIZ : Nat := 14

/-- `strncmp`; a string has a zero byte after its last one. -/
def strncmp : Nat → List Byte → List Byte → Int
  | 0, _, _ => 0
  | n + 1, p, q =>
    if p.headD 0 ≠ 0 ∧ p.headD 0 = q.headD 0 then strncmp n p.tail q.tail
    else ((p.headD 0).toNat : Int) - (q.headD 0).toNat

/-- The `n` bytes that `strncpy` stores. -/
def strncpy : Nat → List Byte → List Byte
  | 0, _ => []
  | n + 1, t => if t.headD 0 = 0 then List.replicate (n + 1) 0 else t.headD 0 :: strncpy n t.tail

def namecmp (s t : List Byte) : Int := strncmp DIRSIZ s t

def slash : Byte := 47

/-- `skipelem`: the next path element, cut to `DIRSIZ` bytes, and the rest of
the path. -/
def skipelem (path : List Byte) : Option (List Byte × List Byte) :=
  let path := path.dropWhile (fun c => c == slash)
  if path = [] then none
  else
    some ((path.takeWhile (fun c => c != slash)).take DIRSIZ,
      (path.dropWhile (fun c => c != slash)).dropWhile (fun c => c == slash))

def dot : List Byte := [46]

def dotdot : List Byte := [46, 46]

end Strings

section Directories

structure Dirent where
  inum : Nat
  name : List Byte
  deriving DecidableEq

/-- `sizeof(struct dirent)` -/
def DESIZE : Nat := DIRSIZ + 2

/-- A `struct dirent` in memory; `inum` has 16 bits. -/
def encode (de : Dirent) : List Byte := UInt8.ofNat de.inum :: UInt8.ofNat (de.inum / 256) :: de.name

def decode (l : List Byte) : Dirent := ⟨(l.getD 0 0).toNat + 256 * (l.getD 1 0).toNat, l.drop 2⟩

/-- The loop over the entries of a directory from `off` on, up to the first one
that satisfies `p`. -/
def scan (sb : Super) (dp : Nat) (p : Dirent → Bool) (e : Panic) : Nat → Nat → M (Option (Nat × Dirent))
  | 0, _ => pure none
  | fuel + 1, off => do
    let s ← look
    if off < (s.ino dp).copy.size then do
      let r ← readi sb dp .kernel off DESIZE
      if r.1 ≠ DESIZE then stop e
      else if p (decode r.2) = true then pure (some (off, decode r.2))
      else scan sb dp p e fuel (off + DESIZE)
    else pure none

/-- `dirlookup`: the inode, with a reference to it, and the offset of the entry. -/
def dirlookup (sb : Super) (dp : Nat) (name : List Byte) : M (Option (Nat × Nat)) := do
  let s ← look
  if (s.ino dp).copy.type ≠ .dir then stop .dirlookupNotDir
  else do
    let r ← scan sb dp (fun de => de.inum != 0 && namecmp name de.name == 0) .dirlookupRead
      ((s.ino dp).copy.size + 1) 0
    match r with
    | some (off, de) => do
      iget de.inum
      pure (some (de.inum, off))
    | none => pure none

def dirlink (sb : Super) (dp : Nat) (name : List Byte) (inum : Nat) : M Int := do
  let r ← dirlookup sb dp name
  match r with
  | some (ip, _) => do
    iput ip
    pure (-1)
  | none => do
    let s ← look
    let free ← scan sb dp (fun de => de.inum == 0) .dirlinkRead ((s.ino dp).copy.size + 1) 0
    let off := match free with
      | some (off, _) => off
      | none => (s.ino dp).copy.size
    let n ← writei sb dp (.kernel (encode ⟨inum, strncpy DIRSIZ name⟩)) off DESIZE
    pure (if n = DESIZE then 0 else -1)

def isdirempty (sb : Super) (dp : Nat) : M Bool := do
  let s ← look
  let r ← scan sb dp (fun de => de.inum != 0) .isdiremptyRead ((s.ino dp).copy.size + 1) (2 * DESIZE)
  pure r.isNone

end Directories

section Paths

def namexLoop (sb : Super) (parent : Bool) : Nat → Nat → List Byte → List Byte → M (Option (Nat × List Byte))
  | 0, _, _, _ => pure none
  | fuel + 1, ip, path, name =>
    match skipelem path with
    | none =>
      if parent = true then do
        iput ip
        pure none
      else pure (some (ip, name))
    | some (name, rest) => do
      ilock ip
      let s ← look
      if (s.ino ip).copy.type ≠ .dir then do
        iunlockput ip
        pure none
      else if parent = true ∧ rest = [] then do
        iunlock ip
        pure (some (ip, name))
      else do
        let r ← dirlookup sb ip name
        match r with
        | none => do
          iunlockput ip
          pure none
        | some (next, _) => do
          iunlockput ip
          namexLoop sb parent fuel next rest name

/-- `namex` by a process in directory `cwd`. -/
def namex (sb : Super) (cwd : Nat) (path : List Byte) (parent : Bool) : M (Option (Nat × List Byte)) := do
  let ip := if path.headD 0 = slash then ROOTINO else cwd
  if path.headD 0 = slash then iget ROOTINO else idup cwd
  namexLoop sb parent (path.length + 1) ip path []

def namei (sb : Super) (cwd : Nat) (path : List Byte) : M (Option Nat) := do
  let r ← namex sb cwd path false
  pure (r.map (fun x => x.1))

def nameiparent (sb : Super) (cwd : Nat) (path : List Byte) : M (Option (Nat × List Byte)) :=
  namex sb cwd path true

end Paths

section Calls

/-- The conversion to `short`. -/
def short (x : Int) : Int := (x + 2 ^ 15) % 2 ^ 16 - 2 ^ 15

def addLink (k : Nat) : M Unit := setMeta k (fun d => { d with nlink := short (d.nlink + 1) })

def dropLink (k : Nat) : M Unit := setMeta k (fun d => { d with nlink := short (d.nlink - 1) })

/-- The `fail` branch of `create`. -/
def createFail (dp ip : Nat) : M (Option Nat) := do
  setMeta ip (fun d => { d with nlink := 0 })
  iunlockput ip
  iunlockput dp
  pure none

/-- `create` once it has a new inode; `.` and `..` are made first. -/
def createNew (sb : Super) (dp ip : Nat) (name : List Byte) (type : Kind) (major minor : Int) : M (Option Nat) := do
  ilock ip
  setMeta ip (fun d => { d with major := major, minor := minor, nlink := 1 })
  let ok ← (if type = .dir then do
      let r ← dirlink sb ip dot ip
      if r < 0 then pure false
      else do
        let r ← dirlink sb ip dotdot dp
        pure (decide (¬ r < 0))
    else pure true : M Bool)
  if ok = false then createFail dp ip
  else do
    let r ← dirlink sb dp name ip
    if r < 0 then createFail dp ip
    else do
      when (type = .dir) (addLink dp)
      iunlockput dp
      pure (some ip)

/-- `create`: the inode, locked. -/
def create (sb : Super) (cwd : Nat) (path : List Byte) (type : Kind) (major minor : Int) : M (Option Nat) := do
  let r ← nameiparent sb cwd path
  match r with
  | none => pure none
  | some (dp, name) => do
    ilock dp
    let r ← dirlookup sb dp name
    match r with
    | some (ip, _) => do
      iunlockput dp
      ilock ip
      let s ← look
      if type = .file ∧ ((s.ino ip).copy.type = .file ∨ (s.ino ip).copy.type = .device) then pure (some ip)
      else do
        iunlockput ip
        pure none
    | none => do
      let ip ← ialloc sb type
      if ip = 0 then do
        iunlockput dp
        pure none
      else createNew sb dp ip name type major minor

/-- The `bad` branch of `sys_link`. -/
def linkFail (ip : Nat) : M Int := do
  ilock ip
  dropLink ip
  iunlockput ip
  endOp
  pure (-1)

def sysLink (sb : Super) (cwd : Nat) (old new : List Byte) : M Int := do
  beginOp
  let r ← namei sb cwd old
  match r with
  | none => do
    endOp
    pure (-1)
  | some ip => do
    ilock ip
    let s ← look
    if (s.ino ip).copy.type = .dir then do
      iunlockput ip
      endOp
      pure (-1)
    else do
      addLink ip
      iunlock ip
      let r ← nameiparent sb cwd new
      match r with
      | none => linkFail ip
      | some (dp, name) => do
        ilock dp
        let r ← dirlink sb dp name ip
        if r < 0 then do
          iunlockput dp
          linkFail ip
        else do
          iunlockput dp
          iput ip
          endOp
          pure 0

/-- The `bad` branch of `sys_unlink`. -/
def unlinkFail (dp : Nat) : M Int := do
  iunlockput dp
  endOp
  pure (-1)

/-- `sys_unlink` once it knows the entry, at `off`, and has locked the inode. -/
def unlinkEntry (sb : Super) (dp ip off : Nat) : M Int := do
  let s ← look
  if (s.ino ip).copy.nlink < 1 then stop .unlinkNlink
  else do
    let empty ← (if (s.ino ip).copy.type = .dir then isdirempty sb ip else pure true : M Bool)
    if empty = false then do
      iunlockput ip
      unlinkFail dp
    else do
      let n ← writei sb dp (.kernel (List.replicate DESIZE 0)) off DESIZE
      if n ≠ DESIZE then stop .unlinkWritei
      else do
        let s ← look
        when ((s.ino ip).copy.type = .dir) (dropLink dp)
        iunlockput dp
        dropLink ip
        iunlockput ip
        endOp
        pure 0

def sysUnlink (sb : Super) (cwd : Nat) (path : List Byte) : M Int := do
  beginOp
  let r ← nameiparent sb cwd path
  match r with
  | none => do
    endOp
    pure (-1)
  | some (dp, name) => do
    ilock dp
    if namecmp name dot = 0 ∨ namecmp name dotdot = 0 then unlinkFail dp
    else do
      let r ← dirlookup sb dp name
      match r with
      | none => unlinkFail dp
      | some (ip, off) => do
        ilock ip
        unlinkEntry sb dp ip off

/-- `sys_mkdir`, and `sys_mknod` for a device. -/
def sysMake (sb : Super) (cwd : Nat) (path : List Byte) (type : Kind) (major minor : Int) : M Int := do
  beginOp
  let r ← create sb cwd path type major minor
  match r with
  | none => do
    endOp
    pure (-1)
  | some ip => do
    iunlockput ip
    endOp
    pure 0

def sysMkdir (sb : Super) (cwd : Nat) (path : List Byte) : M Int := sysMake sb cwd path .dir 0 0

def sysMknod (sb : Super) (cwd : Nat) (path : List Byte) (major minor : Int) : M Int :=
  sysMake sb cwd path .device (short major) (short minor)

end Calls

end Xv6Rcu.Fs

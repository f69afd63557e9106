import Xv6Rcu.FsDir
import Xv6Rcu.Transition

namespace Xv6Rcu.Fs

open Exec Transition Function

section Types

def NPROC : Nat := 64

def NOFILE : Nat := 16

def NFILE : Nat := 100

instance : NeZero NPROC := ⟨by decide⟩

instance : NeZero NOFILE := ⟨by decide⟩

instance : NeZero NFILE := ⟨by decide⟩

def NDEV : Int := 10

def MAXOPBLOCKS : Nat := 10

/-- `type` of a `struct file`; pipes are not part of the model. -/
inductive FdType where
  | none | inode | device
  deriving DecidableEq

structure File where
  ref : Nat
  type : FdType
  readable : Bool
  writable : Bool
  ip : Nat
  off : Nat
  major : Int

/-- The file system with the open files and the processes; a process that has no
working directory does not exist. -/
structure Sys where
  fs : State
  file : Fin NFILE → File
  cwd : Fin NPROC → Option Nat
  ofile : Fin NPROC → Fin NOFILE → Option (Fin NFILE)

abbrev C := Exec Sys Panic

/-- A call of a function of `fs.c`. -/
def onFs {α : Type} (x : M α) : C α := zoom Sys.fs (fun s t => { s with fs := t }) x

def Sys.setFile (s : Sys) (f : Fin NFILE) (x : File) : Sys := { s with file := update s.file f x }

def Sys.setFd (s : Sys) (p : Fin NPROC) (fd : Fin NOFILE) (x : Option (Fin NFILE)) : Sys :=
  { s with ofile := update s.ofile p (update (s.ofile p) fd x) }

end Types

section Files

def filealloc : C (Option (Fin NFILE)) := do
  let s ← look
  match (List.finRange NFILE).find? (fun f => (s.file f).ref == 0) with
  | some f => do
    alter (fun s => s.setFile f { s.file f with ref := 1 })
    pure (some f)
  | none => pure none

def fdalloc (p : Fin NPROC) (f : Fin NFILE) : C (Option (Fin NOFILE)) := do
  let s ← look
  match (List.finRange NOFILE).find? (fun fd => (s.ofile p fd).isNone) with
  | some fd => do
    alter (fun s => s.setFd p fd (some f))
    pure (some fd)
  | none => pure none

def fileclose (f : Fin NFILE) : C Unit := do
  let s ← look
  if (s.file f).ref < 1 then stop .fileclose
  else if (s.file f).ref - 1 > 0 then
    alter (fun s => s.setFile f { s.file f with ref := (s.file f).ref - 1 })
  else do
    alter (fun s => s.setFile f { s.file f with ref := 0, type := .none })
    when ((s.file f).type = .inode ∨ (s.file f).type = .device) (onFs (do
      beginOp
      iput (s.file f).ip
      endOp))

/-- The conversion to `uint`. -/
def uint (n : Int) : Nat := (n % 2 ^ 32).toNat

/-- `fileread`; `dev` is what the driver of a device returns. -/
def fileread (sb : Super) (dev : Int) (f : Fin NFILE) (dst : Dst) (n : Int) : C (Int × List Byte) := do
  let s ← look
  if (s.file f).readable = false then pure (-1, [])
  else
    match (s.file f).type with
    | .device => pure (if (s.file f).major < 0 ∨ NDEV ≤ (s.file f).major then -1 else dev, [])
    | .inode => do
      onFs (ilock (s.file f).ip)
      let r ← onFs (readi sb (s.file f).ip dst (s.file f).off (uint n))
      when (0 < r.1) (alter (fun s => s.setFile f { s.file f with off := (s.file f).off + r.1.toNat }))
      onFs (iunlock (s.file f).ip)
      pure r
    | .none => stop .fileread

/-- The bytes `filewrite` writes in one transaction at most. -/
def maxWrite : Nat := (MAXOPBLOCKS - 1 - 1 - 2) / 2 * BSIZE

/-- `addr + i` as a source of data. -/
def Src.skip : Src → Nat → Src
  | .kernel bytes, i => .kernel (bytes.drop i)
  | .user m va, i => .user m (va + i)

/-- The loop of `filewrite`, which ends with `i`. -/
def filewriteLoop (sb : Super) (f : Fin NFILE) (src : Src) (n : Nat) : Nat → Nat → C Nat
  | 0, i => pure i
  | fuel + 1, i =>
    if i < n then do
      let n1 := if n - i > maxWrite then maxWrite else n - i
      let s ← look
      onFs beginOp
      onFs (ilock (s.file f).ip)
      let r ← onFs (writei sb (s.file f).ip (src.skip i) (s.file f).off n1)
      when (0 < r) (alter (fun s => s.setFile f { s.file f with off := (s.file f).off + r.toNat }))
      onFs (iunlock (s.file f).ip)
      onFs endOp
      if r ≠ n1 then pure i else filewriteLoop sb f src n fuel (i + n1)
    else pure i

def filewrite (sb : Super) (dev : Int) (f : Fin NFILE) (src : Src) (n : Int) : C Int := do
  let s ← look
  if (s.file f).writable = false then pure (-1)
  else
    match (s.file f).type with
    | .device => pure (if (s.file f).major < 0 ∨ NDEV ≤ (s.file f).major then -1 else dev)
    | .inode => do
      let i ← filewriteLoop sb f src n.toNat n.toNat 0
      pure (if i = n then n else -1)
    | .none => stop .filewrite

end Files

section Calls

def O_RDONLY : Nat := 0

def O_WRONLY : Nat := 1

def O_RDWR : Nat := 2

def O_CREATE : Nat := 0x200

def O_TRUNC : Nat := 0x400

/-- A failed `open` gives the inode back. -/
def openFail (ip : Nat) : C Int := onFs (do
  iunlockput ip
  endOp
  pure (-1))

/-- `sys_open` once it has the inode, locked. -/
def openFile (p : Fin NPROC) (ip omode : Nat) : C Int := do
  let s ← look
  let d := (s.fs.ino ip).copy
  if d.type = .device ∧ (d.major < 0 ∨ NDEV ≤ d.major) then openFail ip
  else do
    let r ← filealloc
    match r with
    | none => openFail ip
    | some f => do
      let r ← fdalloc p f
      match r with
      | none => do
        fileclose f
        openFail ip
      | some fd => do
        alter (fun s => s.setFile f
          { s.file f with
            type := if d.type = .device then .device else .inode
            major := if d.type = .device then d.major else (s.file f).major
            off := if d.type = .device then (s.file f).off else 0
            ip := ip
            readable := decide (omode &&& O_WRONLY = 0)
            writable := decide (omode &&& O_WRONLY ≠ 0 ∨ omode &&& O_RDWR ≠ 0) })
        onFs (do
          when (omode &&& O_TRUNC ≠ 0 ∧ d.type = .file) (itrunc ip)
          iunlock ip
          endOp)
        pure (fd : Nat)

/-- `sys_open` by a process in directory `cwd`. -/
def sysOpen (sb : Super) (p : Fin NPROC) (cwd : Nat) (path : List Byte) (omode : Nat) : C Int := do
  onFs beginOp
  if omode &&& O_CREATE ≠ 0 then do
    let r ← onFs (create sb cwd path .file 0 0)
    match r with
    | none => do
      onFs endOp
      pure (-1)
    | some ip => openFile p ip omode
  else do
    let r ← onFs (namei sb cwd path)
    match r with
    | none => do
      onFs endOp
      pure (-1)
    | some ip => do
      onFs (ilock ip)
      let s ← look
      if (s.fs.ino ip).copy.type = .dir ∧ omode ≠ O_RDONLY then openFail ip
      else openFile p ip omode

def sysClose (p : Fin NPROC) (fd : Fin NOFILE) : C Int := do
  let s ← look
  match s.ofile p fd with
  | none => pure (-1)
  | some f => do
    alter (fun s => s.setFd p fd none)
    fileclose f
    pure 0

def sysChdir (sb : Super) (p : Fin NPROC) (cwd : Nat) (path : List Byte) : C Int := do
  onFs beginOp
  let r ← onFs (namei sb cwd path)
  match r with
  | none => do
    onFs endOp
    pure (-1)
  | some ip => do
    onFs (ilock ip)
    let s ← look
    if (s.fs.ino ip).copy.type ≠ .dir then openFail ip
    else do
      onFs (do
        iunlock ip
        iput cwd
        endOp)
      alter (fun s => { s with cwd := update s.cwd p (some ip) })
      pure 0

/-- What `exit` does with descriptor `fd`. -/
def closeFd (p : Fin NPROC) (fd : Nat) : C Unit :=
  if h : fd < NOFILE then do
    let s ← look
    match s.ofile p ⟨fd, h⟩ with
    | none => pure ()
    | some f => do
      fileclose f
      alter (fun s => s.setFd p ⟨fd, h⟩ none)
  else pure ()

/-- The part of `exit` that concerns files. -/
def exit (p : Fin NPROC) (cwd : Nat) : C Int := do
  each (closeFd p) NOFILE
  onFs (do
    beginOp
    iput cwd
    endOp)
  alter (fun s => { s with cwd := update s.cwd p none })
  pure 0

end Calls

section Steps

inductive Call where
  | open (path : List Byte) (omode : Nat)
  | read (fd : Fin NOFILE) (dst : Dst) (n : Int) (dev : Int)
  | write (fd : Fin NOFILE) (src : Src) (n : Int) (dev : Int)
  | close (fd : Fin NOFILE)
  | link (old new : List Byte)
  | unlink (path : List Byte)
  | mkdir (path : List Byte)
  | mknod (path : List Byte) (major minor : Int)
  | chdir (path : List Byte)
  | exit

instance : Inhabited Call := ⟨.exit⟩

/-- The call by process `p`, which is in directory `cwd`. -/
def call (sb : Super) (p : Fin NPROC) (cwd : Nat) : Call → C Int
  | .open path omode => sysOpen sb p cwd path omode
  | .read fd dst n dev => do
    let s ← look
    match s.ofile p fd with
    | none => pure (-1)
    | some f => do
      let r ← fileread sb dev f dst n
      pure r.1
  | .write fd src n dev => do
    let s ← look
    match s.ofile p fd with
    | none => pure (-1)
    | some f => filewrite sb dev f src n
  | .close fd => sysClose p fd
  | .link old new => onFs (sysLink sb cwd old new)
  | .unlink path => onFs (sysUnlink sb cwd path)
  | .mkdir path => onFs (sysMkdir sb cwd path)
  | .mknod path major minor => onFs (sysMknod sb cwd path major minor)
  | .chdir path => sysChdir sb p cwd path
  | .exit => exit p cwd

/-- Calls are made one at a time; one that panics has no next state. -/
def step (sb : Super) : Step Sys (Fin NPROC × Call) := fun s a =>
  match s.cwd a.1 with
  | none => none
  | some cwd =>
    match call sb a.1 cwd a.2 s with
    | .ok (_, t) => some t
    | .error _ => none

/-- The call that process `p` makes panics. -/
def panics (sb : Super) (s : Sys) (a : Fin NPROC × Call) : Option Panic :=
  match s.cwd a.1 with
  | none => none
  | some cwd =>
    match call sb a.1 cwd a.2 s with
    | .ok _ => none
    | .error e => some e

end Steps

end Xv6Rcu.Fs

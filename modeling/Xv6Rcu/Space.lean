import Xv6Rcu.Exec
import Xv6Rcu.Vm

namespace Xv6Rcu.Space

open Exec Memory Kalloc Vm

section Memory

/-- The kernel stops: a panic of `vm.c`, or another one. -/
inductive Halt where
  | vm (p : Vm.Panic)
  | loadseg
  | initExiting
  | null
  deriving DecidableEq

abbrev V := Exec Machine Halt

def lift {α : Type} (x : Machine → Except Vm.Panic (α × Machine)) : V α := fun s =>
  match x s with
  | .ok r => .ok r
  | .error p => .error (.vm p)

def kalloc : V Nat := fun s => .ok (Vm.kalloc s)

def kfree (e pa : Nat) : V Unit := lift (fun s => (Vm.kfree e pa s).map (fun t => ((), t)))

def walk (pagetable va : Nat) (alloc : Bool) : V (Option Nat) := lift (fun s => Vm.walk s pagetable va alloc)

def mappages (pagetable va size pa perm : Nat) : V Bool := lift (fun s => Vm.mappages s pagetable va size pa perm)

def uvmunmap (e pagetable va npages : Nat) (doFree : Bool) : V Unit :=
  lift (fun s => (Vm.uvmunmap e s pagetable va npages doFree).map (fun t => ((), t)))

def uvmcreate : V Nat := fun s => .ok (Vm.uvmcreate s)

def copyout (pagetable dstva : Nat) (src : List UInt8) : V Bool := fun s => .ok (Vm.copyout s pagetable dstva src)

def poke (f : Mem → Mem) : V Unit := alter (fun s => s.setMem (f s.mem))

/-- `memmove` of `n` bytes between different pages. -/
def move (m : Mem) (dst src n : Nat) : Mem := fun x => if dst ≤ x ∧ x < dst + n then m (src + (x - dst)) else m x

/-- `sizeof(struct trapframe)` -/
def TFSIZE : Nat := 288

/-- Neither call is checked; a store through the null pointer stops the kernel. -/
def uvmfirst (pagetable : Nat) (src : List UInt8) : V Unit :=
  if PGSIZE ≤ src.length then stop (.vm .uvmfirst)
  else do
    let mem ← kalloc
    if mem = 0 then stop .null
    else do
      poke (fun m => fill m mem 0 PGSIZE)
      let _ ← mappages pagetable 0 PGSIZE mem (PTE_W ||| PTE_R ||| PTE_X ||| PTE_U)
      poke (fun m => put m mem src)

def uvmdealloc (e pagetable oldsz newsz : Nat) : V Nat :=
  if oldsz ≤ newsz then pure oldsz
  else do
    when (pgRoundUp newsz < pgRoundUp oldsz)
      (uvmunmap e pagetable (pgRoundUp newsz) ((pgRoundUp oldsz - pgRoundUp newsz) / PGSIZE) true)
    pure newsz

/-- The loop of `uvmalloc`; memory is used up before the fuel is. -/
def uvmallocLoop (e pagetable oldsz newsz xperm : Nat) : Nat → Nat → V Nat
  | 0, _ => pure 0
  | fuel + 1, a =>
    if a < newsz then do
      let mem ← kalloc
      if mem = 0 then do
        let _ ← uvmdealloc e pagetable a oldsz
        pure 0
      else do
        poke (fun m => fill m mem 0 PGSIZE)
        let ok ← mappages pagetable a PGSIZE mem (PTE_R ||| PTE_U ||| xperm)
        if ok = true then uvmallocLoop e pagetable oldsz newsz xperm fuel ((a + PGSIZE) % 2 ^ 64)
        else do
          kfree e mem
          let _ ← uvmdealloc e pagetable a oldsz
          pure 0
    else pure newsz

def uvmalloc (e pagetable oldsz newsz xperm : Nat) : V Nat :=
  if newsz < oldsz then pure oldsz
  else uvmallocLoop e pagetable (pgRoundUp oldsz) newsz xperm (PHYSTOP / PGSIZE + 2) (pgRoundUp oldsz)

/-- One round of the loop of `freewalk`, where `free` is the call for a lower level. -/
def freewalkEntry (free : Nat → V Unit) (pagetable i : Nat) : V Unit := do
  let s ← look
  let pte := load s.mem (pagetable + 8 * i) 8
  if pte &&& PTE_V ≠ 0 ∧ pte &&& (PTE_R ||| PTE_W ||| PTE_X) = 0 then do
    free (pte2pa pte)
    poke (fun m => store m (pagetable + 8 * i) 0 8)
  else if pte &&& PTE_V ≠ 0 then stop (.vm .freewalk)
  else pure ()

/-- `freewalk`; a page table has three levels. -/
def freewalk (e : Nat) : Nat → Nat → V Unit
  | 0, _ => stop (.vm .freewalk)
  | level + 1, pagetable => do
    each (freewalkEntry (freewalk e level) pagetable) 512
    kfree e pagetable

def uvmfree (e pagetable sz : Nat) : V Unit := do
  when (0 < sz) (uvmunmap e pagetable 0 (pgRoundUp sz / PGSIZE) true)
  freewalk e 3 pagetable

def uvmcopyLoop (e old new sz : Nat) : Nat → Nat → V Bool
  | 0, _ => pure true
  | fuel + 1, i =>
    if i < sz then do
      let pte ← walk old i false
      match pte with
      | none => stop (.vm .uvmcopyPte)
      | some pte => do
        let s ← look
        if load s.mem pte 8 &&& PTE_V = 0 then stop (.vm .uvmcopyPresent)
        else do
          let mem ← kalloc
          if mem = 0 then do
            uvmunmap e new 0 (i / PGSIZE) true
            pure false
          else do
            poke (fun m => move m mem (pte2pa (load s.mem pte 8)) PGSIZE)
            let ok ← mappages new i PGSIZE mem (pteFlags (load s.mem pte 8))
            if ok = true then uvmcopyLoop e old new sz fuel (i + PGSIZE)
            else do
              kfree e mem
              uvmunmap e new 0 (i / PGSIZE) true
              pure false
    else pure true

def uvmcopy (e old new sz : Nat) : V Bool := uvmcopyLoop e old new sz (sz / PGSIZE + 1) 0

def uvmclear (pagetable va : Nat) : V Unit := do
  let pte ← walk pagetable va false
  match pte with
  | none => stop (.vm .uvmclear)
  | some pte => poke (fun m => store m pte (load m pte 8 &&& (2 ^ 64 - 1 - PTE_U)) 8)

end Memory

section Processes

def NPROC : Nat := 64

instance : NeZero NPROC := ⟨by decide⟩

/-- `state` of a process; `runnable` stands for the states in which it can make a call. -/
inductive PState where
  | unused | used | runnable | zombie
  deriving DecidableEq

structure Proc where
  state : PState
  parent : Option (Fin NPROC)
  xstate : Int
  trapframe : Nat
  pagetable : Nat
  sz : Nat

/-- The memory and the process table, and who `initproc` is. -/
structure Sys where
  mach : Machine
  proc : Fin NPROC → Proc
  initproc : Option (Fin NPROC)

abbrev K := Exec Sys Halt

def onMem {α : Type} (x : V α) : K α := zoom Sys.mach (fun s m => { s with mach := m }) x

def Sys.setProc (s : Sys) (p : Fin NPROC) (x : Proc) : Sys := { s with proc := Function.update s.proc p x }

/-- The end of the kernel and the page of the trampoline code, which is in the kernel. -/
structure Layout where
  stop : Nat
  trampoline : Nat
  pos : 0 < stop
  le : stop ≤ PHYSTOP
  aligned : trampoline % PGSIZE = 0
  code : trampoline + PGSIZE ≤ stop

variable (ly : Layout)

def procPagetable (trapframe : Nat) : V Nat := do
  let pagetable ← uvmcreate
  if pagetable = 0 then pure 0
  else do
    let ok ← mappages pagetable TRAMPOLINE PGSIZE ly.trampoline (PTE_R ||| PTE_X)
    if ok = false then do
      uvmfree ly.stop pagetable 0
      pure 0
    else do
      let ok ← mappages pagetable TRAPFRAME PGSIZE trapframe (PTE_R ||| PTE_W)
      if ok = false then do
        uvmunmap ly.stop pagetable TRAMPOLINE 1 false
        uvmfree ly.stop pagetable 0
        pure 0
      else pure pagetable

def procFreepagetable (pagetable sz : Nat) : V Unit := do
  uvmunmap ly.stop pagetable TRAMPOLINE 1 false
  uvmunmap ly.stop pagetable TRAPFRAME 1 false
  uvmfree ly.stop pagetable sz

/-- An entry of the process table that is not in use. -/
def freeEntry : Proc := ⟨.unused, none, 0, 0, 0, 0⟩

def freeproc (p : Fin NPROC) : K Unit := do
  let s ← look
  when ((s.proc p).trapframe ≠ 0) (onMem (kfree ly.stop (s.proc p).trapframe))
  when ((s.proc p).pagetable ≠ 0) (onMem (procFreepagetable ly (s.proc p).pagetable (s.proc p).sz))
  alter (fun s => s.setProc p freeEntry)

def allocproc : K (Option (Fin NPROC)) := do
  let s ← look
  match (List.finRange NPROC).find? (fun p => (s.proc p).state == .unused) with
  | none => pure none
  | some p => do
    alter (fun s => s.setProc p { s.proc p with state := .used })
    let trapframe ← onMem kalloc
    alter (fun s => s.setProc p { s.proc p with trapframe := trapframe })
    if trapframe = 0 then do
      freeproc ly p
      pure none
    else do
      let pagetable ← onMem (procPagetable ly trapframe)
      alter (fun s => s.setProc p { s.proc p with pagetable := pagetable })
      if pagetable = 0 then do
        freeproc ly p
        pure none
      else pure (some p)

/-- `userinit` with the bytes of `initcode`. The result of `allocproc` is not checked. -/
def userinit (initcode : List UInt8) : K Unit := do
  let r ← allocproc ly
  match r with
  | none => stop .null
  | some p => do
    alter (fun s => { s with initproc := some p })
    let s ← look
    onMem (uvmfirst (s.proc p).pagetable initcode)
    alter (fun s => s.setProc p { s.proc p with sz := PGSIZE })
    onMem (poke (fun m => store (store m ((s.proc p).trapframe + 24) 0 8) ((s.proc p).trapframe + 48) PGSIZE 8))
    alter (fun s => s.setProc p { s.proc p with state := .runnable })

/-- `growproc(n)` by process `p`; the sum `sz + n` is taken in 64 bits. -/
def growproc (p : Fin NPROC) (n : Int) : K Int := do
  let s ← look
  let sz := (s.proc p).sz
  let newsz := ((sz + n) % 2 ^ 64).toNat
  if 0 < n then do
    let r ← onMem (uvmalloc ly.stop (s.proc p).pagetable sz newsz PTE_W)
    if r = 0 then pure (-1)
    else do
      alter (fun s => s.setProc p { s.proc p with sz := r })
      pure 0
  else if n < 0 then do
    let r ← onMem (uvmdealloc ly.stop (s.proc p).pagetable sz newsz)
    alter (fun s => s.setProc p { s.proc p with sz := r })
    pure 0
  else pure 0

/-- `fork` by process `p`: the child, if there is one. -/
def fork (p : Fin NPROC) : K (Option (Fin NPROC)) := do
  let r ← allocproc ly
  match r with
  | none => pure none
  | some np => do
    let s ← look
    let ok ← onMem (uvmcopy ly.stop (s.proc p).pagetable (s.proc np).pagetable (s.proc p).sz)
    if ok = false then do
      freeproc ly np
      pure none
    else do
      alter (fun t => t.setProc np { t.proc np with sz := (t.proc p).sz })
      -- The registers of the parent, and 0 for the result in `a0`.
      onMem (poke (fun m =>
        store (move m (s.proc np).trapframe (s.proc p).trapframe TFSIZE) ((s.proc np).trapframe + 112) 0 8))
      alter (fun t => t.setProc np { t.proc np with parent := some p, state := .runnable })
      pure (some np)

/-- A program header, and what can be read of its segment. -/
structure Segment where
  load : Bool
  vaddr : Nat
  memsz : Nat
  filesz : Nat
  flags : Nat
  data : List UInt8

def flags2perm (flags : Nat) : Nat :=
  (if flags &&& 1 ≠ 0 then PTE_X else 0) ||| (if flags &&& 2 ≠ 0 then PTE_W else 0)

/-- The loop of `loadseg`; `sz` has 32 bits. -/
def loadsegLoop (pagetable va sz : Nat) (data : List UInt8) : Nat → Nat → V Bool
  | 0, _ => pure true
  | fuel + 1, i =>
    if i < sz then do
      let s ← look
      let pa := walkaddr s pagetable ((va + i) % 2 ^ 64)
      if pa = 0 then stop .loadseg
      else do
        let n := if sz - i < PGSIZE then sz - i else PGSIZE
        let bytes := (data.drop i).take n
        poke (fun m => put m pa bytes)
        if bytes.length ≠ n then pure false else loadsegLoop pagetable va sz data fuel (i + PGSIZE)
    else pure true

def loadseg (pagetable va sz : Nat) (data : List UInt8) : V Bool :=
  loadsegLoop pagetable va (sz % 2 ^ 32) data (sz % 2 ^ 32 / PGSIZE + 1) 0

/-- The loop of `exec` over the program headers; a header that cannot be read is `none`.
Whether all were loaded, and `sz`. -/
def execLoad (pagetable : Nat) : List (Option Segment) → Nat → V (Bool × Nat)
  | [], sz => pure (true, sz)
  | none :: _, sz => pure (false, sz)
  | some ph :: phs, sz =>
    if ph.load = false then execLoad pagetable phs sz
    else if ph.memsz < ph.filesz ∨ (ph.vaddr + ph.memsz) % 2 ^ 64 < ph.vaddr ∨ ph.vaddr % PGSIZE ≠ 0 then pure (false, sz)
    else do
      let sz1 ← uvmalloc ly.stop pagetable sz ((ph.vaddr + ph.memsz) % 2 ^ 64) (flags2perm ph.flags)
      if sz1 = 0 then pure (false, sz)
      else do
        let ok ← loadseg pagetable ph.vaddr ph.filesz ph.data
        if ok = false then pure (false, sz1) else execLoad pagetable phs sz1

def MAXARG : Nat := 32

/-- `sp -= n; sp -= sp % 16` in 64 bits. -/
def push (sp n : Nat) : Nat := (sp + 2 ^ 64 - n) % 2 ^ 64 - (sp + 2 ^ 64 - n) % 2 ^ 64 % 16

/-- The loop of `exec` over the argument strings: the stack pointer and `ustack`. -/
def execArgs (pagetable stackbase : Nat) : List (List UInt8) → Nat → List Nat → V (Option (Nat × List Nat))
  | [], sp, ustack => pure (some (sp, ustack))
  | arg :: args, sp, ustack =>
    if MAXARG ≤ ustack.length then pure none
    else
      let sp := push sp (arg.length + 1)
      if sp < stackbase then pure none
      else do
        let ok ← copyout pagetable sp (arg ++ [0])
        if ok = false then pure none else execArgs pagetable stackbase args sp (ustack ++ [sp])

def words (l : List Nat) : List UInt8 := l.flatMap (fun w => (List.range 8).map (fun i => UInt8.ofNat (w / 256 ^ i)))

/-- What `exec` finds: whether there is such a program, its headers and the arguments. -/
structure Program where
  found : Bool
  headers : List (Option Segment)
  args : List (List UInt8)

/-- The stack of the new program: its size and the stack pointer. -/
def execStack (pagetable : Nat) (args : List (List UInt8)) (sz : Nat) : V (Bool × Nat × Nat) := do
  let sz := pgRoundUp sz
  let sz1 ← uvmalloc ly.stop pagetable sz (sz + 2 * PGSIZE) PTE_W
  if sz1 = 0 then pure (false, sz, 0)
  else do
    uvmclear pagetable (sz1 - 2 * PGSIZE)
    let r ← execArgs pagetable (sz1 - PGSIZE) args sz1 []
    match r with
    | none => pure (false, sz1, 0)
    | some (sp, ustack) =>
      let sp := push sp (8 * (ustack.length + 1))
      if sp < sz1 - PGSIZE then pure (false, sz1, 0)
      else do
        let ok ← copyout pagetable sp (words (ustack ++ [0]))
        pure (ok, sz1, sp)

def exec (p : Fin NPROC) (prog : Program) (entry : Nat) : K Int :=
  if prog.found = false then pure (-1)
  else do
    let s ← look
    let pagetable ← onMem (procPagetable ly (s.proc p).trapframe)
    if pagetable = 0 then pure (-1)
    else do
      let r ← onMem (execLoad ly pagetable prog.headers 0)
      if r.1 = false then do
        onMem (procFreepagetable ly pagetable r.2)
        pure (-1)
      else do
        let r ← onMem (execStack ly pagetable prog.args r.2)
        if r.1 = false then do
          onMem (procFreepagetable ly pagetable r.2.1)
          pure (-1)
        else do
          let tf := (s.proc p).trapframe
          onMem (poke (fun m => store (store (store m (tf + 120) r.2.2 8) (tf + 24) entry 8) (tf + 48) r.2.2 8))
          alter (fun s => s.setProc p { s.proc p with pagetable := pagetable, sz := r.2.1 })
          onMem (procFreepagetable ly (s.proc p).pagetable (s.proc p).sz)
          pure prog.args.length

def exit (p : Fin NPROC) (status : Int) : K Unit := do
  let s ← look
  if s.initproc = some p then stop .initExiting
  else do
    alter (fun s => { s with proc := fun q =>
      if (s.proc q).parent = some p then { s.proc q with parent := s.initproc } else s.proc q })
    alter (fun s => s.setProc p { s.proc p with xstate := status, state := .zombie })

/-- The bytes of an `int`. -/
def intBytes (x : Int) : List UInt8 := (List.range 4).map (fun i => UInt8.ofNat ((x % 2 ^ 32).toNat / 256 ^ i))

/-- `wait`: the child that has been freed. If no child is a zombie it sleeps or
returns -1. -/
def wait (p : Fin NPROC) (addr : Nat) : K (Option (Fin NPROC)) := do
  let s ← look
  match (List.finRange NPROC).find? (fun q => (s.proc q).parent == some p && (s.proc q).state == .zombie) with
  | none => pure none
  | some q => do
    let ok ← (if addr ≠ 0 then onMem (copyout (s.proc p).pagetable addr (intBytes (s.proc q).xstate)) else pure true :
      K Bool)
    if ok = false then pure none
    else do
      freeproc ly q
      pure (some q)

inductive Call where
  | fork
  | growproc (n : Int)
  | exec (prog : Program) (entry : Nat)
  | exit (status : Int)
  | wait (addr : Nat)

def call (p : Fin NPROC) : Call → K Unit
  | .fork => do
    let _ ← fork ly p
    pure ()
  | .growproc n => do
    let _ ← growproc ly p n
    pure ()
  | .exec prog entry => do
    let _ ← exec ly p prog entry
    pure ()
  | .exit status => exit p status
  | .wait addr => do
    let _ ← wait ly p addr
    pure ()

/-- Calls one after the other, each by a process that can make one. -/
def calls : List (Fin NPROC × Call) → K Unit
  | [] => pure ()
  | (p, c) :: cs => do
    let s ← look
    when ((s.proc p).state = .runnable) (call ly p c)
    calls cs

end Processes

end Xv6Rcu.Space

import Xv6Rcu.Kalloc

namespace Xv6Rcu.Vm

open Memory Kalloc

def MAXVA : Nat := 2 ^ 38

def TRAMPOLINE : Nat := MAXVA - PGSIZE

def TRAPFRAME : Nat := TRAMPOLINE - PGSIZE

def PTE_V : Nat := 1

def PTE_R : Nat := 2

def PTE_W : Nat := 4

def PTE_X : Nat := 8

def PTE_U : Nat := 16

def pa2pte (pa : Nat) : Nat := pa >>> 12 <<< 10

def pte2pa (pte : Nat) : Nat := pte >>> 10 <<< 12 % 2 ^ 64

def pteFlags (pte : Nat) : Nat := pte &&& 0x3ff

/-- `PX(level, va)`. -/
def px (level va : Nat) : Nat := va >>> (12 + 9 * level) &&& 0x1ff

inductive Panic where
  | walk | mappagesSize | mappagesRemap | uvmunmapAligned | uvmunmapWalk | uvmunmapNotMapped | uvmunmapNotLeaf
  | kfree | uvmfirst | freewalk | uvmcopyPte | uvmcopyPresent | uvmclear | memset
  deriving DecidableEq

/-- Memory and allocator; `fail` says which of the next calls of `kalloc` find no page. -/
structure Machine where
  kmem : State
  fail : List Bool

def Machine.mem (s : Machine) : Mem := s.kmem.mem

def Machine.setMem (s : Machine) (m : Mem) : Machine := { s with kmem := { s.kmem with mem := m } }

def kalloc (s : Machine) : Nat × Machine :=
  match s.fail with
  | true :: fs => (0, { s with fail := fs })
  | fs => ((Kalloc.kalloc s.kmem).1, ⟨(Kalloc.kalloc s.kmem).2, fs.tail⟩)

def kfree (e pa : Nat) (s : Machine) : Except Panic Machine :=
  match Kalloc.kfree e pa s.kmem with
  | none => .error .kfree
  | some k => .ok { s with kmem := k }

/-- The loop of `walk` from `level` down to 1. -/
def walkFrom (alloc : Bool) (va : Nat) : Nat → Nat → Machine → Option Nat × Machine
  | 0, pagetable, s => (some (pagetable + 8 * px 0 va), s)
  | level + 1, pagetable, s =>
    let pte := pagetable + 8 * px (level + 1) va
    if load s.mem pte 8 &&& PTE_V ≠ 0 then walkFrom alloc va level (pte2pa (load s.mem pte 8)) s
    else if alloc = false then (none, s)
    else
      let r := kalloc s
      if r.1 = 0 then (none, r.2)
      else walkFrom alloc va level r.1
        (r.2.setMem (store (fill r.2.mem r.1 0 PGSIZE) pte (pa2pte r.1 ||| PTE_V) 8))

/-- The address of the entry for `va`, if there is one. -/
def walk (s : Machine) (pagetable va : Nat) (alloc : Bool) : Except Panic (Option Nat × Machine) :=
  if MAXVA ≤ va then .error .walk else .ok (walkFrom alloc va 2 pagetable s)

def walkaddr (s : Machine) (pagetable va : Nat) : Nat :=
  if MAXVA ≤ va then 0
  else match (walkFrom false va 2 pagetable s).1 with
    | none => 0
    | some pte =>
      if load s.mem pte 8 &&& PTE_V = 0 then 0
      else if load s.mem pte 8 &&& PTE_U = 0 then 0
      else pte2pa (load s.mem pte 8)

def mappagesLoop (pagetable last perm : Nat) : Nat → Nat → Nat → Machine → Except Panic (Bool × Machine)
  | 0, _, _, _ => .error .walk
  | fuel + 1, a, pa, s =>
    match walk s pagetable a true with
    | .error e => .error e
    | .ok (none, s) => .ok (false, s)
    | .ok (some pte, s) =>
      if load s.mem pte 8 &&& PTE_V ≠ 0 then .error .mappagesRemap
      else
        let s := s.setMem (store s.mem pte (pa2pte pa ||| perm ||| PTE_V) 8)
        if a = last then .ok (true, s)
        else mappagesLoop pagetable last perm fuel ((a + PGSIZE) % 2 ^ 64) ((pa + PGSIZE) % 2 ^ 64) s

/-- Whether it returned 0. Before the fuel is used up `walk` would panic. -/
def mappages (s : Machine) (pagetable va size pa perm : Nat) : Except Panic (Bool × Machine) :=
  if size = 0 then .error .mappagesSize
  else mappagesLoop pagetable (pgRoundDown ((va + size - 1) % 2 ^ 64)) perm (MAXVA / PGSIZE + 1) (pgRoundDown va) pa s

def uvmunmapLoop (e pagetable last : Nat) (doFree : Bool) : Nat → Nat → Machine → Except Panic Machine
  | 0, _, s => .ok s
  | fuel + 1, a, s =>
    if last ≤ a then .ok s
    else match walk s pagetable a false with
      | .error e => .error e
      | .ok (none, _) => .error .uvmunmapWalk
      | .ok (some pte, s) =>
        if load s.mem pte 8 &&& PTE_V = 0 then .error .uvmunmapNotMapped
        else if pteFlags (load s.mem pte 8) = PTE_V then .error .uvmunmapNotLeaf
        else
          match if doFree then kfree e (pte2pa (load s.mem pte 8)) s else .ok s with
          | .error e => .error e
          | .ok s => uvmunmapLoop e pagetable last doFree fuel (a + PGSIZE) (s.setMem (store s.mem pte 0 8))

/-- `e` is the end of the kernel, for `kfree`. -/
def uvmunmap (e : Nat) (s : Machine) (pagetable va npages : Nat) (doFree : Bool) : Except Panic Machine :=
  if va % PGSIZE ≠ 0 then .error .uvmunmapAligned
  else uvmunmapLoop e pagetable ((va + npages * PGSIZE) % 2 ^ 64) doFree npages va s

def uvmcreate (s : Machine) : Nat × Machine :=
  let r := kalloc s
  if r.1 = 0 then (0, r.2) else (r.1, r.2.setMem (fill r.2.mem r.1 0 PGSIZE))

def copyoutLoop (pagetable : Nat) : Nat → Nat → List UInt8 → Machine → Bool × Machine
  | 0, _, _, s => (true, s)
  | fuel + 1, dstva, src, s =>
    if src = [] then (true, s)
    else
      let pa0 := walkaddr s pagetable (pgRoundDown dstva)
      if pa0 = 0 then (false, s)
      else
        let n := min (PGSIZE - (dstva - pgRoundDown dstva)) src.length
        copyoutLoop pagetable fuel ((pgRoundDown dstva + PGSIZE) % 2 ^ 64) (src.drop n)
          (s.setMem (put s.mem (pa0 + (dstva - pgRoundDown dstva)) (src.take n)))

def copyout (s : Machine) (pagetable dstva : Nat) (src : List UInt8) : Bool × Machine :=
  copyoutLoop pagetable src.length dstva src s

end Xv6Rcu.Vm

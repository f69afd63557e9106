import Xv6Rcu.SpaceGrow

namespace Xv6Rcu.Fork

open Exec Memory Kalloc Radix Vm Space Function List Finset

section Model

def NOFILE : Nat := 16

inductive Panic where
  | space (x : Halt)
  | filedup

/-- The processes with their names and open files, and the references to files and inodes. -/
structure State where
  sys : Space.Sys
  nextpid : Nat
  pid : Fin NPROC → Nat
  name : Fin NPROC → List UInt8
  cpuAffinity : Fin NPROC → Int
  ofile : Fin NPROC → Nat → Option Nat
  cwd : Fin NPROC → Nat
  fileRef : Nat → Nat
  inodeRef : Nat → Nat

abbrev F := Exec State Panic

def onSys {α : Type} (x : K α) : F α := fun s =>
  match x s.sys with
  | .ok (a, t) => .ok (a, { s with sys := t })
  | .error e => .error (.space e)

def allocpid : F Nat := do
  let s ← look
  alter (fun s => { s with nextpid := s.nextpid + 1 })
  pure s.nextpid

/-- What `freeproc` does to the fields that are not about memory. -/
def State.clear (s : State) (p : Fin NPROC) : State :=
  { s with pid := update s.pid p 0, name := update s.name p [] }

variable (ly : Layout)

def freeproc (p : Fin NPROC) : F Unit := do
  onSys (Space.freeproc ly p)
  alter (fun s => s.clear p)

/-- `allocproc` with the pid; if memory runs out it calls `freeproc`. -/
def allocproc : F (Option (Fin NPROC)) := do
  let s ← look
  match (List.finRange NPROC).find? (fun p => (s.sys.proc p).state == .unused) with
  | none => pure none
  | some p => do
    let pid ← allocpid
    alter (fun s => { s with
      pid := update s.pid p pid, cpuAffinity := update s.cpuAffinity p (-1) })
    let r ← onSys (Space.allocproc ly)
    when (r = none) (alter (fun s => s.clear p))
    pure r

def filedup (f : Nat) : F Unit := do
  let s ← look
  if s.fileRef f < 1 then stop .filedup
  else alter (fun s => { s with fileRef := update s.fileRef f (s.fileRef f + 1) })

def idup (ip : Nat) : F Unit :=
  alter (fun s => { s with inodeRef := update s.inodeRef ip (s.inodeRef ip + 1) })

/-- One round of the loop of `fork` over the open files. -/
def forkFile (p np : Fin NPROC) (i : Nat) : F Unit := do
  let s ← look
  match s.ofile p i with
  | none => pure ()
  | some f => do
    filedup f
    alter (fun s => { s with ofile := update s.ofile np (update (s.ofile np) i (some f)) })

/-- `safestrcpy` of a name, which is the characters before the first 0. -/
def safestrcpy (t : List UInt8) (n : Nat) : List UInt8 := t.take (n - 1)

/-- The last part of `fork`: the open files, the current directory, the name and the parent. -/
def forkRest (p np : Fin NPROC) : F Int := do
  each (forkFile p np) NOFILE
  let s ← look
  idup (s.cwd p)
  alter (fun s => { s with cwd := update s.cwd np (s.cwd p) })
  alter (fun s => { s with name := update s.name np (safestrcpy (s.name p) 16) })
  let s ← look
  onSys (alter (fun t => t.setProc np { t.proc np with parent := some p }))
  onSys (alter (fun t => t.setProc np { t.proc np with state := .runnable }))
  pure (s.pid np)

def fork (p : Fin NPROC) : F Int := do
  let r ← allocproc ly
  match r with
  | none => pure (-1)
  | some np => do
    let s ← look
    let ok ← onSys (onMem (uvmcopy ly.stop (s.sys.proc p).pagetable (s.sys.proc np).pagetable (s.sys.proc p).sz))
    if ok = false then do
      freeproc ly np
      pure (-1)
    else do
      onSys (alter (fun t => t.setProc np { t.proc np with sz := (t.proc p).sz }))
      onSys (onMem (poke (fun m => store (move m (s.sys.proc np).trapframe (s.sys.proc p).trapframe TFSIZE)
        ((s.sys.proc np).trapframe + 112) 0 8)))
      forkRest p np

end Model

section Files

variable {α : Type} {x : K α} {s t : State} {p np : Fin NPROC}

theorem runs_onSys {Q : α → State → Prop} {E : Panic → Prop} :
    Runs (onSys x) s Q E ↔ Runs x s.sys (fun a t => Q a { s with sys := t }) (fun e => E (.space e)) := by
  unfold Runs onSys
  cases x s.sys with
  | ok r => exact Iff.rfl
  | error e => exact Iff.rfl

/-- How many of the first `n` descriptors of `p` are for file `f`. -/
def opened (s : State) (p : Fin NPROC) (f n : Nat) : Nat := (List.range n).countP (fun fd => s.ofile p fd == some f)

theorem opened_succ (f n : Nat) : opened s p f (n + 1) = opened s p f n + if s.ofile p n = some f then 1 else 0 := by
  rw [opened, range_succ, countP_append, countP_singleton]
  congr 1
  simp

/-- The first `n` descriptors have been duplicated. -/
structure Duped (s : State) (p np : Fin NPROC) (n : Nat) (t : State) : Prop where
  rest : t = { s with ofile := t.ofile, fileRef := t.fileRef }
  other : ∀ q, q ≠ np → t.ofile q = s.ofile q
  child : ∀ fd, t.ofile np fd = if fd < n ∧ (s.ofile p fd).isSome then s.ofile p fd else s.ofile np fd
  refs : ∀ f, t.fileRef f = s.fileRef f + opened s p f n

theorem forkFile_spec {n : Nat} (hne : p ≠ np) (hopen : ∀ fd f, s.ofile p fd = some f → 0 < s.fileRef f)
    (h : Duped s p np n t) : Runs (forkFile p np n) t (fun _ t => Duped s p np (n + 1) t) (fun _ => False) := by
  have hpn : t.ofile p n = s.ofile p n := by rw [h.other p hne]
  refine runs_bind.mpr (runs_look.mpr ?_)
  rw [hpn]
  cases hfd : s.ofile p n with
  | none =>
    refine ⟨h.rest, h.other, fun fd => ?_, fun f => ?_⟩
    · rw [h.child]
      by_cases hn : fd = n
      · rw [hn, hfd, if_neg (fun hc => lt_irrefl _ hc.1), if_neg (fun hc => Bool.false_ne_true hc.2)]
      · have hiff : fd < n ↔ fd < n + 1 := by omega
        simp only [hiff]
    · rw [h.refs, opened_succ, hfd, if_neg nofun, add_zero]
  | some f =>
    refine runs_bind.mpr (runs_bind.mpr (runs_look.mpr (runs_ite.mpr ⟨fun hc => ?_, fun _ => ?_⟩)))
    · have := hopen n f hfd
      rw [h.refs] at hc
      omega
    · refine runs_alter.mpr (runs_alter.mpr ⟨?_, fun q hq => ?_, fun fd => ?_, fun g => ?_⟩)
      · rw [h.rest]
      · exact (update_of_ne hq _ _).trans (h.other q hq)
      · dsimp only
        rw [update_self]
        by_cases hn : fd = n
        · rw [hn, update_self, hfd, if_pos ⟨Nat.lt_succ_self n, rfl⟩]
        · have hiff : fd < n ↔ fd < n + 1 := by omega
          rw [update_of_ne hn, h.child]
          simp only [hiff]
      · dsimp only
        rw [opened_succ, hfd]
        by_cases hg : g = f
        · rw [hg, update_self, h.refs, if_pos rfl]
          omega
        · rw [update_of_ne hg, h.refs, if_neg (fun hc => hg (Option.some.inj hc).symm), add_zero]

theorem forkFiles_spec (hne : p ≠ np) (hopen : ∀ fd f, s.ofile p fd = some f → 0 < s.fileRef f) :
    Runs (each (forkFile p np) NOFILE) s (fun _ t => Duped s p np NOFILE t) (fun _ => False) := by
  refine Runs.each (fun n t => Duped s p np n t) ⟨rfl, fun _ _ => rfl, fun fd => ?_, fun f => ?_⟩ ?_
  · rw [if_neg (fun hc => Nat.not_lt_zero _ hc.1)]
  · rfl
  · exact fun n _ t ht => forkFile_spec hne hopen ht

/-- What the last part of `fork` has done. -/
structure Finished (s : State) (p np : Fin NPROC) (t : State) : Prop where
  mach : t.sys.mach = s.sys.mach
  child : t.sys.proc np = { s.sys.proc np with parent := some p, state := .runnable }
  others : ∀ q, q ≠ np → t.sys.proc q = s.sys.proc q ∧ t.name q = s.name q ∧ t.ofile q = s.ofile q ∧ t.cwd q = s.cwd q
  pids : t.pid = s.pid ∧ t.cpuAffinity = s.cpuAffinity
  files : ∀ fd, fd < NOFILE → (s.ofile p fd).isSome → t.ofile np fd = s.ofile p fd
  cwd : t.cwd np = s.cwd p
  fileRefs : ∀ f, t.fileRef f = s.fileRef f + opened s p f NOFILE
  inodeRefs : ∀ ip, t.inodeRef ip = s.inodeRef ip + if ip = s.cwd p then 1 else 0

theorem forkRest_spec (hne : p ≠ np) (hopen : ∀ fd f, s.ofile p fd = some f → 0 < s.fileRef f) :
    Runs (forkRest p np) s (fun r t => r = s.pid np ∧ Finished s p np t) (fun _ => False) := by
  refine runs_bind.mpr ((forkFiles_spec hne hopen).safe ?_)
  rintro _ s1 ⟨hs1, hother, hchild, hrefs⟩
  generalize s1.ofile = ofile1 at *
  generalize s1.fileRef = fileRef1 at *
  subst hs1
  refine runs_bind.mpr (runs_look.mpr (runs_bind.mpr (runs_alter.mpr (runs_bind.mpr (runs_alter.mpr ?_)))))
  refine runs_bind.mpr (runs_alter.mpr (runs_bind.mpr (runs_look.mpr (runs_bind.mpr (runs_onSys.mpr (runs_alter.mpr ?_))))))
  refine runs_bind.mpr (runs_onSys.mpr (runs_alter.mpr ⟨rfl, rfl, ?_, fun q hq => ⟨?_, ?_, hother q hq, ?_⟩, ⟨rfl, rfl⟩,
    fun fd hfd hsome => ?_, ?_, hrefs, fun ip => ?_⟩))
  · rw [setProc_self, setProc_self]
  · rw [setProc_of_ne _ _ hq, setProc_of_ne _ _ hq]
  · exact update_of_ne hq _ _
  · exact update_of_ne hq _ _
  · exact (hchild fd).trans (if_pos ⟨hfd, hsome⟩)
  · exact update_self _ _ _
  · change update s.inodeRef (s.cwd p) (s.inodeRef (s.cwd p) + 1) ip = _
    by_cases hip : ip = s.cwd p
    · rw [if_pos hip, hip, update_self]
    · rw [if_neg hip, update_of_ne hip, add_zero]

end Files

section Outcomes

variable {ly : Layout} {s t : State} {p np q : Fin NPROC} {used used' o : Finset Nat} {own : Fin NPROC → Finset Nat}
  {us : Fin NPROC → List (Nat × Nat)} {e a : Nat} {m : Machine}

def Free (m : Machine) (a : Nat) : Prop := ∃ l, FreeList m.kmem l ∧ a ∈ l

theorem free_iff (h : Alloc e m used) : Free m a ↔ IsPage e a ∧ a ∉ used := by
  obtain ⟨l, hinv⟩ := h
  constructor
  · rintro ⟨l', hl', ha⟩
    rw [Links.Chain.unique hl' hinv.list] at ha
    exact ⟨(hinv.pages a).mpr (.inl ha), hinv.apart a ha⟩
  · rintro ⟨hp, hn⟩
    exact ⟨l, hinv.list, ((hinv.pages a).mp hp).resolve_right hn⟩

/-- The entry of `q` is as before. -/
structure SameSlot (s t : State) (q : Fin NPROC) : Prop where
  proc : t.sys.proc q = s.sys.proc q
  pid : t.pid q = s.pid q
  name : t.name q = s.name q
  cpuAffinity : t.cpuAffinity q = s.cpuAffinity q
  ofile : t.ofile q = s.ofile q
  cwd : t.cwd q = s.cwd q

structure Child (s t : Space.Sys) (p np : Fin NPROC) : Prop where
  size : (t.proc np).sz = (s.proc p).sz
  memory : ∀ va, va < (s.proc p).sz → ∃ pa pa' fl, mapping s.mach.mem (s.proc p).pagetable va = some (pa, fl) ∧
    mapping t.mach.mem (t.proc np).pagetable va = some (pa', fl) ∧ Free s.mach pa' ∧
    t.mach.mem (pa' + va % PGSIZE) = s.mach.mem (pa + va % PGSIZE)
  registers : ∀ off, off < TFSIZE → ¬ (112 ≤ off ∧ off < 120) →
    t.mach.mem ((t.proc np).trapframe + off) = s.mach.mem ((s.proc p).trapframe + off)
  a0 : load t.mach.mem ((t.proc np).trapframe + 112) 8 = 0

/-- What `fork` has done if it returns the pid of `np`. -/
structure Forked (s : State) (p np : Fin NPROC) (t : State) : Prop where
  unused : (s.sys.proc np).state = .unused
  ready : (t.sys.proc np).state = .runnable ∧ (t.sys.proc np).parent = some p
  child : Child s.sys t.sys p np
  files : ∀ fd, fd < NOFILE → (s.ofile p fd).isSome → t.ofile np fd = s.ofile p fd
  cwd : t.cwd np = s.cwd p
  fileRefs : ∀ f, t.fileRef f = s.fileRef f + opened s p f NOFILE
  inodeRefs : ∀ ip, t.inodeRef ip = s.inodeRef ip + if ip = s.cwd p then 1 else 0
  others : ∀ q, q ≠ np → SameSlot s t q

structure Undone (s t : State) : Prop where
  pages : ∀ a, Free t.sys.mach a ↔ Free s.sys.mach a
  fileRefs : t.fileRef = s.fileRef
  inodeRefs : t.inodeRef = s.inodeRef
  slots : ∀ q, SameSlot s t q ∨ firstUnused s.sys = some q ∧ (t.sys.proc q).state = .unused

/-- All pages that were in use keep their bytes, so the memory of a process is as before. -/
theorem unchanged_of_framed {t : Space.Sys} (h : InvOf ly s.sys used own us) (hp : (s.sys.proc p).state ≠ .unused)
    (hf : Framed ly.stop s.sys.mach used ∅ t.mach used' o) (hproc : t.proc p = s.sys.proc p) : Unchanged s.sys t p := by
  have hat := h.at hp
  have hz := ((h.entry p).live hp).size
  obtain ⟨hat', hk⟩ := hat.frame hf (disjoint_empty_right _)
  refine ⟨by rw [hproc], fun va hva => ?_, fun va hva => ?_⟩
  · rw [hproc, hat'.space.map va hva, hat.space.map va hva]
  · rw [hproc]
    exact hat.byteAt_kept hat' hk (hz.page hva) rfl

/-- The fields that are not about memory, after `allocproc` has found `np`. -/
def State.named (s : State) (np : Fin NPROC) : State :=
  { s with
    nextpid := s.nextpid + 1, pid := update s.pid np s.nextpid
    cpuAffinity := update s.cpuAffinity np (-1) }

theorem undone_clear (hfirst : firstUnused s.sys = some np) (ha : Alloc ly.stop s.sys.mach used) {y : Space.Sys}
    (hf : Framed ly.stop s.sys.mach used ∅ y.mach used ∅) (hnp : (y.proc np).state = .unused)
    (hq : ∀ q, q ≠ np → y.proc q = s.sys.proc q) : Undone s ({ s.named np with sys := y }.clear np) := by
  refine ⟨fun a => ?_, rfl, rfl, fun q => ?_⟩
  · exact (free_iff hf.alloc).trans (free_iff ha).symm
  · by_cases h : q = np
    · exact .inr ⟨h ▸ hfirst, h ▸ hnp⟩
    · refine .inl ⟨hq q h, ?_, update_of_ne h _ _, update_of_ne h _ _, rfl, rfl⟩
      exact (update_of_ne h _ _).trans (update_of_ne h _ _)

theorem allocproc_spec (h : InvOf ly s.sys used own us) :
    Runs (allocproc ly) s (fun r t => match r with
      | none => Framed ly.stop s.sys.mach used ∅ t.sys.mach used ∅ ∧ Undone s t ∧
          ∀ q, (s.sys.proc q).state ≠ .unused → t.sys.proc q = s.sys.proc q
      | some np => firstUnused s.sys = some np ∧ t = { s.named np with sys := t.sys } ∧
          (∀ q, q ≠ np → t.sys.proc q = s.sys.proc q) ∧ (t.sys.proc np).state ≠ .unused ∧ (t.sys.proc np).sz = 0 ∧
          ∃ used' o, Framed ly.stop s.sys.mach used ∅ t.sys.mach used' o ∧
            InvOf ly t.sys used' (update own np o) (update us np [])) (fun _ => False) := by
  refine runs_bind.mpr (runs_look.mpr ?_)
  change Runs (match firstUnused s.sys with
    | none => _
    | some p => _) _ _ _
  cases hfirst : firstUnused s.sys with
  | none =>
    have hrefl := Framed.refl h.alloc (empty_subset used)
    exact ⟨hrefl, ⟨fun _ => Iff.rfl, rfl, rfl, fun q => .inl ⟨rfl, rfl, rfl, rfl, rfl, rfl⟩⟩, fun _ _ => rfl⟩
  | some np =>
    refine runs_bind.mpr (runs_bind.mpr (runs_look.mpr (runs_bind.mpr (runs_alter.mpr (runs_pure.mpr ?_)))))
    refine runs_bind.mpr (runs_alter.mpr (runs_bind.mpr (runs_onSys.mpr (h.allocproc.safe ?_))))
    intro r y hr
    cases r with
    | none =>
      obtain ⟨hf, -, hslots⟩ := hr
      have hslot : ∀ q, q ≠ np → y.proc q = s.sys.proc q := by
        intro q hq
        refine (hslots q).resolve_right (fun hc => hq ?_)
        exact Option.some.inj (hc.1.symm.trans hfirst)
      have hnp : (y.proc np).state = .unused := by
        rcases hslots np with hc | ⟨-, hc⟩
        · rw [hc]
          exact unused_of_first hfirst
        · rw [hc]
          rfl
      refine runs_bind.mpr (runs_when.mpr ⟨fun _ => ⟨hf, undone_clear hfirst h.alloc hf hnp hslot, fun q hq => ?_⟩,
        fun hc => absurd rfl hc⟩)
      exact hslot q (fun hc => hq (hc ▸ unused_of_first hfirst))
    | some np' =>
      obtain ⟨hfirst', hrest⟩ := hr
      obtain rfl : np' = np := Option.some.inj (hfirst'.symm.trans hfirst)
      exact runs_bind.mpr (runs_when.mpr ⟨fun hc => (nomatch hc), fun _ => ⟨rfl, rfl, hrest⟩⟩)

/-- The stores of `fork` to the trapframe of the child. -/
def childRegs (tf tf' : Nat) (m : Mem) : Mem := store (move m tf' tf TFSIZE) (tf' + 112) 0 8

theorem childRegs_other {tf tf' x : Nat} {w : Mem} (hal : tf' % PGSIZE = 0) (hx : pgRoundDown x ≠ tf') :
    childRegs tf tf' w x = w x := by
  rw [childRegs, store_other hal (by decide) hx]
  exact move_other hal (by decide) hx

/-- The memory of the child after `uvmcopy` has led to `m`, and the stores to its trapframe. -/
theorem child_of_copied (np : Fin NPROC) {x y : Space.Sys} {o' : Finset Nat} {l : List (Nat × Nat)} {tf' root : Nat}
    (h : InvOf ly x used own us) (hp : (x.proc p).state ≠ .unused)
    (hf : Framed ly.stop x.mach used ∅ m used' (insert tf' o')) (hn : tf' ∉ o')
    (hs : UserSpace m.mem root o' l (some tf') (some ly.trampoline)) (hz : Sized (x.proc p).sz l) (hc : Copied m.mem (us p) l)
    (hmach : y.mach = m.setMem (childRegs (x.proc p).trapframe tf' m.mem))
    (hproc : (y.proc np).pagetable = root ∧ (y.proc np).trapframe = tf' ∧ (y.proc np).sz = (x.proc p).sz) :
    Framed ly.stop x.mach used ∅ y.mach used' (insert tf' o') ∧ Child x y p np := by
  obtain ⟨hroot, htf, hsz⟩ := hproc
  have hat := h.at hp
  have hhas := (h.entry p).live hp
  have hself := Finset.mem_insert_self tf' o'
  have hal : tf' % PGSIZE = 0 := (hf.alloc.page (hf.sub hself)).1
  have hold : ∀ z, pgRoundDown z ∈ used → m.mem z = x.mach.mem z := fun z hz => hf.mem z hz (Finset.notMem_empty _)
  have hmem : y.mach.mem = childRegs (x.proc p).trapframe tf' m.mem := by rw [hmach]; rfl
  have hw : Framed ly.stop m used' {tf'} y.mach used' {tf'} := by
    rw [hmach]
    refine Framed.write hf.alloc (Finset.singleton_subset_iff.mpr (hf.sub hself)) (fun z hz => childRegs_other hal ?_)
    exact fun hc => hz (Finset.mem_singleton.mpr hc)
  have hd : Disjoint o' {tf'} := Finset.disjoint_singleton_right.mpr hn
  have hsub : o' ⊆ used' := (Finset.subset_insert _ _).trans hf.sub
  have hat2 : At ly.stop m used' o' root l (some tf') (some ly.trampoline) := ⟨hf.alloc, hsub, hs⟩
  obtain ⟨hat3, hk⟩ := hat2.frame hw hd
  have hfr := hw.frame hsub hd
  rw [← Finset.insert_eq] at hfr
  refine ⟨hf.trans hfr, hsz, fun va hva => ?_, fun off hoff hne => ?_, ?_⟩
  · have hi := hhas.size.page hva
    have hi' := hz.page hva
    obtain ⟨u, hu⟩ : ∃ u, (us p)[va / PGSIZE]? = some u := ⟨_, getElem?_eq_getElem hi⟩
    obtain ⟨v, hv⟩ : ∃ v, l[va / PGSIZE]? = some v := ⟨_, getElem?_eq_getElem hi'⟩
    obtain ⟨hfl, hbytes⟩ := hc _ u v hu hv
    have hum := mem_of_getElem? hu
    have hvm := mem_of_getElem? hv
    have hmod : va % PGSIZE < PGSIZE := Nat.mod_lt _ (by decide)
    have hin := Finset.mem_insert_of_mem (a := v.1) (b := tf') (hs.pages v hvm).1
    refine ⟨u.1, v.1, u.2, hat.mapping_user hu, ?_, (free_iff h.alloc).mpr ⟨hf.alloc.page (hf.sub hin), ?_⟩, ?_⟩
    · rw [hroot, ← hfl]
      exact hat3.mapping_user hv
    · exact (hf.new _ hin).resolve_left (Finset.notMem_empty _)
    · rw [hk v hvm _ (hat2.round_user hvm hmod), hbytes _ hmod]
      refine hold _ ?_
      rw [hat.round_user hum hmod]
      exact hat.sub (hat.space.pages u hum).1
  · have hlt : off < PGSIZE := Nat.lt_trans hoff (by decide)
    have hround := round_of_page (h.frame_aligned hp) (Nat.le_add_right _ off) (Nat.add_lt_add_left hlt _)
    have hstore : ∀ w : Mem, store w (tf' + 112) 0 8 (tf' + off) = w (tf' + off) := by
      intro w
      rcases Nat.lt_or_ge off 112 with h1 | h1
      · exact store_of_lt (by omega)
      · exact store_of_ge (by omega)
    rw [htf, hmem, childRegs, hstore, move, if_pos ⟨Nat.le_add_right _ _, Nat.add_lt_add_left hoff _⟩, Nat.add_sub_cancel_left]
    refine hold _ ?_
    rw [hround]
    exact h.sub p hhas.frame
  · rw [htf, hmem, childRegs, load_store]
    exact Nat.zero_mod _

theorem fork_spec (h : InvOf ly s.sys used own us) (hp : (s.sys.proc p).state ≠ .unused)
    (hopen : ∀ fd f, s.ofile p fd = some f → 0 < s.fileRef f) :
    Runs (fork ly p) s (fun r t => ((∃ np, r = t.pid np ∧ Forked s p np t) ∨ r = -1 ∧ Undone s t) ∧
      Unchanged s.sys t.sys p) (fun _ => False) := by
  refine runs_bind.mpr ((allocproc_spec h).safe ?_)
  intro r s1 hr
  cases r with
  | none =>
    obtain ⟨hf, hund, hslots⟩ := hr
    exact ⟨.inr ⟨rfl, hund⟩, unchanged_of_framed h hp hf (hslots p hp)⟩
  | some np =>
    obtain ⟨hfirst, hs1, hq1, hnp, hsz, used1, o1, hf1, h1⟩ := hr
    generalize s1.sys = x1 at *
    subst hs1
    have hne : p ≠ np := fun hc => hp (hc ▸ unused_of_first hfirst)
    have hp1 : (x1.proc p).state ≠ .unused := by
      rw [hq1 p hne]
      exact hp
    have hat := h1.at hnp
    have hpat := h1.at hp1
    have hsize := ((h1.entry p).live hp1).size
    rw [update_self, update_self] at hat
    rw [update_of_ne hne, update_of_ne hne] at hpat
    rw [update_of_ne hne] at hsize
    have hhas := (h1.entry np).live hnp
    have hsub := h1.sub np
    have hapart := h1.apart p np hne
    rw [update_self, update_self] at hhas
    rw [update_self] at hsub
    rw [update_self, update_of_ne hne] at hapart
    have hd : Disjoint ((own p).erase (x1.proc p).trapframe) (o1.erase (x1.proc np).trapframe) :=
      disjoint_of_subset_left (erase_subset _ _)
        (disjoint_of_subset_right (erase_subset _ _) hapart)
    have hsing : {(x1.proc np).trapframe} ⊆ used1 := singleton_subset_iff.mpr (hsub hhas.frame)
    have hds : Disjoint {(x1.proc np).trapframe} (o1.erase (x1.proc np).trapframe) :=
      disjoint_singleton_left.mpr (notMem_erase _ _)
    refine runs_bind.mpr (runs_look.mpr (runs_bind.mpr (runs_onSys.mpr (runs_zoom.mpr ?_))))
    refine (uvmcopy_spec ly.pos hpat hd hat hsize).safe ?_
    rintro ok m2 ⟨used2, own2, us2, hf2, hs2, hok, hbad⟩
    have hn2 : (x1.proc np).trapframe ∉ own2 := disjoint_singleton_left.mp (hf2.apart hsing hds)
    have hfr2 := hf2.frame hsing hds
    rw [Finset.union_comm, ← Finset.insert_eq, Finset.insert_erase hhas.frame, Finset.union_comm, ← Finset.insert_eq] at hfr2
    have hf12 := hf1.trans hfr2
    refine runs_ite.mpr ⟨fun hc => ?_, fun hc => ?_⟩
    · -- The child is freed, with what it has got.
      rw [hbad hc] at hs2
      refine runs_bind.mpr (runs_bind.mpr (runs_onSys.mpr ((freeproc_spec (s := { x1 with mach := m2 }) (p := np) []
        hfr2.alloc hfr2.sub (.inr ⟨mem_insert_self _ _, (erase_insert hn2).symm⟩)
        (.inr ⟨_, hs2, by rw [hsz]; exact sized_nil⟩)).safe ?_)))
      rintro _ y ⟨hproc, used3, hf3⟩
      have hf := hf12.trans hf3
      rw [hf.used_eq] at hf
      have hother : ∀ q, q ≠ np → y.proc q = s.sys.proc q := fun q hq => by
        rw [hproc, update_of_ne hq]
        exact hq1 q hq
      have hself : (y.proc np).state = .unused := by
        rw [hproc, update_self]
        rfl
      exact ⟨.inr ⟨rfl, undone_clear hfirst h.alloc hf hself hother⟩, unchanged_of_framed h hp hf (hother p hne)⟩
    · obtain ⟨hz2, hcopied⟩ := hok (Bool.eq_true_of_not_eq_false hc)
      refine runs_bind.mpr (runs_onSys.mpr (runs_alter.mpr (runs_bind.mpr (runs_onSys.mpr (runs_zoom.mpr (runs_alter.mpr ?_))))))
      refine (forkRest_spec (s := { s.named np with sys := _ }) hne hopen).safe ?_
      rintro r t ⟨rfl, ht⟩
      have hother : ∀ q, q ≠ np → t.sys.proc q = s.sys.proc q := fun q hq =>
        ((ht.others q hq).1.trans (setProc_of_ne _ _ hq)).trans (hq1 q hq)
      have hchild : t.sys.proc np = { x1.proc np with sz := (x1.proc p).sz, parent := some p, state := .runnable } := by
        rw [ht.child]
        dsimp only
        rw [setProc_self]
      rw [hq1 p hne] at hz2 hchild
      obtain ⟨hf, hmem⟩ := child_of_copied (y := t.sys) np h hp hf12 hn2 hs2 hz2 hcopied
        (by rw [ht.mach, ← hq1 p hne]; rfl) (by rw [hchild]; exact ⟨rfl, rfl, rfl⟩)
      refine ⟨.inl ⟨np, ?_, unused_of_first hfirst, ?_, hmem, ht.files, ht.cwd, ht.fileRefs, ht.inodeRefs, fun q hq => ?_⟩,
        unchanged_of_framed h hp hf (hother p hne)⟩
      · rw [ht.pids.1]
      · rw [hchild]
        exact ⟨rfl, rfl⟩
      · obtain ⟨-, h2, h3, h4⟩ := ht.others q hq
        refine ⟨hother q hq, ?_, h2, ?_, h3, h4⟩
        · rw [ht.pids.1]
          exact update_of_ne hq _ _
        · rw [ht.pids.2]
          exact update_of_ne hq _ _

/-- `fork` returns the pid of a child that is a copy of the parent, or -1 and all is as before. -/
theorem fork_all_or_nothing (ly : Layout) (s : State) (p : Fin NPROC) (h : Space.Inv ly s.sys)
    (hp : (s.sys.proc p).state ≠ .unused) (hopen : ∀ fd f, s.ofile p fd = some f → 0 < s.fileRef f) :
    ∃ r t, fork ly p s = .ok (r, t) ∧ ((∃ np, r = t.pid np ∧ Forked s p np t) ∨ r = -1 ∧ Undone s t) ∧
      Unchanged s.sys t.sys p := by
  obtain ⟨used, own, us, h⟩ := h
  exact (fork_spec h hp hopen).exists_ok

/-- Process 0 has file 0 as its standard input and output. -/
def withFiles (x : Space.Sys) : State where
  sys := x
  nextpid := 2
  pid := update (fun _ => 0) 0 1
  name := fun _ => []
  cpuAffinity := fun _ => -1
  ofile := update (fun _ _ => none) 0 (fun fd => if fd < 2 then some 0 else none)
  cwd := fun _ => 1
  fileRef := fun f => if f = 0 then 2 else 0
  inodeRef := fun ip => if ip = 1 then 1 else 0

theorem withFiles_open (x : Space.Sys) (fd f : Nat) (h : (withFiles x).ofile 0 fd = some f) : 0 < (withFiles x).fileRef f := by
  change update (fun _ _ => none) 0 (fun fd => if fd < 2 then some 0 else none) (0 : Fin NPROC) fd = some f at h
  rw [update_self] at h
  split at h
  · rw [← Option.some.inj h]
    exact Nat.zero_lt_two
  · exact nomatch h

theorem withFiles_sys (x : Space.Sys) : (withFiles x).sys = x := rfl

theorem fork_all_or_nothing_first : ∃ r t, fork smallLayout 0 (withFiles firstProcess) = .ok (r, t) ∧
    ((∃ np, r = t.pid np ∧ Forked (withFiles firstProcess) 0 np t) ∨ r = -1 ∧ Undone (withFiles firstProcess) t) ∧
    Unchanged (withFiles firstProcess).sys t.sys 0 := by
  refine fork_all_or_nothing smallLayout (withFiles firstProcess) 0 ?_ ?_ (withFiles_open firstProcess)
  · rw [withFiles_sys]
    exact firstProcess_inv
  · rw [withFiles_sys]
    decide +kernel

end Outcomes

end Xv6Rcu.Fork

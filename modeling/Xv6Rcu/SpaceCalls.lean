import Xv6Rcu.SpaceProc

namespace Xv6Rcu.Space

open Exec Memory Kalloc Radix Vm Function Finset

variable {ly : Layout} {s t : Sys} {m : Machine} {used used' own' : Finset Nat} {own : Fin NPROC → Finset Nat}
  {us : Fin NPROC → List (Nat × Nat)} {p q : Fin NPROC} {x y : Proc}

section Calls

/-- The pages in use are those of processes, each of one, and of the kernel. -/
def Inv (ly : Layout) (s : Sys) : Prop := ∃ used own us, InvOf ly s used own us

def Stops (x : Halt) : Prop := x = .loadseg ∨ x = .initExiting

theorem InvOf.replace {o : Finset Nat} {l : List (Nat × Nat)} (h : InvOf ly s used own us)
    (hp : (s.proc p).state ≠ .unused)
    (hf : Framed ly.stop s.mach used ((own p).erase (s.proc p).trapframe) t.mach used' own') (ho : o ⊆ own')
    (hsp : UserSpace t.mach.mem (t.proc p).pagetable o l (some (s.proc p).trapframe) (some ly.trampoline))
    (hz : Sized (t.proc p).sz l) (hy : (t.proc p).trapframe = (s.proc p).trapframe) (hst : (t.proc p).state ≠ .unused)
    (hq : ∀ q, q ≠ p → t.proc q = s.proc q) : ∃ own', InvOf ly t used' own' (update us p l) := by
  obtain ⟨hfr, hhas⟩ := ((h.entry p).live hp).update (h.sub p) hf ho hsp hz hy
  exact ⟨_, h.step l hfr (insert_subset_insert _ ho) ⟨fun hc => absurd hc hst, fun _ => hhas⟩ hq⟩

theorem setProc_self (s : Sys) (x : Proc) : (s.setProc p x).proc p = x := update_self _ _ _

theorem setProc_of_ne (s : Sys) (x : Proc) (hq : q ≠ p) : (s.setProc p x).proc q = s.proc q := update_of_ne hq _ _

section

variable (h : InvOf ly s used own us) (hp : (s.proc p).state ≠ .unused)

include h hp

theorem InvOf.at :
    At ly.stop s.mach used ((own p).erase (s.proc p).trapframe) (s.proc p).pagetable (us p) (some (s.proc p).trapframe)
      (some ly.trampoline) := ((h.entry p).live hp).at h.alloc (h.sub p)

theorem InvOf.growproc {n : Int} :
    Runs (growproc ly p n) s (fun _ t => Inv ly t) (fun _ => False) := by
  have hat := h.at hp
  have hz := ((h.entry p).live hp).size
  -- The size is the new one, or it is left.
  have hset : ∀ {m used' o l r}, Framed ly.stop s.mach used ((own p).erase (s.proc p).trapframe) m used' o →
      UserSpace m.mem (s.proc p).pagetable o l (some (s.proc p).trapframe) (some ly.trampoline) → Sized r l →
      Inv ly (Sys.setProc { s with mach := m } p { s.proc p with sz := r }) := by
    intro m used' o l r hf hsp hr
    have hself := setProc_self (p := p) { s with mach := m } { s.proc p with sz := r }
    obtain ⟨own', hinv⟩ := h.replace hp (t := Sys.setProc { s with mach := m } p { s.proc p with sz := r }) hf
      (Finset.Subset.refl _) (by rw [hself]; exact hsp) (by rw [hself]; exact hr) (by rw [hself]) (by rw [hself]; exact hp)
      (fun q hq => setProc_of_ne _ _ hq)
    exact ⟨used', own', _, hinv⟩
  refine runs_bind.mpr (runs_look.mpr (runs_ite.mpr ⟨fun _ => ?_, fun _ => runs_ite.mpr ⟨fun _ => ?_, fun _ => ?_⟩⟩))
  · refine runs_bind.mpr (runs_zoom.mpr ((uvmalloc_spec ly.pos hat hz (by decide)).safe ?_))
    rintro r m ⟨used1, own1, new, hf1, -, -, hs1, hr⟩
    have hz1 := sized_alloc hz hr
    refine runs_ite.mpr ⟨fun h0 => ?_, fun h0 => ?_⟩
    · rw [if_pos h0] at hz1
      obtain ⟨own', hinv⟩ := h.replace hp (t := { s with mach := m }) hf1 (Finset.Subset.refl _) hs1 hz1 rfl hp (fun _ _ => rfl)
      exact ⟨used1, own', _, hinv⟩
    · rw [if_neg h0] at hz1
      exact hset hf1 hs1 hz1
  · refine runs_bind.mpr (runs_zoom.mpr ((uvmdealloc_spec ly.pos hat hz).safe ?_))
    rintro r m ⟨-, used1, own1, q, hf1, -, hs1, hz1, -⟩
    exact hset hf1 hs1 hz1
  · exact ⟨used, own, us, h⟩

theorem InvOf.trapframe {f : Mem → Mem}
    (hf : ∀ m x, pgRoundDown x ≠ (s.proc p).trapframe → f m x = m x) :
    InvOf ly { s with mach := s.mach.setMem (f s.mach.mem) } used own us := by
  have hhas := (h.entry p).live hp
  have hin : {(s.proc p).trapframe} ⊆ used := singleton_subset_iff.mpr (h.sub p hhas.frame)
  have hd : Disjoint ((own p).erase (s.proc p).trapframe) {(s.proc p).trapframe} :=
    disjoint_singleton_right.mpr (notMem_erase _ _)
  have hw1 : Framed ly.stop s.mach used {(s.proc p).trapframe} (s.mach.setMem (f s.mach.mem)) used {(s.proc p).trapframe} :=
    Framed.write h.alloc hin (fun x hx => hf _ x (fun hc => hx (mem_singleton.mpr hc)))
  have hw : Framed ly.stop s.mach used (own p) (s.mach.setMem (f s.mach.mem)) used (own p) :=
    Framed.write h.alloc (h.sub p) (fun x hx => hf _ x (fun hc => hx (hc ▸ hhas.frame)))
  have hsp := (hhas.space.frame h.alloc hw1 ((erase_subset _ _).trans (h.sub p)) hd).1
  have hinv := h.step (us p) (t := { s with mach := s.mach.setMem (f s.mach.mem) }) hw (Finset.Subset.refl _)
    ⟨fun hc => absurd hc hp, fun _ => ⟨hhas.frame, hsp, hhas.size⟩⟩ (fun _ _ => rfl)
  rwa [update_eq_self, update_eq_self] at hinv

end

theorem store_other {mem : Mem} {pa off v k x : Nat} (hpa : pa % PGSIZE = 0) (hk : off + k ≤ PGSIZE)
    (h : pgRoundDown x ≠ pa) : store mem (pa + off) v k x = mem x := by
  by_cases hlt : x < pa + off
  · exact store_of_lt hlt
  · refine store_of_ge ?_
    by_contra hc
    exact outside hpa h le_rfl ⟨by omega, by omega⟩

section

variable (h : InvOf ly s used own us) (hp : (s.proc p).state ≠ .unused)

include h hp

theorem InvOf.frame_aligned :
    (s.proc p).trapframe % PGSIZE = 0 := (h.alloc.page (h.sub p ((h.entry p).live hp).frame)).1

theorem InvOf.fork :
    Runs (fork ly p) s (fun _ t => Inv ly t) (fun _ => False) := by
  refine runs_bind.mpr (h.allocproc.safe ?_)
  intro r s1 hr
  cases r with
  | none =>
    exact ⟨used, own, us, hr.2.1⟩
  | some np =>
    obtain ⟨hfirst, hq1, hnp, hsz, used1, o1, -, h1⟩ := hr
    have hun := unused_of_first hfirst
    generalize update own np o1 = own1 at h1
    have hne : p ≠ np := fun hc => hp (hc ▸ hun)
    have hp1 : (s1.proc p).state ≠ .unused := by
      rw [hq1 p hne]
      exact hp
    have hat := h1.at hnp
    rw [update_self] at hat
    have hd : Disjoint ((own1 p).erase (s1.proc p).trapframe) ((own1 np).erase (s1.proc np).trapframe) :=
      disjoint_of_subset_left (erase_subset _ _)
        (disjoint_of_subset_right (erase_subset _ _) (h1.apart p np hne))
    refine runs_bind.mpr (runs_look.mpr (runs_bind.mpr (runs_zoom.mpr ?_)))
    refine (uvmcopy_spec ly.pos (h1.at hp1) hd hat ((h1.entry p).live hp1).size).safe ?_
    rintro ok m ⟨used2, own2, us2, hf2, hs2, hok, hbad⟩
    refine runs_ite.mpr ⟨fun hc => ?_, fun hc => ?_⟩
    · -- The child has no memory again.
      rw [hbad hc] at hs2
      obtain ⟨own3, h3⟩ := h1.replace hnp (t := { s1 with mach := m }) hf2 (Finset.Subset.refl _) hs2
        (by change Sized (s1.proc np).sz []; rw [hsz]; exact sized_nil) rfl hnp (fun _ _ => rfl)
      refine runs_bind.mpr ((h3.freeproc hnp).safe ?_)
      rintro _ s3 ⟨used4, own4, h4⟩
      exact ⟨used4, own4, _, h4⟩
    · have hself := setProc_self (p := np) { s1 with mach := m } { s1.proc np with sz := (s1.proc p).sz }
      obtain ⟨own3, h3⟩ := h1.replace hnp (t := Sys.setProc { s1 with mach := m } np { s1.proc np with sz := (s1.proc p).sz })
        hf2 (Finset.Subset.refl _) (by rw [hself]; exact hs2) (by rw [hself]; exact (hok (Bool.eq_true_of_not_eq_false hc)).1) (by rw [hself])
        (by rw [hself]; exact hnp) (fun q hq => setProc_of_ne _ _ hq)
      refine runs_bind.mpr (runs_alter.mpr (runs_bind.mpr (runs_zoom.mpr (runs_alter.mpr ?_))))
      have hal := h1.frame_aligned hnp
      have h4 := h3.trapframe (p := np) (f := fun m =>
        store (move m (s1.proc np).trapframe (s1.proc p).trapframe TFSIZE) ((s1.proc np).trapframe + 112) 0 8)
        (by rw [hself]; exact hnp) (fun m x hx => ?_)
      · refine runs_bind.mpr (runs_alter.mpr ⟨used2, own3, _, h4.congr rfl (fun q => ?_)⟩)
        by_cases hq : q = np
        · subst hq
          rw [setProc_self]
          refine ⟨rfl, rfl, rfl, ⟨fun hc => (nomatch hc), fun hc => ?_⟩⟩
          exact absurd hc (by rw [hself]; exact hnp)
        · rw [setProc_of_ne _ _ hq]
          exact ⟨rfl, rfl, rfl, Iff.rfl⟩
      · rw [hself] at hx
        rw [store_other hal (by decide) hx]
        exact move_other hal (by decide) hx

theorem InvOf.commit {m3 m5 : Machine} {used3 used5 own3 : Finset Nat} {root : Nat} {l : List (Nat × Nat)} {f : Mem → Mem}
    (hf : Framed ly.stop s.mach used ∅ m3 used3 own3)
    (hsp : UserSpace m3.mem root own3 l (some (s.proc p).trapframe) (some ly.trampoline))
    (hpoke : ∀ m x, pgRoundDown x ≠ (s.proc p).trapframe → f m x = m x)
    (hf5 : Framed ly.stop (m3.setMem (f m3.mem)) used3 ((own p).erase (s.proc p).trapframe) m5 used5 ∅) :
    Framed ly.stop s.mach used (own p) m5 used5 (insert (s.proc p).trapframe own3) ∧
      (s.proc p).trapframe ∉ own3 ∧ UserSpace m5.mem root own3 l (some (s.proc p).trapframe) (some ly.trampoline) ∧
      (∀ x, pgRoundDown x ∈ own3 → m5.mem x = m3.mem x) ∧
      ∀ x, pgRoundDown x = (s.proc p).trapframe → m5.mem x = f m3.mem x := by
  have hframe := ((h.entry p).live hp).frame
  have hempty : Disjoint (own p) ∅ := disjoint_empty_right _
  have hnew : Disjoint (own p) own3 := hf.apart (h.sub p) hempty
  have hold : own p ⊆ used3 := hf.rest_sub (h.sub p) hempty
  have hout : (s.proc p).trapframe ∉ own3 := disjoint_left.mp hnew hframe
  have herase : (own p).erase (s.proc p).trapframe ⊆ own p := erase_subset _ _
  have hdis3 : Disjoint own3 ((own p).erase (s.proc p).trapframe) := disjoint_of_subset_right herase hnew.symm
  have hw1 : Framed ly.stop m3 used3 {(s.proc p).trapframe} (m3.setMem (f m3.mem)) used3 {(s.proc p).trapframe} :=
    Framed.write hf.alloc (singleton_subset_iff.mpr (hold hframe))
      (fun x hx => hpoke _ x (fun hc => hx (mem_singleton.mpr hc)))
  have hs4 := (hsp.frame hf.alloc hw1 hf.sub (disjoint_singleton_right.mpr hout)).1
  have hs5 := (hs4.frame hw1.alloc hf5 hf.sub hdis3).1
  refine ⟨?_, hout, hs5, fun x hx => ?_, fun x hx => ?_⟩
  · have hf3 := hf.frame (h.sub p) hempty
    have hw := Framed.write (m := f m3.mem) hf.alloc hf3.sub (fun x hx => hpoke _ x (fun hc =>
      hx (mem_union_right _ (hc ▸ hframe))))
    have hrest : insert (s.proc p).trapframe own3 ⊆ used3 := insert_subset (hold hframe) hf.sub
    have hdis : Disjoint (insert (s.proc p).trapframe own3) ((own p).erase (s.proc p).trapframe) :=
      disjoint_insert_left.mpr ⟨notMem_erase _ _, hdis3⟩
    have hfr := hf5.frame hrest hdis
    have hall : (own p).erase (s.proc p).trapframe ∪ insert (s.proc p).trapframe own3 = own3 ∪ own p := by
      rw [union_insert, ← insert_union, insert_erase hframe, union_comm]
    rw [hall, empty_union] at hfr
    rw [empty_union] at hf3
    exact hf3.trans (hw.trans hfr)
  · rw [hf5.mem x (hf.sub hx) (disjoint_left.mp hdis3 hx)]
    exact hpoke _ x (fun hc => hout (hc ▸ hx))
  · refine hf5.mem x (hx ▸ hold hframe) ?_
    rw [hx]
    exact notMem_erase _ _

def setRegs (tf sp entry : Nat) (m : Mem) : Mem := store (store (store m (tf + 120) sp 8) (tf + 24) entry 8) (tf + 48) sp 8

/-- The process has a new program: `execStack` has led from `m2` to `m3`. -/
def Execed (ly : Layout) (s : Sys) (p : Fin NPROC) (prog : Program) (entry : Nat) (t : Sys) : Prop :=
  ∃ m2 m3 used2 used3 own2 own3 us2 us3 root sz2 sz3 sp,
    At ly.stop m2 used2 own2 root us2 (some (s.proc p).trapframe) (some ly.trampoline) ∧ Sized sz2 us2 ∧
    (s.proc p).trapframe ∈ used2 ∧ (s.proc p).trapframe ∉ own2 ∧
    execStack ly root prog.args sz2 m2 = .ok ((true, sz3, sp), m3) ∧
    At ly.stop m3 used3 own3 root us3 (some (s.proc p).trapframe) (some ly.trampoline) ∧
    (∀ x, pgRoundDown x ∈ own3 → t.mach.mem x = m3.mem x) ∧
    (∀ x, pgRoundDown x = (s.proc p).trapframe → t.mach.mem x = setRegs (s.proc p).trapframe sp entry m3.mem x) ∧
    t.proc p = { s.proc p with pagetable := root, sz := sz3 }

/-- `exec` fails and nothing has changed, or the process has a new address space. -/
theorem InvOf.exec_spec {prog : Program} {entry : Nat} :
    Runs (exec ly p prog entry) s (fun r t =>
      r = -1 ∧ t = { s with mach := t.mach } ∧ Framed ly.stop s.mach used ∅ t.mach used ∅ ∨
      r = prog.args.length ∧ Execed ly s p prog entry t ∧ Inv ly t)
      (fun x => x = .loadseg ∧ ∃ ph, some ph ∈ prog.headers ∧ ¬ ph.Sound) := by
  have hal := h.frame_aligned hp
  have hhas := (h.entry p).live hp
  have hin := h.sub p hhas.frame
  -- A failure: the new pages are given back.
  have hfail : ∀ {m used'}, Framed ly.stop s.mach used ∅ m used' ∅ → Framed ly.stop s.mach used ∅ m used ∅ := by
    intro m used' hf
    have := hf.used_eq
    rwa [this] at hf
  have hback : ∀ {root sz m used' o l}, Framed ly.stop s.mach used ∅ m used' o →
      UserSpace m.mem root o l (some (s.proc p).trapframe) (some ly.trampoline) → Sized sz l →
      Runs (do
        onMem (procFreepagetable ly root sz)
        pure (-1 : Int)) { s with mach := m } (fun r t =>
          r = -1 ∧ t = { s with mach := t.mach } ∧ Framed ly.stop s.mach used ∅ t.mach used ∅) (fun _ => False) := by
    intro root sz m used' o l hf hsp hz
    refine runs_bind.mpr (runs_zoom.mpr ((procFreepagetable_spec (hf.at hsp) hz).safe ?_))
    rintro _ m' ⟨used2, hf2⟩
    exact ⟨rfl, rfl, hfail (hf.trans hf2)⟩
  refine runs_ite.mpr ⟨fun _ => .inl ⟨rfl, rfl, Framed.refl h.alloc (empty_subset _)⟩,
    fun _ => runs_bind.mpr (runs_look.mpr (runs_bind.mpr (runs_zoom.mpr ?_)))⟩
  refine (procPagetable_spec h.alloc (page_lt (h.alloc.page hin)) hal).safe ?_
  rintro root m1 (⟨h0, used1, hf1⟩ | ⟨h0, used1, own1, hf1, hs1⟩)
  · exact runs_ite.mpr ⟨fun _ => .inl ⟨rfl, rfl, hfail hf1⟩, fun hc => absurd h0 hc⟩
  refine runs_ite.mpr ⟨fun hc => absurd hc h0, fun _ => runs_bind.mpr (runs_zoom.mpr ?_)⟩
  refine (execLoad_spec prog.headers (hf1.at hs1) sized_nil nofun).mono ?_ (fun _ hx => hx)
  rintro r2 m2 ⟨used2, own2, us2, hf2, hs2, hz2, -⟩
  refine runs_ite.mpr ⟨fun _ => (hback (hf1.trans hf2) hs2 hz2).safe (fun _ _ => .inl), fun _ => runs_bind.mpr (runs_zoom.mpr ?_)⟩
  obtain ⟨r3, m3, hstack, used3, own3, us3, hf3, hs3, hz3⟩ := (execStack_spec prog.args (hf2.at hs2) hz2).exists_ok
  refine Runs.of_eq hstack ?_
  have hf12 := hf1.trans hf2
  have hf := hf12.trans hf3
  refine runs_ite.mpr ⟨fun _ => (hback hf hs3 hz3).safe (fun _ _ => .inl), fun htrue => ?_⟩
  -- The pages of the new address space, the trapframe and those of the old one.
  have hinv3 : InvOf ly { s with mach := m3 } used3 own us :=
    h.idle (t := { s with mach := m3 }) hf (fun _ => rfl)
  have hpoke : ∀ (mem : Mem) x, pgRoundDown x ≠ (s.proc p).trapframe →
      setRegs (s.proc p).trapframe r3.2.2 entry mem x = mem x := by
    intro mem x hx
    rw [setRegs, store_other hal (by decide) hx, store_other hal (by decide) hx, store_other hal (by decide) hx]
  refine runs_bind.mpr (runs_zoom.mpr (runs_alter.mpr (runs_bind.mpr (runs_alter.mpr (runs_bind.mpr (runs_zoom.mpr ?_))))))
  have hinv4 := hinv3.trapframe hp hpoke
  have hat4 := hinv4.at hp
  refine (procFreepagetable_spec hat4 hhas.size).safe ?_
  rintro _ m5 ⟨used5, hf5⟩
  obtain ⟨hf6, hout, hs6, hmem6, hregs6⟩ := h.commit hp hf hs3 hpoke hf5
  generalize ht : Sys.setProc _ p _ = t
  have hself : t.proc p = { s.proc p with pagetable := root, sz := r3.2.1 } := by
    rw [← ht, setProc_self]
  have hempty : Disjoint {(s.proc p).trapframe} (∅ : Finset Nat) := disjoint_empty_right _
  have hsing : {(s.proc p).trapframe} ⊆ used := singleton_subset_iff.mpr hin
  refine .inr ⟨rfl, ⟨m2, m3, used2, used3, own2, own3, us2, us3, root, r2.2, r3.2.1, r3.2.2, hf12.at hs2, hz2,
    hf12.keep _ hin (notMem_empty _), disjoint_singleton_left.mp (hf12.apart hsing hempty), ?_, hf.at hs3, hmem6,
    hregs6, hself⟩, used5, _, _, h.step us3 (t := { t with mach := m5 }) hf6 (Finset.Subset.refl _)
    ⟨fun hc => ?_, fun _ => ⟨?_, ?_, ?_⟩⟩ (fun q hq => ?_)⟩
  · rw [hstack, ← Bool.eq_true_of_not_eq_false htrue]
  · rw [hself] at hc
    exact absurd hc hp
  · rw [hself]
    exact mem_insert_self _ _
  · rw [hself]
    change UserSpace m5.mem root ((insert (s.proc p).trapframe own3).erase (s.proc p).trapframe) us3 _ _
    rw [erase_insert hout]
    exact hs6
  · rw [hself]
    exact hz3
  · rw [← ht]
    exact setProc_of_ne _ _ hq

theorem InvOf.exec {prog : Program} {entry : Nat} :
    Runs (exec ly p prog entry) s (fun _ t => Inv ly t) Stops := by
  refine (h.exec_spec hp).mono ?_ (fun _ hx => .inl hx.1)
  rintro r t (⟨-, ht, hf⟩ | ⟨-, -, hinv⟩)
  · exact ⟨used, own, us, h.idle hf (fun q => by rw [ht])⟩
  · exact hinv

theorem InvOf.exit {status : Int} :
    Runs (exit p status) s (fun _ t => Inv ly t) Stops := by
  refine runs_bind.mpr (runs_look.mpr (runs_ite.mpr ⟨fun _ => .inr rfl, fun _ => ?_⟩))
  refine runs_bind.mpr (runs_alter.mpr (runs_alter.mpr ⟨used, own, us, h.congr rfl (fun q => ?_)⟩))
  by_cases hq : q = p
  · subst hq
    rw [setProc_self]
    dsimp only
    split <;> exact ⟨rfl, rfl, rfl, ⟨fun hc => (nomatch hc), fun hc => absurd hc hp⟩⟩
  · rw [setProc_of_ne _ _ hq]
    dsimp only
    split <;> exact ⟨rfl, rfl, rfl, Iff.rfl⟩

theorem InvOf.wait {addr : Nat} :
    Runs (wait ly p addr) s (fun _ t => Inv ly t) (fun _ => False) := by
  refine runs_bind.mpr (runs_look.mpr ?_)
  cases hfind : (List.finRange NPROC).find? (fun q => (s.proc q).parent == some p && (s.proc q).state == .zombie) with
  | none => exact ⟨used, own, us, h⟩
  | some q =>
    have hq : (s.proc q).state ≠ .unused := by
      have := List.find?_some hfind
      simp only [Bool.and_eq_true, beq_iff_eq] at this
      rw [this.2]
      exact nofun
    have hcopy : Runs (if addr ≠ 0 then onMem (copyout (s.proc p).pagetable addr (intBytes (s.proc q).xstate)) else pure true :
        K Bool) s (fun _ t => t.proc = s.proc ∧ ∃ own', InvOf ly t used own' us) (fun _ => False) := by
      refine runs_ite.mpr ⟨fun _ => runs_zoom.mpr ((copyout_spec (h.at hp)).safe ?_), fun _ => ⟨rfl, own, h⟩⟩
      rintro ok m ⟨hf, hs⟩
      obtain ⟨own', hinv⟩ := h.replace hp (t := { s with mach := m }) hf (Finset.Subset.refl _) hs ((h.entry p).live hp).size rfl hp (fun _ _ => rfl)
      rw [update_eq_self] at hinv
      exact ⟨rfl, own', hinv⟩
    refine runs_bind.mpr (hcopy.safe ?_)
    rintro ok s1 ⟨hproc, own1, h1⟩
    refine runs_ite.mpr ⟨fun _ => ⟨used, own1, us, h1⟩, fun _ => ?_⟩
    refine runs_bind.mpr ((h1.freeproc (p := q) (by rw [hproc]; exact hq)).safe ?_)
    rintro _ s2 ⟨used2, own2, h2⟩
    exact ⟨used2, own2, us, h2⟩

end

theorem Inv.call (h : Inv ly s) (hp : (s.proc p).state ≠ .unused) (c : Call) :
    Runs (call ly p c) s (fun _ t => Inv ly t) Stops := by
  obtain ⟨used, own, us, h⟩ := h
  cases c with
  | fork => exact runs_bind.mpr ((h.fork hp).safe (fun _ _ ht => ht))
  | growproc n => exact runs_bind.mpr ((h.growproc hp).safe (fun _ _ ht => ht))
  | exec prog entry => exact runs_bind.mpr ((h.exec hp).mono (fun _ _ ht => ht) (fun _ hx => hx))
  | exit status => exact h.exit hp
  | wait addr => exact runs_bind.mpr ((h.wait hp).safe (fun _ _ ht => ht))

theorem Inv.calls (cs : List (Fin NPROC × Call)) (h : Inv ly s) : Runs (calls ly cs) s (fun _ t => Inv ly t) Stops := by
  induction cs generalizing s with
  | nil => exact h
  | cons c cs ih =>
    obtain ⟨p, c⟩ := c
    refine runs_bind.mpr (runs_look.mpr (runs_bind.mpr (runs_when.mpr ⟨fun hp => ?_, fun _ => ih h⟩)))
    have hlive : (s.proc p).state ≠ .unused := by
      rw [hp]
      exact nofun
    exact (h.call hlive c).mono (fun _ _ ht => ih ht) (fun _ hx => hx)

end Calls

end Xv6Rcu.Space

import Xv6Rcu.SpaceCopy
import Xv6Rcu.Threads

namespace Xv6Rcu.Space

open Exec Memory Kalloc Radix Vm Function Threads Finset

variable {ly : Layout} {s t : Sys} {m : Machine} {used used' own' : Finset Nat} {own : Fin NPROC → Finset Nat}
  {us : Fin NPROC → List (Nat × Nat)} {p q : Fin NPROC} {x y : Proc}

section Invariants

/-- The pages of a process: its trapframe, and those of its address space. -/
structure Has (ly : Layout) (m : Mem) (own : Finset Nat) (us : List (Nat × Nat)) (x : Proc) : Prop where
  frame : x.trapframe ∈ own
  space : UserSpace m x.pagetable (own.erase x.trapframe) us (some x.trapframe) (some ly.trampoline)
  size : Sized x.sz us

structure Entry (ly : Layout) (m : Mem) (own : Finset Nat) (us : List (Nat × Nat)) (x : Proc) : Prop where
  unused : x.state = .unused → own = ∅ ∧ x.trapframe = 0 ∧ x.pagetable = 0 ∧ x.sz = 0
  live : x.state ≠ .unused → Has ly m own us x

structure InvOf (ly : Layout) (s : Sys) (used : Finset Nat) (own : Fin NPROC → Finset Nat)
    (us : Fin NPROC → List (Nat × Nat)) : Prop where
  alloc : Alloc ly.stop s.mach used
  sub : ∀ p, own p ⊆ used
  apart : ∀ p q, p ≠ q → Disjoint (own p) (own q)
  entry : ∀ p, Entry ly s.mach.mem (own p) (us p) (s.proc p)

theorem Has.at {o : Finset Nat} {u : List (Nat × Nat)} (h : Has ly m.mem o u x) (ha : Alloc ly.stop m used) (hs : o ⊆ used) :
    At ly.stop m used (o.erase x.trapframe) x.pagetable u (some x.trapframe) (some ly.trampoline) :=
  ⟨ha, (erase_subset _ _).trans hs, h.space⟩

theorem Entry.framed {o u : Finset Nat} {m' : Machine} {l : List (Nat × Nat)} (h : Entry ly m.mem o l x)
    (ha : Alloc ly.stop m used) (hf : Framed ly.stop m used u m' used' own') (hs : o ⊆ used) (hd : Disjoint o u) :
    Entry ly m'.mem o l x := by
  refine ⟨h.unused, fun hx => ?_⟩
  obtain ⟨h1, h2, h3⟩ := h.live hx
  have hsub : o.erase x.trapframe ⊆ o := erase_subset _ _
  exact ⟨h1, (h2.frame ha hf (hsub.trans hs) (disjoint_of_subset_left hsub hd)).1, h3⟩

/-- A computation with the pages of one process, which may lose some of them. -/
theorem InvOf.step {o : Finset Nat} (us' : List (Nat × Nat)) (h : InvOf ly s used own us)
    (hf : Framed ly.stop s.mach used (own p) t.mach used' own') (ho : o ⊆ own')
    (hp : Entry ly t.mach.mem o us' (t.proc p)) (hq : ∀ q, q ≠ p → t.proc q = s.proc q) :
    InvOf ly t used' (update own p o) (update us p us') := by
  have hd : ∀ q, q ≠ p → Disjoint (own q) o := fun q hqp =>
    disjoint_of_subset_right ho (hf.apart (h.sub q) (h.apart q p hqp))
  refine ⟨hf.alloc, fun q => ?_, fun q r hqr => ?_, fun q => ?_⟩
  · exact update_cases q (ho.trans hf.sub) (fun hqp => hf.rest_sub (h.sub q) (h.apart q p hqp))
  · by_cases hqp : q = p
    · subst hqp
      rw [update_self, update_of_ne hqr.symm]
      exact (hd r hqr.symm).symm
    · rw [update_of_ne hqp]
      by_cases hrp : r = p
      · subst hrp
        rw [update_self]
        exact hd q hqp
      · rw [update_of_ne hrp]
        exact h.apart q r hqr
  · by_cases hqp : q = p
    · subst hqp
      rw [update_self, update_self]
      exact hp
    · rw [update_of_ne hqp, update_of_ne hqp, hq q hqp]
      exact (h.entry q).framed h.alloc hf (h.sub q) (h.apart q p hqp)

theorem InvOf.idle (h : InvOf ly s used own us) (hf : Framed ly.stop s.mach used ∅ t.mach used' own')
    (hq : ∀ q, t.proc q = s.proc q) : InvOf ly t used' own us := by
  refine ⟨hf.alloc, fun q => hf.rest_sub (h.sub q) (disjoint_empty_right _), h.apart, fun q => ?_⟩
  rw [hq q]
  exact (h.entry q).framed h.alloc hf (h.sub q) (disjoint_empty_right _)

theorem InvOf.congr (h : InvOf ly s used own us) (hm : t.mach = s.mach)
    (hq : ∀ q, (t.proc q).trapframe = (s.proc q).trapframe ∧ (t.proc q).pagetable = (s.proc q).pagetable ∧
      (t.proc q).sz = (s.proc q).sz ∧ ((t.proc q).state = .unused ↔ (s.proc q).state = .unused)) :
    InvOf ly t used own us := by
  refine ⟨by rw [hm]; exact h.alloc, h.sub, h.apart, fun q => ?_⟩
  obtain ⟨h1, h2, h3, h4⟩ := hq q
  rw [hm]
  refine ⟨fun hx => ?_, fun hx => ?_⟩
  · rw [h1, h2, h3]
    exact (h.entry q).unused (h4.mp hx)
  · obtain ⟨g1, g2, g3⟩ := (h.entry q).live (fun hc => hx (h4.mpr hc))
    refine ⟨?_, ?_, ?_⟩
    · rw [h1]
      exact g1
    · rw [h1, h2]
      exact g2
    · rw [h3]
      exact g3

theorem page_ne_zero {a : Nat} (h : Alloc ly.stop m used) (ha : a ∈ used) : a ≠ 0 := by
  have := (h.page ha).2.1
  have := ly.pos
  omega

theorem Has.update {o o' : Finset Nat} {l l' : List (Nat × Nat)} {m' : Machine} (h : Has ly m.mem o l x)
    (hs : o ⊆ used) (hf : Framed ly.stop m used (o.erase x.trapframe) m' used' own') (ho : o' ⊆ own')
    (hsp : UserSpace m'.mem y.pagetable o' l' (some x.trapframe) (some ly.trampoline)) (hz : Sized y.sz l')
    (hy : y.trapframe = x.trapframe) :
    Framed ly.stop m used o m' used' (insert x.trapframe own') ∧ Has ly m'.mem (insert x.trapframe o') l' y := by
  have hin : {x.trapframe} ⊆ used := singleton_subset_iff.mpr (hs h.frame)
  have hd : Disjoint {x.trapframe} (o.erase x.trapframe) := by
    rw [disjoint_singleton_left]
    exact notMem_erase _ _
  have hn : x.trapframe ∉ o' := fun hc => disjoint_singleton_left.mp (hf.apart hin hd) (ho hc)
  have hfr := hf.frame hin hd
  rw [union_comm, ← insert_eq, insert_erase h.frame, union_comm, ← insert_eq] at hfr
  refine ⟨hfr, ?_, ?_, hz⟩
  · rw [hy]
    exact mem_insert_self _ _
  · rw [hy, erase_insert hn]
    exact hsp

end Invariants

section Freeing

theorem freeproc_spec {o o' : Finset Nat} (l : List (Nat × Nat)) (h : Alloc ly.stop s.mach used) (hs : o ⊆ used)
    (hframe : (s.proc p).trapframe = 0 ∧ o' = o ∨ (s.proc p).trapframe ∈ o ∧ o' = o.erase (s.proc p).trapframe)
    (htable : (s.proc p).pagetable = 0 ∧ o' = ∅ ∨ ∃ a, UserSpace s.mach.mem (s.proc p).pagetable o' l (some a)
      (some ly.trampoline) ∧ Sized (s.proc p).sz l) :
    Runs (freeproc ly p) s (fun _ t => t.proc = update s.proc p freeEntry ∧
      ∃ used', Framed ly.stop s.mach used o t.mach used' ∅) (fun _ => False) := by
  have hsub : o' ⊆ o := by
    rcases hframe with ⟨-, rfl⟩ | ⟨-, rfl⟩
    · exact Finset.Subset.refl _
    · exact erase_subset _ _
  have hfree : Runs (when ((s.proc p).trapframe ≠ 0) (onMem (kfree ly.stop (s.proc p).trapframe))) s
      (fun _ t => t.proc = s.proc ∧ ∃ used', Framed ly.stop s.mach used o t.mach used' o' ∧
        ∀ x, pgRoundDown x ∈ o' → t.mach.mem x = s.mach.mem x) (fun _ => False) := by
    refine runs_when.mpr ⟨fun h0 => ?_, fun h0 => ?_⟩
    · obtain ⟨hmem, rfl⟩ := hframe.resolve_left (fun hc => h0 hc.1)
      refine runs_zoom.mpr ((kfree_spec ly.pos h hs hmem).safe ?_)
      rintro _ m ⟨hf, hm⟩
      exact ⟨rfl, _, hf, fun x hx => hm x (ne_of_mem_erase hx)⟩
    · obtain ⟨-, rfl⟩ := hframe.resolve_right (fun hc => h0 (fun h0 => page_ne_zero h (hs hc.1) h0))
      exact ⟨rfl, used, Framed.refl h hs, fun _ _ => rfl⟩
  refine runs_bind.mpr (runs_look.mpr (runs_bind.mpr (hfree.safe ?_)))
  rintro _ s1 ⟨hp1, used1, hf1, hm1⟩
  have hset : update s1.proc p freeEntry = update s.proc p freeEntry := by rw [hp1]
  refine runs_bind.mpr (runs_when.mpr ⟨fun h0 => ?_, fun h0 => ?_⟩)
  · obtain ⟨a, hsp, hz⟩ := htable.resolve_left (fun hc => h0 hc.1)
    have hs1 := (hsp.congr s1.mach.mem (hsp.aligned h (hsub.trans hs)) (fun x hx => hm1 x (hsp.table_mem hx))).1
    refine runs_zoom.mpr ((procFreepagetable_spec (hf1.at hs1) hz).safe ?_)
    rintro _ m ⟨used2, hf2⟩
    exact ⟨hset, used2, hf1.trans hf2⟩
  · obtain ⟨-, rfl⟩ := htable.resolve_right (by
      rintro ⟨a, hsp, -⟩
      exact h0 (page_ne_zero h (hs (hsub hsp.tree.root_mem))))
    exact ⟨hset, used1, hf1⟩

theorem entry_free (m : Mem) (l : List (Nat × Nat)) : Entry ly m ∅ l freeEntry :=
  ⟨fun _ => ⟨rfl, rfl, rfl, rfl⟩, fun hc => absurd rfl hc⟩

theorem InvOf.freeproc (h : InvOf ly s used own us) (hp : (s.proc p).state ≠ .unused) :
    Runs (freeproc ly p) s (fun _ t => ∃ used' own', InvOf ly t used' own' us) (fun _ => False) := by
  have hhas := (h.entry p).live hp
  refine (freeproc_spec (us p) h.alloc (h.sub p) (.inr ⟨hhas.frame, rfl⟩) (.inr ⟨_, hhas.space, hhas.size⟩)).safe ?_
  rintro _ t ⟨hproc, used', hf⟩
  have hself : t.proc p = freeEntry := by rw [hproc, update_self]
  have hinv := h.step (us p) hf (Finset.Subset.refl _) (by rw [hself]; exact entry_free _ _) (fun q hq => by
    rw [hproc, update_of_ne hq])
  rw [update_eq_self] at hinv
  exact ⟨used', _, hinv⟩

end Freeing

section Allocating

def firstUnused (s : Sys) : Option (Fin NPROC) := (List.finRange NPROC).find? (fun p => (s.proc p).state == .unused)

theorem unused_of_first (h : firstUnused s = some p) : (s.proc p).state = .unused := by
  simpa using List.find?_some h

/-- `allocproc` fails, and all is as before, or it returns the first process that was unused. -/
theorem InvOf.allocproc (h : InvOf ly s used own us) :
    Runs (allocproc ly) s (fun r t => match r with
      | none => Framed ly.stop s.mach used ∅ t.mach used ∅ ∧ InvOf ly t used own us ∧
          ∀ q, t.proc q = s.proc q ∨ firstUnused s = some q ∧ t.proc q = freeEntry
      | some p => firstUnused s = some p ∧ (∀ q, q ≠ p → t.proc q = s.proc q) ∧ (t.proc p).state ≠ .unused ∧
          (t.proc p).sz = 0 ∧ ∃ used' o, Framed ly.stop s.mach used ∅ t.mach used' o ∧
            InvOf ly t used' (update own p o) (update us p [])) (fun _ => False) := by
  refine runs_bind.mpr (runs_look.mpr ?_)
  change Runs (match firstUnused s with
    | none => _
    | some p => _) _ _ _
  cases hfind : firstUnused s with
  | none => exact ⟨Framed.refl h.alloc (empty_subset _), h, fun _ => .inl rfl⟩
  | some p =>
    have hun := unused_of_first hfind
    obtain ⟨hown, htf, hpt, hsz⟩ := (h.entry p).unused hun
    -- The memory of the new process, with what has been allocated for it.
    have hback : ∀ {t : Sys} {used' : Finset Nat}, Framed ly.stop s.mach used ∅ t.mach used' ∅ →
        t.proc = update s.proc p freeEntry → Framed ly.stop s.mach used ∅ t.mach used ∅ ∧ InvOf ly t used own us ∧
          ∀ q, t.proc q = s.proc q ∨ some p = some q ∧ t.proc q = freeEntry := by
      intro t used' hf hproc
      obtain rfl := hf.used_eq
      have hself : t.proc p = freeEntry := by rw [hproc, update_self]
      have hother : ∀ q, q ≠ p → t.proc q = s.proc q := fun q hq => by rw [hproc, update_of_ne hq]
      have hinv := h.step (us p) (hown.symm ▸ hf) (Finset.Subset.refl _) (by rw [hself, hown]; exact entry_free _ _) hother
      rw [update_eq_self, update_eq_self] at hinv
      refine ⟨hf, hinv, fun q => ?_⟩
      by_cases hq : q = p
      · exact .inr ⟨congrArg some hq.symm, hq ▸ hself⟩
      · exact .inl (hother q hq)
    refine runs_bind.mpr (runs_alter.mpr (runs_bind.mpr (runs_zoom.mpr ?_)))
    refine (kalloc_spec ly.pos h.alloc (empty_subset _)).safe ?_
    intro pa m1 hk
    refine runs_bind.mpr (runs_alter.mpr ?_)
    generalize hs1 : Sys.setProc _ p _ = s1
    have hm1 : s1.mach = m1 := by rw [← hs1]; rfl
    have hp1 : s1.proc = update s.proc p { s.proc p with state := .used, trapframe := pa } := by
      rw [← hs1]
      simp [Sys.setProc]
    have hself1 : s1.proc p = { s.proc p with state := .used, trapframe := pa } := by rw [hp1, update_self]
    rw [← hm1] at hk
    rcases hk with ⟨h0, hf1, -⟩ | ⟨h0, hn, hf1, -⟩
    · refine runs_ite.mpr ⟨fun _ => ?_, fun hc => absurd h0 hc⟩
      refine runs_bind.mpr ((freeproc_spec [] hf1.alloc hf1.sub (.inl ⟨?_, rfl⟩) (.inl ⟨?_, rfl⟩)).safe ?_)
      · rw [hself1]
        exact h0
      · rw [hself1]
        exact hpt
      · rintro _ t ⟨hproc, used2, hf2⟩
        refine hback (hf1.trans hf2) ?_
        rw [hproc, hp1, update_idem]
    · refine runs_ite.mpr ⟨fun hc => absurd hc h0, fun _ => ?_⟩
      have hpage := hf1.alloc.page (mem_insert_self pa used)
      have hin : {pa} ⊆ insert pa used := singleton_subset_iff.mpr (mem_insert_self pa used)
      refine runs_bind.mpr (runs_zoom.mpr ((procPagetable_spec hf1.alloc (page_lt hpage) hpage.1).safe ?_))
      intro r m2 hk
      refine runs_bind.mpr (runs_alter.mpr ?_)
      generalize hs2 : Sys.setProc _ p _ = s2
      have hm2 : s2.mach = m2 := by rw [← hs2]; rfl
      have hp2 : s2.proc = update s.proc p { s.proc p with state := .used, trapframe := pa, pagetable := r } := by
        rw [← hs2]
        simp [Sys.setProc, hp1]
      have hself2 : s2.proc p = { s.proc p with state := .used, trapframe := pa, pagetable := r } := by
        rw [hp2, update_self]
      rw [← hm2] at hk
      rcases hk with ⟨hr, used2, hf2⟩ | ⟨hr, used2, own2, hf2, hsp⟩
      · have hfr := hf2.frame hin (disjoint_empty_right _)
        rw [empty_union] at hfr
        refine runs_ite.mpr ⟨fun _ => ?_, fun hc => absurd hr hc⟩
        refine runs_bind.mpr ((freeproc_spec [] hfr.alloc hfr.sub (.inr ⟨?_, ?_⟩) (.inl ⟨?_, rfl⟩)).safe ?_)
        · rw [hself2]
          exact mem_singleton_self pa
        · rw [hself2]
          simp
        · rw [hself2]
          exact hr
        · rintro _ t ⟨hproc, used3, hf3⟩
          refine hback (hf1.trans (hfr.trans hf3)) ?_
          rw [hproc, hp2, update_idem]
      · have hfr := hf2.frame hin (disjoint_empty_right _)
        rw [empty_union] at hfr
        have hout : pa ∉ own2 := disjoint_singleton_left.mp (hf2.apart hin (disjoint_empty_right _))
        refine runs_ite.mpr ⟨fun hc => absurd hc hr, fun _ => ?_⟩
        have hq : ∀ q, q ≠ p → s2.proc q = s.proc q := fun q hqp => by rw [hp2, update_of_ne hqp]
        refine ⟨rfl, hq, ?_, ?_, used2, _, hf1.trans hfr, h.step [] (hown ▸ hf1.trans hfr)
          (Finset.Subset.refl _) ⟨fun hc => ?_, fun _ => ⟨?_, ?_, ?_⟩⟩ hq⟩
        · rw [hself2]
          exact nofun
        · rw [hself2]
          exact hsz
        · rw [hself2] at hc
          exact nomatch hc
        · rw [hself2]
          exact mem_union_right _ (mem_singleton_self pa)
        · rw [hself2]
          have herase : (own2 ∪ {pa}).erase pa = own2 := by
            rw [union_comm, ← insert_eq, erase_insert hout]
          rw [herase]
          exact hsp
        · rw [hself2]
          change Sized (s.proc p).sz []
          rw [hsz]
          exact sized_nil

end Allocating

end Xv6Rcu.Space

import Xv6Rcu.SpaceBoot

namespace Xv6Rcu.Space

open Exec Memory Kalloc Radix Vm List

variable {ly : Layout} {s t : Sys} {e : Nat} {m m' : Machine} {used used' o o' : Finset Nat} {root va : Nat}
  {l l' : List (Nat × Nat)} {tf tr : Option Nat} {own : Fin NPROC → Finset Nat} {us : Fin NPROC → List (Nat × Nat)}
  {p : Fin NPROC} {a : Nat}

section Bytes

def byteAt (m : Mem) (root va : Nat) : Option UInt8 := (mapping m root va).map (fun u => m (u.1 + va % PGSIZE))

theorem At.mapping_user {u : Nat × Nat} (h : At e m used o root l tf tr) (hu : l[va / PGSIZE]? = some u) :
    mapping m.mem root va = some u := by
  have hlt : va / PGSIZE < l.length := (List.getElem?_eq_some_iff.mp hu).1
  have hmax : va < MAXVA := by
    have := h.fits
    have := (Nat.div_lt_iff_lt_mul (by decide)).mp hlt
    omega
  rw [h.space.map va (lt_TOPVA hmax), layout_user hlt, hu]

theorem At.byteAt_user {u : Nat × Nat} (h : At e m used o root l tf tr) (hu : l[va / PGSIZE]? = some u) :
    byteAt m.mem root va = some (m.mem (u.1 + va % PGSIZE)) := by
  rw [byteAt, h.mapping_user hu, Option.map_some]

theorem At.byteAt_kept (h : At e m used o root l tf tr) (h' : At e m' used' o' root l' tf tr) (hk : Kept m.mem m'.mem l)
    (hva : va / PGSIZE < l.length) (hsame : l'[va / PGSIZE]? = l[va / PGSIZE]?) :
    byteAt m'.mem root va = byteAt m.mem root va := by
  have hu := getElem?_eq_getElem hva
  have hmem := getElem_mem hva
  rw [h.byteAt_user hu, h'.byteAt_user (hsame.trans hu)]
  exact congrArg some (hk _ hmem _ (h.round_user hmem (Nat.mod_lt _ (by decide))))

theorem At.mapped_iff (h : At e m used o root l tf tr) (hva : va < TRAPFRAME) :
    (mapping m.mem root va).isSome ↔ va < l.length * PGSIZE := by
  have hT : TRAPFRAME < MAXVA ∧ TRAPFRAME < TRAMPOLINE ∧ TRAPFRAME % PGSIZE = 0 ∧ TRAMPOLINE % PGSIZE = 0 := by decide
  rw [h.space.map va (lt_TOPVA (by omega)), ← Nat.div_lt_iff_lt_mul (by decide)]
  unfold layout
  by_cases hlt : va / PGSIZE < l.length
  · rw [if_pos hlt, getElem?_eq_getElem hlt]
    exact ⟨fun _ => hlt, fun _ => rfl⟩
  · have h1 : va / PGSIZE ≠ TRAPFRAME / PGSIZE := by
      unfold PGSIZE at hT ⊢
      omega
    have h2 : va / PGSIZE ≠ TRAMPOLINE / PGSIZE := by
      unfold PGSIZE at hT ⊢
      omega
    rw [if_neg hlt, if_neg h1, if_neg h2]
    exact ⟨fun hc => absurd hc Bool.false_ne_true, fun hc => absurd hc hlt⟩

end Bytes

section Extending

variable {oldsz newsz : Nat}

/-- `uvmalloc` has mapped zeroed pages with the flags `fl` above those that there were. -/
structure Extended (s t : Machine) (root oldsz newsz fl : Nat) : Prop where
  leaves : ∀ va, va < TRAPFRAME → ((mapping t.mem root va).isSome ↔ va < pgRoundUp newsz)
  top : ∀ va, TRAPFRAME ≤ va → va < TOPVA → mapping t.mem root va = mapping s.mem root va
  old : ∀ va, va < pgRoundUp oldsz →
    mapping t.mem root va = mapping s.mem root va ∧ byteAt t.mem root va = byteAt s.mem root va
  new : ∀ va, pgRoundUp oldsz ≤ va → va < pgRoundUp newsz →
    (mapping t.mem root va).map Prod.snd = some fl ∧ byteAt t.mem root va = some 0

/-- The leaves and the user's bytes are as before, and a page that is still taken is a page of the page table. -/
structure Undone (e : Nat) (s t : Machine) (used : Finset Nat) (root oldsz : Nat) : Prop where
  leaves : ∀ va, va < TOPVA → mapping t.mem root va = mapping s.mem root va
  bytes : ∀ va, va < pgRoundUp oldsz → byteAt t.mem root va = byteAt s.mem root va
  taken : ∃ used', Alloc e t used' ∧ ∀ a ∈ used', a ∈ used ∨ IsTable t.mem root a

theorem At.page (h : At e m used o root l tf tr) (hz : Sized oldsz l) : va < pgRoundUp oldsz ↔ va / PGSIZE < l.length := by
  rw [h.round hz]
  exact (Nat.div_lt_iff_lt_mul (by decide)).symm

theorem At.extended {new : List (Nat × Nat)} {fl : Nat} (h : At e m used o root l tf tr) (hz : Sized oldsz l)
    (h' : At e m' used' o' root (l ++ new) tf tr) (hz' : Sized newsz (l ++ new)) (hk : Kept m.mem m'.mem l)
    (hfresh : Fresh m'.mem fl new) : Extended m m' root oldsz newsz fl := by
  constructor
  case leaves =>
    intro va hva
    rw [h'.round hz']
    exact h'.mapped_iff hva
  case top =>
    intro va hlow hva
    have hge := Nat.div_le_div_right (c := PGSIZE) hlow
    have h1 := h.length_lt
    have h2 := h'.length_lt
    rw [h'.space.map va hva, h.space.map va hva, layout, layout, if_neg (Nat.not_lt.mpr (h2.le.trans hge)),
      if_neg (Nat.not_lt.mpr (h1.le.trans hge))]
  case old =>
    intro va hva
    have hlt := (h.page hz).mp hva
    have hu := getElem?_eq_getElem hlt
    have hu' : (l ++ new)[va / PGSIZE]? = l[va / PGSIZE]? := getElem?_append_left hlt
    rw [h.mapping_user hu, h'.mapping_user (hu'.trans hu)]
    exact ⟨rfl, h.byteAt_kept h' hk hlt hu'⟩
  case new =>
    intro va hlow hva
    have hge : l.length ≤ va / PGSIZE := Nat.le_of_not_lt (fun hc => absurd ((h.page hz).mpr hc) (by omega))
    have hlt := (h'.page hz').mp hva
    have hu := getElem?_eq_getElem hlt
    have hmem : (l ++ new)[va / PGSIZE] ∈ new := by
      rw [getElem_append_right hge]
      exact getElem_mem _
    obtain ⟨hfl, hzero⟩ := hfresh _ hmem
    rw [h'.mapping_user hu, h'.byteAt_user hu, Option.map_some, hfl]
    exact ⟨rfl, congrArg some (hzero _ (h'.round_user (getElem_mem hlt) (Nat.mod_lt _ (by decide))))⟩

theorem At.undone (h : At e m used o root l tf tr) (hz : Sized oldsz l) (hf : Framed e m used o m' used' o')
    (hs : UserSpace m'.mem root o' l tf tr) (hk : Kept m.mem m'.mem l) : Undone e m m' used root oldsz := by
  refine ⟨fun va hva => (hs.map va hva).trans (h.space.map va hva).symm, fun va hva => ?_, used', hf.alloc, fun a ha => ?_⟩
  · exact h.byteAt_kept (hf.at hs) hk ((h.page hz).mp hva) rfl
  · rcases hf.tight a ha with ho | ⟨hu, -⟩
    · rcases hs.all a ho with ht | hp
      · exact .inr ht
      · obtain ⟨u, hu, rfl⟩ := mem_map.mp hp
        exact .inl (h.sub (h.space.pages u hu).1)
    · exact .inl hu

end Extending

section Growing

structure Grown (s t : Sys) (p : Fin NPROC) (n : Int) : Prop where
  size : ((t.proc p).sz : Int) = (s.proc p).sz + n
  mapped : ∀ va, va < TRAPFRAME →
    ((mapping t.mach.mem (t.proc p).pagetable va).isSome ↔ va < pgRoundUp (t.proc p).sz)
  old : ∀ va, va < min (s.proc p).sz (t.proc p).sz →
    byteAt t.mach.mem (t.proc p).pagetable va = byteAt s.mach.mem (s.proc p).pagetable va
  new : ∀ va, pgRoundUp (s.proc p).sz ≤ va → va < pgRoundUp (t.proc p).sz →
    byteAt t.mach.mem (t.proc p).pagetable va = some 0

structure Unchanged (s t : Sys) (p : Fin NPROC) : Prop where
  size : (t.proc p).sz = (s.proc p).sz
  mapped : ∀ va, va < TOPVA →
    mapping t.mach.mem (t.proc p).pagetable va = mapping s.mach.mem (s.proc p).pagetable va
  bytes : ∀ va, va < (s.proc p).sz →
    byteAt t.mach.mem (t.proc p).pagetable va = byteAt s.mach.mem (s.proc p).pagetable va

theorem Sized.page {sz : Nat} (hz : Sized sz l) (hva : va < sz) : va / PGSIZE < l.length :=
  (Nat.div_lt_iff_lt_mul (by decide)).mpr (lt_of_lt_of_le hva hz.1)

theorem At.grown {sz : Nat} {new : List (Nat × Nat)} {fl : Nat} (h : At ly.stop s.mach used o (s.proc p).pagetable l tf tr)
    (hz : Sized (s.proc p).sz l) (h' : At ly.stop m used' o' (s.proc p).pagetable (l ++ new) tf tr)
    (hz' : Sized sz (l ++ new)) (hk : Kept s.mach.mem m.mem l) (hzero : Fresh m.mem fl new) {n : Int}
    (hn : (sz : Int) = (s.proc p).sz + n) :
    Grown s (Sys.setProc { s with mach := m } p { s.proc p with sz := sz }) p n := by
  have hx := h.extended hz h' hz' hk hzero
  constructor <;> rw [setProc_self]
  · exact hn
  · exact hx.leaves
  · exact fun va hva => (hx.old va ((h.page hz).mpr (hz.page (lt_of_lt_of_le hva (Nat.min_le_left _ _))))).2
  · exact fun va hlow hva => (hx.new va hlow hva).2

theorem At.shrunk {sz q : Nat} (h : At ly.stop s.mach used o (s.proc p).pagetable l tf tr) (hz : Sized (s.proc p).sz l)
    (h' : At ly.stop m used' o' (s.proc p).pagetable (l.take q) tf tr) (hz' : Sized sz (l.take q))
    (hk : Kept s.mach.mem m.mem (l.take q)) {n : Int} (hn : (sz : Int) = (s.proc p).sz + n) :
    Grown s (Sys.setProc { s with mach := m } p { s.proc p with sz := sz }) p n := by
  constructor <;> rw [setProc_self]
  · exact hn
  · intro va hva
    rw [h'.round hz']
    exact h'.mapped_iff hva
  · intro va hva
    have hlt := hz'.page (lt_of_lt_of_le hva (Nat.min_le_right _ _))
    have hlt' := hz.page (lt_of_lt_of_le hva (Nat.min_le_left _ _))
    have hq : va / PGSIZE < q := by
      rw [length_take] at hlt
      omega
    have hu := getElem?_eq_getElem hlt'
    have hmem : l[va / PGSIZE] ∈ l.take q := by
      rw [← getElem?_take_of_lt hq] at hu
      exact mem_of_getElem? hu
    have hu' := (getElem?_take_of_lt hq).trans hu
    change byteAt m.mem (s.proc p).pagetable va = _
    rw [h.byteAt_user hu, h'.byteAt_user hu']
    exact congrArg some (hk _ hmem _ (h'.round_user hmem (Nat.mod_lt _ (by decide))))
  · intro va hlow hva
    rw [h.round hz] at hlow
    rw [h'.round hz'] at hva
    have := Nat.mul_le_mul_right PGSIZE (length_take_le' q l)
    omega

theorem InvOf.growproc_spec {n : Int} (h : InvOf ly s used own us) (hp : (s.proc p).state ≠ .unused)
    (hn : -2 ^ 31 ≤ n ∧ n < 2 ^ 31) (hsz : 0 ≤ (s.proc p).sz + n) :
    Runs (Space.growproc ly p n) s (fun r t => r = 0 ∧ Grown s t p n ∨ r = -1 ∧ Unchanged s t p) (fun _ => False) := by
  have hat := h.at hp
  have hz := ((h.entry p).live hp).size
  -- No sum of 64 bits overflows.
  have hnew : ((((s.proc p).sz + n) % 2 ^ 64).toNat : Int) = (s.proc p).sz + n := by
    have h1 := hz.1.trans hat.le_stop
    have h2 : PHYSTOP < 2 ^ 63 := by decide
    omega
  refine runs_bind.mpr (runs_look.mpr ?_)
  refine runs_ite.mpr ⟨fun hpos => ?_, fun hpos => runs_ite.mpr ⟨fun hneg => ?_, fun hneg => ?_⟩⟩
  · refine runs_bind.mpr (runs_zoom.mpr ((uvmalloc_spec ly.pos hat hz (by decide)).safe ?_))
    rintro r m ⟨used1, own1, new, hf1, hk1, hzero, hs1, hr⟩
    refine runs_ite.mpr ⟨fun h0 => .inr ⟨rfl, ?_⟩, fun h0 => .inl ⟨rfl, ?_⟩⟩
    · obtain ⟨-, rfl⟩ := hr.resolve_right (fun hc => by omega)
      rw [append_nil] at hs1
      have hu := hat.undone hz hf1 hs1 hk1
      exact ⟨rfl, hu.leaves, fun va hva => hu.bytes va ((hat.page hz).mpr (hz.page hva))⟩
    · obtain ⟨hmax, hz1⟩ := hr.resolve_left (fun hc => h0 hc.1)
      exact hat.grown hz (hf1.at hs1) hz1 hk1 hzero (by omega)
  · refine runs_bind.mpr (runs_zoom.mpr ((uvmdealloc_spec ly.pos hat hz).safe ?_))
    rintro r m ⟨hmin, used1, own1, q, hf1, hk1, hs1, hz1, -⟩
    exact .inl ⟨rfl, hat.shrunk hz (hf1.at hs1) hz1 hk1 (by omega)⟩
  · refine .inl ⟨rfl, ⟨by omega, fun va hva => ?_, fun _ _ => rfl, fun va h1 h2 => by omega⟩⟩
    rw [hat.round hz]
    exact hat.mapped_iff hva

def firstProcess : Sys := final (userinit smallLayout [1, 2]) (started [])

theorem Booted.userinit {code : List UInt8} (h : Booted ly s) (ht : userinit ly code s = .ok ((), t)) (hp : t.initproc = some p)
    (hmap : (mapping t.mach.mem (t.proc p).pagetable 0).isSome) : Inv ly t := by
  obtain ⟨used, hinv⟩ := h.inv
  obtain ⟨q, hq, himp⟩ := (userinit_spec code hinv).ok ht
  obtain rfl : p = q := Option.some.inj (hp.symm.trans hq)
  exact himp hmap

theorem firstProcess_inv : Inv smallLayout firstProcess := by
  have hinit : Space.userinit smallLayout [1, 2] (started []) = .ok ((), firstProcess) := by
    unfold firstProcess
    exact eq_final (by decide +kernel)
  refine (started_booted []).userinit (p := 0) hinit ?_ ?_
  · decide +kernel
  · decide +kernel

def resultSize (x : K Int) (p : Fin NPROC) (s : Sys) : Option (Int × Nat) :=
  match x s with
  | .ok (r, t) => some (r, (t.proc p).sz)
  | .error _ => none

end Growing

section Undoing

variable {oldsz newsz : Nat}

theorem At.dealloc_restores (h : At e m used o root l tf tr) (hz : Sized oldsz l) (hle : oldsz ≤ newsz)
    {new : List (Nat × Nat)} (he : 0 < e) (h' : At e m' used' o' root (l ++ new) tf tr) (hz' : Sized newsz (l ++ new)) :
    ∃ t, uvmdealloc e root newsz oldsz m' = .ok (oldsz, t) ∧
      ∀ va, va < TOPVA → mapping t.mem root va = mapping m.mem root va := by
  have hrun : Runs (uvmdealloc e root newsz oldsz) m' _ (fun _ => False) := uvmdealloc_spec he h' hz'
  obtain ⟨r, t, ht, hr, used1, own1, q, -, -, hs, -, hq⟩ := hrun.exists_ok
  rw [min_eq_right hle] at hr
  rw [hr, h.round hz] at hq
  have hql : q = l.length := (Nat.eq_of_mul_eq_mul_right (by decide) hq).symm
  rw [hql, take_left] at hs
  exact ⟨t, hr ▸ ht, fun va hva => (hs.map va hva).trans (h.space.map va hva).symm⟩

/-- `uvmalloc` maps all pages, and `uvmdealloc` takes them away, or it undoes what it has done. -/
theorem uvmalloc_undoes (oldsz newsz xperm : Nat) (he : 0 < e) (h : At e m used o root l tf tr) (hz : Sized oldsz l) (hle : oldsz ≤ newsz)
    (hx : xperm < 1024) : ∃ r t, uvmalloc e root oldsz newsz xperm m = .ok (r, t) ∧
      (r = newsz ∧ Extended m t root oldsz newsz (PTE_R ||| PTE_U ||| xperm ||| PTE_V) ∧
          (∃ t', uvmdealloc e root newsz oldsz t = .ok (oldsz, t') ∧
            ∀ va, va < TOPVA → mapping t'.mem root va = mapping m.mem root va) ∨
        r = 0 ∧ Undone e m t used root oldsz) := by
  have hrun : Runs (uvmalloc e root oldsz newsz xperm) m _ (fun _ => False) := uvmalloc_spec he h hz hx
  obtain ⟨r, t, ht, used', own', new, hf, hk, hfresh, hs, hr⟩ := hrun.exists_ok
  refine ⟨r, t, ht, ?_⟩
  rcases hr with ⟨hr, rfl⟩ | ⟨hr, hz'⟩
  · rw [append_nil] at hs
    exact .inr ⟨hr, h.undone hz hf hs hk⟩
  · rw [max_eq_right hle] at hr
    rw [hr] at hz'
    exact .inl ⟨hr, h.extended hz (hf.at hs) hz' hk hfresh, h.dealloc_restores hz hle he (hf.at hs) hz'⟩

theorem uvmalloc_undoes_first : ∃ r t, uvmalloc smallLayout.stop (firstProcess.proc 0).pagetable
    (firstProcess.proc 0).sz 9000 PTE_W firstProcess.mach = .ok (r, t) ∧ (r = 9000 ∨ r = 0) := by
  obtain ⟨used, own, us, h⟩ := firstProcess_inv
  have hp : (firstProcess.proc 0).state ≠ .unused := by decide +kernel
  obtain ⟨r, t, ht, hr⟩ := uvmalloc_undoes _ 9000 PTE_W smallLayout.pos (h.at hp) ((h.entry 0).live hp).size
    (by decide +kernel) (by decide)
  exact ⟨r, t, ht, hr.imp And.left And.left⟩

end Undoing

section Freeing

theorem Framed.freed {free : List Nat} (h : Framed e m used o m' used' ∅) (hsub : o ⊆ used)
    (hl : Kalloc.Inv e ⟨m.kmem, used⟩ free) :
    ∃ free', FreeList m'.kmem free' ∧ free'.Nodup ∧ ∀ a, a ∈ free' ↔ a ∈ free ∨ a ∈ o := by
  obtain ⟨free', h1⟩ := h.alloc
  refine ⟨free', h1.list, Links.Chain.nodup h1.list, fun a => ?_⟩
  have hpage : a ∈ free ∨ a ∈ used ↔ a ∈ free' ∨ a ∈ used' := (hl.pages a).symm.trans (h1.pages a)
  have hno : a ∈ free' → a ∉ used' := h1.apart a
  have hno' : a ∈ free → a ∉ used := hl.apart a
  have hkeep := h.keep a
  have htight : a ∈ used' → a ∈ used ∧ a ∉ o := fun ha => (h.tight a ha).resolve_left (Finset.notMem_empty a)
  have hin : a ∈ o → a ∈ used := fun ha => hsub ha
  tauto

/-- `proc_freepagetable` gives back the user's pages and the pages of the page table, each of them once, and neither
the trapframe nor the trampoline. -/
theorem procFreepagetable_frees {sz : Nat} {free : List Nat} (hl : Kalloc.Inv ly.stop ⟨m.kmem, used⟩ free)
    (hsub : o ⊆ used) (h : UserSpace m.mem root o l (some a) (some ly.trampoline)) (hz : Sized sz l)
    (ha : a ∈ used) (hao : a ∉ o) : ∃ t free', procFreepagetable ly root sz m = .ok ((), t) ∧
      FreeList t.kmem free' ∧ free'.Nodup ∧
      (∀ q, q ∈ free' ↔ q ∈ free ∨ q ∈ l.map Prod.fst ∨ IsTable m.mem root q) ∧
      a ∉ free' ∧ ly.trampoline ∉ free' := by
  have hat : At ly.stop m used o root l (some a) (some ly.trampoline) := ⟨⟨free, hl⟩, hsub, h⟩
  obtain ⟨_, t, ht, used', hf⟩ := (procFreepagetable_spec hat hz).exists_ok
  obtain ⟨free', hlist, hnodup, hmem⟩ := hf.freed hsub hl
  refine ⟨t, free', ht, hlist, hnodup, fun q => ?_, fun hc => ?_, fun hc => ?_⟩
  · rw [hmem q]
    refine or_congr_right ⟨fun hq => (h.all q hq).symm, ?_⟩
    rintro (hq | hq)
    · obtain ⟨u, hu, rfl⟩ := mem_map.mp hq
      exact (h.pages u hu).1
    · exact h.table_mem hq
  · exact ((hmem a).mp hc).elim (fun hfree => hl.apart a hfree ha) hao
  · have hpage : IsPage ly.stop ly.trampoline := by
      rcases (hmem _).mp hc with hfree | ho
      · exact (hl.pages _).mpr (.inl hfree)
      · exact (hl.pages _).mpr (.inr (hsub ho))
    have h1 := hpage.2.1
    have h2 := ly.code
    unfold PGSIZE at h2
    omega

theorem procFreepagetable_frees_first : ∃ t free', procFreepagetable smallLayout (firstProcess.proc 0).pagetable
    (firstProcess.proc 0).sz firstProcess.mach = .ok ((), t) ∧ FreeList t.kmem free' ∧
      (firstProcess.proc 0).pagetable ∈ free' ∧ (firstProcess.proc 0).trapframe ∉ free' := by
  obtain ⟨used, own, us, h⟩ := firstProcess_inv
  obtain ⟨free, hl⟩ := h.alloc
  have hlive := (h.entry 0).live (by decide +kernel)
  obtain ⟨t, free', ht, hlist, -, hmem, htf, -⟩ := procFreepagetable_frees hl
    ((Finset.erase_subset _ _).trans (h.sub 0)) hlive.space hlive.size (h.sub 0 hlive.frame) (Finset.notMem_erase _ _)
  exact ⟨t, free', ht, hlist, (hmem _).mpr (.inr (.inr ⟨[], by decide, rfl⟩)), htf⟩

end Freeing

end Xv6Rcu.Space

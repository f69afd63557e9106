import Xv6Rcu.SpaceCalls

namespace Xv6Rcu.Space

open Exec Memory Kalloc Radix Vm Function Finset

variable {ly : Layout} {s t : Sys} {used used' : Finset Nat} {own : Fin NPROC → Finset Nat}
  {us : Fin NPROC → List (Nat × Nat)} {p q : Fin NPROC}

section Userinit

def StopsFirst (x : Halt) : Prop := x = .null ∨ x = .vm .uvmfirst

theorem uvmfirst_spec {e : Nat} {m : Machine} {o : Finset Nat} {root : Nat} {tf tr : Option Nat} {src : List UInt8} (he : 0 < e)
    (h : At e m used o root [] tf tr) :
    Runs (uvmfirst root src) m (fun _ m' => ∃ used' own' o' l, Framed e m used o m' used' own' ∧ o' ⊆ own' ∧
      UserSpace m'.mem root o' l tf tr ∧ l.length ≤ 1) StopsFirst := by
  refine runs_ite.mpr ⟨fun _ => .inr rfl, fun hlen => ?_⟩
  refine runs_bind.mpr ((newPage he h.alloc).safe ?_)
  rintro pa m1 (⟨h0, -⟩ | ⟨h0, hpa, hal, hf1⟩)
  · exact runs_ite.mpr ⟨fun _ => .inl rfl, fun hc => absurd h0 hc⟩
  refine runs_ite.mpr ⟨fun hc => absurd hc h0, fun _ => ?_⟩
  have hempty : Disjoint o ∅ := disjoint_empty_right _
  have hn : pa ∉ o := fun hc => hpa (h.sub hc)
  have hd : Disjoint o {pa} := disjoint_singleton_right.mpr hn
  have hself := mem_insert_self pa used
  have hin : {pa} ⊆ insert pa used := singleton_subset_iff.mpr hself
  obtain ⟨hat1, -⟩ := h.frame hf1 hempty
  have hw : Framed e m1 (insert pa used) {pa} (m1.setMem (fill m1.mem pa 0 PGSIZE)) (insert pa used) {pa} :=
    Framed.write hf1.alloc hf1.sub (fun x hx => if_neg (outside hal (fun hc => hx (mem_singleton.mpr hc)) le_rfl))
  obtain ⟨hat2, -⟩ := hat1.frame hw hd
  have hfr2 := (hf1.trans hw).frame h.sub hempty
  refine runs_bind.mpr (runs_alter.mpr (runs_bind.mpr ((hat2.mapUser he hself hn (by decide) (by decide)).safe ?_)))
  rintro ok m3 ⟨used3, own3, hf3, -, hok, hbad⟩
  have hfr3 := hf3.frame hin hd.symm
  rw [union_comm o] at hfr3
  rw [empty_union] at hfr2
  have hput : ∀ (m : Mem) x, pgRoundDown x ≠ pa → put m pa src x = m x := fun m x hx =>
    if_neg (outside hal hx (by omega))
  have hf := hfr2.trans hfr3
  cases ok with
  | true =>
    have hs3 := hok rfl
    rw [union_comm, ← insert_eq] at hf
    obtain ⟨h1, h2, -⟩ := hs3.pages _ (List.mem_singleton_self _)
    refine ((hf.at hs3).poke h1 h2 hput).safe ?_
    rintro _ m4 ⟨hf4, hs4, -⟩
    exact ⟨used3, _, _, _, hf.trans hf4, Finset.Subset.refl _, hs4, le_rfl⟩
  | false =>
    have hn3 : pa ∉ own3 := disjoint_singleton_left.mp (hf3.apart hin hd.symm)
    have hw4 : Framed e m3 used3 {pa} (m3.setMem (put m3.mem pa src)) used3 {pa} :=
      Framed.write hf3.alloc (hf3.rest_sub hin hd.symm) (fun x hx => hput _ x (fun hc => hx (mem_singleton.mpr hc)))
    have hd3 : Disjoint own3 {pa} := disjoint_singleton_right.mpr hn3
    obtain ⟨hat4, -⟩ := (hf3.at (hbad rfl)).frame hw4 hd3
    have hfr4 := hw4.frame hf3.sub hd3
    rw [Finset.union_comm {pa}] at hfr4
    exact runs_alter.mpr ⟨used3, _, own3, [], hf.trans hfr4, Finset.subset_union_left, hat4.space, Nat.zero_le _⟩

theorem InvOf.first (h : InvOf ly s used own us) (hl : (us p).length ≤ 1) (hp : (s.proc p).state ≠ .unused)
    (hsz : (s.proc p).sz = (us p).length * PGSIZE) (hmach : t.mach = s.mach)
    (hproc : (t.proc p).trapframe = (s.proc p).trapframe ∧ (t.proc p).pagetable = (s.proc p).pagetable ∧
      (t.proc p).sz = PGSIZE ∧ (t.proc p).state ≠ .unused) (hother : ∀ q, q ≠ p → t.proc q = s.proc q)
    (hmap : (mapping t.mach.mem (t.proc p).pagetable 0).isSome) : Inv ly t := by
  obtain ⟨h1, h2, h3, h4⟩ := hproc
  have hone : (us p).length = 1 := by
    by_contra hne
    have h0 : ¬ 0 / PGSIZE < (us p).length := by
      rw [Nat.zero_div]
      omega
    rw [hmach, h2, (h.at hp).space.map 0 (by decide), layout, if_neg h0, if_neg (by decide), if_neg (by decide)] at hmap
    exact absurd hmap Bool.false_ne_true
  refine ⟨used, own, us, h.congr hmach (fun q => ?_)⟩
  by_cases hq : q = p
  · subst hq
    refine ⟨h1, h2, ?_, ⟨fun hc => absurd hc h4, fun hc => absurd hc hp⟩⟩
    rw [h3, hsz, hone, one_mul]
  · rw [hother q hq]
    exact ⟨rfl, rfl, rfl, Iff.rfl⟩

theorem userinit_spec (code : List UInt8) (h : InvOf ly s used own us) :
    Runs (userinit ly code) s (fun _ t => ∃ p, t.initproc = some p ∧
      ((mapping t.mach.mem (t.proc p).pagetable 0).isSome → Inv ly t)) StopsFirst := by
  refine runs_bind.mpr (h.allocproc.safe ?_)
  intro r s1 hr
  cases r with
  | none => exact .inl rfl
  | some p =>
    obtain ⟨-, hq1, hp, hsz, used1, o1, -, h1⟩ := hr
    generalize update own p o1 = own1 at h1
    have hat := h1.at hp
    rw [update_self] at hat
    have hal := h1.frame_aligned hp
    refine runs_bind.mpr (runs_alter.mpr (runs_bind.mpr (runs_look.mpr (runs_bind.mpr (runs_zoom.mpr ?_)))))
    refine (uvmfirst_spec ly.pos hat).mono ?_ (fun _ hx => hx)
    rintro _ m2 ⟨used2, own2, o2, l, hf2, ho2, hs2, hl⟩
    refine runs_bind.mpr (runs_alter.mpr (runs_bind.mpr (runs_zoom.mpr (runs_alter.mpr (runs_alter.mpr ?_)))))
    refine ⟨p, rfl, fun hmap => ?_⟩
    -- The same with the size that the user has, in place of `PGSIZE`.
    have h1' : InvOf ly { s1 with initproc := some p } used1 own1 (update us p []) :=
      h1.congr rfl (fun q => ⟨rfl, rfl, rfl, Iff.rfl⟩)
    have hself := setProc_self (p := p) { s1 with mach := m2, initproc := some p } { s1.proc p with sz := l.length * PGSIZE }
    obtain ⟨own3, h2⟩ := h1'.replace hp (t := Sys.setProc { s1 with mach := m2, initproc := some p } p
      { s1.proc p with sz := l.length * PGSIZE }) hf2 ho2 (by rw [hself]; exact hs2) (by rw [hself]; exact sized_mul l)
      (by rw [hself]) (by rw [hself]; exact hp) (fun q hq => setProc_of_ne _ _ hq)
    have h3 := h2.trapframe (p := p) (f := fun m => store (store m ((s1.proc p).trapframe + 24) 0 8)
      ((s1.proc p).trapframe + 48) PGSIZE 8) (by rw [hself]; exact hp) (fun m x hx => by
        rw [hself] at hx
        rw [store_other hal (by decide) hx, store_other hal (by decide) hx])
    refine h3.first (p := p) (by rw [update_self]; exact hl) ?_ ?_ rfl ?_ ?_ ?_
    · rw [hself]
      exact hp
    · rw [update_self, hself]
    · rw [hself, setProc_self, setProc_self]
      exact ⟨rfl, rfl, rfl, nofun⟩
    · intro q hq
      rw [setProc_of_ne _ _ hq, setProc_of_ne _ _ hq]
      exact (setProc_of_ne _ _ hq).symm
    · exact hmap

end Userinit

section Spaces

inductive Role where
  | user | trapframe | table
  deriving DecidableEq

def Holds (s : Sys) (p : Fin NPROC) (r : Role) (pa : Nat) : Prop :=
  (s.proc p).state ≠ .unused ∧ match r with
    | .user => ∃ va fl, va < pgRoundUp (s.proc p).sz ∧ mapping s.mach.mem (s.proc p).pagetable va = some (pa, fl)
    | .trapframe => pa = (s.proc p).trapframe
    | .table => IsTable s.mach.mem (s.proc p).pagetable pa

structure AddressSpaces (ly : Layout) (s : Sys) : Prop where
  mapped : ∀ p, (s.proc p).state ≠ .unused → ∀ va, va < TOPVA → ((mapping s.mach.mem (s.proc p).pagetable va).isSome ↔
    va < pgRoundUp (s.proc p).sz ∨ va / PGSIZE = TRAPFRAME / PGSIZE ∨ va / PGSIZE = TRAMPOLINE / PGSIZE)
  top : ∀ p, (s.proc p).state ≠ .unused →
    mapping s.mach.mem (s.proc p).pagetable TRAPFRAME = some ((s.proc p).trapframe, PTE_R ||| PTE_W ||| PTE_V) ∧
    mapping s.mach.mem (s.proc p).pagetable TRAMPOLINE = some (ly.trampoline, PTE_R ||| PTE_X ||| PTE_V)
  once : ∀ p q r r' pa, Holds s p r pa → Holds s q r' pa → p = q ∧ r = r'

section

variable (h : InvOf ly s used own us)

include h

theorem InvOf.mapping_eq (hp : (s.proc p).state ≠ .unused) {va : Nat} (hva : va < TOPVA) :
    mapping s.mach.mem (s.proc p).pagetable va =
      layout (us p) (some (s.proc p).trapframe) (some ly.trampoline) (va / PGSIZE) := (h.at hp).space.map va hva

theorem InvOf.user_iff (hp : (s.proc p).state ≠ .unused) {va : Nat} :
    va < pgRoundUp (s.proc p).sz ↔ va / PGSIZE < (us p).length := by
  rw [(h.at hp).round ((h.entry p).live hp).size, Nat.div_lt_iff_lt_mul (by decide)]

theorem InvOf.holds_user {pa : Nat} (hr : Holds s p .user pa) :
    ∃ u ∈ us p, u.1 = pa := by
  obtain ⟨hp, va, fl, hva, hmap⟩ := hr
  rw [h.user_iff hp] at hva
  have hlt : va < TOPVA := by
    have := (h.at hp).fits
    have : MAXVA ≤ TOPVA := by decide
    have := (Nat.div_lt_iff_lt_mul (by decide)).mp hva
    omega
  rw [h.mapping_eq hp hlt, layout_user hva] at hmap
  exact ⟨_, List.mem_of_getElem? hmap, rfl⟩

theorem InvOf.holds {pa : Nat} {r : Role} (hr : Holds s p r pa) :
    pa ∈ own p ∧ (r = .trapframe ↔ pa = (s.proc p).trapframe) ∧
      (r = .table → IsTable s.mach.mem (s.proc p).pagetable pa) ∧
      (r = .user → ¬ IsTable s.mach.mem (s.proc p).pagetable pa) := by
  have hp := hr.1
  have hhas := (h.entry p).live hp
  cases r with
  | user =>
    obtain ⟨u, hu, rfl⟩ := h.holds_user hr
    obtain ⟨h1, h2, -⟩ := hhas.space.pages u hu
    exact ⟨mem_of_mem_erase h1, ⟨nofun, fun hc => absurd hc (ne_of_mem_erase h1)⟩, nofun, fun _ => h2⟩
  | trapframe =>
    have hpa : pa = (s.proc p).trapframe := hr.2
    exact ⟨hpa ▸ hhas.frame, ⟨fun _ => hpa, fun _ => rfl⟩, nofun, nofun⟩
  | table =>
    have ht : IsTable s.mach.mem (s.proc p).pagetable pa := hr.2
    have h1 := hhas.space.table_mem ht
    exact ⟨mem_of_mem_erase h1, ⟨nofun, fun hc => absurd hc (ne_of_mem_erase h1)⟩, fun _ => ht, nofun⟩

theorem InvOf.spaces : AddressSpaces ly s := by
  refine ⟨fun p hp va hva => ?_, fun p hp => ⟨?_, ?_⟩, fun p q r r' pa hr hr' => ?_⟩
  · rw [h.mapping_eq hp hva, h.user_iff hp]
    unfold layout
    by_cases h1 : va / PGSIZE < (us p).length
    · rw [if_pos h1, List.getElem?_eq_getElem h1]
      exact ⟨fun _ => .inl h1, fun _ => rfl⟩
    · rw [if_neg h1]
      by_cases h2 : va / PGSIZE = TRAPFRAME / PGSIZE
      · rw [if_pos h2]
        exact ⟨fun _ => .inr (.inl h2), fun _ => rfl⟩
      · rw [if_neg h2]
        by_cases h3 : va / PGSIZE = TRAMPOLINE / PGSIZE
        · rw [if_pos h3]
          exact ⟨fun _ => .inr (.inr h3), fun _ => rfl⟩
        · rw [if_neg h3]
          exact ⟨fun hc => absurd hc Bool.false_ne_true, by simp [h1, h2, h3]⟩
  · rw [h.mapping_eq hp (by decide)]
    exact (layout_tf (h.at hp).length_lt none _).trans (if_pos rfl)
  · rw [h.mapping_eq hp (by decide)]
    exact (layout_tr (h.at hp).length_lt none _).trans (if_pos rfl)
  · obtain ⟨g1, g2, g3, g4⟩ := h.holds hr
    obtain ⟨k1, k2, k3, k4⟩ := h.holds hr'
    have hpq : p = q := by
      by_contra hne
      exact disjoint_left.mp (h.apart p q hne) g1 k1
    subst hpq
    refine ⟨rfl, ?_⟩
    cases r with
    | user =>
      cases r' with
      | user => rfl
      | trapframe => exact absurd (g2.mpr (k2.mp rfl)) nofun
      | table => exact absurd (k3 rfl) (g4 rfl)
    | trapframe => exact (k2.mpr (g2.mp rfl)).symm
    | table =>
      cases r' with
      | user => exact absurd (g3 rfl) (k4 rfl)
      | trapframe => exact absurd (g2.mpr (k2.mp rfl)) nofun
      | table => rfl

end

structure Booted (ly : Layout) (s : Sys) : Prop where
  alloc : ∃ used, Alloc ly.stop s.mach used
  free : ∀ p, s.proc p = freeEntry

theorem Booted.inv (h : Booted ly s) : ∃ used, InvOf ly s used (fun _ => ∅) (fun _ => []) := by
  obtain ⟨used, ha⟩ := h.alloc
  refine ⟨used, ha, fun _ => empty_subset _, fun _ _ _ => disjoint_empty_right _, fun p => ?_⟩
  rw [h.free p]
  exact entry_free _ _

def smallLayout : Layout := ⟨PHYSTOP - 16 * PGSIZE, PHYSTOP - 32 * PGSIZE, by decide, by decide, by decide, by decide⟩

/-- The kernel has been started; `fail` says which calls of `kalloc` fail. -/
def started (fail : List Bool) : Sys :=
  ⟨⟨(kinit smallLayout.stop (fun _ => 0)).getD ⟨fun _ => 0, 0⟩, fail⟩, fun _ => freeEntry, none⟩

theorem started_booted (fail : List Bool) : Booted smallLayout (started fail) := by
  obtain ⟨k, l, hk, hinv⟩ := kinit_inv (e := smallLayout.stop) (by decide) (by decide) (fun _ => 0)
  have hs : (started fail).mach = ⟨k, fail⟩ := by
    rw [started, hk]
    rfl
  exact ⟨⟨∅, l, by rw [hs]; exact hinv⟩, fun _ => rfl⟩

def final (x : K Unit) (s : Sys) : Sys :=
  match x s with
  | .ok (_, t) => t
  | .error _ => s

theorem eq_final {x : K Unit} (h : (x s).toOption.isSome) : x s = .ok ((), final x s) := by
  unfold final
  cases hx : x s with
  | ok r => rfl
  | error e =>
    rw [hx] at h
    exact absurd h Bool.false_ne_true

def firstCalls : List (Fin NPROC × Call) := [(0, .growproc 4096), (0, .fork), (1, .exit 0)]

def halt (x : K Unit) (s : Sys) : Option Halt :=
  match x s with
  | .ok _ => none
  | .error e => some e

theorem eq_halt {x : K Unit} {e : Halt} (h : halt x s = some e) : x s = .error e := by
  unfold halt at h
  cases hx : x s with
  | ok r =>
    rw [hx] at h
    exact nomatch h
  | error e' =>
    rw [hx] at h
    rw [Option.some.inj h]

/-- The sixth page, which `mappages` needs for a page table in `uvmfirst`, cannot be allocated. -/
def unmappedFirst : Sys := final (userinit smallLayout [1, 2]) (started [false, false, false, false, false, true])

end Spaces

end Xv6Rcu.Space

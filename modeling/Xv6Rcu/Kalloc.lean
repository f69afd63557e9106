import Xv6Rcu.Links
import Xv6Rcu.Memory
import Xv6Rcu.Transition

namespace Xv6Rcu.Kalloc

open Links Memory Transition Function List Option

def PGSIZE : Nat := 4096

def KERNBASE : Nat := 0x80000000

def PHYSTOP : Nat := KERNBASE + 128 * 1024 * 1024

def pgRoundUp (a : Nat) : Nat := (a + PGSIZE - 1) % 2 ^ 64 / PGSIZE * PGSIZE

def pgRoundDown (a : Nat) : Nat := a / PGSIZE * PGSIZE

section Model

/-- Physical memory and `kmem.freelist`; `r->next` is the first word of a free page. -/
structure State where
  mem : Mem
  freelist : Nat

/-- `e` is `end`, the first address after the kernel. -/
def kfree (e pa : Nat) (s : State) : Option State :=
  if pa % PGSIZE ≠ 0 ∨ pa < e ∨ PHYSTOP ≤ pa then none
  else some ⟨store (fill s.mem pa 1 PGSIZE) pa s.freelist 8, pa⟩

def kalloc (s : State) : Nat × State :=
  if s.freelist ≠ 0 then (s.freelist, ⟨fill s.mem s.freelist 5 PGSIZE, load s.mem s.freelist 8⟩) else (0, s)

def freerange (e : Nat) : Nat → Nat → State → Option State
  | 0, _, s => some s
  | fuel + 1, p, s =>
    if (p + PGSIZE) % 2 ^ 64 ≤ PHYSTOP then (kfree e p s).bind (freerange e fuel ((p + PGSIZE) % 2 ^ 64)) else some s

def kinit (e : Nat) (m : Mem) : Option State := freerange e (PHYSTOP / PGSIZE) (pgRoundUp e) ⟨m, 0⟩

def countFree (m : Mem) : Nat → Nat → Nat → Option Nat
  | 0, r, count => if r = 0 then some count else none
  | fuel + 1, r, count => if r = 0 then some count else countFree m fuel (load m r 8) (count + 1)

def getTotalFreePages (s : State) : Option Nat := countFree s.mem (PHYSTOP / PGSIZE) s.freelist 0

structure Sys where
  kmem : State
  used : Finset Nat

/-- Calls, and stores to memory by the owners of pages. -/
inductive Act where
  | alloc
  | free (pa : Nat)
  | write (a : Nat) (b : UInt8)
  deriving Inhabited

/-- `none` where `kfree` panics. -/
def step (e : Nat) : Step Sys Act := fun s a =>
  match a with
  | .alloc => some ⟨(kalloc s.kmem).2, if (kalloc s.kmem).1 = 0 then s.used else insert (kalloc s.kmem).1 s.used⟩
  | .free pa => (kfree e pa s.kmem).map (fun k => ⟨k, s.used.erase pa⟩)
  | .write a b => some ⟨{ s.kmem with mem := update s.kmem.mem a b }, s.used⟩

def Valid (s : Sys) : Act → Prop
  | .alloc => True
  | .free pa => pa ∈ s.used
  | .write a _ => pgRoundDown a ∈ s.used

end Model

section FreeList

def IsPage (e p : Nat) : Prop := p % PGSIZE = 0 ∧ e ≤ p ∧ p + PGSIZE ≤ PHYSTOP

def ptr (v : Nat) : Option Nat := if v = 0 then none else some v

/-- The free list goes through the pages `l`. -/
def FreeList (s : State) (l : List Nat) : Prop := Chain (fun p => ptr (load s.mem p 8)) (ptr s.freelist) l

variable {e pa p : Nat} {s t : State} {l : List Nat} {m m' : Mem}

theorem chain_congr {A : Type} {next next' : A → Option A} {h : Option A} {l : List A} (hc : Chain next h l)
    (heq : ∀ a ∈ l, next' a = next a) : Chain next' h l := by
  induction hc with
  | nil => exact Chain.nil
  | @cons a l _ ih =>
    refine Chain.cons ?_
    rw [heq a mem_cons_self]
    exact ih (fun b hb => heq b (mem_cons_of_mem _ hb))

theorem freeList_nil : FreeList s [] ↔ s.freelist = 0 := by
  unfold FreeList ptr
  constructor
  · intro h
    by_contra h0
    rw [if_neg h0] at h
    cases h
  · intro h
    rw [if_pos h]
    exact Chain.nil

theorem freeList_cons :
    FreeList s (p :: l) ↔ s.freelist = p ∧ p ≠ 0 ∧ FreeList ⟨s.mem, load s.mem p 8⟩ l := by
  unfold FreeList
  constructor
  · intro h
    have hp : ptr s.freelist = some p := Chain.head h
    rw [hp] at h
    unfold ptr at hp
    split at hp
    · cases hp
    · rename_i h0
      have hp := some.inj hp
      cases h with
      | cons h => exact ⟨hp, hp ▸ h0, h⟩
  · rintro ⟨hp, h0, h⟩
    have hptr : ptr s.freelist = some p := by
      rw [ptr, hp, if_neg h0]
    rw [hptr]
    exact Chain.cons h

theorem FreeList.congr (h : FreeList ⟨m, pa⟩ l) (heq : ∀ p ∈ l, load m' p 8 = load m p 8) : FreeList ⟨m', pa⟩ l :=
  chain_congr h (fun p hp => congrArg ptr (heq p hp))

theorem page_disjoint (hp : p % PGSIZE = 0) (hq : pa % PGSIZE = 0) (hne : p ≠ pa) :
    p + 8 ≤ pa ∨ pa + PGSIZE ≤ p := by
  unfold PGSIZE at *
  omega

theorem FreeList.fill {c : UInt8} (h : FreeList ⟨m, pa⟩ l) (hl : ∀ q ∈ l, q % PGSIZE = 0) (hp : p % PGSIZE = 0)
    (hn : p ∉ l) : FreeList ⟨Memory.fill m p c PGSIZE, pa⟩ l := by
  refine h.congr (fun q hq => load_fill_of_disjoint ?_)
  exact page_disjoint (hl q hq) hp (fun hc => hn (hc ▸ hq))

theorem FreeList.kfree (h : FreeList s l) (hl : ∀ q ∈ l, q % PGSIZE = 0) (h64 : s.freelist < 2 ^ 64)
    (hn : pa ∉ l) (h0 : pa ≠ 0) (ht : kfree e pa s = some t) : FreeList t (pa :: l) := by
  unfold Kalloc.kfree at ht
  split at ht
  · cases ht
  · rename_i hok
    have hpa : pa % PGSIZE = 0 := by omega
    have hpow : (256 : Nat) ^ 8 = 2 ^ 64 := by norm_num
    rw [← some.inj ht, freeList_cons]
    refine ⟨rfl, h0, ?_⟩
    dsimp only
    rw [load_store, hpow, Nat.mod_eq_of_lt h64]
    have hfill : FreeList ⟨Memory.fill s.mem pa 1 PGSIZE, s.freelist⟩ l := h.fill hl hpa hn
    refine hfill.congr (fun q hq => load_store_of_disjoint ?_)
    have := page_disjoint (hl q hq) hpa (fun hc => hn (hc ▸ hq))
    unfold PGSIZE at this
    omega

theorem FreeList.kalloc (h : FreeList s (p :: l)) (hl : ∀ q ∈ p :: l, q % PGSIZE = 0) :
    (kalloc s).1 = p ∧ FreeList (kalloc s).2 l := by
  have hnd := (nodup_cons.mp (Chain.nodup h)).1
  obtain ⟨rfl, h0, htail⟩ := freeList_cons.mp h
  unfold Kalloc.kalloc
  rw [if_pos h0]
  exact ⟨rfl, htail.fill (fun q hq => hl q (mem_cons_of_mem _ hq)) (hl _ mem_cons_self) hnd⟩

theorem kalloc_nil (h : FreeList s []) : kalloc s = (0, s) := by
  rw [kalloc, if_neg (fun hc => hc (freeList_nil.mp h))]

theorem FreeList.countFree {r fuel count : Nat} (h : FreeList ⟨m, r⟩ l) (hf : l.length ≤ fuel) :
    countFree m fuel r count = some (count + l.length) := by
  induction l generalizing r fuel count with
  | nil =>
    have h0 : r = 0 := freeList_nil.mp h
    cases fuel <;> rw [Kalloc.countFree, if_pos h0] <;> rfl
  | cons p l ih =>
    obtain ⟨hr, h0, htail⟩ := freeList_cons.mp h
    have hr : r = p := hr
    subst hr
    cases fuel with
    | zero => exact absurd hf (Nat.not_succ_le_zero _)
    | succ fuel =>
      rw [Kalloc.countFree, if_neg h0, ih htail (Nat.le_of_succ_le_succ hf), length_cons]
      congr 1
      omega

end FreeList

section Invariant

/-- Free and allocated pages are apart and make up all pages. -/
structure Inv (e : Nat) (s : Sys) (l : List Nat) : Prop where
  list : FreeList s.kmem l
  pages : ∀ p, IsPage e p ↔ p ∈ l ∨ p ∈ s.used
  apart : ∀ p ∈ l, p ∉ s.used

variable {e : Nat} {s t : Sys} {l : List Nat}

theorem Inv.aligned (h : Inv e s l) : ∀ q ∈ l, q % PGSIZE = 0 := fun q hq => ((h.pages q).mpr (.inl hq)).1

theorem page_lt {p : Nat} (h : IsPage e p) : p < 2 ^ 64 := by
  have h3 := h.2.2
  unfold PHYSTOP KERNBASE PGSIZE at h3
  omega

theorem FreeList.freelist_lt {k : State} (h : FreeList k l) (hl : ∀ p ∈ l, IsPage e p) : k.freelist < 2 ^ 64 := by
  cases l with
  | nil =>
    rw [freeList_nil.mp h]
    exact Nat.two_pow_pos 64
  | cons p l =>
    rw [(freeList_cons.mp h).1]
    exact page_lt (hl p mem_cons_self)

theorem kfree_isSome {p : Nat} (h : IsPage e p) (k : State) : ∃ t, kfree e p k = some t := by
  obtain ⟨h1, h2, h3⟩ := h
  have hlt : p < PHYSTOP := by
    unfold PGSIZE at h3
    omega
  refine ⟨⟨store (fill k.mem p 1 PGSIZE) p k.freelist 8, p⟩, ?_⟩
  rw [kfree, if_neg]
  omega

theorem Inv.free (h : Inv e s l) (he : 0 < e) {pa : Nat} {k : State} (hpa : pa ∈ s.used)
    (hk : kfree e pa s.kmem = some k) : Inv e ⟨k, s.used.erase pa⟩ (pa :: l) := by
  have hpage := (h.pages pa).mpr (.inr hpa)
  have hn : pa ∉ l := fun hc => h.apart pa hc hpa
  have h0 : pa ≠ 0 := by
    have := hpage.2.1
    omega
  refine ⟨h.list.kfree h.aligned (h.list.freelist_lt (fun p hp => (h.pages p).mpr (.inl hp))) hn h0 hk, fun p => ?_, fun p hp => ?_⟩
  · rw [h.pages p, mem_cons, Finset.mem_erase]
    by_cases hp : p = pa
    · subst hp
      simp [hpa]
    · simp [hp]
  · rw [Finset.mem_erase]
    rintro ⟨hne, hu⟩
    exact h.apart p ((mem_cons.mp hp).resolve_left hne) hu

theorem Inv.alloc (h : Inv e s l) (he : 0 < e) : Inv e
    ⟨(kalloc s.kmem).2, if (kalloc s.kmem).1 = 0 then s.used else insert (kalloc s.kmem).1 s.used⟩ l.tail := by
  cases l with
  | nil =>
    rw [kalloc_nil h.list, if_pos rfl]
    exact h
  | cons p l =>
    obtain ⟨hp, hl⟩ := h.list.kalloc h.aligned
    have hpage := (h.pages p).mpr (.inl mem_cons_self)
    have h0 : p ≠ 0 := by
      have := hpage.2.1
      omega
    have hnd := (nodup_cons.mp (Chain.nodup h.list)).1
    rw [hp, if_neg h0]
    refine ⟨hl, fun q => ?_, fun q hq => ?_⟩
    · rw [h.pages q, mem_cons, Finset.mem_insert]
      tauto
    · rw [Finset.mem_insert]
      rintro (rfl | hu)
      · exact hnd hq
      · exact h.apart q (mem_cons_of_mem _ hq) hu

theorem Inv.write (h : Inv e s l) {a : Nat} {b : UInt8} (ha : pgRoundDown a ∈ s.used) :
    Inv e ⟨{ s.kmem with mem := update s.kmem.mem a b }, s.used⟩ l := by
  refine ⟨h.list.congr (fun q hq => load_congr (fun x hx hlt => update_of_ne ?_ _ _)), h.pages, h.apart⟩
  rintro rfl
  have hq0 := h.aligned q hq
  have hround : pgRoundDown x = q := by
    unfold pgRoundDown PGSIZE at *
    omega
  exact h.apart q hq (hround ▸ ha)

theorem Inv.step (h : Inv e s l) (he : 0 < e) {a : Act} (ha : Valid s a) (ht : step e s a = some t) :
    ∃ l', Inv e t l' := by
  cases a with
  | alloc =>
    rw [← some.inj ht]
    exact ⟨_, h.alloc he⟩
  | free pa =>
    obtain ⟨k, hk, rfl⟩ := map_eq_some_iff.mp ht
    exact ⟨_, h.free he ha hk⟩
  | write a b =>
    rw [← some.inj ht]
    exact ⟨l, h.write ha⟩

theorem FreeList.inv {p : Nat} {k : State} (h : FreeList k l) (hp : p % PGSIZE = 0)
    (hpages : ∀ q, q ∈ l ↔ IsPage e q ∧ q < p) (hlt : PHYSTOP < p + PGSIZE) : Inv e ⟨k, ∅⟩ l := by
  refine ⟨h, fun q => ?_, fun q _ => Finset.notMem_empty q⟩
  rw [hpages q]
  constructor
  · intro hq
    refine .inl ⟨hq, ?_⟩
    have h1 := hq.1
    have h2 := hq.2.2
    unfold PGSIZE at *
    omega
  · rintro (hq | hq)
    · exact hq.1
    · exact absurd hq (Finset.notMem_empty q)

theorem FreeList.freerange {fuel p : Nat} {k : State} (h : FreeList k l) (he : 0 < e) (hp : p % PGSIZE = 0)
    (hep : e ≤ p) (hstop : p ≤ PHYSTOP) (hpages : ∀ q, q ∈ l ↔ IsPage e q ∧ q < p)
    (hfuel : PHYSTOP ≤ p + fuel * PGSIZE) : ∃ t l', freerange e fuel p k = some t ∧ Inv e ⟨t, ∅⟩ l' := by
  induction fuel generalizing p k l with
  | zero =>
    refine ⟨k, l, rfl, h.inv hp hpages ?_⟩
    unfold PGSIZE at *
    omega
  | succ fuel ih =>
    have hmod : (p + PGSIZE) % 2 ^ 64 = p + PGSIZE := by
      unfold PHYSTOP KERNBASE at hstop
      unfold PGSIZE
      omega
    rw [Kalloc.freerange, hmod]
    by_cases hle : p + PGSIZE ≤ PHYSTOP
    · have hpage : IsPage e p := ⟨hp, hep, hle⟩
      obtain ⟨t, ht⟩ := kfree_isSome hpage k
      have hn : p ∉ l := fun hc => lt_irrefl p ((hpages p).mp hc).2
      have hl : ∀ q ∈ l, IsPage e q := fun q hq => ((hpages q).mp hq).1
      have hfree := h.kfree (fun q hq => (hl q hq).1) (h.freelist_lt hl) hn (by omega) ht
      rw [if_pos hle, ht, bind_some]
      refine ih hfree ?_ (by omega) hle (fun q => ?_) ?_
      · rw [Nat.add_mod_right]
        exact hp
      · rw [mem_cons, hpages q]
        constructor
        · rintro (rfl | hq)
          · exact ⟨hpage, Nat.lt_add_of_pos_right (by decide)⟩
          · exact ⟨hq.1, by omega⟩
        · rintro ⟨hq, hlt⟩
          by_cases hqp : q = p
          · exact .inl hqp
          · refine .inr ⟨hq, ?_⟩
            have := hq.1
            unfold PGSIZE at *
            omega
      · unfold PGSIZE at *
        omega
    · rw [if_neg hle]
      exact ⟨k, l, rfl, h.inv hp hpages (by omega)⟩

theorem kinit_inv (he : 0 < e) (hstop : e ≤ PHYSTOP) (m : Mem) : ∃ k l, kinit e m = some k ∧ Inv e ⟨k, ∅⟩ l := by
  have hnum : PHYSTOP = 2281701376 := rfl
  have hround : pgRoundUp e % PGSIZE = 0 ∧ e ≤ pgRoundUp e ∧ pgRoundUp e < e + PGSIZE ∧ pgRoundUp e ≤ PHYSTOP := by
    unfold pgRoundUp PGSIZE
    omega
  obtain ⟨h1, h2, h3, h4⟩ := hround
  refine FreeList.freerange (l := []) (freeList_nil.mpr rfl) he h1 h2 h4 (fun q => ?_) ?_
  · refine iff_of_false not_mem_nil ?_
    rintro ⟨hq, hlt⟩
    have hq1 := hq.1
    have hq2 := hq.2.1
    unfold PGSIZE at *
    omega
  · have : PHYSTOP / PGSIZE * PGSIZE = PHYSTOP := by decide
    omega

end Invariant

section Runs

variable {e : Nat}

theorem length_le_pages {l : List Nat} (hnd : l.Nodup) (hl : ∀ p ∈ l, IsPage e p) : l.length ≤ PHYSTOP / PGSIZE := by
  have hsub : l.toFinset ⊆ (Finset.range (PHYSTOP / PGSIZE)).image (fun i => i * PGSIZE) := by
    intro p hp
    have hpage := hl p (mem_toFinset.mp hp)
    rw [Finset.mem_image]
    refine ⟨p / PGSIZE, Finset.mem_range.mpr ?_, ?_⟩
    · have h3 := hpage.2.2
      unfold PHYSTOP KERNBASE PGSIZE at *
      omega
    · have h1 := hpage.1
      unfold PGSIZE at *
      omega
  have hcard := Finset.card_le_card hsub
  rw [toFinset_card_of_nodup hnd] at hcard
  exact le_trans hcard (le_trans Finset.card_image_le (Nat.le_of_eq (Finset.card_range _)))

/-- After `kinit`, and along every run in which only allocated pages are freed
and written to: the free list is a list of distinct pages, free and allocated
pages partition all pages, `kalloc` returns a page that is not allocated, or 0 if
there is none, and `get_total_free_pages` counts the free ones. -/
theorem allocator_partitions (he : 0 < e) (hstop : e ≤ PHYSTOP) (m : Mem) :
    ∃ k, kinit e m = some k ∧ ∀ r : Run (step e), r.state 0 = ⟨k, ∅⟩ → r.Meets Valid →
      ∀ i ≤ r.length, ∃ l, FreeList (r.state i).kmem l ∧ l.Nodup ∧
        (∀ p ∈ l, p % PGSIZE = 0 ∧ e ≤ p ∧ p < PHYSTOP) ∧
        (∀ p, IsPage e p ↔ p ∈ l ∨ p ∈ (r.state i).used) ∧ (∀ p ∈ l, p ∉ (r.state i).used) ∧
        (kalloc (r.state i).kmem).1 ∉ (r.state i).used ∧
        ((kalloc (r.state i).kmem).1 = 0 ↔ ∀ p, IsPage e p → p ∈ (r.state i).used) ∧
        (∀ p ∈ (r.state i).used, kfree e p (r.state i).kmem ≠ none) ∧
        getTotalFreePages (r.state i).kmem = some l.length := by
  obtain ⟨k, l0, hk, hinv⟩ := kinit_inv he hstop m
  refine ⟨k, hk, fun r h0 hr i hi => ?_⟩
  obtain ⟨l, h⟩ : ∃ l, Inv e (r.state i) l := by
    refine r.invariant hr (I := fun s => ∃ l, Inv e s l) ⟨l0, h0 ▸ hinv⟩ ?_ i hi
    rintro s a t ⟨l, hs⟩ ha hstep
    exact hs.step he ha hstep
  have hnd : l.Nodup := Chain.nodup h.list
  have hpage : ∀ p ∈ l, IsPage e p := fun p hp => (h.pages p).mpr (.inl hp)
  have hzero : 0 ∉ (r.state i).used := by
    intro hc
    have := ((h.pages 0).mpr (.inr hc)).2.1
    omega
  have hcases : (l = [] ∧ (kalloc (r.state i).kmem).1 = 0) ∨
      ∃ p, p ∈ l ∧ p ≠ 0 ∧ (kalloc (r.state i).kmem).1 = p := by
    cases l with
    | nil => exact .inl ⟨rfl, by rw [kalloc_nil h.list]⟩
    | cons p l =>
      have hp0 := (freeList_cons.mp h.list).2.1
      exact .inr ⟨p, mem_cons_self, hp0, (h.list.kalloc h.aligned).1⟩
  refine ⟨l, h.list, hnd, fun p hp => ?_, h.pages, h.apart, ?_, ?_, fun p hp => ?_, ?_⟩
  · have h1 := hpage p hp
    refine ⟨h1.1, h1.2.1, lt_of_lt_of_le ?_ h1.2.2⟩
    exact Nat.lt_add_of_pos_right (by decide)
  · rcases hcases with ⟨-, h1⟩ | ⟨p, hp, -, h1⟩
    · rw [h1]
      exact hzero
    · rw [h1]
      exact h.apart p hp
  · rcases hcases with ⟨rfl, h1⟩ | ⟨p, hp, hp0, h1⟩
    · refine iff_of_true h1 (fun p hp => ?_)
      exact ((h.pages p).mp hp).resolve_left not_mem_nil
    · refine iff_of_false (by rw [h1]; exact hp0) (fun hall => ?_)
      exact h.apart p hp (hall p (hpage p hp))
  · obtain ⟨t, ht⟩ := kfree_isSome ((h.pages p).mpr (.inr hp)) (r.state i).kmem
    rw [ht]
    nofun
  · have hcount : countFree _ _ _ 0 = _ := FreeList.countFree h.list (length_le_pages hnd hpage)
    rw [zero_add] at hcount
    exact hcount

/-- An `end` that leaves two whole pages. -/
def lowEnd : Nat := PHYSTOP - 2 * PGSIZE - 1

def twoPages : State := (kinit lowEnd (fun _ => 0)).getD ⟨fun _ => 0, 0⟩

def allocWriteFree : Run (step lowEnd) :=
  Run.ofExec (step lowEnd) ⟨twoPages, ∅⟩ [.alloc, .write (PHYSTOP - 4000) 7, .free (PHYSTOP - PGSIZE)] (by decide +kernel)

theorem allocator_partitions_twoPages :
    (kalloc (allocWriteFree.state 3).kmem).1 ∉ (allocWriteFree.state 3).used ∧
      ∃ l, FreeList (allocWriteFree.state 3).kmem l ∧ getTotalFreePages (allocWriteFree.state 3).kmem = some l.length := by
  obtain ⟨k, hk, h⟩ := allocator_partitions (e := lowEnd) (by decide) (by decide) (fun _ => 0)
  have hk' : k = twoPages := by
    rw [twoPages, hk]
    rfl
  have hv : allocWriteFree.Meets Valid := by
    intro i hi
    have hi : i < 3 := hi
    have hcases : i = 0 ∨ i = 1 ∨ i = 2 := by omega
    rcases hcases with rfl | rfl | rfl
    · trivial
    · change pgRoundDown (PHYSTOP - 4000) ∈ (allocWriteFree.state 1).used
      decide +kernel
    · change PHYSTOP - PGSIZE ∈ (allocWriteFree.state 2).used
      decide +kernel
  obtain ⟨l, hl, -, -, -, -, hnew, -, -, hcount⟩ := h allocWriteFree (by rw [hk']; rfl) hv 3 le_rfl
  exact ⟨hnew, l, hl, hcount⟩

end Runs

section Walk

/-- The allocator and a call of `get_total_free_pages`, which takes no lock;
`r` is zero before and after the loop. -/
structure Walk where
  sys : Sys
  r : Nat
  count : Nat

inductive WalkAct where
  | mem (a : Act)
  | start
  | next
  deriving Inhabited

def walkStep (e : Nat) : Step Walk WalkAct := fun s a =>
  match a with
  | .mem a => (step e s.sys a).map (fun t => { s with sys := t })
  | .start => if s.r = 0 then some ⟨s.sys, s.sys.kmem.freelist, 0⟩ else none
  | .next => if s.r = 0 then none else some ⟨s.sys, load s.sys.kmem.mem s.r 8, s.count + 1⟩

/-- Other harts use their pages only, and do not allocate the page that the loop is at. -/
def Spares (s : Walk) : WalkAct → Prop
  | .mem a => Valid s.sys a ∧ (a = .alloc → s.r ≠ 0 → s.sys.kmem.freelist ≠ s.r)
  | _ => True

/-- The loop is at the first page of the rest `l2` of the list. -/
def At (e : Nat) (s : Walk) (l1 l2 : List Nat) : Prop := Inv e s.sys (l1 ++ l2) ∧ s.r = l2.headD 0

variable {e : Nat} {s t : Walk} {l1 l2 : List Nat}

theorem FreeList.freelist_eq {k : State} {l : List Nat} (h : FreeList k l) : k.freelist = l.headD 0 := by
  cases l with
  | nil => exact freeList_nil.mp h
  | cons p l => exact (freeList_cons.mp h).1

theorem FreeList.load_next {k : State} {p : Nat} (h : FreeList k (l1 ++ p :: l2)) : load k.mem p 8 = l2.headD 0 := by
  induction l1 generalizing k with
  | nil => exact (freeList_cons.mp h).2.2.freelist_eq
  | cons q l1 ih => exact ih (k := ⟨k.mem, load k.mem q 8⟩) (freeList_cons.mp h).2.2

theorem At.mem (h : At e s l1 l2) (he : 0 < e) {a : Act} {x : Sys} (hv : Valid s.sys a)
    (ha : a = .alloc → s.r ≠ 0 → s.sys.kmem.freelist ≠ s.r) (hx : step e s.sys a = some x) :
    ∃ l1', At e { s with sys := x } l1' l2 := by
  obtain ⟨hinv, hr⟩ := h
  cases a with
  | alloc =>
    have hnew := hinv.alloc he
    rw [some.inj hx] at hnew
    cases l1 with
    | cons q l1 => exact ⟨l1, hnew, hr⟩
    | nil =>
      cases l2 with
      | nil => exact ⟨[], hnew, hr⟩
      | cons p l2 =>
        obtain ⟨hp, h0, -⟩ := freeList_cons.mp hinv.list
        exact absurd (hp.trans hr.symm) (ha rfl (hr ▸ h0))
  | free pa =>
    obtain ⟨k, hk, rfl⟩ := map_eq_some_iff.mp hx
    exact ⟨pa :: l1, hinv.free he hv hk, hr⟩
  | write a b =>
    rw [← some.inj hx]
    exact ⟨l1, hinv.write hv, hr⟩

theorem At.step (h : At e s l1 l2) (he : 0 < e) {a : WalkAct} (ha : Spares s a) (ht : walkStep e s a = some t) :
    ∃ l1 l2, At e t l1 l2 := by
  cases a with
  | mem a =>
    obtain ⟨x, hx, rfl⟩ := map_eq_some_iff.mp ht
    obtain ⟨l1', h'⟩ := h.mem he ha.1 ha.2 hx
    exact ⟨l1', l2, h'⟩
  | start =>
    obtain ⟨-, ht⟩ := ite_none_right_eq_some.mp ht
    rw [← some.inj ht]
    exact ⟨[], l1 ++ l2, h.1, h.1.list.freelist_eq⟩
  | next =>
    obtain ⟨h0, ht⟩ := ite_none_left_eq_some.mp ht
    rw [← some.inj ht]
    obtain ⟨hinv, hr⟩ := h
    cases l2 with
    | nil => exact absurd hr h0
    | cons p l2 =>
      refine ⟨l1 ++ [p], l2, by simpa using hinv, ?_⟩
      rw [hr]
      exact hinv.list.load_next

/-- If no page is allocated while the loop of `get_total_free_pages` is at it, then
the loop only reads pages. -/
theorem getTotalFreePages_safe (he : 0 < e) (hstop : e ≤ PHYSTOP) (m : Mem) :
    ∃ k, kinit e m = some k ∧ ∀ w : Run (walkStep e), w.state 0 = ⟨⟨k, ∅⟩, 0, 0⟩ → w.Meets Spares →
      ∀ i ≤ w.length, (w.state i).r ≠ 0 →
        (w.state i).r % PGSIZE = 0 ∧ e ≤ (w.state i).r ∧ (w.state i).r < PHYSTOP := by
  obtain ⟨k, l, hk, hinv⟩ := kinit_inv he hstop m
  refine ⟨k, hk, fun w h0 hw i hi hr => ?_⟩
  obtain ⟨l1, l2, h⟩ : ∃ l1 l2, At e (w.state i) l1 l2 := by
    refine w.invariant hw (I := fun s => ∃ l1 l2, At e s l1 l2) ⟨l, [], ?_⟩ ?_ i hi
    · rw [h0]
      exact ⟨by rwa [append_nil], rfl⟩
    · rintro s a t ⟨l1, l2, hs⟩ ha ht
      exact hs.step he ha ht
  cases l2 with
  | nil => exact absurd h.2 hr
  | cons p l2 =>
    have hp := (h.1.pages p).mpr (.inl (mem_append_right _ mem_cons_self))
    rw [show (w.state i).r = p from h.2]
    refine ⟨hp.1, hp.2.1, lt_of_lt_of_le ?_ hp.2.2⟩
    exact Nat.lt_add_of_pos_right (by decide)

def countTwo : Run (walkStep lowEnd) :=
  Run.ofExec (walkStep lowEnd) ⟨⟨twoPages, ∅⟩, 0, 0⟩ [.start, .next, .mem .alloc, .next] (by decide +kernel)

theorem getTotalFreePages_safe_two : (countTwo.state 3).r = PHYSTOP - 2 * PGSIZE ∧ lowEnd ≤ (countTwo.state 3).r := by
  obtain ⟨k, hk, h⟩ := getTotalFreePages_safe (e := lowEnd) (by decide) (by decide) (fun _ => 0)
  have hr : (countTwo.state 3).r = PHYSTOP - 2 * PGSIZE := by decide +kernel
  refine ⟨hr, (h countTwo ?_ (fun i hi => ?_) 3 (by decide) (by rw [hr]; decide)).2.1⟩
  · rw [show k = twoPages by rw [twoPages, hk]; rfl]
    rfl
  · have hi : i < 4 := hi
    have hcases : i = 0 ∨ i = 1 ∨ i = 2 ∨ i = 3 := by omega
    rcases hcases with rfl | rfl | rfl | rfl
    · trivial
    · trivial
    · exact ⟨trivial, fun _ _ => by decide +kernel⟩
    · trivial

/-- The first page is allocated, and filled with fives, while the loop is at it. -/
def countFives : Run (walkStep lowEnd) :=
  Run.ofExec (walkStep lowEnd) ⟨⟨twoPages, ∅⟩, 0, 0⟩ [.start, .mem .alloc, .next, .next] (by decide +kernel)

theorem getTotalFreePages_reads_fives : kinit lowEnd (fun _ => 0) = some twoPages ∧
    countFives.state 0 = ⟨⟨twoPages, ∅⟩, 0, 0⟩ ∧ countFives.act 3 = .next ∧ 3 < countFives.length ∧
    (countFives.state 3).r = 0x0505050505050505 := by
  obtain ⟨k, -, hk, -⟩ := kinit_inv (e := lowEnd) (by decide) (by decide) (fun _ => 0)
  refine ⟨?_, rfl, rfl, by decide, by decide +kernel⟩
  rw [twoPages, hk]
  rfl

end Walk

end Xv6Rcu.Kalloc

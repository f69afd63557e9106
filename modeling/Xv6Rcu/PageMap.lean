import Xv6Rcu.PageTable

namespace Xv6Rcu.Vm

open Memory Kalloc Radix List Option Finset

section Allocator

variable {e : Nat} {s : Machine} {used : Finset Nat}

/-- The allocator is consistent, and `used` are the pages that are not free. -/
def Alloc (e : Nat) (s : Machine) (used : Finset Nat) : Prop := ∃ l, Inv e ⟨s.kmem, used⟩ l

theorem Alloc.page (h : Alloc e s used) {p : Nat} (hp : p ∈ used) : IsPage e p := by
  obtain ⟨l, hl⟩ := h
  exact (hl.pages p).mpr (.inr hp)

theorem round_of_page {p x : Nat} (hp : p % PGSIZE = 0) (h1 : p ≤ x) (h2 : x < p + PGSIZE) : pgRoundDown x = p := by
  unfold pgRoundDown PGSIZE at *
  omega

theorem page_of_round {p x : Nat} (h : pgRoundDown x = p) : p ≤ x ∧ x < p + PGSIZE := by
  unfold pgRoundDown PGSIZE at *
  omega

theorem Alloc.write (h : Alloc e s used) {m : Mem} (hm : ∀ x, pgRoundDown x ∉ used → m x = s.mem x) :
    Alloc e (s.setMem m) used := by
  obtain ⟨l, hl⟩ := h
  refine ⟨l, hl.list.congr (fun q hq => load_congr (fun x hx hlt => hm x ?_)), hl.pages, hl.apart⟩
  have hq0 := hl.aligned q hq
  rw [round_of_page hq0 hx (by unfold PGSIZE; omega)]
  exact hl.apart q hq

theorem Alloc.kalloc (h : Alloc e s used) (he : 0 < e) :
    ((kalloc s).1 = 0 ∧ (kalloc s).2.mem = s.mem ∧ Alloc e (kalloc s).2 used) ∨
    ((kalloc s).1 ≠ 0 ∧ (kalloc s).1 ∉ used ∧ (∀ x, pgRoundDown x ≠ (kalloc s).1 → (kalloc s).2.mem x = s.mem x) ∧
      Alloc e (kalloc s).2 (insert (kalloc s).1 used)) := by
  obtain ⟨l, hl⟩ := h
  unfold Vm.kalloc
  split
  · exact .inl ⟨rfl, rfl, l, hl⟩
  · by_cases h0 : (Kalloc.kalloc s.kmem).1 = 0
    · left
      have hl' := hl.alloc he
      rw [if_pos h0] at hl'
      refine ⟨h0, ?_, _, hl'⟩
      change (Kalloc.kalloc s.kmem).2.mem = s.mem
      unfold Kalloc.kalloc at h0 ⊢
      split at h0
      · rename_i hne
        exact absurd h0 hne
      · rename_i hne
        rw [if_neg hne]
        rfl
    · right
      have hl' := hl.alloc he
      rw [if_neg h0] at hl'
      have hmem : (Kalloc.kalloc s.kmem).1 ∈ l ∧ ∀ x, pgRoundDown x ≠ (Kalloc.kalloc s.kmem).1 →
          (Kalloc.kalloc s.kmem).2.mem x = s.mem x := by
        cases l with
        | nil =>
          rw [kalloc_nil hl.list] at h0
          exact absurd rfl h0
        | cons p l =>
          have hp := (hl.list.kalloc hl.aligned).1
          have hp0 := hl.aligned p mem_cons_self
          refine ⟨hp ▸ mem_cons_self, fun x hx => ?_⟩
          rw [hp] at hx
          have hfl : s.kmem.freelist = p := (freeList_cons.mp hl.list).1
          unfold Kalloc.kalloc
          rw [if_pos (by rw [hfl]; exact (freeList_cons.mp hl.list).2.1), hfl]
          change fill s.kmem.mem p 5 PGSIZE x = s.mem x
          rw [fill, if_neg (fun hc => hx (round_of_page hp0 hc.1 hc.2))]
          rfl
      exact ⟨h0, hl.apart _ hmem.1, hmem.2, _, hl'⟩

theorem Alloc.kfree (h : Alloc e s used) (he : 0 < e) {pa : Nat} (hpa : pa ∈ used) :
    ∃ s', kfree e pa s = .ok s' ∧ Alloc e s' (used.erase pa) ∧ (∀ x, pgRoundDown x ≠ pa → s'.mem x = s.mem x) := by
  obtain ⟨l, hl⟩ := h
  have hpage := (hl.pages pa).mpr (.inr hpa)
  obtain ⟨k, hk⟩ := kfree_isSome hpage s.kmem
  refine ⟨{ s with kmem := k }, by rw [Vm.kfree, hk], ⟨_, hl.free he hpa hk⟩, fun x hx => ?_⟩
  unfold Kalloc.kfree at hk
  split at hk
  · cases hk
  · rw [← some.inj hk]
    change store (fill s.kmem.mem pa 1 PGSIZE) pa s.kmem.freelist 8 x = s.mem x
    have hout : x < pa ∨ pa + PGSIZE ≤ x := by
      by_contra hc
      exact hx (round_of_page hpage.1 (by omega) (by omega))
    have hstore : store (fill s.kmem.mem pa 1 PGSIZE) pa s.kmem.freelist 8 x = fill s.kmem.mem pa 1 PGSIZE x := by
      rcases hout with hlt | hge
      · exact store_of_lt hlt
      · refine store_of_ge ?_
        unfold PGSIZE at hge
        omega
    rw [hstore, fill, if_neg (by omega)]
    rfl

end Allocator

section Encoding

theorem entry_eq {pa perm : Nat} (h : perm < 1024) : pa2pte pa ||| perm = pa / 4096 * 1024 + perm := by
  rw [pa2pte, ← Nat.shiftLeft_add_eq_or_of_lt (i := 10) h, Nat.shiftRight_eq_div_pow, Nat.shiftLeft_eq]

theorem pteFlags_eq (pte : Nat) : pteFlags pte = pte % 1024 := Nat.and_two_pow_sub_one_eq_mod pte 10

theorem pte2pa_eq (pte : Nat) : pte2pa pte = pte / 1024 * 4096 % 2 ^ 64 := by
  rw [pte2pa, Nat.shiftRight_eq_div_pow, Nat.shiftLeft_eq]

theorem entry_decode {pa perm : Nat} (h : perm < 1024) (hpa : pa < 2 ^ 64) :
    pte2pa (pa2pte pa ||| perm) = pgRoundDown pa ∧ pteFlags (pa2pte pa ||| perm) = perm ∧
      (pa2pte pa ||| perm) % 2 ^ 64 = pa2pte pa ||| perm := by
  rw [pte2pa_eq, pteFlags_eq, entry_eq h]
  unfold pgRoundDown PGSIZE
  omega

theorem valid_or (pte : Nat) : (pte ||| PTE_V) &&& PTE_V ≠ 0 := by
  rw [Nat.land_comm, Nat.and_or_distrib_left]
  intro hc
  have hv : PTE_V &&& PTE_V = 1 := by decide
  rw [hv] at hc
  have := Nat.or_eq_zero_iff.mp hc
  omega

theorem leaf_entry {pa perm : Nat} (h : perm < 1024) (hpa : pa < 2 ^ 64) :
    leaf ((pa2pte pa ||| perm ||| PTE_V) % 2 ^ 64) = some (pgRoundDown pa, perm ||| PTE_V) := by
  have hlt : perm ||| PTE_V < 1024 := Nat.or_lt_two_pow (n := 10) h (by decide)
  obtain ⟨h1, h2, h3⟩ := entry_decode hlt hpa
  rw [Nat.lor_assoc, h3, leaf, h1, h2, if_pos]
  rw [← Nat.lor_assoc]
  exact valid_or _

theorem child_entry {pa : Nat} (hpa : pa < 2 ^ 64) (ha : pa % PGSIZE = 0) :
    child ((pa2pte pa ||| PTE_V) % 2 ^ 64) = some pa := by
  obtain ⟨h1, h2, h3⟩ := entry_decode (show PTE_V < 1024 by decide) hpa
  rw [h3, child, if_pos (valid_or _), h1]
  unfold pgRoundDown PGSIZE at *
  congr 1
  omega

theorem tab_fill {m : Mem} {t b : Nat} (ht : t % PGSIZE = 0) (hb : b % PGSIZE = 0) (i : Fin 512) :
    tab (fill m b 0 PGSIZE) t i = if t = b then 0 else tab m t i := by
  have hi := i.isLt
  unfold tab
  split
  · rename_i h
    rw [h]
    refine load_fill_zero (by omega) ?_
    unfold PGSIZE
    omega
  · rename_i h
    refine load_fill_of_disjoint ?_
    unfold PGSIZE at *
    omega

end Encoding

section Trees

variable {e : Nat} {s s' s'' : Machine} {m m' : Mem} {root va a b t : Nat} {used used' used'' : Finset Nat} {i : Fin 512}
  {p : List (Fin 512)}

def IsTable (m : Mem) (root a : Nat) : Prop := ∃ q : List (Fin 512), q.length < 3 ∧ table child (tab m) root q = some a

/-- A tree of page-table pages: no page is used at two positions, all are in use,
and entries above the last level have none of the bits of a leaf. -/
structure PageTree (m : Mem) (root : Nat) (used : Finset Nat) : Prop where
  tree : Tree child (tab m) root 3
  tables : ∀ t, IsTable m root t → t ∈ used
  inner : ∀ q t i, q.length < 2 → table child (tab m) root q = some t →
    tab m t i &&& PTE_V ≠ 0 → tab m t i &&& (PTE_R ||| PTE_W ||| PTE_X) = 0

/-- Page-table pages have been added and entries written; all else in use is as before. -/
structure Grow (e : Nat) (s : Machine) (root : Nat) (used : Finset Nat) (s' : Machine) (used' : Finset Nat) : Prop where
  alloc : Alloc e s' used'
  tree : PageTree s'.mem root used'
  sub : used ⊆ used'
  old : ∀ a, IsTable s.mem root a → IsTable s'.mem root a
  new : ∀ a ∈ used', a ∈ used ∨ IsTable s'.mem root a
  fresh : ∀ a, IsTable s'.mem root a → IsTable s.mem root a ∨ a ∉ used
  mem : ∀ x, pgRoundDown x ∈ used → ¬ IsTable s.mem root (pgRoundDown x) → s'.mem x = s.mem x

theorem Grow.refl (h : Alloc e s used) (ht : PageTree s.mem root used) : Grow e s root used s used :=
  ⟨h, ht, Finset.Subset.refl _, fun _ => id, fun _ => .inl, fun _ => .inl, fun _ _ _ => rfl⟩

theorem Grow.trans (h : Grow e s root used s' used') (h' : Grow e s' root used' s'' used'') :
    Grow e s root used s'' used'' := by
  refine ⟨h'.alloc, h'.tree, h.sub.trans h'.sub, fun a ha => h'.old a (h.old a ha), fun a ha => ?_, fun a ha => ?_,
    fun x hx hn => ?_⟩
  · rcases h'.new a ha with ha' | ht
    · rcases h.new a ha' with hu | ht
      · exact .inl hu
      · exact .inr (h'.old a ht)
    · exact .inr ht
  · rcases h'.fresh a ha with ht | hn
    · exact h.fresh a ht
    · exact .inr (fun hc => hn (h.sub hc))
  · rw [h'.mem x (h.sub hx) ?_, h.mem x hx hn]
    intro hc
    rcases h.fresh _ hc with ht | hu
    · exact hn ht
    · exact hu hx

theorem PageTree.root_mem (h : PageTree m root used) : root ∈ used := h.tables root ⟨[], by decide, rfl⟩

theorem PageTree.aligned (h : PageTree m root used) (ha : Alloc e s used) (ht : IsTable m root t) : t % PGSIZE = 0 :=
  (ha.page (h.tables t ht)).1

theorem setEntry_of_round {pte x : Nat} (ht : t % PGSIZE = 0) (hx : pgRoundDown x ≠ t) :
    setEntry m t i pte x = m x := by
  have hi := i.isLt
  have hout : x < t ∨ t + PGSIZE ≤ x := by
    by_contra hc
    exact hx (round_of_page ht (by omega) (by omega))
  unfold setEntry
  rcases hout with hlt | hge
  · exact store_of_lt (by omega)
  · refine store_of_ge ?_
    unfold PGSIZE at hge
    omega

theorem Grow.set (i : Fin 512) (pte : Nat) (h : Alloc e s used) (ht : PageTree s.mem root used)
    (hp : table child (tab s.mem) root p = some t) (hlen : p.length = 2) :
    Grow e s root used (s.setMem (setEntry s.mem t i pte)) used ∧
      (∀ q, q.length < 3 → table child (tab (setEntry s.mem t i pte)) root q = table child (tab s.mem) root q) ∧
      find child leaf (tab (setEntry s.mem t i pte)) root (i :: p) = leaf (pte % 2 ^ 64) ∧
      ∀ j q, q.length < 3 → j :: q ≠ i :: p →
        find child leaf (tab (setEntry s.mem t i pte)) root (j :: q) = find child leaf (tab s.mem) root (j :: q) := by
  have htab : IsTable s.mem root t := ⟨p, by omega, hp⟩
  have ht0 := ht.aligned h htab
  have hsame : ∀ (q : List (Fin 512)) t' j, q.length < 3 → table child (tab s.mem) root q = some t' →
      ¬ (t' = t ∧ j = i) → tab (setEntry s.mem t i pte) t' j = tab s.mem t' j := by
    intro q t' j hq hq' hne
    rw [tab_setEntry ht0 (ht.aligned h ⟨q, hq, hq'⟩), if_neg hne]
  have heq : ∀ q, q.length < 3 → table child (tab (setEntry s.mem t i pte)) root q = table child (tab s.mem) root q :=
    fun q hq => ht.tree.set hp (by omega) hsame hq
  have hist : ∀ a, IsTable (setEntry s.mem t i pte) root a ↔ IsTable s.mem root a := by
    intro a
    refine exists_congr (fun q => and_congr_right (fun hq => ?_))
    rw [heq q hq]
  refine ⟨⟨?_, ⟨ht.tree.congr heq, fun a ha => ht.tables a ((hist a).mp ha), ?_⟩, Finset.Subset.refl _,
    fun a ha => (hist a).mpr ha, fun a => .inl, fun a ha => .inl ((hist a).mp ha), ?_⟩, heq, ?_, ?_⟩
  · refine h.write (fun x hx => setEntry_of_round ht0 ?_)
    rintro rfl
    exact hx (ht.tables _ htab)
  · intro q t' j hq hq' hv
    change table child (tab (setEntry s.mem t i pte)) root q = some t' at hq'
    change tab (setEntry s.mem t i pte) t' j &&& _ ≠ 0 at hv
    change tab (setEntry s.mem t i pte) t' j &&& _ = 0
    rw [heq q (by omega)] at hq'
    have hne : ¬ (t' = t ∧ j = i) := by
      rintro ⟨rfl, -⟩
      have := ht.tree q p t' (by omega) (by omega) hq' hp
      rw [this] at hq
      omega
    rw [hsame q t' j (by omega) hq' hne] at hv ⊢
    exact ht.inner q t' j hq hq' hv
  · intro x hx hn
    refine setEntry_of_round ht0 ?_
    rintro rfl
    exact hn htab
  · rw [ht.tree.find_set_self hp (by omega) hsame, tab_setEntry ht0 ht0, if_pos ⟨rfl, rfl⟩]
  · intro j q hq hne
    exact ht.tree.find_set hp (by omega) hsame hq hne

theorem Grow.link (h : Alloc e s used) (he : 0 < e) (ht : PageTree s.mem root used)
    (hp : table child (tab s.mem) root p = some t) (hlen : p.length < 2) (hv : tab s.mem t i &&& PTE_V = 0)
    (h0 : (kalloc s).1 ≠ 0) :
    let m' := setEntry (fill (kalloc s).2.mem (kalloc s).1 0 PGSIZE) t i (pa2pte (kalloc s).1 ||| PTE_V)
    Grow e s root used ((kalloc s).2.setMem m') (insert (kalloc s).1 used) ∧
      table child (tab m') root (i :: p) = some (kalloc s).1 ∧
      ∀ j q, q.length = 2 → find child leaf (tab m') root (j :: q) = find child leaf (tab s.mem) root (j :: q) := by
  intro m'
  rcases h.kalloc he with ⟨hz, -⟩ | ⟨-, hnew, hmem, halloc⟩
  · exact absurd hz h0
  have htab : IsTable s.mem root t := ⟨p, by omega, hp⟩
  have ht0 := ht.aligned h htab
  have hpage := halloc.page (mem_insert_self _ _)
  have hb0 := hpage.1
  have htb : t ≠ (kalloc s).1 := by
    intro hc
    exact hnew (hc ▸ ht.tables t htab)
  have hother : ∀ t' j, IsTable s.mem root t' → ¬ (t' = t ∧ j = i) → tab m' t' j = tab s.mem t' j := by
    intro t' j ht' hne
    have h1 := ht.aligned h ht'
    have h2 : t' ≠ (kalloc s).1 := by
      intro hc
      exact hnew (hc ▸ ht.tables t' ht')
    rw [tab_setEntry ht0 h1, if_neg hne, tab_fill h1 hb0, if_neg h2]
    refine tab_congr (fun x hx hlt => hmem x ?_) j
    rw [round_of_page h1 hx hlt]
    exact h2
  have hempty : ∀ j, tab m' (kalloc s).1 j = 0 := by
    intro j
    rw [tab_setEntry ht0 hb0, if_neg (fun hc => htb hc.1.symm), tab_fill hb0 hb0, if_pos rfl]
  have hself : tab m' t i = (pa2pte (kalloc s).1 ||| PTE_V) % 2 ^ 64 := by
    rw [tab_setEntry ht0 ht0, if_pos ⟨rfl, rfl⟩]
  have hl : Linked child (tab s.mem) (tab m') root t (kalloc s).1 i p 3 := by
    refine ⟨hp, by omega, fun q t' j hq hq' hne => hother t' j ⟨q, hq, hq'⟩ hne, ?_, fun q hq hc => ?_, ?_, fun j => ?_⟩
    · rw [child, if_neg (by simp [hv])]
    · exact hnew (ht.tables _ ⟨q, hq, hc⟩)
    · rw [hself]
      exact child_entry (page_lt hpage) hb0
    · rw [hempty]
      rfl
  have hcases : ∀ a, IsTable m' root a → a = (kalloc s).1 ∨ IsTable s.mem root a := by
    rintro a ⟨q, hq, hqa⟩
    rcases hl.table_cases ht.tree (le_of_lt hq) hqa with ⟨-, rfl⟩ | ⟨-, hold⟩
    · exact .inl rfl
    · exact .inr ⟨q, hq, hold⟩
  have hself' := hl.table_self ht.tree
  refine ⟨⟨?_, ⟨hl.tree ht.tree, fun a ha => ?_, ?_⟩, subset_insert _ _, ?_, fun a ha => ?_, fun a ha => ?_, ?_⟩,
    hself', ?_⟩
  · refine halloc.write (fun x hx => ?_)
    rw [mem_insert, not_or] at hx
    have hxt : pgRoundDown x ≠ t := by
      rintro rfl
      exact hx.2 (ht.tables _ htab)
    change setEntry _ t i _ x = _
    rw [setEntry_of_round ht0 hxt, fill, if_neg (fun hc => hx.1 (round_of_page hb0 hc.1 hc.2))]
  · rcases hcases a ha with rfl | ha
    · exact mem_insert_self _ _
    · exact mem_insert_of_mem (ht.tables a ha)
  · intro q t' j hq hq' hvj
    change tab m' t' j &&& _ ≠ 0 at hvj
    change tab m' t' j &&& _ = 0
    rcases hl.table_cases ht.tree (by omega) hq' with ⟨-, rfl⟩ | ⟨-, hold⟩
    · rw [hempty] at hvj
      exact absurd (by decide) hvj
    · by_cases hti : t' = t ∧ j = i
      · rw [hti.1, hti.2, hself, (entry_decode (show PTE_V < 1024 by decide) (page_lt hpage)).2.2]
        rw [← flags_and _ (by decide), (entry_decode (show PTE_V < 1024 by decide) (page_lt hpage)).2.1]
        decide
      · rw [hother t' j ⟨q, by omega, hold⟩ hti] at hvj ⊢
        exact ht.inner q t' j hq hold hvj
  · rintro a ⟨q, hq, hqa⟩
    refine ⟨q, hq, (hl.off_path ht.tree (le_of_lt hq) (fun hs => ?_)).trans hqa⟩
    rw [hl.table_before hs] at hqa
    cases hqa
  · rcases mem_insert.mp ha with rfl | ha
    · exact .inr ⟨i :: p, by rw [length_cons]; omega, hself'⟩
    · exact .inl ha
  · rcases hcases a ha with rfl | ha
    · exact .inr hnew
    · exact .inl ha
  · intro x hx hn
    have hxb : pgRoundDown x ≠ (kalloc s).1 := by
      intro hc
      exact hnew (hc ▸ hx)
    have hxt : pgRoundDown x ≠ t := by
      rintro rfl
      exact hn htab
    change setEntry _ t i _ x = s.mem x
    rw [setEntry_of_round ht0 hxt, fill, if_neg (fun hc => hxb (round_of_page hb0 hc.1 hc.2)), hmem x hxb]
  · intro j q hq
    refine hl.find ht.tree (fun j => ?_) (by omega) (fun hc => ?_)
    · rw [hempty]
      rfl
    · have := congrArg List.length hc
      rw [length_cons, length_cons] at this
      omega

end Trees

section Operations

variable {e : Nat} {s s' : Machine} {root va a pa perm t : Nat} {used used' : Finset Nat} {p : List (Fin 512)}

def below (va : Nat) : Nat → List (Fin 512) → List (Fin 512)
  | 0, p => p
  | level + 1, p => below va level (index (level + 1) va :: p)

theorem walkFrom_succ {alloc : Bool} {level : Nat} : walkFrom alloc va (level + 1) t s =
    if tab s.mem t (index (level + 1) va) &&& PTE_V ≠ 0 then
      walkFrom alloc va level (pte2pa (tab s.mem t (index (level + 1) va))) s
    else if alloc = false then (none, s)
    else if (kalloc s).1 = 0 then (none, (kalloc s).2)
    else walkFrom alloc va level (kalloc s).1 ((kalloc s).2.setMem
      (setEntry (fill (kalloc s).2.mem (kalloc s).1 0 PGSIZE) t (index (level + 1) va) (pa2pte (kalloc s).1 ||| PTE_V))) :=
  rfl

/-- `walk` with allocation: the map stays as it is, also when a page is missing
half-way. -/
theorem walkFrom_true (va level : Nat) (he : 0 < e) (h : Alloc e s used) (ht : PageTree s.mem root used)
    (hp : table child (tab s.mem) root p = some t) (hlen : p.length + level = 2) :
    ∃ used', Grow e s root used (walkFrom true va level t s).2 used' ∧
      (∀ va', mapping (walkFrom true va level t s).2.mem root va' = mapping s.mem root va') ∧
      ∀ x, (walkFrom true va level t s).1 = some x → ∃ t',
        table child (tab (walkFrom true va level t s).2.mem) root (below va level p) = some t' ∧ x = t' + 8 * px 0 va := by
  induction level generalizing s t p used with
  | zero => exact ⟨used, Grow.refl h ht, fun _ => rfl, fun x hx => ⟨t, hp, (some.inj hx).symm⟩⟩
  | succ level ih =>
    rw [walkFrom_succ]
    by_cases hv : tab s.mem t (index (level + 1) va) &&& PTE_V = 0
    · rw [if_neg (not_not.mpr hv), if_neg (by decide)]
      by_cases h0 : (kalloc s).1 = 0
      · rw [if_pos h0]
        rcases h.kalloc he with ⟨-, hmem, halloc⟩ | ⟨hne, -⟩
        · refine ⟨used, ⟨halloc, by rw [hmem]; exact ht, Finset.Subset.refl _, ?_, fun _ => .inl, ?_, ?_⟩, ?_, nofun⟩
          · rw [hmem]
            exact fun _ => id
          · rw [hmem]
            exact fun _ => .inl
          · rw [hmem]
            exact fun _ _ _ => rfl
          · rw [hmem]
            exact fun _ => rfl
        · exact absurd h0 hne
      · rw [if_neg h0]
        obtain ⟨hg, hself, hfind⟩ := Grow.link h he ht hp (by omega) hv h0
        obtain ⟨used', hg', hmap, hret⟩ := ih (s := (kalloc s).2.setMem _) (t := (kalloc s).1)
          (p := index (level + 1) va :: p) hg.alloc hg.tree hself (by rw [length_cons]; omega)
        exact ⟨used', hg.trans hg', fun va' => (hmap va').trans (hfind _ _ rfl), hret⟩
    · rw [if_pos hv]
      have hchild : table child (tab s.mem) root (index (level + 1) va :: p) =
          some (pte2pa (tab s.mem t (index (level + 1) va))) := by
        rw [table, hp, bind_some, child, if_pos hv]
      exact ih h ht hchild (by rw [length_cons]; omega)

def extend (f : Nat → Option (Nat × Nat)) (a k pa perm va : Nat) : Option (Nat × Nat) :=
  if a ≤ va ∧ va < a + k * PGSIZE then
    some (pgRoundDown ((pa + (va - a) / PGSIZE * PGSIZE) % 2 ^ 64), perm ||| PTE_V)
  else f va

theorem extend_zero (f : Nat → Option (Nat × Nat)) (a pa perm va : Nat) : extend f a 0 pa perm va = f va := by
  rw [extend, if_neg (by omega)]

theorem extend_succ {f g : Nat → Option (Nat × Nat)} {k : Nat} (ha : a % PGSIZE = 0) (hpa : pa < 2 ^ 64)
    (hg : ∀ va, va < TOPVA → g va = if va / PGSIZE = a / PGSIZE then some (pgRoundDown pa, perm ||| PTE_V) else f va)
    {va : Nat} (hva : va < TOPVA) :
    extend g (a + PGSIZE) k ((pa + PGSIZE) % 2 ^ 64) perm va = extend f a (k + 1) pa perm va := by
  unfold extend
  rw [hg va hva]
  by_cases h1 : va / PGSIZE = a / PGSIZE
  · have h2 : ¬ (a + PGSIZE ≤ va ∧ va < a + PGSIZE + k * PGSIZE) := by
      unfold PGSIZE at *
      omega
    have h3 : a ≤ va ∧ va < a + (k + 1) * PGSIZE := by
      unfold PGSIZE at *
      omega
    have h4 : (va - a) / PGSIZE = 0 := by
      unfold PGSIZE at *
      omega
    rw [if_neg h2, if_pos h1, if_pos h3, h4, zero_mul, add_zero, Nat.mod_eq_of_lt hpa]
  · rw [if_neg h1]
    by_cases h2 : a + PGSIZE ≤ va ∧ va < a + PGSIZE + k * PGSIZE
    · have h3 : a ≤ va ∧ va < a + (k + 1) * PGSIZE := by
        unfold PGSIZE at *
        omega
      have h4 : (va - a) / PGSIZE * PGSIZE = (va - (a + PGSIZE)) / PGSIZE * PGSIZE + PGSIZE := by
        unfold PGSIZE at *
        omega
      rw [if_pos h2, if_pos h3, h4, Nat.mod_add_mod]
      congr 4
      omega
    · have h3 : ¬ (a ≤ va ∧ va < a + (k + 1) * PGSIZE) := by
        unfold PGSIZE at *
        omega
      rw [if_neg h2, if_neg h3]

theorem mapping_set {m m' : Mem} {v : Option (Nat × Nat)} (ha : a < MAXVA)
    (hself : find child leaf (tab m') root (path a) = v)
    (hother : ∀ j q, q.length < 3 → j :: q ≠ path a →
      find child leaf (tab m') root (j :: q) = find child leaf (tab m) root (j :: q)) (hva : va < TOPVA) :
    mapping m' root va = if va / PGSIZE = a / PGSIZE then v else mapping m root va := by
  split
  · rename_i h
    rw [mapping_congr h]
    exact hself
  · rename_i h
    exact hother _ _ (by simp) (fun hc => h (path_inj hva (lt_TOPVA ha) hc))

section

variable (he : 0 < e) (hperm : perm < 1024) (h : Alloc e s used) (ht : PageTree s.mem root used)

include he hperm h ht

theorem mapOne (ha : a < MAXVA)
    (hpa : pa < 2 ^ 64) (hfree : mapping s.mem root a = none) :
    (∃ s1 used', walkFrom true a 2 root s = (none, s1) ∧ Grow e s root used s1 used' ∧
      ∀ va, mapping s1.mem root va = mapping s.mem root va) ∨
    ∃ x s1 s' used', walkFrom true a 2 root s = (some x, s1) ∧ load s1.mem x 8 &&& PTE_V = 0 ∧
      s' = s1.setMem (store s1.mem x (pa2pte pa ||| perm ||| PTE_V) 8) ∧ Grow e s root used s' used' ∧
      ∀ va, va < TOPVA → mapping s'.mem root va =
        if va / PGSIZE = a / PGSIZE then some (pgRoundDown pa, perm ||| PTE_V) else mapping s.mem root va := by
  obtain ⟨used', hg, hmap, hret⟩ := walkFrom_true a 2 he h ht (p := []) rfl rfl
  generalize walkFrom true a 2 root s = r at hg hmap hret ⊢
  obtain ⟨x?, s1⟩ := r
  dsimp only at hg hmap hret ⊢
  cases x? with
  | none => exact .inl ⟨s1, used', rfl, hg, hmap⟩
  | some x =>
    obtain ⟨t', ht', rfl⟩ := hret x rfl
    right
    have hlast : table child (tab s1.mem) root [index 1 a, index 2 a] = some t' := ht'
    have hv : tab s1.mem t' (index 0 a) &&& PTE_V = 0 := by
      by_contra hc
      have hnone := (hmap a).trans hfree
      rw [mapping, path, find, hlast, bind_some, leaf, if_pos hc] at hnone
      cases hnone
    obtain ⟨hg', -, hself, hother⟩ := Grow.set (index 0 a) (pa2pte pa ||| perm ||| PTE_V) hg.alloc hg.tree
      hlast rfl
    refine ⟨_, s1, _, used', rfl, hv, rfl, hg.trans hg', fun va hva => ?_⟩
    have hset := mapping_set ha (hself.trans (leaf_entry hperm hpa)) hother hva
    refine hset.trans ?_
    rw [hmap va]

theorem mappagesLoop_spec {last fuel n : Nat}
    (ha : a % PGSIZE = 0) (hlast : last = a + n * PGSIZE) (hmax : last < MAXVA)
    (hfuel : n < fuel) (hpa : pa < 2 ^ 64) (hfree : ∀ k ≤ n, mapping s.mem root (a + k * PGSIZE) = none) :
    ∃ ok s' used' k, mappagesLoop root last perm fuel a pa s = .ok (ok, s') ∧ Grow e s root used s' used' ∧ k ≤ n + 1 ∧
      (ok = true → k = n + 1) ∧
      ∀ va, va < TOPVA → mapping s'.mem root va = extend (mapping s.mem root) a k pa perm va := by
  obtain ⟨fuel, rfl⟩ : ∃ f, fuel = f + 1 := ⟨fuel - 1, by omega⟩
  induction n generalizing s used a pa fuel with
  | zero =>
    have hal : a = last := by omega
    have hmapa : mapping s.mem root a = none := by simpa using hfree 0 le_rfl
    rw [mappagesLoop, walk, if_neg (by omega)]
    rcases mapOne he hperm h ht (hal ▸ hmax) hpa hmapa with ⟨s1, used', hr, hg, hmap⟩ |
      ⟨x, s1, s', used', hr, hv, rfl, hg, hmap⟩ <;> rw [hr]
    · exact ⟨false, s1, used', 0, rfl, hg, Nat.zero_le _, nofun, fun va _ => by rw [extend_zero]; exact hmap va⟩
    · dsimp only
      rw [if_neg (not_not.mpr hv), if_pos hal]
      refine ⟨true, _, used', 1, rfl, hg, le_rfl, fun _ => rfl, fun va hva => ?_⟩
      rw [← extend_succ (k := 0) ha hpa hmap hva, extend_zero]
  | succ n ih =>
    have hal : a ≠ last := by
      unfold PGSIZE at hlast
      omega
    have hamax : a < MAXVA := by omega
    have hmapa : mapping s.mem root a = none := by simpa using hfree 0 (Nat.zero_le _)
    rw [mappagesLoop, walk, if_neg (by omega)]
    rcases mapOne he hperm h ht hamax hpa hmapa with ⟨s1, used', hr, hg, hmap⟩ |
      ⟨x, s1, s', used', hr, hv, rfl, hg, hmap⟩ <;> rw [hr]
    · exact ⟨false, s1, used', 0, rfl, hg, Nat.zero_le _, nofun, fun va _ => by rw [extend_zero]; exact hmap va⟩
    · dsimp only
      rw [if_neg (not_not.mpr hv), if_neg hal]
      have hnext : (a + PGSIZE) % 2 ^ 64 = a + PGSIZE := by
        unfold MAXVA PGSIZE at *
        omega
      rw [hnext]
      obtain ⟨fuel, rfl⟩ : ∃ f, fuel = f + 1 := ⟨fuel - 1, by omega⟩
      have hfree' : ∀ k ≤ n, mapping (s1.setMem (store s1.mem x (pa2pte pa ||| perm ||| PTE_V) 8)).mem root
          (a + PGSIZE + k * PGSIZE) = none := by
        intro k hk
        have hva : a + PGSIZE + k * PGSIZE < MAXVA := by
          unfold PGSIZE at *
          omega
        rw [hmap _ (lt_TOPVA hva), if_neg (by unfold PGSIZE; omega)]
        have := hfree (k + 1) (by omega)
        rwa [add_mul, one_mul, add_comm (k * PGSIZE), ← add_assoc] at this
      obtain ⟨ok, s', used'', k, hres, hg', hk, hok, hext⟩ := ih (a := a + PGSIZE)
        hg.alloc hg.tree (by rw [Nat.add_mod_right]; exact ha)
        (by unfold PGSIZE at *; omega) (Nat.mod_lt (pa + PGSIZE) (by decide)) hfree' fuel (by omega)
      refine ⟨ok, s', used'', k + 1, hres, hg.trans hg', by omega, fun hc => by rw [hok hc], fun va hva => ?_⟩
      rw [hext va hva, extend_succ ha hpa hmap hva]

theorem mappages_spec {size : Nat}
    (hsize : 0 < size) (hmax : va + size ≤ MAXVA) (hpa : pa < 2 ^ 64)
    (hfree : ∀ va', pgRoundDown va ≤ va' → va' < va + size → mapping s.mem root va' = none) :
    ∃ ok s' used' k, mappages s root va size pa perm = .ok (ok, s') ∧ Grow e s root used s' used' ∧
      k * PGSIZE + pgRoundDown va ≤ pgRoundDown (va + size - 1) + PGSIZE ∧
      (ok = true → k * PGSIZE + pgRoundDown va = pgRoundDown (va + size - 1) + PGSIZE) ∧
      ∀ va', va' < TOPVA → mapping s'.mem root va' = extend (mapping s.mem root) (pgRoundDown va) k pa perm va' := by
  have hmod : (va + size - 1) % 2 ^ 64 = va + size - 1 := by
    unfold MAXVA at hmax
    omega
  rw [mappages, if_neg (by omega), hmod]
  have hround : pgRoundDown va % PGSIZE = 0 ∧ pgRoundDown (va + size - 1) = pgRoundDown va +
      (pgRoundDown (va + size - 1) - pgRoundDown va) / PGSIZE * PGSIZE ∧ pgRoundDown (va + size - 1) < MAXVA ∧
      (pgRoundDown (va + size - 1) - pgRoundDown va) / PGSIZE < MAXVA / PGSIZE + 1 ∧
      pgRoundDown (va + size - 1) < va + size := by
    unfold pgRoundDown MAXVA PGSIZE at *
    omega
  obtain ⟨h1, h2, h3, h4, h5⟩ := hround
  obtain ⟨ok, s', used', k, hres, hg, hk, hok, hext⟩ := mappagesLoop_spec he hperm h ht h1 h2 h3 h4 hpa (fun k hk => by
    refine hfree _ (by omega) ?_
    have : k * PGSIZE ≤ (pgRoundDown (va + size - 1) - pgRoundDown va) / PGSIZE * PGSIZE := Nat.mul_le_mul_right _ hk
    omega)
  refine ⟨ok, s', used', k, hres, hg, ?_, fun hc => ?_, hext⟩
  · have := Nat.mul_le_mul_right PGSIZE hk
    rw [add_mul, one_mul] at this
    omega
  · rw [hok hc, add_mul, one_mul]
    omega

end

theorem PageTree.congr {m : Mem} (m' : Mem) (used' : Finset Nat) (h : PageTree m root used)
    (heq : ∀ t i, IsTable m root t → tab m' t i = tab m t i)
    (hused : ∀ t, IsTable m root t → t ∈ used') :
    PageTree m' root used' ∧ (∀ q, q.length < 3 → table child (tab m') root q = table child (tab m) root q) ∧
      (∀ a, IsTable m' root a ↔ IsTable m root a) ∧ ∀ va, mapping m' root va = mapping m root va := by
  have hall : ∀ va, _ ∧ mapping m' root va = mapping m root va :=
    fun va => mapping_of_tables (fun q t hq ht i => heq t i ⟨q, hq, ht⟩)
  have htab := (hall 0).1
  have hist : ∀ a, IsTable m' root a ↔ IsTable m root a := by
    intro a
    refine exists_congr (fun q => and_congr_right (fun hq => ?_))
    rw [htab q hq]
  refine ⟨⟨h.tree.congr htab, fun t ht => hused t ((hist t).mp ht), fun q t i hq ht hv => ?_⟩, htab, hist,
    fun va => (hall va).2⟩
  rw [htab q (by omega)] at ht
  rw [heq t i ⟨q, by omega, ht⟩] at hv ⊢
  exact h.inner q t i hq ht hv

/-- Pages that are mapped have been freed and entries written; the page-table
pages and all else in use are as before. -/
structure Shrink (e : Nat) (s : Machine) (root : Nat) (used : Finset Nat) (s' : Machine) (used' : Finset Nat) :
    Prop where
  alloc : Alloc e s' used'
  tree : PageTree s'.mem root used'
  sub : used' ⊆ used
  tables : ∀ a, IsTable s'.mem root a ↔ IsTable s.mem root a
  mem : ∀ x, pgRoundDown x ∈ used' → ¬ IsTable s.mem root (pgRoundDown x) → s'.mem x = s.mem x

theorem Shrink.refl (h : Alloc e s used) (ht : PageTree s.mem root used) : Shrink e s root used s used :=
  ⟨h, ht, Finset.Subset.refl _, fun _ => Iff.rfl, fun _ _ _ => rfl⟩

theorem Shrink.trans {s'' : Machine} {used'' : Finset Nat} (h : Shrink e s root used s' used')
    (h' : Shrink e s' root used' s'' used'') : Shrink e s root used s'' used'' := by
  refine ⟨h'.alloc, h'.tree, h'.sub.trans h.sub, fun a => (h'.tables a).trans (h.tables a), fun x hx hn => ?_⟩
  rw [h'.mem x hx (fun hc => hn ((h.tables _).mp hc)), h.mem x (h'.sub hx) hn]

theorem Shrink.kfree (he : 0 < e) (h : Alloc e s used) (ht : PageTree s.mem root used) (hpa : pa ∈ used)
    (hn : ¬ IsTable s.mem root pa) :
    ∃ s', kfree e pa s = .ok s' ∧ Shrink e s root used s' (used.erase pa) ∧
      (∀ q, q.length < 3 → table child (tab s'.mem) root q = table child (tab s.mem) root q) ∧
      ∀ va, mapping s'.mem root va = mapping s.mem root va := by
  obtain ⟨s', hs', halloc, hmem⟩ := h.kfree he hpa
  have hne : ∀ t, IsTable s.mem root t → t ≠ pa := by
    rintro t htab rfl
    exact hn htab
  obtain ⟨htree, htabs, hist, hmap⟩ := ht.congr s'.mem (used.erase pa)
    (fun t i htab => tab_congr (fun x hx hlt => hmem x (by
      rw [round_of_page (ht.aligned h htab) hx hlt]
      exact hne t htab)) i)
    (fun t htab => mem_erase.mpr ⟨hne t htab, ht.tables t htab⟩)
  refine ⟨s', hs', ⟨halloc, htree, erase_subset _ _, hist, fun x hx _ => hmem x ?_⟩, htabs, hmap⟩
  exact (mem_erase.mp hx).1

theorem mapping_some {m : Mem} {fl : Nat} (h : mapping m root va = some (pa, fl)) :
    ∃ t, lastTable m root va = some t ∧ tab m t (index 0 va) &&& PTE_V ≠ 0 ∧ pteFlags (tab m t (index 0 va)) = fl ∧
      pte2pa (tab m t (index 0 va)) = pa := by
  rw [mapping_eq] at h
  obtain ⟨t, ht, hleaf⟩ := bind_eq_some_iff.mp h
  refine ⟨t, ht, ?_⟩
  change leaf (tab m t (index 0 va)) = some (pa, fl) at hleaf
  unfold leaf at hleaf
  split at hleaf
  · rename_i hv
    have hpair := Prod.mk.inj (some.inj hleaf)
    exact ⟨hv, hpair.2, hpair.1⟩
  · cases hleaf

theorem Shrink.clear (h : Alloc e s used) (ht : PageTree s.mem root used) (ha : a < MAXVA)
    (hlast : lastTable s.mem root a = some t) :
    Shrink e s root used (s.setMem (store s.mem (t + 8 * px 0 a) 0 8)) used ∧
      ∀ va, va < TOPVA → mapping (s.setMem (store s.mem (t + 8 * px 0 a) 0 8)).mem root va =
        if va / PGSIZE = a / PGSIZE then none else mapping s.mem root va := by
  obtain ⟨hg, htabs, hself, hother⟩ := Grow.set (index 0 a) 0 h ht hlast rfl
  refine ⟨⟨hg.alloc, hg.tree, Finset.Subset.refl _, fun x => ?_, hg.mem⟩, fun va hva => ?_⟩
  · refine exists_congr (fun q => and_congr_right (fun hq => ?_))
    exact iff_of_eq (congrArg (fun z => z = some x) (htabs q hq))
  · exact mapping_set ha (hself.trans (by decide)) hother hva

/-- What `uvmunmap` may be called on: mapped pages, which may be freed if it is
to free them. -/
structure Mapped (m : Mem) (root : Nat) (used : Finset Nat) (a n : Nat) (doFree : Bool) : Prop where
  leaf : ∀ k < n, ∃ pa fl, mapping m root (a + k * PGSIZE) = some (pa, fl) ∧ fl ≠ PTE_V ∧
    (doFree = true → pa ∈ used ∧ ¬ IsTable m root pa)
  once : doFree = true → ∀ k k' pa fl fl', k < n → k' < n → mapping m root (a + k * PGSIZE) = some (pa, fl) →
    mapping m root (a + k' * PGSIZE) = some (pa, fl') → k = k'

def Freed (m : Mem) (root a n : Nat) (doFree : Bool) (x : Nat) : Prop :=
  doFree = true ∧ ∃ k < n, ∃ fl, mapping m root (a + k * PGSIZE) = some (x, fl)

section

variable (he : 0 < e) (h : Alloc e s used) (ht : PageTree s.mem root used)

include he h ht

theorem freeOne {doFree : Bool}
    (hlt : lastTable s.mem root a = some t) (hfree : doFree = true → pa ∈ used ∧ ¬ IsTable s.mem root pa) :
    ∃ s1 used1, (if doFree = true then kfree e pa s else .ok s) = .ok s1 ∧ Shrink e s root used s1 used1 ∧
      lastTable s1.mem root a = some t ∧ (∀ va, mapping s1.mem root va = mapping s.mem root va) ∧
      ∀ x, x ∈ used1 ↔ x ∈ used ∧ ¬ (doFree = true ∧ x = pa) := by
  cases doFree with
  | false => exact ⟨s, used, rfl, Shrink.refl h ht, hlt, fun _ => rfl, fun x => by simp⟩
  | true =>
    obtain ⟨hu, hnt⟩ := hfree rfl
    obtain ⟨s1, hs1, hsh, htabs, hmap1⟩ := Shrink.kfree he h ht hu hnt
    refine ⟨s1, used.erase pa, hs1, hsh, (htabs _ (by simp)).trans hlt, hmap1, fun x => ?_⟩
    rw [mem_erase]
    constructor
    · rintro ⟨h1, h2⟩
      exact ⟨h2, fun hc => h1 hc.2⟩
    · rintro ⟨h1, h2⟩
      exact ⟨fun hc => h2 ⟨rfl, hc⟩, h1⟩

theorem uvmunmapLoop_spec {last n : Nat} {doFree : Bool}
    (ha : a % PGSIZE = 0) (hlast : last = a + n * PGSIZE) (hmax : last ≤ MAXVA)
    (hm : Mapped s.mem root used a n doFree) :
    ∃ s' used', uvmunmapLoop e root last doFree n a s = .ok s' ∧ Shrink e s root used s' used' ∧
      (∀ x, x ∈ used' ↔ x ∈ used ∧ ¬ Freed s.mem root a n doFree x) ∧
      ∀ va, va < TOPVA → mapping s'.mem root va = if a ≤ va ∧ va < a + n * PGSIZE then none else mapping s.mem root va := by
  induction n generalizing s used a with
  | zero =>
    refine ⟨s, used, rfl, Shrink.refl h ht, fun x => ⟨fun hx => ⟨hx, ?_⟩, And.left⟩, fun va _ => ?_⟩
    · rintro ⟨-, k, hk, -⟩
      exact absurd hk (Nat.not_lt_zero k)
    · rw [if_neg (by omega)]
  | succ n ih =>
    have hle : a + PGSIZE ≤ last := by
      rw [hlast, add_mul, one_mul]
      omega
    have hpg : 0 < PGSIZE := by decide
    have hamax : a < MAXVA := by omega
    obtain ⟨pa, fl, hmap, hfl, hfree⟩ := hm.leaf 0 (Nat.succ_pos n)
    rw [zero_mul, add_zero] at hmap
    obtain ⟨t, hlt, hv, hflags, hpa⟩ := mapping_some hmap
    rw [uvmunmapLoop, if_neg (by omega), walk, if_neg (by omega), walkFrom_false, hlt]
    dsimp only [map_some]
    have hv : load s.mem (t + 8 * px 0 a) 8 &&& PTE_V ≠ 0 := hv
    have hflags : pteFlags (load s.mem (t + 8 * px 0 a) 8) = fl := hflags
    have hpa : pte2pa (load s.mem (t + 8 * px 0 a) 8) = pa := hpa
    rw [if_neg hv, hflags, if_neg hfl, hpa]
    obtain ⟨s1, used1, hs1, hsh, hlt1, hmap1, hused1⟩ := freeOne he h ht hlt hfree
    rw [hs1]
    dsimp only
    obtain ⟨hsh2, hmap2⟩ := Shrink.clear hsh.alloc hsh.tree hamax hlt1
    have hsh' := hsh.trans hsh2
    have hrest : ∀ k, k < n → mapping (s1.setMem (store s1.mem (t + 8 * px 0 a) 0 8)).mem root (a + PGSIZE + k * PGSIZE) =
        mapping s.mem root (a + (k + 1) * PGSIZE) := by
      intro k hk
      have hva : a + PGSIZE + k * PGSIZE < MAXVA := by
        unfold PGSIZE at *
        omega
      rw [hmap2 _ (lt_TOPVA hva), if_neg (by unfold PGSIZE; omega), hmap1, add_mul, one_mul, add_comm (k * PGSIZE),
        ← add_assoc]
    have hm' : Mapped (s1.setMem (store s1.mem (t + 8 * px 0 a) 0 8)).mem root used1 (a + PGSIZE) n doFree := by
      refine ⟨fun k hk => ?_, fun hd k k' pa1 fl1 fl2 hk hk' h1 h2 => ?_⟩
      · obtain ⟨pa1, fl1, h1, h2, h3⟩ := hm.leaf (k + 1) (by omega)
        refine ⟨pa1, fl1, (hrest k hk).trans h1, h2, fun hd => ⟨?_, ?_⟩⟩
        · refine (hused1 pa1).mpr ⟨(h3 hd).1, ?_⟩
          rintro ⟨-, rfl⟩
          have := hm.once hd 0 (k + 1) pa1 fl fl1 (Nat.succ_pos n) (by omega) (by simpa using hmap) h1
          omega
        · exact fun hc => (h3 hd).2 ((hsh'.tables pa1).mp hc)
      · rw [hrest k hk] at h1
        rw [hrest k' hk'] at h2
        have := hm.once hd (k + 1) (k' + 1) pa1 fl1 fl2 (by omega) (by omega) h1 h2
        omega
    obtain ⟨s', used', hres, hsh3, hused, hmap3⟩ := ih hsh2.alloc hsh2.tree (by rw [Nat.add_mod_right]; exact ha)
      (by rw [hlast, add_mul, one_mul]; omega) hm'
    refine ⟨s', used', hres, hsh'.trans hsh3, fun x => ?_, fun va hva => ?_⟩
    · rw [hused x, hused1 x]
      constructor
      · rintro ⟨⟨hx, h1⟩, h2⟩
        refine ⟨hx, ?_⟩
        rintro ⟨hd, k, hk, fl1, hk1⟩
        cases k with
        | zero =>
          rw [zero_mul, add_zero, hmap] at hk1
          exact h1 ⟨hd, (Prod.mk.inj (some.inj hk1)).1.symm⟩
        | succ k => exact h2 ⟨hd, k, by omega, fl1, (hrest k (by omega)).trans hk1⟩
      · rintro ⟨hx, h1⟩
        refine ⟨⟨hx, ?_⟩, ?_⟩
        · rintro ⟨hd, rfl⟩
          exact h1 ⟨hd, 0, Nat.succ_pos n, fl, by simpa using hmap⟩
        · rintro ⟨hd, k, hk, fl1, hk1⟩
          rw [hrest k hk] at hk1
          exact h1 ⟨hd, k + 1, by omega, fl1, hk1⟩
    · rw [hmap3 va hva, hmap2 va hva, hmap1]
      by_cases h1 : a + PGSIZE ≤ va ∧ va < a + PGSIZE + n * PGSIZE
      · rw [if_pos h1, if_pos]
        unfold PGSIZE at *
        omega
      · rw [if_neg h1]
        by_cases h2 : va / PGSIZE = a / PGSIZE
        · rw [if_pos h2, if_pos]
          unfold PGSIZE at *
          omega
        · rw [if_neg h2, if_neg]
          unfold PGSIZE at *
          omega

theorem uvmunmap_spec {n : Nat} {doFree : Bool}
    (ha : a % PGSIZE = 0) (hmax : a + n * PGSIZE ≤ MAXVA) (hm : Mapped s.mem root used a n doFree) :
    ∃ s' used', uvmunmap e s root a n doFree = .ok s' ∧ Shrink e s root used s' used' ∧
      (∀ x, x ∈ used' ↔ x ∈ used ∧ ¬ Freed s.mem root a n doFree x) ∧
      ∀ va, va < TOPVA → mapping s'.mem root va = if a ≤ va ∧ va < a + n * PGSIZE then none else mapping s.mem root va := by
  have hmod : (a + n * PGSIZE) % 2 ^ 64 = a + n * PGSIZE := by
    unfold MAXVA at hmax
    omega
  rw [uvmunmap, if_neg (by omega), hmod]
  exact uvmunmapLoop_spec he h ht ha rfl hmax hm

end

theorem pageTree_zero {m : Mem} (hzero : ∀ i, tab m root i = 0) (hu : root ∈ used) :
    PageTree m root used ∧ (∀ a, IsTable m root a → a = root) ∧ ∀ va, mapping m root va = none := by
  have hchild : ∀ i, child (tab m root i) = none := by
    intro i
    rw [hzero]
    rfl
  have hnone : ∀ i q, table child (tab m) root (i :: q) = none := by
    intro i q
    induction q generalizing i with
    | nil => rw [table, table, bind_some, hchild]
    | cons j q ih => rw [table, ih j, bind_none]
  have honly : ∀ q t, table child (tab m) root q = some t → q = [] ∧ t = root := by
    intro q t hq
    cases q with
    | nil => exact ⟨rfl, (some.inj hq).symm⟩
    | cons i q =>
      rw [hnone] at hq
      cases hq
  refine ⟨⟨fun p q a _ _ hp hq => ?_, ?_, fun q t i _ hq hv => ?_⟩, ?_, fun va => ?_⟩
  · rw [(honly p a hp).1, (honly q a hq).1]
  · rintro t ⟨q, -, hq⟩
    rw [(honly q t hq).2]
    exact hu
  · rw [(honly q t hq).2, hzero] at hv
    exact absurd (by decide) hv
  · rintro a ⟨q, -, hq⟩
    exact (honly q a hq).2
  · rw [mapping, path, find, hnone, bind_none]

theorem uvmcreate_spec (he : 0 < e) (h : Alloc e s used) :
    ((uvmcreate s).1 = 0 ∧ (uvmcreate s).2.mem = s.mem ∧ Alloc e (uvmcreate s).2 used) ∨
    ((uvmcreate s).1 ≠ 0 ∧ (uvmcreate s).1 ∉ used ∧ Alloc e (uvmcreate s).2 (insert (uvmcreate s).1 used) ∧
      PageTree (uvmcreate s).2.mem (uvmcreate s).1 (insert (uvmcreate s).1 used) ∧
      (∀ a, IsTable (uvmcreate s).2.mem (uvmcreate s).1 a → a = (uvmcreate s).1) ∧
      (∀ va, mapping (uvmcreate s).2.mem (uvmcreate s).1 va = none) ∧
      ∀ x, pgRoundDown x ≠ (uvmcreate s).1 → (uvmcreate s).2.mem x = s.mem x) := by
  unfold uvmcreate
  dsimp only
  rcases h.kalloc he with ⟨h0, hmem, halloc⟩ | ⟨h0, hnew, hmem, halloc⟩
  · rw [if_pos h0]
    exact .inl ⟨rfl, hmem, halloc⟩
  · rw [if_neg h0]
    right
    have hpage := halloc.page (mem_insert_self _ _)
    have hzero : ∀ i, tab (fill (kalloc s).2.mem (kalloc s).1 0 PGSIZE) (kalloc s).1 i = 0 := by
      intro i
      rw [tab_fill hpage.1 hpage.1, if_pos rfl]
    have hout : ∀ x, pgRoundDown x ≠ (kalloc s).1 → fill (kalloc s).2.mem (kalloc s).1 0 PGSIZE x = (kalloc s).2.mem x := by
      intro x hx
      rw [fill, if_neg (fun hc => hx (round_of_page hpage.1 hc.1 hc.2))]
    obtain ⟨h1, h2, h3⟩ := pageTree_zero hzero (mem_insert_self (kalloc s).1 used)
    refine ⟨h0, hnew, halloc.write (fun x hx => hout x ?_), h1, h2, h3, fun x hx => (hout x hx).trans (hmem x hx)⟩
    rintro hc
    exact hx (hc ▸ mem_insert_self _ _)

end Operations

section Refinement

/-- Page tables are maps. `walk` without allocation changes nothing and finds the
entry of the map; with allocation it leaves the map as it is, whether or not
there is enough memory; `mappages` adds exactly the pages of the range, and
`uvmunmap` removes exactly those of its range; and a tree remains a tree. -/
theorem page_tables_refine_map {e root : Nat} {s : Machine} {used : Finset Nat} (he : 0 < e) (h : Alloc e s used)
    (ht : PageTree s.mem root used) :
    (∀ va, va < MAXVA → ∃ r, walk s root va false = .ok (r, s) ∧
      mapping s.mem root va = r.bind (fun pte => leaf (load s.mem pte 8))) ∧
    (∀ va, va < MAXVA → ∃ r s' used', walk s root va true = .ok (r, s') ∧ Alloc e s' used' ∧
      PageTree s'.mem root used' ∧ ∀ va', mapping s'.mem root va' = mapping s.mem root va') ∧
    (∀ va size pa perm, 0 < size → va + size ≤ MAXVA → pa < 2 ^ 64 → perm < 1024 →
      (∀ va', pgRoundDown va ≤ va' → va' < va + size → mapping s.mem root va' = none) →
      ∃ ok s' used', mappages s root va size pa perm = .ok (ok, s') ∧ Alloc e s' used' ∧ PageTree s'.mem root used' ∧
        (ok = true → ∀ va', va' < MAXVA → mapping s'.mem root va' =
          if pgRoundDown va ≤ va' ∧ va' < pgRoundDown (va + size - 1) + PGSIZE then
            some (pgRoundDown ((pa + (va' - pgRoundDown va) / PGSIZE * PGSIZE) % 2 ^ 64), perm ||| PTE_V)
          else mapping s.mem root va')) ∧
    (∀ va n doFree, va % PGSIZE = 0 → va + n * PGSIZE ≤ MAXVA → Mapped s.mem root used va n doFree →
      ∃ s' used', uvmunmap e s root va n doFree = .ok s' ∧ Alloc e s' used' ∧ PageTree s'.mem root used' ∧
        ∀ va', va' < MAXVA → mapping s'.mem root va' =
          if va ≤ va' ∧ va' < va + n * PGSIZE then none else mapping s.mem root va') := by
  refine ⟨fun va hva => ?_, fun va hva => ?_, fun va size pa perm hsize hmax hpa hperm hfree => ?_,
    fun va n doFree ha hmax hm => ?_⟩
  · refine ⟨_, by rw [walk, if_neg (by omega), walkFrom_false], ?_⟩
    rw [mapping_eq, bind_map]
    rfl
  · obtain ⟨used', hg, hmap, -⟩ := walkFrom_true va 2 he h ht (p := []) rfl rfl
    exact ⟨_, _, used', by rw [walk, if_neg (by omega)], hg.alloc, hg.tree, hmap⟩
  · obtain ⟨ok, s', used', k, hres, hg, -, hk, hext⟩ := mappages_spec he hperm h ht hsize hmax hpa hfree
    refine ⟨ok, s', used', hres, hg.alloc, hg.tree, fun hok va' hva' => ?_⟩
    rw [hext va' (lt_TOPVA hva'), extend, add_comm (pgRoundDown va), hk hok]
  · obtain ⟨s', used', hres, hsh, -, hmap⟩ := uvmunmap_spec he h ht ha hmax hm
    exact ⟨s', used', hres, hsh.alloc, hsh.tree, fun va' hva' => hmap va' (lt_TOPVA hva')⟩

def fourEnd : Nat := PHYSTOP - 4 * PGSIZE

def fourPages : Machine := ⟨(kinit fourEnd (fun _ => 0)).getD ⟨fun _ => 0, 0⟩, []⟩

def emptyTable : Machine := (uvmcreate fourPages).2

theorem fourPages_alloc : Alloc fourEnd fourPages ∅ := by
  obtain ⟨k, l, hk, hinv⟩ := kinit_inv (e := fourEnd) (by decide) (by decide) (fun _ => 0)
  have hf : fourPages = ⟨k, []⟩ := by
    rw [fourPages, hk]
    rfl
  exact ⟨l, by rw [hf]; exact hinv⟩

theorem page_tables_refine_map_emptyTable : ∃ s', mappages emptyTable (PHYSTOP - PGSIZE) 0x1800 0x1000 0x80000000 PTE_R =
    .ok (true, s') ∧ mapping s'.mem (PHYSTOP - PGSIZE) 0x2345 = some (0x80001000, 3) := by
  have hroot : (uvmcreate fourPages).1 = PHYSTOP - PGSIZE := by decide +kernel
  rcases uvmcreate_spec (by decide) fourPages_alloc with ⟨h0, -⟩ | ⟨-, -, halloc, htree, -, hnone, -⟩
  · rw [hroot] at h0
    exact absurd h0 (by decide)
  · rw [hroot] at halloc htree hnone
    obtain ⟨ok, s', used', hres, -, -, hmap⟩ := (page_tables_refine_map (by decide) halloc htree).2.2.1 0x1800 0x1000
      0x80000000 PTE_R (by decide) (by decide) (by decide) (by decide) (fun va' _ _ => hnone va')
    have hok : ok = true := by
      have hev : (mappages emptyTable (PHYSTOP - PGSIZE) 0x1800 0x1000 0x80000000 PTE_R).toOption.map Prod.fst = some true := by
        decide +kernel
      have hres' : mappages emptyTable (PHYSTOP - PGSIZE) 0x1800 0x1000 0x80000000 PTE_R = .ok (ok, s') := hres
      rw [hres'] at hev
      exact some.inj hev
    refine ⟨s', hok ▸ hres, ?_⟩
    rw [hmap hok 0x2345 (by decide)]
    decide

end Refinement

end Xv6Rcu.Vm

import Xv6Rcu.PageMap
import Xv6Rcu.Space

namespace Xv6Rcu.Space

open Exec Memory Kalloc Radix Vm List Finset

variable {e : Nat} {s s' s'' : Machine} {used used' used'' own own' own'' rest : Finset Nat} {m m' : Mem}
  {root pa a n : Nat} {us : List (Nat × Nat)} {tf tr : Option Nat}

section Frames

/-- A computation that has the pages `own` leaves the pages `own'`, which it had or
has allocated. All other pages in use stay in use, with their bytes, and no page is lost. -/
structure Framed (e : Nat) (s : Machine) (used own : Finset Nat) (s' : Machine) (used' own' : Finset Nat) : Prop where
  alloc : Alloc e s' used'
  sub : own' ⊆ used'
  keep : ∀ a ∈ used, a ∉ own → a ∈ used'
  new : ∀ a ∈ own', a ∈ own ∨ a ∉ used
  tight : ∀ a ∈ used', a ∈ own' ∨ (a ∈ used ∧ a ∉ own)
  mem : ∀ x, pgRoundDown x ∈ used → pgRoundDown x ∉ own → s'.mem x = s.mem x

namespace Framed

theorem refl (h : Alloc e s used) (hs : own ⊆ used) : Framed e s used own s used own :=
  ⟨h, hs, fun _ ha _ => ha, fun _ => .inl, fun a ha => (em (a ∈ own)).imp id (And.intro ha), fun _ _ _ => rfl⟩

theorem not_own' (h : Framed e s used own s' used' own') (hu : a ∈ used) (ho : a ∉ own) : a ∉ own' := fun ha =>
  (h.new a ha).elim ho (fun hn => hn hu)

theorem trans (h : Framed e s used own s' used' own') (h' : Framed e s' used' own' s'' used'' own'') :
    Framed e s used own s'' used'' own'' := by
  refine ⟨h'.alloc, h'.sub, fun a ha ho => h'.keep a (h.keep a ha ho) (h.not_own' ha ho), fun a ha => ?_, fun a ha => ?_,
    fun x hu ho => ?_⟩
  · rcases h'.new a ha with ha' | hn
    · exact h.new a ha'
    · by_cases ho : a ∈ own
      · exact .inl ho
      · exact .inr (fun hu => hn (h.keep a hu ho))
  · rcases h'.tight a ha with ha' | ⟨ha', hn⟩
    · exact .inl ha'
    · exact .inr ((h.tight a ha').resolve_left hn)
  · rw [h'.mem x (h.keep _ hu ho) (h.not_own' hu ho), h.mem x hu ho]

theorem used_eq (h : Framed e s used ∅ s' used' ∅) : used' = used :=
  Finset.ext (fun a => ⟨fun ha => ((h.tight a ha).resolve_left (notMem_empty a)).1,
    fun ha => h.keep a ha (notMem_empty a)⟩)

section

variable (h : Framed e s used own s' used' own') (hr : rest ⊆ used) (hd : Disjoint rest own)

include h hr hd

theorem frame :
    Framed e s used (own ∪ rest) s' used' (own' ∪ rest) := by
  have hn : ∀ a ∈ rest, a ∉ own := fun a ha ho => (disjoint_left.mp hd ha) ho
  refine ⟨h.alloc, ?_, fun a ha ho => ?_, fun a ha => ?_, fun a ha => ?_, fun x hu ho => ?_⟩
  · exact union_subset h.sub (fun a ha => h.keep a (hr ha) (hn a ha))
  · exact h.keep a ha (fun hc => ho (mem_union_left _ hc))
  · rcases mem_union.mp ha with ha | ha
    · exact (h.new a ha).imp (mem_union_left _) id
    · exact .inl (mem_union_right _ ha)
  · by_cases hra : a ∈ rest
    · exact .inl (mem_union_right _ hra)
    · refine (h.tight a ha).imp (mem_union_left _) (fun hu => ⟨hu.1, fun hc => ?_⟩)
      exact (mem_union.mp hc).elim hu.2 hra
  · exact h.mem x hu (fun hc => ho (mem_union_left _ hc))

/-- Pages that the computation does not have are apart from those that it ends with. -/
theorem apart : Disjoint rest own' :=
  disjoint_left.mpr (fun _ ha => h.not_own' (hr ha) (disjoint_left.mp hd ha))

theorem rest_sub : rest ⊆ used' :=
  fun a ha => h.keep a (hr ha) (disjoint_left.mp hd ha)

end

theorem write (h : Alloc e s used) (hs : own ⊆ used) (hm : ∀ x, pgRoundDown x ∉ own → m x = s.mem x) :
    Framed e s used own (s.setMem m) used own :=
  ⟨h.write (fun x hx => hm x (fun hc => hx (hs hc))), hs, fun _ ha _ => ha, fun _ => .inl,
    fun a ha => (em (a ∈ own)).imp id (And.intro ha), fun x _ ho => hm x ho⟩

end Framed

end Frames

section Spaces

/-- The first page numbers are the user's; the trapframe and the trampoline are at the top. -/
def layout (us : List (Nat × Nat)) (tf tr : Option Nat) (n : Nat) : Option (Nat × Nat) :=
  if n < us.length then us[n]?
  else if n = TRAPFRAME / PGSIZE then tf.map (fun pa => (pa, PTE_R ||| PTE_W ||| PTE_V))
  else if n = TRAMPOLINE / PGSIZE then tr.map (fun pa => (pa, PTE_R ||| PTE_X ||| PTE_V))
  else none

def Leaf (fl : Nat) : Prop := fl < 1024 ∧ fl &&& PTE_R ≠ 0

theorem Leaf.ne {fl : Nat} (h : Leaf fl) : fl ≠ PTE_V := by
  rintro rfl
  exact h.2 (by decide)

/-- A page table that maps the pages `us` of the user; `own` are these and its own pages. -/
structure UserSpace (m : Mem) (root : Nat) (own : Finset Nat) (us : List (Nat × Nat)) (tf tr : Option Nat) : Prop where
  tree : PageTree m root own
  map : ∀ va, va < TOPVA → mapping m root va = layout us tf tr (va / PGSIZE)
  pages : ∀ u ∈ us, u.1 ∈ own ∧ ¬ IsTable m root u.1 ∧ Leaf u.2
  once : (us.map Prod.fst).Nodup
  all : ∀ a ∈ own, IsTable m root a ∨ a ∈ us.map Prod.fst

theorem PageTree.mono (h : PageTree m root own) (hs : own ⊆ own') : PageTree m root own' :=
  ⟨h.tree, fun t ht => hs (h.tables t ht), h.inner⟩

namespace UserSpace

theorem congr (m' : Mem) (h : UserSpace m root own us tf tr) (ha : ∀ t, IsTable m root t → t % PGSIZE = 0)
    (hm : ∀ x, IsTable m root (pgRoundDown x) → m' x = m x) :
    UserSpace m' root own us tf tr ∧ ∀ a, IsTable m' root a ↔ IsTable m root a := by
  have heq : ∀ t i, IsTable m root t → tab m' t i = tab m t i := by
    intro t i ht
    refine tab_congr (fun x hx hlt => hm x ?_) i
    rw [round_of_page (ha t ht) hx hlt]
    exact ht
  obtain ⟨htree, -, hist, hmap⟩ := h.tree.congr m' own heq h.tree.tables
  refine ⟨⟨htree, fun va hva => by rw [hmap, h.map va hva], fun u hu => ?_, h.once, fun a ha =>
    (h.all a ha).imp (hist a).mpr id⟩, hist⟩
  obtain ⟨h1, h2, h3⟩ := h.pages u hu
  exact ⟨h1, fun hc => h2 ((hist _).mp hc), h3⟩

theorem table_mem (h : UserSpace m root own us tf tr) (ht : IsTable m root a) : a ∈ own := h.tree.tables a ht

theorem aligned (h : UserSpace s.mem root own us tf tr) (ha : Alloc e s used) (hs : own ⊆ used) :
    ∀ t, IsTable s.mem root t → t % PGSIZE = 0 := fun _ ht => (ha.page (hs (h.table_mem ht))).1

theorem frame (h : UserSpace s.mem root rest us tf tr) (ha : Alloc e s used) (hf : Framed e s used own s' used' own')
    (hr : rest ⊆ used) (hd : Disjoint rest own) :
    UserSpace s'.mem root rest us tf tr ∧ ∀ a, IsTable s'.mem root a ↔ IsTable s.mem root a :=
  h.congr s'.mem (h.aligned ha hr) (fun x hx =>
    hf.mem x (hr (h.table_mem hx)) (disjoint_left.mp hd (h.table_mem hx)))

theorem length_le (h : UserSpace s.mem root own us tf tr) (ha : Alloc e s used) (hs : own ⊆ used) :
    us.length ≤ PHYSTOP / PGSIZE := by
  have := length_le_pages (e := e) h.once (fun p hp => by
    obtain ⟨u, hu, rfl⟩ := mem_map.mp hp
    exact ha.page (hs (h.pages u hu).1))
  rwa [length_map] at this

end UserSpace

end Spaces

section Steps

variable {Q : Nat → Machine → Prop} {E : Halt → Prop}

theorem runs_lift {α : Type} {x : Machine → Except Vm.Panic (α × Machine)} {Q : α → Machine → Prop} {r : α}
    (h : x s = .ok (r, s')) (hQ : Q r s') : Runs (lift x) s Q E := by
  have hx : lift x s = .ok (r, s') := by rw [lift, h]
  exact Runs.of_eq hx hQ

theorem kalloc_spec (he : 0 < e) (h : Alloc e s used) (hs : own ⊆ used) :
    Runs kalloc s (fun pa t => (pa = 0 ∧ Framed e s used own t used own ∧ t.mem = s.mem) ∨
      (pa ≠ 0 ∧ pa ∉ used ∧ Framed e s used own t (insert pa used) (insert pa own) ∧
        ∀ x, pgRoundDown x ≠ pa → t.mem x = s.mem x)) (fun _ => False) := by
  change _ ∨ _
  rcases h.kalloc he with ⟨h0, hmem, ha⟩ | ⟨h0, hn, hmem, ha⟩
  · exact .inl ⟨h0, ⟨ha, hs, fun _ hu _ => hu, fun _ => .inl, fun a hu => (em (a ∈ own)).imp id (And.intro hu),
      fun x _ _ => congrFun hmem x⟩, hmem⟩
  · refine .inr ⟨h0, hn, ⟨ha, insert_subset_insert _ hs, fun a hu _ => mem_insert_of_mem hu, fun a hm => ?_,
      fun a hm => ?_, fun x hu _ => hmem x (fun hc => hn (hc ▸ hu))⟩, hmem⟩
    · rcases mem_insert.mp hm with rfl | hm
      · exact .inr hn
      · exact .inl hm
    · rcases mem_insert.mp hm with rfl | hm
      · exact .inl (mem_insert_self _ _)
      · exact (em (a ∈ own)).imp mem_insert_of_mem (And.intro hm)

theorem kfree_spec (he : 0 < e) (h : Alloc e s used) (hs : own ⊆ used) (hpa : pa ∈ own) :
    Runs (kfree e pa) s (fun _ t => Framed e s used own t (used.erase pa) (own.erase pa) ∧
      ∀ x, pgRoundDown x ≠ pa → t.mem x = s.mem x) (fun _ => False) := by
  obtain ⟨t, ht, ha, hmem⟩ := h.kfree he (hs hpa)
  have hres : (Vm.kfree e pa s).map (fun t => ((), t)) = .ok ((), t) := by
    rw [ht]
    rfl
  refine runs_lift hres ⟨⟨ha, erase_subset_erase _ hs, fun a hu ho => ?_,
    fun a hm => .inl (mem_of_mem_erase hm), fun a hm => ?_, fun x _ ho => hmem x ?_⟩, hmem⟩
  · exact mem_erase.mpr ⟨fun hc => ho (hc ▸ hpa), hu⟩
  · obtain ⟨hne, hu⟩ := mem_erase.mp hm
    exact (em (a ∈ own)).imp (fun ho => mem_erase.mpr ⟨hne, ho⟩) (And.intro hu)
  · exact fun hc => ho (hc ▸ hpa)

theorem mappages_one {perm : Nat} (he : 0 < e) (hperm : perm < 1024) (h : Alloc e s used) (ht : PageTree s.mem root used)
    (ha : a % PGSIZE = 0) (hmax : a + PGSIZE ≤ MAXVA) (hpa : pa < 2 ^ 64) (hfree : mapping s.mem root a = none) :
    ∃ ok s' used', Vm.mappages s root a PGSIZE pa perm = .ok (ok, s') ∧ Grow e s root used s' used' ∧
      ∀ va, va < TOPVA → mapping s'.mem root va =
        if ok = true ∧ va / PGSIZE = a / PGSIZE then some (pgRoundDown pa, perm ||| PTE_V) else mapping s.mem root va := by
  have hlt : a < MAXVA := by
    unfold PGSIZE at hmax
    omega
  have hround : pgRoundDown a = a := by
    unfold pgRoundDown PGSIZE at *
    omega
  have hlast : pgRoundDown ((a + PGSIZE - 1) % 2 ^ 64) = a := by
    have hM : MAXVA < 2 ^ 64 := by decide
    rw [Nat.mod_eq_of_lt (by omega)]
    exact round_of_page ha (by unfold PGSIZE; omega) (by unfold PGSIZE; omega)
  have hwalk : Vm.walk s root a true = .ok (walkFrom true a 2 root s) := by
    rw [Vm.walk, if_neg (by omega)]
  rw [Vm.mappages, if_neg (by decide), hround, hlast]
  generalize MAXVA / PGSIZE = fuel
  rw [mappagesLoop, hwalk]
  rcases mapOne he hperm h ht hlt hpa hfree with ⟨t, used', hx, hg, hmap⟩ | ⟨x, t, s1, used', hx, hv, hs1, hg, hmap⟩ <;> rw [hx]
  · exact ⟨false, t, used', rfl, hg, fun va _ => by rw [hmap]; simp⟩
  · dsimp only
    rw [if_neg (by rw [hv]; exact fun hc => hc rfl), if_pos rfl, ← hs1]
    exact ⟨true, s1, used', rfl, hg, fun va hva => by rw [hmap va hva]; simp⟩

theorem grow_framed {more : Finset Nat} (hg : Grow e s root used s' more) (ht : PageTree s.mem root own) (hs : own ⊆ used) :
    Framed e s used own s' more (own ∪ (more \ used)) ∧ PageTree s'.mem root (own ∪ (more \ used)) := by
  refine ⟨⟨hg.alloc, ?_, fun a ha _ => hg.sub ha, fun a ha => ?_, fun a ha => ?_, fun x hu ho =>
    hg.mem x hu (fun hc => ho (ht.tables _ hc))⟩, hg.tree.tree, fun t htab => ?_, hg.tree.inner⟩
  · exact union_subset (hs.trans hg.sub) sdiff_subset
  · rcases mem_union.mp ha with ha | ha
    · exact .inl ha
    · exact .inr (mem_sdiff.mp ha).2
  · by_cases hu : a ∈ used
    · exact (em (a ∈ own)).imp (mem_union_left _) (And.intro hu)
    · exact .inl (mem_union_right _ (mem_sdiff.mpr ⟨ha, hu⟩))
  · rcases hg.fresh t htab with hold | hnew
    · exact mem_union_left _ (ht.tables t hold)
    · exact mem_union_right _ (mem_sdiff.mpr ⟨hg.tree.tables t htab, hnew⟩)

theorem page_mul {va q : Nat} (h : va / PGSIZE = q * PGSIZE / PGSIZE) : va / PGSIZE = q := by
  rwa [Nat.mul_div_cancel q (by decide)] at h

namespace UserSpace

variable (us' : List (Nat × Nat)) (tf' tr' : Option Nat) {q perm : Nat}

/-- `mappages` of one page of a space; `more` are the pages that are then the user's too. -/
theorem mapAt (more : Finset Nat) (he : 0 < e) (h : UserSpace s.mem root own us tf tr) (ha : Alloc e s used) (hs : own ⊆ used)
    (hperm : perm < 1024) (hq : q * PGSIZE + PGSIZE ≤ MAXVA) (hpa : pa < 2 ^ 64) (hfree : layout us tf tr q = none)
    (hmap : ∀ n, layout us' tf' tr' n = if n = q then some (pgRoundDown pa, perm ||| PTE_V) else layout us tf tr n)
    (hmore : more ⊆ used) (hd : Disjoint more own) (hpages : ∀ a, a ∈ us'.map Prod.fst ↔ a ∈ us.map Prod.fst ∨ a ∈ more)
    (hleaf : ∀ u ∈ us', Leaf u.2) (honce : (us'.map Prod.fst).Nodup) :
    Runs (mappages root (q * PGSIZE) PGSIZE pa perm) s
      (fun ok t => ∃ used' own', Framed e s used own t used' own' ∧
        (∀ x, pgRoundDown x ∈ used → ¬ IsTable s.mem root (pgRoundDown x) → t.mem x = s.mem x) ∧
        (ok = true → UserSpace t.mem root (own' ∪ more) us' tf' tr') ∧ (ok = false → UserSpace t.mem root own' us tf tr))
      (fun _ => False) := by
  have hmod : q * PGSIZE % PGSIZE = 0 := Nat.mul_mod_left q PGSIZE
  have hlt : q * PGSIZE < MAXVA := by
    unfold PGSIZE at hq ⊢
    omega
  have hnone : mapping s.mem root (q * PGSIZE) = none := by
    rw [h.map _ (lt_TOPVA hlt), Nat.mul_div_cancel q (by decide)]
    exact hfree
  obtain ⟨ok, t, grown, hres, hg, hext⟩ := mappages_one he hperm ha (PageTree.mono h.tree hs) hmod hq hpa hnone
  obtain ⟨hf, htree⟩ := grow_framed hg h.tree hs
  have hold : ∀ a ∈ used, IsTable t.mem root a → IsTable s.mem root a := by
    intro a hau hat
    exact (hg.fresh a hat).resolve_right (fun hn => hn hau)
  have huser : ∀ u ∈ us, u.1 ∈ own ∪ (grown \ used) ∧ ¬ IsTable t.mem root u.1 ∧ Leaf u.2 := by
    intro u hu
    obtain ⟨h1, h2, h3⟩ := h.pages u hu
    exact ⟨mem_union_left _ h1, fun hc => h2 (hold _ (hs h1) hc), h3⟩
  have hall : ∀ a ∈ own ∪ (grown \ used), IsTable t.mem root a ∨ a ∈ us.map Prod.fst := by
    intro a hau
    rcases mem_union.mp hau with hao | han
    · exact (h.all a hao).imp (hg.old a) id
    · obtain ⟨h1, h2⟩ := mem_sdiff.mp han
      exact .inl ((hg.new a h1).resolve_left h2)
  refine runs_lift hres ⟨grown, _, hf, hg.mem, ?_, ?_⟩
  · rintro rfl
    refine ⟨PageTree.mono htree subset_union_left, fun va hva => ?_, fun u hu => ?_, honce, fun a hau => ?_⟩
    · rw [hext va hva, hmap, h.map va hva]
      by_cases hv : va / PGSIZE = q
      · rw [if_pos ⟨rfl, by rw [Nat.mul_div_cancel q (by decide)]; exact hv⟩, if_pos hv]
      · rw [if_neg (fun hc => hv (page_mul hc.2)), if_neg hv]
    · rcases (hpages u.1).mp (mem_map_of_mem hu) with hin | hin
      · obtain ⟨v, hv, hvu⟩ := mem_map.mp hin
        obtain ⟨h1, h2, -⟩ := huser v hv
        rw [hvu] at h1 h2
        exact ⟨mem_union_left _ h1, h2, hleaf u hu⟩
      · refine ⟨mem_union_right _ hin, fun hc => ?_, hleaf u hu⟩
        exact disjoint_left.mp hd hin (h.tree.tables _ (hold _ (hmore hin) hc))
    · rcases mem_union.mp hau with hao | han
      · exact (hall a hao).imp id (fun hc => (hpages a).mpr (.inl hc))
      · exact .inr ((hpages a).mpr (.inr han))
  · rintro rfl
    refine ⟨htree, fun va hva => ?_, huser, h.once, hall⟩
    rw [hext va hva, if_neg (fun hc => Bool.false_ne_true hc.1), h.map va hva]

theorem unmapAt (he : 0 < e) (h : UserSpace s.mem root own us tf tr) (ha : Alloc e s used) (hs : own ⊆ used) {doFree : Bool}
    (hq : q * PGSIZE + n * PGSIZE ≤ MAXVA)
    (hleaf : ∀ k < n, ∃ pa fl, layout us tf tr (q + k) = some (pa, fl) ∧ Leaf fl ∧
      (doFree = true → pa ∈ own ∧ ¬ IsTable s.mem root pa))
    (honce : doFree = true → ∀ k k' pa fl fl', k < n → k' < n → layout us tf tr (q + k) = some (pa, fl) →
      layout us tf tr (q + k') = some (pa, fl') → k = k')
    (hmap : ∀ k, layout us' tf' tr' k = if q ≤ k ∧ k < q + n then none else layout us tf tr k)
    (hpages : ∀ u ∈ us', u ∈ us ∧ (doFree = true → ∀ k < n, ∀ fl, layout us tf tr (q + k) ≠ some (u.1, fl)))
    (hgone : ∀ u ∈ us, u.1 ∈ us'.map Prod.fst ∨ doFree = true ∧ ∃ k < n, ∃ fl, layout us tf tr (q + k) = some (u.1, fl))
    (honce' : (us'.map Prod.fst).Nodup) :
    Runs (uvmunmap e root (q * PGSIZE) n doFree) s
      (fun _ t => ∃ used' own', Framed e s used own t used' own' ∧ own' ⊆ own ∧ (doFree = false → own' = own) ∧
        (∀ a, IsTable t.mem root a ↔ IsTable s.mem root a) ∧
        (∀ x, pgRoundDown x ∈ own' → ¬ IsTable s.mem root (pgRoundDown x) → t.mem x = s.mem x) ∧
        UserSpace t.mem root own' us' tf' tr') (fun _ => False) := by
  have hva : ∀ k < n, q * PGSIZE + k * PGSIZE < TOPVA ∧ (q * PGSIZE + k * PGSIZE) / PGSIZE = q + k := by
    intro k hk
    refine ⟨lt_TOPVA ?_, ?_⟩
    · unfold PGSIZE at hq ⊢
      omega
    · rw [← add_mul, Nat.mul_div_cancel _ (by decide)]
  have hlk : ∀ k < n, mapping s.mem root (q * PGSIZE + k * PGSIZE) = layout us tf tr (q + k) := by
    intro k hk
    rw [h.map _ (hva k hk).1, (hva k hk).2]
  have hm : Mapped s.mem root used (q * PGSIZE) n doFree := by
    refine ⟨fun k hk => ?_, fun hd k k' pa fl fl' hk hk' h1 h2 => ?_⟩
    · obtain ⟨pa, fl, h1, h2, h3⟩ := hleaf k hk
      exact ⟨pa, fl, (hlk k hk).trans h1, h2.ne, fun hd => ⟨hs (h3 hd).1, (h3 hd).2⟩⟩
    · rw [hlk k hk] at h1
      rw [hlk k' hk'] at h2
      exact honce hd k k' pa fl fl' hk hk' h1 h2
  obtain ⟨t, used', hres, hsh, hused, hext⟩ :=
    uvmunmap_spec he ha (PageTree.mono h.tree hs) (Nat.mul_mod_left q PGSIZE) hq hm
  have hfreed : ∀ a, Freed s.mem root (q * PGSIZE) n doFree a → a ∈ own ∧ ¬ IsTable s.mem root a := by
    rintro a ⟨hd, k, hk, fl, hkm⟩
    rw [hlk k hk] at hkm
    obtain ⟨pa, fl', h1, -, h3⟩ := hleaf k hk
    rw [hkm] at h1
    have := (Prod.mk.inj (Option.some.inj h1)).1
    exact this ▸ h3 hd
  have hkeep : ∀ a ∈ used, a ∉ own → a ∈ used' := fun a hu ho => (hused a).mpr ⟨hu, fun hc => ho (hfreed a hc).1⟩
  have hmem' : ∀ a, a ∈ own ∩ used' ↔ a ∈ own ∧ a ∈ used' := fun a => mem_inter
  have hlift : (Vm.uvmunmap e s root (q * PGSIZE) n doFree).map (fun t => ((), t)) = .ok ((), t) := by
    rw [hres]
    rfl
  refine runs_lift hlift ⟨used', own ∩ used', ⟨hsh.alloc, inter_subset_right, hkeep,
    fun a hm => .inl ((hmem' a).mp hm).1, fun a hu => ?_, fun x hu ho => hsh.mem x (hkeep _ hu ho) (fun hc => ho (h.table_mem hc))⟩,
    inter_subset_left, fun hd => ?_, hsh.tables, fun x hx => hsh.mem x ((hmem' _).mp hx).2,
    ⟨hsh.tree.tree, fun a hat => ?_, hsh.tree.inner⟩, fun va hv => ?_,
    fun u hu => ?_, honce', fun a ha => ?_⟩
  · exact (em (a ∈ own)).imp (fun ho => (hmem' a).mpr ⟨ho, hu⟩) (And.intro (hsh.sub hu))
  · refine inter_eq_left.mpr (fun a ho => (hused a).mpr ⟨hs ho, fun hc => ?_⟩)
    exact Bool.false_ne_true (hd.symm.trans hc.1)
  · exact (hmem' a).mpr ⟨h.table_mem ((hsh.tables a).mp hat), hsh.tree.tables a hat⟩
  · rw [hext va hv, hmap, h.map va hv]
    have hiff : (q * PGSIZE ≤ va ∧ va < q * PGSIZE + n * PGSIZE) ↔ (q ≤ va / PGSIZE ∧ va / PGSIZE < q + n) := by
      unfold PGSIZE
      omega
    by_cases hc : q ≤ va / PGSIZE ∧ va / PGSIZE < q + n
    · rw [if_pos hc, if_pos (hiff.mpr hc)]
    · rw [if_neg hc, if_neg (fun hh => hc (hiff.mp hh))]
  · obtain ⟨hu', hno⟩ := hpages u hu
    obtain ⟨h1, h2, h3⟩ := h.pages u hu'
    refine ⟨(hmem' _).mpr ⟨h1, (hused _).mpr ⟨hs h1, ?_⟩⟩, fun hc => h2 ((hsh.tables _).mp hc), h3⟩
    rintro ⟨hd, k, hk, fl, hkm⟩
    rw [hlk k hk] at hkm
    exact hno hd k hk fl hkm
  · obtain ⟨hao, hau⟩ := (hmem' a).mp ha
    refine (h.all a hao).imp (hsh.tables a).mpr (fun hin => ?_)
    obtain ⟨u, hu, rfl⟩ := mem_map.mp hin
    refine (hgone u hu).resolve_right ?_
    rintro ⟨hd, k, hk, fl, hkm⟩
    exact ((hused _).mp hau).2 ⟨hd, k, hk, fl, (hlk k hk).trans hkm⟩

end UserSpace

end Steps

end Xv6Rcu.Space

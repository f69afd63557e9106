import Xv6Rcu.SpaceFree

namespace Xv6Rcu.Space

open Exec Memory Kalloc Radix Vm List

variable {e : Nat} {s s' t : Machine} {used used' own own' rest : Finset Nat} {m m' : Mem} {root pa a n q sz perm : Nat}
  {us us' : List (Nat × Nat)} {tf tr : Option Nat}

theorem or_and_ne {x y b : Nat} (h : x &&& b ≠ 0) : (x ||| y) &&& b ≠ 0 := by
  rw [Nat.and_or_distrib_right]
  exact fun hc => h (Nat.or_eq_zero_iff.mp hc).1

section Assertions

structure At (e : Nat) (s : Machine) (used own : Finset Nat) (root : Nat) (us : List (Nat × Nat)) (tf tr : Option Nat) :
    Prop where
  alloc : Alloc e s used
  sub : own ⊆ used
  space : UserSpace s.mem root own us tf tr

theorem Framed.at (h : Framed e s used own s' used' own') (hs : UserSpace s'.mem root own' us tf tr) :
    At e s' used' own' root us tf tr := ⟨h.alloc, h.sub, hs⟩

def Sized (sz : Nat) (us : List (Nat × Nat)) : Prop := sz ≤ us.length * PGSIZE ∧ us.length * PGSIZE < sz + PGSIZE

theorem pgRoundUp_eq (h : a ≤ PHYSTOP) : pgRoundUp a = (a + (PGSIZE - 1)) / PGSIZE * PGSIZE := by
  have hP : PHYSTOP + PGSIZE < 2 ^ 64 := by decide
  have hG : PGSIZE = 4096 := rfl
  have hsub : a + PGSIZE - 1 = a + (PGSIZE - 1) := by omega
  rw [pgRoundUp, hsub, Nat.mod_eq_of_lt (by omega)]

theorem PHYSTOP_eq : PHYSTOP = PHYSTOP / PGSIZE * PGSIZE := by decide

def Kept (m m' : Mem) (us : List (Nat × Nat)) : Prop := ∀ u ∈ us, ∀ x, pgRoundDown x = u.1 → m' x = m x

theorem Kept.refl (m : Mem) (us : List (Nat × Nat)) : Kept m m us := fun _ _ _ _ => rfl

theorem Kept.trans {m'' : Mem} (h : Kept m m' us) (h' : Kept m' m'' us) : Kept m m'' us := fun u hu x hx =>
  (h' u hu x hx).trans (h u hu x hx)

theorem Kept.mono (h : Kept m m' us) (hs : us' ⊆ us) : Kept m m' us' := fun u hu => h u (hs hu)

theorem newPage (he : 0 < e) (h : Alloc e s used) :
    Runs kalloc s (fun pa t => pa = 0 ∧ Framed e s used ∅ t used ∅ ∨
      pa ≠ 0 ∧ pa ∉ used ∧ pa % PGSIZE = 0 ∧ Framed e s used ∅ t (insert pa used) {pa}) (fun _ => False) := by
  refine (kalloc_spec he h (Finset.empty_subset _)).safe ?_
  rintro pa t (⟨h0, hf, -⟩ | ⟨h0, hn, hf, -⟩)
  · exact .inl ⟨h0, hf⟩
  · exact .inr ⟨h0, hn, (hf.alloc.page (Finset.mem_insert_self pa used)).1, hf⟩

namespace At

theorem frame (h : At e s used rest root us tf tr) (hf : Framed e s used own s' used' own') (hd : Disjoint rest own) :
    At e s' used' rest root us tf tr ∧ Kept s.mem s'.mem us := by
  refine ⟨⟨hf.alloc, hf.rest_sub h.sub hd, (h.space.frame h.alloc hf h.sub hd).1⟩, fun u hu x hx => ?_⟩
  have hin := (h.space.pages u hu).1
  rw [← hx] at hin
  exact hf.mem x (h.sub hin) (Finset.disjoint_left.mp hd hin)

section

variable (h : At e s used own root us tf tr)

include h

theorem length_le : us.length ≤ PHYSTOP / PGSIZE := h.space.length_le h.alloc h.sub

theorem length_lt : us.length < TRAPFRAME / PGSIZE :=
  lt_of_le_of_lt h.length_le TRAPFRAME_lt

theorem le_stop : us.length * PGSIZE ≤ PHYSTOP := by
  rw [PHYSTOP_eq]
  exact Nat.mul_le_mul_right _ h.length_le

theorem round (hz : Sized sz us) : pgRoundUp sz = us.length * PGSIZE := by
  have := h.le_stop
  obtain ⟨h1, h2⟩ := hz
  rw [pgRoundUp_eq (by omega)]
  unfold PGSIZE at *
  omega

theorem fits : us.length * PGSIZE + PGSIZE ≤ MAXVA := by
  have := h.le_stop
  have h2 : PHYSTOP + PGSIZE ≤ MAXVA := by decide
  omega

theorem poke {f : Mem → Mem} (hpa : pa ∈ own) (hn : ¬ IsTable s.mem root pa)
    (hf : ∀ m x, pgRoundDown x ≠ pa → f m x = m x) :
    Runs (poke f) s (fun _ t => Framed e s used own t used own ∧ UserSpace t.mem root own us tf tr ∧
      ∀ a, IsTable t.mem root a ↔ IsTable s.mem root a) (fun _ => False) := by
  change Framed e s used own (s.setMem (f s.mem)) used own ∧ _
  obtain ⟨hsp, hist⟩ := h.space.congr (f s.mem) (h.space.aligned h.alloc h.sub)
    (fun x hx => hf _ x (fun hc => hn (hc ▸ hx)))
  exact ⟨Framed.write h.alloc h.sub (fun x hx => hf _ x (fun hc => hx (hc ▸ hpa))), hsp, hist⟩

end

section

variable (he : 0 < e) (h : At e s used own root us tf tr)

include he h

theorem mapUser (hpa : pa ∈ used) (hn : pa ∉ own)
    (hperm : perm < 1024) (hr : perm &&& PTE_R ≠ 0) :
    Runs (mappages root (us.length * PGSIZE) PGSIZE pa perm) s
      (fun ok t => ∃ used' own', Framed e s used own t used' own' ∧ Kept s.mem t.mem us ∧
        (ok = true → UserSpace t.mem root (insert pa own') (us ++ [(pa, perm ||| PTE_V)]) tf tr) ∧
        (ok = false → UserSpace t.mem root own' us tf tr)) (fun _ => False) := by
  have hpage := h.alloc.page hpa
  have hround : pgRoundDown pa = pa := round_of_page hpage.1 le_rfl (by unfold PGSIZE; omega)
  have hleaf : Leaf (perm ||| PTE_V) := ⟨Nat.or_lt_two_pow (n := 10) hperm (by decide), or_and_ne hr⟩
  have hnew : pa ∉ us.map Prod.fst := by
    intro hc
    obtain ⟨u, hu, rfl⟩ := mem_map.mp hc
    exact hn (h.space.pages u hu).1
  have honce : ((us ++ [(pa, perm ||| PTE_V)]).map Prod.fst).Nodup := by
    rw [map_append, nodup_append]
    refine ⟨h.space.once, nodup_singleton _, fun a ha b hb hab => hnew ?_⟩
    have hb' : b = pa := mem_singleton.mp hb
    rw [← hb', ← hab]
    exact ha
  refine (h.space.mapAt (us ++ [(pa, perm ||| PTE_V)]) tf tr {pa} he h.alloc h.sub hperm h.fits
    (page_lt hpage) (layout_end h.length_lt) (fun n => by rw [layout_snoc, hround]) (Finset.singleton_subset_iff.mpr hpa)
    (Finset.disjoint_singleton_left.mpr hn) (fun a => ?_) (fun u hu => ?_) honce).safe ?_
  · rw [map_append, mem_append, Finset.mem_singleton]
    exact or_congr Iff.rfl mem_singleton
  · rcases mem_append.mp hu with hu | hu
    · exact (h.space.pages u hu).2.2
    · obtain rfl := mem_singleton.mp hu
      exact hleaf
  · rintro ok t ⟨used', own', hf, hmem, h1, h2⟩
    refine ⟨used', own', hf, fun u hu x hx => ?_, fun hc => ?_, h2⟩
    · obtain ⟨g1, g2, -⟩ := h.space.pages u hu
      rw [← hx] at g1 g2
      exact hmem x (h.sub g1) g2
    · rw [Finset.insert_eq, Finset.union_comm]
      exact h1 hc

theorem unmapUser (hq : q ≤ us.length) :
    Runs (uvmunmap e root (q * PGSIZE) (us.length - q) true) s
      (fun _ t => ∃ used' own', Framed e s used own t used' own' ∧ Kept s.mem t.mem (us.take q) ∧
        UserSpace t.mem root own' (us.take q) tf tr) (fun _ => False) := by
  have hget : ∀ k < us.length - q, layout us tf tr (q + k) = us[q + k]? := fun k hk => layout_user (by omega)
  have hnd := h.space.once
  have hidx : ∀ (i j : Nat) (u v : Nat × Nat), us[i]? = some u → us[j]? = some v → u.1 = v.1 → i = j := by
    intro i j u v hi hj huv
    have h1 : (us.map Prod.fst)[i]? = some u.1 := by rw [getElem?_map, hi]; rfl
    have h2 : (us.map Prod.fst)[j]? = some u.1 := by rw [List.getElem?_map, hj, huv]; rfl
    have hlt : i < (us.map Prod.fst).length := (List.getElem?_eq_some_iff.mp h1).1
    exact (List.getElem?_inj hlt hnd).mp (h1.trans h2.symm)
  refine (h.space.unmapAt (us.take q) tf tr he h.alloc h.sub ?_ ?_ ?_
    (fun k => layout_take h.length_lt hq) ?_ ?_ ?_).safe ?_
  · have := h.fits
    rw [← add_mul]
    have : q + (us.length - q) = us.length := by omega
    rw [this]
    omega
  · intro k hk
    have hlt : q + k < us.length := by omega
    obtain ⟨h1, h2, h3⟩ := h.space.pages _ (getElem_mem hlt)
    exact ⟨us[q + k].1, us[q + k].2, by rw [hget k hk, getElem?_eq_getElem hlt], h3, fun _ => ⟨h1, h2⟩⟩
  · intro _ k k' pa fl fl' hk hk' h1 h2
    rw [hget k hk] at h1
    rw [hget k' hk'] at h2
    have := hidx _ _ _ _ h1 h2 rfl
    omega
  · intro u hu
    refine ⟨mem_of_mem_take hu, fun _ k hk fl hc => ?_⟩
    rw [hget k hk] at hc
    obtain ⟨i, hi⟩ := mem_iff_getElem?.mp hu
    have hiq : i < q := by
      have := (List.getElem?_eq_some_iff.mp hi).1
      rw [List.length_take] at this
      omega
    rw [getElem?_take_of_lt hiq] at hi
    have := hidx _ _ _ _ hi hc rfl
    omega
  · intro u hu
    obtain ⟨i, hi⟩ := List.mem_iff_getElem?.mp hu
    have hlt : i < us.length := (List.getElem?_eq_some_iff.mp hi).1
    by_cases hiq : i < q
    · rw [← getElem?_take_of_lt hiq] at hi
      exact .inl (mem_map_of_mem (mem_of_getElem? hi))
    · refine .inr ⟨rfl, i - q, by omega, u.2, ?_⟩
      rw [hget _ (by omega), Nat.add_sub_cancel' (by omega), hi]
  · rw [map_take]
    exact hnd.sublist (take_sublist _ _)
  · rintro _ t ⟨used', own', hf, -, -, -, hmem, hsp⟩
    refine ⟨used', own', hf, fun u hu x hx => ?_, hsp⟩
    have h1 := (hsp.pages u hu).1
    have h2 := (h.space.pages u (mem_of_mem_take hu)).2.1
    rw [← hx] at h1 h2
    exact hmem x h1 h2

theorem mapTop {tf' tr' : Option Nat} (hperm : perm < 1024)
    (hq : q * PGSIZE + PGSIZE ≤ MAXVA) (hpa : pa < 2 ^ 64) (hal : pa % PGSIZE = 0) (hfree : layout us tf tr q = none)
    (hmap : ∀ n, layout us tf' tr' n = if n = q then some (pa, perm ||| PTE_V) else layout us tf tr n) :
    Runs (mappages root (q * PGSIZE) PGSIZE pa perm) s
      (fun ok t => ∃ used' own', Framed e s used own t used' own' ∧
        (ok = true → UserSpace t.mem root own' us tf' tr') ∧ (ok = false → UserSpace t.mem root own' us tf tr))
      (fun _ => False) := by
  have hround : pgRoundDown pa = pa := round_of_page hal le_rfl (by unfold PGSIZE; omega)
  refine (h.space.mapAt us tf' tr' ∅ he h.alloc h.sub hperm hq hpa hfree (fun n => by rw [hmap, hround])
    (Finset.empty_subset _) (Finset.disjoint_empty_left _) (fun a => by simp) (fun u hu => (h.space.pages u hu).2.2)
    h.space.once).safe ?_
  rintro ok t ⟨used', own', hf, -, h1, h2⟩
  rw [Finset.union_empty] at h1
  exact ⟨used', own', hf, h1, h2⟩

theorem unmapTop {tf' tr' : Option Nat} {fl : Nat}
    (hq : q * PGSIZE + PGSIZE ≤ MAXVA) (hat : layout us tf tr q = some (pa, fl)) (hfl : Leaf fl)
    (hmap : ∀ n, layout us tf' tr' n = if n = q then none else layout us tf tr n) :
    Runs (uvmunmap e root (q * PGSIZE) 1 false) s
      (fun _ t => ∃ used', Framed e s used own t used' own ∧ UserSpace t.mem root own us tf' tr') (fun _ => False) := by
  have hone : q * PGSIZE + 1 * PGSIZE ≤ MAXVA := by rwa [one_mul]
  have hkeep : ∀ {P : Prop}, false = true → P := fun hc => absurd hc Bool.false_ne_true
  refine (h.space.unmapAt us tf' tr' he h.alloc h.sub hone (fun k hk => ?_) hkeep (fun k => ?_)
    (fun u hu => ⟨hu, hkeep⟩) (fun u hu => .inl (mem_map_of_mem hu)) h.space.once).safe ?_
  · obtain rfl : k = 0 := by omega
    exact ⟨pa, fl, hat, hfl, hkeep⟩
  · rw [hmap]
    by_cases hk : k = q
    · rw [if_pos hk, if_pos ⟨by omega, by omega⟩]
    · rw [if_neg hk, if_neg (by omega)]
  · rintro _ t ⟨used', own', hf, -, hown, -, -, hsp⟩
    rw [hown rfl] at hf hsp
    exact ⟨used', hf, hsp⟩

end

end At

end Assertions

section Freeing

variable {p : Nat}

theorem layout_tr (hlen : us.length < TRAPFRAME / PGSIZE) (tr tr' : Option Nat) : layout us tf tr' n =
    if n = TRAMPOLINE / PGSIZE then tr'.map (fun pa => (pa, PTE_R ||| PTE_X ||| PTE_V)) else layout us tf tr n := by
  have hT : TRAPFRAME / PGSIZE < TRAMPOLINE / PGSIZE := by decide
  unfold layout
  by_cases hn : n = TRAMPOLINE / PGSIZE
  · have h1 : ¬ n < us.length := by omega
    have h2 : n ≠ TRAPFRAME / PGSIZE := by omega
    rw [if_pos hn, if_neg h1, if_neg h2, if_pos hn]
  · rw [if_neg hn, if_neg hn, if_neg hn]

theorem layout_tf (hlen : us.length < TRAPFRAME / PGSIZE) (tf tf' : Option Nat) : layout us tf' tr n =
    if n = TRAPFRAME / PGSIZE then tf'.map (fun pa => (pa, PTE_R ||| PTE_W ||| PTE_V)) else layout us tf tr n := by
  unfold layout
  by_cases hn : n = TRAPFRAME / PGSIZE
  · have h1 : ¬ n < us.length := by omega
    rw [if_pos hn, if_neg h1, if_pos hn]
  · rw [if_neg hn, if_neg hn, if_neg hn]

theorem leaf_tr : Leaf (PTE_R ||| PTE_X ||| PTE_V) := ⟨by decide, by decide⟩

theorem leaf_tf : Leaf (PTE_R ||| PTE_W ||| PTE_V) := ⟨by decide, by decide⟩

theorem uvmfree_spec (he : 0 < e) (h : At e s used own root us none none) (hz : Sized sz us) :
    Runs (uvmfree e root sz) s (fun _ t => ∃ used', Framed e s used own t used' ∅) (fun _ => False) := by
  have hround := h.round hz
  have hempty : Runs (when (0 < sz) (uvmunmap e root 0 (pgRoundUp sz / PGSIZE) true)) s
      (fun _ t => ∃ used' own', Framed e s used own t used' own' ∧ UserSpace t.mem root own' [] none none)
      (fun _ => False) := by
    refine runs_when.mpr ⟨fun _ => ?_, fun h0 => ?_⟩
    · rw [hround, Nat.mul_div_cancel _ (by decide)]
      have := h.unmapUser he (Nat.zero_le us.length)
      rw [Nat.zero_mul, Nat.sub_zero] at this
      refine this.safe ?_
      rintro _ t ⟨used', own', hf, -, hsp⟩
      rw [take_zero] at hsp
      exact ⟨used', own', hf, hsp⟩
    · obtain rfl : us = [] := by
        obtain ⟨-, h2⟩ := hz
        refine eq_nil_of_length_eq_zero ?_
        unfold PGSIZE at h2
        omega
      exact ⟨used, own, Framed.refl h.alloc h.sub, h.space⟩
  refine runs_bind.mpr (hempty.safe ?_)
  rintro _ t ⟨used', kept, hf, hsp⟩
  have hw : Walkable t.mem 3 root (below t.mem root kept []) :=
    walkable_of_empty hsp.tree (fun va hva => (hsp.map va hva).trans (layout_nil _)) rfl (by omega) rfl
  -- All pages that are left are tables.
  have htabs : below t.mem root kept [] = kept := by
    refine Finset.Subset.antisymm (fun a ha => (mem_below.mp ha).1) (fun a ha => ?_)
    obtain ⟨p, hp, hpa⟩ := (hsp.all a ha).resolve_right not_mem_nil
    exact mem_below.mpr ⟨ha, p, by rwa [append_nil], by rwa [append_nil]⟩
  rw [htabs] at hw
  refine (freewalk_spec he hf.alloc hf.sub hw).safe ?_
  rintro _ t' ⟨used'', hf'⟩
  exact ⟨used'', hf.trans hf'⟩

variable {ly : Layout}

theorem TRAMPOLINE_eq : TRAMPOLINE = TRAMPOLINE / PGSIZE * PGSIZE := by decide

theorem TRAPFRAME_eq : TRAPFRAME = TRAPFRAME / PGSIZE * PGSIZE := by decide

theorem TRAMPOLINE_le : TRAMPOLINE / PGSIZE * PGSIZE + PGSIZE ≤ MAXVA := by decide

theorem TRAPFRAME_le : TRAPFRAME / PGSIZE * PGSIZE + PGSIZE ≤ MAXVA := by decide

namespace At

theorem mapTrampoline (he : 0 < e) (h : At e s used own root us tf none) (ha : a < 2 ^ 64) (hal : a % PGSIZE = 0) :
    Runs (mappages root TRAMPOLINE PGSIZE a (PTE_R ||| PTE_X)) s
      (fun ok t => ∃ used' own', Framed e s used own t used' own' ∧
        (ok = true → UserSpace t.mem root own' us tf (some a)) ∧ (ok = false → UserSpace t.mem root own' us tf none))
      (fun _ => False) := by
  rw [TRAMPOLINE_eq]
  have hfree : layout us tf none (TRAMPOLINE / PGSIZE) = none := (layout_tr h.length_lt none none).trans (if_pos rfl)
  exact h.mapTop he (by decide) TRAMPOLINE_le ha hal hfree (fun n => layout_tr h.length_lt none (some a))

theorem mapTrapframe (he : 0 < e) (h : At e s used own root us none tr) (ha : a < 2 ^ 64) (hal : a % PGSIZE = 0) :
    Runs (mappages root TRAPFRAME PGSIZE a (PTE_R ||| PTE_W)) s
      (fun ok t => ∃ used' own', Framed e s used own t used' own' ∧
        (ok = true → UserSpace t.mem root own' us (some a) tr) ∧ (ok = false → UserSpace t.mem root own' us none tr))
      (fun _ => False) := by
  rw [TRAPFRAME_eq]
  have hfree : layout us none tr (TRAPFRAME / PGSIZE) = none := (layout_tf h.length_lt none none).trans (if_pos rfl)
  exact h.mapTop he (by decide) TRAPFRAME_le ha hal hfree (fun n => layout_tf h.length_lt none (some a))

theorem unmapTrampoline (he : 0 < e) (h : At e s used own root us tf (some a)) :
    Runs (uvmunmap e root TRAMPOLINE 1 false) s
      (fun _ t => ∃ used', Framed e s used own t used' own ∧ UserSpace t.mem root own us tf none) (fun _ => False) := by
  rw [TRAMPOLINE_eq]
  have hat : layout us tf (some a) (TRAMPOLINE / PGSIZE) = some (a, PTE_R ||| PTE_X ||| PTE_V) :=
    (layout_tr h.length_lt none (some a)).trans (if_pos rfl)
  exact h.unmapTop he TRAMPOLINE_le hat leaf_tr (fun n => layout_tr h.length_lt (some a) none)

theorem unmapTrapframe (he : 0 < e) (h : At e s used own root us (some a) tr) :
    Runs (uvmunmap e root TRAPFRAME 1 false) s
      (fun _ t => ∃ used', Framed e s used own t used' own ∧ UserSpace t.mem root own us none tr) (fun _ => False) := by
  rw [TRAPFRAME_eq]
  have hat : layout us (some a) tr (TRAPFRAME / PGSIZE) = some (a, PTE_R ||| PTE_W ||| PTE_V) :=
    (layout_tf h.length_lt none (some a)).trans (if_pos rfl)
  exact h.unmapTop he TRAPFRAME_le hat leaf_tf (fun n => layout_tf h.length_lt (some a) none)

end At

theorem procFreepagetable_spec (h : At ly.stop s used own root us (some a) (some n)) (hz : Sized sz us) :
    Runs (procFreepagetable ly root sz) s (fun _ t => ∃ used', Framed ly.stop s used own t used' ∅) (fun _ => False) := by
  refine runs_bind.mpr ((h.unmapTrampoline ly.pos).safe ?_)
  rintro _ s1 ⟨used1, hf1, hs1⟩
  refine runs_bind.mpr (((hf1.at hs1).unmapTrapframe ly.pos).safe ?_)
  rintro _ s2 ⟨used2, hf2, hs2⟩
  refine (uvmfree_spec ly.pos (hf2.at hs2) hz).safe ?_
  rintro _ s3 ⟨used3, hf3⟩
  exact ⟨used3, hf1.trans (hf2.trans hf3)⟩

theorem uvmcreate_spec (he : 0 < e) (h : Alloc e s used) :
    Runs uvmcreate s (fun r t => (r = 0 ∧ Framed e s used ∅ t used ∅) ∨
      (r ≠ 0 ∧ ∃ used', Framed e s used ∅ t used' {r} ∧ UserSpace t.mem r {r} [] none none)) (fun _ => False) := by
  change _ ∨ _
  rcases Vm.uvmcreate_spec he h with ⟨h0, hmem, ha⟩ | ⟨h0, hn, ha, htree, htab, hnone, hmem⟩
  · exact .inl ⟨h0, ha, Finset.empty_subset _, fun _ hu _ => hu, fun _ => .inl,
      fun a hu => .inr ⟨hu, Finset.notMem_empty a⟩, fun x _ _ => congrFun hmem x⟩
  · refine .inr ⟨h0, _, ⟨ha, ?_, fun a hu _ => Finset.mem_insert_of_mem hu, fun a ho => ?_, fun a hu => ?_, fun x hu _ => ?_⟩,
      ⟨htree.tree, fun a hat => ?_, htree.inner⟩, fun va _ => ?_, fun u hu => (nomatch hu), nodup_nil, fun a ho => ?_⟩
    · exact Finset.singleton_subset_iff.mpr (Finset.mem_insert_self _ _)
    · exact .inr (Finset.mem_singleton.mp ho ▸ hn)
    · exact (Finset.mem_insert.mp hu).imp Finset.mem_singleton.mpr (fun hu => ⟨hu, Finset.notMem_empty a⟩)
    · exact hmem x (fun hc => hn (hc ▸ hu))
    · exact Finset.mem_singleton.mpr (htab a hat)
    · exact (hnone va).trans (layout_nil _).symm
    · rw [Finset.mem_singleton.mp ho]
      exact .inl ⟨[], by decide, rfl⟩

theorem sized_nil : Sized 0 [] := ⟨Nat.zero_le _, by decide⟩

theorem Layout.trampoline_lt (ly : Layout) : ly.trampoline < 2 ^ 64 := by
  have := ly.le
  have := ly.code
  have : PHYSTOP < 2 ^ 64 := by decide
  omega

/-- A page table with the trampoline and the trapframe, or none and no page is lost. -/
theorem procPagetable_spec (h : Alloc ly.stop s used) (ha : a < 2 ^ 64) (hal : a % PGSIZE = 0) :
    Runs (procPagetable ly a) s (fun r t => (r = 0 ∧ ∃ used', Framed ly.stop s used ∅ t used' ∅) ∨
      (r ≠ 0 ∧ ∃ used' own', Framed ly.stop s used ∅ t used' own' ∧
        UserSpace t.mem r own' [] (some a) (some ly.trampoline))) (fun _ => False) := by
  refine runs_bind.mpr ((uvmcreate_spec ly.pos h).safe ?_)
  rintro r s1 (⟨h0, hf⟩ | ⟨h0, used1, hf1, hs1⟩)
  · rw [if_pos h0]
    exact .inl ⟨rfl, used, hf⟩
  rw [if_neg h0]
  refine runs_bind.mpr (((hf1.at hs1).mapTrampoline ly.pos ly.trampoline_lt ly.aligned).safe ?_)
  rintro ok s2 ⟨used2, own2, hf2, hok, hfail⟩
  refine runs_ite.mpr ⟨fun hc => ?_, fun hc => ?_⟩
  · refine runs_bind.mpr ((uvmfree_spec ly.pos (hf2.at (hfail hc)) sized_nil).safe ?_)
    rintro _ s3 ⟨used3, hf3⟩
    exact .inl ⟨rfl, used3, hf1.trans (hf2.trans hf3)⟩
  have hs2 := hok (Bool.eq_true_of_not_eq_false hc)
  refine runs_bind.mpr (((hf2.at hs2).mapTrapframe ly.pos ha hal).safe ?_)
  rintro ok s3 ⟨used3, own3, hf3, hok3, hfail3⟩
  refine runs_ite.mpr ⟨fun hc => ?_, fun hc => ?_⟩
  · refine runs_bind.mpr (((hf3.at (hfail3 hc)).unmapTrampoline ly.pos).safe ?_)
    rintro _ s4 ⟨used4, hf4, hs4⟩
    refine runs_bind.mpr ((uvmfree_spec ly.pos (hf4.at hs4) sized_nil).safe ?_)
    rintro _ s5 ⟨used5, hf5⟩
    exact .inl ⟨rfl, used5, hf1.trans (hf2.trans (hf3.trans (hf4.trans hf5)))⟩
  · exact .inr ⟨h0, used3, own3, hf1.trans (hf2.trans hf3), hok3 (Bool.eq_true_of_not_eq_false hc)⟩

end Freeing

section Sizes

variable {oldsz newsz xperm j : Nat}

theorem sized_mul (us : List (Nat × Nat)) : Sized (us.length * PGSIZE) us := ⟨le_rfl, by unfold PGSIZE; omega⟩

theorem Sized.le (h : Sized sz us) : sz ≤ us.length * PGSIZE := h.1

theorem uvmdealloc_spec (he : 0 < e) (h : At e s used own root us tf tr) (hz : Sized oldsz us) :
    Runs (uvmdealloc e root oldsz newsz) s (fun r t => r = min oldsz newsz ∧ ∃ used' own' q,
      Framed e s used own t used' own' ∧ Kept s.mem t.mem (us.take q) ∧ UserSpace t.mem root own' (us.take q) tf tr ∧
        Sized r (us.take q) ∧ pgRoundUp r = q * PGSIZE) (fun _ => False) := by
  have hround := h.round hz
  refine runs_ite.mpr ⟨fun hle => ?_, fun hlt => ?_⟩
  · refine ⟨(min_eq_left hle).symm, used, own, us.length, Framed.refl h.alloc h.sub, Kept.refl _ _, ?_, ?_, hround⟩
    · rw [take_length]
      exact h.space
    · rw [take_length]
      exact hz
  · have hstop := h.le_stop
    have hle := hz.le
    obtain ⟨q, hq⟩ : ∃ q, pgRoundUp newsz = q * PGSIZE := ⟨_, pgRoundUp_eq (by omega)⟩
    have hnew : newsz ≤ q * PGSIZE ∧ q * PGSIZE < newsz + PGSIZE := by
      rw [← hq, pgRoundUp_eq (by omega)]
      unfold PGSIZE
      omega
    have hql : q ≤ us.length := by
      obtain ⟨-, h2⟩ := hz
      unfold PGSIZE at *
      omega
    have hsize : Sized newsz (us.take q) := by
      rw [Sized, length_take, min_eq_left hql]
      exact hnew
    have hmin : newsz = min oldsz newsz := by omega
    rw [hround, hq]
    refine runs_bind.mpr (runs_when.mpr ⟨fun _ => ?_, fun hge => ?_⟩)
    · have hn : (us.length * PGSIZE - q * PGSIZE) / PGSIZE = us.length - q := by
        rw [← Nat.sub_mul, Nat.mul_div_cancel _ (by decide)]
      rw [hn]
      refine (h.unmapUser he hql).safe ?_
      rintro _ t ⟨used', own', hf, hk, hsp⟩
      exact ⟨hmin, used', own', q, hf, hk, hsp, hsize, hq⟩
    · have hall : us.take q = us := by
        refine take_of_length_le ?_
        unfold PGSIZE at hge
        omega
      refine ⟨hmin, used, own, q, Framed.refl h.alloc h.sub, Kept.refl _ _, ?_, hsize, hq⟩
      rw [hall]
      exact h.space

theorem uvmdealloc_pages (he : 0 < e) (h : At e s used own root us tf tr) (hj : j ≤ us.length) :
    Runs (uvmdealloc e root (us.length * PGSIZE) (j * PGSIZE)) s (fun _ t => ∃ used' own',
      Framed e s used own t used' own' ∧ Kept s.mem t.mem (us.take j) ∧ UserSpace t.mem root own' (us.take j) tf tr)
      (fun _ => False) := by
  refine (uvmdealloc_spec he h (sized_mul us)).safe ?_
  rintro r t ⟨hr, used', own', q, hf, hk, hsp, -, hq⟩
  have hr' : r = j * PGSIZE := by
    rw [hr]
    exact min_eq_right (Nat.mul_le_mul_right _ hj)
  have hle : j * PGSIZE ≤ PHYSTOP := (Nat.mul_le_mul_right _ hj).trans h.le_stop
  have hqj : q = j := by
    rw [hr', pgRoundUp_eq hle] at hq
    unfold PGSIZE at hq
    omega
  rw [hqj] at hsp hk
  exact ⟨used', own', hf, hk, hsp⟩

theorem outside {x : Nat} (hpa : pa % PGSIZE = 0) (h : pgRoundDown x ≠ pa) (hn : n ≤ PGSIZE) : ¬ (pa ≤ x ∧ x < pa + n) :=
  fun hc => h (round_of_page hpa hc.1 (by omega))

theorem At.addPage {α : Type} {f : Nat → Mem → Mem} {Q : α → Machine → Prop} {E : Halt → Prop} {fail cont : V α} (he : 0 < e)
    (h : At e s used own root us tf tr) (hperm : perm < 1024) (hr : perm &&& PTE_R ≠ 0)
    (hf : ∀ pa m x, pa % PGSIZE = 0 → pgRoundDown x ≠ pa → f pa m x = m x)
    (hfail : ∀ t used' own', Framed e s used own t used' own' → Kept s.mem t.mem us → UserSpace t.mem root own' us tf tr →
      Runs fail t Q E)
    (hcont : ∀ t used' own' pa m, pa ∉ used → Framed e s used own t used' own' → Kept s.mem t.mem us →
      (∀ x, pgRoundDown x ∈ used → m x = s.mem x) → (∀ x, pgRoundDown x = pa → t.mem x = f pa m x) →
      UserSpace t.mem root own' (us ++ [(pa, perm ||| PTE_V)]) tf tr → Runs cont t Q E) :
    Runs (do
      let mem ← kalloc
      if mem = 0 then fail
      else do
        Space.poke (f mem)
        let ok ← mappages root (us.length * PGSIZE) PGSIZE mem perm
        if ok = true then cont
        else do
          kfree e mem
          fail) s Q E := by
  refine runs_bind.mpr ((newPage he h.alloc).safe ?_)
  have hempty : Disjoint own ∅ := Finset.disjoint_empty_right _
  rintro pa s1 (⟨h0, hf1⟩ | ⟨h0, hpa, hal, hf1⟩)
  · obtain ⟨hat1, hk1⟩ := h.frame hf1 hempty
    have hfr := hf1.frame h.sub hempty
    rw [Finset.empty_union] at hfr
    rw [if_pos h0]
    exact hfail s1 used own hfr hk1 hat1.space
  obtain ⟨hat1, hk1⟩ := h.frame hf1 hempty
  have hn : pa ∉ own := fun hc => hpa (h.sub hc)
  have hd : Disjoint own {pa} := Finset.disjoint_singleton_right.mpr hn
  have hself := Finset.mem_insert_self pa used
  have hw : Framed e s1 (insert pa used) {pa} (s1.setMem (f pa s1.mem)) (insert pa used) {pa} :=
    Framed.write hf1.alloc hf1.sub (fun x hx => hf pa s1.mem x hal (fun hc => hx (Finset.mem_singleton.mpr hc)))
  obtain ⟨hat2, hk2⟩ := hat1.frame hw hd
  have hfr2 := (hf1.trans hw).frame h.sub hempty
  rw [Finset.empty_union] at hfr2
  rw [if_neg h0]
  refine runs_bind.mpr (runs_alter.mpr (runs_bind.mpr ((hat2.mapUser he hself hn hperm hr).safe ?_)))
  rintro ok s3 ⟨used3, own3, hf3, hk3, hok, hbad⟩
  have hk := hk1.trans (hk2.trans hk3)
  have hin : {pa} ⊆ insert pa used := Finset.singleton_subset_iff.mpr hself
  have hfr3 := hf3.frame hin hd.symm
  rw [Finset.union_comm own] at hfr3
  refine runs_ite.mpr ⟨fun hc => ?_, fun hc => ?_⟩
  · refine hcont s3 used3 _ pa s1.mem hpa (hfr2.trans hfr3) hk (fun x hx => ?_) (fun x hx => ?_) ?_
    · exact hf1.mem x hx (Finset.notMem_empty _)
    · exact hf3.mem x (hx ▸ hself) (hx ▸ hn)
    · rw [Finset.union_comm, ← Finset.insert_eq]
      exact hok hc
  · have hn3 : pa ∉ own3 := Finset.disjoint_singleton_left.mp (hf3.apart hin hd.symm)
    have hd3 : Disjoint own3 {pa} := Finset.disjoint_singleton_right.mpr hn3
    refine runs_bind.mpr ((kfree_spec he hf3.alloc (hf3.rest_sub hin hd.symm) (Finset.mem_singleton_self pa)).safe ?_)
    rintro _ s4 ⟨hf4, -⟩
    obtain ⟨hat4, hk4⟩ := (hf3.at (hbad (Bool.eq_false_of_not_eq_true hc))).frame hf4 hd3
    have hfr4 := hf4.frame hf3.sub hd3
    rw [Finset.union_comm {pa}, Finset.erase_singleton, Finset.empty_union] at hfr4
    exact hfail s4 _ own3 (hfr2.trans (hfr3.trans hfr4)) (hk.trans hk4) hat4.space

def Fresh (m : Mem) (fl : Nat) (new : List (Nat × Nat)) : Prop := ∀ u ∈ new, u.2 = fl ∧ ∀ x, pgRoundDown x = u.1 → m x = 0

theorem Fresh.kept {fl : Nat} (h : Fresh m fl us) (hk : Kept m m' us) : Fresh m' fl us := fun u hu =>
  ⟨(h u hu).1, fun x hx => (hk u hu x hx).trans ((h u hu).2 x hx)⟩

theorem uvmallocLoop_spec (newsz fuel : Nat) {old new : List (Nat × Nat)} (he : 0 < e) (h : At e s used own root (old ++ new) tf tr)
    (hx : xperm < 1024) (hzero : Fresh s.mem (PTE_R ||| PTE_U ||| xperm ||| PTE_V) new)
    (hnew : (old ++ new).length * PGSIZE < newsz + PGSIZE) (hfuel : PHYSTOP / PGSIZE < (old ++ new).length + fuel) :
    Runs (uvmallocLoop e root (old.length * PGSIZE) newsz xperm fuel ((old ++ new).length * PGSIZE)) s
      (fun r t => ∃ used' own' new', Framed e s used own t used' own' ∧ Kept s.mem t.mem old ∧
        Fresh t.mem (PTE_R ||| PTE_U ||| xperm ||| PTE_V) new' ∧ UserSpace t.mem root own' (old ++ new') tf tr ∧
        (r = 0 ∧ new' = [] ∨ r = newsz ∧ Sized newsz (old ++ new'))) (fun _ => False) := by
  induction fuel generalizing s used own new with
  | zero =>
    have := h.length_le
    omega
  | succ fuel ih =>
    have hperm : PTE_R ||| PTE_U ||| xperm < 1024 := Nat.or_lt_two_pow (n := 10) (by decide) hx
    have hR : (PTE_R ||| PTE_U ||| xperm) &&& PTE_R ≠ 0 := or_and_ne (by decide)
    have hold : old ⊆ old ++ new := subset_append_left _ _
    rw [uvmallocLoop]
    refine runs_ite.mpr ⟨fun hlt => ?_, fun hge => ?_⟩
    · refine h.addPage (f := fun pa m => fill m pa 0 PGSIZE) he hperm hR
        (fun pa m x hal hne => if_neg (outside hal hne le_rfl)) ?_ ?_
      · intro t used' own' hf hk hs
        refine runs_bind.mpr ((uvmdealloc_pages (j := old.length) he (hf.at hs) (by simp)).safe ?_)
        rintro _ t' ⟨used'', own'', hf', hk', hs'⟩
        rw [take_left] at hk' hs'
        refine ⟨used'', own'', [], hf.trans hf', (hk.mono hold).trans hk', nofun, ?_, .inl ⟨rfl, rfl⟩⟩
        rwa [append_nil]
      · rintro t used' own' pa m - hf hk - hpage hs
        have hlen : (old ++ (new ++ [(pa, PTE_R ||| PTE_U ||| xperm ||| PTE_V)])).length = (old ++ new).length + 1 := by
          rw [← append_assoc, length_append, length_singleton]
        rw [append_assoc] at hs
        have hbound := (hf.at hs).le_stop
        rw [hlen] at hbound
        have hP : PHYSTOP < 2 ^ 64 := by decide
        have hnext : ((old ++ new).length * PGSIZE + PGSIZE) % 2 ^ 64 =
            (old ++ (new ++ [(pa, PTE_R ||| PTE_U ||| xperm ||| PTE_V)])).length * PGSIZE := by
          rw [hlen, add_mul, one_mul, Nat.mod_eq_of_lt]
          rw [add_mul, one_mul] at hbound
          omega
        have hzero' : Fresh t.mem (PTE_R ||| PTE_U ||| xperm ||| PTE_V) (new ++ [(pa, PTE_R ||| PTE_U ||| xperm ||| PTE_V)]) := by
          intro u hu
          rcases mem_append.mp hu with hu | hu
          · exact (hzero.kept (hk.mono (subset_append_right _ _))) u hu
          · obtain rfl := mem_singleton.mp hu
            refine ⟨rfl, fun x hx => ?_⟩
            rw [hpage x hx]
            exact if_pos (page_of_round hx)
        rw [hnext]
        refine (ih (hf.at hs) hzero' (by rw [hlen, add_mul, one_mul]; omega) (by omega)).safe ?_
        rintro r t' ⟨used'', own'', new', hf', hk', hrest⟩
        exact ⟨used'', own'', new', hf.trans hf', (hk.mono hold).trans hk', hrest⟩
    · exact ⟨used, own, new, Framed.refl h.alloc h.sub, Kept.refl _ _, hzero, h.space, .inr ⟨rfl, by omega, hnew⟩⟩

theorem uvmalloc_spec (he : 0 < e) (h : At e s used own root us tf tr) (hz : Sized oldsz us) (hx : xperm < 1024) :
    Runs (uvmalloc e root oldsz newsz xperm) s
      (fun r t => ∃ used' own' new, Framed e s used own t used' own' ∧ Kept s.mem t.mem us ∧
        Fresh t.mem (PTE_R ||| PTE_U ||| xperm ||| PTE_V) new ∧ UserSpace t.mem root own' (us ++ new) tf tr ∧
        (r = 0 ∧ new = [] ∨ r = max oldsz newsz ∧ Sized r (us ++ new))) (fun _ => False) := by
  have hat : At e s used own root (us ++ []) tf tr := by rwa [append_nil]
  refine runs_ite.mpr ⟨fun hlt => ?_, fun hge => ?_⟩
  · refine ⟨used, own, [], Framed.refl h.alloc h.sub, Kept.refl _ _, nofun, hat.space, .inr ⟨by omega, ?_⟩⟩
    rwa [append_nil]
  · rw [h.round hz]
    obtain ⟨h1, h2⟩ := hz
    have hrun := uvmallocLoop_spec newsz (PHYSTOP / PGSIZE + 2) he hat hx nofun
      (by rw [append_nil]; omega) (by omega)
    rw [append_nil] at hrun
    refine hrun.safe ?_
    rintro r t ⟨used', own', new, hf, hk, hzero, hs, hr⟩
    refine ⟨used', own', new, hf, hk, hzero, hs, hr.imp id ?_⟩
    rintro ⟨rfl, hz'⟩
    exact ⟨by omega, hz'⟩

end Sizes

end Xv6Rcu.Space

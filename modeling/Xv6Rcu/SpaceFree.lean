import Xv6Rcu.SpaceFrame

namespace Xv6Rcu.Space

open Exec Memory Kalloc Radix Vm List Option Finset

variable {e : Nat} {s s' : Machine} {used used' own own' : Finset Nat} {m m' : Mem} {root t l : Nat}
  {us : List (Nat × Nat)} {tf tr : Option Nat}

section Walkable

/-- A page table of `l` levels without a leaf; the pages below its entries are apart, and there are no others. -/
def Walkable (m : Mem) : Nat → Nat → Finset Nat → Prop
  | 0, _, _ => False
  | l + 1, t, own => t ∈ own ∧ ∃ sub : Fin 512 → Finset Nat, (∀ i, sub i ⊆ own ∧ t ∉ sub i) ∧
      (∀ i j, i ≠ j → Disjoint (sub i) (sub j)) ∧
      (∀ a ∈ own, a = t ∨ ∃ i, a ∈ sub i ∧ tab m t i &&& PTE_V ≠ 0) ∧
      ∀ i, tab m t i &&& PTE_V ≠ 0 →
        tab m t i &&& (PTE_R ||| PTE_W ||| PTE_X) = 0 ∧ Walkable m l (pte2pa (tab m t i)) (sub i)

theorem tab_of_page (ht : t % PGSIZE = 0) (h : ∀ x, pgRoundDown x = t → m' x = m x) (i : Fin 512) :
    tab m' t i = tab m t i := tab_congr (fun x hx hlt => h x (round_of_page ht hx hlt)) i

theorem Walkable.congr (h : Walkable m l t own) (ha : ∀ a ∈ own, a % PGSIZE = 0)
    (hm : ∀ x, pgRoundDown x ∈ own → m' x = m x) : Walkable m' l t own := by
  induction l generalizing t own with
  | zero => exact h.elim
  | succ l ih =>
    obtain ⟨ht, sub, hsub, hdis, hall, hent⟩ := h
    have heq : ∀ i, tab m' t i = tab m t i := tab_of_page (ha t ht) (fun x hx => hm x (hx ▸ ht))
    refine ⟨ht, sub, hsub, hdis, fun a hao => ?_, fun i hv => ?_⟩
    · simp only [heq]
      exact hall a hao
    rw [heq] at hv ⊢
    obtain ⟨hl, hw⟩ := hent i hv
    exact ⟨hl, ih hw (fun a hs => ha a ((hsub i).1 hs)) (fun x hx => hm x ((hsub i).1 hx))⟩

structure Freeing (e : Nat) (s : Machine) (used own : Finset Nat) (t : Nat) (sub : Fin 512 → Finset Nat) (i : Nat)
    (s' : Machine) (used' own' : Finset Nat) : Prop where
  framed : Framed e s used own s' used' own'
  self : t ∈ own'
  only : ∀ a ∈ own', a = t ∨ ∃ j : Fin 512, i ≤ j ∧ a ∈ sub j ∧ tab s.mem t j &&& PTE_V ≠ 0
  below : ∀ j : Fin 512, i ≤ j → sub j ⊆ own'
  entry : ∀ j : Fin 512, i ≤ j → tab s'.mem t j = tab s.mem t j
  mem : ∀ j : Fin 512, i ≤ j → ∀ x, pgRoundDown x ∈ sub j → s'.mem x = s.mem x

theorem freewalk_spec (he : 0 < e) (ha : Alloc e s used) (hs : own ⊆ used) (h : Walkable s.mem l t own) :
    Runs (freewalk e l t) s (fun _ s' => ∃ used', Framed e s used own s' used' ∅) (fun _ => False) := by
  induction l generalizing s used own t with
  | zero => exact h.elim
  | succ l ih =>
    obtain ⟨ht, sub, hsub, hdis, hall, hent⟩ := h
    have hpage : ∀ a ∈ own, a % PGSIZE = 0 := fun a hao => (ha.page (hs hao)).1
    have ht0 := hpage t ht
    unfold freewalk
    rw [runs_bind]
    have hloop : Runs (each (freewalkEntry (freewalk e l) t) 512) s
        (fun _ s' => ∃ used' own', Freeing e s used own t sub 512 s' used' own') (fun _ => False) := by
      refine Runs.each (fun i s' => ∃ used' own', Freeing e s used own t sub i s' used' own')
        ⟨used, own, Framed.refl ha hs, ht, fun a hao => (hall a hao).imp id (fun ⟨i, hi⟩ => ⟨i, Nat.zero_le _, hi⟩), fun j _ => (hsub j).1, fun _ _ => rfl, fun _ _ _ _ => rfl⟩ ?_
      rintro i hi s1 ⟨used1, own1, h1⟩
      have hal := h1.framed.alloc
      have hpte : load s1.mem (t + 8 * i) 8 = tab s.mem t ⟨i, hi⟩ := h1.entry ⟨i, hi⟩ le_rfl
      unfold freewalkEntry
      rw [runs_bind, runs_look]
      dsimp only
      rw [hpte, runs_ite]
      refine ⟨fun hv => ?_, fun hv => ?_⟩
      · obtain ⟨-, hw⟩ := hent ⟨i, hi⟩ hv.1
        have hw1 : Walkable s1.mem l (pte2pa (tab s.mem t ⟨i, hi⟩)) (sub ⟨i, hi⟩) :=
          hw.congr (fun a has => hpage a ((hsub _).1 has)) (h1.mem ⟨i, hi⟩ le_rfl)
        have hsubu := (h1.below ⟨i, hi⟩ le_rfl).trans h1.framed.sub
        rw [runs_bind]
        refine (ih hal hsubu hw1).safe ?_
        rintro _ s2 ⟨used2, h2⟩
        have hrest : own1 \ sub ⟨i, hi⟩ ⊆ used1 := sdiff_subset.trans h1.framed.sub
        have hd : Disjoint (own1 \ sub ⟨i, hi⟩) (sub ⟨i, hi⟩) := sdiff_disjoint
        have hf := h2.frame hrest hd
        rw [union_sdiff_of_subset (h1.below ⟨i, hi⟩ le_rfl), empty_union] at hf
        have hself : t ∈ own1 \ sub ⟨i, hi⟩ := mem_sdiff.mpr ⟨h1.self, (hsub _).2⟩
        have hkept : ∀ x, pgRoundDown x ∈ own1 \ sub ⟨i, hi⟩ → s2.mem x = s1.mem x := fun x hx =>
          h2.mem x (hrest hx) (mem_sdiff.mp hx).2
        have hw2 : Framed e s2 used2 (own1 \ sub ⟨i, hi⟩) (s2.setMem (store s2.mem (t + 8 * i) 0 8)) used2 (own1 \ sub ⟨i, hi⟩) := by
          refine Framed.write hf.alloc hf.sub (fun x hx => ?_)
          exact setEntry_of_round (i := ⟨i, hi⟩) ht0 (fun hc => hx (hc ▸ hself))
        have hbelow : ∀ j : Fin 512, i + 1 ≤ j → sub j ⊆ own1 \ sub ⟨i, hi⟩ := by
          intro j hj a haj
          refine mem_sdiff.mpr ⟨h1.below j (by omega) haj, fun hai => ?_⟩
          have hne : j ≠ ⟨i, hi⟩ := fun hc => by
            have := congrArg Fin.val hc
            dsimp only at this
            omega
          exact disjoint_left.mp (hdis j ⟨i, hi⟩ hne) haj hai
        refine ⟨used2, own1 \ sub ⟨i, hi⟩, (h1.framed.trans hf).trans hw2, hself, fun a hao => ?_, hbelow, fun j hj => ?_,
          fun j hj x hx => ?_⟩
        · obtain ⟨ha1, han⟩ := mem_sdiff.mp hao
          refine (h1.only a ha1).imp id ?_
          rintro ⟨j, hj, haj, hvj⟩
          refine ⟨j, Nat.lt_of_le_of_ne hj (fun hc => han ?_), haj, hvj⟩
          obtain rfl : j = ⟨i, hi⟩ := Fin.ext hc.symm
          exact haj
        · have hset : tab (setEntry s2.mem t ⟨i, hi⟩ 0) t j = tab s2.mem t j := by
            rw [tab_setEntry ht0 ht0, if_neg]
            rintro ⟨-, rfl⟩
            dsimp only at hj
            omega
          have hrec : tab s2.mem t j = tab s1.mem t j := tab_of_page ht0 (fun x hx => hkept x (hx ▸ hself)) j
          exact (hset.trans hrec).trans (h1.entry j (by omega))
        · have hx' := hbelow j hj hx
          have hxt : pgRoundDown x ≠ t := fun hc => (hsub j).2 (hc ▸ hx)
          exact ((setEntry_of_round (i := ⟨i, hi⟩) ht0 hxt).trans (hkept x hx')).trans (h1.mem j (by omega) x hx)
      · have hinv : tab s.mem t ⟨i, hi⟩ &&& PTE_V = 0 := by
          by_contra hc
          exact hv ⟨hc, (hent ⟨i, hi⟩ hc).1⟩
        rw [if_neg (fun hc => hc hinv), runs_pure]
        refine ⟨used1, own1, h1.framed, h1.self, fun a hao => (h1.only a hao).imp id ?_, fun j hj => h1.below j (by omega), fun j hj => h1.entry j (by omega),
          fun j hj => h1.mem j (by omega)⟩
        rintro ⟨j, hj, haj, hvj⟩
        refine ⟨j, Nat.lt_of_le_of_ne hj (fun hc => hvj ?_), haj, hvj⟩
        obtain rfl : j = ⟨i, hi⟩ := Fin.ext hc.symm
        exact hinv
    refine hloop.safe ?_
    rintro _ s1 ⟨used1, own1, h1⟩
    refine (kfree_spec he h1.framed.alloc h1.framed.sub h1.self).safe ?_
    rintro _ s2 ⟨h2, -⟩
    have hnone : own1.erase t = ∅ := by
      refine eq_empty_of_forall_notMem (fun a hae => ?_)
      obtain ⟨hne, hao⟩ := mem_erase.mp hae
      obtain ⟨j, hj, -⟩ := (h1.only a hao).resolve_left hne
      exact absurd j.isLt (by omega)
    rw [hnone] at h2
    exact ⟨_, h1.framed.trans h2⟩

end Walkable

section Tables

open Classical in
noncomputable def below (m : Mem) (root : Nat) (own : Finset Nat) (q : List (Fin 512)) : Finset Nat :=
  own.filter (fun a => ∃ p, (p ++ q).length < 3 ∧ table child (tab m) root (p ++ q) = some a)

theorem mem_below {q : List (Fin 512)} {a : Nat} : a ∈ below m root own q ↔
    a ∈ own ∧ ∃ p, (p ++ q).length < 3 ∧ table child (tab m) root (p ++ q) = some a := by
  simp only [below, Finset.mem_filter]

theorem exists_path (q : List (Fin 512)) (hq : q.length = 3) : ∃ va, va < TOPVA ∧ path va = q := by
  obtain ⟨i, j, k, rfl⟩ := length_eq_three.mp hq
  refine ⟨i * 2 ^ 12 + j * 2 ^ 21 + k * 2 ^ 30, ?_, ?_⟩
  · have := i.isLt
    have := j.isLt
    have := k.isLt
    unfold TOPVA
    omega
  · simp only [path, index, List.cons.injEq, and_true, Fin.ext_iff, px_eq]
    have := i.isLt
    have := j.isLt
    have := k.isLt
    refine ⟨?_, ?_, ?_⟩ <;> omega

theorem table_append {p q : List (Fin 512)} {a : Nat} (h : table child (tab m) root (p ++ q) = some a) :
    ∃ t, table child (tab m) root q = some t := by
  induction p generalizing a with
  | nil => exact ⟨a, h⟩
  | cons i p ih =>
    obtain ⟨t, ht, -⟩ := bind_eq_some_iff.mp h
    exact ih ht

theorem walkable_of_empty (h : PageTree m root own) (hnone : ∀ va, va < TOPVA → mapping m root va = none)
    {q : List (Fin 512)} (hq : q.length + l = 3) (hl : 0 < l) (ht : table child (tab m) root q = some t) :
    Walkable m l t (below m root own q) := by
  induction l generalizing q t with
  | zero => omega
  | succ l ih =>
    have hself : t ∈ below m root own q := mem_below.mpr ⟨h.tables t ⟨q, by omega, ht⟩, [], by simpa using by omega, ht⟩
    refine ⟨hself, fun i => below m root own (i :: q), fun i => ⟨fun a ha => ?_, fun ha => ?_⟩, fun i j hij => ?_,
      fun a ha => ?_, fun i hv => ?_⟩
    · obtain ⟨hao, p, hp, hpa⟩ := mem_below.mp ha
      refine mem_below.mpr ⟨hao, p ++ [i], ?_, ?_⟩
      · simpa using hp
      · simpa using hpa
    · obtain ⟨-, p, hp, hpa⟩ := mem_below.mp ha
      have := h.tree _ _ _ (by omega) hp ht hpa
      have hlen := congrArg List.length this
      simp at hlen
      omega
    · refine disjoint_left.mpr (fun a hai haj => hij ?_)
      obtain ⟨-, p, hp, hpa⟩ := mem_below.mp hai
      obtain ⟨-, p', hp', hpa'⟩ := mem_below.mp haj
      have heq := h.tree _ _ _ hp hp' hpa hpa'
      have hlen : p.length = p'.length := by
        have := congrArg List.length heq
        simpa using this
      exact (List.cons.inj (append_inj heq hlen).2).1
    · obtain ⟨hao, p, hp, hpa⟩ := mem_below.mp ha
      rcases eq_nil_or_concat p with rfl | ⟨p, i, rfl⟩
      · exact .inl (some.inj (hpa.symm.trans ht))
      · have hcons : p ++ i :: q = p ++ [i] ++ q := by simp
        rw [concat_eq_append, ← hcons] at hp hpa
        refine .inr ⟨i, mem_below.mpr ⟨hao, p, hp, hpa⟩, fun hv => ?_⟩
        obtain ⟨t', ht'⟩ := table_append hpa
        rw [table, ht, bind_some, child, if_neg (fun hc => hc hv)] at ht'
        cases ht'
    · rcases Nat.eq_zero_or_pos l with rfl | hlp
      · -- An entry of the last level would be a mapping.
        obtain ⟨va, hva, hpath⟩ := exists_path (i :: q) (by rw [length_cons]; omega)
        have := hnone va hva
        rw [mapping, hpath, find, ht, bind_some, leaf, if_pos hv] at this
        cases this
      · refine ⟨h.inner q t i (by omega) ht hv, ih (by rw [length_cons]; omega) hlp ?_⟩
        rw [table, ht, bind_some, child, if_pos hv]

end Tables

section Layouts

variable {n q : Nat} {x : Nat × Nat}

theorem TRAPFRAME_lt : PHYSTOP / PGSIZE < TRAPFRAME / PGSIZE := by decide

theorem layout_nil (n : Nat) : layout [] none none n = none := by
  unfold layout
  simp

theorem layout_snoc : layout (us ++ [x]) tf tr n = if n = us.length then some x else layout us tf tr n := by
  unfold layout
  have hl : (us ++ [x]).length = us.length + 1 := by simp
  rw [hl]
  by_cases hn : n = us.length
  · rw [if_pos hn, if_pos (by omega), hn, getElem?_concat_length]
  · rw [if_neg hn]
    by_cases hlt : n < us.length
    · rw [if_pos hlt, if_pos (by omega), getElem?_append_left hlt]
    · rw [if_neg hlt, if_neg (by omega)]

theorem layout_end (hlen : us.length < TRAPFRAME / PGSIZE) : layout us tf tr us.length = none := by
  have hT : TRAPFRAME / PGSIZE < TRAMPOLINE / PGSIZE := by decide
  rw [layout, if_neg (lt_irrefl _), if_neg (by omega), if_neg (by omega)]

theorem layout_user (h : n < us.length) : layout us tf tr n = us[n]? := if_pos h

theorem layout_take (hlen : us.length < TRAPFRAME / PGSIZE) (hq : q ≤ us.length) :
    layout (us.take q) tf tr n = if q ≤ n ∧ n < q + (us.length - q) then none else layout us tf tr n := by
  have hT : TRAPFRAME / PGSIZE < TRAMPOLINE / PGSIZE := by decide
  have hl : (us.take q).length = q := by
    rw [length_take]
    omega
  unfold layout
  rw [hl]
  by_cases hn : n < q
  · rw [if_pos hn, if_neg (by omega), if_pos (by omega), getElem?_take_of_lt hn]
  · rw [if_neg hn]
    by_cases hm : n < us.length
    · have h1 : n ≠ TRAPFRAME / PGSIZE := by omega
      have h2 : n ≠ TRAMPOLINE / PGSIZE := by omega
      rw [if_neg h1, if_neg h2, if_pos ⟨by omega, by omega⟩]
    · have h1 : ¬ (q ≤ n ∧ n < q + (us.length - q)) := by omega
      rw [if_neg h1, if_neg hm]

end Layouts

end Xv6Rcu.Space

import Xv6Rcu.SpaceOps

namespace Xv6Rcu.Space

open Exec Memory Kalloc Radix Vm List

variable {e : Nat} {s s' t : Machine} {used used' own own' rest : Finset Nat} {m m' : Mem} {root pa a n q sz perm fl : Nat}
  {us us' : List (Nat × Nat)} {tf tr : Option Nat}

section Lookup

theorem At.entry (h : At e s used own root us tf tr) (hq : us[q]? = some (pa, fl)) :
    ∃ t, lastTable s.mem root (q * PGSIZE) = some t ∧ Vm.walk s root (q * PGSIZE) false = .ok (some (t + 8 * px 0 (q * PGSIZE)), s) ∧
      tab s.mem t (index 0 (q * PGSIZE)) &&& PTE_V ≠ 0 ∧ pteFlags (tab s.mem t (index 0 (q * PGSIZE))) = fl ∧
      pte2pa (tab s.mem t (index 0 (q * PGSIZE))) = pa := by
  have hlt : q < us.length := (List.getElem?_eq_some_iff.mp hq).1
  have hva : q * PGSIZE < MAXVA := by
    have := h.fits
    unfold PGSIZE at *
    omega
  have hmap : mapping s.mem root (q * PGSIZE) = some (pa, fl) := by
    rw [h.space.map _ (lt_TOPVA hva), Nat.mul_div_cancel q (by decide), layout_user hlt, hq]
  obtain ⟨t, ht, h1, h2, h3⟩ := mapping_some hmap
  refine ⟨t, ht, ?_, h1, h2, h3⟩
  rw [Vm.walk, if_neg (by omega), walkFrom_false, ht, Option.map_some]

theorem At.walkaddr_mem {va : Nat} (h : At e s used own root us tf tr) (h0 : walkaddr s root va ≠ 0) :
    walkaddr s root va ∈ us.map Prod.fst := by
  rw [walkaddr_eq] at h0 ⊢
  by_cases hva : MAXVA ≤ va
  · rw [if_pos hva] at h0
    exact absurd rfl h0
  rw [if_neg hva, h.space.map va (lt_TOPVA (by omega))] at h0 ⊢
  unfold layout at h0 ⊢
  by_cases hlt : va / PGSIZE < us.length
  · rw [if_pos hlt, getElem?_eq_getElem hlt] at h0 ⊢
    dsimp only at h0 ⊢
    by_cases hU : us[va / PGSIZE].2 &&& PTE_U = 0
    · rw [if_pos hU] at h0
      exact absurd rfl h0
    · rw [if_neg hU]
      exact mem_map_of_mem (getElem_mem hlt)
  · -- The trapframe and the trampoline are not the user's.
    refine absurd ?_ h0
    rw [if_neg hlt]
    by_cases h1 : va / PGSIZE = TRAPFRAME / PGSIZE
    · rw [if_pos h1]
      cases tf <;> rfl
    · rw [if_neg h1]
      by_cases h2 : va / PGSIZE = TRAMPOLINE / PGSIZE
      · rw [if_pos h2]
        cases tr <;> rfl
      · rw [if_neg h2]

theorem At.pokeUser {f : Mem → Mem} (h : At e s used own root us tf tr) (hpa : pa ∈ us.map Prod.fst)
    (hf : ∀ m x, pgRoundDown x ≠ pa → f m x = m x) :
    Framed e s used own (s.setMem (f s.mem)) used own ∧ UserSpace (f s.mem) root own us tf tr := by
  obtain ⟨u, hu, rfl⟩ := mem_map.mp hpa
  obtain ⟨h1, h2, -⟩ := h.space.pages u hu
  have := h.poke h1 h2 hf
  exact ⟨this.1, this.2.1⟩

theorem put_other {l : List UInt8} {off x : Nat} (hpa : pa % PGSIZE = 0) (hl : off + l.length ≤ PGSIZE)
    (h : pgRoundDown x ≠ pa) : put m (pa + off) l x = m x := by
  refine if_neg (fun hc => outside hpa h le_rfl ⟨by omega, by omega⟩)

theorem At.user_aligned (h : At e s used own root us tf tr) (hpa : pa ∈ us.map Prod.fst) : pa % PGSIZE = 0 := by
  obtain ⟨u, hu, rfl⟩ := mem_map.mp hpa
  exact (h.alloc.page (h.sub (h.space.pages u hu).1)).1

end Lookup

section Stores

theorem copyoutLoop_spec (fuel : Nat) {dstva : Nat} {src : List UInt8} (h : At e s used own root us tf tr) :
    Framed e s used own (copyoutLoop root fuel dstva src s).2 used own ∧
      UserSpace (copyoutLoop root fuel dstva src s).2.mem root own us tf tr := by
  induction fuel generalizing s dstva src with
  | zero => exact ⟨Framed.refl h.alloc h.sub, h.space⟩
  | succ fuel ih =>
    rw [copyoutLoop]
    by_cases hnil : src = []
    · rw [if_pos hnil]
      exact ⟨Framed.refl h.alloc h.sub, h.space⟩
    rw [if_neg hnil]
    dsimp only
    by_cases h0 : walkaddr s root (pgRoundDown dstva) = 0
    · rw [if_pos h0]
      exact ⟨Framed.refl h.alloc h.sub, h.space⟩
    rw [if_neg h0]
    have hmem := h.walkaddr_mem h0
    have hoff : dstva - pgRoundDown dstva + (src.take (min (PGSIZE - (dstva - pgRoundDown dstva)) src.length)).length ≤
        PGSIZE := by
      rw [length_take]
      unfold pgRoundDown PGSIZE
      omega
    obtain ⟨hf, hs⟩ := h.pokeUser (f := fun m => put m _ _) hmem (fun m x => put_other (h.user_aligned hmem) hoff)
    obtain ⟨hf', hs'⟩ := ih (hf.at hs)
    exact ⟨hf.trans hf', hs'⟩

theorem copyout_spec {dstva : Nat} {src : List UInt8} (h : At e s used own root us tf tr) :
    Runs (copyout root dstva src) s
      (fun _ t => Framed e s used own t used own ∧ UserSpace t.mem root own us tf tr) (fun _ => False) :=
  copyoutLoop_spec src.length h

def AllUser (us : List (Nat × Nat)) : Prop := ∀ u ∈ us, u.2 &&& PTE_U ≠ 0

theorem At.walkaddr_user {va : Nat} (he : 0 < e) (h : At e s used own root us tf tr) (hU : AllUser us) (hva : va < us.length * PGSIZE) :
    walkaddr s root va ≠ 0 := by
  have hlt : va / PGSIZE < us.length := (Nat.div_lt_iff_lt_mul (by decide)).mpr hva
  have hmax : va < MAXVA := by
    have := h.fits
    omega
  have hmem := getElem_mem hlt
  have hpage := h.alloc.page (h.sub (h.space.pages _ hmem).1)
  rw [walkaddr_eq, if_neg (by omega), h.space.map va (lt_TOPVA hmax), layout_user hlt, getElem?_eq_getElem hlt]
  dsimp only
  rw [if_neg (hU _ hmem)]
  exact fun hc => Nat.not_lt_of_le hpage.2.1 (hc ▸ he)

theorem loadsegLoop_spec (fuel : Nat) {va i : Nat} {data : List UInt8} (he : 0 < e) (h : At e s used own root us tf tr)
    (hU : AllUser us) : Runs (loadsegLoop root va sz data fuel i) s
      (fun _ t => Framed e s used own t used own ∧ UserSpace t.mem root own us tf tr)
      (fun x => x = .loadseg ∧ us.length * PGSIZE < va + sz) := by
  induction fuel generalizing s i with
  | zero => exact ⟨Framed.refl h.alloc h.sub, h.space⟩
  | succ fuel ih =>
    rw [loadsegLoop]
    refine runs_ite.mpr ⟨fun hlt => ?_, fun _ => ⟨Framed.refl h.alloc h.sub, h.space⟩⟩
    refine runs_bind.mpr (runs_look.mpr (runs_ite.mpr ⟨fun hc => ⟨rfl, ?_⟩, fun h0 => ?_⟩))
    · by_contra hfit
      have hstop := h.le_stop
      have hP : PHYSTOP < 2 ^ 64 := by decide
      rw [Nat.mod_eq_of_lt (by omega)] at hc
      exact h.walkaddr_user he hU (by omega) hc
    have hmem := h.walkaddr_mem h0
    have hoff : 0 + ((data.drop i).take (if sz - i < PGSIZE then sz - i else PGSIZE)).length ≤ PGSIZE := by
      rw [length_take]
      split <;> omega
    obtain ⟨hf, hs⟩ := h.pokeUser (f := fun m => put m (walkaddr s root ((va + i) % 2 ^ 64) + 0) _) hmem
      (fun m x => put_other (h.user_aligned hmem) hoff)
    refine runs_bind.mpr (runs_alter.mpr (runs_ite.mpr ⟨fun _ => ⟨hf, hs⟩, fun _ => ?_⟩))
    refine (ih (hf.at hs)).mono ?_ (fun _ hx => hx)
    rintro ok t ⟨hf', hs'⟩
    exact ⟨hf.trans hf', hs'⟩

end Stores

section Copies

variable {old new : Nat} {tf' tr' : Option Nat}

theorem move_other {dst src k x : Nat} (hpa : dst % PGSIZE = 0) (hk : k ≤ PGSIZE) (h : pgRoundDown x ≠ dst) :
    move m dst src k x = m x := if_neg (outside hpa h hk)

/-- The pages `l'` have the flags and the bytes of the first pages of `l`. -/
def Copied (m : Mem) (l l' : List (Nat × Nat)) : Prop := ∀ (i : Nat) (u v : Nat × Nat), l[i]? = some u → l'[i]? = some v →
  v.2 = u.2 ∧ ∀ k < PGSIZE, m (v.1 + k) = m (u.1 + k)

theorem At.round_user {k : Nat} {u : Nat × Nat} (h : At e s used own root us tf tr) (hu : u ∈ us) (hk : k < PGSIZE) :
    pgRoundDown (u.1 + k) = u.1 :=
  round_of_page (h.alloc.page (h.sub (h.space.pages u hu).1)).1 (Nat.le_add_right _ _) (Nat.add_lt_add_left hk _)

theorem Copied.kept {l l' : List (Nat × Nat)} (h : Copied m l l')
    (hl : ∀ u ∈ l, ∀ k < PGSIZE, m' (u.1 + k) = m (u.1 + k)) (hl' : ∀ u ∈ l', ∀ k < PGSIZE, m' (u.1 + k) = m (u.1 + k)) :
    Copied m' l l' := by
  intro i u v hu hv
  obtain ⟨h1, h2⟩ := h i u v hu hv
  refine ⟨h1, fun k hk => ?_⟩
  rw [hl u (mem_of_getElem? hu) k hk, hl' v (mem_of_getElem? hv) k hk]
  exact h2 k hk

theorem flags_valid {pte : Nat} (h : pte &&& PTE_V ≠ 0) (hfl : pteFlags pte = fl) : fl ||| PTE_V = fl := by
  have hv : fl &&& PTE_V ≠ 0 := by
    rw [← hfl, flags_and pte (by decide)]
    exact h
  have hone : fl &&& PTE_V = PTE_V := by
    unfold PTE_V at hv ⊢
    rw [Nat.and_one_is_mod] at hv ⊢
    omega
  refine Nat.eq_of_testBit_eq (fun i => ?_)
  rw [Nat.testBit_or]
  have := congrArg (fun x => x.testBit i) hone
  simp only [Nat.testBit_and] at this
  cases hb : PTE_V.testBit i
  · rw [Bool.or_false]
  · rw [hb, Bool.and_true] at this
    rw [this]
    rfl

theorem uvmcopyLoop_spec (fuel : Nat) (he : 0 < e) (hp : At e s used rest old us' tf' tr')
    (hd : Disjoint rest own) (h : At e s used own new us tf tr) (hz : Sized sz us') (hlen : us.length ≤ us'.length)
    (hcopy : Copied s.mem us' us) (hfuel : sz ≤ (us.length + fuel) * PGSIZE) :
    Runs (uvmcopyLoop e old new sz fuel (us.length * PGSIZE)) s
      (fun ok t => ∃ used' own' us1, Framed e s used own t used' own' ∧ UserSpace t.mem new own' us1 tf tr ∧
        (ok = true → Sized sz us1 ∧ Copied t.mem us' us1) ∧ (ok = false → us1 = [])) (fun _ => False) := by
  induction fuel generalizing s used own us with
  | zero =>
    refine ⟨used, own, us, Framed.refl h.alloc h.sub, h.space, fun _ => ⟨⟨by simpa using hfuel, ?_⟩, hcopy⟩, nofun⟩
    have := Nat.mul_le_mul_right PGSIZE hlen
    exact lt_of_le_of_lt this hz.2
  | succ fuel ih =>
    rw [uvmcopyLoop]
    refine runs_ite.mpr ⟨fun hlt => ?_, fun hge => ?_⟩
    · have hq : us.length < us'.length := by
        have := hz.1
        unfold PGSIZE at *
        omega
      obtain ⟨⟨src, fl⟩, hget⟩ : ∃ u, us'[us.length]? = some u := ⟨_, getElem?_eq_getElem hq⟩
      have hmem := mem_of_getElem? hget
      obtain ⟨hin, -, hleaf⟩ := hp.space.pages _ hmem
      obtain ⟨t, -, hwalk, hv, hfl, hsrc⟩ := hp.entry hget
      refine runs_bind.mpr (runs_lift hwalk (runs_bind.mpr (runs_look.mpr ?_)))
      refine runs_ite.mpr ⟨fun hc => hv hc, fun _ => ?_⟩
      have hperm : pteFlags (load s.mem (t + 8 * px 0 (us.length * PGSIZE)) 8) = fl := hfl
      have hpa : pte2pa (load s.mem (t + 8 * px 0 (us.length * PGSIZE)) 8) = src := hsrc
      rw [hperm, hpa]
      refine h.addPage (f := fun pa m => move m pa src PGSIZE) he
        hleaf.1 hleaf.2 (fun pa m x hal hne => move_other hal le_rfl hne) ?_ ?_
      · rintro t1 used1 own1 hf1 - hs1
        have hunmap := (hf1.at hs1).unmapUser he (Nat.zero_le us.length)
        rw [Nat.zero_mul, Nat.sub_zero] at hunmap
        rw [Nat.mul_div_cancel _ (by decide)]
        refine runs_bind.mpr (hunmap.safe ?_)
        rintro _ t2 ⟨used2, own2, hf2, -, hs2⟩
        rw [take_zero] at hs2
        exact ⟨used2, own2, [], hf1.trans hf2, hs2, nofun, fun _ => rfl⟩
      · intro t1 used1 own1 pa m hnew hf1 hk1 hm hpage hs1
        have hl : (us ++ [(pa, fl ||| PTE_V)]).length = us.length + 1 := by simp
        have hnext : us.length * PGSIZE + PGSIZE = (us ++ [(pa, fl ||| PTE_V)]).length * PGSIZE := by
          rw [hl, add_mul, one_mul]
        obtain ⟨hp1, hkp⟩ := hp.frame hf1 hd
        have hcopy1 : Copied t1.mem us' (us ++ [(pa, fl ||| PTE_V)]) := by
          intro i u v hu hv'
          rcases lt_or_ge i us.length with hi | hi
          · rw [getElem?_append_left hi] at hv'
            refine (hcopy.kept (fun w hw k hk => ?_) (fun w hw k hk => ?_)) i u v hu hv'
            · exact hkp w hw _ (hp.round_user hw hk)
            · exact hk1 w hw _ (h.round_user hw hk)
          · obtain rfl : i = us.length := by
              have := (List.getElem?_eq_some_iff.mp hv').1
              omega
            rw [getElem?_concat_length] at hv'
            obtain rfl := Option.some.inj hv'
            obtain rfl := Option.some.inj (hget.symm.trans hu)
            refine ⟨flags_valid hv hfl, fun k hk => ?_⟩
            have hround := hp.round_user hmem hk
            have hal := (hf1.alloc.page (hf1.sub (hs1.pages _ (mem_append_right _ (mem_singleton_self _))).1)).1
            rw [hpage _ (round_of_page hal (Nat.le_add_right _ _) (Nat.add_lt_add_left hk _)), hkp _ hmem _ hround, move,
              if_pos ⟨Nat.le_add_right _ _, Nat.add_lt_add_left hk _⟩, Nat.add_sub_cancel_left]
            exact hm _ (by rw [hround]; exact hp.sub hin)
        rw [hnext]
        refine (ih hp1 (hf1.apart hp.sub hd) (hf1.at hs1) (by omega) hcopy1 ?_).safe ?_
        · rw [hl]
          have : us.length + 1 + fuel = us.length + (fuel + 1) := by omega
          rw [this]
          exact hfuel
        · rintro ok t2 ⟨used2, own2, us2, hf2, hrest⟩
          exact ⟨used2, own2, us2, hf1.trans hf2, hrest⟩
    · refine ⟨used, own, us, Framed.refl h.alloc h.sub, h.space, fun _ => ⟨⟨by omega, ?_⟩, hcopy⟩, nofun⟩
      have := Nat.mul_le_mul_right PGSIZE hlen
      exact lt_of_le_of_lt this hz.2

theorem uvmcopy_spec (he : 0 < e) (hp : At e s used rest old us' tf' tr') (hd : Disjoint rest own)
    (h : At e s used own new [] tf tr) (hz : Sized sz us') :
    Runs (uvmcopy e old new sz) s
      (fun ok t => ∃ used' own' us1, Framed e s used own t used' own' ∧ UserSpace t.mem new own' us1 tf tr ∧
        (ok = true → Sized sz us1 ∧ Copied t.mem us' us1) ∧ (ok = false → us1 = [])) (fun _ => False) := by
  refine uvmcopyLoop_spec (sz / PGSIZE + 1) he hp hd h hz (Nat.zero_le _) (fun _ _ _ _ hv => nomatch hv) ?_
  rw [length_nil]
  unfold PGSIZE
  omega

end Copies

section Guard

theorem leaf_clear {x : Nat} (hx : x < 2 ^ 64) (h : x &&& PTE_V ≠ 0) :
    leaf (x &&& (2 ^ 64 - 1 - PTE_U)) = some (pte2pa x, pteFlags x &&& (2 ^ 64 - 1 - PTE_U)) := by
  have hv : (x &&& (2 ^ 64 - 1 - PTE_U)) &&& PTE_V ≠ 0 := by
    rw [Nat.and_assoc]
    exact h
  have hpa : (x &&& (2 ^ 64 - 1 - PTE_U)) / 1024 = x / 1024 := by
    have h10 : (x &&& (2 ^ 64 - 1 - PTE_U)) >>> 10 = x >>> 10 := by
      rw [Nat.shiftRight_and_distrib]
      have hmask : (2 ^ 64 - 1 - PTE_U) >>> 10 = 2 ^ 54 - 1 := by decide
      rw [hmask]
      refine Nat.and_two_pow_sub_one_of_lt_two_pow ?_
      rw [Nat.shiftRight_eq_div_pow]
      omega
    rwa [Nat.shiftRight_eq_div_pow, Nat.shiftRight_eq_div_pow] at h10
  have hfl : pteFlags (x &&& (2 ^ 64 - 1 - PTE_U)) = pteFlags x &&& (2 ^ 64 - 1 - PTE_U) := by
    rw [pteFlags, pteFlags, Nat.and_assoc, Nat.and_assoc, Nat.and_comm (2 ^ 64 - 1 - PTE_U)]
  rw [leaf, if_pos hv, pte2pa_eq, pte2pa_eq, hpa, hfl]

theorem layout_set (hq : q < us.length) (x : Nat × Nat) :
    layout (us.set q x) tf tr n = if n = q then some x else layout us tf tr n := by
  unfold layout
  rw [length_set]
  by_cases hn : n = q
  · rw [if_pos hn, hn, if_pos hq, getElem?_set_self hq]
  · rw [if_neg hn, getElem?_set_ne (fun hc => hn hc.symm)]

theorem map_fst_set {fl' : Nat} (h : us[q]? = some (pa, fl)) : (us.set q (pa, fl')).map Prod.fst = us.map Prod.fst := by
  obtain ⟨hq, hget⟩ := List.getElem?_eq_some_iff.mp h
  have hq' : q < (us.map Prod.fst).length := by rwa [List.length_map]
  have hself := set_getElem_self hq'
  rw [getElem_map, hget] at hself
  rw [map_set, hself]

theorem uvmclear_spec (h : At e s used own root us tf tr) (hget : us[q]? = some (pa, fl)) :
    Runs (uvmclear root (q * PGSIZE)) s
      (fun _ t => Framed e s used own t used own ∧ Kept s.mem t.mem us ∧
        UserSpace t.mem root own (us.set q (pa, fl &&& (2 ^ 64 - 1 - PTE_U))) tf tr) (fun _ => False) := by
  have hq : q < us.length := (List.getElem?_eq_some_iff.mp hget).1
  obtain ⟨hmem, htab, hleaf⟩ := h.space.pages _ (List.mem_of_getElem? hget)
  obtain ⟨t, hlast, hwalk, hv, hfl, hpa⟩ := h.entry hget
  have hva : q * PGSIZE < MAXVA := by
    have := h.fits
    unfold PGSIZE at *
    omega
  have hlt : tab s.mem t (index 0 (q * PGSIZE)) < 2 ^ 64 := load_lt
  have hpte : (tab s.mem t (index 0 (q * PGSIZE)) &&& (2 ^ 64 - 1 - PTE_U)) % 2 ^ 64 =
      tab s.mem t (index 0 (q * PGSIZE)) &&& (2 ^ 64 - 1 - PTE_U) :=
    Nat.mod_eq_of_lt (lt_of_le_of_lt Nat.and_le_left hlt)
  refine runs_bind.mpr (runs_lift hwalk (runs_alter.mpr ?_))
  obtain ⟨hg, -, hself, hother⟩ := Grow.set (index 0 (q * PGSIZE))
    (tab s.mem t (index 0 (q * PGSIZE)) &&& (2 ^ 64 - 1 - PTE_U)) h.alloc (PageTree.mono h.space.tree h.sub) hlast rfl
  rw [hpte, leaf_clear hlt hv, hfl, hpa] at hself
  obtain ⟨hf, htree⟩ := grow_framed hg h.space.tree h.sub
  rw [Finset.sdiff_self, Finset.union_empty] at hf htree
  refine ⟨hf, fun u hu x hx => ?_, htree, fun va hva' => ?_, fun u hu => ?_, ?_, fun a ha => ?_⟩
  · obtain ⟨h1, h2, -⟩ := h.space.pages u hu
    rw [← hx] at h1 h2
    exact hg.mem x (h.sub h1) h2
  · refine (mapping_set hva hself hother hva').trans ?_
    rw [layout_set hq, h.space.map va hva', Nat.mul_div_cancel q (by decide)]
  · have hold : ∀ a ∈ own, IsTable _ root a → IsTable s.mem root a := fun a hao hat =>
      (hg.fresh a hat).resolve_right (fun hn => hn (h.sub hao))
    rcases mem_or_eq_of_mem_set hu with hu | rfl
    · obtain ⟨h1, h2, h3⟩ := h.space.pages u hu
      exact ⟨h1, fun hc => h2 (hold _ h1 hc), h3⟩
    · refine ⟨hmem, fun hc => htab (hold _ hmem hc), lt_of_le_of_lt Nat.and_le_left hleaf.1, ?_⟩
      rw [Nat.and_assoc]
      exact hleaf.2
  · rw [map_fst_set hget]
    exact h.space.once
  · rw [map_fst_set hget]
    exact (h.space.all a ha).imp (hg.old a) id

end Guard

section Exec

variable {ly : Layout}

theorem flags2perm_lt (flags : Nat) : flags2perm flags < 1024 := by
  unfold flags2perm
  split <;> split <;> decide

/-- What is kept until `exec` has decided: a page table for some size. -/
def Building (ly : Layout) (s : Machine) (used own : Finset Nat) (root sz : Nat) (tf tr : Option Nat) (t : Machine) : Prop :=
  ∃ used' own' us, Framed ly.stop s used own t used' own' ∧ UserSpace t.mem root own' us tf tr ∧ Sized sz us

theorem fresh_user {xperm : Nat} (h : Fresh m (PTE_R ||| PTE_U ||| xperm ||| PTE_V) us) : AllUser us := by
  intro u hu
  rw [(h u hu).1, Nat.or_comm PTE_R, Nat.or_assoc, Nat.or_assoc]
  exact or_and_ne (by decide)

theorem AllUser.append (h : AllUser us) (h' : AllUser us') : AllUser (us ++ us') := fun u hu =>
  (mem_append.mp hu).elim (h u) (h' u)

theorem sized_alloc {new : List (Nat × Nat)} {newsz r : Nat} (hz : Sized sz us)
    (h : r = 0 ∧ new = [] ∨ r = max sz newsz ∧ Sized r (us ++ new)) : Sized (if r = 0 then sz else r) (us ++ new) := by
  rcases h with ⟨h0, rfl⟩ | ⟨hr, hz'⟩
  · rw [if_pos h0, append_nil]
    exact hz
  · by_cases h0 : r = 0
    · rw [if_pos h0]
      have : sz = r := by omega
      exact this ▸ hz'
    · rwa [if_neg h0]

def Segment.Sound (ph : Segment) : Prop := ph.vaddr < 2 ^ 64 ∧ ph.memsz < 2 ^ 64

theorem execLoad_spec (phs : List (Option Segment)) (h : At ly.stop s used own root us tf tr) (hz : Sized sz us)
    (hU : AllUser us) :
    Runs (execLoad ly root phs sz) s (fun r t => ∃ used' own' us', Framed ly.stop s used own t used' own' ∧
      UserSpace t.mem root own' us' tf tr ∧ Sized r.2 us' ∧ AllUser us')
      (fun x => x = .loadseg ∧ ∃ ph, some ph ∈ phs ∧ ¬ ph.Sound) := by
  induction phs generalizing s used own us sz with
  | nil => exact ⟨used, own, us, Framed.refl h.alloc h.sub, h.space, hz, hU⟩
  | cons ph phs ih =>
    have hsame : ∃ used' own' us', Framed ly.stop s used own s used' own' ∧ UserSpace s.mem root own' us' tf tr ∧
      Sized sz us' ∧ AllUser us' := ⟨used, own, us, Framed.refl h.alloc h.sub, h.space, hz, hU⟩
    cases ph with
    | none => exact hsame
    | some ph =>
      rw [execLoad]
      have hE : ∀ x, (x = Halt.loadseg ∧ ∃ ph, some ph ∈ phs ∧ ¬ ph.Sound) →
          x = Halt.loadseg ∧ ∃ ph', some ph' ∈ some ph :: phs ∧ ¬ ph'.Sound :=
        fun x ⟨hx, ph', hin, hn⟩ => ⟨hx, ph', mem_cons_of_mem _ hin, hn⟩
      refine runs_ite.mpr ⟨fun _ => (ih h hz hU).mono (fun _ _ ht => ht) hE, fun _ => ?_⟩
      refine runs_ite.mpr ⟨fun _ => hsame, fun hok => ?_⟩
      refine runs_bind.mpr ((uvmalloc_spec ly.pos h hz (flags2perm_lt _)).safe ?_)
      rintro sz1 s1 ⟨used1, own1, new, hf1, -, hzero, hs1, hr⟩
      have hU1 := hU.append (fresh_user hzero)
      have hz1 := sized_alloc hz hr
      refine runs_ite.mpr ⟨fun h0 => ?_, fun h0 => ?_⟩
      · rw [if_pos h0] at hz1
        exact ⟨used1, own1, us ++ new, hf1, hs1, hz1, hU1⟩
      · rw [if_neg h0] at hz1
        have hmax := (hr.resolve_left (fun hc => h0 hc.1)).1
        refine runs_bind.mpr ((loadsegLoop_spec _ ly.pos (hf1.at hs1) hU1).mono ?_ ?_)
        · rintro ok s2 ⟨hf2, hs2⟩
          refine runs_ite.mpr ⟨fun _ => ⟨used1, own1, us ++ new, hf1.trans hf2, hs2, hz1, hU1⟩, fun _ => ?_⟩
          refine (ih (hf2.at hs2) hz1 hU1).mono ?_ hE
          rintro r s3 ⟨used3, own3, us3, hf3, hrest⟩
          exact ⟨used3, own3, us3, (hf1.trans hf2).trans hf3, hrest⟩
        · rintro x ⟨hx, hunfit⟩
          refine ⟨hx, ph, mem_cons_self, fun hsound => ?_⟩
          -- The sum of the header has not overflowed, so the segment ends below `sz1`.
          have hbound := hz1.le
          have hmod : ph.filesz % 2 ^ 32 ≤ ph.filesz := Nat.mod_le _ _
          obtain ⟨hv, hm⟩ := hsound
          omega

theorem execArgs_spec {stackbase sp : Nat} {ustack : List Nat} (args : List (List UInt8))
    (h : At e s used own root us tf tr) :
    Runs (execArgs root stackbase args sp ustack) s
      (fun _ t => Framed e s used own t used own ∧ UserSpace t.mem root own us tf tr) (fun _ => False) := by
  induction args generalizing s sp ustack with
  | nil => exact ⟨Framed.refl h.alloc h.sub, h.space⟩
  | cons arg args ih =>
    have hsame := And.intro (Framed.refl h.alloc h.sub) h.space
    rw [execArgs]
    refine runs_ite.mpr ⟨fun _ => hsame, fun _ => runs_ite.mpr ⟨fun _ => hsame, fun _ => ?_⟩⟩
    refine runs_bind.mpr ((copyout_spec h).safe ?_)
    rintro ok s1 ⟨hf1, hs1⟩
    refine runs_ite.mpr ⟨fun _ => ⟨hf1, hs1⟩, fun _ => (ih (hf1.at hs1)).safe ?_⟩
    rintro _ s2 ⟨hf2, hs2⟩
    exact ⟨hf1.trans hf2, hs2⟩

theorem execStack_spec (args : List (List UInt8)) (h : At ly.stop s used own root us tf tr) (hz : Sized sz us) :
    Runs (execStack ly root args sz) s (fun r t => Building ly s used own root r.2.1 tf tr t) (fun _ => False) := by
  have hround := h.round hz
  have hstop := h.le_stop
  rw [execStack, hround]
  refine runs_bind.mpr ((uvmalloc_spec ly.pos h (sized_mul us) (by decide)).safe ?_)
  rintro sz1 s1 ⟨used1, own1, new, hf1, -, -, hs1, hr⟩
  have hsized := sized_alloc (sized_mul us) hr
  generalize us ++ new = us1 at *
  refine runs_ite.mpr ⟨fun h0 => ?_, fun h0 => ?_⟩
  · rw [if_pos h0] at hsized
    exact ⟨used1, own1, us1, hf1, hs1, hsized⟩
  have hr' := hr.resolve_left (fun hc => h0 hc.1)
  have hz1 := hr'.2
  have hmax : sz1 = (us.length + 2) * PGSIZE := by
    rw [hr'.1, add_mul]
    omega
  have hlen : us1.length = us.length + 2 := by
    obtain ⟨h1, h2⟩ := hz1
    unfold PGSIZE at *
    omega
  have hguard : sz1 - 2 * PGSIZE = us.length * PGSIZE := by
    rw [hmax, add_mul]
    omega
  rw [hguard]
  generalize sz1 - PGSIZE = base
  obtain ⟨⟨pa, fl⟩, hget⟩ : ∃ u, us1[us.length]? = some u := ⟨_, getElem?_eq_getElem (by omega)⟩
  refine runs_bind.mpr ((uvmclear_spec (hf1.at hs1) hget).safe ?_)
  rintro _ s2 ⟨hf2, -, hs2⟩
  have hz2 : Sized sz1 (us1.set us.length (pa, fl &&& (2 ^ 64 - 1 - PTE_U))) := by
    rw [Sized, length_set]
    exact hz1
  generalize us1.set us.length (pa, fl &&& (2 ^ 64 - 1 - PTE_U)) = us2 at *
  refine runs_bind.mpr ((execArgs_spec args (hf2.at hs2)).safe ?_)
  rintro r s3 ⟨hf3, hs3⟩
  have hf123 := hf1.trans (hf2.trans hf3)
  rcases r with _ | ⟨sp, ustack⟩
  · exact ⟨_, _, us2, hf123, hs3, hz2⟩
  · refine runs_ite.mpr ⟨fun _ => ⟨_, _, us2, hf123, hs3, hz2⟩, fun _ => ?_⟩
    refine runs_bind.mpr ((copyout_spec (hf3.at hs3)).safe ?_)
    rintro ok s4 ⟨hf4, hs4⟩
    exact ⟨_, _, us2, hf123.trans hf4, hs4, hz2⟩

end Exec

end Xv6Rcu.Space

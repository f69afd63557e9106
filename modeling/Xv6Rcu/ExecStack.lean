import Xv6Rcu.CopyIn
import Xv6Rcu.SpaceGrow

namespace Xv6Rcu.Space

open Exec Memory Kalloc Radix Vm List Option

variable {ly : Layout} {e : Nat} {m m' : Machine} {used used' own own' : Finset Nat} {root sz tf tr va : Nat}
  {us us' : List (Nat × Nat)}

section Tables

theorem layout_inj {n n' pa fl fl' : Nat} (honce : (us.map Prod.fst).Nodup) (htf : tf ∉ us.map Prod.fst)
    (htr : tr ∉ us.map Prod.fst) (hne : tf ≠ tr) (h : layout us (some tf) (some tr) n = some (pa, fl))
    (h' : layout us (some tf) (some tr) n' = some (pa, fl')) : n = n' := by
  have hcases : ∀ {k g}, layout us (some tf) (some tr) k = some (pa, g) →
      (us.map Prod.fst)[k]? = some pa ∨ k = TRAPFRAME / PGSIZE ∧ pa = tf ∨ k = TRAMPOLINE / PGSIZE ∧ pa = tr := by
    intro k g hk
    unfold layout at hk
    by_cases h1 : k < us.length
    · rw [if_pos h1] at hk
      exact .inl (by rw [getElem?_map, hk]; rfl)
    · rw [if_neg h1] at hk
      by_cases h2 : k = TRAPFRAME / PGSIZE
      · rw [if_pos h2] at hk
        exact .inr (.inl ⟨h2, (Prod.mk.inj (some.inj hk)).1.symm⟩)
      · rw [if_neg h2] at hk
        by_cases h3 : k = TRAMPOLINE / PGSIZE
        · rw [if_pos h3] at hk
          exact .inr (.inr ⟨h3, (Prod.mk.inj (some.inj hk)).1.symm⟩)
        · rw [if_neg h3] at hk
          exact nomatch hk
  rcases hcases h with h1 | ⟨h1, h2⟩ | ⟨h1, h2⟩ <;> rcases hcases h' with h3 | ⟨h3, h4⟩ | ⟨h3, h4⟩
  · exact (List.getElem?_inj (List.getElem?_eq_some_iff.mp h1).1 honce).mp (h1.trans h3.symm)
  · exact absurd (h4 ▸ List.mem_of_getElem? h1) htf
  · exact absurd (h4 ▸ mem_of_getElem? h1) htr
  · exact absurd (h2 ▸ mem_of_getElem? h3) htf
  · exact h1.trans h3.symm
  · exact absurd (h2.symm.trans h4) hne
  · exact absurd (h2 ▸ mem_of_getElem? h3) htr
  · exact absurd (h4.symm.trans h2) hne
  · exact h1.trans h3.symm

theorem At.user_of_mapping {pa fl : Nat} (h : At e m used own root us (some tf) (some tr)) (hva : va < MAXVA)
    (hmap : mapping m.mem root va = some (pa, fl)) (hU : fl &&& PTE_U ≠ 0) : us[va / PGSIZE]? = some (pa, fl) := by
  rw [h.space.map va (lt_TOPVA hva)] at hmap
  unfold layout at hmap
  by_cases h1 : va / PGSIZE < us.length
  · rwa [if_pos h1] at hmap
  · -- The trapframe and the trampoline are not the user's.
    rw [if_neg h1] at hmap
    by_cases h2 : va / PGSIZE = TRAPFRAME / PGSIZE
    · rw [if_pos h2] at hmap
      exact absurd (by rw [← (Prod.mk.inj (some.inj hmap)).2]; decide) hU
    · rw [if_neg h2] at hmap
      by_cases h3 : va / PGSIZE = TRAMPOLINE / PGSIZE
      · rw [if_pos h3] at hmap
        exact absurd (by rw [← (Prod.mk.inj (some.inj hmap)).2]; decide) hU
      · rw [if_neg h3] at hmap
        exact nomatch hmap

theorem At.userTable (h : At ly.stop m used own root us (some tf) (some ly.trampoline)) (htf : tf ∈ used) (hn : tf ∉ own) :
    UserTable m.mem root := by
  have hcode : ∀ a ∈ used, a ≠ ly.trampoline := by
    intro a ha hc
    have h1 := (h.alloc.page ha).2.1
    have h2 := ly.code
    unfold PGSIZE at h2
    omega
  have huser : ∀ a ∈ us.map Prod.fst, a ∈ own := by
    intro a ha
    obtain ⟨u, hu, rfl⟩ := mem_map.mp ha
    exact (h.space.pages u hu).1
  refine ⟨(h.alloc.page (h.sub h.space.tree.root_mem)).1, fun va va' pa fl fl' hva hva' h1 h2 => ?_,
    fun va pa fl q t hva h1 hU hq ht hc => ?_⟩
  · rw [h.space.map va (lt_TOPVA hva)] at h1
    rw [h.space.map va' (lt_TOPVA hva')] at h2
    exact layout_inj h.space.once (fun hc => hn (huser _ hc)) (fun hc => hcode _ (h.sub (huser _ hc)) rfl) (hcode tf htf) h1 h2
  · have hmem := mem_of_getElem? (h.user_of_mapping hva h1 hU)
    exact (h.space.pages _ hmem).2.1 ⟨q, hq, by rw [ht, hc]⟩

theorem At.accessible {pa fl : Nat} (he : 0 < e) (h : At e m used own root us (some tf) (some tr))
    (hu : us[va / PGSIZE]? = some (pa, fl)) (hU : fl &&& PTE_U ≠ 0) : Accessible m.mem root va := by
  have hlt : va / PGSIZE < us.length := (List.getElem?_eq_some_iff.mp hu).1
  have hva : va < MAXVA := by
    have := h.fits
    have := (Nat.div_lt_iff_lt_mul (by decide)).mp hlt
    omega
  have hpage := h.alloc.page (h.sub (h.space.pages _ (mem_of_getElem? hu)).1)
  exact ⟨hva, pa, fl, h.mapping_user hu, hU, fun hc => Nat.not_lt_of_le hpage.2.1 (hc ▸ he)⟩

theorem At.userByte_congr {w : Mem} (h : At e m used own root us (some tf) (some tr))
    (hm : ∀ x, pgRoundDown x ∈ own → w x = m.mem x) : userByte w root va = userByte m.mem root va := by
  have hal := h.space.aligned h.alloc h.sub
  obtain ⟨-, -, -, hmap⟩ := h.space.tree.congr w own (fun t i ht => tab_congr (fun x hx hlt => hm x (by
    rw [round_of_page (hal t ht) hx hlt]
    exact h.space.table_mem ht)) i) h.space.tree.tables
  unfold userByte
  rw [hmap]
  by_cases hva : va < MAXVA
  · rw [if_pos hva, if_pos hva]
    cases hv : mapping m.mem root va with
    | none => rfl
    | some x =>
      obtain ⟨pa, fl⟩ := x
      dsimp only
      by_cases hU : fl &&& PTE_U = 0 ∨ pa = 0
      · rw [if_pos hU, if_pos hU]
      · rw [if_neg hU, if_neg hU]
        have hmem := mem_of_getElem? (h.user_of_mapping hva hv (fun hc => hU (.inl hc)))
        refine congrArg some (hm _ ?_)
        rw [h.round_user hmem (Nat.mod_lt _ (by decide))]
        exact (h.space.pages _ hmem).1
  · rw [if_neg hva, if_neg hva]

end Tables

section Positions

variable {p : Int} {n : Nat} {args : List (List UInt8)}

/-- The stack pointer `p` after `n` bytes have been pushed, in integers. -/
def down (p : Int) (n : Nat) : Int := (p - n) / 16 * 16

def bottom (p : Int) (args : List (List UInt8)) : Int := args.foldl (fun p arg => down p (arg.length + 1)) p

def Fits (args : List (List UInt8)) : Prop := 0 ≤ down (bottom PGSIZE args) (8 * (args.length + 1))

instance (args : List (List UInt8)) : Decidable (Fits args) := Int.decLe _ _

theorem down_le : down p n ≤ p := by
  unfold down
  omega

theorem bottom_le : bottom p args ≤ p := by
  induction args generalizing p with
  | nil => exact Int.le_refl p
  | cons arg args ih => exact Int.le_trans ih down_le

theorem down_add (k : Int) : down (p + 16 * k) n = down p n + 16 * k := by
  unfold down
  omega

theorem bottom_add (k : Int) : bottom (p + 16 * k) args = bottom p args + 16 * k := by
  induction args generalizing p with
  | nil => rfl
  | cons arg args ih =>
    change bottom (down (p + 16 * k) (arg.length + 1)) args = _
    rw [down_add, ih]
    rfl

theorem fits_iff {base : Nat} (hb : base % PGSIZE = 0) :
    Fits args ↔ (base : Int) ≤ down (bottom (base + PGSIZE : Nat) args) (8 * (args.length + 1)) := by
  obtain ⟨k, hk⟩ : ∃ k : Nat, base = 16 * k := ⟨base / 16, by unfold PGSIZE at hb; omega⟩
  have hsum : ((base + PGSIZE : Nat) : Int) = PGSIZE + 16 * (k : Int) := by omega
  rw [hsum, bottom_add, down_add, Fits]
  omega

theorem push_eq {sp : Nat} (h : n ≤ sp) (hsp : sp < 2 ^ 64) : (push sp n : Int) = down sp n := by
  have hmod : (sp + 2 ^ 64 - n) % 2 ^ 64 = sp - n := by
    have : sp + 2 ^ 64 - n = sp - n + 2 ^ 64 := by omega
    rw [this, Nat.add_mod_right, Nat.mod_eq_of_lt (by omega)]
  rw [push, hmod, down]
  omega

end Positions

section Arguments

variable {w w' : Mem} {lo hi : Nat} {args : List (List UInt8)} {addrs : List Nat}

/-- The argument strings lie one below the other, from `hi` down to `lo`. -/
def Laid (w : Mem) (root lo : Nat) : Nat → List (List UInt8) → List Nat → Prop
  | hi, [], [] => lo = hi
  | hi, arg :: args, a :: addrs =>
    a % 16 = 0 ∧ a + arg.length + 1 ≤ hi ∧ Read w root a (arg ++ [0]) ∧ Laid w root lo a args addrs
  | _, _, _ => False

theorem Laid.le (h : Laid w root lo hi args addrs) : lo ≤ hi := by
  induction args generalizing hi addrs with
  | nil =>
    cases addrs with
    | nil => exact Nat.le_of_eq h
    | cons a addrs => exact h.elim
  | cons arg args ih =>
    cases addrs with
    | nil => exact h.elim
    | cons a addrs =>
      obtain ⟨-, h1, -, h2⟩ := h
      have := ih h2
      omega

theorem Laid.congr (h : Laid w root lo hi args addrs) (hw : ∀ x, lo ≤ x → userByte w' root x = userByte w root x) :
    Laid w' root lo hi args addrs := by
  induction args generalizing hi addrs with
  | nil =>
    cases addrs with
    | nil => exact h
    | cons a addrs => exact h.elim
  | cons arg args ih =>
    cases addrs with
    | nil => exact h.elim
    | cons a addrs =>
      obtain ⟨h1, h2, h3, h4⟩ := h
      have := h4.le
      refine ⟨h1, h2, fun i hi => ?_, ih h4⟩
      rw [hw _ (by omega)]
      exact h3 i hi

theorem stored_read {l : List UInt8} (h : Stored w root va l w') : Read w' root va l := by
  intro i hi
  rw [h.2, if_pos ⟨by omega, by omega⟩, Nat.add_sub_cancel_left]

theorem stored_above {l : List UInt8} (h : Stored w root va l w') {x : Nat} (hx : va + l.length ≤ x) :
    userByte w' root x = userByte w root x := by
  rw [h.2, if_neg (by omega)]

structure Pushed (w : Mem) (root base sp : Nat) (args : List (List UInt8)) (w' : Mem) (sp' : Nat) (addrs : List Nat) :
    Prop where
  pos : (sp' : Int) = bottom sp args
  low : base ≤ sp'
  table : UserTable w' root
  accessible : ∀ x, Accessible w' root x ↔ Accessible w root x
  above : ∀ x, sp ≤ x → userByte w' root x = userByte w root x
  laid : Laid w' root sp' sp args addrs

theorem execArgs_exact {base sp : Nat} (ustack : List Nat) (args : List (List UInt8)) (hu : UserTable m.mem root)
    (hacc : ∀ x, base ≤ x → x < sp → Accessible m.mem root x) (hb : PGSIZE ≤ base) (hsp : base ≤ sp) (hlt : sp < 2 ^ 64)
    (hlen : ustack.length + args.length ≤ MAXARG) (harg : ∀ arg ∈ args, arg.length < PGSIZE) :
    Runs (execArgs root base args sp ustack) m (fun r t => match r with
      | none => bottom sp args < base
      | some (sp', l) => ∃ addrs, l = ustack ++ addrs ∧ Pushed m.mem root base sp args t.mem sp' addrs) (fun _ => False) := by
  induction args generalizing m sp ustack with
  | nil => exact ⟨[], (append_nil _).symm, rfl, hsp, hu, fun _ => Iff.rfl, fun _ _ => rfl, rfl⟩
  | cons arg args ih =>
    rw [length_cons] at hlen
    have hfit : arg.length + 1 ≤ sp := by
      have := harg arg mem_cons_self
      omega
    have hpush := push_eq hfit hlt
    have hbot : bottom sp (arg :: args) = bottom (push sp (arg.length + 1)) args := by
      rw [hpush]
      rfl
    have hend : push sp (arg.length + 1) + (arg.length + 1) ≤ sp ∧ push sp (arg.length + 1) % 16 = 0 := by
      unfold down at hpush
      omega
    rw [execArgs]
    generalize push sp (arg.length + 1) = sp1 at *
    refine runs_ite.mpr ⟨fun hc => ?_, fun _ => runs_ite.mpr ⟨fun hc => ?_, fun hge => ?_⟩⟩
    · omega
    · change bottom sp (arg :: args) < base
      rw [hbot]
      have : bottom sp1 args ≤ sp1 := bottom_le
      omega
    have hl : (arg ++ [0]).length = arg.length + 1 := by rw [length_append, length_singleton]
    obtain ⟨hok, hst⟩ := copyout_stored sp1 (arg ++ [0]) hu
    have htrue := hok.mpr (fun x h1 h2 => hacc x (by omega) (by omega))
    obtain ⟨hstored, hu1⟩ := hst htrue
    refine runs_bind.mpr ?_
    change Runs (if (Vm.copyout m root sp1 (arg ++ [0])).1 = false then _ else _) (Vm.copyout m root sp1 (arg ++ [0])).2 _ _
    rw [htrue, if_neg Bool.noConfusion]
    generalize (Vm.copyout m root sp1 (arg ++ [0])).2 = t1 at hstored hu1
    have hustack : (ustack ++ [sp1]).length = ustack.length + 1 := by rw [length_append, length_singleton]
    refine (ih _ hu1 (fun x h1 h2 => (hstored.1 x).mpr (hacc x h1 (by omega))) (by omega) (by omega) (by omega)
      (fun a ha => harg a (mem_cons_of_mem _ ha))).safe ?_
    rintro (_ | ⟨sp', l⟩) t hr
    · change bottom sp (arg :: args) < base
      rw [hbot]
      exact hr
    · obtain ⟨addrs, rfl, hr⟩ := hr
      refine ⟨sp1 :: addrs, by rw [append_assoc]; rfl, by rw [hbot]; exact hr.pos, hr.low, hr.table,
        fun x => (hr.accessible x).trans (hstored.1 x), fun x hx => ?_, hend.2, by omega, fun i hi => ?_, hr.laid⟩
      · rw [hr.above x (by omega), stored_above hstored (by omega)]
      · rw [hr.above _ (by omega)]
        exact stored_read hstored i hi

end Arguments

section Stack

variable {w w' : Mem} {sp lo hi : Nat} {args : List (List UInt8)} {addrs : List Nat}

/-- The pieces of the stack, from where to where: the array of pointers and the strings. -/
def ranges (sp : Nat) (args : List (List UInt8)) (addrs : List Nat) : List (Nat × Nat) :=
  (sp, sp + 8 * (args.length + 1)) :: List.zipWith (fun arg a => (a, a + arg.length + 1)) args addrs

def Apart (r r' : Nat × Nat) : Prop := r.2 ≤ r'.1 ∨ r'.2 ≤ r.1

/-- The stack of a program that starts with the stack pointer `sp`, in the last page below `sz`. -/
structure ArgStack (w : Mem) (root sz sp : Nat) (args : List (List UInt8)) (addrs : List Nat) : Prop where
  aligned : sp % 16 = 0
  base : sz - PGSIZE ≤ sp
  count : addrs.length = args.length
  pointers : Read w root sp (words (addrs ++ [0]))
  strings : ∀ (i : Nat) arg a, args[i]? = some arg → addrs[i]? = some a → a % 16 = 0 ∧ Read w root a (arg ++ [0])
  apart : (ranges sp args addrs).Pairwise Apart
  inside : ∀ r ∈ ranges sp args addrs, sz - PGSIZE ≤ r.1 ∧ r.2 ≤ sz

section

variable (h : Laid w root lo hi args addrs)

include h

theorem Laid.length : addrs.length = args.length := by
  induction args generalizing hi addrs with
  | nil =>
    cases addrs with
    | nil => rfl
    | cons a addrs => exact h.elim
  | cons arg args ih =>
    cases addrs with
    | nil => exact h.elim
    | cons a addrs =>
      rw [length_cons, length_cons, ih h.2.2.2]

theorem Laid.strings :
    ∀ (i : Nat) arg a, args[i]? = some arg → addrs[i]? = some a → a % 16 = 0 ∧ Read w root a (arg ++ [0]) := by
  induction args generalizing hi addrs with
  | nil => exact fun i arg a harg => nomatch harg
  | cons arg args ih =>
    cases addrs with
    | nil => exact h.elim
    | cons a addrs =>
      intro i arg' a' harg ha
      cases i with
      | zero =>
        obtain rfl := some.inj harg
        obtain rfl := some.inj ha
        exact ⟨h.1, h.2.2.1⟩
      | succ i => exact ih h.2.2.2 i arg' a' harg ha

theorem Laid.within :
    ∀ r ∈ List.zipWith (fun arg a => (a, a + arg.length + 1)) args addrs, lo ≤ r.1 ∧ r.2 ≤ hi := by
  induction args generalizing hi addrs with
  | nil => exact fun r hr => nomatch hr
  | cons arg args ih =>
    cases addrs with
    | nil => exact h.elim
    | cons a addrs =>
      obtain ⟨-, h1, -, h2⟩ := h
      have hle := h2.le
      intro r hr
      rcases mem_cons.mp hr with rfl | hr
      · exact ⟨hle, h1⟩
      · have := ih h2 r hr
        omega

theorem Laid.pairwise :
    (List.zipWith (fun arg a => (a, a + arg.length + 1)) args addrs).Pairwise Apart := by
  induction args generalizing hi addrs with
  | nil => exact List.Pairwise.nil
  | cons arg args ih =>
    cases addrs with
    | nil => exact h.elim
    | cons a addrs =>
      obtain ⟨-, -, -, h2⟩ := h
      exact List.Pairwise.cons (fun r hr => .inr (h2.within r hr).2) (ih h2)

end

theorem length_words (l : List Nat) : (words l).length = 8 * l.length := by
  induction l with
  | nil => rfl
  | cons x l ih =>
    have : words (x :: l) = (List.range 8).map (fun i => UInt8.ofNat (x / 256 ^ i)) ++ words l := rfl
    rw [this, length_append, ih, length_map, length_range, length_cons]
    omega

theorem Laid.stack (h : Laid w root lo sz args addrs) (hst : Stored w root sp (words (addrs ++ [0])) w')
    (hal : sp % 16 = 0) (hbase : sz - PGSIZE ≤ sp) (hend : sp + 8 * (args.length + 1) ≤ lo) : ArgStack w' root sz sp args addrs := by
  have hlen : (words (addrs ++ [0])).length = 8 * (args.length + 1) := by
    rw [length_words, length_append, h.length, length_singleton]
  have hle := h.le
  have hlaid : Laid w' root lo sz args addrs := h.congr (fun x hx => stored_above hst (by omega))
  refine ⟨hal, hbase, h.length, stored_read hst, hlaid.strings, List.Pairwise.cons (fun r hr => .inl ?_) h.pairwise,
    fun r hr => ?_⟩
  · have := (h.within r hr).1
    exact le_trans hend this
  · rcases mem_cons.mp hr with rfl | hr
    · exact ⟨hbase, hend.trans hle⟩
    · have := h.within r hr
      omega

/-- The stack of `exec`: there is no memory for it, or it is there exactly if it fits. -/
theorem execStack_exact (h : At ly.stop m used own root us (some tf) (some ly.trampoline)) (htf : tf ∈ used) (hn : tf ∉ own)
    (hz : Sized sz us) (hlen : args.length < MAXARG) (harg : ∀ arg ∈ args, arg.length < PGSIZE) :
    Runs (execStack ly root args sz) m (fun r t => r.2.1 = pgRoundUp sz ∧ r.1 = false ∨
      r.2.1 = pgRoundUp sz + 2 * PGSIZE ∧ (r.1 = true ↔ Fits args) ∧
        (r.1 = true → ∃ addrs, ArgStack t.mem root r.2.1 r.2.2 args addrs)) (fun _ => False) := by
  have hround := h.round hz
  rw [execStack, hround]
  refine runs_bind.mpr ((uvmalloc_spec ly.pos h (sized_mul us) (by decide)).safe ?_)
  rintro sz1 m1 ⟨used1, own1, new, hf1, -, hfresh, hs1, hr⟩
  refine runs_ite.mpr ⟨fun h0 => .inl ⟨rfl, rfl⟩, fun h0 => ?_⟩
  have hr' := hr.resolve_left (fun hc => h0 hc.1)
  have hmax := hr'.1
  have hz1 := hr'.2
  have hat1 := hf1.at hs1
  have hsz1 : sz1 = us.length * PGSIZE + 2 * PGSIZE := by omega
  have hnew : new.length = 2 := by
    obtain ⟨h1, h2⟩ := hz1
    rw [length_append] at h1 h2
    unfold PGSIZE at *
    omega
  have hstop : sz1 < 2 ^ 64 := by
    have := hz1.1.trans hat1.le_stop
    have : PHYSTOP < 2 ^ 64 := by decide
    omega
  have hguard : sz1 - 2 * PGSIZE = us.length * PGSIZE := by omega
  rw [hguard]
  generalize hbase : sz1 - PGSIZE = base
  have htop : base = us.length * PGSIZE + PGSIZE ∧ sz1 = base + PGSIZE ∧ PGSIZE ≤ base ∧ base % PGSIZE = 0 := by
    rw [← hbase, hsz1]
    unfold PGSIZE
    omega
  obtain ⟨⟨pa, fl⟩, hget⟩ : ∃ u, (us ++ new)[us.length]? = some u :=
    ⟨_, getElem?_eq_getElem (by rw [length_append]; omega)⟩
  refine runs_bind.mpr ((uvmclear_spec hat1 hget).safe ?_)
  rintro _ m2 ⟨hf2, -, hs2⟩
  have hf := hf1.trans hf2
  have hat2 := hf.at hs2
  have htable : UserTable m2.mem root := hat2.userTable (hf.keep tf htf hn) (hf.not_own' htf hn)
  -- The page above the guard page is the user's.
  have hacc : ∀ x, base ≤ x → x < sz1 → Accessible m2.mem root x := by
    intro x h1 h2
    have hx : x / PGSIZE = us.length + 1 := by
      unfold PGSIZE at *
      omega
    have hlt : us.length + 1 < (us ++ new).length := by
      rw [length_append]
      omega
    have hu := getElem?_eq_getElem hlt
    have hin : (us ++ new)[us.length + 1] ∈ new := by
      rw [getElem_append_right (by omega)]
      exact getElem_mem _
    have hat : ((us ++ new).set us.length (pa, fl &&& 2 ^ 64 - 1 - PTE_U))[x / PGSIZE]? = some (us ++ new)[us.length + 1] := by
      rw [hx, getElem?_set_ne (by omega), hu]
    exact hat2.accessible ly.pos hat (fresh_user hfresh _ hin)
  refine runs_bind.mpr ((execArgs_exact [] args htable hacc htop.2.2.1 (by omega) hstop
    (by rw [length_nil]; omega) harg).safe ?_)
  have hfits : Fits args ↔ (base : Int) ≤ down (bottom sz1 args) (8 * (args.length + 1)) := by
    rw [htop.2.1]
    exact fits_iff htop.2.2.2
  rintro (_ | ⟨sp, addrs⟩) m3 hr3
  · refine .inr ⟨hsz1, ⟨(by rintro ⟨⟩), fun hc => ?_⟩, (by rintro ⟨⟩)⟩
    have hle : down (bottom sz1 args) (8 * (args.length + 1)) ≤ bottom sz1 args := down_le
    have := hfits.mp hc
    have : bottom sz1 args < base := hr3
    omega
  · obtain ⟨_, rfl, hr3⟩ := hr3
    dsimp only
    have hcount := hr3.laid.length
    have hM : MAXARG = 32 := rfl
    have hP : PGSIZE = 4096 := rfl
    have hlow := hr3.low
    have hle := hr3.laid.le
    have hpush : (push sp (8 * (addrs.length + 1)) : Int) = down (bottom sz1 args) (8 * (args.length + 1)) := by
      rw [push_eq (by omega) (by omega), hcount, hr3.pos]
    have hend : push sp (8 * (addrs.length + 1)) % 16 = 0 ∧ push sp (8 * (addrs.length + 1)) + 8 * (args.length + 1) ≤ sp := by
      rw [← hr3.pos, down] at hpush
      omega
    rw [← hpush] at hfits
    generalize push sp (8 * (addrs.length + 1)) = sp2 at *
    refine runs_ite.mpr ⟨fun hlt => .inr ⟨hsz1, ⟨(by rintro ⟨⟩), fun hc => ?_⟩, (by rintro ⟨⟩)⟩, fun hge => ?_⟩
    · have := hfits.mp hc
      omega
    have hwords : (words (addrs ++ [0])).length = 8 * (args.length + 1) := by
      rw [length_words, length_append, hcount, length_singleton]
    obtain ⟨hok, hst⟩ := copyout_stored sp2 (words (addrs ++ [0])) hr3.table
    have htrue := hok.mpr (fun x h1 h2 => (hr3.accessible x).mpr (hacc x (by omega) (by omega)))
    refine runs_bind.mpr (.inr ⟨hsz1, ⟨fun _ => hfits.mpr (by omega), fun _ => htrue⟩, fun _ => ⟨addrs, ?_⟩⟩)
    change ArgStack _ root sz1 sp2 args addrs
    exact hr3.laid.stack (hst htrue).1 hend.1 (by omega) hend.2

theorem read_congr {l : List UInt8} (h : Read w root va l) (hw : ∀ x, userByte w' root x = userByte w root x) : Read w' root va l := by
  intro i hi
  rw [hw]
  exact h i hi

theorem ArgStack.congr (h : ArgStack w root sz sp args addrs) (hw : ∀ x, userByte w' root x = userByte w root x) :
    ArgStack w' root sz sp args addrs := by
  refine ⟨h.aligned, h.base, h.count, read_congr h.pointers hw, fun i arg a h1 h2 => ?_, h.apart, h.inside⟩
  obtain ⟨h3, h4⟩ := h.strings i arg a h1 h2
  exact ⟨h3, read_congr h4 hw⟩

theorem load_setRegs (tf entry : Nat) (w : Mem) (hsp : sp < 2 ^ 64) :
    load (setRegs tf sp entry w) (tf + 120) 8 = sp ∧ load (setRegs tf sp entry w) (tf + 48) 8 = sp := by
  have hpow : (256 : Nat) ^ 8 = 2 ^ 64 := by norm_num
  unfold setRegs
  constructor
  · rw [load_store_of_disjoint (.inr (by omega)), load_store_of_disjoint (.inr (by omega)), load_store, hpow,
      Nat.mod_eq_of_lt hsp]
  · rw [load_store, hpow, Nat.mod_eq_of_lt hsp]

/-- The stack of a new program, and that `exec` fails for the sake of the arguments only if they do not fit. -/
theorem exec_argument_stack (ly : Layout) (s : Sys) (p : Fin NPROC) (prog : Program) (entry : Nat) (h : Inv ly s)
    (hp : (s.proc p).state ≠ .unused) (hlen : prog.args.length < MAXARG)
    (hargs : ∀ arg ∈ prog.args, (0 : UInt8) ∉ arg ∧ arg.length < PGSIZE) :
    (∀ r t, exec ly p prog entry s = .ok (r, t) → r ≠ -1 → r = prog.args.length ∧
      load t.mach.mem ((t.proc p).trapframe + 120) 8 = load t.mach.mem ((t.proc p).trapframe + 48) 8 ∧
      ∃ addrs, ArgStack t.mach.mem (t.proc p).pagetable (t.proc p).sz (load t.mach.mem ((t.proc p).trapframe + 48) 8)
        prog.args addrs) ∧
    (∀ m used own root us tf sz, At ly.stop m used own root us (some tf) (some ly.trampoline) → tf ∈ used → tf ∉ own →
      Sized sz us → ∃ r t, execStack ly root prog.args sz m = .ok (r, t) ∧
        (r.2.1 = pgRoundUp sz ∧ r.1 = false ∨ r.2.1 = pgRoundUp sz + 2 * PGSIZE ∧ (r.1 = true ↔ Fits prog.args))) := by
  have harg : ∀ arg ∈ prog.args, arg.length < PGSIZE := fun arg ha => (hargs arg ha).2
  constructor
  · intro r t hexec hr
    obtain ⟨used, own, us, hinv⟩ := h
    obtain ⟨rfl, ⟨m2, m3, used2, used3, own2, own3, us2, us3, root, sz2, sz3, sp, hat2, hz2, htf, hn, hstack, hat3, hmem, hregs,
      hproc⟩, -⟩ := ((hinv.exec_spec hp).ok hexec).resolve_left (fun hc => hr hc.1)
    have hal := hinv.frame_aligned hp
    have hspec := (execStack_exact hat2 htf hn hz2 hlen harg).ok hstack
    obtain ⟨hsz, -, hargs⟩ := hspec.resolve_left (fun hc => Bool.noConfusion hc.2)
    obtain ⟨addrs, hargs⟩ := hargs rfl
    have hsp : sp < 2 ^ 64 := by
      have h1 := (hargs.inside _ mem_cons_self).2
      have h2 := hz2.1.trans hat2.le_stop
      have h3 : pgRoundUp sz2 ≤ PHYSTOP := by
        rw [hat2.round hz2]
        exact hat2.le_stop
      have h4 : PHYSTOP + 2 * PGSIZE < 2 ^ 64 := by decide
      dsimp only at h1 hsz
      omega
    have hload : ∀ off, off + 8 ≤ PGSIZE → load t.mach.mem ((s.proc p).trapframe + off) 8 =
        load (setRegs (s.proc p).trapframe sp entry m3.mem) ((s.proc p).trapframe + off) 8 := fun off hoff =>
      load_congr (fun x h1 h2 => hregs x (round_of_page hal (by omega) (by omega)))
    obtain ⟨ha1, hsp'⟩ := load_setRegs (s.proc p).trapframe entry m3.mem hsp
    refine ⟨rfl, ?_⟩
    rw [hproc]
    dsimp only
    rw [hload 120 (by decide), hload 48 (by decide), ha1, hsp']
    exact ⟨rfl, addrs, hargs.congr (fun x => hat3.userByte_congr hmem)⟩
  · intro m used own root us tf sz hat htf hn hz
    obtain ⟨r, t, hrun, hr⟩ := (execStack_exact hat htf hn hz hlen harg).exists_ok
    exact ⟨r, t, hrun, hr.imp id (fun hr => ⟨hr.1, hr.2.1⟩)⟩

theorem exec_argument_stack_first :
    (∀ r t, exec smallLayout 0 ⟨true, [], [[97, 98], [99]]⟩ 0 firstProcess = .ok (r, t) → r ≠ -1 → r = (2 : Nat) ∧
      load t.mach.mem ((t.proc 0).trapframe + 120) 8 = load t.mach.mem ((t.proc 0).trapframe + 48) 8 ∧
      ∃ addrs, ArgStack t.mach.mem (t.proc 0).pagetable (t.proc 0).sz (load t.mach.mem ((t.proc 0).trapframe + 48) 8)
        [[97, 98], [99]] addrs) ∧
    Fits [[97, 98], [99]] :=
  ⟨(exec_argument_stack smallLayout firstProcess 0 ⟨true, [], [[97, 98], [99]]⟩ 0 firstProcess_inv (by decide +kernel)
    (by decide) (by decide)).1, by decide⟩

end Stack

end Xv6Rcu.Space

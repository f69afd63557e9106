import Xv6Rcu.CopyOut

namespace Xv6Rcu.Vm

open Memory Kalloc Radix List

section Reads

/-- The bytes of physical memory at `[a, a + n)`. -/
def bytes (m : Mem) (a n : Nat) : List UInt8 := (List.range n).map (fun i => m (a + i))

/-- The bytes that are stored at `dst`, and whether 0 is returned. -/
def copyinLoop (s : Machine) (pagetable : Nat) : Nat → Nat → Nat → Bool × List UInt8
  | 0, _, _ => (true, [])
  | fuel + 1, srcva, len =>
    if len = 0 then (true, [])
    else
      let pa0 := walkaddr s pagetable (pgRoundDown srcva)
      if pa0 = 0 then (false, [])
      else
        let n := min (PGSIZE - (srcva - pgRoundDown srcva)) len
        let r := copyinLoop s pagetable fuel ((pgRoundDown srcva + PGSIZE) % 2 ^ 64) (len - n)
        (r.1, bytes s.mem (pa0 + (srcva - pgRoundDown srcva)) n ++ r.2)

def copyin (s : Machine) (pagetable srcva len : Nat) : Bool × List UInt8 := copyinLoop s pagetable len srcva len

/-- The inner loop of `copyinstr` on `n` bytes at `p`: what is stored at `dst`, and `got_null`. -/
def copyinstrPage (m : Mem) : Nat → Nat → Bool × List UInt8
  | _, 0 => (false, [])
  | p, n + 1 =>
    if m p = 0 then (true, [0])
    else
      let r := copyinstrPage m (p + 1) n
      (r.1, m p :: r.2)

def copyinstrLoop (s : Machine) (pagetable : Nat) : Nat → Nat → Nat → Bool × List UInt8
  | 0, _, _ => (false, [])
  | fuel + 1, srcva, max =>
    if max = 0 then (false, [])
    else
      let pa0 := walkaddr s pagetable (pgRoundDown srcva)
      if pa0 = 0 then (false, [])
      else
        let n := min (PGSIZE - (srcva - pgRoundDown srcva)) max
        let r := copyinstrPage s.mem (pa0 + (srcva - pgRoundDown srcva)) n
        if r.1 = true then r
        else
          let r' := copyinstrLoop s pagetable fuel ((pgRoundDown srcva + PGSIZE) % 2 ^ 64) (max - n)
          (r'.1, r.2 ++ r'.2)

/-- The bytes that are stored at `dst`, and whether 0 is returned. -/
def copyinstr (s : Machine) (pagetable srcva max : Nat) : Bool × List UInt8 := copyinstrLoop s pagetable max srcva max

def strlen (buf : List UInt8) : Nat := (buf.takeWhile (fun c => c != 0)).length

/-- `fetchstr` with a bound that is not negative. -/
def fetchstr (s : Machine) (pagetable addr max : Nat) : Int :=
  let r := copyinstr s pagetable addr max
  if r.1 = false then -1 else strlen r.2

end Reads

section Bytes

variable {s : Machine} {m m' : Mem} {root va : Nat}

/-- The byte of user memory at `va`. -/
def userByte (m : Mem) (root va : Nat) : Option UInt8 :=
  if va < MAXVA then
    match mapping m root va with
    | none => none
    | some (pa, fl) => if fl &&& PTE_U = 0 ∨ pa = 0 then none else some (m (pa + va % PGSIZE))
  else none

theorem userByte_of_mapping {pa fl : Nat} (hva : va < MAXVA) (hm : mapping m root va = some (pa, fl))
    (hU : fl &&& PTE_U ≠ 0) (h0 : pa ≠ 0) : userByte m root va = some (m (pa + va % PGSIZE)) := by
  rw [userByte, if_pos hva, hm]
  exact if_neg (not_or.mpr ⟨hU, h0⟩)

theorem userByte_of_not (h : ¬ Accessible m root va) : userByte m root va = none := by
  unfold userByte
  split
  case isFalse => rfl
  case isTrue hva =>
    cases hm : mapping m root va with
    | none => rfl
    | some x =>
      obtain ⟨pa, fl⟩ := x
      dsimp only
      split
      case isTrue => rfl
      case isFalse hc =>
        obtain ⟨hU, h0⟩ := not_or.mp hc
        exact absurd ⟨hva, pa, fl, hm, hU, h0⟩ h

theorem next_page (hva : va < MAXVA) : (pgRoundDown va + PGSIZE) % 2 ^ 64 = va + (PGSIZE - va % PGSIZE) := by
  have hM : MAXVA + PGSIZE < 2 ^ 64 := by decide
  obtain ⟨-, -, h1, h2⟩ := round_page va
  rw [Nat.mod_eq_of_lt (by omega)]
  omega

end Bytes

section Exact

variable {s : Machine} {m m' : Mem} {root va : Nat}

theorem UserTable.congr (h : UserTable m root) (ht : ∀ q, q.length < 3 → table child (tab m') root q = table child (tab m) root q)
    (hm : ∀ va, mapping m' root va = mapping m root va) : UserTable m' root := by
  refine ⟨h.aligned, fun va va' pa fl fl' hva hva' h1 h2 => ?_, fun va pa fl q t hva h1 hU hq h2 => ?_⟩
  · rw [hm] at h1 h2
    exact h.once va va' pa fl fl' hva hva' h1 h2
  · rw [hm] at h1
    rw [ht q hq] at h2
    exact h.apart va pa fl q t hva h1 hU hq h2

/-- The bytes of the user in `[va, va + l.length)` are those of `l`, and all others as before. -/
def Stored (m : Mem) (root va : Nat) (l : List UInt8) (m' : Mem) : Prop :=
  (∀ x, Accessible m' root x ↔ Accessible m root x) ∧
    ∀ x, userByte m' root x = if va ≤ x ∧ x < va + l.length then some (l.getD (x - va) 0) else userByte m root x

theorem stored_nil : Stored m root va [] m := by
  refine ⟨fun _ => Iff.rfl, fun x => ?_⟩
  rw [if_neg (by rw [length_nil]; omega)]

theorem Stored.append {m'' : Mem} {l l' : List UInt8} (h : Stored m root va l m')
    (h' : Stored m' root (va + l.length) l' m'') : Stored m root va (l ++ l') m'' := by
  refine ⟨fun x => (h'.1 x).trans (h.1 x), fun x => ?_⟩
  rw [h'.2 x, h.2 x, length_append]
  by_cases h2 : va + l.length ≤ x ∧ x < va + l.length + l'.length
  · rw [if_pos h2, if_pos (by omega), getD_append_right _ _ _ _ (by omega)]
    congr 2
    omega
  · rw [if_neg h2]
    by_cases h1 : va ≤ x ∧ x < va + l.length
    · rw [if_pos h1, if_pos (by omega), getD_append _ _ _ _ (by omega)]
    · rw [if_neg h1, if_neg (by omega)]

theorem Stored.nil {m'' : Mem} {va' : Nat} {l : List UInt8} (h : Stored m root va l m') (h' : Stored m' root va' [] m'') :
    Stored m root va l m'' := by
  refine ⟨fun x => (h'.1 x).trans (h.1 x), fun x => ?_⟩
  rw [h'.2 x, if_neg (by rw [length_nil]; omega), h.2 x]

theorem stored_put {pa fl : Nat} {l : List UInt8} (hu : UserTable m root) (hva : va < MAXVA)
    (hm : mapping m root va = some (pa, fl)) (hU : fl &&& PTE_U ≠ 0) (h0 : pa ≠ 0) (hl : va % PGSIZE + l.length ≤ PGSIZE) :
    Stored m root va l (put m (pa + va % PGSIZE) l) ∧ UserTable (put m (pa + va % PGSIZE) l) root := by
  have hpa := mapping_aligned hm
  have hkeep : ∀ q t, q.length < 3 → table child (tab m) root q = some t →
      ∀ i, tab (put m (pa + va % PGSIZE) l) t i = tab m t i := by
    intro q t hq ht i
    refine tab_congr (fun x hx hlt => put_of_disjoint ?_) i
    by_contra hc
    exact hu.apart va pa fl q t hva hm hU hq ht
      (pages_apart (table_aligned hu.aligned ht) hpa hx hlt (by omega) (by omega))
  have hmap : ∀ x, mapping (put m (pa + va % PGSIZE) l) root x = mapping m root x := fun x => (mapping_of_tables hkeep).2
  have hacc : ∀ x, Accessible (put m (pa + va % PGSIZE) l) root x ↔ Accessible m root x := by
    intro x
    unfold Accessible
    rw [hmap]
  have hin : ∀ x, va ≤ x ∧ x < va + l.length → x / PGSIZE = va / PGSIZE := by
    intro x hx
    unfold PGSIZE at *
    omega
  refine ⟨⟨hacc, fun x => ?_⟩, hu.congr (fun q hq => (mapping_of_tables hkeep : _ ∧ mapping _ root 0 = _).1 q hq) hmap⟩
  by_cases hx : Accessible m root x
  · obtain ⟨hxlt, pa', fl', hm', hU', h0'⟩ := hx
    rw [userByte_of_mapping hxlt ((hmap x).trans hm') hU' h0', userByte_of_mapping hxlt hm' hU' h0']
    have hpa' := mapping_aligned hm'
    by_cases hpage : x / PGSIZE = va / PGSIZE
    · obtain rfl : pa' = pa := by
        rw [mapping_congr hpage, hm] at hm'
        exact (Prod.mk.inj (Option.some.inj hm')).1.symm
      rw [put]
      by_cases hx : va ≤ x ∧ x < va + l.length
      · have hoff : pa' + x % PGSIZE - (pa' + va % PGSIZE) = x - va := by
          unfold PGSIZE at *
          omega
        have hrange : pa' + va % PGSIZE ≤ pa' + x % PGSIZE ∧ pa' + x % PGSIZE < pa' + va % PGSIZE + l.length := by
          unfold PGSIZE at *
          omega
        rw [if_pos hx, if_pos hrange, hoff]
      · have hrange : ¬ (pa' + va % PGSIZE ≤ pa' + x % PGSIZE ∧ pa' + x % PGSIZE < pa' + va % PGSIZE + l.length) := by
          unfold PGSIZE at *
          omega
        rw [if_neg hx, if_neg hrange]
    · have hne : pa' ≠ pa := fun hc => hpage (hu.once x va pa' fl' fl hxlt hva hm' (hc ▸ hm))
      have hmod : x % PGSIZE < PGSIZE := (round_page x).2.2.2
      rw [if_neg (fun hc => hpage (hin x hc)), put_of_disjoint]
      by_contra hc
      exact hne (pages_apart (x := pa' + x % PGSIZE) hpa' hpa (Nat.le_add_right _ _) (by omega) (by omega) (by omega))
  · rw [userByte_of_not hx, userByte_of_not (fun hc => hx ((hacc x).mp hc)), if_neg]
    exact fun hc => hx ((accessible_congr (hin x hc)).mpr ⟨hva, pa, fl, hm, hU, h0⟩)

theorem copyoutLoop_exact (fuel va : Nat) (src : List UInt8) (hu : UserTable s.mem root) (hlen : src.length ≤ fuel) :
    ∃ k, k ≤ src.length ∧ Stored s.mem root va (src.take k) (copyoutLoop root fuel va src s).2.mem ∧
      UserTable (copyoutLoop root fuel va src s).2.mem root ∧ (∀ x, va ≤ x → x < va + k → Accessible s.mem root x) ∧
      ((copyoutLoop root fuel va src s).1 = true → k = src.length) ∧
      ((copyoutLoop root fuel va src s).1 = false → k < src.length ∧ ¬ Accessible s.mem root (va + k) ∧
        (k = 0 ∨ (va + k) % PGSIZE = 0)) := by
  induction fuel generalizing s va src with
  | zero =>
    obtain rfl : src = [] := eq_nil_of_length_eq_zero (by omega)
    exact ⟨0, le_rfl, stored_nil, hu, fun x h1 h2 => by omega, fun _ => rfl, (by intros; contradiction)⟩
  | succ fuel ih =>
    rw [copyoutLoop]
    by_cases hnil : src = []
    · rw [if_pos hnil, hnil]
      exact ⟨0, le_rfl, stored_nil, hu, fun x h1 h2 => by omega, fun _ => rfl, (by intros; contradiction)⟩
    rw [if_neg hnil]
    dsimp only
    have hpos := length_pos_iff.mpr hnil
    rcases walkaddr_cases s root va with ⟨h0, hno⟩ | ⟨pa, fl, hw, h0, hlt, hm, hU⟩
    · rw [if_pos h0]
      exact ⟨0, Nat.zero_le _, stored_nil, hu, fun x h1 h2 => by omega, (by intros; contradiction), fun _ => ⟨hpos, hno, .inl rfl⟩⟩
    rw [hw, if_neg h0, next_page hlt, (round_page va).2.1]
    have hoff := (round_page va).2.2.2
    generalize hn : min (PGSIZE - va % PGSIZE) src.length = n
    have htake : (src.take n).length = n := by
      rw [length_take]
      omega
    obtain ⟨hst, hu'⟩ := stored_put hu hlt hm hU h0 (l := src.take n) (by omega)
    have hpage : ∀ x, va ≤ x → x < va + n → Accessible s.mem root x := by
      intro x h1 h2
      refine (accessible_congr ?_).mpr ⟨hlt, pa, fl, hm, hU, h0⟩
      unfold PGSIZE at *
      omega
    obtain ⟨k, hk, hst', hu'', hacc, hok, hbad⟩ := ih (s := s.setMem (put s.mem (pa + va % PGSIZE) (src.take n)))
      (va + (PGSIZE - va % PGSIZE)) (src.drop n) hu' (by rw [length_drop]; omega)
    rw [length_drop] at hk hok hbad
    by_cases hlast : n = src.length
    · -- The range ends in this page.
      obtain rfl : k = 0 := by omega
      refine ⟨n, by omega, ?_, hu'', hpage, fun _ => hlast, fun hc => absurd (hbad hc).1 (by omega)⟩
      rw [take_zero] at hst'
      exact hst.nil hst'
    · obtain hnext : va + (PGSIZE - va % PGSIZE) = va + n := by omega
      rw [hnext] at hst' hu'' hacc hok hbad ⊢
      refine ⟨n + k, by omega, ?_, hu'', fun x h1 h2 => ?_, fun hc => by rw [hok hc]; omega, fun hc => ?_⟩
      · rw [take_add]
        exact hst.append (by rw [htake]; exact hst')
      · by_cases hx : x < va + n
        · exact hpage x h1 hx
        · exact (hst.1 x).mp (hacc x (by omega) (by omega))
      · obtain ⟨h1, h2, h3⟩ := hbad hc
        rw [← add_assoc]
        refine ⟨by omega, fun hacc => h2 ((hst.1 _).mpr hacc), .inr ?_⟩
        rcases h3 with rfl | h3
        · rw [add_zero]
          unfold PGSIZE at *
          omega
        · exact h3

theorem copyout_stored (va : Nat) (src : List UInt8) (hu : UserTable s.mem root) :
    ((copyout s root va src).1 = true ↔ ∀ x, va ≤ x → x < va + src.length → Accessible s.mem root x) ∧
      ((copyout s root va src).1 = true → Stored s.mem root va src (copyout s root va src).2.mem ∧
        UserTable (copyout s root va src).2.mem root) := by
  obtain ⟨k, hk, hst, hu', hacc, hok, hbad⟩ := copyoutLoop_exact src.length va src hu le_rfl
  refine ⟨⟨fun hr x h1 h2 => hacc x h1 (by rw [hok hr]; exact h2), fun hall => ?_⟩, fun hr => ⟨?_, hu'⟩⟩
  · by_contra hr
    obtain ⟨h4, h5, -⟩ := hbad (Bool.eq_false_of_not_eq_true hr)
    exact h5 (hall _ (Nat.le_add_right _ _) (by omega))
  · rw [hok hr, take_length] at hst
    exact hst

/-- The bytes of `l` are in user memory at `va`. -/
def Read (m : Mem) (root va : Nat) (l : List UInt8) : Prop := ∀ i < l.length, userByte m root (va + i) = some (l.getD i 0)

theorem read_nil : Read m root va [] := nofun

theorem Read.append {l l' : List UInt8} (h : Read m root va l) (h' : Read m root (va + l.length) l') :
    Read m root va (l ++ l') := by
  intro i hi
  rw [length_append] at hi
  by_cases hl : i < l.length
  · rw [h i hl, getD_append _ _ _ _ hl]
  · have hx : va + i = va + l.length + (i - l.length) := by omega
    rw [hx, h' (i - l.length) (by omega), getD_append_right _ _ _ _ (by omega)]

theorem Read.accessible {l : List UInt8} (h : Read m root va l) {x : Nat} (h1 : va ≤ x) (h2 : x < va + l.length) :
    Accessible m root x := by
  by_contra hc
  have hx := h (x - va) (by omega)
  rw [Nat.add_sub_cancel' h1, userByte_of_not hc] at hx
  exact nomatch hx

theorem length_bytes (m : Mem) (a n : Nat) : (bytes m a n).length = n := by
  rw [bytes, length_map, length_range]

theorem getD_bytes {a n i : Nat} (h : i < n) : (bytes m a n).getD i 0 = m (a + i) := by
  rw [bytes, getD_eq_getElem?_getD, getElem?_map, getElem?_range h]
  rfl

theorem userByte_page {pa fl i : Nat} (hva : va < MAXVA) (hm : mapping m root va = some (pa, fl)) (hU : fl &&& PTE_U ≠ 0)
    (h0 : pa ≠ 0) (hi : va % PGSIZE + i < PGSIZE) : userByte m root (va + i) = some (m (pa + va % PGSIZE + i)) := by
  have hpage : (va + i) / PGSIZE = va / PGSIZE := by
    unfold PGSIZE at *
    omega
  have hmod : (va + i) % PGSIZE = va % PGSIZE + i := by
    unfold PGSIZE at *
    omega
  have hacc : Accessible m root va := ⟨hva, pa, fl, hm, hU, h0⟩
  have hlt : va + i < MAXVA := ((accessible_congr hpage).mpr hacc).1
  rw [userByte_of_mapping hlt ((mapping_congr hpage).trans hm) hU h0, hmod, add_assoc]

theorem copyinLoop_exact (s : Machine) (root fuel va len : Nat) (hlen : len ≤ fuel) :
    Read s.mem root va (copyinLoop s root fuel va len).2 ∧
      ((copyinLoop s root fuel va len).1 = true → (copyinLoop s root fuel va len).2.length = len) ∧
      ((copyinLoop s root fuel va len).1 = false → (copyinLoop s root fuel va len).2.length < len ∧
        ¬ Accessible s.mem root (va + (copyinLoop s root fuel va len).2.length)) := by
  induction fuel generalizing va len with
  | zero =>
    obtain rfl : len = 0 := by omega
    exact ⟨read_nil, fun _ => rfl, nofun⟩
  | succ fuel ih =>
    rw [copyinLoop]
    by_cases hzero : len = 0
    · rw [if_pos hzero, hzero]
      exact ⟨read_nil, fun _ => rfl, nofun⟩
    rw [if_neg hzero]
    dsimp only
    rcases walkaddr_cases s root va with ⟨h0, hno⟩ | ⟨pa, fl, hw, h0, hlt, hm, hU⟩
    · rw [if_pos h0]
      exact ⟨read_nil, nofun, fun _ => ⟨by rw [length_nil]; omega, hno⟩⟩
    rw [hw, if_neg h0, next_page hlt, (round_page va).2.1]
    have hoff := (round_page va).2.2.2
    generalize hn : min (PGSIZE - va % PGSIZE) len = n
    have hread : Read s.mem root va (bytes s.mem (pa + va % PGSIZE) n) := by
      intro i hi
      rw [length_bytes] at hi
      rw [getD_bytes hi, userByte_page hlt hm hU h0 (by omega)]
    obtain ⟨h1, h2, h3⟩ := ih (va + (PGSIZE - va % PGSIZE)) (len - n) (by omega)
    dsimp only
    rw [length_append, length_bytes]
    by_cases hlast : n = len
    · have hlen0 : len - n = 0 := by omega
      rw [hlen0] at h1 h2 h3 ⊢
      cases hr : (copyinLoop s root fuel (va + (PGSIZE - va % PGSIZE)) 0).1 with
      | false => exact absurd (h3 hr).1 (Nat.not_lt_zero _)
      | true =>
        have hnil := eq_nil_of_length_eq_zero (h2 hr)
        rw [hnil, append_nil]
        exact ⟨hread, fun _ => by rw [length_nil]; omega, nofun⟩
    · have hnext : va + (PGSIZE - va % PGSIZE) = va + n := by omega
      rw [hnext] at h1 h2 h3 ⊢
      refine ⟨hread.append (by rw [length_bytes]; exact h1), fun hr => by rw [h2 hr]; omega, fun hr => ?_⟩
      obtain ⟨h4, h5⟩ := h3 hr
      rw [← add_assoc]
      exact ⟨by omega, h5⟩

/-- `copyout` and `copyin` succeed if and only if the user can access the whole range.
Then `copyout` stores there and nowhere else, and `copyin` reads what is there;
if it fails, `copyout` has stored up to a page boundary. -/
theorem copyout_copyin_exact (s : Machine) (root va : Nat) (src : List UInt8) (h : UserTable s.mem root) :
    ((copyout s root va src).1 = true ↔ ∀ x, va ≤ x → x < va + src.length → Accessible s.mem root x) ∧
    ((copyout s root va src).1 = true → ∀ x, userByte (copyout s root va src).2.mem root x =
      if va ≤ x ∧ x < va + src.length then some (src.getD (x - va) 0) else userByte s.mem root x) ∧
    ((copyout s root va src).1 = false → ∃ k < src.length, (k = 0 ∨ (va + k) % PGSIZE = 0) ∧
      ∀ x, userByte (copyout s root va src).2.mem root x =
        if va ≤ x ∧ x < va + k then some (src.getD (x - va) 0) else userByte s.mem root x) ∧
    (∀ len, ((copyin s root va len).1 = true ↔ ∀ x, va ≤ x → x < va + len → Accessible s.mem root x) ∧
      ((copyin s root va len).1 = true → (copyin s root va len).2.length = len ∧
        ∀ i < len, userByte s.mem root (va + i) = some ((copyin s root va len).2.getD i 0))) ∧
    ((copyout s root va src).1 = true → copyin (copyout s root va src).2 root va src.length = (true, src)) := by
  obtain ⟨hiff, hstored⟩ := copyout_stored va src h
  have hin : ∀ (s : Machine) len, (copyin s root va len).1 = true ↔ ∀ x, va ≤ x → x < va + len → Accessible s.mem root x := by
    intro s len
    obtain ⟨h1, h2, h3⟩ := copyinLoop_exact s root len va len le_rfl
    constructor
    · intro hr x hx hlt
      exact h1.accessible hx (by rw [h2 hr]; exact hlt)
    · intro hall
      by_contra hr
      obtain ⟨h4, h5⟩ := h3 (Bool.eq_false_of_not_eq_true hr)
      exact h5 (hall _ (Nat.le_add_right _ _) (by omega))
  have hread : ∀ (s : Machine) len, (copyin s root va len).1 = true → (copyin s root va len).2.length = len ∧
      ∀ i < len, userByte s.mem root (va + i) = some ((copyin s root va len).2.getD i 0) := by
    intro s len hr
    obtain ⟨h1, h2, -⟩ := copyinLoop_exact s root len va len le_rfl
    have hlen : (copyin s root va len).2.length = len := h2 hr
    exact ⟨hlen, fun i hi => h1 i (by rw [h2 hr]; exact hi)⟩
  have hfull : (copyout s root va src).1 = true → ∀ x, userByte (copyout s root va src).2.mem root x =
      if va ≤ x ∧ x < va + src.length then some (src.getD (x - va) 0) else userByte s.mem root x := by
    exact fun hr => (hstored hr).1.2
  refine ⟨hiff, hfull, fun hr => ?_, fun len => ⟨hin s len, hread s len⟩, fun hr => ?_⟩
  · obtain ⟨k, hk, hst, -, -, -, hbad⟩ := copyoutLoop_exact src.length va src h le_rfl
    obtain ⟨h4, -, h6⟩ := hbad hr
    refine ⟨k, h4, h6, fun x => (hst.2 x).trans ?_⟩
    rw [ length_take, min_eq_left hk]
    by_cases hx : va ≤ x ∧ x < va + k
    · rw [if_pos hx, if_pos hx, getD_eq_getElem?_getD, getElem?_take_of_lt (by omega), ← getD_eq_getElem?_getD]
    · rw [if_neg hx, if_neg hx]
  · have hr' : (copyin (copyout s root va src).2 root va src.length).1 = true :=
      (hin _ _).mpr (fun x h1 h2 => ((hstored hr).1.1 x).mpr (hiff.mp hr x h1 h2))
    obtain ⟨hlen, hbytes⟩ := hread _ _ hr'
    refine Prod.ext hr' (ext_getElem hlen (fun i h1 h2 => ?_))
    have hi := hbytes i h2
    rw [hfull hr, if_pos (by omega), Nat.add_sub_cancel_left] at hi
    rw [← getD_eq_getElem _ 0 h1, ← getD_eq_getElem _ 0 h2]
    exact (Option.some.inj hi).symm

theorem copyout_copyin_exact_straddle :
    copyin (copyout textAndData 0x80000000 0xffe [1, 2, 3, 4]).2 0x80000000 0xffe 4 = (true, [1, 2, 3, 4]) :=
  (copyout_copyin_exact textAndData 0x80000000 0xffe [1, 2, 3, 4] textAndData_user).2.2.2.2 (by decide +kernel)

end Exact

section Strings

variable {s : Machine} {m : Mem} {root va : Nat}

def Ends (l : List UInt8) : Prop := ∃ k, l.length = k + 1 ∧ l.getD k 0 = 0 ∧ ∀ i < k, l.getD i 0 ≠ 0

theorem ends_append {l l' : List UInt8} (h : ∀ i < l.length, l.getD i 0 ≠ 0) (h' : Ends l') : Ends (l ++ l') := by
  obtain ⟨k, hk, h0, hne⟩ := h'
  refine ⟨l.length + k, by rw [length_append]; omega, ?_, fun i hi => ?_⟩
  · rw [getD_append_right _ _ _ _ (by omega), Nat.add_sub_cancel_left]
    exact h0
  · by_cases hl : i < l.length
    · rw [getD_append _ _ _ _ hl]
      exact h i hl
    · rw [getD_append_right _ _ _ _ (by omega)]
      exact hne _ (by omega)

theorem copyinstrPage_spec (m : Mem) (p n : Nat) : ∃ k, k ≤ n ∧ (copyinstrPage m p n).2 = bytes m p k ∧
    ((copyinstrPage m p n).1 = true → Ends (bytes m p k)) ∧
    ((copyinstrPage m p n).1 = false → k = n ∧ ∀ i < k, (bytes m p k).getD i 0 ≠ 0) := by
  induction n generalizing p with
  | zero => exact ⟨0, le_rfl, rfl, nofun, fun _ => ⟨rfl, nofun⟩⟩
  | succ n ih =>
    have hcons : ∀ k, bytes m p (k + 1) = m p :: bytes m (p + 1) k := by
      intro k
      rw [bytes, bytes, range_succ_eq_map, map_cons, map_map]
      refine congrArg _ (map_congr_left (fun i _ => ?_))
      change m (p + (i + 1)) = m (p + 1 + i)
      rw [add_assoc, add_comm 1]
    rw [copyinstrPage]
    by_cases h0 : m p = 0
    · rw [if_pos h0]
      have hone : bytes m p 1 = [0] := by rw [hcons 0, h0]; rfl
      refine ⟨1, by omega, hone.symm, fun _ => ⟨0, ?_, ?_, nofun⟩, nofun⟩
      · rw [hone]
        rfl
      · rw [hone]
        rfl
    · rw [if_neg h0]
      obtain ⟨k, hk, hbytes, hend, hall⟩ := ih (p + 1)
      have hfirst : ∀ i < [m p].length, [m p].getD i 0 ≠ 0 := by
        intro i hi
        obtain rfl : i = 0 := by
          rw [length_singleton] at hi
          omega
        exact h0
      refine ⟨k + 1, by omega, ?_, fun hr => ?_, fun hr => ?_⟩
      · dsimp only
        rw [hcons, hbytes]
      · rw [hcons]
        exact ends_append hfirst (hend hr)
      · obtain ⟨hkn, hne⟩ := hall hr
        refine ⟨by omega, fun i hi => ?_⟩
        rw [hcons]
        cases i with
        | zero => exact h0
        | succ i => exact hne i (by omega)

/-- `copyinstr` reads up to the first zero byte, the bound or the first page that
the user cannot access. -/
theorem copyinstrLoop_exact (s : Machine) (root fuel va max : Nat) (hmax : max ≤ fuel) :
    Read s.mem root va (copyinstrLoop s root fuel va max).2 ∧ (copyinstrLoop s root fuel va max).2.length ≤ max ∧
      ((copyinstrLoop s root fuel va max).1 = true → Ends (copyinstrLoop s root fuel va max).2) ∧
      ((copyinstrLoop s root fuel va max).1 = false →
        (∀ i < (copyinstrLoop s root fuel va max).2.length, (copyinstrLoop s root fuel va max).2.getD i 0 ≠ 0) ∧
        ((copyinstrLoop s root fuel va max).2.length = max ∨
          ¬ Accessible s.mem root (va + (copyinstrLoop s root fuel va max).2.length))) := by
  induction fuel generalizing va max with
  | zero =>
    obtain rfl : max = 0 := by omega
    exact ⟨read_nil, le_rfl, nofun, fun _ => ⟨nofun, .inl rfl⟩⟩
  | succ fuel ih =>
    rw [copyinstrLoop]
    by_cases hzero : max = 0
    · rw [if_pos hzero, hzero]
      exact ⟨read_nil, le_rfl, nofun, fun _ => ⟨nofun, .inl rfl⟩⟩
    rw [if_neg hzero]
    dsimp only
    rcases walkaddr_cases s root va with ⟨h0, hno⟩ | ⟨pa, fl, hw, h0, hlt, hm, hU⟩
    · rw [if_pos h0]
      exact ⟨read_nil, Nat.zero_le _, nofun, fun _ => ⟨nofun, .inr hno⟩⟩
    rw [hw, if_neg h0, next_page hlt, (round_page va).2.1]
    have hoff := (round_page va).2.2.2
    generalize hn : min (PGSIZE - va % PGSIZE) max = n
    obtain ⟨k, hk, hbytes, hend, hall⟩ := copyinstrPage_spec s.mem (pa + va % PGSIZE) n
    have hread : Read s.mem root va (bytes s.mem (pa + va % PGSIZE) k) := by
      intro i hi
      rw [length_bytes] at hi
      rw [getD_bytes hi, userByte_page hlt hm hU h0 (by omega)]
    by_cases hr : (copyinstrPage s.mem (pa + va % PGSIZE) n).1 = true
    · rw [if_pos hr, hbytes, length_bytes]
      exact ⟨hread, by omega, fun _ => hend hr, fun hc => absurd (hr.symm.trans hc) nofun⟩
    · obtain ⟨rfl, hne⟩ := hall (Bool.eq_false_of_not_eq_true hr)
      rw [if_neg hr, hbytes]
      dsimp only
      rw [length_append, length_bytes]
      obtain ⟨h1, h2, h3, h4⟩ := ih (va + (PGSIZE - va % PGSIZE)) (max - k) (by omega)
      by_cases hlast : k = max
      · -- The bound is reached in this page.
        have hmax0 : max - k = 0 := by omega
        rw [hmax0] at h1 h2 h3 h4 ⊢
        have hnil := eq_nil_of_length_eq_zero (Nat.le_zero.mp h2)
        rw [hnil] at h3 ⊢
        rw [append_nil]
        refine ⟨hread, by rw [length_nil]; omega, fun hr' => ?_, fun _ => ⟨hne, .inl (by rw [length_nil]; omega)⟩⟩
        obtain ⟨j, hj, -⟩ := h3 hr'
        exact nomatch hj
      · have hnext : va + (PGSIZE - va % PGSIZE) = va + k := by omega
        rw [hnext] at h1 h2 h3 h4 ⊢
        have hne' : ∀ i < (bytes s.mem (pa + va % PGSIZE) k).length, (bytes s.mem (pa + va % PGSIZE) k).getD i 0 ≠ 0 := by
          rw [length_bytes]
          exact hne
        refine ⟨hread.append (by rw [length_bytes]; exact h1), by omega, fun hr' => ends_append hne' (h3 hr'), fun hr' => ?_⟩
        obtain ⟨h5, h6⟩ := h4 hr'
        refine ⟨fun i hi => ?_, h6.imp (fun h => by omega) (fun h => by rw [← add_assoc]; exact h)⟩
        by_cases hik : i < k
        · rw [getD_append _ _ _ _ (by rw [length_bytes]; exact hik)]
          exact hne i hik
        · rw [getD_append_right _ _ _ _ (by rw [length_bytes]; omega), length_bytes]
          exact h5 _ (by omega)

/-- A string of `k` bytes that are not zero, and a zero byte, all of which the user can access. -/
def UserString (m : Mem) (root va k : Nat) : Prop :=
  (∀ i ≤ k, Accessible m root (va + i)) ∧ userByte m root (va + k) = some 0 ∧ ∀ i < k, userByte m root (va + i) ≠ some 0

theorem UserString.unique {k k' : Nat} (h : UserString m root va k) (h' : UserString m root va k') : k = k' := by
  rcases Nat.lt_trichotomy k k' with hlt | heq | hlt
  · exact absurd h.2.1 (h'.2.2 k hlt)
  · exact heq
  · exact absurd h'.2.1 (h.2.2 k' hlt)

theorem Read.userString {l : List UInt8} {k : Nat} (h : Read m root va l) (hk : l.length = k + 1) (h0 : l.getD k 0 = 0)
    (hne : ∀ i < k, l.getD i 0 ≠ 0) : UserString m root va k := by
  refine ⟨fun i hi => h.accessible (Nat.le_add_right _ _) (by omega), ?_, fun i hi => ?_⟩
  · rw [h k (by omega), h0]
  · rw [h i (by omega)]
    exact fun hc => hne i hi (Option.some.inj hc)

theorem strlen_of_ends {l : List UInt8} {k : Nat} (hk : l.length = k + 1) (h0 : l.getD k 0 = 0)
    (hne : ∀ i < k, l.getD i 0 ≠ 0) : strlen l = k := by
  induction l generalizing k with
  | nil => exact nomatch hk
  | cons c l ih =>
    unfold strlen
    cases k with
    | zero =>
      have hc : c = 0 := h0
      rw [hc]
      rfl
    | succ k =>
      have hc : c ≠ 0 := hne 0 (Nat.succ_pos k)
      rw [takeWhile_cons_of_pos (by simpa using hc), length_cons]
      have := ih (Nat.succ.inj hk) h0 (fun i hi => hne (i + 1) (by omega))
      rw [← this]
      rfl

/-- `copyinstr` succeeds if and only if there is a string that fits, whatever comes
after it. It stores the string, and never more than `max` bytes. -/
theorem copyinstr_exact (s : Machine) (root srcva max : Nat) :
    ((copyinstr s root srcva max).1 = true ↔ ∃ k < max, UserString s.mem root srcva k) ∧
    (∀ k < max, UserString s.mem root srcva k → (copyinstr s root srcva max).2.length = k + 1 ∧
      (∀ i ≤ k, userByte s.mem root (srcva + i) = some ((copyinstr s root srcva max).2.getD i 0)) ∧
      fetchstr s root srcva max = k) ∧
    (copyinstr s root srcva max).2.length ≤ max := by
  obtain ⟨hread, hle, hend, hbad⟩ := copyinstrLoop_exact s root max srcva max le_rfl
  change Read _ _ _ (copyinstr s root srcva max).2 at hread
  change (copyinstr s root srcva max).2.length ≤ max at hle
  change (copyinstr s root srcva max).1 = true → Ends (copyinstr s root srcva max).2 at hend
  change (copyinstr s root srcva max).1 = false → (∀ i < (copyinstr s root srcva max).2.length,
    (copyinstr s root srcva max).2.getD i 0 ≠ 0) ∧ ((copyinstr s root srcva max).2.length = max ∨
      ¬ Accessible s.mem root (srcva + (copyinstr s root srcva max).2.length)) at hbad
  have hok : ∀ k < max, UserString s.mem root srcva k → (copyinstr s root srcva max).1 = true := by
    intro k hk hs
    by_contra hr
    obtain ⟨hne, hstop⟩ := hbad (Bool.eq_false_of_not_eq_true hr)
    -- It cannot have stopped at the zero byte or before.
    have hlt : k < (copyinstr s root srcva max).2.length := by
      rcases hstop with hstop | hstop
      · omega
      · by_contra hc
        exact hstop (hs.1 _ (by omega))
    have hzero := hread k hlt
    rw [hs.2.1] at hzero
    exact hne k hlt (Option.some.inj hzero).symm
  refine ⟨⟨fun hr => ?_, fun ⟨k, hk, hs⟩ => hok k hk hs⟩, fun k hk hs => ?_, hle⟩
  · obtain ⟨k, hk, h0, hne⟩ := hend hr
    exact ⟨k, by omega, hread.userString hk h0 hne⟩
  · have hr := hok k hk hs
    obtain ⟨k', hk', h0, hne⟩ := hend hr
    obtain rfl : k' = k := (hread.userString hk' h0 hne).unique hs
    refine ⟨hk', fun i hi => hread i (by omega), ?_⟩
    rw [fetchstr, if_neg (by rw [hr]; exact nofun), strlen_of_ends hk' h0 hne]

end Strings

end Xv6Rcu.Vm

import Xv6Rcu.FsAcct

namespace Xv6Rcu.Fs

open Exec Function List

variable {sb : Super} {s t u : State} {k j p i b a n m off tot z : Nat} {f : Block} {l : List Byte} {src : Src}

section Bytes

theorem patch_nil (f : Block) (off : Nat) : patch f off [] = f := by
  funext i
  rw [patch, if_neg]
  rintro ⟨-, h⟩
  exact absurd h (Nat.not_lt_zero _)

theorem patch_append (f : Block) (off : Nat) (l l' : List Byte) :
    patch (patch f off l) (off + l.length) l' = patch f off (l ++ l') := by
  funext i
  unfold patch
  rw [length_append]
  by_cases h : off ≤ i ∧ i - off < l.length
  · have h1 : ¬ (off + l.length ≤ i ∧ i - (off + l.length) < l'.length) := by omega
    have h2 : off ≤ i ∧ i - off < l.length + l'.length := by omega
    rw [if_neg h1, if_pos h, if_pos h2, getD_append _ _ _ _ h.2]
  · by_cases h' : off + l.length ≤ i ∧ i - (off + l.length) < l'.length
    · have h2 : off ≤ i ∧ i - off < l.length + l'.length := by omega
      have h3 : i - off - l.length = i - (off + l.length) := by omega
      rw [if_pos h', if_pos h2, getD_append_right _ _ _ _ (by omega), h3]
    · have h2 : ¬ (off ≤ i ∧ i - off < l.length + l'.length) := by omega
      rw [if_neg h', if_neg h, if_neg h2]

theorem slice_length (f : Block) (off m : Nat) : (slice f off m).length = m := by simp [slice]

theorem slice_append (f : Block) (off m n : Nat) : slice f off m ++ slice f (off + m) n = slice f off (m + n) := by
  simp only [slice, range_add, map_append, map_map]
  congr 1
  refine map_congr_left (fun i _ => ?_)
  simp only [comp_apply, Nat.add_assoc]

theorem slice_congr {g : Block} {o : Nat} (h : ∀ i < m, g (o + i) = f (off + i)) : slice g o m = slice f off m :=
  map_congr_left (fun i hi => h i (mem_range.mp hi))

end Bytes

section Arithmetic

theorem div_mod_add {N x i c : Nat} (hN : 0 < N) (hc : x % N + c ≤ N) (hi : i < c) :
    (x + i) / N = x / N ∧ (x + i) % N = x % N + i := by
  have hlt : x % N + i < N := by omega
  have hx : x + i = (x % N + i) + N * (x / N) := by
    have := Nat.mod_add_div x N
    omega
  rw [hx, Nat.add_mul_div_left _ _ hN, Nat.div_eq_of_lt hlt, Nat.zero_add, Nat.add_mul_mod_self_left,
    Nat.mod_eq_of_lt hlt]
  exact ⟨rfl, rfl⟩

variable {q len : Nat}

theorem mod_BSIZE_lt (q : Nat) : q % BSIZE < BSIZE := Nat.mod_lt q (by decide)

theorem mod_PGSIZE_lt (q : Nat) : q % PGSIZE < PGSIZE := Nat.mod_lt q (by decide)

theorem same_block (hq : q / BSIZE = off / BSIZE) :
    off ≤ q ↔ off % BSIZE ≤ q % BSIZE := by
  unfold BSIZE at *
  omega

theorem same_block_sub (hq : q / BSIZE = off / BSIZE) : q % BSIZE - off % BSIZE = q - off := by
  unfold BSIZE at *
  omega

theorem block_of_mem (hl : off % BSIZE + len ≤ BSIZE) (ho : off ≤ q) (hq : q < off + len) :
    q / BSIZE = off / BSIZE := by
  unfold BSIZE at *
  omega

end Arithmetic

section UserCopies

def Src.byte : Src → Nat → Option Byte
  | .kernel bytes, i => some (bytes.getD i 0)
  | .user m va, i => (m ((va + i) / PGSIZE)).map (fun page => page ((va + i) % PGSIZE))

/-- What an attempt to copy `len` bytes from position `pos` has copied. -/
structure Copied (byte : Nat → Option Byte) (pos len : Nat) (r : List Byte × Bool) : Prop where
  le : r.1.length ≤ len
  bytes : ∀ i < r.1.length, byte (pos + i) = some (r.1.getD i 0)
  all : r.2 = true → r.1.length = len
  fault : r.2 = false → r.1.length < len ∧ byte (pos + r.1.length) = none

theorem copyin_copied (m : Mem) (va : Nat) {fuel pos len : Nat} (hf : len ≤ fuel) :
    Copied (Src.user m va).byte pos len (copyin m fuel (va + pos) len) := by
  induction fuel generalizing pos len with
  | zero =>
    have h0 : len = 0 := Nat.le_zero.mp hf
    subst h0
    exact ⟨Nat.le_refl _, nofun, fun _ => rfl, nofun⟩
  | succ fuel ih =>
    unfold copyin
    by_cases h0 : len = 0
    · subst h0
      rw [if_pos rfl]
      exact ⟨Nat.le_refl _, nofun, fun _ => rfl, nofun⟩
    · rw [if_neg h0]
      cases hp : m ((va + pos) / PGSIZE) with
      | none =>
        refine ⟨Nat.zero_le _, nofun, nofun, fun _ => ⟨?_, ?_⟩⟩
        · exact Nat.pos_of_ne_zero h0
        · simp [Src.byte, hp]
      | some page =>
        dsimp only
        generalize hn : min (PGSIZE - (va + pos) % PGSIZE) len = c
        have hmod := mod_PGSIZE_lt (va + pos)
        have hc0 : 0 < c := by omega
        have hcl : c ≤ len := by omega
        have hcp : (va + pos) % PGSIZE + c ≤ PGSIZE := by omega
        have hrec : Copied (Src.user m va).byte (pos + c) (len - c) (copyin m fuel (va + (pos + c)) (len - c)) :=
          ih (by omega)
        rw [← Nat.add_assoc] at hrec
        generalize copyin m fuel (va + pos + c) (len - c) = r at hrec
        have hfirst : ∀ i < c, (Src.user m va).byte (pos + i) = some (page ((va + pos) % PGSIZE + i)) := by
          intro i hi
          obtain ⟨hdiv, hmod⟩ := div_mod_add (by decide) hcp hi
          simp [Src.byte, ← Nat.add_assoc, hdiv, hmod, hp]
        refine ⟨?_, ?_, ?_, ?_⟩
        · have := hrec.le
          simp only [length_append, length_map, length_range]
          omega
        · intro i hi
          by_cases hic : i < c
          · rw [hfirst i hic, getD_append _ _ _ _ (by simpa using hic)]
            simp [hic]
          · have hlen : i - c < r.1.length := by
              simp only [length_append, length_map, length_range] at hi
              omega
            have hb := hrec.bytes (i - c) hlen
            have hidx : pos + c + (i - c) = pos + i := by omega
            rw [hidx] at hb
            rw [hb, getD_append_right _ _ _ _ (by simpa using Nat.le_of_not_lt hic)]
            simp
        · intro hok
          have := hrec.all hok
          simp only [length_append, length_map, length_range]
          omega
        · intro hbad
          obtain ⟨hlt, hnone⟩ := hrec.fault hbad
          simp only [length_append, length_map, length_range]
          refine ⟨by omega, ?_⟩
          rw [← Nat.add_assoc]
          exact hnone

theorem eitherCopyin_copied (src : Src) (pos len : Nat) : Copied src.byte pos len (eitherCopyin src pos len) := by
  cases src with
  | kernel bytes =>
    refine ⟨?_, ?_, ?_, nofun⟩
    · simp [eitherCopyin]
    · intro i hi
      have hi' : i < len := by simpa [eitherCopyin] using hi
      simp [Src.byte, eitherCopyin, hi']
    · simp [eitherCopyin]
  | user m va => exact copyin_copied m va (Nat.le_refl _)

def Mem.Has (m : Mem) (va n : Nat) : Prop := ∀ i < n, m ((va + i) / PGSIZE) ≠ none

theorem byte_user_eq_none {m : Mem} {va : Nat} : (Src.user m va).byte i = none ↔ m ((va + i) / PGSIZE) = none := by
  simp [Src.byte]

theorem eitherCopyin_mapped {m : Mem} {pos len : Nat} (va : Nat) (h : m.Has va (pos + len)) :
    (eitherCopyin (.user m va) pos len).2 = true := by
  by_contra hbad
  obtain ⟨hlt, hnone⟩ := (eitherCopyin_copied (.user m va) pos len).fault (by simpa using hbad)
  exact h _ (by omega) (byte_user_eq_none.mp hnone)

theorem copyout_ok (m : Mem) {fuel va : Nat} {data : List Byte} (hf : data.length ≤ fuel)
    (h : (copyout m fuel va data).2 = true) : (copyout m fuel va data).1 = data := by
  induction fuel generalizing va data with
  | zero => exact (eq_nil_of_length_eq_zero (Nat.le_zero.mp hf)).symm
  | succ fuel ih =>
    unfold copyout at h ⊢
    by_cases h0 : data.length = 0
    · rw [if_pos h0]
      exact (eq_nil_of_length_eq_zero h0).symm
    · rw [if_neg h0] at h ⊢
      cases hp : m (va / PGSIZE) with
      | none =>
        rw [hp] at h
        exact absurd h Bool.false_ne_true
      | some page =>
        rw [hp] at h
        have hmod := mod_PGSIZE_lt va
        dsimp only at h ⊢
        rw [ih (by rw [length_drop]; omega) h, take_append_drop]

theorem eitherCopyout_ok {dst : Dst} {pos : Nat} {data : List Byte} (h : (eitherCopyout dst pos data).2 = true) :
    (eitherCopyout dst pos data).1 = data := by
  cases dst with
  | kernel => rfl
  | user m va => exact copyout_ok m (Nat.le_refl _) h

theorem copyout_mapped {m : Mem} {fuel va : Nat} {data : List Byte} (hm : m.Has va data.length) :
    (copyout m fuel va data).2 = true := by
  induction fuel generalizing va data with
  | zero => rfl
  | succ fuel ih =>
    unfold copyout
    by_cases h0 : data.length = 0
    · rw [if_pos h0]
    · rw [if_neg h0]
      cases hp : m (va / PGSIZE) with
      | none => exact absurd hp (hm 0 (Nat.pos_of_ne_zero h0))
      | some page =>
        refine ih (fun i hi => ?_)
        rw [length_drop] at hi
        rw [Nat.add_assoc]
        exact hm _ (by omega)

end UserCopies

section Contents

def Content (s : State) (k : Nat) (f : Block) (n : Nat) : Prop :=
  ∀ i < n, blockOf s k (i / BSIZE) ≠ 0 ∧ s.buf (blockOf s k (i / BSIZE)) (i % BSIZE) = f i

def fileByte (s : State) (k : Nat) : Block := fun i => s.buf (blockOf s k (i / BSIZE)) (i % BSIZE)

theorem Good.content (h : Good sb s) (hk : (s.node k).type ≠ .free) :
    Content s k (fileByte s k) (s.node k).size := by
  intro i hi
  refine ⟨h.full k hk _ ?_, rfl⟩
  exact Nat.lt_of_le_of_lt (Nat.div_mul_le_self i BSIZE) hi

theorem Content.mono (h : Content s k f n) (hm : m ≤ n) : Content s k f m := fun i hi => h i (Nat.lt_of_lt_of_le hi hm)

theorem Content.blocks (h : Content s k f n) (hi : i * BSIZE < n) : blockOf s k i ≠ 0 := by
  have := (h _ hi).1
  rwa [Nat.mul_div_cancel i (by decide)] at this

theorem Grows.content (h : Grows sb k s t) (hc : Content s j f n) : Content t j f n := by
  intro i hi
  obtain ⟨hne, hb⟩ := hc i hi
  obtain ⟨hblk, hbuf⟩ := h.blockOf hne
  rw [hblk, hbuf]
  exact ⟨hne, hb⟩

/-- What writing to file `k` may do to everything but the content of the file. -/
structure Extends (sb : Super) (k : Nat) (s t : State) : Prop where
  tally : Tally sb.nmeta sb.size t.bits (use t)
  others : ∀ j p, j ≠ k → use t (j, p) = use s (j, p)
  data : ∀ j p, j ≠ k → p ≠ NDIRECT → use s (j, p) ≠ 0 → t.buf (use s (j, p)) = s.buf (use s (j, p))
  copy : ∃ f, (t.ino k) = { s.ino k with copy := { (s.ino k).copy with addrs := f } }
  ino : ∀ j, j ≠ k → t.ino j = s.ino j
  dinode : t.dinode = s.dinode
  live : t.live = s.live
  outstanding : t.outstanding = s.outstanding

theorem Grows.extend (h : Grows sb k s t) : Extends sb k s t :=
  ⟨h.tally, h.others, fun j p _ hp hne => h.data (j, p) hp hne, h.copy, h.ino, h.dinode, h.live, h.outstanding⟩

namespace Extends

theorem trans (h : Extends sb k s t) (h' : Extends sb k t u) : Extends sb k s u where
  tally := h'.tally
  others := fun j p hj => (h'.others j p hj).trans (h.others j p hj)
  data := by
    intro j p hj hp hne
    have ht := h.others j p hj
    have := h'.data j p hj hp (ht ▸ hne)
    rw [ht] at this
    rw [this, h.data j p hj hp hne]
  copy := by
    obtain ⟨f, hf⟩ := h.copy
    obtain ⟨g, hg⟩ := h'.copy
    exact ⟨g, by rw [hg, hf]⟩
  ino := fun j hj => (h'.ino j hj).trans (h.ino j hj)
  dinode := h'.dinode.trans h.dinode
  live := h'.live.trans h.live
  outstanding := h'.outstanding.trans h.outstanding

theorem loaded (h : Extends sb k s t) (hl : Loaded s k) : Loaded t k := by
  obtain ⟨f, hf⟩ := h.copy
  exact ⟨hf ▸ hl.ref, hf ▸ hl.valid, hf ▸ hl.type⟩

theorem content (h : Extends sb k s t) (hj : j ≠ k) (hc : Content s j f n) : Content t j f n := by
  intro i hi
  obtain ⟨hne, hb⟩ := hc i hi
  rw [blockOf, h.others j _ hj, h.data j _ hj (pos_ne _) hne]
  exact ⟨hne, hb⟩

end Extends

def State.store (s : State) (a o : Nat) (l : List Byte) : State :=
  { s with buf := update s.buf a (patch (s.buf a) o l) }

section Store

variable (h : Tally sb.nmeta sb.size s.bits (use s)) (ha : blockOf s k i = a)

include h ha

theorem store_use (o : Nat) (l : List Byte) : use (s.store a o l) = use s := by
  funext q
  refine use_congr (s := s) (t := s.store a o l) (fun _ => rfl) (fun j hj => ?_) q
  refine update_of_ne ?_ _ _
  rw [← ha]
  refine h.ne (fun he => pos_ne i ?_) hj
  exact (Prod.ext_iff.mp he).2.symm

theorem store_extends (o : Nat) (l : List Byte) : Extends sb k s (s.store a o l) := by
  have hu := store_use h ha o l
  refine ⟨hu ▸ h, fun _ _ _ => by rw [hu], ?_, ⟨_, rfl⟩, fun _ _ => rfl, rfl, rfl, rfl⟩
  intro j p hj _ hne
  refine update_of_ne ?_ _ _
  rw [← ha]
  exact h.ne (fun he => hj (Prod.ext_iff.mp he).1) hne

theorem store_content (h0 : a ≠ 0) (hi : i = off / BSIZE) (hl : off % BSIZE + l.length ≤ BSIZE)
    (hc : Content s k f z) (hz : off ≤ z) :
    Content (s.store a (off % BSIZE) l) k (patch f off l) (max z (off + l.length)) := by
  have hu := store_use h ha (off % BSIZE) l
  intro q hq
  rw [blockOf, hu]
  change blockOf s k (q / BSIZE) ≠ 0 ∧ update s.buf a _ (blockOf s k (q / BSIZE)) (q % BSIZE) = _
  by_cases hqi : q / BSIZE = i
  · rw [hqi, ha, update_self]
    refine ⟨h0, ?_⟩
    have hin := same_block (hqi.trans hi)
    have hsub := same_block_sub (hqi.trans hi)
    unfold patch
    simp only [hsub, ← hin]
    by_cases hmem : off ≤ q ∧ q - off < l.length
    · rw [if_pos hmem, if_pos hmem]
    · rw [if_neg hmem, if_neg hmem]
      have hqz : q < z := by omega
      have := (hc q hqz).2
      rwa [hqi, ha] at this
  · have hout : ¬ (off ≤ q ∧ q - off < l.length) := by
      rintro ⟨hge, hlt⟩
      exact hqi ((block_of_mem hl hge (by omega)).trans hi.symm)
    obtain ⟨hne, hb⟩ := hc q (by omega)
    have hba : blockOf s k (q / BSIZE) ≠ a := by
      rw [← ha]
      refine h.ne (fun he => hqi ?_) hne
      have hp := (Prod.ext_iff.mp he).2
      unfold pos at hp
      dsimp only at hp
      split at hp <;> split at hp <;> omega
    rw [update_of_ne hba]
    refine ⟨hne, hb.trans ?_⟩
    rw [patch, if_neg hout]

end Store

end Contents

section Writing

/-- How a call of the loop of `writei` from `tot` and `off` on ends: what `l`
has was copied to the file. The last reason is a fault in the user's memory,
where the block may have been changed without `log_write`. -/
structure Stored (sb : Super) (k : Nat) (src : Src) (n tot off : Nat) (s : State) (r : Nat × Nat) (l : List Byte)
    (t : State) : Prop where
  moved : r.2 + tot = off + r.1
  ge : tot ≤ r.1
  le : r.1 ≤ n
  ext : Extends sb k s t
  bytes : ∀ i < l.length, src.byte (tot + i) = some (l.getD i 0)
  content : ∀ f z, Content s k f z → off ≤ z → Content t k (patch f off l) (max z r.2)
  saved : r.1 = tot + l.length → ∀ b, s.buf b = s.saved b → t.buf b = t.saved b
  edge : r.1 = tot ∨ r.1 = n ∨ r.2 % BSIZE = 0
  ended : r.1 = n ∧ n = tot + l.length ∨ Full sb t ∧ r.1 = tot + l.length ∨
    r.1 < n ∧ (eitherCopyin src r.1 (min (n - r.1) (BSIZE - r.2 % BSIZE))).2 = false ∧
      tot + l.length = r.1 + (eitherCopyin src r.1 (min (n - r.1) (BSIZE - r.2 % BSIZE))).1.length

theorem Stored.done (h : Tally sb.nmeta sb.size s.bits (use s)) (hle : tot ≤ n) (he : n = tot ∨ Full sb s) :
    Stored sb k src n tot off s (tot, off) [] s where
  moved := rfl
  ge := Nat.le_refl _
  le := hle
  ext := (Grows.refl h).extend
  bytes := nofun
  content := by
    intro f z hc hz
    rw [patch_nil, Nat.max_eq_left hz]
    exact hc
  saved := fun _ _ hb => hb
  edge := .inl rfl
  ended := by
    rcases he with he | he
    · exact .inl ⟨he.symm, he⟩
    · exact .inr (.inl ⟨he, rfl⟩)

theorem Stored.cons {r : Nat × Nat} {l' : List Byte} (hx : Extends sb k s t)
    (hc : ∀ f z, Content s k f z → off ≤ z → Content t k (patch f off l) (max z (off + l.length)))
    (hs : ∀ b, s.buf b = s.saved b → t.buf b = t.saved b)
    (hb : ∀ i < l.length, src.byte (tot + i) = some (l.getD i 0))
    (hm : l.length = 0 ∨ tot + l.length = n ∨ (off + l.length) % BSIZE = 0)
    (h : Stored sb k src n (tot + l.length) (off + l.length) t r l' u) :
    Stored sb k src n tot off s r (l ++ l') u where
  moved := by
    have := h.moved
    omega
  ge := Nat.le_trans (Nat.le_add_right tot l.length) h.ge
  le := h.le
  ext := hx.trans h.ext
  bytes := by
    intro i hi
    by_cases hil : i < l.length
    · rw [hb i hil, getD_append _ _ _ _ hil]
    · rw [length_append] at hi
      have := h.bytes (i - l.length) (by omega)
      rw [getD_append_right _ _ _ _ (by omega), ← this]
      congr 1
      omega
  content := by
    intro f z hf hz
    have hge : off + l.length ≤ r.2 := by
      have := h.moved
      have := h.ge
      omega
    have := h.content _ _ (hc f z hf hz) (Nat.le_max_right z (off + l.length))
    rw [patch_append, Nat.max_assoc, Nat.max_eq_right hge] at this
    exact this
  saved := by
    intro he b hsb
    rw [length_append] at he
    exact h.saved (by omega) b (hs b hsb)
  edge := by
    rcases h.edge with he | he | he
    · have hr : r.2 = off + l.length := by
        have := h.moved
        omega
      rw [hr]
      omega
    · exact Or.inr (Or.inl he)
    · exact Or.inr (Or.inr he)
  ended := by
    rw [length_append, ← Nat.add_assoc]
    exact h.ended

theorem writeLoop_spec {fuel : Nat} (h : Tally sb.nmeta sb.size s.bits (use s)) (hl : Loaded s k)
    (ho : 0 < s.outstanding) (hle : tot ≤ n) (hf : n - tot ≤ fuel) (hmax : off + (n - tot) ≤ MAXFILE * BSIZE) :
    Runs (writeLoop sb k src n fuel tot off) s (fun r t => ∃ l, Stored sb k src n tot off s r l t)
      (fun _ => False) := by
  induction fuel generalizing s tot off with
  | zero => exact ⟨[], Stored.done h hle (.inl (by omega))⟩
  | succ fuel ih =>
    unfold writeLoop
    rw [runs_ite]
    refine ⟨fun hlt => ?_, fun hge => ⟨[], Stored.done h hle (.inl (by omega))⟩⟩
    have hbn : off / BSIZE < MAXFILE := by
      rw [Nat.div_lt_iff_lt_mul (by decide)]
      omega
    rw [runs_bind]
    refine (bmap_spec h hl ho hbn).safe ?_
    rintro a t ⟨hg, hz, ha⟩
    rw [runs_ite]
    constructor
    · intro h0
      refine ⟨[], ?_⟩
      have hd : Stored sb k src n tot off t (tot, off) [] t := Stored.done hg.tally hle (.inr (hz h0))
      exact Stored.cons (l := []) hg.extend
        (fun f z hc hz => by rw [patch_nil, length_nil, Nat.add_zero, Nat.max_eq_left hz]; exact hg.content hc)
        hg.saved nofun (.inl rfl) hd
    · intro h0
      have hblk := ha h0
      have hmod := mod_BSIZE_lt off
      dsimp only
      generalize hm : min (n - tot) (BSIZE - off % BSIZE) = m
      have hcp := eitherCopyin_copied src tot m
      generalize hr : eitherCopyin src tot m = r at hcp
      have hlen : off % BSIZE + r.1.length ≤ BSIZE := by
        have := hcp.le
        omega
      have hx : Extends sb k s (t.store a (off % BSIZE) r.1) :=
        hg.extend.trans (store_extends hg.tally hblk _ _)
      have hc : ∀ f z, Content s k f z → off ≤ z →
          Content (t.store a (off % BSIZE) r.1) k (patch f off r.1) (max z (off + r.1.length)) :=
        fun f z hc hz => store_content hg.tally hblk h0 rfl hlen (hg.content hc) hz
      rw [runs_bind, runs_alter, runs_ite]
      constructor
      · intro hok
        have hall := hcp.all hok
        have ho' : 0 < (t.store a (off % BSIZE) r.1).outstanding := hg.outstanding ▸ ho
        rw [runs_bind]
        refine (runs_logWriteData (s := t.store a (off % BSIZE) r.1) ho').mpr ?_
        generalize hv : ({ t.store a (off % BSIZE) r.1 with
          saved := update (t.store a (off % BSIZE) r.1).saved a
            ((t.store a (off % BSIZE) r.1).buf a) } : State) = v
        have hxv : Extends sb k s v := by
          rw [← hv]
          exact ⟨hx.tally, hx.others, hx.data, hx.copy, hx.ino, hx.dinode, hx.live, hx.outstanding⟩
        have hcv : ∀ f z, Content s k f z → off ≤ z → Content v k (patch f off r.1) (max z (off + r.1.length)) := by
          rw [← hv]
          exact hc
        have hsv : ∀ b, s.buf b = s.saved b → v.buf b = v.saved b := by
          intro b hb
          have hb' := hg.saved b hb
          rw [← hv]
          change update t.buf a _ b = update t.saved a (update t.buf a _ a) b
          rw [update_self]
          exact saved_update hb'
        have hml : m = r.1.length := hall.symm
        rw [hml]
        refine (ih hxv.tally (hxv.loaded hl) (hxv.outstanding ▸ ho) (by omega) (by omega) (by omega)).safe ?_
        rintro r' u ⟨l', hs⟩
        refine ⟨r.1 ++ l', Stored.cons hxv hcv hsv hcp.bytes ?_ hs⟩
        rcases Nat.lt_or_ge (n - tot) (BSIZE - off % BSIZE) with hsmall | hlarge
        · exact Or.inr (Or.inl (by omega))
        · refine Or.inr (Or.inr ?_)
          have hfull : off % BSIZE + r.1.length = BSIZE := by omega
          rw [Nat.add_mod, ← Nat.mod_mod off BSIZE, ← Nat.add_mod, hfull, Nat.mod_self]
      · intro hbad
        have hfalse : r.2 = false := by simpa using hbad
        refine ⟨r.1, ⟨rfl, Nat.le_refl _, hle, hx, hcp.bytes, ?_, ?_, .inl rfl, ?_⟩⟩
        · intro f z hf hz
          refine (hc f z hf hz).mono ?_
          dsimp only
          omega
        · intro he b hb
          have hnil : r.1 = [] := eq_nil_of_length_eq_zero (by dsimp only at he; omega)
          have hb' := hg.saved b hb
          change update t.buf a _ b = t.saved b
          rw [hnil, patch_nil, update_eq_self]
          exact hb'
        · refine .inr (.inr ⟨hlt, ?_, ?_⟩)
          · dsimp only
            rw [hm, hr]
            exact hfalse
          · dsimp only
            rw [hm, hr]

/-- What `writei` has done when it returns `tot`: the bytes of `l` are in the file. -/
structure Wrote (sb : Super) (k : Nat) (src : Src) (off n : Nat) (s : State) (tot : Nat) (l : List Byte)
    (t : State) : Prop where
  start : off ≤ (s.ino k).copy.size
  fits : off + n ≤ MAXFILE * BSIZE
  le : tot ≤ n
  len : tot ≤ l.length
  bytes : ∀ i < l.length, src.byte i = some (l.getD i 0)
  content : ∀ f z, Content s k f z → off ≤ z → Content t k (patch f off l) (max z (off + tot))
  others : ∀ j f z, j ≠ k → Content s j f z → Content t j f z
  saved : tot = l.length → ∀ b, s.buf b = s.saved b → t.buf b = t.saved b
  edge : tot = 0 ∨ tot = n ∨ (off + tot) % BSIZE = 0
  ended : tot = n ∧ n = l.length ∨ Full sb t ∧ tot = l.length ∨
    tot < n ∧ (eitherCopyin src tot (min (n - tot) (BSIZE - (off + tot) % BSIZE))).2 = false ∧
      l.length = tot + (eitherCopyin src tot (min (n - tot) (BSIZE - (off + tot) % BSIZE))).1.length
  good : Good sb t
  copy : ∃ f, t.ino k = { s.ino k with
    copy := { (s.ino k).copy with addrs := f, size := max (s.ino k).copy.size (off + tot) } }
  ino : ∀ j, j ≠ k → t.ino j = s.ino j
  dinode : t.dinode = update s.dinode k (t.ino k).copy
  live : t.live = s.live
  outstanding : t.outstanding = s.outstanding

def State.resize (s : State) (k z : Nat) : State :=
  let t := s.setCopy k { (s.ino k).copy with size := max (s.ino k).copy.size z }
  { t with dinode := update t.dinode k (t.ino k).copy }

theorem resize_node (hl : Loaded s k) :
    (s.resize k z).node k = { (s.ino k).copy with size := max (s.ino k).copy.size z } := by
  simp [State.node, State.resize, State.setCopy, hl.ref, hl.valid]

theorem resize_node_ne (hj : j ≠ k) : (s.resize k z).node j = s.node j :=
  node_congr (update_of_ne hj _ _) (update_of_ne hj _ _)

theorem resize_use (hl : Loaded s k) : use (s.resize k z) = use s := by
  refine use_of_addrs (fun j => ?_) (fun j => ?_) rfl
  · by_cases hj : j = k
    · rw [hj, resize_node hl, hl.node]
    · rw [resize_node_ne hj]
  · by_cases hj : j = k
    · rw [hj, resize_node hl, hl.node]
    · rw [resize_node_ne hj]

theorem resize_content (hl : Loaded s k) : Content (s.resize k z) j f n ↔ Content s j f n := by
  unfold Content blockOf
  rw [resize_use hl]
  rfl

theorem Stored.wrote {r : Nat × Nat} (hG : Good sb s) (hl : Loaded s k) (hoff : off ≤ (s.ino k).copy.size)
    (hfit : off + n ≤ MAXFILE * BSIZE) (h : Stored sb k src n 0 off s r l t) :
    Wrote sb k src off n s r.1 l (t.resize k r.2) := by
  have hlt := h.ext.loaded hl
  have hr : r.2 = off + r.1 := h.moved
  obtain ⟨g, hg⟩ := h.ext.copy
  have hsize : (t.ino k).copy.size = (s.ino k).copy.size := by rw [hg]
  have hcontent : ∀ f z, Content s k f z → off ≤ z →
      Content (t.resize k r.2) k (patch f off l) (max z (off + r.1)) := by
    intro f z hc hz
    rw [resize_content hlt, ← hr]
    exact h.content f z hc hz
  have hothers : ∀ j f z, j ≠ k → Content s j f z → Content (t.resize k r.2) j f z := by
    intro j f z hj hc
    rw [resize_content hlt]
    exact h.ext.content hj hc
  have hle := h.le
  have hnodek : ((t.resize k r.2).node k).size = max (s.ino k).copy.size (off + r.1) := by
    rw [resize_node hlt, hr, ← hsize]
  have hnode : ∀ j, j ≠ k → (t.resize k r.2).node j = s.node j := by
    intro j hj
    rw [resize_node_ne hj]
    exact node_congr (h.ext.ino j hj) (by rw [h.ext.dinode])
  refine ⟨hoff, hfit, hle, ?_, ?_, hcontent, hothers, ?_, hr ▸ h.edge, ?_, ?_, ?_, ?_, ?_, h.ext.live, h.ext.outstanding⟩
  · rcases h.ended with ⟨h1, h2⟩ | ⟨-, h2⟩ | ⟨-, -, h2⟩ <;> omega
  · intro i hi
    have := h.bytes i hi
    rwa [Nat.zero_add] at this
  · intro he
    exact h.saved (by omega)
  · have := h.ended
    rw [hr, Nat.zero_add] at this
    exact this
  · refine ⟨?_, ?_, ?_⟩
    · rw [resize_use hlt]
      exact h.ext.tally
    · intro j hj
      by_cases hjk : j = k
      · subst hjk
        have := hG.size j (hl.node ▸ hl.type)
        rw [hl.node] at this
        rw [hnodek]
        omega
      · rw [hnode j hjk] at hj ⊢
        exact hG.size j hj
    · intro j hj i hi
      by_cases hjk : j = k
      · subst hjk
        rw [hnodek] at hi
        have hc := hG.content (k := j) (hl.node ▸ hl.type)
        rw [hl.node] at hc
        exact (hcontent _ _ hc hoff).blocks hi
      · rw [hnode j hjk] at hj hi
        exact (hothers j _ _ hjk (hG.content hj)).blocks hi
  · refine ⟨g, ?_⟩
    have : (t.resize k r.2).ino k = { t.ino k with
        copy := { (t.ino k).copy with size := max (t.ino k).copy.size r.2 } } := update_self _ _ _
    rw [this, hg, hr]
  · intro j hj
    exact (update_of_ne hj _ _).trans (h.ext.ino j hj)
  · rw [← h.ext.dinode]
    rfl

theorem runs_iupdate {Q : Unit → State → Prop} {E : Panic → Prop} (ho : 0 < s.outstanding) :
    Runs (iupdate k) s Q E ↔ Q () { s with dinode := update s.dinode k (s.ino k).copy } := by
  rw [iupdate, runs_bind, runs_alter, runs_logWrite (by exact ho)]

theorem writei_spec (hG : Good sb s) (hl : Loaded s k) (ho : 0 < s.outstanding) (hn : n < 2 ^ 32) :
    Runs (writei sb k src off n) s
      (fun r t => r = -1 ∧ t = s ∧ ((s.ino k).copy.size < off ∨ MAXFILE * BSIZE < off + n) ∨
        ∃ tot l, r = (tot : Nat) ∧ Wrote sb k src off n s tot l t) (fun _ => False) := by
  have hM : MAXFILE * BSIZE = 274432 := rfl
  have hsz : (s.ino k).copy.size ≤ MAXFILE * BSIZE := by
    have := hG.size k (hl.node ▸ hl.type)
    rwa [hl.node] at this
  unfold writei
  rw [runs_bind, runs_look, runs_ite]
  constructor
  · intro hbad
    refine .inl ⟨rfl, rfl, ?_⟩
    omega
  · intro hok
    rw [runs_ite]
    constructor
    · intro hbad
      exact .inl ⟨rfl, rfl, by omega⟩
    · intro hfit
      have hoff' : off ≤ (s.ino k).copy.size := by omega
      have hfit' : off + n ≤ MAXFILE * BSIZE := by omega
      rw [runs_bind]
      refine (writeLoop_spec hG.tally hl ho (Nat.zero_le n) (Nat.le_refl _) hfit').safe ?_
      rintro r t ⟨l, hs⟩
      rw [runs_bind, runs_alter, runs_bind, runs_iupdate (by exact hs.ext.outstanding ▸ ho), runs_pure]
      exact .inr ⟨r.1, l, rfl, hs.wrote hG hl hoff' hfit'⟩

end Writing

section Reading

theorem bmap_lookup (hl : Loaded s k) (hb : blockOf s k b ≠ 0) : bmap sb k b s = .ok (blockOf s k b, s) := by
  have hlt : b < MAXFILE := by
    by_contra hge
    have hp : MAXFILE < pos b := by
      unfold pos
      unfold MAXFILE at *
      split <;> omega
    exact hb (addrAt_out hp)
  unfold bmap
  by_cases hd : b < NDIRECT
  · have hpos : pos b = b := if_pos hd
    rw [blockOf, hpos, hl.use_slot (Nat.le_of_lt hd)] at hb ⊢
    rw [if_pos hd]
    change (if (s.ino k).copy.addrs b = 0 then _ else pure ((s.ino k).copy.addrs b) : M Nat) s = _
    rw [if_neg hb]
    rfl
  · have hj : b - NDIRECT < NINDIRECT := by
      rw [MAXFILE] at hlt
      omega
    have hpos : pos b = NDIRECT + 1 + (b - NDIRECT) := by
      rw [pos, if_neg hd]
      omega
    have hind : (s.ino k).copy.addrs NDIRECT ≠ 0 := by
      intro h0
      rw [blockOf, hpos, use, hl.node, addrAt_none h0 (by omega)] at hb
      exact hb rfl
    rw [blockOf, hpos, hl.use_entry hj hind] at hb ⊢
    rw [if_neg hd, if_pos hj]
    have hslot : addrSlot sb k NDIRECT s = .ok ((s.ino k).copy.addrs NDIRECT, s) := by
      change (if (s.ino k).copy.addrs NDIRECT = 0 then _ else pure ((s.ino k).copy.addrs NDIRECT) : M Nat) s = _
      rw [if_neg hind]
      rfl
    rw [bind_ok hslot, if_neg hind]
    change (if word (s.buf ((s.ino k).copy.addrs NDIRECT)) (b - NDIRECT) = 0 then _ else
      pure (word (s.buf ((s.ino k).copy.addrs NDIRECT)) (b - NDIRECT)) : M Nat) s = _
    rw [if_neg hb]
    rfl

/-- Every part of the destination up to position `n` can be stored to. -/
def Dst.Mapped (dst : Dst) (n : Nat) : Prop :=
  ∀ pos data, pos + data.length ≤ n → eitherCopyout dst pos data = (data, true)

theorem mapped_user {m : Mem} {va : Nat} (h : m.Has va n) : (Dst.user m va).Mapped n := by
  intro pos data hle
  have hok : (eitherCopyout (.user m va) pos data).2 = true := by
    refine copyout_mapped (fun i hi => ?_)
    rw [Nat.add_assoc]
    exact h _ (by omega)
  exact Prod.ext (eitherCopyout_ok hok) hok

theorem readLoop_spec {fuel : Nat} {dst : Dst} {out : List Byte} (hl : Loaded s k) (hc : Content s k f z)
    (hle : tot ≤ n) (hf : n - tot ≤ fuel) (hz : off + (n - tot) ≤ z) :
    Runs (readLoop sb k dst n fuel tot off out) s
      (fun r t => t = s ∧ (r = ((n : Int), out ++ slice f off (n - tot)) ∨ r.1 = -1 ∧ ¬ dst.Mapped n))
      (fun _ => False) := by
  induction fuel generalizing tot off out with
  | zero =>
    have hn : n = tot := by omega
    refine ⟨rfl, Or.inl ?_⟩
    rw [hn, Nat.sub_self]
    simp [slice]
  | succ fuel ih =>
    unfold readLoop
    rw [runs_ite]
    constructor
    · intro hlt
      have hmod := mod_BSIZE_lt off
      obtain ⟨hne, -⟩ := hc off (by omega)
      rw [runs_bind]
      refine Runs.of_eq (bmap_lookup hl hne) ?_
      rw [if_neg hne, runs_bind, runs_look]
      dsimp only
      generalize hm : min (n - tot) (BSIZE - off % BSIZE) = m
      have hslice : slice (s.buf (blockOf s k (off / BSIZE))) (off % BSIZE) m = slice f off m := by
        refine slice_congr (fun i hi => ?_)
        obtain ⟨hdiv, hmi⟩ := div_mod_add (N := BSIZE) (x := off) (i := i) (c := m) (by decide) (by omega) hi
        have := (hc (off + i) (by omega)).2
        rwa [hdiv, hmi] at this
      rw [hslice, runs_ite]
      constructor
      · intro hok
        refine (ih (by omega) (by omega) (by omega)).safe ?_
        rintro r t ⟨rfl, hr⟩
        refine ⟨rfl, ?_⟩
        rcases hr with hr | hr
        · have hsub : m + (n - (tot + m)) = n - tot := by omega
          exact .inl (by rw [hr, eitherCopyout_ok hok, append_assoc, slice_append, hsub])
        · exact .inr hr
      · intro hbad
        refine ⟨rfl, .inr ⟨rfl, fun hmap => hbad ?_⟩⟩
        rw [hmap tot (slice f off m) (by rw [slice_length]; omega)]
    · intro hge
      have hn : n = tot := by omega
      refine ⟨rfl, Or.inl ?_⟩
      rw [hn, Nat.sub_self]
      simp [slice]

theorem readi_spec {dst : Dst} (hG : Good sb s) (hl : Loaded s k) (hn : n < 2 ^ 32) :
    Runs (readi sb k dst off n) s
      (fun r t => t = s ∧ (r = (((min (off + n) (s.ino k).copy.size - off : Nat) : Int),
          slice (fileByte s k) off (min (off + n) (s.ino k).copy.size - off)) ∨
        2 ^ 32 ≤ off + n ∧ r = (0, []) ∨
        r.1 = -1 ∧ ¬ dst.Mapped (min (off + n) (s.ino k).copy.size - off)))
      (fun _ => False) := by
  have hM : MAXFILE * BSIZE = 274432 := rfl
  have hsz : (s.ino k).copy.size ≤ MAXFILE * BSIZE := by
    have := hG.size k (hl.node ▸ hl.type)
    rwa [hl.node] at this
  have hc := hG.content (k := k) (hl.node ▸ hl.type)
  rw [hl.node] at hc
  unfold readi
  rw [runs_bind, runs_look]
  dsimp only
  generalize (s.ino k).copy.size = size at *
  rw [runs_ite]
  constructor
  · intro hbad
    refine ⟨rfl, ?_⟩
    by_cases hwrap : 2 ^ 32 ≤ off + n
    · exact .inr (.inl ⟨hwrap, rfl⟩)
    · have hzero : min (off + n) size - off = 0 := by omega
      rw [hzero]
      exact .inl rfl
  · intro hok
    have hlen : (if (off + n) % 2 ^ 32 > size then size - off else n) = min (off + n) size - off := by
      split <;> omega
    rw [hlen]
    refine (readLoop_spec hl hc (Nat.zero_le _) (Nat.le_refl _) (by omega)).safe ?_
    rintro r t ⟨rfl, hr | hr⟩
    · exact ⟨rfl, Or.inl (by simpa using hr)⟩
    · exact ⟨rfl, .inr (.inr hr)⟩

end Reading

end Xv6Rcu.Fs

import Xv6Rcu.Fs
import Xv6Rcu.Tally

namespace Xv6Rcu.Fs

open Exec Function List

variable {sb : Super} {s t u : State} {k j p i b a : Nat}

section Words

theorem word_setWord_self {d : Block} {w : Nat} (hw : w < 2 ^ 32) : word (setWord d j w) j = w := by
  have h0 : (4 * j) / 4 = j := by omega
  have h1 : (4 * j + 1) / 4 = j := by omega
  have h2 : (4 * j + 2) / 4 = j := by omega
  have h3 : (4 * j + 3) / 4 = j := by omega
  have m0 : (4 * j) % 4 = 0 := by omega
  have m1 : (4 * j + 1) % 4 = 1 := by omega
  have m2 : (4 * j + 2) % 4 = 2 := by omega
  have m3 : (4 * j + 3) % 4 = 3 := by omega
  simp only [word, setWord, h0, h1, h2, h3, m0, m1, m2, m3, if_true, UInt8.toNat_ofNat']
  rw [Nat.pow_zero, Nat.div_one, Nat.pow_one]
  omega

theorem word_setWord_ne {d : Block} {w : Nat} (h : i ≠ j) : word (setWord d j w) i = word d i := by
  have h0 : (4 * i) / 4 ≠ j := by omega
  have h1 : (4 * i + 1) / 4 ≠ j := by omega
  have h2 : (4 * i + 2) / 4 ≠ j := by omega
  have h3 : (4 * i + 3) / 4 ≠ j := by omega
  simp only [word, setWord, h0, h1, h2, h3, if_false]

theorem word_zero : word (fun _ => 0) j = 0 := rfl

end Words

section Definitions

def State.node (s : State) (k : Nat) : Dinode :=
  if 0 < (s.ino k).ref ∧ (s.ino k).valid = true then (s.ino k).copy else s.dinode k

/-- The addresses of an allocated inode: `addrs[0..NDIRECT]`, then the entries of
the indirect block. -/
def addrAt (buf : Nat → Block) (d : Dinode) (p : Nat) : Nat :=
  if d.type = .free then 0
  else if p ≤ NDIRECT then d.addrs p
  else if p < MAXFILE + 1 ∧ d.addrs NDIRECT ≠ 0 then word (buf (d.addrs NDIRECT)) (p - (NDIRECT + 1))
  else 0

def use (s : State) (i : Nat × Nat) : Nat := addrAt s.buf (s.node i.1) i.2

def pos (bn : Nat) : Nat := if bn < NDIRECT then bn else bn + 1

def blockOf (s : State) (k bn : Nat) : Nat := use s (k, pos bn)

structure Good (sb : Super) (s : State) : Prop where
  tally : Tally sb.nmeta sb.size s.bits (use s)
  size : ∀ k, (s.node k).type ≠ .free → (s.node k).size ≤ MAXFILE * BSIZE
  full : ∀ k, (s.node k).type ≠ .free → ∀ i, i * BSIZE < (s.node k).size → blockOf s k i ≠ 0

structure Loaded (s : State) (k : Nat) : Prop where
  ref : 0 < (s.ino k).ref
  valid : (s.ino k).valid = true
  type : (s.ino k).copy.type ≠ .free

def Full (sb : Super) (s : State) : Prop := ∀ b < sb.size, s.bits b = true

end Definitions

section Addresses

theorem Loaded.node (h : Loaded s k) : s.node k = (s.ino k).copy := if_pos ⟨h.ref, h.valid⟩

theorem node_congr (hi : t.ino k = s.ino k) (hd : t.dinode k = s.dinode k) : t.node k = s.node k := by
  rw [State.node, State.node, hi, hd]

theorem addrAt_congr {buf buf' : Nat → Block} {d : Dinode}
    (h : d.type ≠ .free → d.addrs NDIRECT ≠ 0 → buf' (d.addrs NDIRECT) = buf (d.addrs NDIRECT)) :
    addrAt buf' d p = addrAt buf d p := by
  unfold addrAt
  by_cases hf : d.type = .free
  · rw [if_pos hf, if_pos hf]
  · rw [if_neg hf, if_neg hf]
    by_cases hp : p ≤ NDIRECT
    · rw [if_pos hp, if_pos hp]
    · rw [if_neg hp, if_neg hp]
      by_cases hq : p < MAXFILE + 1 ∧ d.addrs NDIRECT ≠ 0
      · rw [if_pos hq, if_pos hq, h hf hq.2]
      · rw [if_neg hq, if_neg hq]

section Positions

variable {buf : Nat → Block} {d : Dinode}

theorem addrAt_slot (hf : d.type ≠ .free) (hp : p ≤ NDIRECT) : addrAt buf d p = d.addrs p := by
  rw [addrAt, if_neg hf, if_pos hp]

theorem addrAt_entry (hf : d.type ≠ .free) (hj : j < NINDIRECT) (hind : d.addrs NDIRECT ≠ 0) :
    addrAt buf d (NDIRECT + 1 + j) = word (buf (d.addrs NDIRECT)) j := by
  have hp : ¬ NDIRECT + 1 + j ≤ NDIRECT := by omega
  have hq : NDIRECT + 1 + j < MAXFILE + 1 := by
    rw [MAXFILE]
    omega
  rw [addrAt, if_neg hf, if_neg hp, if_pos ⟨hq, hind⟩, Nat.add_sub_cancel_left]

theorem addrAt_none (hind : d.addrs NDIRECT = 0) (hp : NDIRECT < p) : addrAt buf d p = 0 := by
  have hq : ¬ (p < MAXFILE + 1 ∧ d.addrs NDIRECT ≠ 0) := fun hq => hq.2 hind
  rw [addrAt, if_neg (Nat.not_le.mpr hp), if_neg hq, ite_self]

theorem addrAt_out (hp : MAXFILE < p) : addrAt buf d p = 0 := by
  have hp' : ¬ p ≤ NDIRECT := by
    rw [MAXFILE] at hp
    omega
  have hq : ¬ (p < MAXFILE + 1 ∧ d.addrs NDIRECT ≠ 0) := fun hq => by omega
  rw [addrAt, if_neg hp', if_neg hq, ite_self]

theorem addrAt_free (hf : d.type = .free) : addrAt buf d p = 0 := by rw [addrAt, if_pos hf]

theorem position_cases (p : Nat) :
    p ≤ NDIRECT ∨ (∃ j < NINDIRECT, p = NDIRECT + 1 + j) ∨ MAXFILE < p := by
  rcases Nat.lt_or_ge NDIRECT p with hp | hp
  · rcases Nat.lt_or_ge MAXFILE p with hq | hq
    · exact Or.inr (Or.inr hq)
    · refine .inr (.inl ⟨p - (NDIRECT + 1), ?_, by omega⟩)
      rw [MAXFILE] at hq
      omega
  · exact .inl hp

end Positions

theorem use_indirect (hf : (s.node k).type ≠ .free) : use s (k, NDIRECT) = (s.node k).addrs NDIRECT := by
  rw [use, addrAt_slot hf (Nat.le_refl _)]

theorem use_congr (hn : ∀ k, t.node k = s.node k) (hb : ∀ k, use s (k, NDIRECT) ≠ 0 →
    t.buf (use s (k, NDIRECT)) = s.buf (use s (k, NDIRECT))) (i : Nat × Nat) : use t i = use s i := by
  rw [use, use, hn]
  refine addrAt_congr (fun hf h0 => ?_)
  have hu := use_indirect hf
  have := hb i.1
  rw [hu] at this
  exact this h0

theorem use_of_addrs (ht : ∀ j, (t.node j).type = (s.node j).type) (ha : ∀ j, (t.node j).addrs = (s.node j).addrs)
    (hb : t.buf = s.buf) : use t = use s := by
  funext i
  rw [use, use, addrAt, addrAt, ht, ha, hb]

theorem Loaded.use_slot (h : Loaded s k) (hi : i ≤ NDIRECT) : use s (k, i) = (s.ino k).copy.addrs i := by
  rw [use, h.node, addrAt_slot h.type hi]

theorem Loaded.use_entry (h : Loaded s k) (hj : j < NINDIRECT) (hind : (s.ino k).copy.addrs NDIRECT ≠ 0) :
    use s (k, NDIRECT + 1 + j) = word (s.buf ((s.ino k).copy.addrs NDIRECT)) j := by
  rw [use, h.node, addrAt_entry h.type hj hind]

theorem pos_ne (bn : Nat) : pos bn ≠ NDIRECT := by
  unfold pos
  split <;> omega

end Addresses

section Allocation

def State.take (s : State) (b : Nat) : State :=
  { s with
    bits := update s.bits b true
    buf := update s.buf b (fun _ => 0)
    saved := update s.saved b (fun _ => 0) }

structure Fresh (sb : Super) (s : State) (b : Nat) : Prop where
  bit : s.bits b = false
  lt : b < sb.size
  ne : b ≠ 0

theorem bit_zero (h : Tally sb.nmeta sb.size s.bits (use s)) : s.bits 0 = true := by
  have := sb.meta_pos
  exact (h.exact 0 (by omega)).mpr (.inl (by rw [Super.nmeta]; omega))

theorem balloc_spec (h : Tally sb.nmeta sb.size s.bits (use s)) (ho : 0 < s.outstanding) :
    Runs (balloc sb) s (fun b t => b = 0 ∧ t = s ∧ Full sb s ∨ Fresh sb s b ∧ t = s.take b)
      (fun _ => False) := by
  unfold balloc
  rw [runs_bind, runs_look]
  cases hf : (List.range sb.size).find? (fun b => !s.bits b) with
  | none =>
    refine .inl ⟨rfl, rfl, fun b hb => ?_⟩
    have := find?_eq_none.mp hf b (mem_range.mpr hb)
    simpa using this
  | some b =>
    have hbit : s.bits b = false := by simpa using find?_some hf
    have hlt := mem_range.mp (mem_of_find?_eq_some hf)
    have hne : b ≠ 0 := by
      rintro rfl
      exact Bool.false_ne_true (hbit.symm.trans (bit_zero h))
    have hno : ¬ s.outstanding < 1 := by omega
    simp only [runs_bind, runs_alter, logWrite, runs_look, runs_ite, bzero, logWriteData, runs_pure, runs_stop]
    refine ⟨fun ho' => hno ho', fun _ => ⟨fun ho' => hno ho', fun _ => .inr ⟨⟨hbit, hlt, hne⟩, ?_⟩⟩⟩
    simp only [State.take, update_self]

variable (h : Tally sb.nmeta sb.size s.bits (use s)) (hb : Fresh sb s b)

include h hb

theorem take_use (i : Nat × Nat) : use (s.take b) i = use s i := by
  refine use_congr (s := s) (t := s.take b) (fun _ => rfl) (fun k _ => ?_) i
  exact update_of_ne (h.fresh hb.bit hb.ne (k, NDIRECT)) _ _

omit h hb in
theorem take_buf (hc : a ≠ b) : (s.take b).buf a = s.buf a := update_of_ne hc _ _

end Allocation

section Growth

/-- What `bmap` may do: inode `k` gets addresses where it had none. -/
structure Grows (sb : Super) (k : Nat) (s t : State) : Prop where
  tally : Tally sb.nmeta sb.size t.bits (use t)
  keeps : ∀ i, use s i ≠ 0 → use t i = use s i
  others : ∀ j p, j ≠ k → use t (j, p) = use s (j, p)
  data : ∀ i, i.2 ≠ NDIRECT → use s i ≠ 0 → t.buf (use s i) = s.buf (use s i)
  saved : ∀ b, s.buf b = s.saved b → t.buf b = t.saved b
  copy : ∃ f, (t.ino k) = { s.ino k with copy := { (s.ino k).copy with addrs := f } }
  ino : ∀ j, j ≠ k → t.ino j = s.ino j
  dinode : t.dinode = s.dinode
  live : t.live = s.live
  outstanding : t.outstanding = s.outstanding

namespace Grows

theorem refl (h : Tally sb.nmeta sb.size s.bits (use s)) : Grows sb k s s where
  tally := h
  keeps := fun _ _ => rfl
  others := fun _ _ _ => rfl
  data := fun _ _ _ => rfl
  saved := fun _ hb => hb
  copy := ⟨_, rfl⟩
  ino := fun _ _ => rfl
  dinode := rfl
  live := rfl
  outstanding := rfl

theorem trans (h : Grows sb k s t) (h' : Grows sb k t u) : Grows sb k s u where
  tally := h'.tally
  keeps := by
    intro i hi
    have ht := h.keeps i hi
    rw [h'.keeps i (ht ▸ hi), ht]
  others := fun j p hj => (h'.others j p hj).trans (h.others j p hj)
  data := by
    intro i hp hi
    have ht := h.keeps i hi
    have := h'.data i hp (ht ▸ hi)
    rw [ht] at this
    rw [this, h.data i hp hi]
  saved := fun b hb => h'.saved b (h.saved b hb)
  copy := by
    obtain ⟨f, hf⟩ := h.copy
    obtain ⟨g, hg⟩ := h'.copy
    exact ⟨g, by rw [hg, hf]⟩
  ino := fun j hj => (h'.ino j hj).trans (h.ino j hj)
  dinode := h'.dinode.trans h.dinode
  live := h'.live.trans h.live
  outstanding := h'.outstanding.trans h.outstanding

theorem loaded (h : Grows sb k s t) (hl : Loaded s k) : Loaded t k := by
  obtain ⟨f, hf⟩ := h.copy
  exact ⟨hf ▸ hl.ref, hf ▸ hl.valid, hf ▸ hl.type⟩

theorem blockOf (h : Grows sb k s t) (hb : blockOf s j i ≠ 0) :
    blockOf t j i = Fs.blockOf s j i ∧ t.buf (Fs.blockOf s j i) = s.buf (Fs.blockOf s j i) :=
  ⟨h.keeps _ hb, h.data _ (pos_ne i) hb⟩

end Grows

variable (h : Tally sb.nmeta sb.size s.bits (use s)) (hl : Loaded s k) (hb : Fresh sb s b)

include h hl hb

theorem setAddr_use (hi : i ≤ NDIRECT) (h0 : (s.ino k).copy.addrs i = 0) :
    use ((s.take b).setAddr k i b) = update (use s) (k, i) b := by
  have hnode : ((s.take b).setAddr k i b).node k =
      { (s.ino k).copy with addrs := update (s.ino k).copy.addrs i b } := by
    simp [State.node, State.setAddr, State.setCopy, State.take, hl.ref, hl.valid]
  have haddr : ∀ q, q ≠ i → (((s.take b).setAddr k i b).node k).addrs q = (s.ino k).copy.addrs q := by
    intro q hq
    rw [hnode]
    exact update_of_ne hq _ _
  have htype : (((s.take b).setAddr k i b).node k).type ≠ .free := by
    rw [hnode]
    exact hl.type
  have hself : (((s.take b).setAddr k i b).node k).addrs i = b := by
    rw [hnode]
    exact update_self _ _ _
  funext ⟨j, p⟩
  by_cases hj : j = k
  · subst hj
    by_cases hp : p = i
    · subst hp
      rw [update_self, use, addrAt_slot htype hi, hself]
    · rw [update_of_ne (by simpa using hp)]
      rcases position_cases p with hpn | ⟨q, hq, rfl⟩ | hout
      · rw [use, addrAt_slot htype hpn, hl.use_slot hpn, haddr p hp]
      · by_cases hin : i = NDIRECT
        · -- The indirect block is new, and all zero.
          subst hin
          have hnz : (((s.take b).setAddr j NDIRECT b).node j).addrs NDIRECT ≠ 0 := by
            rw [hself]
            exact hb.ne
          rw [use, addrAt_entry htype hq hnz, hself, use, hl.node, addrAt_none h0 (by omega)]
          have hz : ((s.take b).setAddr j NDIRECT b).buf b = fun _ => 0 := update_self _ _ _
          rw [hz, word_zero]
        · have hind := haddr NDIRECT (Ne.symm hin)
          by_cases hz : (s.ino j).copy.addrs NDIRECT = 0
          · rw [use, addrAt_none (hind.trans hz) (by omega), use, hl.node, addrAt_none hz (by omega)]
          · have hne : (s.ino j).copy.addrs NDIRECT ≠ b := by
              rw [← hl.use_slot (Nat.le_refl _)]
              exact h.fresh hb.bit hb.ne (j, NDIRECT)
            rw [use, addrAt_entry htype hq (hind ▸ hz), hind, hl.use_entry hq hz]
            exact congrArg (fun c => word c q) (take_buf hne)
      · rw [use, addrAt_out hout, use, addrAt_out hout]
  · have hne : ((j, p) : Nat × Nat) ≠ (k, i) := fun he => hj (Prod.ext_iff.mp he).1
    rw [update_of_ne hne, ← take_use h hb]
    rw [use, use]
    refine congrArg (fun d => addrAt _ d p) (node_congr ?_ rfl)
    exact update_of_ne hj _ _

omit h hl hb in
theorem saved_update {c : Nat} {x : Block} (hc : s.buf c = s.saved c) : update s.buf b x c = update s.saved b x c := by
  by_cases hcb : c = b
  · rw [hcb, update_self, update_self]
  · rw [update_of_ne hcb, update_of_ne hcb, hc]

omit h hl hb in
theorem take_saved {c : Nat} (hc : s.buf c = s.saved c) : (s.take b).buf c = (s.take b).saved c := saved_update hc

theorem setAddr_grows (hi : i ≤ NDIRECT) (h0 : (s.ino k).copy.addrs i = 0) :
    Grows sb k s ((s.take b).setAddr k i b) := by
  have hu := setAddr_use h hl hb hi h0
  have hz : use s (k, i) = 0 := (hl.use_slot hi).trans h0
  have hne : ∀ q, use s q ≠ 0 → q ≠ (k, i) := by
    rintro q hq rfl
    exact hq hz
  refine ⟨?_, ?_, ?_, ?_, ?_, ?_, ?_, rfl, rfl, rfl⟩
  · rw [hu]
    exact h.take hb.lt hb.bit hb.ne hz
  · intro q hq
    rw [hu, update_of_ne (hne q hq)]
  · intro j p hj
    rw [hu, update_of_ne (fun he => hj (Prod.ext_iff.mp he).1)]
  · intro q _ _
    exact take_buf (h.fresh hb.bit hb.ne q)
  · exact fun _ => take_saved
  · exact ⟨_, update_self _ _ _⟩
  · intro j hj
    exact update_of_ne hj _ _

def State.enter (s : State) (ind j b : Nat) : State :=
  { s with
    buf := update s.buf ind (setWord (s.buf ind) j b)
    saved := update s.saved ind (setWord (s.buf ind) j b) }

section

variable (hj : j < NINDIRECT) (hind : (s.ino k).copy.addrs NDIRECT ≠ 0) (h0 : word (s.buf ((s.ino k).copy.addrs NDIRECT)) j = 0)

include hj hind h0

theorem enter_use :
    use ((s.take b).enter ((s.ino k).copy.addrs NDIRECT) j b) =
      update (use s) (k, NDIRECT + 1 + j) b := by
  generalize hi : (s.ino k).copy.addrs NDIRECT = ind at *
  have huse : use s (k, NDIRECT) = ind := (hl.use_slot (Nat.le_refl _)).trans hi
  have hne : ind ≠ b := huse ▸ h.fresh hb.bit hb.ne (k, NDIRECT)
  have hl' : Loaded ((s.take b).enter ind j b) k := ⟨hl.ref, hl.valid, hl.type⟩
  have hbuf : ((s.take b).enter ind j b).buf ind = setWord (s.buf ind) j b := by
    change update (s.take b).buf ind (setWord ((s.take b).buf ind) j b) ind = _
    rw [update_self, take_buf hne]
  funext ⟨m, p⟩
  by_cases hm : m = k
  · subst hm
    have hgo : ((s.take b).enter ind j b).ino = s.ino := rfl
    have hpair : ∀ q, q ≠ NDIRECT + 1 + j → ((m, q) : Nat × Nat) ≠ (m, NDIRECT + 1 + j) :=
      fun q hq he => hq (Prod.ext_iff.mp he).2
    rcases position_cases p with hp | ⟨q, hq, rfl⟩ | hout
    · rw [update_of_ne (hpair p (by omega)), hl.use_slot hp, hl'.use_slot hp, hgo]
    · rw [hl'.use_entry hq (by rw [hgo, hi]; exact hind), hgo, hi, hbuf]
      by_cases hqj : q = j
      · subst hqj
        rw [update_self, word_setWord_self]
        exact Nat.lt_trans hb.lt sb.size_lt
      · rw [word_setWord_ne hqj, update_of_ne (hpair _ (by omega)), hl.use_entry hq (hi ▸ hind), hi]
    · have hne' : p ≠ NDIRECT + 1 + j := by
        rw [MAXFILE] at hout
        omega
      rw [update_of_ne (hpair p hne'), use, addrAt_out hout, use, addrAt_out hout]
  · rw [update_of_ne (fun he => hm (Prod.ext_iff.mp he).1), ← take_use h hb]
    rw [use, use]
    have hn : ((s.take b).enter ind j b).node m = (s.take b).node m := rfl
    rw [hn]
    refine addrAt_congr (fun hf hz => ?_)
    refine update_of_ne ?_ _ _
    rw [← use_indirect hf, take_use h hb, ← huse]
    intro he
    refine hm (Prod.ext_iff.mp (h.apart _ _ he ?_)).1
    rw [he, huse]
    exact hind

theorem enter_grows :
    Grows sb k s ((s.take b).enter ((s.ino k).copy.addrs NDIRECT) j b) := by
  have hu := enter_use h hl hb hj hind h0
  have hz : use s (k, NDIRECT + 1 + j) = 0 := (hl.use_entry hj hind).trans h0
  have huse : use s (k, NDIRECT) = (s.ino k).copy.addrs NDIRECT := hl.use_slot (Nat.le_refl _)
  have hne : ∀ q, use s q ≠ 0 → q ≠ (k, NDIRECT + 1 + j) := by
    rintro q hq rfl
    exact hq hz
  refine ⟨?_, ?_, ?_, ?_, ?_, ⟨_, rfl⟩, fun _ _ => rfl, rfl, rfl, rfl⟩
  · rw [hu]
    exact h.take hb.lt hb.bit hb.ne hz
  · intro q hq
    rw [hu, update_of_ne (hne q hq)]
  · intro m p hm
    rw [hu, update_of_ne (fun he => hm (Prod.ext_iff.mp he).1)]
  · intro q hp hq
    have hqi : use s q ≠ (s.ino k).copy.addrs NDIRECT := by
      rw [← huse]
      refine h.ne ?_ hq
      rintro rfl
      exact hp rfl
    exact (update_of_ne hqi _ _).trans (take_buf (h.fresh hb.bit hb.ne q))
  · exact fun c hc => saved_update (take_saved hc)

end

end Growth

section Bmap

theorem runs_logWrite {Q : Unit → State → Prop} {E : Panic → Prop} (ho : 0 < s.outstanding) :
    Runs logWrite s Q E ↔ Q () s := by
  rw [logWrite, runs_bind, runs_look, if_neg (Nat.not_lt.mpr ho), runs_pure]

theorem runs_logWriteData {Q : Unit → State → Prop} {E : Panic → Prop} (ho : 0 < s.outstanding) :
    Runs (logWriteData b) s Q E ↔ Q () { s with saved := update s.saved b (s.buf b) } := by
  rw [logWriteData, runs_bind, runs_logWrite ho, runs_alter]

theorem addrSlot_spec (h : Tally sb.nmeta sb.size s.bits (use s)) (hl : Loaded s k) (ho : 0 < s.outstanding)
    (hi : i ≤ NDIRECT) :
    Runs (addrSlot sb k i) s
      (fun a t => Grows sb k s t ∧ (a = 0 → Full sb t) ∧ (a ≠ 0 → (t.ino k).copy.addrs i = a))
      (fun _ => False) := by
  unfold addrSlot
  rw [runs_bind, runs_look, runs_ite]
  constructor
  · intro h0
    rw [runs_bind]
    refine (balloc_spec h ho).safe ?_
    rintro b t (⟨rfl, rfl, hfull⟩ | ⟨hb, rfl⟩)
    · rw [if_pos rfl]
      exact ⟨Grows.refl h, fun _ => hfull, fun hne => absurd rfl hne⟩
    · rw [if_neg hb.ne, runs_bind, runs_alter, runs_pure]
      refine ⟨setAddr_grows h hl hb hi h0, fun hz => absurd hz hb.ne, fun _ => ?_⟩
      simp [State.setAddr, State.setCopy]
  · intro h0
    exact ⟨Grows.refl h, fun hz => absurd hz h0, fun _ => rfl⟩

theorem bmap_spec (h : Tally sb.nmeta sb.size s.bits (use s)) (hl : Loaded s k) (ho : 0 < s.outstanding)
    {bn : Nat} (hbn : bn < MAXFILE) :
    Runs (bmap sb k bn) s
      (fun a t => Grows sb k s t ∧ (a = 0 → Full sb t) ∧ (a ≠ 0 → blockOf t k bn = a)) (fun _ => False) := by
  unfold bmap
  rw [runs_ite]
  constructor
  · intro hd
    refine (addrSlot_spec h hl ho (Nat.le_of_lt hd)).safe ?_
    rintro a t ⟨hg, hz, ha⟩
    refine ⟨hg, hz, fun hne => ?_⟩
    rw [blockOf, pos, if_pos hd, (hg.loaded hl).use_slot (Nat.le_of_lt hd)]
    exact ha hne
  · intro hd
    have hj : bn - NDIRECT < NINDIRECT := by
      rw [MAXFILE] at hbn
      omega
    have hpos : pos bn = NDIRECT + 1 + (bn - NDIRECT) := by
      rw [pos, if_neg hd]
      omega
    rw [if_pos hj, runs_bind]
    refine (addrSlot_spec h hl ho (Nat.le_refl _)).safe ?_
    rintro ind t ⟨hg, hz, ha⟩
    rw [runs_ite]
    refine ⟨fun h0 => ⟨hg, fun _ => hz h0, fun hne => absurd rfl hne⟩, fun h0 => ?_⟩
    obtain rfl := ha h0
    have hlt := hg.loaded hl
    rw [runs_bind, runs_look, runs_ite]
    constructor
    · intro hw
      rw [runs_bind]
      refine (balloc_spec hg.tally (hg.outstanding ▸ ho)).safe ?_
      rintro b u (⟨rfl, rfl, hfull⟩ | ⟨hb, rfl⟩)
      · rw [if_pos rfl]
        exact ⟨hg, fun _ => hfull, fun hne => absurd rfl hne⟩
      · rw [if_neg hb.ne]
        have hg' := enter_grows hg.tally hlt hb hj h0 hw
        have hu' := enter_use hg.tally hlt hb hj h0 hw
        have hne : (t.ino k).copy.addrs NDIRECT ≠ b := by
          rw [← hlt.use_slot (Nat.le_refl _)]
          exact hg.tally.fresh hb.bit hb.ne _
        have ho' : 0 < t.outstanding := hg.outstanding ▸ ho
        have hend : Runs (logWriteData ((t.ino k).copy.addrs NDIRECT))
            { t.take b with
              buf := update (t.take b).buf ((t.ino k).copy.addrs NDIRECT)
                (setWord ((t.take b).buf ((t.ino k).copy.addrs NDIRECT)) (bn - NDIRECT) b) }
            (fun _ u => u = (t.take b).enter ((t.ino k).copy.addrs NDIRECT) (bn - NDIRECT) b)
            (fun _ => False) := by
          refine (runs_logWriteData (by exact ho')).mpr ?_
          dsimp only
          rw [update_self]
          rfl
        rw [runs_bind, runs_alter, runs_bind]
        refine hend.safe ?_
        rintro _ _ rfl
        refine ⟨hg.trans hg', fun hz => absurd hz hb.ne, fun _ => ?_⟩
        rw [blockOf, hpos, hu', update_self]
    · intro hw
      refine ⟨hg, fun hz => absurd hz hw, fun _ => ?_⟩
      rw [blockOf, hpos]
      exact hlt.use_entry hj h0

end Bmap

end Xv6Rcu.Fs

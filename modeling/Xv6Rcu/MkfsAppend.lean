import Xv6Rcu.MkfsImage

namespace Xv6Rcu.Mkfs

open Exec Fs Function List Threads

variable {D : Nat → Dinode} {s t u : St} {d e : Dinode} {k i p b n z off bn : Nat} {ps qs : List Nat} {l : List Byte}

section Allocation

def vacant (use : Nat × Nat → Nat) (k : Nat) (ps : List Nat) : Nat := (ps.filter (fun p => use (k, p) = 0)).length

/-- Positions `ps` of inode `k` have got blocks where they had none. -/
structure Added (k : Nat) (ps : List Nat) (D : Nat → Dinode) (s : St) (d : Dinode) (t : St) : Prop where
  base : Base t
  grows : Grows sb k (view D s) (view (update D k d) t)
  used : ∀ q, use (view (update D k d) t) (k, q) ≠ 0 ↔ use (view D s) (k, q) ≠ 0 ∨ q ∈ ps
  count : t.freeblock = s.freeblock + vacant (use (view D s)) k ps
  inum : t.freeinode = s.freeinode
  low : ∀ x < nmeta * BSIZE, t.img x = s.img x
  wide : Wide (D k) → Wide d

namespace Added

theorem fields (h : Added k ps D s d t) : ∃ f, d = { D k with addrs := f } := by
  obtain ⟨f, hf⟩ := h.grows.copy
  refine ⟨f, ?_⟩
  have : update D k d k = { D k with addrs := f } := congrArg Inode.copy hf
  rwa [update_self] at this

theorem type (h : Added k ps D s d t) : d.type = (D k).type := by
  obtain ⟨f, rfl⟩ := h.fields
  rfl

theorem none (hs : Base s) (hT : Tally sb.nmeta sb.size (view D s).bits (use (view D s)))
    (hp : use (view D s) (k, p) ≠ 0) : Added k [p] D s (D k) s := by
  have hD : update D k (D k) = D := update_eq_self k D
  refine ⟨hs, by rw [hD]; exact Grows.refl hT, fun q => ?_, ?_, rfl, fun _ _ => rfl, id⟩
  · rw [hD, mem_singleton]
    exact ⟨.inl, fun h => h.elim id (fun he => he ▸ hp)⟩
  · simp [vacant, hp]

theorem trans (h : Added k ps D s d t) (h' : Added k [p] (update D k d) t e u) (hp : p ∉ ps) :
    Added k (ps ++ [p]) D s e u := by
  have hD : update (update D k d) k e = update D k e := update_idem d e D
  have hg := h'.grows
  have hu := h'.used
  have hw := h'.wide
  rw [hD] at hg hu
  rw [update_self] at hw
  refine ⟨h'.base, h.grows.trans hg, fun q => ?_, ?_, h'.inum.trans h.inum,
    fun x hx => (h'.low x hx).trans (h.low x hx), fun hD => hw (h.wide hD)⟩
  · rw [hu, h.used, mem_append, or_assoc]
  · have hz : use (view (update D k d) t) (k, p) = 0 ↔ use (view D s) (k, p) = 0 := by
      have := h.used p
      rw [← not_iff_not, ← ne_eq, ← ne_eq, this]
      exact or_iff_left hp
    rw [h'.count, h.count]
    simp only [vacant, filter_append, length_append, filter_cons, filter_nil, hz]
    omega

theorem one (hs : Base s) (ht : Base t) (hz : use (view D s) (k, p) = 0)
    (hg : Grows sb k (view D s) (view (update D k d) t))
    (hu : use (view (update D k d) t) = update (use (view D s)) (k, p) s.freeblock)
    (hf : t.freeblock = s.freeblock + 1) (hi : t.freeinode = s.freeinode)
    (hlow : ∀ x < nmeta * BSIZE, t.img x = s.img x) (hw : Wide (D k) → Wide d) : Added k [p] D s d t := by
  refine ⟨ht, hg, fun q => ?_, ?_, hi, hlow, hw⟩
  · rw [hu, mem_singleton]
    by_cases hq : q = p
    · rw [hq, update_self]
      exact iff_of_true hs.fresh_ne (.inr rfl)
    · rw [update_of_ne (by simpa using hq)]
      exact (or_iff_left hq).symm
  · rw [hf]
    simp [vacant, hz]

end Added

variable (hs : Base s) (hT : Tally sb.nmeta sb.size (view D s).bits (use (view D s))) (hk : (D k).type ≠ .free)

include hs hT hk

theorem slot_spec (hi : i ≤ NDIRECT) :
    Runs (slot (D k) i) s (fun d t => Added k [i] D s d t ∧ d.addrs i ≠ 0 ∨
      s.freeblock = FSSIZE ∧ use (view D s) (k, i) = 0 ∧ d.addrs i = FSSIZE ∧ t.len = s.len) (fun _ => False) := by
  have hl := view_loaded (s := s) hk
  have hslot : use (view D s) (k, i) = (D k).addrs i := hl.use_slot hi
  unfold slot nextBlock
  rw [runs_ite]
  constructor
  · intro h0
    simp only [runs_bind, runs_look, runs_alter, runs_pure, update_self]
    rcases hs.succ with ht | hfull
    · have hlt : s.freeblock < FSSIZE := ht.hi
      have hv : ((view D s).take s.freeblock).setAddr k i s.freeblock = view (update D k
          { D k with addrs := update (D k).addrs i s.freeblock }) { s with freeblock := s.freeblock + 1 } := by
        rw [view_take hs, view_setAddr]
      have hg := setAddr_grows hT hl (hs.fresh hlt) hi h0
      have hu := setAddr_use hT hl (hs.fresh hlt) hi h0
      rw [hv] at hg hu
      refine .inl ⟨Added.one hs ht (hslot.trans h0) hg hu rfl rfl (fun _ _ => rfl) (fun hw => ?_), hs.fresh_ne⟩
      have hsz : FSSIZE < 2 ^ 32 := by decide
      refine ⟨hw.major, hw.minor, hw.nlink, hw.size, fun j => ?_, fun j hj => ?_⟩
      · dsimp only
        refine update_cases j ?_ (fun _ => ?_)
        · omega
        · exact hw.addrs j
      · dsimp only
        rw [update_of_ne (by omega)]
        exact hw.rest j hj
    · exact .inr ⟨hfull, hslot.trans h0, hfull, trivial⟩
  · intro h0
    exact .inl ⟨Added.none hs hT (hslot ▸ h0), h0⟩

omit hs hT hk in
theorem vacant_append : vacant (use (view D s)) k (ps ++ qs) =
    vacant (use (view D s)) k ps + vacant (use (view D s)) k qs := by
  rw [vacant, filter_append, length_append]
  rfl

theorem enter_spec (hbn : bn < MAXFILE) (hd : ¬ bn < NDIRECT) (hind : (D k).addrs NDIRECT ≠ 0)
    (h0 : word (blockAt s.img ((D k).addrs NDIRECT)) (bn - NDIRECT) = 0) (hlt : s.freeblock < FSSIZE) :
    ∃ t, t = ({ s with freeblock := s.freeblock + 1 } : St).put ((D k).addrs NDIRECT)
        (setWord (blockAt s.img ((D k).addrs NDIRECT)) (bn - NDIRECT) s.freeblock) ∧
      Added k [pos bn] D s (D k) t ∧ use (view D t) (k, pos bn) = s.freeblock := by
  refine ⟨_, rfl, ?_⟩
  have hl := view_loaded (s := s) hk
  have huse : use (view D s) (k, NDIRECT) = (D k).addrs NDIRECT := hl.use_slot le_rfl
  have hrange := hT.range (k, NDIRECT) (huse ▸ hind)
  rw [huse] at hrange
  have hj : bn - NDIRECT < NINDIRECT := by
    rw [MAXFILE] at hbn
    omega
  have hpos : pos bn = NDIRECT + 1 + (bn - NDIRECT) := by
    rw [pos, if_neg hd]
    omega
  have hD : update D k (D k) = D := update_eq_self k D
  have hbuf : (view D s).buf ((D k).addrs NDIRECT) = blockAt s.img ((D k).addrs NDIRECT) := view_buf hrange.1
  have hfree : (D k).addrs NDIRECT < s.freeblock := by
    have := hT.bit (i := (k, NDIRECT)) (huse ▸ hind)
    rw [huse] at this
    simpa [view] using this
  have hshort : Short (setWord (blockAt s.img ((D k).addrs NDIRECT)) (bn - NDIRECT) s.freeblock) :=
    blockAt_short.setWord hj
  have hv : ((view D s).take s.freeblock).enter ((D k).addrs NDIRECT) (bn - NDIRECT) s.freeblock =
      view (update D k (D k)) (({ s with freeblock := s.freeblock + 1 } : St).put ((D k).addrs NDIRECT)
        (setWord (blockAt s.img ((D k).addrs NDIRECT)) (bn - NDIRECT) s.freeblock)) := by
    rw [hD, view_take hs]
    have hb := view_put_buf (D := D) (s := { s with freeblock := s.freeblock + 1 }) hrange.1 hshort
    unfold State.enter
    have hb' : (view D { s with freeblock := s.freeblock + 1 }).buf ((D k).addrs NDIRECT) =
      blockAt s.img ((D k).addrs NDIRECT) := hbuf
    have hsv : ∀ v : St, (view D v).saved = (view D v).buf := fun _ => rfl
    rw [hb', hsv, ← hb]
    rfl
  have hg := enter_grows hT hl (hs.fresh hlt) hj hind (hbuf ▸ h0)
  have hu := enter_use hT hl (hs.fresh hlt) hj hind (hbuf ▸ h0)
  change Grows sb k _ (((view D s).take s.freeblock).enter ((D k).addrs NDIRECT) (bn - NDIRECT) s.freeblock) at hg
  change use (((view D s).take s.freeblock).enter ((D k).addrs NDIRECT) (bn - NDIRECT) s.freeblock) = _ at hu
  rw [hv] at hg hu
  rw [← hpos] at hu
  have hz : use (view D s) (k, pos bn) = 0 := by
    rw [hpos, hl.use_entry hj hind]
    exact hbuf ▸ h0
  have hmul := Nat.mul_le_mul_right BSIZE hfree
  rw [Nat.succ_mul] at hmul
  have hself := hu
  rw [hD] at hself
  refine ⟨Added.one hs ⟨hs.len, Nat.le_succ_of_le hs.lo, hlt, fun x hx => ?_⟩ hz hg hu rfl rfl (fun x hx => ?_) id,
    by rw [hself, update_self]⟩
  · change (s.freeblock + 1) * BSIZE ≤ x at hx
    rw [Nat.succ_mul] at hx
    have hout : overlay s.img ((D k).addrs NDIRECT * BSIZE) BSIZE
        (setWord (blockAt s.img ((D k).addrs NDIRECT)) (bn - NDIRECT) s.freeblock) x = s.img x := overlay_out (by omega)
    exact hout.trans (hs.zero x (by omega))
  · have := Nat.mul_le_mul_right BSIZE hrange.1
    change nmeta * BSIZE ≤ _ at this
    exact overlay_out (by omega)

def positions (bn : Nat) : List Nat := if bn < NDIRECT then [bn] else [NDIRECT] ++ [pos bn]

theorem fileBlock_spec (hbn : bn < MAXFILE) :
    Runs (fileBlock (D k) bn) s
      (fun r t => Added k (positions bn) D s r.1 t ∧ blockOf (view (update D k r.1) t) k bn = r.2 ∨
        FSSIZE < s.freeblock + vacant (use (view D s)) k (positions bn) ∧ r.2 = FSSIZE ∧ t.len = s.len)
      (fun _ => FSSIZE < s.freeblock + vacant (use (view D s)) k (positions bn)) := by
  unfold fileBlock positions
  rw [runs_ite]
  constructor
  · intro hd
    rw [if_pos hd, runs_bind]
    refine (slot_spec hs hT hk (le_of_lt hd)).safe ?_
    rintro d t (⟨h, -⟩ | ⟨hfull, hz, hd', hlen⟩)
    · refine .inl ⟨h, ?_⟩
      have hl : Loaded (view (update D k d) t) k := view_loaded (by rw [update_self, h.type]; exact hk)
      rw [blockOf, pos, if_pos hd, hl.use_slot (le_of_lt hd)]
      change (update D k d k).addrs bn = _
      rw [update_self]
    · refine .inr ⟨?_, hd', hlen⟩
      simp [vacant, hz, hfull]
  · intro hd
    rw [if_neg hd, runs_bind]
    refine (slot_spec hs hT hk le_rfl).safe ?_
    have hpne : pos bn ∉ [NDIRECT] := by simpa using pos_ne bn
    rintro d t (⟨h, hind⟩ | ⟨hfull, hz, hd', hlen⟩)
    · have hl : Loaded (view (update D k d) t) k := view_loaded (by rw [update_self, h.type]; exact hk)
      have hDk : update D k d k = d := update_self _ _ _
      have hk' : (update D k d k).type ≠ .free := by
        rw [hDk, h.type]
        exact hk
      have hT' := h.grows.tally
      have huse : use (view (update D k d) t) (k, NDIRECT) = d.addrs NDIRECT := by
        rw [hl.use_slot le_rfl]
        exact congrArg (fun e : Dinode => e.addrs NDIRECT) hDk
      have hrange := hT'.range (k, NDIRECT) (huse ▸ hind)
      rw [huse] at hrange
      have hle : d.addrs NDIRECT * BSIZE + BSIZE ≤ t.len := by
        have := Nat.mul_le_mul_right BSIZE hrange.2
        rw [Nat.succ_mul] at this
        rw [h.base.len]
        exact this
      have hpos : pos bn = NDIRECT + 1 + (bn - NDIRECT) := by
        rw [pos, if_neg hd]
        omega
      have hj : bn - NDIRECT < NINDIRECT := by
        rw [MAXFILE] at hbn
        omega
      have hentry : use (view (update D k d) t) (k, pos bn) =
          word (blockAt t.img (d.addrs NDIRECT)) (bn - NDIRECT) := by
        have hcopy : ((view (update D k d) t).ino k).copy = d := hDk
        rw [hpos, hl.use_entry hj (by rw [hcopy]; exact hind), hcopy, view_buf hrange.1]
      rw [rsect, runs_bind, runs_bind, runs_look, if_pos hle, runs_pure, runs_ite]
      constructor
      · intro h0
        have hvac : vacant (use (view D s)) k ([NDIRECT] ++ [pos bn]) = vacant (use (view D s)) k [NDIRECT] + 1 := by
          have hz : use (view D s) (k, pos bn) = 0 := by
            by_contra hne
            exact ((h.used (pos bn)).mpr (.inl hne)) (hentry.trans h0)
          rw [vacant_append]
          simp [vacant, hz]
        have hmax : max t.len (d.addrs NDIRECT * BSIZE + BSIZE) = t.len := max_eq_left hle
        simp only [runs_bind, nextBlock, wsect, runs_look, runs_alter, runs_pure]
        rcases Nat.lt_or_eq_of_le h.base.hi with hlt | hfull
        · left
          obtain ⟨v, hv, he, hself⟩ :=
            enter_spec h.base hT' hk' hbn hd (by rw [hDk]; exact hind) (by rw [hDk]; exact h0) hlt
          rw [hDk] at he hv
          rw [hv] at he hself
          rw [hmax]
          exact ⟨h.trans he hpne, hself⟩
        · right
          refine ⟨by rw [hvac, ← add_assoc, ← h.count]; omega, hfull, ?_⟩
          rw [hmax, h.base.len, hs.len]
      · intro h0
        left
        have he := Added.none h.base hT' (p := pos bn) (by rw [hentry]; exact h0)
        rw [hDk] at he
        exact ⟨h.trans he hpne, hentry⟩
    · have hbad : ¬ d.addrs NDIRECT * BSIZE + BSIZE ≤ t.len := by
        rw [hlen, hs.len, hd']
        unfold FSSIZE BSIZE
        omega
      rw [rsect, runs_bind, runs_bind, runs_look, if_neg hbad, runs_stop]
      rw [vacant_append]
      simp [vacant, hz, hfull]

end Allocation

section Sizes

def Needed (z p : Nat) : Prop := (if p ≤ NDIRECT then p else p - 1) * BSIZE < z

def nblocks (z : Nat) : Nat := (z + (BSIZE - 1)) / BSIZE + if NDIRECT * BSIZE < z then 1 else 0

theorem nblocks_mono {z' : Nat} (h : z ≤ z') : nblocks z ≤ nblocks z' := by
  unfold nblocks
  have := Nat.div_le_div_right (c := BSIZE) (Nat.add_le_add_right h (BSIZE - 1))
  split <;> split <;> omega

variable {z' : Nat} (hbn : z / BSIZE = bn) (hlt : z < z') (hle : z' ≤ (bn + 1) * BSIZE)

include hbn hlt hle

theorem needed_step : Needed z' p ↔ Needed z p ∨ p ∈ positions bn := by
  unfold Needed positions pos NDIRECT
  unfold BSIZE at *
  by_cases hd : bn < 12
  · rw [if_pos hd, mem_singleton]
    split <;> omega
  · rw [if_neg hd, if_neg hd]
    simp only [cons_append, nil_append, mem_cons, not_mem_nil, or_false]
    split <;> omega

theorem vacant_positions {f : Nat × Nat → Nat} (h : ∀ p, f (k, p) ≠ 0 ↔ Needed z p) :
    nblocks z + vacant f k (positions bn) = nblocks z' := by
  have hz : ∀ p, f (k, p) = 0 ↔ ¬ Needed z p := fun p => by rw [← h p, not_not]
  have hone : ∀ p, vacant f k [p] = if f (k, p) = 0 then 1 else 0 := by
    intro p
    by_cases h0 : f (k, p) = 0 <;> simp [vacant, h0]
  unfold positions
  by_cases hd : bn < NDIRECT
  · have h1 := hz bn
    rw [if_pos hd, hone]
    unfold Needed at h1
    rw [if_pos (le_of_lt hd)] at h1
    unfold nblocks
    unfold NDIRECT BSIZE at *
    split <;> split <;> split <;> omega
  · have h1 := hz NDIRECT
    have h2 := hz (bn + 1)
    have happ : vacant f k ([NDIRECT] ++ [pos bn]) = vacant f k [NDIRECT] + vacant f k [bn + 1] := by
      rw [vacant, filter_append, length_append, pos, if_neg hd]
      rfl
    rw [if_neg hd, happ, hone, hone]
    unfold Needed at h1 h2
    rw [if_pos le_rfl] at h1
    rw [if_neg (by omega), Nat.add_sub_cancel] at h2
    unfold nblocks
    unfold NDIRECT BSIZE at *
    split <;> split <;> split <;> split <;> omega

end Sizes

section Append

theorem view_store {x o : Nat} (hx : nmeta ≤ x) (ho : o + l.length ≤ BSIZE) :
    view D (s.put x (patch (blockAt s.img x) o l)) =
      { (view D s).store x o l with saved := (view D (s.put x (patch (blockAt s.img x) o l))).saved } := by
  have hshort : Short (patch (blockAt s.img x) o l) := blockAt_short.patch ho
  have hb := view_put_buf (D := D) (s := s) hx hshort
  unfold State.store
  rw [view_buf hx, ← hb]
  rfl

structure Holds (D : Nat → Dinode) (s : St) (k : Nat) (l : List Byte) : Prop where
  type : (D k).type ≠ .free
  wide : Wide (D k)
  exact : ∀ p, use (view D s) (k, p) ≠ 0 ↔ Needed l.length p
  content : Content (view D s) k (fun i => l.getD i 0) l.length

structure Appended (k : Nat) (p : List Byte) (D : Nat → Dinode) (s : St) (l : List Byte) (d : Dinode) (t : St) : Prop where
  base : Base t
  holds : Holds (update D k d) t k (l ++ p)
  extend : Extends sb k (view D s) (view (update D k d) t)
  count : t.freeblock + nblocks l.length = s.freeblock + nblocks (l ++ p).length
  inum : t.freeinode = s.freeinode
  low : ∀ x < nmeta * BSIZE, t.img x = s.img x

def Fits (s : St) (l p : List Byte) : Prop :=
  (l ++ p).length ≤ MAXFILE * BSIZE ∧ s.freeblock + nblocks (l ++ p).length ≤ FSSIZE + nblocks l.length

variable {p q : List Byte}

theorem Appended.nil (hs : Base s) (hT : Tally sb.nmeta sb.size (view D s).bits (use (view D s)))
    (h : Holds D s k l) : Appended k [] D s l (D k) s := by
  have hD : update D k (D k) = D := update_eq_self k D
  refine ⟨hs, ?_, ?_, by rw [append_nil], rfl, fun _ _ => rfl⟩
  · rw [hD, append_nil]
    exact h
  · rw [hD]
    exact (Grows.refl hT).extend

theorem Appended.trans (h : Appended k p D s l d t) (h' : Appended k q (update D k d) t (l ++ p) e u) :
    Appended k (p ++ q) D s l e u := by
  have hD : update (update D k d) k e = update D k e := update_idem d e D
  obtain ⟨hb, hh, hx, hc, hi, hlow⟩ := h'
  rw [hD] at hh hx
  rw [append_assoc] at hh hc
  refine ⟨hb, hh, h.extend.trans hx, ?_, hi.trans h.inum, fun x hx => (hlow x hx).trans (h.low x hx)⟩
  have := h.count
  omega

theorem Added.block {x : Nat} (h : Added k (positions bn) D s d t)
    (hx : blockOf (view (update D k d) t) k bn = x) :
    x ≠ 0 ∧ nmeta ≤ x ∧ x < FSSIZE ∧ x < t.freeblock := by
  have hpos : pos bn ∈ positions bn := by
    unfold positions pos
    split <;> simp
  have hne : blockOf (view (update D k d) t) k bn ≠ 0 := (h.used _).mpr (.inr hpos)
  have hrange := h.grows.tally.range _ hne
  have hbit := h.grows.tally.bit hne
  rw [← hx]
  exact ⟨hne, hrange.1, hrange.2, of_decide_eq_true hbit⟩

theorem Added.append {x : Nat} (h : Added k (positions (l.length / BSIZE)) D s d t) (hh : Holds D s k l)
    (hx : blockOf (view (update D k d) t) k (l.length / BSIZE) = x) (hp : 0 < p.length)
    (hfit : l.length % BSIZE + p.length ≤ BSIZE) :
    Appended k p D s l d (t.put x (patch (blockAt t.img x) (l.length % BSIZE) p)) := by
  have hT := h.grows.tally
  obtain ⟨hx0, hlo, -, hfree⟩ := h.block hx
  have hv := view_store (D := update D k d) (s := t) (l := p) (x := x) (o := l.length % BSIZE) hlo hfit
  have huse : use (view (update D k d) (t.put x (patch (blockAt t.img x) (l.length % BSIZE) p))) =
      use (view (update D k d) t) := by
    rw [hv]
    exact store_use hT hx (l.length % BSIZE) p
  have hmod := Nat.div_add_mod l.length BSIZE
  have hcount : nblocks l.length + vacant (use (view D s)) k (positions (l.length / BSIZE)) = nblocks (l ++ p).length :=
    vacant_positions rfl (by rw [length_append]; omega)
      (by rw [length_append, mul_comm, Nat.mul_succ]; omega) hh.exact
  refine ⟨?_, ⟨?_, ?_, ?_, ?_⟩, ?_, ?_, h.inum, ?_⟩
  · refine ⟨h.base.len, h.base.lo, h.base.hi, fun y hy => ?_⟩
    change t.freeblock * BSIZE ≤ y at hy
    have hmul := Nat.mul_le_mul_right BSIZE hfree
    rw [Nat.succ_mul] at hmul
    have hout : overlay t.img (x * BSIZE) BSIZE (patch (blockAt t.img x) (l.length % BSIZE) p) y = t.img y :=
      overlay_out (by omega)
    exact hout.trans (h.base.zero y hy)
  · rw [update_self, h.type]
    exact hh.type
  · rw [update_self]
    exact h.wide hh.wide
  · intro q
    rw [huse, h.used, hh.exact]
    exact (needed_step rfl (by rw [length_append]; omega)
      (by rw [length_append, mul_comm, Nat.mul_succ]; omega)).symm
  · have hc := store_content hT hx hx0 rfl hfit (h.grows.content hh.content) le_rfl
    rw [Nat.max_eq_right (Nat.le_add_right _ _), ← length_append] at hc
    rw [hv]
    intro i hi
    obtain ⟨h1, h2⟩ := hc i hi
    refine ⟨h1, h2.trans ?_⟩
    change patch _ _ _ _ = (l ++ p).getD i 0
    unfold patch
    by_cases hil : l.length ≤ i
    · rw [length_append] at hi
      rw [if_pos ⟨hil, by omega⟩, getD_append_right _ _ _ _ hil]
    · rw [if_neg (by omega), getD_append _ _ _ _ (by omega)]
  · refine h.grows.extend.trans ?_
    rw [hv]
    have hst := store_extends hT hx (l.length % BSIZE) p
    exact ⟨hst.tally, hst.others, hst.data, hst.copy, hst.ino, hst.dinode, hst.live, hst.outstanding⟩
  · have := h.count
    change t.freeblock + _ = _
    omega
  · intro y hy
    have hmul := Nat.mul_le_mul_right BSIZE hlo
    have hout : overlay t.img (x * BSIZE) BSIZE (patch (blockAt t.img x) (l.length % BSIZE) p) y = t.img y :=
      overlay_out (by omega)
    exact hout.trans (h.low y hy)

theorem iappendLoop_spec {fuel : Nat} (hs : Base s) (hT : Tally sb.nmeta sb.size (view D s).bits (use (view D s)))
    (h : Holds D s k l) (hf : p.length ≤ fuel) :
    Runs (iappendLoop fuel (D k) l.length p) s
      (fun r t => r.2 = (l ++ p).length ∧ Appended k p D s l r.1 t) (fun _ => ¬ Fits s l p) := by
  induction fuel generalizing D s l p with
  | zero =>
    have hp : p = [] := eq_nil_of_length_eq_zero (Nat.le_zero.mp hf)
    subst hp
    exact ⟨by rw [append_nil], Appended.nil hs hT h⟩
  | succ fuel ih =>
    unfold iappendLoop
    rw [runs_ite]
    constructor
    · intro hp
      dsimp only
      rw [runs_ite]
      constructor
      · intro hbn
        have hmod := Nat.div_add_mod l.length BSIZE
        have hlt := Nat.mod_lt l.length (show 0 < BSIZE by decide)
        have hoff : l.length - l.length / BSIZE * BSIZE = l.length % BSIZE := by
          rw [mul_comm]
          omega
        have hroom : (l.length / BSIZE + 1) * BSIZE - l.length = BSIZE - l.length % BSIZE := by
          rw [mul_comm, Nat.mul_succ]
          omega
        rw [hoff, hroom]
        generalize hn : min p.length (BSIZE - l.length % BSIZE) = n1
        have hlen : (p.take n1).length = n1 := by
          rw [length_take]
          omega
        have hcount : nblocks l.length + vacant (use (view D s)) k (positions (l.length / BSIZE)) =
            nblocks (l ++ p.take n1).length :=
          vacant_positions rfl (by rw [length_append]; omega)
            (by rw [length_append, mul_comm, Nat.mul_succ]; omega) h.exact
        have hmono : nblocks (l ++ p.take n1).length ≤ nblocks (l ++ p).length := by
          refine nblocks_mono ?_
          rw [length_append, length_append]
          omega
        have hfull : FSSIZE < s.freeblock + vacant (use (view D s)) k (positions (l.length / BSIZE)) → ¬ Fits s l p := by
          rintro hbad ⟨-, hle⟩
          omega
        rw [runs_bind]
        refine (fileBlock_spec hs hT h.type hbn).mono ?_ (fun _ => hfull)
        rintro ⟨d, x⟩ t (⟨ha, hx⟩ | ⟨hbad, hx, hl⟩)
        · dsimp only at ha hx ⊢
          have hap := ha.append h hx (p := p.take n1) (by omega) (by omega)
          have hle : x * BSIZE + BSIZE ≤ t.len := by
            have := Nat.mul_le_mul_right BSIZE (ha.block hx).2.2.1
            rw [Nat.succ_mul] at this
            rw [ha.base.len]
            exact this
          rw [rsect, runs_bind, runs_bind, runs_look, if_pos hle, runs_pure, wsect, runs_bind, runs_alter, max_eq_left hle]
          have hD : update D k d k = d := update_self _ _ _
          have hih := ih hap.base hap.extend.tally hap.holds (p := p.drop n1) (by rw [length_drop]; omega)
          rw [hD, length_append, hlen] at hih
          refine hih.mono ?_ ?_
          · rintro r u ⟨hr, hau⟩
            have hall := hap.trans hau
            rw [take_append_drop] at hall
            rw [append_assoc, take_append_drop] at hr
            exact ⟨hr, hall⟩
          · rintro e hno ⟨h1, h2⟩
            have hc := hap.count
            refine hno ⟨?_, ?_⟩
            · rw [append_assoc, take_append_drop]
              exact h1
            · rw [append_assoc, take_append_drop]
              omega
        · dsimp only at hx ⊢
          have hle : ¬ x * BSIZE + BSIZE ≤ t.len := by
            rw [hl, hs.len, hx]
            unfold FSSIZE BSIZE
            omega
          rw [rsect, runs_bind, runs_bind, runs_look, if_neg hle, runs_stop]
          exact hfull hbad
      · rintro hbn ⟨hle, -⟩
        rw [length_append] at hle
        unfold BSIZE at *
        omega
    · intro hp
      have hp : p = [] := eq_nil_of_length_eq_zero (by omega)
      subst hp
      exact ⟨by rw [append_nil], Appended.nil hs hT h⟩

end Append

end Xv6Rcu.Mkfs

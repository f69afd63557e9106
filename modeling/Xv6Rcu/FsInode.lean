import Xv6Rcu.FsFile
import Xv6Rcu.Threads

namespace Xv6Rcu.Fs

open Exec Function Threads

variable {sb : Super} {s t u : State} {k j p i b a n z : Nat} {f : Block} {d : Dinode}

section Definitions

structure Sound (sb : Super) (s : State) : Prop where
  good : Good sb s
  synced : ∀ k, 0 < (s.ino k).ref → (s.ino k).valid = true → (s.ino k).copy = s.dinode k
  typed : ∀ k, 0 < (s.ino k).ref → (s.ino k).valid = true → (s.ino k).copy.type ≠ .free

def refs (s : State) (k : Nat) : Nat := (s.ino k).ref

/-- Nothing is changed but the inode table, and no inode looks different. -/
structure Quiet (s t : State) : Prop where
  bits : t.bits = s.bits
  buf : t.buf = s.buf
  saved : t.saved = s.saved
  dinode : t.dinode = s.dinode
  outstanding : t.outstanding = s.outstanding
  node : ∀ k, t.node k = s.node k

end Definitions

section Frames

theorem Sound.node (h : Sound sb s) (k : Nat) : s.node k = s.dinode k := by
  unfold State.node
  split
  · rename_i hc
    exact h.synced k hc.1 hc.2
  · rfl

theorem Quiet.use (h : Quiet s t) : use t = use s :=
  use_of_addrs (fun k => by rw [h.node]) (fun k => by rw [h.node]) h.buf

theorem Quiet.good (h : Quiet s t) (hg : Good sb s) : Good sb t where
  tally := by
    rw [h.use, h.bits]
    exact hg.tally
  size := by
    intro k hk
    rw [h.node] at hk ⊢
    exact hg.size k hk
  full := by
    intro k hk i hi
    rw [h.node] at hk hi
    rw [blockOf, h.use]
    exact hg.full k hk i hi

theorem Quiet.fileByte (h : Quiet s t) : fileByte t = fileByte s := by
  funext k i
  unfold Fs.fileByte blockOf
  rw [h.use, h.buf]

theorem Quiet.trans (h : Quiet s t) (h' : Quiet t u) : Quiet s u :=
  ⟨h'.bits.trans h.bits, h'.buf.trans h.buf, h'.saved.trans h.saved, h'.dinode.trans h.dinode,
    h'.outstanding.trans h.outstanding, fun k => (h'.node k).trans (h.node k)⟩

end Frames

section References

def State.got (s : State) (k : Nat) : State :=
  if 0 < (s.ino k).ref then
    { s with ino := update s.ino k { s.ino k with ref := (s.ino k).ref + 1 } }
  else
    { s with
      ino := update s.ino k { s.ino k with ref := 1, valid := false }
      live := s.live + 1 }

theorem iget_spec {Q : Unit → State → Prop} {E : Panic → Prop} (hQ : Q () (s.got k)) (hE : E .noInodes) :
    Runs (iget k) s Q E := by
  unfold iget
  rw [runs_bind, runs_look, runs_ite]
  refine ⟨fun hpos => ?_, fun hpos => ?_⟩
  · rw [State.got, if_pos hpos] at hQ
    exact hQ
  · rw [State.got, if_neg hpos] at hQ
    rw [runs_ite]
    exact ⟨fun _ => hE, fun _ => hQ⟩

theorem got_ino_ne (hj : j ≠ k) : (s.got k).ino j = s.ino j := by
  unfold State.got
  split
  · exact update_of_ne hj _ _
  · exact update_of_ne hj _ _

theorem got_ref : ((s.got k).ino k).ref = (s.ino k).ref + 1 := by
  unfold State.got
  split
  · simp
  · simp only [update_self]
    omega

theorem got_refs : refs (s.got k) = update (refs s) k (refs s k + 1) := by
  funext j
  refine update_cases j ?_ (fun hj => ?_)
  · exact got_ref
  · rw [refs, got_ino_ne hj, refs]

theorem got_valid (h : ((s.got k).ino k).valid = true) :
    0 < (s.ino k).ref ∧ (s.ino k).valid = true ∧ ((s.got k).ino k).copy = (s.ino k).copy := by
  unfold State.got at *
  split at h
  · rename_i hpos
    simp only [update_self] at h
    refine ⟨hpos, h, ?_⟩
    simp [hpos]
  · simp at h

theorem got_dinode : (s.got k).dinode = s.dinode := by
  unfold State.got
  split <;> rfl

theorem got_loaded (h : Loaded s j) : Loaded (s.got k) j := by
  by_cases hj : j = k
  · subst hj
    have hino : (s.got j).ino j = { s.ino j with ref := (s.ino j).ref + 1 } := by
      rw [State.got, if_pos h.ref]
      exact update_self _ _ _
    exact ⟨hino ▸ Nat.succ_pos _, hino ▸ h.valid, hino ▸ h.type⟩
  · have hino := got_ino_ne (s := s) hj
    exact ⟨hino ▸ h.ref, hino ▸ h.valid, hino ▸ h.type⟩

theorem got_node : (s.got k).node j = s.node j := by
  by_cases hj : j = k
  · subst hj
    by_cases hpos : 0 < (s.ino j).ref
    · simp [State.node, State.got, hpos]
    · simp [State.node, State.got, hpos]
  · exact node_congr (got_ino_ne hj) (by rw [got_dinode])

theorem got_quiet : Quiet s (s.got k) := by
  refine ⟨?_, ?_, ?_, got_dinode, ?_, fun _ => got_node⟩ <;>
  · unfold State.got
    split <;> rfl

theorem got_sound (h : Sound sb s) : Sound sb (s.got k) where
  good := got_quiet.good h.good
  synced := by
    intro j hr hv
    rw [got_dinode]
    by_cases hj : j = k
    · subst hj
      obtain ⟨hr', hv', hc⟩ := got_valid hv
      rw [hc]
      exact h.synced j hr' hv'
    · rw [got_ino_ne hj] at hr hv ⊢
      exact h.synced j hr hv
  typed := by
    intro j hr hv
    by_cases hj : j = k
    · subst hj
      obtain ⟨hr', hv', hc⟩ := got_valid hv
      rw [hc]
      exact h.typed j hr' hv'
    · rw [got_ino_ne hj] at hr hv ⊢
      exact h.typed j hr hv

theorem idup_spec {Q : Unit → State → Prop} {E : Panic → Prop} (h : 0 < (s.ino k).ref) (hQ : Q () (s.got k)) :
    Runs (idup k) s Q E := by
  unfold idup
  rw [runs_alter]
  rw [State.got, if_pos h] at hQ
  exact hQ

def State.load (s : State) (k : Nat) : State :=
  if (s.ino k).valid = true then s
  else { s with ino := update s.ino k { s.ino k with valid := true, copy := s.dinode k } }

theorem ilock_spec {Q : Unit → State → Prop} {E : Panic → Prop} (hr : 0 < (s.ino k).ref)
    (hQ : (s.dinode k).type ≠ .free ∨ (s.ino k).valid = true → Q () (s.load k))
    (hE : (s.dinode k).type = .free → (s.ino k).valid = false → E .noType) : Runs (ilock k) s Q E := by
  unfold ilock
  rw [runs_bind, runs_look, if_neg (Nat.not_lt.mpr hr), runs_when]
  constructor
  · intro hv
    rw [runs_bind, runs_alter]
    have hload : s.load k = { s with ino := update s.ino k { s.ino k with valid := true, copy := s.dinode k } } :=
      if_neg (by simp [hv])
    rw [hload] at hQ
    rw [runs_ite]
    exact ⟨fun hf => hE hf hv, fun hf => hQ (.inl hf)⟩
  · intro hv
    have hv' : (s.ino k).valid = true := by simpa using hv
    have hload : s.load k = s := if_pos hv'
    rw [hload] at hQ
    exact hQ (.inr hv')

theorem load_ino_ne (hj : j ≠ k) : (s.load k).ino j = s.ino j := by
  unfold State.load
  split
  · rfl
  · exact update_of_ne hj _ _

theorem load_refs : refs (s.load k) = refs s := by
  funext j
  unfold refs State.load
  split
  · rfl
  · by_cases hj : j = k
    · rw [hj]
      simp
    · simp [hj]

theorem load_dinode : (s.load k).dinode = s.dinode := by
  unfold State.load
  split <;> rfl

section

variable (h : Sound sb s) (hr : 0 < (s.ino k).ref)

include h hr

theorem load_ino :
    (s.load k).ino k = ⟨(s.ino k).ref, true, s.dinode k⟩ := by
  unfold State.load
  split
  · rename_i hv
    rw [← h.synced k hr hv, ← hv]
  · simp

theorem load_loaded (ht : (s.dinode k).type ≠ .free) :
    Loaded (s.load k) k := by
  have hino := load_ino h hr
  exact ⟨hino ▸ hr, hino ▸ rfl, hino ▸ ht⟩

theorem Sound.type_of_valid
    (ht : (s.dinode k).type ≠ .free ∨ (s.ino k).valid = true) : (s.dinode k).type ≠ .free := by
  rcases ht with ht | hv
  · exact ht
  · rw [← h.synced k hr hv]
    exact h.typed k hr hv

theorem load_node : (s.load k).node j = s.node j := by
  by_cases hj : j = k
  · subst hj
    rw [h.node, State.node, load_ino h hr]
    simp [hr]
  · exact node_congr (load_ino_ne hj) (by rw [load_dinode])

theorem load_quiet : Quiet s (s.load k) := by
  refine ⟨?_, ?_, ?_, load_dinode, ?_, fun _ => load_node h hr⟩ <;>
  · unfold State.load
    split <;> rfl

theorem load_sound (ht : (s.dinode k).type ≠ .free) :
    Sound sb (s.load k) where
  good := (load_quiet h hr).good h.good
  synced := by
    intro j hrj hv
    rw [load_dinode]
    by_cases hj : j = k
    · subst hj
      rw [load_ino h hr]
    · rw [load_ino_ne hj] at hrj hv ⊢
      exact h.synced j hrj hv
  typed := by
    intro j hrj hv
    by_cases hj : j = k
    · subst hj
      rw [load_ino h hr]
      exact ht
    · rw [load_ino_ne hj] at hrj hv ⊢
      exact h.typed j hrj hv

end

theorem load_loaded_of (hl : Loaded s j) : Loaded (s.load k) j := by
  by_cases hj : j = k
  · subst hj
    have hload : s.load j = s := if_pos hl.valid
    rw [hload]
    exact hl
  · have hino := load_ino_ne (s := s) hj
    exact ⟨hino ▸ hl.ref, hino ▸ hl.valid, hino ▸ hl.type⟩

theorem iunlock_spec {Q : Unit → State → Prop} {E : Panic → Prop} (hr : 0 < (s.ino k).ref) (hQ : Q () s) :
    Runs (iunlock k) s Q E := by
  unfold iunlock
  rw [runs_bind, runs_look, if_neg (Nat.not_lt.mpr hr)]
  exact hQ

end References

section Truncation

def Freed (k : Nat) (s : State) (S : Nat → Prop) (bits : Nat → Bool) : Prop :=
  ∀ b, bits b = true ↔ s.bits b = true ∧ ∀ p, S p → use s (k, p) = b → b = 0

theorem runs_bfree {Q : Unit → State → Prop} {E : Panic → Prop} (hb : s.bits b = true) (ho : 0 < s.outstanding) :
    Runs (bfree b) s Q E ↔ Q () { s with bits := update s.bits b false } := by
  have hb' : ¬ s.bits b = false := by simp [hb]
  rw [bfree, runs_bind, runs_look, if_neg hb', runs_bind, runs_alter, runs_logWrite (by exact ho)]

section Steps

variable {S S' : Nat → Prop} {B : Nat → Bool} (h : Tally sb.nmeta sb.size s.bits (use s))

include h

theorem Freed.bit (hf : Freed k s S B) (hp : ¬ S p) (h0 : use s (k, p) ≠ 0) : B (use s (k, p)) = true := by
  refine (hf _).mpr ⟨h.bit h0, fun q hq he => ?_⟩
  have hpq : p = q := (Prod.ext_iff.mp (h.apart _ _ he.symm h0)).2
  exact absurd (hpq ▸ hq) hp

omit h in
theorem Freed.free (hf : Freed k s S B) (hS : ∀ q, S' q ↔ S q ∨ q = p) (h0 : use s (k, p) ≠ 0) :
    Freed k s S' (update B (use s (k, p)) false) := by
  intro b
  by_cases hb : b = use s (k, p)
  · rw [hb, update_self]
    refine iff_of_false Bool.false_ne_true (fun hc => h0 (hc.2 p ((hS p).mpr (.inr rfl)) rfl))
  · rw [update_of_ne hb, hf b]
    refine and_congr_right (fun _ => ⟨fun hc q hq he => ?_, fun hc q hq he => ?_⟩)
    · rcases (hS q).mp hq with hq | rfl
      · exact hc q hq he
      · exact absurd he.symm hb
    · exact hc q ((hS q).mpr (.inl hq)) he

omit h in
theorem Freed.skip (hf : Freed k s S B) (hS : ∀ q, S' q ↔ S q ∨ use s (k, q) = 0 ∧ S' q) : Freed k s S' B := by
  intro b
  rw [hf b]
  refine and_congr_right (fun _ => ⟨fun hc q hq he => ?_, fun hc q hq he => ?_⟩)
  · rcases (hS q).mp hq with hq | hq
    · exact hc q hq he
    · exact he.symm.trans hq.1
  · exact hc q ((hS q).mpr (.inl hq)) he

end Steps

/-- The state with the bitmap and the addresses of one inode replaced. -/
def State.put (s : State) (k : Nat) (bits : Nat → Bool) (f : Nat → Nat) : State :=
  { s with
    bits := bits
    ino := update s.ino k { s.ino k with copy := { (s.ino k).copy with addrs := f } } }

theorem put_self (s : State) (k : Nat) : s.put k s.bits (s.ino k).copy.addrs = s := by
  unfold State.put
  rw [update_eq_self]

theorem put_copy {B : Nat → Bool} {g : Nat → Nat} :
    ((s.put k B g).ino k).copy = { (s.ino k).copy with addrs := g } := by
  simp [State.put]

theorem put_setAddr {B : Nat → Bool} {g : Nat → Nat} :
    (s.put k B g).setAddr k i a = s.put k B (update g i a) := by
  simp [State.put, State.setAddr, State.setCopy]

theorem freeSlot_spec {B : Nat → Bool} {g : Nat → Nat} (hb : B a = true) (ho : 0 < s.outstanding) :
    Runs (do
      bfree a
      alter (fun s => s.setAddr k i 0)) (s.put k B g)
      (fun _ t => t = s.put k (update B a false) (update g i 0)) (fun _ => False) := by
  rw [runs_bind]
  refine (runs_bfree (by exact hb) (by exact ho)).mpr ?_
  rw [runs_alter]
  exact put_setAddr (s := s) (k := k) (B := update B a false) (g := g)

theorem truncDirect_spec (hG : Good sb s) (hl : Loaded s k) (ho : 0 < s.outstanding) :
    Runs (each (fun i => do
      let s ← look
      when ((s.ino k).copy.addrs i ≠ 0) do
        bfree ((s.ino k).copy.addrs i)
        alter (fun s => s.setAddr k i 0)) NDIRECT) s
      (fun _ t => ∃ B, Freed k s (fun p => p < NDIRECT) B ∧
        t = s.put k B (fun q => if q < NDIRECT then 0 else (s.ino k).copy.addrs q)) (fun _ => False) := by
  have hloop := Runs.each (s := s) (n := NDIRECT) (E := fun _ : Panic => False)
    (g := fun i => do
      let s ← look
      when ((s.ino k).copy.addrs i ≠ 0) do
        bfree ((s.ino k).copy.addrs i)
        alter (fun s => s.setAddr k i 0))
    (fun i t => ∃ B, Freed k s (fun p => p < i) B ∧
      t = s.put k B (fun q => if q < i then 0 else (s.ino k).copy.addrs q)) ?_ ?_
  · exact hloop
  · refine ⟨s.bits, fun b => ⟨fun hb => ⟨hb, nofun⟩, fun hb => hb.1⟩, ?_⟩
    exact (put_self s k).symm
  · rintro i hi t ⟨B, hB, rfl⟩
    have hslot : use s (k, i) = (s.ino k).copy.addrs i := hl.use_slot (le_of_lt hi)
    have hval : ((s.put k B (fun q => if q < i then 0 else (s.ino k).copy.addrs q)).ino k).copy.addrs i =
        use s (k, i) := by
      rw [put_copy, hslot]
      exact if_neg (lt_irrefl i)
    rw [runs_bind, runs_look, runs_when, hval]
    have hS : ∀ q, q < i + 1 ↔ q < i ∨ q = i := fun q => by omega
    constructor
    · intro h0
      have hbit := hB.bit hG.tally (lt_irrefl i) h0
      refine (freeSlot_spec hbit ho).safe ?_
      rintro _ _ rfl
      refine ⟨_, hB.free hS h0, ?_⟩
      congr 1
      funext q
      refine update_cases q ?_ (fun _ => ?_)
      · rw [if_pos (Nat.lt_succ_self i)]
      · have : q < i + 1 ↔ q < i := by omega
        simp only [this]
    · intro h0
      have h0' : use s (k, i) = 0 := by simpa using h0
      refine ⟨B, hB.skip (fun q => ?_), ?_⟩
      · constructor
        · intro hq
          rcases (hS q).mp hq with hq' | rfl
          · exact .inl hq'
          · exact .inr ⟨h0', hq⟩
        · rintro (hq | hq)
          · exact Nat.lt_succ_of_lt hq
          · exact hq.2
      · congr 1
        funext q
        by_cases hq : q = i
        · rw [hq, if_neg (lt_irrefl i), if_pos (Nat.lt_succ_self i), ← hslot, h0']
        · have : q < i + 1 ↔ q < i := by omega
          simp only [this]

theorem truncIndirect_spec {B : Nat → Bool} {g : Nat → Nat} (hG : Good sb s) (hl : Loaded s k)
    (ho : 0 < s.outstanding) (hind : (s.ino k).copy.addrs NDIRECT ≠ 0)
    (hB : Freed k s (fun p => p < NDIRECT) B) :
    Runs (each (fun j => when (word (s.buf ((s.ino k).copy.addrs NDIRECT)) j ≠ 0)
        (bfree (word (s.buf ((s.ino k).copy.addrs NDIRECT)) j))) NINDIRECT) (s.put k B g)
      (fun _ t => ∃ B', Freed k s (fun p => p < NDIRECT ∨ NDIRECT < p) B' ∧ t = s.put k B' g)
      (fun _ => False) := by
  have hloop := Runs.each (s := s.put k B g) (n := NINDIRECT) (E := fun _ : Panic => False)
    (g := fun j => when (word (s.buf ((s.ino k).copy.addrs NDIRECT)) j ≠ 0)
      (bfree (word (s.buf ((s.ino k).copy.addrs NDIRECT)) j)))
    (fun i t => ∃ B', Freed k s (fun p => p < NDIRECT ∨ NDIRECT < p ∧ p < NDIRECT + 1 + i) B' ∧ t = s.put k B' g)
    ?_ ?_
  · refine hloop.safe ?_
    rintro _ t ⟨B', hB', rfl⟩
    refine ⟨B', hB'.skip (fun q => ?_), rfl⟩
    constructor
    · rintro (hq | hq)
      · exact .inl (.inl hq)
      · by_cases hlt : q < NDIRECT + 1 + NINDIRECT
        · exact .inl (.inr ⟨hq, hlt⟩)
        · refine .inr ⟨addrAt_out ?_, .inr hq⟩
          rw [MAXFILE]
          omega
    · rintro ((hq | hq) | hq)
      · exact .inl hq
      · exact .inr hq.1
      · exact hq.2
  · refine ⟨B, hB.skip (fun q => ?_), rfl⟩
    constructor
    · rintro (hq | hq)
      · exact .inl hq
      · omega
    · rintro (hq | hq)
      · exact .inl hq
      · exact hq.2
  · rintro i hi t ⟨B', hB', rfl⟩
    rw [← hl.use_entry hi hind, runs_when]
    have hS : ∀ q, (q < NDIRECT ∨ NDIRECT < q ∧ q < NDIRECT + 1 + (i + 1)) ↔
        (q < NDIRECT ∨ NDIRECT < q ∧ q < NDIRECT + 1 + i) ∨ q = NDIRECT + 1 + i := fun q => by omega
    constructor
    · intro h0
      have hbit := hB'.bit hG.tally (by omega) h0
      refine (runs_bfree (by exact hbit) (by exact ho)).mpr ?_
      exact ⟨_, hB'.free hS h0, rfl⟩
    · intro h0
      have h0' : use s (k, NDIRECT + 1 + i) = 0 := by simpa using h0
      refine ⟨B', hB'.skip (fun q => ?_), rfl⟩
      constructor
      · intro hq
        rcases (hS q).mp hq with hq' | rfl
        · exact .inl hq'
        · exact .inr ⟨h0', hq⟩
      · rintro (hq | hq)
        · exact (hS q).mpr (.inl hq)
        · exact hq.2

structure Truncated (sb : Super) (k : Nat) (s t : State) : Prop where
  good : Good sb t
  copy : ∃ g, t.ino k = { s.ino k with copy := { (s.ino k).copy with addrs := g, size := 0 } }
  ino : ∀ j, j ≠ k → t.ino j = s.ino j
  dinode : t.dinode = update s.dinode k (t.ino k).copy
  buf : t.buf = s.buf
  saved : t.saved = s.saved
  live : t.live = s.live
  outstanding : t.outstanding = s.outstanding
  others : ∀ j p, j ≠ k → use t (j, p) = use s (j, p)
  empty : ∀ p, use t (k, p) = 0

def State.clear (s : State) (k : Nat) (bits : Nat → Bool) (g : Nat → Nat) : State :=
  let t := (s.put k bits g).setCopy k { ((s.put k bits g).ino k).copy with size := 0 }
  { t with dinode := update t.dinode k (t.ino k).copy }

theorem clear_truncated {B : Nat → Bool} {g : Nat → Nat} (hG : Good sb s) (hl : Loaded s k)
    (hB : Freed k s (fun _ => True) B) (hg : ∀ q ≤ NDIRECT, g q = 0) : Truncated sb k s (s.clear k B g) := by
  have hino : (s.clear k B g).ino k = { s.ino k with copy := { (s.ino k).copy with addrs := g, size := 0 } } := by
    simp [State.clear, State.put, State.setCopy]
  have hne : ∀ j, j ≠ k → (s.clear k B g).ino j = s.ino j := by
    intro j hj
    simp [State.clear, State.put, State.setCopy, hj]
  have hdn : ∀ j, j ≠ k → (s.clear k B g).dinode j = s.dinode j := by
    intro j hj
    simp [State.clear, State.put, State.setCopy, hj]
  have hnodek : (s.clear k B g).node k = { (s.ino k).copy with addrs := g, size := 0 } := by
    simp [State.node, hino, hl.ref, hl.valid]
  have hnode : ∀ j, j ≠ k → (s.clear k B g).node j = s.node j := fun j hj => node_congr (hne j hj) (hdn j hj)
  have hempty : ∀ p, use (s.clear k B g) (k, p) = 0 := by
    intro p
    rw [use, hnodek]
    rcases lt_or_ge NDIRECT p with hp | hp
    · exact addrAt_none (hg NDIRECT le_rfl) hp
    · rw [addrAt_slot (d := { (s.ino k).copy with addrs := g, size := 0 }) hl.type hp]
      exact hg p hp
  have hothers : ∀ j p, j ≠ k → use (s.clear k B g) (j, p) = use s (j, p) := by
    intro j p hj
    rw [use, use, hnode j hj]
    rfl
  have hbits : (s.clear k B g).bits = B := rfl
  refine ⟨⟨?_, ?_, ?_⟩, ⟨g, hino⟩, hne, rfl, rfl, rfl, rfl, rfl, hothers, hempty⟩
  · refine hG.tally.give (S := fun i => i.1 = k) ?_ ?_ ?_
    · rintro ⟨j, p⟩ rfl
      exact hempty p
    · rintro ⟨j, p⟩ hj
      exact hothers j p hj
    · intro b
      rw [hbits, hB b]
      refine and_congr_right (fun _ => ⟨?_, ?_⟩)
      · rintro hc ⟨j, p⟩ rfl he
        exact he.trans (hc p trivial he)
      · intro hc p _ he
        exact he.symm.trans (hc (k, p) rfl he)
  · intro j hj
    by_cases hjk : j = k
    · rw [hjk, hnodek]
      exact Nat.zero_le _
    · rw [hnode j hjk] at hj ⊢
      exact hG.size j hj
  · intro j hj i hi
    by_cases hjk : j = k
    · rw [hjk, hnodek] at hi
      exact absurd hi (Nat.not_lt_zero _)
    · rw [hnode j hjk] at hj hi
      rw [blockOf, hothers j _ hjk]
      exact hG.full j hj i hi

theorem itrunc_spec (hG : Good sb s) (hl : Loaded s k) (ho : 0 < s.outstanding) :
    Runs (itrunc k) s (fun _ t => Truncated sb k s t) (fun _ => False) := by
  unfold itrunc
  rw [runs_bind]
  refine (truncDirect_spec hG hl ho).safe ?_
  rintro _ t ⟨B, hB, rfl⟩
  rw [runs_bind, runs_look, put_copy]
  dsimp only
  rw [if_neg (lt_irrefl NDIRECT), runs_bind, runs_when]
  constructor
  · intro hind
    rw [runs_bind]
    refine (truncIndirect_spec hG hl ho hind hB).safe ?_
    rintro _ t ⟨B', hB', rfl⟩
    have hslot : use s (k, NDIRECT) = (s.ino k).copy.addrs NDIRECT := hl.use_slot le_rfl
    have h0 : use s (k, NDIRECT) ≠ 0 := hslot ▸ hind
    have hbit := hB'.bit hG.tally (p := NDIRECT) (by omega) h0
    rw [← hslot]
    refine (freeSlot_spec hbit ho).safe ?_
    rintro _ _ rfl
    rw [runs_bind, runs_alter, runs_iupdate (by exact ho)]
    have hall : Freed k s (fun _ => True) (update B' (use s (k, NDIRECT)) false) :=
      hB'.free (fun q => ⟨fun _ => by omega, fun _ => trivial⟩) h0
    refine clear_truncated hG hl hall (fun q hq => ?_)
    refine update_cases q ?_ (fun _ => ?_)
    · rfl
    · rw [if_pos (by omega)]
  · intro hind
    have hind' : (s.ino k).copy.addrs NDIRECT = 0 := by simpa using hind
    rw [runs_bind, runs_alter, runs_iupdate (by exact ho)]
    have hall : Freed k s (fun _ => True) B := by
      refine hB.skip (fun q => ⟨fun _ => ?_, fun _ => trivial⟩)
      rcases Nat.lt_trichotomy q NDIRECT with hq | hq | hq
      · exact .inl hq
      · exact .inr ⟨by rw [hq, hl.use_slot le_rfl, hind'], trivial⟩
      · exact .inr ⟨by rw [use, hl.node, addrAt_none hind' hq], trivial⟩
    refine clear_truncated hG hl hall (fun q hq => ?_)
    by_cases hqn : q = NDIRECT
    · rw [hqn, if_neg (lt_irrefl _), hind']
    · rw [if_pos (by omega)]

end Truncation

section Effects

/-- Inode `j` and the content of its file are the same in both states. -/
structure Like (s t : State) (j : Nat) : Prop where
  type : (t.node j).type = (s.node j).type
  nlink : (t.node j).nlink = (s.node j).nlink
  size : (t.node j).size = (s.node j).size
  bytes : (s.node j).type ≠ .free → ∀ i < (s.node j).size, fileByte t j i = fileByte s j i

theorem Like.refl (s : State) (j : Nat) : Like s s j := ⟨rfl, rfl, rfl, fun _ _ _ => rfl⟩

theorem Like.trans (h : Like s t j) (h' : Like t u j) : Like s u j := by
  refine ⟨h'.type.trans h.type, h'.nlink.trans h.nlink, h'.size.trans h.size, fun hf i hi => ?_⟩
  exact (h'.bytes (by rwa [h.type]) i (by rwa [h.size])).trans (h.bytes hf i hi)

theorem Quiet.like (h : Quiet s t) (j : Nat) : Like s t j :=
  ⟨by rw [h.node], by rw [h.node], by rw [h.node], fun _ _ _ => by rw [h.fileByte]⟩

theorem like_of_use (hn : t.node j = s.node j) (hu : ∀ p, use t (j, p) = use s (j, p)) (hb : t.buf = s.buf) :
    Like s t j := by
  refine ⟨by rw [hn], by rw [hn], by rw [hn], fun _ i _ => ?_⟩
  unfold fileByte blockOf
  rw [hu, hb]

structure Touch (sb : Super) (k : Nat) (s t : State) : Prop where
  sound : Sound sb t
  like : ∀ j, j ≠ k → Like s t j
  refs : refs t = refs s
  loaded : ∀ j, Loaded s j → Loaded t j
  outstanding : t.outstanding = s.outstanding
  valid : ∀ j, (t.ino j).valid = (s.ino j).valid

theorem sound_of_written (hs : Sound sb s) (hl : Loaded s k) (hg : Good sb t) (hr : (t.ino k).ref = (s.ino k).ref)
    (hv : (t.ino k).valid = (s.ino k).valid) (ht : (t.ino k).copy.type = (s.ino k).copy.type)
    (hi : ∀ j, j ≠ k → t.ino j = s.ino j) (hd : t.dinode = update s.dinode k (t.ino k).copy) :
    Sound sb t ∧ refs t = refs s ∧ (∀ j, Loaded s j → Loaded t j) ∧ ∀ j, (t.ino j).valid = (s.ino j).valid := by
  refine ⟨⟨hg, ?_, ?_⟩, ?_, ?_, ?_⟩
  · intro j hrj hvj
    by_cases hj : j = k
    · rw [hj, hd, update_self]
    · rw [hi j hj] at hrj hvj ⊢
      rw [hd, update_of_ne hj]
      exact hs.synced j hrj hvj
  · intro j hrj hvj
    by_cases hj : j = k
    · rw [hj, ht]
      exact hl.type
    · rw [hi j hj] at hrj hvj ⊢
      exact hs.typed j hrj hvj
  · funext j
    by_cases hj : j = k
    · rw [hj]
      exact hr
    · rw [refs, refs, hi j hj]
  · intro j hj
    by_cases hjk : j = k
    · subst hjk
      exact ⟨hr ▸ hj.ref, hv ▸ hj.valid, ht ▸ hj.type⟩
    · have := hi j hjk
      exact ⟨this ▸ hj.ref, this ▸ hj.valid, this ▸ hj.type⟩
  · intro j
    by_cases hj : j = k
    · rw [hj, hv]
    · rw [hi j hj]

theorem node_of_written (hi : j ≠ k → t.ino j = s.ino j) (hd : t.dinode = update s.dinode k d)
    (hj : j ≠ k) : t.node j = s.node j :=
  node_congr (hi hj) (by rw [hd, update_of_ne hj])

theorem Content.byte (h : Content s k f n) (hi : i < n) : fileByte s k i = f i := (h i hi).2

theorem Wrote.touch {src : Src} {off n tot : Nat} {l : List Byte} (hs : Sound sb s) (hl : Loaded s k)
    (h : Wrote sb k src off n s tot l t) : Touch sb k s t := by
  obtain ⟨g, hg⟩ := h.copy
  obtain ⟨h1, h2, h3, h4⟩ := sound_of_written hs hl h.good (by rw [hg]) (by rw [hg]) (by rw [hg]) h.ino h.dinode
  refine ⟨h1, fun j hj => ?_, h2, h3, h.outstanding, h4⟩
  have hn := node_of_written (fun hj => h.ino j hj) h.dinode hj
  refine ⟨by rw [hn], by rw [hn], by rw [hn], fun hf i hi => ?_⟩
  exact (h.others j _ _ hj (hs.good.content hf)).byte hi

theorem Truncated.touch (hs : Sound sb s) (hl : Loaded s k) (h : Truncated sb k s t) : Touch sb k s t := by
  obtain ⟨g, hg⟩ := h.copy
  obtain ⟨h1, h2, h3, h4⟩ := sound_of_written hs hl h.good (by rw [hg]) (by rw [hg]) (by rw [hg]) h.ino h.dinode
  refine ⟨h1, fun j hj => ?_, h2, h3, h.outstanding, h4⟩
  exact like_of_use (node_of_written (fun hj => h.ino j hj) h.dinode hj) (fun p => h.others j p hj) h.buf

theorem setMeta_spec {g : Dinode → Dinode} (hs : Sound sb s) (hl : Loaded s k) (ho : 0 < s.outstanding)
    (ht : ∀ d, (g d).type = d.type) (hz : ∀ d, (g d).size = d.size) (ha : ∀ d, (g d).addrs = d.addrs) :
    Runs (setMeta k g) s
      (fun _ t => Touch sb k s t ∧ t.node k = g (s.node k) ∧ ∀ i, fileByte t k i = fileByte s k i)
      (fun _ => False) := by
  rw [setMeta, runs_bind, runs_alter, runs_iupdate (by exact ho)]
  generalize hu : ({ s.setCopy k (g (s.ino k).copy) with
    dinode := update (s.setCopy k (g (s.ino k).copy)).dinode k
      ((s.setCopy k (g (s.ino k).copy)).ino k).copy } : State) = u
  have hino : u.ino k = { s.ino k with copy := g (s.ino k).copy } := by
    rw [← hu]
    simp [State.setCopy]
  have hne : ∀ j, j ≠ k → u.ino j = s.ino j := by
    intro j hj
    rw [← hu]
    simp [State.setCopy, hj]
  have hd : u.dinode = update s.dinode k (u.ino k).copy := by
    rw [hino, ← hu]
    simp [State.setCopy]
  have hnodek : u.node k = g (s.node k) := by
    rw [hl.node, State.node, hino]
    exact if_pos ⟨hl.ref, hl.valid⟩
  have hnode : ∀ j, j ≠ k → u.node j = s.node j := fun j hj => node_of_written (fun hj => hne j hj) hd hj
  have hbuf : u.buf = s.buf := by
    rw [← hu]
    rfl
  have huse : use u = use s := by
    refine use_of_addrs (fun j => ?_) (fun j => ?_) hbuf
    · by_cases hj : j = k
      · rw [hj, hnodek, ht]
      · rw [hnode j hj]
    · by_cases hj : j = k
      · rw [hj, hnodek, ha]
      · rw [hnode j hj]
  have hgood : Good sb u := by
    refine ⟨?_, fun j hj => ?_, fun j hj i hi => ?_⟩
    · rw [huse, ← hu]
      exact hs.good.tally
    · by_cases hjk : j = k
      · subst hjk
        rw [hnodek, hz]
        rw [hnodek, ht] at hj
        exact hs.good.size j hj
      · rw [hnode j hjk] at hj ⊢
        exact hs.good.size j hj
    · rw [blockOf, huse]
      by_cases hjk : j = k
      · subst hjk
        rw [hnodek, ht] at hj
        rw [hnodek, hz] at hi
        exact hs.good.full j hj i hi
      · rw [hnode j hjk] at hj hi
        exact hs.good.full j hj i hi
  obtain ⟨h1, h2, h3, h4⟩ := sound_of_written hs hl hgood (by rw [hino]) (by rw [hino]) (by rw [hino, ht]) hne hd
  have hfile : ∀ j i, fileByte u j i = fileByte s j i := by
    intro j i
    unfold fileByte blockOf
    rw [huse, hbuf]
  refine ⟨⟨h1, fun j hj => ?_, h2, h3, ?_, h4⟩, hnodek, hfile k⟩
  · exact like_of_use (hnode j hj) (fun p => by rw [huse]) hbuf
  · rw [← hu]
    rfl

end Effects

section Puts

/-- The effect of `iput`: a reference is dropped, and the last one to an inode
without links may take the inode along. -/
structure Put (sb : Super) (k : Nat) (s t : State) : Prop where
  sound : Sound sb t
  loaded : ∀ j, Loaded s j → (j = k → 2 ≤ refs s k) → Loaded t j
  outstanding : t.outstanding = s.outstanding
  like : ∀ j, j ≠ k → Like s t j
  ends : Like s t k ∧ ¬ (Loaded s k ∧ refs s k = 1 ∧ (s.node k).nlink = 0) ∨
    Loaded s k ∧ refs s k = 1 ∧ (s.node k).nlink = 0 ∧ (t.node k).type = .free
  refs : refs t = update (refs s) k (refs s k - 1)

theorem ifree_spec (hs : Sound sb s) (hl : Loaded s k) (ho : 0 < s.outstanding) :
    Runs (ifree k) s
      (fun _ t => Good sb t ∧ t.outstanding = s.outstanding ∧ (t.dinode k).type = .free ∧
        (∀ j, j ≠ k → t.ino j = s.ino j) ∧ (∀ j, j ≠ k → t.dinode j = s.dinode j) ∧
        (t.ino k).ref = (s.ino k).ref ∧ (t.ino k).valid = false ∧ (∀ j, j ≠ k → Like s t j))
      (fun _ => False) := by
  unfold ifree
  rw [runs_bind]
  refine (itrunc_spec hs.good hl ho).safe ?_
  rintro _ t ht
  have htouch := ht.touch hs hl
  have hlt := htouch.loaded k hl
  rw [runs_bind, runs_alter, runs_bind, runs_iupdate (by exact ht.outstanding ▸ ho), runs_alter]
  obtain ⟨g, hg⟩ := ht.copy
  generalize hu : ({ ({ t.setCopy k { (t.ino k).copy with type := .free } with
        dinode := update (t.setCopy k { (t.ino k).copy with type := .free }).dinode k
          ((t.setCopy k { (t.ino k).copy with type := .free }).ino k).copy } : State) with
      ino := update (t.setCopy k { (t.ino k).copy with type := .free }).ino k
        { (t.setCopy k { (t.ino k).copy with type := .free }).ino k with valid := false } } : State) = u
  have hino : u.ino k = { t.ino k with copy := { (t.ino k).copy with type := .free }, valid := false } := by
    rw [← hu]
    simp [State.setCopy]
  have hne : ∀ j, j ≠ k → u.ino j = t.ino j := by
    intro j hj
    rw [← hu]
    simp [State.setCopy, hj]
  have hdk : u.dinode k = { (t.ino k).copy with type := .free } := by
    rw [← hu]
    simp [State.setCopy]
  have hdne : ∀ j, j ≠ k → u.dinode j = t.dinode j := by
    intro j hj
    rw [← hu]
    simp [State.setCopy, hj]
  have hnodek : u.node k = u.dinode k := by
    rw [State.node, hino]
    exact if_neg (fun hc => Bool.false_ne_true hc.2)
  have hnode : ∀ j, j ≠ k → u.node j = t.node j := fun j hj => node_congr (hne j hj) (hdne j hj)
  have hbuf : u.buf = t.buf := by
    rw [← hu]
    rfl
  have huse : use u = use t := by
    funext x
    obtain ⟨j, p⟩ := x
    by_cases hj : j = k
    · subst hj
      rw [ht.empty p, use, hnodek, hdk]
      exact addrAt_free rfl
    · rw [use, use, hnode j hj, hbuf]
  have hfree : (u.node k).type = .free := by rw [hnodek, hdk]
  refine ⟨⟨?_, fun j hj => ?_, fun j hj i hi => ?_⟩, ?_, by rw [hdk], fun j hj => ?_, fun j hj => ?_, ?_, ?_, fun j hj => ?_⟩
  · rw [huse, ← hu]
    exact ht.good.tally
  · have hjk : j ≠ k := by
      rintro rfl
      exact hj hfree
    rw [hnode j hjk] at hj ⊢
    exact ht.good.size j hj
  · have hjk : j ≠ k := by
      rintro rfl
      exact hj hfree
    rw [hnode j hjk] at hj hi
    rw [blockOf, huse]
    exact ht.good.full j hj i hi
  · rw [← hu]
    exact ht.outstanding
  · exact (hne j hj).trans (ht.ino j hj)
  · rw [hdne j hj, ht.dinode, update_of_ne hj]
  · rw [hino, hg]
  · rw [hino]
  · exact (htouch.like j hj).trans (like_of_use (hnode j hj) (fun p => by rw [huse]) hbuf)

def State.drop (s : State) (k : Nat) : State :=
  { s with
    ino := update s.ino k { s.ino k with ref := (s.ino k).ref - 1 }
    live := if (s.ino k).ref = 1 then s.live - 1 else s.live }

theorem drop_ino : (s.drop k).ino k = { s.ino k with ref := (s.ino k).ref - 1 } := update_self _ _ _

theorem drop_ino_ne (hj : j ≠ k) : (s.drop k).ino j = s.ino j := update_of_ne hj _ _

theorem drop_refs : refs (s.drop k) = update (refs s) k (refs s k - 1) := by
  funext j
  refine update_cases j ?_ (fun hj => ?_)
  · rw [refs, drop_ino, refs]
  · rw [refs, drop_ino_ne hj, refs]

theorem drop_node (h : (s.ino k).valid = true → 0 < (s.ino k).ref → (s.ino k).copy = s.dinode k) (j : Nat) :
    (s.drop k).node j = s.node j := by
  by_cases hj : j = k
  · subst hj
    by_cases hv : (s.ino j).valid = true ∧ 0 < (s.ino j).ref
    · have hc := h hv.1 hv.2
      have hold : s.node j = s.dinode j := (if_pos ⟨hv.2, hv.1⟩).trans hc
      rw [hold, State.node, drop_ino, hc]
      exact ite_self _
    · have h1 : ¬ (0 < (s.ino j).ref ∧ (s.ino j).valid = true) := fun hc => hv ⟨hc.2, hc.1⟩
      have h2 : ¬ (0 < (s.ino j).ref - 1 ∧ (s.ino j).valid = true) := fun hc => hv ⟨hc.2, by omega⟩
      unfold State.node
      rw [drop_ino, if_neg h1]
      exact if_neg h2
  · exact node_congr (drop_ino_ne hj) rfl

theorem drop_put (hs : Sound sb s) (hn : ¬ (Loaded s k ∧ refs s k = 1 ∧ (s.node k).nlink = 0)) :
    Put sb k s (s.drop k) := by
  have hnode := drop_node (s := s) (k := k) (fun hv hr => hs.synced k hr hv)
  have hq : Quiet s (s.drop k) := ⟨rfl, rfl, rfl, rfl, rfl, hnode⟩
  refine ⟨⟨hq.good hs.good, fun j hr hv => ?_, fun j hr hv => ?_⟩, fun j hj h2 => ?_, rfl,
    fun j _ => hq.like j, .inl ⟨hq.like k, hn⟩, drop_refs⟩
  · by_cases hj : j = k
    · subst hj
      rw [drop_ino] at hr hv ⊢
      exact hs.synced j (by dsimp only at hr; omega) hv
    · rw [drop_ino_ne hj] at hr hv ⊢
      exact hs.synced j hr hv
  · by_cases hj : j = k
    · subst hj
      rw [drop_ino] at hr hv ⊢
      exact hs.typed j (by dsimp only at hr; omega) hv
    · rw [drop_ino_ne hj] at hr hv ⊢
      exact hs.typed j hr hv
  · by_cases hjk : j = k
    · subst hjk
      have h2 := h2 rfl
      have hino := drop_ino (s := s) (k := j)
      refine ⟨?_, hino ▸ hj.valid, hino ▸ hj.type⟩
      rw [hino]
      exact Nat.sub_pos_of_lt h2
    · have hino := drop_ino_ne (s := s) hjk
      exact ⟨hino ▸ hj.ref, hino ▸ hj.valid, hino ▸ hj.type⟩

theorem iput_spec (hs : Sound sb s) (ho : 0 < s.outstanding) :
    Runs (iput k) s (fun _ t => Put sb k s t) (fun _ => False) := by
  unfold iput
  rw [runs_bind, runs_look, runs_bind, runs_when]
  constructor
  · rintro ⟨hr, hv, hn⟩
    have hl : Loaded s k := ⟨by omega, hv, hs.typed k (by omega) hv⟩
    refine (ifree_spec hs hl ho).safe ?_
    rintro _ t ⟨hg, hout, hfree, hino, hdn, href, hval, hlike⟩
    rw [runs_alter]
    change Put sb k s (t.drop k)
    have hnode := drop_node (s := t) (k := k) (fun hv' _ => absurd (hval.symm.trans hv') Bool.false_ne_true)
    have hq : Quiet t (t.drop k) := ⟨rfl, rfl, rfl, rfl, rfl, hnode⟩
    have hnk : t.node k = t.dinode k := by
      rw [State.node, hval]
      exact if_neg (fun hc => Bool.false_ne_true hc.2)
    refine ⟨⟨hq.good hg, fun j hrj hvj => ?_, fun j hrj hvj => ?_⟩, fun j hj h2 => ?_, hout,
      fun j hj => (hlike j hj).trans (hq.like j), .inr ⟨hl, hr, ?_, ?_⟩, ?_⟩
    · by_cases hj : j = k
      · subst hj
        rw [drop_ino] at hvj
        exact absurd (hval.symm.trans hvj) Bool.false_ne_true
      · rw [drop_ino_ne hj, hino j hj] at hrj hvj ⊢
        exact (hs.synced j hrj hvj).trans (hdn j hj).symm
    · by_cases hj : j = k
      · subst hj
        rw [drop_ino] at hvj
        exact absurd (hval.symm.trans hvj) Bool.false_ne_true
      · rw [drop_ino_ne hj, hino j hj] at hrj hvj ⊢
        exact hs.typed j hrj hvj
    · by_cases hjk : j = k
      · have h2 : 2 ≤ (s.ino k).ref := h2 hjk
        omega
      · have hij : (t.drop k).ino j = s.ino j := (drop_ino_ne hjk).trans (hino j hjk)
        exact ⟨hij ▸ hj.ref, hij ▸ hj.valid, hij ▸ hj.type⟩
    · rw [hl.node]
      exact hn
    · rw [hnode, hnk]
      exact hfree
    · funext j
      refine update_cases j ?_ (fun hj => ?_)
      · rw [refs, drop_ino, refs, href]
      · rw [refs, drop_ino_ne hj, hino j hj, refs]
  · intro hc
    rw [runs_alter]
    refine drop_put hs ?_
    rintro ⟨hl, hr, hn⟩
    rw [hl.node] at hn
    exact hc ⟨hr, hl.valid, hn⟩

end Puts

section Creation

/-- The effect of `ialloc`: a free inode has become a blank one, with a reference. -/
structure Alloc (sb : Super) (type : Kind) (k : Nat) (s t : State) : Prop where
  pos : 1 ≤ k
  lt : k < sb.ninodes
  was : (s.node k).type = .free
  sound : Sound sb t
  node : t.node k = blank type
  refs : refs t = update (refs s) k (refs s k + 1)
  loaded : ∀ j, Loaded s j → Loaded t j
  outstanding : t.outstanding = s.outstanding
  like : ∀ j, j ≠ k → Like s t j

theorem blank_alloc {type : Kind} (hs : Sound sb s) (hpos : 1 ≤ k) (hlt : k < sb.ninodes)
    (hf : (s.dinode k).type = .free) :
    Alloc sb type k s (({ s with dinode := update s.dinode k (blank type) } : State).got k) := by
  generalize hu : ({ s with dinode := update s.dinode k (blank type) } : State) = u
  have hino : u.ino = s.ino := by rw [← hu]
  have hdk : u.dinode k = blank type := by
    rw [← hu]
    exact update_self _ _ _
  have hdne : ∀ j, j ≠ k → u.dinode j = s.dinode j := by
    intro j hj
    rw [← hu]
    exact update_of_ne hj _ _
  -- A free inode can have a table entry, but not a valid one.
  have hnv : ¬ (0 < (s.ino k).ref ∧ (s.ino k).valid = true) := by
    rintro ⟨hr, hv⟩
    refine hs.typed k hr hv ?_
    rw [hs.synced k hr hv, hf]
  have hwas : s.node k = s.dinode k := if_neg hnv
  have hnk : u.node k = blank type := by
    rw [State.node, hino, if_neg hnv, hdk]
  have hnode : ∀ j, j ≠ k → u.node j = s.node j := fun j hj => node_congr (by rw [hino]) (hdne j hj)
  have hbuf : u.buf = s.buf := by rw [← hu]
  have huse : use u = use s := by
    funext x
    obtain ⟨j, p⟩ := x
    by_cases hj : j = k
    · subst hj
      rw [use, use, hnk, hwas, addrAt_free hf]
      unfold addrAt blank
      split
      · rfl
      · split
        · rfl
        · rw [if_neg (fun hc => hc.2 rfl)]
    · rw [use, use, hnode j hj, hbuf]
  have hgood : Good sb u := by
    refine ⟨?_, fun j hj => ?_, fun j hj i hi => ?_⟩
    · rw [huse, ← hu]
      exact hs.good.tally
    · by_cases hjk : j = k
      · rw [hjk, hnk]
        exact Nat.zero_le _
      · rw [hnode j hjk] at hj ⊢
        exact hs.good.size j hj
    · by_cases hjk : j = k
      · rw [hjk, hnk] at hi
        exact absurd hi (Nat.not_lt_zero _)
      · rw [hnode j hjk] at hj hi
        rw [blockOf, huse]
        exact hs.good.full j hj i hi
  have hsound : Sound sb u := by
    refine ⟨hgood, fun j hr hv => ?_, fun j hr hv => ?_⟩
    · have hjk : j ≠ k := by
        rintro rfl
        rw [hino] at hr hv
        exact hnv ⟨hr, hv⟩
      rw [hino] at hr hv ⊢
      rw [hdne j hjk]
      exact hs.synced j hr hv
    · rw [hino] at hr hv ⊢
      exact hs.typed j hr hv
  refine ⟨hpos, hlt, hwas ▸ hf, got_sound hsound, got_node.trans hnk, ?_, fun j hj => ?_, ?_, fun j hj => ?_⟩
  · rw [got_refs]
    unfold refs
    rw [hino]
  · refine got_loaded ?_
    exact ⟨hino ▸ hj.ref, hino ▸ hj.valid, hino ▸ hj.type⟩
  · rw [got_quiet.outstanding, ← hu]
  · exact (like_of_use (hnode j hj) (fun p => by rw [huse]) hbuf).trans (got_quiet.like j)

theorem ialloc_spec {type : Kind} (hs : Sound sb s) (ho : 0 < s.outstanding) :
    Runs (ialloc sb type) s (fun k t => k = 0 ∧ t = s ∨ Alloc sb type k s t) (fun e => e = .noInodes) := by
  unfold ialloc
  rw [runs_bind, runs_look]
  cases hf : (List.range' 1 (sb.ninodes - 1)).find? (fun i => decide ((s.dinode i).type = .free)) with
  | none => exact .inl ⟨rfl, rfl⟩
  | some k =>
    have hfree : (s.dinode k).type = .free := by simpa using List.find?_some hf
    have hmem := List.mem_range'_1.mp (List.mem_of_find?_eq_some hf)
    rw [runs_bind, runs_alter, runs_bind, runs_logWrite (by exact ho), runs_bind]
    refine iget_spec ?_ rfl
    exact .inr (blank_alloc hs hmem.1 (by omega) hfree)

end Creation

section Transactions

variable {Q : Unit → State → Prop} {E : Panic → Prop} {o : Nat}

theorem runs_beginOp : Runs beginOp s Q E ↔ Q () { s with outstanding := s.outstanding + 1 } := runs_alter

theorem runs_endOp : Runs endOp s Q E ↔ Q () { s with outstanding := s.outstanding - 1 } := runs_alter

theorem Sound.outstanding (h : Sound sb s) (o : Nat) : Sound sb { s with outstanding := o } :=
  ⟨⟨h.good.tally, h.good.size, h.good.full⟩, h.synced, h.typed⟩

end Transactions

section Images

/-- A disk of empty inodes, some of which the inode table refers to. -/
def image (sb : Super) (kind : Nat → Kind) (ref : Nat → Nat) : State where
  bits := fun b => decide (b < sb.nmeta)
  dinode := fun k => blank (kind k)
  buf := fun _ _ => 0
  saved := fun _ _ => 0
  ino := fun k => ⟨ref k, false, blank .free⟩
  live := 0
  outstanding := 0

theorem image_node {kind : Nat → Kind} {ref : Nat → Nat} : (image sb kind ref).node k = blank (kind k) :=
  if_neg (fun hc => Bool.false_ne_true hc.2)

theorem image_use {kind : Nat → Kind} {ref : Nat → Nat} (i : Nat × Nat) : use (image sb kind ref) i = 0 := by
  rw [use, image_node]
  rcases lt_or_ge NDIRECT i.2 with hp | hp
  · exact addrAt_none rfl hp
  · by_cases hf : (blank (kind i.1)).type = .free
    · exact addrAt_free hf
    · exact addrAt_slot hf hp

theorem image_sound {kind : Nat → Kind} {ref : Nat → Nat} : Sound sb (image sb kind ref) := by
  refine ⟨⟨⟨?_, ?_, ?_⟩, ?_, ?_⟩, ?_, ?_⟩
  · intro i j _ h0
    exact absurd (image_use i) h0
  · intro i h0
    exact absurd (image_use i) h0
  · intro b _
    have hbit : (image sb kind ref).bits b = decide (b < sb.nmeta) := rfl
    rw [hbit, decide_eq_true_iff]
    constructor
    · exact .inl
    · rintro (hlt | ⟨h0, i, hi⟩)
      · exact hlt
      · exact absurd (hi.symm.trans (image_use i)) h0
  · intro k _
    rw [image_node]
    exact Nat.zero_le _
  · intro k _ i hi
    rw [image_node] at hi
    exact absurd hi (Nat.not_lt_zero _)
  · intro k _ hv
    exact absurd hv Bool.false_ne_true
  · intro k _ hv
    exact absurd hv Bool.false_ne_true

def tiny : Super := ⟨10, 6, 8, by decide, by decide, by decide⟩

/-- A disk with one inode, which has one link, one reference and one block. -/
def disk (type : Kind) (size : Nat) (data : Block) (valid : Bool) (o : Nat) : State where
  bits := fun b => decide (b < 5)
  dinode := fun j => if j = 1 then ⟨type, 0, 0, 1, size, update (fun _ => 0) 0 4⟩ else blank .free
  buf := fun b => if b = 4 then data else fun _ => 0
  saved := fun b => if b = 4 then data else fun _ => 0
  ino := fun j => if j = 1 then ⟨1, valid, ⟨type, 0, 0, 1, size, update (fun _ => 0) 0 4⟩⟩
    else ⟨0, false, blank .free⟩
  live := 1
  outstanding := o

section Disk

variable {type : Kind} {size o : Nat} {data : Block} {valid : Bool}

theorem disk_node : (disk type size data valid o).node j =
    if j = 1 then ⟨type, 0, 0, 1, size, update (fun _ => 0) 0 4⟩ else blank .free := by
  unfold State.node disk
  by_cases hj : j = 1 <;> simp [hj]

theorem disk_use (ht : type ≠ .free) (i : Nat × Nat) :
    use (disk type size data valid o) i = if i = (1, 0) then 4 else 0 := by
  obtain ⟨j, p⟩ := i
  rw [use, disk_node]
  by_cases hj : j = 1
  · subst hj
    rw [if_pos rfl]
    rcases lt_or_ge NDIRECT p with hp | hp
    · rw [addrAt_none rfl hp, if_neg (by simp; omega)]
    · rw [addrAt_slot (by exact ht) hp]
      by_cases h0 : p = 0 <;> simp [h0]
  · rw [if_neg hj, addrAt_free rfl, if_neg (by simp [hj])]

theorem disk_sound (ht : type ≠ .free) (hz : size ≤ BSIZE) : Sound tiny (disk type size data valid o) := by
  have hB : BSIZE = 1024 := rfl
  refine ⟨⟨⟨fun i j he h0 => ?_, fun i h0 => ?_, fun b hb => ?_⟩, fun j hj => ?_, fun j hj i hi => ?_⟩,
    fun j hr hv => ?_, fun j hr hv => ?_⟩
  · rw [disk_use ht, disk_use ht] at he
    rw [disk_use ht] at h0
    by_cases hi : i = (1, 0)
    · by_cases hj : j = (1, 0)
      · rw [hi, hj]
      · rw [if_pos hi, if_neg hj] at he
        exact absurd he (by decide)
    · exact absurd (if_neg hi) h0
  · rw [disk_use ht] at h0 ⊢
    split at h0
    · rename_i hi
      rw [if_pos hi]
      decide
    · exact absurd rfl h0
  · have hbit : (disk type size data valid o).bits b = decide (b < 5) := rfl
    rw [hbit, decide_eq_true_iff]
    constructor
    · intro hlt
      rcases lt_or_ge b 4 with h4 | h4
      · exact .inl h4
      · exact .inr ⟨by omega, (1, 0), by rw [disk_use ht, if_pos rfl]; omega⟩
    · rintro (hlt | ⟨h0, i, hi⟩)
      · have : tiny.nmeta = 4 := rfl
        omega
      · rw [disk_use ht] at hi
        split at hi <;> omega
  · have hM : MAXFILE * BSIZE = 274432 := rfl
    rw [disk_node]
    split
    · dsimp only
      omega
    · exact Nat.zero_le _
  · rw [disk_node] at hi
    by_cases h1 : j = 1
    · rw [if_pos h1] at hi
      have hi0 : i = 0 := by
        dsimp only at hi
        rw [hB] at hi hz
        omega
      rw [blockOf, disk_use ht, h1, hi0]
      decide
    · rw [if_neg h1] at hi
      exact absurd hi (Nat.not_lt_zero _)
  · by_cases h1 : j = 1
    · rw [h1]
      rfl
    · simp [disk, h1] at hr
  · by_cases h1 : j = 1
    · rw [h1]
      exact ht
    · simp [disk, h1] at hr

end Disk

end Images

end Xv6Rcu.Fs

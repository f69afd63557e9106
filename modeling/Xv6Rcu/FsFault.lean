import Xv6Rcu.FsArray

namespace Xv6Rcu.Fs

open Exec Transition

variable {sb : Super} {s t v : State} {k j b : Nat} {src : Src}

theorem ilock_cases {Q : Unit → State → Prop} {E : Panic → Prop} (hs : Sound sb s)
    (hQ : Quiet s (s.load k) → Sound sb (s.load k) → Loaded (s.load k) k → Q () (s.load k))
    (hlock : E .ilock) (htype : E .noType) : Runs (ilock k) s Q E := by
  rcases Nat.eq_zero_or_pos (s.ino k).ref with hr | hr
  · rw [ilock, runs_bind, runs_look, if_pos (by omega)]
    exact hlock
  · refine ilock_spec hr (fun hv => ?_) (fun _ _ => htype)
    have ht := hs.type_of_valid hr hv
    exact hQ (load_quiet hs hr) (load_sound hs hr ht) (load_loaded hs hr ht)

section Holes

inductive InodeOp where
  | create (type : Kind)
  | write (k : Nat) (src : Src) (off n : UInt32)
  | trunc (k : Nat)

def inodeOp (sb : Super) : InodeOp → M Unit
  | .create type => do
    let k ← ialloc sb type
    when (k ≠ 0) do
      ilock k
      setMeta k (fun d => { d with nlink := 1 })
      iunlock k
  | .write k src off n => do
    ilock k
    let _ ← writei sb k src off.toNat n.toNat
    iunlock k
  | .trunc k => do
    ilock k
    itrunc k
    iunlock k

def inodeStep (sb : Super) : Step State InodeOp := fun s a =>
  match (do
      beginOp
      inodeOp sb a
      endOp : M Unit) s with
  | .ok (_, t) => some t
  | .error _ => none

theorem inodeOp_sound (hs : Sound sb s) (ho : 0 < s.outstanding) (a : InodeOp) :
    Runs (inodeOp sb a) s (fun _ t => Sound sb t) (fun _ => True) := by
  cases a with
  | create type =>
    rw [inodeOp, runs_bind]
    refine (ialloc_spec hs ho).mono ?_ (fun _ _ => trivial)
    rintro k t (⟨rfl, rfl⟩ | ha)
    · rw [runs_when]
      exact ⟨fun h0 => absurd rfl h0, fun _ => hs⟩
    · rw [runs_when]
      refine ⟨fun _ => ?_, fun _ => ha.sound⟩
      rw [runs_bind]
      refine ilock_cases ha.sound (fun hq hv hl => ?_) trivial trivial
      rw [runs_bind]
      have ho' : 0 < (t.load k).outstanding := by
        rw [hq.outstanding, ha.outstanding]
        exact ho
      refine (setMeta_spec (g := fun d => { d with nlink := 1 }) hv hl ho' (fun _ => rfl) (fun _ => rfl) (fun _ => rfl)).safe ?_
      rintro _ u ⟨htouch, -, -⟩
      exact iunlock_spec (htouch.loaded k hl).ref htouch.sound
  | write k src off n =>
    rw [inodeOp, runs_bind]
    refine ilock_cases hs (fun hq hv hl => ?_) trivial trivial
    rw [runs_bind]
    refine (writei_spec hv.good hl (hq.outstanding ▸ ho) n.toNat_lt).safe ?_
    rintro r u (⟨-, rfl, -⟩ | ⟨tot, l, -, hw⟩)
    · exact iunlock_spec hl.ref hv
    · have htouch := hw.touch hv hl
      exact iunlock_spec (htouch.loaded k hl).ref htouch.sound
  | trunc k =>
    rw [inodeOp, runs_bind]
    refine ilock_cases hs (fun hq hv hl => ?_) trivial trivial
    rw [runs_bind]
    refine (itrunc_spec hv.good hl (hq.outstanding ▸ ho)).safe ?_
    intro _ u hu
    have htouch := hu.touch hv hl
    exact iunlock_spec (htouch.loaded k hl).ref htouch.sound

theorem inodeStep_sound (hs : Sound sb s) {a : InodeOp} (h : inodeStep sb s a = some t) : Sound sb t := by
  have hrun : Runs (do
      beginOp
      inodeOp sb a
      endOp : M Unit) s (fun _ t => Sound sb t) (fun _ => True) := by
    rw [runs_bind, runs_beginOp, runs_bind]
    refine (inodeOp_sound (hs.outstanding _) (Nat.succ_pos _) a).mono ?_ (fun _ he => he)
    intro _ u hu
    rw [runs_endOp]
    exact hu.outstanding _
  unfold inodeStep at h
  split at h
  · rename_i hx
    exact Option.some.inj h ▸ hrun.ok hx
  · cases h

theorem fileread_no_trans {s : Sys} (hs : Sound sb s.fs) (dev : Int) (f : Fin NFILE) (dst : Dst) (n : Int) :
    Runs (fileread sb dev f dst n) s (fun _ _ => True) (fun e => e ≠ .outsideTrans) := by
  have hn : uint n < 2 ^ 32 := by
    unfold uint
    omega
  unfold fileread
  rw [runs_bind, runs_look, runs_ite]
  refine ⟨fun _ => trivial, fun _ => ?_⟩
  cases (s.file f).type with
  | none => exact nofun
  | device => exact trivial
  | inode =>
    dsimp only
    rw [runs_bind, runs_onFs]
    refine ilock_cases hs (fun _ hv hl => ?_) nofun nofun
    rw [runs_bind, runs_onFs]
    refine (readi_spec hv.good hl hn).safe ?_
    rintro r _ ⟨rfl, -⟩
    rw [runs_bind, runs_when]
    refine ⟨fun _ => ?_, fun _ => ?_⟩
    · rw [runs_alter, runs_bind, runs_onFs]
      exact iunlock_spec hl.ref trivial
    · rw [runs_bind, runs_onFs]
      exact iunlock_spec hl.ref trivial

/-- Files have no holes. So `bmap` finds every block that `readi` needs, `readi`
changes nothing, and `fileread` does not get to `log_write`. -/
theorem files_have_no_holes (r : Run (inodeStep sb)) (h0 : Sound sb (r.state 0)) :
    ∀ i ≤ r.length,
      (∀ k, ((r.state i).node k).type ≠ .free → ∀ b, b * BSIZE < ((r.state i).node k).size →
        blockOf (r.state i) k b ≠ 0) ∧
      (∀ k, Loaded (r.state i) k →
        (∀ b, b * BSIZE < ((r.state i).ino k).copy.size →
          bmap sb k b (r.state i) = .ok (blockOf (r.state i) k b, r.state i)) ∧
        ∀ (dst : Dst) (off n : UInt32), ∃ x, readi sb k dst off.toNat n.toNat (r.state i) = .ok (x, r.state i)) ∧
      ∀ s : Sys, s.fs = r.state i → ∀ dev f dst n, fileread sb dev f dst n s ≠ .error .outsideTrans := by
  intro i hi
  have hs : Sound sb (r.state i) :=
    r.invariant r.meets_true h0 (fun _ _ _ hs _ hstep => inodeStep_sound hs hstep) i hi
  refine ⟨hs.good.full, fun k hl => ⟨fun b hb => ?_, fun dst off n => ?_⟩, fun s hfs dev f dst n he => ?_⟩
  · rw [← hl.node] at hb
    exact bmap_lookup hl (hs.good.full k (hl.node ▸ hl.type) b hb)
  · obtain ⟨x, t, hx, rfl, -⟩ := Runs.exists_ok (x := readi sb k dst off.toNat n.toNat)
      (readi_spec hs.good hl n.toNat_lt)
    exact ⟨x, hx⟩
  · exact (fileread_no_trans (hfs ▸ hs) dev f dst n).error he rfl

instance : Inhabited InodeOp := ⟨.create .file⟩

def threeBytes : Run (inodeStep tiny) :=
  Run.ofExec (inodeStep tiny) (image tiny (fun _ => .free) (fun _ => 0))
    [.create .file, .write 1 (.kernel [1, 2, 3]) 0 3] (by decide +kernel)

theorem files_have_no_holes_threeBytes :
    ((threeBytes.state 2).node 1).size = 3 ∧ blockOf (threeBytes.state 2) 1 0 ≠ 0 :=
  ⟨by decide +kernel,
    (files_have_no_holes threeBytes image_sound 2 le_rfl).1 1 (by decide +kernel) 0 (by decide +kernel)⟩

end Holes

section Faults

/-- The buffers of the blocks in `B` are recycled, so that they are read again
from the disk. -/
def State.recycle (s : State) (B : Nat → Bool) : State :=
  { s with buf := fun b => if B b = true then s.saved b else s.buf b }

def State.reboot (s : State) : State :=
  { s with
    buf := s.saved
    ino := fun _ => ⟨0, false, blank .free⟩
    live := 0
    outstanding := 0 }

/-- States in which inode `k` is locked to read from it, without another write. -/
inductive Later (k : Nat) (s : State) : State → Prop
  | recycle (B : Nat → Bool) : Later k s (s.recycle B)
  | reboot : Later k s ((s.reboot.got k).load k)

/-- Each part of the source that goes to one block is mapped, or begins in a
page that is not. -/
def Whole (src : Src) (off n : Nat) : Prop :=
  ∀ tot < n, tot = 0 ∨ (off + tot) % BSIZE = 0 →
    (eitherCopyin src tot (min (n - tot) (BSIZE - (off + tot) % BSIZE))).2 = true ∨
      (eitherCopyin src tot (min (n - tot) (BSIZE - (off + tot) % BSIZE))).1 = []

theorem recycle_eq (h : ∀ b, s.buf b = s.saved b) (B : Nat → Bool) : s.recycle B = s := by
  have hbuf : (fun b => if B b = true then s.saved b else s.buf b) = s.buf := by
    funext b
    rw [h, ite_self]
  unfold State.recycle
  rw [hbuf]

theorem reboot_node (hs : Sound sb s) : s.reboot.node j = s.node j := by
  rw [hs.node]
  exact if_neg (fun hc => Bool.false_ne_true hc.2)

theorem reboot_use (hs : Sound sb s) (h : ∀ b, s.buf b = s.saved b) : use s.reboot = use s :=
  use_of_addrs (fun j => by rw [reboot_node hs]) (fun j => by rw [reboot_node hs]) (funext h).symm

theorem reboot_sound (hs : Sound sb s) (h : ∀ b, s.buf b = s.saved b) : Sound sb s.reboot := by
  refine ⟨⟨?_, fun j hj => ?_, fun j hj i hi => ?_⟩, fun _ hr => absurd hr (lt_irrefl 0),
    fun _ hr => absurd hr (lt_irrefl 0)⟩
  · rw [reboot_use hs h]
    exact hs.good.tally
  · rw [reboot_node hs] at hj ⊢
    exact hs.good.size j hj
  · rw [reboot_node hs] at hj hi
    rw [blockOf, reboot_use hs h]
    exact hs.good.full j hj i hi

theorem Later.same (hs : Sound sb s) (hl : Loaded s k) (h : ∀ b, s.buf b = s.saved b) (hv : Later k s v) :
    Good sb v ∧ Loaded v k ∧ v.node k = s.node k ∧ fileByte v k = fileByte s k := by
  cases hv with
  | recycle B =>
    rw [recycle_eq h]
    exact ⟨hs.good, hl, rfl, rfl⟩
  | reboot =>
    have hboot := got_sound (k := k) (reboot_sound hs h)
    have href : 0 < ((s.reboot.got k).ino k).ref := by
      rw [got_ref]
      exact Nat.succ_pos _
    have htype : ((s.reboot.got k).dinode k).type ≠ .free := by
      rw [got_dinode]
      change (s.dinode k).type ≠ .free
      rw [← hs.node, hl.node]
      exact hl.type
    have hq : Quiet s.reboot ((s.reboot.got k).load k) := got_quiet.trans (load_quiet hboot href)
    refine ⟨(load_sound hboot href htype).good, load_loaded hboot href htype, ?_, ?_⟩
    · rw [hq.node, reboot_node hs]
    · rw [hq.fileByte]
      funext i
      unfold fileByte blockOf
      rw [reboot_use hs h]
      exact congrFun (h _).symm _

theorem Wrote.whole {off n tot : Nat} {l : List Byte} (h : Wrote sb k src off n s tot l t) (hw : Whole src off n) :
    tot = l.length := by
  rcases h.ended with ⟨h1, h2⟩ | ⟨-, h2⟩ | ⟨hlt, hfail, hlen⟩
  · omega
  · exact h2
  · have hat : tot = 0 ∨ (off + tot) % BSIZE = 0 := by
      have := h.edge
      omega
    rcases hw tot hlt hat with hok | hnil
    · exact absurd (hok.symm.trans hfail) nofun
    · rw [hnil] at hlen
      exact hlen.symm

/-- Inode 1 is a file of one block of zeros and is locked in a transaction. -/
def oneBlock : State := disk .file 1024 (fun _ => 0) true 1

def onePage : Mem := fun p => if p = 0 then some (fun _ => 7) else none

theorem oneBlock_sound : Sound tiny oneBlock := disk_sound nofun (by decide)

theorem oneBlock_loaded : Loaded oneBlock 1 := ⟨by decide, rfl, by decide⟩

/-- What can be read of a file, now and after its buffers have been recycled. -/
def views (sb : Super) (k n : Nat) (s : State) : List (Option (List Byte)) :=
  [s, s.recycle (fun _ => true)].map (fun v => (readi sb k .kernel 0 n v).toOption.map (fun y => y.1.2))

theorem onePage_whole : Whole (.user onePage 4092) 1020 8 := by
  intro tot htot hat
  have hcases : tot = 0 ∨ tot = 4 := by
    unfold BSIZE at hat
    omega
  rcases hcases with rfl | rfl
  · exact .inl (by decide +kernel)
  · exact .inr (by decide +kernel)

end Faults

end Xv6Rcu.Fs

import Xv6Rcu.FsLinks

namespace Xv6Rcu.Fs

open Exec Transition List

variable {sb : Super} {s t : Sys} {p : Fin NPROC} {cwd : Nat}

section Layers

/-- The tree of directories, of which no file open for writing is one. -/
def LinkP (sb : Super) : Assertion := fun wr base rs ls s =>
  Links sb base rs ls s ∧ ∀ k, wr k → k ∈ rs ∨ 0 < base k → (s.node k).type ≠ .dir

theorem LinkP.create {wr : Nat → Prop} {base : Nat → Nat} {v : State} {path : List Byte} {Q : Option Nat → State → Prop}
    (h : LinkP sb wr base [] [] v) (hcwd : 0 < base cwd) (hnone : ∀ t, LinkP sb wr base [] [] t → Q none t)
    (hsome : ∀ ip t, LinkP sb (fun j => wr j ∨ j = ip) base [ip] [ip] t → Q (some ip) t) :
    Runs (create sb cwd path .file 0 0) v Q Typed := by
  have hwr : ∀ t, Keeps base v t → ∀ k, wr k → 0 < base k → (t.node k).type ≠ .dir := by
    intro t hk k hw hpos
    rw [hk k hpos]
    exact h.2 k hw (.inr hpos)
  refine h.1.create hcwd nofun nofun (fun t hk ht => hnone t ⟨ht, fun k hw hb => ?_⟩)
    (fun ip t hk hfile ht => hsome ip t ⟨ht, fun k hw hb => ?_⟩)
  · exact hwr t hk k hw (hb.resolve_left not_mem_nil)
  · by_cases hki : k = ip
    · exact hki ▸ hfile rfl
    · refine hwr t hk k (hw.resolve_right hki) (hb.resolve_left (fun hm => hki ?_))
      exact mem_singleton.mp hm

theorem linkLayer (sb : Super) : Layer sb Typed (LinkP sb) where
  benign := typed_benign
  hold := fun h => h.1.hold
  typed := fun h hk hf => absurd hf (h.1.kept _ hk)
  alike := fun h ha ht => ⟨h.1.alike ha ht, fun k hw hk => by rw [(ha k).type]; exact h.2 k hw hk⟩
  move := by
    intro wr base base' rs rs' ls ls' s h hsum ht
    have hsub : ∀ j, j ∈ rs' ∨ 0 < base' j → j ∈ rs ∨ 0 < base j := by
      intro j hj
      have hj' : 0 < base' j + rs'.count j := by
        rcases hj with hj | hj
        · have := count_pos_iff.mpr hj
          omega
        · omega
      rw [← hsum j] at hj'
      by_cases hb : 0 < base j
      · exact .inr hb
      · exact .inl (count_pos_iff.mp (by omega))
    exact ⟨h.1.transfer (fun j => Like.refl s j) ht hsub, fun k hw hk => h.2 k hw (hsub k hk)⟩
  put := by
    intro wr base rs rs' ls ls' s t k h hp ht hold
    refine ⟨(h.1.put hp ht hold).1, fun j hw hj => ?_⟩
    have hs := h.2 j hw (hj.imp_left (fun hm => hp.symm.subset (mem_cons_of_mem _ hm)))
    by_cases hjk : j = k
    · subst hjk
      rcases ht.ends with ⟨hl, -⟩ | ⟨-, -, -, hf⟩
      · rw [hl.type]
        exact hs
      · rw [hf]
        nofun
    · rw [(ht.like j hjk).type]
      exact hs
  file := by
    intro wr base rs ls s t k h hk hw ht htype hnlink hold
    have hd : (s.node k).type ≠ .dir := by
      rcases hw with hw | hw
      · exact h.2 k hw (h.1.hold.locked k hk).1
      · rw [hw]
        nofun
    have hview : view t = view s := by
      funext j
      by_cases hj : j = k
      · subst hj
        unfold view
        rw [htype, hnlink, if_neg hd, if_neg hd]
      · exact (ht.like j hj).view
    have htypes : ∀ j, (t.node j).type = (s.node j).type := fun j => congrArg (fun a => (a j).type) hview
    refine ⟨⟨hold, by rw [hview]; exact h.1.tree, fun d hdir => ?_, fun j hj => ?_⟩, fun j hw hj => ?_⟩
    · have hne : d ≠ k := by
        rintro rfl
        rw [htypes] at hdir
        exact hd hdir
      exact (ht.like d hne).whole (h.1.whole d (htypes d ▸ hdir))
    · rw [htypes]
      exact h.1.kept j hj
    · rw [htypes]
      exact h.2 j hw hj
  narrow := fun h hw => ⟨h.1, fun k hk hb => h.2 k (hw k hk).1 hb⟩
  grant := by
    intro wr base rs ls s k h hk hd
    refine ⟨h.1, ?_⟩
    rintro j (hw | rfl) hj
    · exact h.2 j hw hj
    · exact hd
  namei := by
    intro wr base s cwd path Q h hpos hcwd hnone hsome
    have hwr : ∀ t, Alike s t → ∀ k, wr k → (t.node k).type ≠ .dir := by
      intro t ha k hw
      rw [(ha k).type]
      exact h.2 k hw (.inr (hpos k hw))
    exact h.1.namei hcwd (fun t ha ht => hnone t ⟨ht, fun k hw _ => hwr t ha k hw⟩)
      (fun ip t ha ht => hsome ip t ⟨ht, fun k hw _ => hwr t ha k hw⟩)
  create := fun h hcwd hnone hsome => LinkP.create h hcwd hnone hsome

end Layers

section Runs

/-- A file system whose directories form a tree with exact link counts. -/
structure Tidy (sb : Super) (s : Sys) : Prop where
  consistent : Consistent sb s
  tree : Tree sb.ninodes (view s.fs)
  whole : ∀ d, (s.fs.node d).type = .dir → Whole16 s.fs d
  kept : ∀ k, 0 < held s k → (s.fs.node k).type ≠ .free
  written : ∀ k, written s k → (s.fs.node k).type ≠ .dir

theorem Tidy.inv (h : Tidy sb s) : SysInv (LinkP sb) s := by
  refine ⟨⟨⟨h.consistent.inv.rest, h.tree, h.whole, fun k hk => ?_⟩, fun k hw _ => h.written k hw⟩, h.consistent.idle⟩
  exact h.kept k (hk.resolve_left not_mem_nil)

theorem SysInv.tidy (h : SysInv (LinkP sb) s) : Tidy sb s := by
  obtain ⟨⟨hl, hw⟩, hi⟩ := h
  exact ⟨SysInv.consistent ⟨hl.hold, hi⟩, hl.tree, hl.whole, fun k hk => hl.kept k (.inr hk),
    fun k hk => hw k hk (.inr (written_held hk))⟩

theorem Settled.tidy {v : State} (h : Settled sb (held s) s.fs v) (hs : Tidy sb s) : Tidy sb { s with fs := v } := by
  obtain ⟨hl, hk⟩ := h
  refine SysInv.tidy ⟨⟨hl, fun k hw _ => ?_⟩, hs.consistent.idle⟩
  have hpos : 0 < held s k := written_held (s := s) hw
  change (v.node k).type ≠ .dir
  rw [hk k hpos]
  exact hs.written k hw

/-- Some process works in, or has open, a directory that has been unlinked. -/
def Orphaned (s : Sys) : Prop := Orphan (held s) s.fs

def loose (s : State) (k : Nat) : Bool := (s.node k).type == .dir && (s.node k).nlink == 0

theorem orphaned_iff : Orphaned s ↔
    (∃ p, (s.cwd p).any (loose s.fs) = true) ∨ ∃ f, (s.file f).type ≠ .none ∧ loose s.fs (s.file f).ip = true := by
  have hloose : ∀ k, loose s.fs k = true ↔ (s.fs.node k).type = .dir ∧ (s.fs.node k).nlink = 0 := by
    intro k
    simp [loose]
  constructor
  · rintro ⟨k, hpos, hk⟩
    rw [← hloose] at hk
    unfold held at hpos
    rcases Nat.add_pos_iff_pos_or_pos.mp hpos with hp | hf
    · obtain ⟨p, -, hp⟩ := Finset.exists_ne_zero_of_sum_ne_zero (ne_of_gt hp)
      have hcwd : s.cwd p = some k := by
        by_contra hc
        exact hp (if_neg hc)
      exact .inl ⟨p, by rw [hcwd]; exact hk⟩
    · obtain ⟨f, -, hf⟩ := Finset.exists_ne_zero_of_sum_ne_zero (ne_of_gt hf)
      have hfile : (s.file f).type ≠ .none ∧ (s.file f).ip = k := by
        by_contra hc
        exact hf (if_neg hc)
      exact .inr ⟨f, hfile.1, hfile.2 ▸ hk⟩
  · rintro (⟨p, hp⟩ | ⟨f, ht, hf⟩)
    · cases hcwd : s.cwd p with
      | none =>
        rw [hcwd] at hp
        cases hp
      | some k =>
        rw [hcwd] at hp
        exact ⟨k, held_of_cwd hcwd, (hloose k).mp hp⟩
    · exact ⟨_, held_of_file ht, (hloose _).mp hf⟩

instance : Decidable (Orphaned s) := decidable_of_iff _ orphaned_iff.symm

theorem call_tidy (h : Tidy sb s) (hfew : ∀ k, named sb s.fs k < 32767) (hcwd : s.cwd p = some cwd) (c : Call) :
    Runs (call sb p cwd c) s (fun _ t => Tidy sb t ∨ Orphaned t) Typed := by
  have hpos := held_of_cwd hcwd
  have hl : Links sb (held s) [] [] { s.fs with outstanding := 1 } := h.inv.rest.1
  refine SysInv.call (linkLayer sb) h.inv hcwd (fun t ht => .inl ht.tidy) (fun old new => ?_) (fun path => ?_)
    (fun path type major minor htype => ?_) c
  · rw [runs_onFs]
    exact (hl.sysLink hpos hfew).mono (fun _ v hv => .inl (hv.tidy h)) (fun _ he => he)
  · rw [runs_onFs]
    exact (hl.sysUnlink hpos hfew).mono (fun _ v hv => hv.imp_left (fun hv => hv.tidy h)) (fun _ he => he)
  · rw [runs_onFs]
    exact (hl.sysMake hpos htype hfew).mono (fun _ v hv => .inl (hv.tidy h)) (fun _ he => he)

/-- What holds along a run in which no process works in, or has open, an
unlinked directory. -/
theorem run_tidy (r : Run (step sb)) (h0 : Tidy sb (r.state 0))
    (hfew : ∀ i ≤ r.length, ∀ k, named sb (r.state i).fs k < 32767)
    (hno : ∀ i ≤ r.length, ¬ Orphaned (r.state i)) : ∀ i ≤ r.length, Tidy sb (r.state i) := by
  intro i
  induction i with
  | zero => exact fun _ => h0
  | succ i ih =>
    intro hi
    obtain ⟨cwd, x, hcwd, hcall⟩ := call_of_step (r.next i hi)
    have hs := ih (Nat.le_of_succ_le hi)
    exact ((call_tidy hs (hfew i (Nat.le_of_succ_le hi)) hcwd _).ok hcall).resolve_right (hno (i + 1) hi)

/-- Link counts are exact after every call, as long as no directory is unlinked
while a process works in it or has it open. -/
theorem link_counts_exact (r : Run (step sb)) (h0 : Tidy sb (r.state 0))
    (hfew : ∀ i ≤ r.length, ∀ k, named sb (r.state i).fs k < 32767)
    (hno : ∀ i ≤ r.length, ¬ Orphaned (r.state i)) :
    ∀ i ≤ r.length, ∀ k, ((r.state i).fs.node k).type ≠ .free →
      ((r.state i).fs.node k).nlink = named sb (r.state i).fs k :=
  fun i hi k hk => (run_tidy r h0 hfew hno i hi).tree.count k hk

/-- As long as no directory is unlinked while a process works in it or has it
open, entries name allocated inodes and no path lookup meets a free one. -/
theorem lookup_meets_allocated (r : Run (step sb)) (h0 : Tidy sb (r.state 0))
    (hfew : ∀ i ≤ r.length, ∀ k, named sb (r.state i).fs k < 32767)
    (hno : ∀ i ≤ r.length, ¬ Orphaned (r.state i)) :
    ∀ i ≤ r.length,
      (∀ d, ((r.state i).fs.node d).type = .dir → ∀ de ∈ entries (r.state i).fs d, de.inum ≠ 0 →
        ((r.state i).fs.node de.inum).type ≠ .free) ∧
      ∀ a, panics sb (r.state i) a ≠ some .noType := by
  intro i hi
  have h := run_tidy r h0 hfew hno i hi
  refine ⟨fun d hd de hde h0 => ?_, fun a hp => ?_⟩
  · obtain ⟨j, hj⟩ := getElem?_of_mem hde
    have hl : Links sb (held (r.state i)) [] [] { (r.state i).fs with outstanding := 1 } := h.inv.rest.1
    exact (hl.entry hd hj h0).1
  · obtain ⟨cwd, hcwd, hcall⟩ := call_of_panics hp
    exact (call_tidy h (hfew i hi) hcwd a.2).error hcall rfl

end Runs

section Orphans

theorem named_le (s : State) (k : Nat) : named sb s k ≤ ∑ d ∈ Finset.range sb.ninodes, (view s d).ents.length := by
  unfold named links cnt
  exact Finset.sum_le_sum (fun _ _ => countP_le_length)

theorem rootSys_tree : Tree tiny.ninodes (view rootSys.fs) := by
  have hone : ∀ d, (rootSys.fs.node d).type ≠ .free → d = 1 := fun d hd => rootSys_dir hd
  have hdir : (rootSys.fs.node 1).type = .dir := by
    rw [rootSys_node]
    rfl
  have hent : (view rootSys.fs 1).ents = [⟨1, strncpy DIRSIZ dot⟩, ⟨1, strncpy DIRSIZ dotdot⟩] := by
    rw [view_ents hdir]
    decide +kernel
  have hnum : ∀ d i, num (view rootSys.fs) d i ≠ 0 → d = 1 ∧ i < 2 ∧ num (view rootSys.fs) d i = 1 := by
    intro d i hn
    obtain ⟨de, hde, hde'⟩ := num_some hn
    have hd : d = 1 := by
      by_contra hc
      have hf : (rootSys.fs.node d).type ≠ .dir := by
        intro hd
        exact hc (hone d (by rw [hd]; nofun))
      rw [view_file hf] at hde
      cases hde
    subst hd
    rw [hent] at hde
    match i, hde with
    | 0, hde => exact ⟨rfl, by omega, by rw [← hde', ← Option.some.inj hde]⟩
    | 1, hde => exact ⟨rfl, by omega, by rw [← hde', ← Option.some.inj hde]⟩
  have h0 : num (view rootSys.fs) 1 0 = 1 := by rw [num, hent]; rfl
  have h1 : num (view rootSys.fs) 1 1 = 1 := by rw [num, hent]; rfl
  refine ⟨hdir, h1, fun k hk => ?_, fun k hk => view_file hk, fun d hd => ?_, fun d hd => ?_, fun d i hn => ?_,
    fun d hd hr => ?_, fun p i hi hd => ?_, fun k hk => ?_⟩
  · rw [hone k hk]
    decide
  · rw [hone d (by change (view rootSys.fs d).type ≠ .free; rw [hd]; nofun), hent]
    exact DirOk.new Nat.one_ne_zero Nat.one_ne_zero
  · rw [hone d (by change (view rootSys.fs d).type ≠ .free; rw [hd]; nofun)]
    exact h0
  · rw [(hnum d i hn).2.2]
    change (rootSys.fs.node 1).type ≠ .free
    rw [hdir]
    nofun
  · exact absurd (hone d (by change (view rootSys.fs d).type ≠ .free; rw [hd]; nofun)) hr
  · by_cases hn : num (view rootSys.fs) p i = 0
    · rw [hn] at hd
      have := hone 0 (by change (view rootSys.fs 0).type ≠ .free; rw [hd]; nofun)
      omega
    · have := (hnum p i hn).2.1
      omega
  · rw [hone k hk]
    decide +kernel

theorem rootSys_tidy : Tidy tiny rootSys := by
  refine ⟨rootSys_consistent, rootSys_tree, fun d hd => ?_, fun k hk => ?_, ?_⟩
  · have hd1 : d = 1 := rootSys_dir (by rw [hd]; rintro ⟨⟩)
    rw [hd1, Whole16, rootSys_node]
    decide
  · rw [rootSys_held] at hk
    have hk1 : k = 1 := by
      by_contra hc
      have h0 : ¬ k = ROOTINO := hc
      rw [if_neg h0] at hk
      exact absurd hk (lt_irrefl 0)
    rw [hk1, rootSys_node]
    rintro ⟨⟩
  · rintro k ⟨f, hf, -⟩
    cases hf

def unlinkCwd : Run (step tiny) :=
  Run.ofExec (step tiny) rootSys [(0, .mkdir [47, 97]), (0, .chdir [47, 97]), (0, .unlink [47, 97])] (by decide +kernel)

theorem unlinkCwd_few : ∀ i ≤ 3, ∀ k, named tiny (unlinkCwd.state i).fs k < 32767 := by
  have hall : ∀ i ≤ 3, ∑ d ∈ Finset.range tiny.ninodes, (view (unlinkCwd.state i).fs d).ents.length < 32767 := by
    decide +kernel
  exact fun i hi k => lt_of_le_of_lt (named_le _ k) (hall i hi)

/-- The root directory has one link, but its own `..` and that of the directory
that was removed name it. -/
theorem link_count_unlinkCwd : Tidy tiny (unlinkCwd.state 0) ∧
    (∀ i ≤ unlinkCwd.length, ∀ k, named tiny (unlinkCwd.state i).fs k < 32767) ∧
    ((unlinkCwd.state 3).fs.node 1).type = .dir ∧ ((unlinkCwd.state 3).fs.node 1).nlink = 1 ∧
    named tiny (unlinkCwd.state 3).fs 1 = 2 :=
  ⟨rootSys_tidy, unlinkCwd_few, by decide +kernel, by decide +kernel, by decide +kernel⟩

/-- A directory below another one; the process goes there, and removes both. -/
def unlinkParent : Run (step tiny) :=
  Run.ofExec (step tiny) rootSys
    [(0, .mkdir [47, 97]), (0, .mkdir [47, 97, 47, 98]), (0, .chdir [47, 97, 47, 98]), (0, .unlink [47, 97, 47, 98]),
      (0, .unlink [47, 97])] (by decide +kernel)

theorem unlinkParent_few : ∀ i ≤ 5, ∀ k, named tiny (unlinkParent.state i).fs k < 32767 := by
  have hall : ∀ i ≤ 5, ∑ d ∈ Finset.range tiny.ninodes, (view (unlinkParent.state i).fs d).ents.length < 32767 := by
    decide +kernel
  exact fun i hi k => lt_of_le_of_lt (named_le _ k) (hall i hi)

/-- `..` of the working directory names an inode that is free, and following it
panics. -/
theorem lookup_unlinkParent : Tidy tiny (unlinkParent.state 0) ∧
    (∀ i ≤ unlinkParent.length, ∀ k, named tiny (unlinkParent.state i).fs k < 32767) ∧
    (unlinkParent.state 5).cwd 0 = some 3 ∧ ((unlinkParent.state 5).fs.node 3).type = .dir ∧
    (⟨2, strncpy DIRSIZ dotdot⟩ : Dirent) ∈ entries (unlinkParent.state 5).fs 3 ∧
    ((unlinkParent.state 5).fs.node 2).type = .free ∧
    panics tiny (unlinkParent.state 5) (0, .chdir [46, 46]) = some .noType := by
  refine ⟨rootSys_tidy, unlinkParent_few, ?_, ?_, ?_, ?_, ?_⟩ <;> decide +kernel

/-- `/a` is made with a file that has two names; the process goes there, removes
one, and goes back. -/
def treeRun : Run (step tiny) :=
  Run.ofExec (step tiny) rootSys
    [(0, .mkdir [47, 97]), (0, .chdir [47, 97]), (0, .open [102] (O_CREATE ||| O_RDWR)), (0, .link [102] [103]),
      (0, .unlink [102]), (0, .chdir [46, 46])] (by decide +kernel)

theorem treeRun_few : ∀ i ≤ 6, ∀ k, named tiny (treeRun.state i).fs k < 32767 := by
  have hall : ∀ i ≤ 6, ∑ d ∈ Finset.range tiny.ninodes, (view (treeRun.state i).fs d).ents.length < 32767 := by
    decide +kernel
  exact fun i hi k => lt_of_le_of_lt (named_le _ k) (hall i hi)

theorem treeRun_held : ∀ i ≤ 6, ¬ Orphaned (treeRun.state i) := by
  decide +kernel

theorem link_counts_exact_treeRun :
    ((treeRun.state 4).fs.node 3).nlink = 2 ∧ named tiny (treeRun.state 4).fs 3 = 2 ∧
      ((treeRun.state 6).fs.node 2).nlink = named tiny (treeRun.state 6).fs 2 :=
  ⟨by decide +kernel, by decide +kernel,
    link_counts_exact treeRun rootSys_tidy treeRun_few treeRun_held 6 (by decide) 2 (by decide +kernel)⟩

theorem lookup_meets_allocated_treeRun :
    (treeRun.state 3).cwd 0 = some 2 ∧ ∀ a, panics tiny (treeRun.state 6) a ≠ some .noType :=
  ⟨by decide +kernel, (lookup_meets_allocated treeRun rootSys_tidy treeRun_few treeRun_held 6 (by decide)).2⟩

end Orphans

end Xv6Rcu.Fs

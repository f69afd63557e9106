import Xv6Rcu.FsProc

namespace Xv6Rcu.Fs

open Exec Transition

variable {sb : Super} {s t : Sys} {p : Fin NPROC} {cwd : Nat}

section Calls

theorem holdLayer (sb : Super) : Layer sb Sane (fun _ => Hold sb) where
  benign := sane_benign
  hold := id
  typed := fun _ _ _ => nofun
  alike := fun _ _ h => h
  move := fun _ _ h => h
  put := fun _ _ _ h => h
  file := fun _ _ _ _ _ _ h => h
  narrow := fun h _ => h
  grant := fun h _ _ => h
  namei := fun h _ hcwd hnone hsome =>
    h.namei hcwd sane_benign (fun _ => nofun) (fun t _ _ => hnone t) (fun ip t _ _ => hsome ip t)
  create := fun h hcwd hnone hsome => h.create hcwd hnone hsome

/-- A consistent file system: the accounts of blocks are right, files have no
holes, the inode table has what the disk has, and it counts the references of
working directories and open files. -/
structure Consistent (sb : Super) (s : Sys) : Prop where
  sound : Sound sb s.fs
  refs : ∀ k, refs s.fs k = held s k
  idle : ∀ f, (s.file f).ref = 0 → (s.file f).type = .none

theorem Consistent.inv (h : Consistent sb s) : SysInv (fun _ => Hold sb) s :=
  ⟨⟨h.sound.outstanding 1, one_pos, fun k => by rw [List.count_nil, add_zero]; exact h.refs k, nofun⟩, h.idle⟩

theorem SysInv.consistent (h : SysInv (fun _ => Hold sb) s) : Consistent sb s := by
  refine ⟨h.rest.sound.outstanding s.fs.outstanding, fun k => ?_, h.idle⟩
  have hk := h.rest.refs k
  rw [List.count_nil, add_zero] at hk
  exact hk

theorem Consistent.onFs {x : M Int} (h : Consistent sb s)
    (hx : Runs x s.fs (fun _ v => Rest sb (held s) v) Sane) : Runs (onFs x) s (fun _ t => Consistent sb t) Sane := by
  rw [runs_onFs]
  exact hx.mono (fun _ v hv => ⟨hv.1, hv.2, h.idle⟩) (fun _ he => he)

theorem call_consistent (h : Consistent sb s) (hcwd : s.cwd p = some cwd) (c : Call) :
    Runs (call sb p cwd c) s (fun _ t => Consistent sb t) Sane := by
  have hpos := held_of_cwd hcwd
  have hrest : Rest sb (held s) s.fs := ⟨h.sound, h.refs⟩
  exact SysInv.call (holdLayer sb) h.inv hcwd (fun _ ht => ht.consistent) (fun _ _ => h.onFs (hrest.sysLink hpos))
    (fun _ => h.onFs (hrest.sysUnlink hpos)) (fun _ _ _ _ _ => h.onFs (hrest.sysMake hpos)) c

theorem step_consistent (h : Consistent sb s) {a : Fin NPROC × Call} (hstep : step sb s a = some t) :
    Consistent sb t := by
  obtain ⟨cwd, r, hcwd, hcall⟩ := call_of_step hstep
  exact (call_consistent h hcwd a.2).ok hcall

theorem panics_sane (h : Consistent sb s) (a : Fin NPROC × Call) : panics sb s a ≠ some .freeingFree := by
  intro hp
  obtain ⟨cwd, hcwd, hcall⟩ := call_of_panics hp
  exact (call_consistent h hcwd a.2).error hcall rfl

end Calls

section Accounts

/-- After every call of a run, each block number occurs once at most among the
addresses of all allocated inodes, and the bitmap is set for metadata blocks and
for the blocks that occur. No call frees a free block, and `balloc` does not
return a block in use. -/
theorem blocks_accounted (r : Run (step sb)) (h0 : Consistent sb (r.state 0)) :
    ∀ i ≤ r.length,
      (∀ x y, use (r.state i).fs x = use (r.state i).fs y → use (r.state i).fs x ≠ 0 → x = y) ∧
      (∀ b < sb.size, (r.state i).fs.bits b = true ↔ b < sb.nmeta ∨ b ≠ 0 ∧ ∃ x, use (r.state i).fs x = b) ∧
      (∀ a, panics sb (r.state i) a ≠ some .freeingFree) ∧
      ∀ b t, balloc sb { (r.state i).fs with outstanding := 1 } = .ok (b, t) → b ≠ 0 →
        ∀ x, use (r.state i).fs x ≠ b := by
  intro i hi
  have h : Consistent sb (r.state i) :=
    r.invariant r.meets_true h0 (fun _ _ _ hs _ hstep => step_consistent hs hstep) i hi
  refine ⟨h.sound.good.tally.apart, h.sound.good.tally.exact, panics_sane h, fun b t hb hne x => ?_⟩
  have hspec := balloc_spec (h.sound.outstanding 1).good.tally one_pos
  rcases hspec.ok hb with ⟨rfl, -⟩ | ⟨hfresh, -⟩
  · exact absurd rfl hne
  · exact h.sound.good.tally.fresh hfresh.bit hne x

def rootBytes : Block := fun i => (encode ⟨ROOTINO, strncpy DIRSIZ dot⟩ ++ encode ⟨ROOTINO, strncpy DIRSIZ dotdot⟩).getD i 0

def rootSys : Sys where
  fs := disk .dir 32 rootBytes false 0
  file := fun _ => ⟨0, .none, false, false, 0, 0, 0⟩
  cwd := fun p => if p = 0 then some ROOTINO else none
  ofile := fun _ _ => none

theorem rootSys_held (k : Nat) : held rootSys k = if k = ROOTINO then 1 else 0 := by
  have hcwd : ∀ p, cwdRef k (rootSys.cwd p) = if p = 0 then (if k = ROOTINO then 1 else 0) else 0 := by
    intro p
    unfold rootSys cwdRef
    by_cases hp : p = 0
    · simp [hp, eq_comm]
    · simp [hp]
  have hfile : ∀ f, fileRef k (rootSys.file f) = 0 := fun f => if_neg (fun hc => hc.1 rfl)
  unfold held
  simp only [hcwd, hfile, Finset.sum_ite_eq', Finset.mem_univ, if_true, Finset.sum_const_zero, add_zero]

theorem rootSys_consistent : Consistent tiny rootSys := by
  refine ⟨disk_sound nofun (by decide), fun k => ?_, fun _ _ => rfl⟩
  rw [rootSys_held]
  unfold refs rootSys disk ROOTINO
  by_cases hk : k = 1 <;> simp [hk]

/-- A file is created, written to, unlinked while it is open, and closed. -/
def openUnlinked : Run (step tiny) :=
  Run.ofExec (step tiny) rootSys
    [(0, .open [47, 97] (O_CREATE ||| O_RDWR)), (0, .write 0 (.user countUp 0) 5 0), (0, .unlink [47, 97]), (0, .close 0)]
    (by decide +kernel)

theorem blocks_accounted_openUnlinked :
    (∀ i ≤ 4, ∀ a, panics tiny (openUnlinked.state i) a ≠ some .freeingFree) ∧
      ∀ b < 10, (openUnlinked.state 2).fs.bits b = true ↔ b < 4 ∨ b ≠ 0 ∧ ∃ x, use (openUnlinked.state 2).fs x = b :=
  ⟨fun i hi => (blocks_accounted openUnlinked rootSys_consistent i hi).2.2.1,
    (blocks_accounted openUnlinked rootSys_consistent 2 (by decide)).2.1⟩

/-- After every call of a run, the inode table counts the working directories and
the open files that refer to each inode. -/
theorem references_exact (r : Run (step sb)) (h0 : Consistent sb (r.state 0)) (i : Nat) (hi : i ≤ r.length) :
    (∀ k, ((r.state i).fs.ino k).ref = held (r.state i) k) ∧
      ∀ f, ((r.state i).file f).ref = 0 → ((r.state i).file f).type = .none := by
  have h : Consistent sb (r.state i) :=
    r.invariant r.meets_true h0 (fun _ _ _ hs _ hstep => step_consistent hs hstep) i hi
  exact ⟨h.refs, h.idle⟩

theorem references_exact_openUnlinked : ((openUnlinked.state 3).fs.ino 2).ref = held (openUnlinked.state 3) 2 :=
  (references_exact openUnlinked rootSys_consistent 3 (by decide)).1 2

end Accounts

end Xv6Rcu.Fs

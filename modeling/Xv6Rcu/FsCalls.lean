import Xv6Rcu.FsHold

namespace Xv6Rcu.Fs

open Exec List

variable {sb : Super} {base : Nat → Nat} {rs ls : List Nat} {s t : State} {k dp ip cwd : Nat}
  {name path : List Byte} {type : Kind} {major minor : Int}

def Sane (e : Panic) : Prop := e ≠ .freeingFree

theorem sane_benign : Benign Sane := fun _ h _ => h

section Create

theorem Hold.createFail {Q : Option Nat → State → Prop} (h : Hold sb base (ip :: dp :: rs) [ip, dp] s)
    (hQ : ∀ t, Hold sb base rs [] t → Q none t) : Runs (createFail dp ip) s Q Sane := by
  unfold Fs.createFail
  rw [runs_bind]
  refine h.setMeta (g := fun d => { d with nlink := 0 }) mem_cons_self (fun _ => rfl) (fun _ => rfl)
    (fun _ => rfl) (fun t _ _ _ h => ?_)
  rw [runs_bind]
  refine h.iunlockput [] .rfl nofun (fun t _ h => ?_)
  rw [runs_bind]
  exact h.iunlockput [] .rfl nofun (fun t _ h => hQ t h)

theorem Hold.createNew {Q : Option Nat → State → Prop} (h : Hold sb base (ip :: dp :: rs) [dp] s)
    (hnone : ∀ t, Hold sb base rs [] t → Q none t) (hsome : ∀ t, Hold sb base (ip :: rs) [ip] t → Q (some ip) t) :
    Runs (createNew sb dp ip name type major minor) s Q Sane := by
  have hip : ip ∈ [ip, dp] := mem_cons_self
  have hdp : dp ∈ [ip, dp] := mem_cons_of_mem _ mem_cons_self
  unfold Fs.createNew
  rw [runs_bind]
  refine h.ilock (.inl mem_cons_self) (fun _ => nofun) (fun t _ _ h => ?_)
  rw [runs_bind]
  refine h.setMeta (g := fun d => { d with major := major, minor := minor, nlink := 1 }) hip (fun _ => rfl)
    (fun _ => rfl) (fun _ => rfl) (fun t _ _ _ h => ?_)
  rw [runs_bind]
  refine Runs.mono (Q := fun _ t => Hold sb base (ip :: dp :: rs) [ip, dp] t) ?_ (fun ok t h => ?_) (fun _ he => he)
  · rw [runs_ite]
    refine ⟨fun _ => ?_, fun _ => h⟩
    rw [runs_bind]
    refine h.dirlink hip (sane_benign.allows _ _) (fun r t _ h => ?_)
    rw [runs_ite]
    refine ⟨fun _ => h, fun _ => ?_⟩
    rw [runs_bind]
    exact h.dirlink hip (sane_benign.allows _ _) (fun r t _ h => h)
  · rw [runs_ite]
    refine ⟨fun _ => h.createFail hnone, fun _ => ?_⟩
    rw [runs_bind]
    refine h.dirlink hdp (sane_benign.allows _ _) (fun r t _ h => ?_)
    rw [runs_ite]
    refine ⟨fun _ => h.createFail hnone, fun _ => ?_⟩
    rw [runs_bind]
    refine Runs.mono (Q := fun _ t => Hold sb base (ip :: dp :: rs) [ip, dp] t) ?_ (fun _ t h => ?_) (fun _ he => he)
    · rw [runs_when]
      refine ⟨fun _ => ?_, fun _ => h⟩
      exact h.setMeta (g := fun d => { d with nlink := short (d.nlink + 1) }) hdp (fun _ => rfl) (fun _ => rfl)
        (fun _ => rfl) (fun t _ _ _ h => h)
    · rw [runs_bind]
      refine h.iunlockput [ip] (List.Perm.swap dp ip rs) (fun j hj => ?_) (fun t _ h => hsome t h)
      rw [mem_singleton] at hj
      exact ⟨hj ▸ hip, .inl (hj ▸ mem_cons_self)⟩

theorem Hold.create {Q : Option Nat → State → Prop} (h : Hold sb base rs [] s) (hcwd : 0 < base cwd)
    (hnone : ∀ t, Hold sb base rs [] t → Q none t)
    (hsome : ∀ ip t, Hold sb base (ip :: rs) [ip] t → Q (some ip) t) :
    Runs (create sb cwd path type major minor) s Q Sane := by
  unfold Fs.create
  rw [runs_bind]
  refine h.namex hcwd sane_benign (fun _ => nofun) (fun t _ _ h => hnone t h) (fun dp name t _ _ h => ?_)
  dsimp only
  rw [runs_bind]
  refine h.ilock (.inl mem_cons_self) (fun _ => nofun) (fun t _ _ h => ?_)
  rw [runs_bind]
  refine h.dirlookup mem_cons_self (sane_benign.allows _ _) (fun _ _ => ?_) (fun ip j off _ _ h => ?_)
  · dsimp only
    rw [runs_bind]
    refine h.ialloc sane_benign ?_ (fun ip t h0 _ h => ?_)
    · rw [if_pos rfl, runs_bind]
      exact h.iunlockput [] .rfl nofun (fun t _ h => hnone t h)
    · rw [if_neg h0]
      exact h.createNew hnone (hsome ip)
  · dsimp only
    rw [runs_bind]
    refine h.iunlockput [] (List.Perm.swap dp ip rs) nofun (fun t _ h => ?_)
    rw [runs_bind]
    refine h.ilock (.inl mem_cons_self) (fun _ => nofun) (fun t _ _ h => ?_)
    rw [runs_bind, runs_look, runs_ite]
    refine ⟨fun _ => hsome ip t h, fun _ => ?_⟩
    rw [runs_bind]
    exact h.iunlockput [] .rfl nofun (fun t _ h => hnone t h)

end Create

section Calls

def Rest (sb : Super) (base : Nat → Nat) (s : State) : Prop := Sound sb s ∧ ∀ k, refs s k = base k

theorem Rest.beginOp (h : Rest sb base s) : Hold sb base [] [] { s with outstanding := s.outstanding + 1 } :=
  ⟨h.1.outstanding _, Nat.succ_pos _, fun k => h.2 k, nofun⟩

theorem Hold.endOp (h : Hold sb base [] ls s) : Rest sb base { s with outstanding := s.outstanding - 1 } :=
  ⟨h.sound.outstanding _, fun k => h.refs k⟩

theorem Hold.putEnd {r : Int} (h : Hold sb base [k] ls s) :
    Runs (do Fs.iunlockput k; Fs.endOp; pure r) s (fun _ t => Rest sb base t) Sane := by
  rw [runs_bind]
  refine h.iunlockput [] .rfl nofun (fun t _ h => ?_)
  rw [runs_bind, runs_endOp]
  exact h.endOp

theorem Hold.linkFail (h : Hold sb base [ip] [] s) : Runs (linkFail ip) s (fun _ t => Rest sb base t) Sane := by
  unfold Fs.linkFail
  rw [runs_bind]
  refine h.ilock (.inl mem_cons_self) (fun _ => nofun) (fun t _ _ h => ?_)
  rw [runs_bind]
  refine h.setMeta (g := fun d => { d with nlink := short (d.nlink - 1) }) mem_cons_self (fun _ => rfl)
    (fun _ => rfl) (fun _ => rfl) (fun t _ _ _ h => ?_)
  exact h.putEnd

theorem Rest.sysLink {old new : List Byte} (h : Rest sb base s) (hcwd : 0 < base cwd) :
    Runs (sysLink sb cwd old new) s (fun _ t => Rest sb base t) Sane := by
  unfold Fs.sysLink
  rw [runs_bind, runs_beginOp, runs_bind]
  refine h.beginOp.namei hcwd sane_benign (fun _ => nofun) (fun t _ _ h => ?_) (fun ip t _ _ h => ?_)
  · dsimp only
    rw [runs_bind, runs_endOp]
    exact h.endOp
  · dsimp only
    rw [runs_bind]
    refine h.ilock (.inl mem_cons_self) (fun _ => nofun) (fun t _ _ h => ?_)
    rw [runs_bind, runs_look, runs_ite]
    refine ⟨fun _ => ?_, fun _ => ?_⟩
    · exact h.putEnd
    · rw [runs_bind]
      refine h.setMeta (g := fun d => { d with nlink := short (d.nlink + 1) }) mem_cons_self (fun _ => rfl)
        (fun _ => rfl) (fun _ => rfl) (fun t _ _ _ h => ?_)
      rw [runs_bind]
      refine h.iunlock (.inl mem_cons_self) ?_
      rw [runs_bind]
      refine (h.mono [] nofun).namex hcwd sane_benign (fun _ => nofun) (fun t _ _ h => h.linkFail)
        (fun dp name t _ _ h => ?_)
      dsimp only
      rw [runs_bind]
      refine h.ilock (.inl mem_cons_self) (fun _ => nofun) (fun t _ _ h => ?_)
      rw [runs_bind]
      refine h.dirlink mem_cons_self (sane_benign.allows _ _) (fun r t _ h => ?_)
      rw [runs_ite]
      refine ⟨fun _ => ?_, fun _ => ?_⟩
      · rw [runs_bind]
        exact h.iunlockput [] .rfl nofun (fun t _ h => h.linkFail)
      · rw [runs_bind]
        refine h.iunlockput [] .rfl nofun (fun t _ h => ?_)
        rw [runs_bind]
        refine h.iput [] .rfl nofun (fun t _ h => ?_)
        rw [runs_bind, runs_endOp]
        exact h.endOp

theorem Hold.unlinkFail (h : Hold sb base [dp] ls s) : Runs (unlinkFail dp) s (fun _ t => Rest sb base t) Sane := by
  unfold Fs.unlinkFail
  exact h.putEnd

theorem Hold.isdirempty {Q : Bool → State → Prop} {E : Panic → Prop} (h : Hold sb base rs ls s) (hk : k ∈ ls)
    (hE : ¬ Whole16 s k → E .isdiremptyRead)
    (hQ : ∀ b, (Whole16 s k → (b = true ↔ ∀ j de, 2 ≤ j → (entries s k)[j]? = some de → de.inum = 0)) → Q b s) :
    Runs (isdirempty sb k) s Q E := by
  have hl := h.loaded hk
  unfold Fs.isdirempty
  rw [runs_bind, runs_look, runs_bind]
  have hscan := scan_spec (i := 2) (p := fun de => de.inum != 0) (e := .isdiremptyRead)
    ((s.ino k).copy.size + 1) h.sound.good hl (by unfold DESIZE DIRSIZ; omega)
  rw [mul_comm] at hscan
  rw [← hl.node] at hscan ⊢
  refine hscan.mono ?_ (fun e he => he.1 ▸ hE he.2)
  rintro r t ⟨rfl, hfound⟩
  refine hQ _ (fun hdvd => ?_)
  have hfound := hfound hdvd
  cases r with
  | none =>
    refine iff_of_true rfl (fun j de h2 hj => ?_)
    simpa using hfound j de h2 hj
  | some x =>
    obtain ⟨j, h2, -, hj, hp⟩ := hfound
    refine iff_of_false Bool.false_ne_true (fun hall => ?_)
    simp [hall j _ h2 hj] at hp

theorem Hold.unlinkEntry {off : Nat} (h : Hold sb base [ip, dp] [ip, dp] s) :
    Runs (unlinkEntry sb dp ip off) s (fun _ t => Rest sb base t) Sane := by
  have hip : ip ∈ [ip, dp] := mem_cons_self
  have hdp : dp ∈ [ip, dp] := mem_cons_of_mem _ mem_cons_self
  unfold Fs.unlinkEntry
  rw [runs_bind, runs_look, runs_ite]
  refine ⟨fun _ => nofun, fun _ => ?_⟩
  rw [runs_bind]
  refine Runs.mono (Q := fun _ t => Hold sb base [ip, dp] [ip, dp] t) ?_ (fun empty t h => ?_) (fun _ he => he)
  · rw [runs_ite]
    exact ⟨fun _ => h.isdirempty hip (fun _ => nofun) (fun _ _ => h), fun _ => h⟩
  · rw [runs_ite]
    refine ⟨fun _ => ?_, fun _ => ?_⟩
    · rw [runs_bind]
      exact h.iunlockput [] .rfl nofun (fun t _ h => h.unlinkFail)
    · rw [runs_bind]
      refine h.writei hdp (by decide) (fun r t _ _ _ h => ?_)
      rw [runs_ite]
      refine ⟨fun _ => nofun, fun _ => ?_⟩
      rw [runs_bind, runs_look, runs_bind]
      refine Runs.mono (Q := fun _ t => Hold sb base [ip, dp] [ip, dp] t) ?_ (fun _ t h => ?_) (fun _ he => he)
      · rw [runs_when]
        refine ⟨fun _ => ?_, fun _ => h⟩
        exact h.setMeta (g := fun d => { d with nlink := short (d.nlink - 1) }) hdp (fun _ => rfl) (fun _ => rfl)
          (fun _ => rfl) (fun t _ _ _ h => h)
      · rw [runs_bind]
        refine h.iunlockput [ip] (List.Perm.swap dp ip []) (fun j hj => ?_) (fun t _ h => ?_)
        · rw [mem_singleton] at hj
          exact ⟨hj ▸ hip, .inl (hj ▸ mem_cons_self)⟩
        · rw [runs_bind]
          refine h.setMeta (g := fun d => { d with nlink := short (d.nlink - 1) }) mem_cons_self (fun _ => rfl)
            (fun _ => rfl) (fun _ => rfl) (fun t _ _ _ h => ?_)
          exact h.putEnd

theorem Rest.sysUnlink (h : Rest sb base s) (hcwd : 0 < base cwd) :
    Runs (sysUnlink sb cwd path) s (fun _ t => Rest sb base t) Sane := by
  unfold Fs.sysUnlink
  rw [runs_bind, runs_beginOp, runs_bind]
  refine h.beginOp.namex hcwd sane_benign (fun _ => nofun) (fun t _ _ h => ?_) (fun dp name t _ _ h => ?_)
  · dsimp only
    rw [runs_bind, runs_endOp]
    exact h.endOp
  · dsimp only
    rw [runs_bind]
    refine h.ilock (.inl mem_cons_self) (fun _ => nofun) (fun t _ _ h => ?_)
    rw [runs_ite]
    refine ⟨fun _ => h.unlinkFail, fun _ => ?_⟩
    rw [runs_bind]
    refine h.dirlookup mem_cons_self (sane_benign.allows _ _) (fun _ _ => h.unlinkFail) (fun ip j off _ _ h => ?_)
    dsimp only
    rw [runs_bind]
    exact h.ilock (.inl mem_cons_self) (fun _ => nofun) (fun t _ _ h => h.unlinkEntry)

theorem Rest.sysMake (h : Rest sb base s) (hcwd : 0 < base cwd) :
    Runs (sysMake sb cwd path type major minor) s (fun _ t => Rest sb base t) Sane := by
  unfold Fs.sysMake
  rw [runs_bind, runs_beginOp, runs_bind]
  refine h.beginOp.create hcwd (fun t h => ?_) (fun ip t h => ?_)
  · dsimp only
    rw [runs_bind, runs_endOp]
    exact h.endOp
  · exact h.putEnd

end Calls

end Xv6Rcu.Fs

import Xv6Rcu.Log
import Xv6Rcu.Threads

namespace Xv6Rcu.Log

open Transition Threads Function List

variable {A : Area} {s t : State} {a : Act} {p q b o : Nat}

section Moves

inductive Moves (A : Area) (s : State) : Act → State → Prop
  | beginOp (p : Nat) (hr : s.recovery = none) (hp : s.pc p = .idle) (hc : s.committing = false)
      (hroom : s.lh.length + (s.outstanding + 1) * MAXOPBLOCKS ≤ LOGSIZE) :
      Moves A s (.beginOp p) { s with
        outstanding := s.outstanding + 1
        pc := update s.pc p (.op s.nextop [])
        nextop := s.nextop + 1 }
  | bread (p b : Nat) (hr : s.recovery = none) (hb : s.holder b = none) :
      Moves A s (.bread p b) { s with holder := update s.holder b (some p) }
  | modify (p b : Nat) (d : Block) (o : Nat) (bs : List Nat) (hr : s.recovery = none) (hp : s.pc p = .op o bs)
      (hb : s.holder b = some p) :
      Moves A s (.modify p b d) { s with
        buf := update s.buf b d
        dirty := b :: s.dirty
        made := s.made ++ [⟨o, b, d⟩]
        cur := s.cur ++ [⟨o, b, d⟩] }
  | full (p b : Nat) (o : Nat) (bs : List Nat) (e : Panic) (hr : s.recovery = none) (hp : s.pc p = .op o bs)
      (hb : s.holder b = some p) (he : (e = .tooBig ∧ (LOGSIZE ≤ s.lh.length ∨ A.size - 1 ≤ s.lh.length)) ∨
        (e = .outsideTrans ∧ s.outstanding < 1)) :
      Moves A s (.logWrite p b) (s.setPc p (.stopped e))
  | absorb (p b : Nat) (o : Nat) (bs : List Nat) (hr : s.recovery = none) (hp : s.pc p = .op o bs)
      (hb : s.holder b = some p) (hm : b ∈ s.lh) :
      Moves A s (.logWrite p b) { s.setPc p (.op o (if b ∈ bs then bs else b :: bs)) with
        dirty := s.dirty.filter (· ≠ b) }
  | append (p b : Nat) (o : Nat) (bs : List Nat) (hr : s.recovery = none) (hp : s.pc p = .op o bs)
      (hb : s.holder b = some p) (hm : b ∉ s.lh) (hlen : s.lh.length < A.size - 1) :
      Moves A s (.logWrite p b) { s.setPc p (.op o (if b ∈ bs then bs else b :: bs)) with
        dirty := s.dirty.filter (· ≠ b)
        pinned := update s.pinned b true
        lh := s.lh ++ [b] }
  | brelse (p b : Nat) (hr : s.recovery = none) (hb : s.holder b = some p) :
      Moves A s (.brelse p b) { s with holder := update s.holder b none }
  | endBusy (p : Nat) (o : Nat) (bs : List Nat) (hr : s.recovery = none) (hp : s.pc p = .op o bs)
      (hc : s.committing = true) :
      Moves A s (.endOp p) { s with
        outstanding := s.outstanding - 1
        pc := update s.pc p (.stopped .committing) }
  | endLast (p : Nat) (o : Nat) (bs : List Nat) (hr : s.recovery = none) (hp : s.pc p = .op o bs)
      (hc : s.committing = false) (ho : s.outstanding - 1 = 0) :
      Moves A s (.endOp p) { s with
        outstanding := s.outstanding - 1
        committing := true
        closing := o :: s.closing
        pc := update s.pc p (.commit .start) }
  | endMore (p : Nat) (o : Nat) (bs : List Nat) (hr : s.recovery = none) (hp : s.pc p = .op o bs)
      (hc : s.committing = false) :
      Moves A s (.endOp p) { s with
        outstanding := s.outstanding - 1
        closing := o :: s.closing
        pc := update s.pc p .idle }
  | commit {u : State} (p : Nat) (c : CommitPc) (hr : s.recovery = none) (hp : s.pc p = .commit c)
      (hu : commit A s p c = some u) : Moves A s (.commit p) u
  | recycle (b : Nat) (hr : s.recovery = none) (hb : s.holder b = none) (hpin : s.pinned b = false) :
      Moves A s (.recycle b) { s with buf := update s.buf b (s.disk b) }
  | crash : Moves A s .crash (crash s)
  | recover {u : State} (r : RecoverPc) (hr : s.recovery = some r) (hu : recover A s r = some u) :
      Moves A s .recover u

theorem step_moves (h : step A s a = some t) : Moves A s a t := by
  cases hr : s.recovery with
  | some r =>
    cases a with
    | crash =>
      cases h
      exact .crash
    | recover =>
      simp only [step, hr] at h
      exact .recover r hr h
    | _ => simp [step, hr] at h
  | none =>
    have hw : a = .crash ∧ t = crash s ∨ work A s a = some t := by
      cases a with
      | crash => exact .inl ⟨rfl, (Option.some.inj h).symm⟩
      | _ => exact .inr (by simpa only [step, hr] using h)
    obtain ⟨rfl, rfl⟩ | h := hw
    · exact .crash
    cases a with
    | crash => contradiction
    | recover => contradiction
    | beginOp p =>
      simp only [work, beginOp] at h
      split at h
      · split at h
        · contradiction
        · split at h
          · contradiction
          · cases h
            exact .beginOp p hr ‹_› (Bool.eq_false_iff.mpr ‹_›) (Nat.not_lt.mp ‹_›)
      · contradiction
    | bread p b =>
      simp only [work] at h
      split at h
      · cases h
        exact .bread p b hr ‹_›
      · contradiction
    | modify p b d =>
      simp only [work] at h
      split at h
      · split at h
        · cases h
          exact .modify p b d _ _ hr ‹_› ‹_›
        · contradiction
      · contradiction
    | logWrite p b =>
      simp only [work, logWrite] at h
      split at h
      · rename_i o bs hp
        split at h
        · contradiction
        · rename_i hb
          rw [not_not] at hb
          split at h
          · rename_i hfull
            cases h
            exact .full p b o bs _ hr hp hb (.inl ⟨rfl, hfull⟩)
          · rename_i hfull
            split at h
            · rename_i hout
              cases h
              exact .full p b o bs _ hr hp hb (.inr ⟨rfl, hout⟩)
            · split at h
              · cases h
                exact .absorb p b o bs hr hp hb ‹_›
              · cases h
                exact .append p b o bs hr hp hb ‹_› (Nat.not_le.mp (not_or.mp hfull).2)
      · contradiction
    | brelse p b =>
      simp only [work] at h
      split at h
      · cases h
        exact .brelse p b hr ‹_›
      · contradiction
    | endOp p =>
      simp only [work, endOp] at h
      split at h
      · rename_i o bs hp
        split at h
        · cases h
          exact .endBusy p o bs hr hp ‹_›
        · rename_i hc
          rw [Bool.not_eq_true] at hc
          split at h
          · cases h
            exact .endLast p o bs hr hp hc ‹_›
          · cases h
            exact .endMore p o bs hr hp hc
      · contradiction
    | commit p =>
      simp only [work] at h
      split at h
      · exact .commit p _ hr ‹_› h
      · contradiction
    | recycle b =>
      simp only [work] at h
      split at h
      · rename_i hb
        cases h
        exact .recycle b hr hb.1 hb.2
      · contradiction

structure CommitStep (s : State) (p : Nat) (c : CommitPc) (u : State) : Prop where
  pc : (c = .finish ∧ u.pc = update s.pc p .idle ∧ u.committing = false) ∨
    ∃ c', u.pc = update s.pc p (.commit c') ∧ u.committing = s.committing
  outstanding : u.outstanding = s.outstanding
  dirty : u.dirty = s.dirty
  holder : u.holder = s.holder
  recovery : u.recovery = s.recovery

theorem commit_step {u : State} {c : CommitPc} (h : commit A s p c = some u) : CommitStep s p c u := by
  cases c with
  | writeLog tail =>
    simp only [commit, writeLog] at h
    repeat' split at h
    all_goals cases h
    all_goals exact ⟨.inr ⟨_, rfl, rfl⟩, rfl, rfl, rfl, rfl⟩
  | install tail =>
    simp only [commit, installTrans] at h
    repeat' split at h
    all_goals cases h
    all_goals exact ⟨.inr ⟨_, rfl, rfl⟩, rfl, rfl, rfl, rfl⟩
  | finish =>
    cases h
    exact ⟨.inl ⟨rfl, rfl, rfl⟩, rfl, rfl, rfl, rfl⟩
  | _ =>
    cases h
    exact ⟨.inr ⟨_, rfl, rfl⟩, rfl, rfl, rfl, rfl⟩

structure RecoverStep (s u : State) : Prop where
  pc : u.pc = s.pc
  committing : u.committing = s.committing
  outstanding : u.outstanding = s.outstanding
  dirty : u.dirty = s.dirty
  pinned : u.pinned = s.pinned

theorem recover_step {u : State} {r : RecoverPc} (h : recover A s r = some u) : RecoverStep s u := by
  cases r with
  | install tail =>
    simp only [recover, installTrans] at h
    repeat' split at h
    all_goals cases h
    all_goals exact ⟨rfl, rfl, rfl, rfl, rfl⟩
  | _ =>
    cases h
    exact ⟨rfl, rfl, rfl, rfl, rfl⟩

end Moves

section Processes

def inOp : Pc → Bool
  | .op _ _ | .stopped .tooBig | .stopped .outsideTrans => true
  | _ => false

/-- `outstanding` counts the operations, and one process commits while there
are none. -/
structure Procs (s : State) : Prop where
  count : Counted inOp s.pc s.outstanding
  committer : ∀ p c, s.pc p = .commit c → s.committing = true
  quiet : s.committing = true → s.outstanding = 0
  unique : ∀ p q c d, s.pc p = .commit c → s.pc q = .commit d → p = q
  held : ∀ b ∈ s.dirty, ∃ p, s.holder b = some p ∧ inOp (s.pc p) = true
  down : s.recovery ≠ none → ∀ p, s.pc p = .idle

theorem Procs.not_inOp (h : Procs s) (hc : s.committing = true) (p : Nat) : inOp (s.pc p) = false :=
  Counted.none (h.quiet hc ▸ h.count) p

theorem Procs.not_dirty (h : Procs s) (hc : s.committing = true) : s.dirty = [] := by
  refine eq_nil_iff_forall_not_mem.mpr (fun b hb => ?_)
  obtain ⟨p, -, hp⟩ := h.held b hb
  rw [h.not_inOp hc p] at hp
  contradiction

theorem Procs.not_committing (h : Procs s) (hp : inOp (s.pc p) = true) : s.committing = false := by
  rw [← Bool.not_eq_true]
  intro hc
  rw [h.not_inOp hc p] at hp
  contradiction

theorem procs_boot (d : Nat → Block) : Procs (boot d) where
  count := Counted.zero (fun _ => rfl)
  committer := nofun
  quiet := nofun
  unique := nofun
  held := nofun
  down := fun _ _ => rfl

/-- One process goes on in a way that leaves the number of operations right. -/
theorem procs_update {x : Pc} (h : Procs s) (hr : t.recovery = none) (hpc : t.pc = update s.pc p x)
    (hcount : Counted inOp t.pc t.outstanding) (hx : ∀ c, x ≠ .commit c) (hc : t.committing = s.committing)
    (hq : s.committing = true → t.outstanding = 0)
    (hheld : ∀ b ∈ t.dirty, ∃ q, t.holder b = some q ∧ inOp (t.pc q) = true) : Procs t := by
  have hcommit : ∀ q c, t.pc q = .commit c → s.pc q = .commit c := by
    intro q c hq
    rw [hpc] at hq
    by_cases hqp : q = p
    · rw [hqp, update_self] at hq
      exact absurd hq (hx c)
    · rwa [update_of_ne hqp] at hq
  exact {
    count := hcount
    committer := fun q c hqc => hc ▸ h.committer q c (hcommit q c hqc)
    quiet := fun ht => hq (hc ▸ ht)
    unique := fun q q' c d hqc hqd => h.unique q q' c d (hcommit q c hqc) (hcommit q' d hqd)
    held := hheld
    down := fun hd => absurd hr hd }

/-- Dirty buffers stay with operations when a process does not leave its one. -/
theorem held_update {x : Pc} (h : Procs s) (hx : inOp x = inOp (s.pc p)) (hb : b ∈ s.dirty) :
    ∃ q, s.holder b = some q ∧ inOp (update s.pc p x q) = true := by
  obtain ⟨q, hq, hop⟩ := h.held b hb
  exact ⟨q, hq, by rwa [same_update rfl hx]⟩

theorem held_leave {x : Pc} (h : Procs s) (hok : ∀ b ∈ s.dirty, s.holder b ≠ some p) (hb : b ∈ s.dirty) :
    ∃ q, s.holder b = some q ∧ inOp (update s.pc p x q) = true := by
  obtain ⟨q, hq, hop⟩ := h.held b hb
  have hqp : q ≠ p := fun he => hok b hb (he ▸ hq)
  exact ⟨q, hq, by rwa [update_of_ne hqp]⟩

theorem procs_step (h : Procs s) (hok : Proper A s a) (hm : Moves A s a t) : Procs t := by
  cases hm with
  | beginOp p hr hp hc hroom =>
    refine procs_update h hr rfl ?_ nofun rfl (fun ht => absurd (hc.symm.trans ht) nofun) (fun b hb => ?_)
    · exact h.count.enter (by rw [hp]; rfl) rfl
    · obtain ⟨q, hq, hop⟩ := h.held b hb
      have hqp : q ≠ p := by
        rintro rfl
        rw [hp] at hop
        contradiction
      exact ⟨q, hq, by simpa [hqp] using hop⟩
  | bread p b hr hb =>
    refine { h with held := fun b' hb' => ?_ }
    obtain ⟨q, hq, hop⟩ := h.held b' hb'
    have hne : b' ≠ b := by
      rintro rfl
      rw [hb] at hq
      contradiction
    exact ⟨q, by simpa [hne] using hq, hop⟩
  | modify p b d o bs hr hp hb =>
    refine { h with held := fun b' hb' => ?_ }
    rcases mem_cons.mp hb' with rfl | hb'
    · exact ⟨p, hb, by rw [hp]; rfl⟩
    · exact h.held b' hb'
  | full p b o bs e hr hp hb he =>
    have hx : inOp (.stopped e) = inOp (s.pc p) := by
      rw [hp]
      rcases he with ⟨rfl, -⟩ | ⟨rfl, -⟩ <;> rfl
    exact procs_update h hr rfl (h.count.same hx) nofun rfl h.quiet (fun b' hb' => held_update h hx hb')
  | absorb p b o bs hr hp hb hm | append p b o bs hr hp hb hm hlen =>
    have hx : inOp (.op o (if b ∈ bs then bs else b :: bs)) = inOp (s.pc p) := by rw [hp]; rfl
    exact procs_update h hr rfl (h.count.same hx) nofun rfl h.quiet
      (fun b' hb' => held_update h hx (mem_of_mem_filter hb'))
  | brelse p b hr hb =>
    refine { h with held := fun b' hb' => ?_ }
    obtain ⟨q, hq, hop⟩ := h.held b' hb'
    have hne : b' ≠ b := fun he => hok (he ▸ hb')
    exact ⟨q, by simpa [hne] using hq, hop⟩
  | endBusy p o bs hr hp hc =>
    have hop := h.not_inOp hc p
    rw [hp] at hop
    contradiction
  | endLast p o bs hr hp hc ho =>
    have hop : inOp (s.pc p) = true := by rw [hp]; rfl
    have hnone (q : Nat) (c : CommitPc) : s.pc q ≠ .commit c := fun hq =>
      absurd (hc.symm.trans (h.committer q c hq)) nofun
    have hself (q : Nat) (c : CommitPc) (hq : update s.pc p (.commit .start) q = .commit c) : q = p := by
      by_contra hqp
      rw [update_of_ne hqp] at hq
      exact hnone q c hq
    exact {
      count := h.count.leave hop rfl
      committer := fun _ _ _ => rfl
      quiet := fun _ => ho
      unique := fun q q' c d hq hq' => (hself q c hq).trans (hself q' d hq').symm
      held := fun b' hb' => held_leave h hok hb'
      down := fun hd => absurd hr hd }
  | endMore p o bs hr hp hc =>
    have hop : inOp (s.pc p) = true := by rw [hp]; rfl
    exact procs_update h hr rfl (h.count.leave hop rfl) nofun rfl
      (fun ht => absurd (hc.symm.trans ht) nofun) (fun b' hb' => held_leave h hok hb')
  | commit p c hr hp hu =>
    obtain ⟨hpc, hout, hdirty, hholder, hrec⟩ := commit_step hu
    have hcom := h.committer p c hp
    have hop : inOp (s.pc p) = false := h.not_inOp hcom p
    have hnil : t.dirty = [] := hdirty.trans (h.not_dirty hcom)
    rcases hpc with ⟨-, hpc, hc⟩ | ⟨c', hpc, hc⟩
    · have hself (q : Nat) (c' : CommitPc) : t.pc q ≠ .commit c' := by
        intro hq
        rw [hpc] at hq
        by_cases hqp : q = p
        · rw [hqp, update_self] at hq
          contradiction
        · rw [update_of_ne hqp] at hq
          exact hqp (h.unique q p c' c hq hp)
      exact {
        count := by rw [hpc, hout]; exact h.count.same (hop ▸ rfl)
        committer := fun q c' hq => absurd hq (hself q c')
        quiet := fun ht => absurd (hc.symm.trans ht) nofun
        unique := fun q _ c' _ hq => absurd hq (hself q c')
        held := by rw [hnil]; exact nofun
        down := fun hd => absurd (hrec.trans hr) hd }
    · have hold (q : Nat) (d : CommitPc) (hq : t.pc q = .commit d) : q = p := by
        rw [hpc] at hq
        by_contra hqp
        rw [update_of_ne hqp] at hq
        exact hqp (h.unique q p d c hq hp)
      exact {
        count := by rw [hpc, hout]; exact h.count.same (hop ▸ rfl)
        committer := fun _ _ _ => hc.trans hcom
        quiet := fun _ => hout.trans (h.quiet hcom)
        unique := fun q q' d d' hq hq' => (hold q d hq).trans (hold q' d' hq').symm
        held := by rw [hnil]; exact nofun
        down := fun hd => absurd (hrec.trans hr) hd }
  | recycle b hr hb hpin => exact { h with }
  | crash => exact { procs_boot s.disk with }
  | recover r hr hu =>
    obtain ⟨hpc, hc, hout, hdirty, -⟩ := recover_step hu
    have hidle := h.down (hr ▸ nofun)
    have hnil : s.dirty = [] := by
      refine eq_nil_iff_forall_not_mem.mpr (fun b hb => ?_)
      obtain ⟨q, -, hq⟩ := h.held b hb
      rw [hidle q] at hq
      contradiction
    exact {
      count := by rw [hpc, hout]; exact h.count
      committer := by rw [hpc, hc]; exact h.committer
      quiet := by rw [hc, hout]; exact h.quiet
      unique := by rw [hpc]; exact h.unique
      held := by rw [hdirty, hnil]; exact nofun
      down := fun _ => by rw [hpc]; exact hidle }

end Processes

end Xv6Rcu.Log

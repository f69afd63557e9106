import Xv6Rcu.LogStore

namespace Xv6Rcu.Log

open Transition Function List

variable {A : Area} {base : Nat → Block} {s t : State} {a : Act} {p : Nat}

section Atomicity

variable {o : Nat} {u : Update} {us vs : List Update}

theorem ofOp_append (o : Nat) (us vs : List Update) : ofOp o (us ++ vs) = ofOp o us ++ ofOp o vs :=
  filter_append us vs

theorem mem_ofOp : u ∈ ofOp o us ↔ u ∈ us ∧ u.op = o := by simp [ofOp]

theorem ofOp_eq_nil (h : ∀ u ∈ us, u.op ≠ o) : ofOp o us = [] := by
  refine eq_nil_iff_forall_not_mem.mpr (fun u hu => ?_)
  obtain ⟨hu, ho⟩ := mem_ofOp.mp hu
  exact h u hu ho

def Settled (s : State) (o : Nat) : Prop := ofOp o s.hist.flatten = ofOp o s.made

def Pending (s : State) (o : Nat) : Prop := ofOp o s.made = ofOp o s.cur ∧ ofOp o s.hist.flatten = []

structure Atomic (s : State) : Prop where
  fresh : ∀ u ∈ s.made, u.op < s.nextop
  live : ∀ p o bs, s.pc p = .op o bs → Pending s o ∧ o ∉ s.closing ∧ o ∉ s.durable ∧ o < s.nextop
  distinct : ∀ p q o bs cs, s.pc p = .op o bs → s.pc q = .op o cs → p = q
  ended : ∀ o ∈ s.closing, (Pending s o ∨ Settled s o) ∧ o < s.nextop
  durable : ∀ o ∈ s.durable, Settled s o ∧ o < s.nextop
  whole : ∀ u ∈ s.cur, Pending s u.op
  atomic : ∀ o, Settled s o ∨ ofOp o s.hist.flatten = []

theorem atomic_boot (d : Nat → Block) : Atomic (boot d) where
  fresh := nofun
  live := nofun
  distinct := nofun
  ended := nofun
  durable := nofun
  whole := nofun
  atomic := fun _ => .inl rfl

theorem atomic_congr (h : Atomic s) (hmade : t.made = s.made) (hcur : t.cur = s.cur) (hhist : t.hist = s.hist)
    (hclosing : t.closing = s.closing) (hdurable : t.durable = s.durable) (hnext : t.nextop = s.nextop)
    (hpc : ∀ p o bs, t.pc p = .op o bs → ∃ cs, s.pc p = .op o cs) : Atomic t := by
  have hpend (o : Nat) : Pending t o ↔ Pending s o := by rw [Pending, Pending, hmade, hcur, hhist]
  have hsett (o : Nat) : Settled t o ↔ Settled s o := by rw [Settled, Settled, hmade, hhist]
  constructor
  · rw [hmade, hnext]
    exact h.fresh
  · intro p o bs hp
    obtain ⟨cs, hp⟩ := hpc p o bs hp
    rw [hpend, hclosing, hdurable, hnext]
    exact h.live p o cs hp
  · intro p q o bs cs hp hq
    obtain ⟨bs', hp⟩ := hpc p o bs hp
    obtain ⟨cs', hq⟩ := hpc q o cs hq
    exact h.distinct p q o bs' cs' hp hq
  · simpa only [hclosing, hpend, hsett, hnext] using h.ended
  · simpa only [hdurable, hsett, hnext] using h.durable
  · simpa only [hcur, hpend] using h.whole
  · simpa only [hsett, hhist] using h.atomic

theorem pc_update {x : Pc} (hx : ∀ o bs, x = .op o bs → ∃ cs, s.pc p = .op o cs) (q o : Nat) (bs : List Nat)
    (hq : update s.pc p x q = .op o bs) : ∃ cs, s.pc q = .op o cs := by
  by_cases hqp : q = p
  · subst hqp
    rw [update_self] at hq
    exact hx o bs hq
  · rw [update_of_ne hqp] at hq
    exact ⟨bs, hq⟩

theorem pending_fresh (h : Atomic s) : Pending s s.nextop := by
  have hmade : ofOp s.nextop s.made = [] := ofOp_eq_nil (fun u hu => Nat.ne_of_lt (h.fresh u hu))
  have hcur : ofOp s.nextop s.cur = [] := by
    refine ofOp_eq_nil (fun u hu ho => ?_)
    have hm : u ∈ ofOp u.op s.made := (h.whole u hu).1 ▸ mem_ofOp.mpr ⟨hu, rfl⟩
    exact Nat.ne_of_lt (h.fresh u (mem_ofOp.mp hm).1) ho
  refine ⟨hmade.trans hcur.symm, ?_⟩
  rcases h.atomic s.nextop with hs | hs
  · exact hs.trans hmade
  · exact hs

theorem settled_commit (h : Atomic s) (ho : Pending s o ∨ Settled s o) :
    ofOp o (s.hist ++ [s.cur]).flatten = ofOp o s.made := by
  have hflat : (s.hist ++ [s.cur]).flatten = s.hist.flatten ++ s.cur := by simp
  rw [hflat, ofOp_append]
  rcases ho with ⟨hm, hh⟩ | hs
  · rw [hh, hm, nil_append]
  · by_cases hcur : ofOp o s.cur = []
    · rw [hcur, append_nil]
      exact hs
    · obtain ⟨u, hm⟩ := exists_mem_of_ne_nil _ hcur
      obtain ⟨hu, rfl⟩ := mem_ofOp.mp hm
      obtain ⟨hmade, hhist⟩ := h.whole u hu
      rw [hhist, hmade, nil_append]

theorem atomic_modify {bs : List Nat} (h : Atomic s) (hp : s.pc p = .op o bs) (b : Nat) (d : Block) :
    Atomic { s with
      buf := update s.buf b d
      dirty := b :: s.dirty
      made := s.made ++ [⟨o, b, d⟩]
      cur := s.cur ++ [⟨o, b, d⟩] } := by
  obtain ⟨⟨hmade, hhist⟩, hclosing, hdurable, hlt⟩ := h.live p o bs hp
  have hself : ofOp o [⟨o, b, d⟩] = [⟨o, b, d⟩] := by simp [ofOp]
  have hother {o' : Nat} (ho : o' ≠ o) : ofOp o' [⟨o, b, d⟩] = [] := by simp [ofOp, ho.symm]
  have hpend {o' : Nat} (ho : Pending s o') :
      ofOp o' (s.made ++ [⟨o, b, d⟩]) = ofOp o' (s.cur ++ [⟨o, b, d⟩]) ∧ ofOp o' s.hist.flatten = [] := by
    rw [ofOp_append, ofOp_append, ho.1]
    exact ⟨rfl, ho.2⟩
  have hsett {o' : Nat} (ho : o' ≠ o) (hs : Settled s o') :
      ofOp o' s.hist.flatten = ofOp o' (s.made ++ [⟨o, b, d⟩]) := by
    rw [ofOp_append, hother ho, append_nil]
    exact hs
  refine ⟨?_, ?_, h.distinct, ?_, ?_, ?_, ?_⟩
  · intro u hu
    rcases mem_append.mp hu with hu | hu
    · exact h.fresh u hu
    · rw [mem_singleton.mp hu]
      exact hlt
  · intro q o' cs hq
    obtain ⟨hP, hrest⟩ := h.live q o' cs hq
    exact ⟨hpend hP, hrest⟩
  · intro o' ho'
    obtain ⟨hP, hn⟩ := h.ended o' ho'
    exact ⟨hP.imp hpend (hsett (fun he => hclosing (he ▸ ho'))), hn⟩
  · intro o' ho'
    obtain ⟨hs, hn⟩ := h.durable o' ho'
    exact ⟨hsett (fun he => hdurable (he ▸ ho')) hs, hn⟩
  · intro u hu
    rcases mem_append.mp hu with hu | hu
    · exact hpend (h.whole u hu)
    · rw [mem_singleton.mp hu]
      exact hpend ⟨hmade, hhist⟩
  · intro o'
    by_cases ho : o' = o
    · exact .inr (ho ▸ hhist)
    · exact (h.atomic o').imp (hsett ho) id

theorem atomic_end {bs : List Nat} {x : Pc} (h : Atomic s) (hp : s.pc p = .op o bs) (hx : ∀ o' cs, x ≠ .op o' cs)
    (hmade : t.made = s.made) (hcur : t.cur = s.cur) (hhist : t.hist = s.hist)
    (hclosing : t.closing = o :: s.closing) (hdurable : t.durable = s.durable) (hnext : t.nextop = s.nextop)
    (hpc : t.pc = update s.pc p x) : Atomic t := by
  have hpend (o : Nat) : Pending t o ↔ Pending s o := by rw [Pending, Pending, hmade, hcur, hhist]
  have hsett (o : Nat) : Settled t o ↔ Settled s o := by rw [Settled, Settled, hmade, hhist]
  have hold {q o' : Nat} {cs : List Nat} (hq : t.pc q = .op o' cs) : q ≠ p ∧ s.pc q = .op o' cs := by
    rw [hpc] at hq
    by_cases hqp : q = p
    · rw [hqp, update_self] at hq
      exact absurd hq (hx o' cs)
    · exact ⟨hqp, by rwa [update_of_ne hqp] at hq⟩
  obtain ⟨hP, hnc, hnd, hlt⟩ := h.live p o bs hp
  constructor
  · rw [hmade, hnext]
    exact h.fresh
  · intro q o' cs hq
    obtain ⟨hqp, hq⟩ := hold hq
    obtain ⟨hP', hnc', hnd', hlt'⟩ := h.live q o' cs hq
    rw [hpend, hclosing, hdurable, hnext]
    refine ⟨hP', fun hm => ?_, hnd', hlt'⟩
    rcases mem_cons.mp hm with rfl | hm
    · exact hqp (h.distinct q p o' cs bs hq hp)
    · exact hnc' hm
  · intro q q' o' cs cs' hq hq'
    exact h.distinct q q' o' cs cs' (hold hq).2 (hold hq').2
  · intro o' ho'
    rw [hclosing] at ho'
    rw [hpend, hsett, hnext]
    rcases mem_cons.mp ho' with rfl | ho'
    · exact ⟨.inl hP, hlt⟩
    · exact h.ended o' ho'
  · simpa only [hdurable, hsett, hnext] using h.durable
  · simpa only [hcur, hpend] using h.whole
  · simpa only [hsett, hhist] using h.atomic

theorem atomic_commit_step {c : CommitPc} (hI : Inv A base s) (h : Atomic s) (hp : s.pc p = .commit c)
    (hu : commit A s p c = some t) : Atomic t := by
  have hop (q o : Nat) (bs : List Nat) : s.pc q ≠ .op o bs := by
    intro hq
    have hn := hI.procs.not_inOp (hI.procs.committer p c hp) q
    rw [hq] at hn
    contradiction
  have hnone {u : State} {x : Pc} (hpc : u.pc = update s.pc p x) (hx : ∀ o bs, x ≠ .op o bs) (q o : Nat)
      (bs : List Nat) : u.pc q ≠ .op o bs := by
    intro hq
    rw [hpc] at hq
    obtain ⟨cs, hq⟩ := pc_update (fun o' cs he => absurd he (hx o' cs)) q o bs hq
    exact hop q o cs hq
  have hplain (hmade : t.made = s.made) (hcur : t.cur = s.cur) (hhist : t.hist = s.hist)
      (hclosing : t.closing = s.closing) (hdurable : t.durable = s.durable) (hnext : t.nextop = s.nextop)
      (x : CommitPc) (hpc : t.pc = update s.pc p (.commit x)) : Atomic t :=
    atomic_congr h hmade hcur hhist hclosing hdurable hnext (fun q o bs hq => absurd hq (hnone hpc nofun q o bs))
  cases c with
  | writeHead =>
    cases hu
    refine ⟨h.fresh, fun q o bs hq => absurd hq (hnone (x := .commit (.install 0)) rfl nofun q o bs),
      fun q _ o bs _ hq => absurd hq (hnone (x := .commit (.install 0)) rfl nofun q o bs), ?_, ?_, nofun, ?_⟩
    · intro o ho
      obtain ⟨hP, hn⟩ := h.ended o ho
      exact ⟨.inr (settled_commit h hP), hn⟩
    · intro o ho
      obtain ⟨hs, hn⟩ := h.durable o ho
      exact ⟨settled_commit h (.inr hs), hn⟩
    · intro o
      by_cases hcur : ofOp o s.cur = []
      · rcases h.atomic o with hs | hs
        · exact .inl (settled_commit h (.inr hs))
        · refine .inr ?_
          change ofOp o (s.hist ++ [s.cur]).flatten = []
          rw [flatten_append, ofOp_append, hs]
          simpa using hcur
      · obtain ⟨u, hm⟩ := exists_mem_of_ne_nil _ hcur
        obtain ⟨hu, rfl⟩ := mem_ofOp.mp hm
        exact .inl (settled_commit h (.inl (h.whole u hu)))
  | finish =>
    obtain ⟨-, -, hcur, -⟩ := hI.phase p _ hp
    cases hu
    refine ⟨h.fresh, fun q o bs hq => absurd hq (hnone (x := .idle) rfl nofun q o bs),
      fun q _ o bs _ hq => absurd hq (hnone (x := .idle) rfl nofun q o bs), nofun, ?_, h.whole, h.atomic⟩
    intro o ho
    rcases mem_append.mp ho with ho | ho
    · obtain ⟨⟨hm, hh⟩ | hs, hn⟩ := h.ended o ho
      · -- The transaction is committed, so the operation has made no update.
        rw [hcur] at hm
        exact ⟨hh.trans hm.symm, hn⟩
      · exact ⟨hs, hn⟩
    · exact h.durable o ho
  | writeLog tail =>
    simp only [commit, writeLog] at hu
    repeat' split at hu
    all_goals cases hu
    all_goals exact hplain rfl rfl rfl rfl rfl rfl _ rfl
  | install tail =>
    simp only [commit, installTrans] at hu
    repeat' split at hu
    all_goals cases hu
    all_goals exact hplain rfl rfl rfl rfl rfl rfl _ rfl
  | _ =>
    cases hu
    exact hplain rfl rfl rfl rfl rfl rfl _ rfl

theorem atomic_step (hI : Inv A base s) (h : Atomic s) (hstep : step A s a = some t) : Atomic t := by
  cases step_moves hstep with
  | beginOp p hr hp hc hroom =>
    have hold {q o : Nat} {bs : List Nat} (hq : update s.pc p (.op s.nextop []) q = .op o bs) :
        (q = p ∧ o = s.nextop) ∨ s.pc q = .op o bs := by
      by_cases hqp : q = p
      · rw [hqp, update_self] at hq
        cases hq
        exact .inl ⟨hqp, rfl⟩
      · rw [update_of_ne hqp] at hq
        exact .inr hq
    refine ⟨fun u hu => Nat.lt_succ_of_lt (h.fresh u hu), ?_, ?_, ?_, ?_, h.whole, h.atomic⟩
    · intro q o bs hq
      rcases hold hq with ⟨-, rfl⟩ | hq
      · exact ⟨pending_fresh h, fun hm => lt_irrefl _ (h.ended _ hm).2,
          fun hm => lt_irrefl _ (h.durable _ hm).2, Nat.lt_succ_self _⟩
      · obtain ⟨hP, hnc, hnd, hlt⟩ := h.live q o bs hq
        exact ⟨hP, hnc, hnd, Nat.lt_succ_of_lt hlt⟩
    · intro q q' o bs cs hq hq'
      rcases hold hq with ⟨hqp, ho⟩ | hs <;> rcases hold hq' with ⟨hqp', ho'⟩ | hs'
      · exact hqp.trans hqp'.symm
      · exact absurd (ho ▸ (h.live q' o cs hs').2.2.2) (lt_irrefl _)
      · exact absurd (ho' ▸ (h.live q o bs hs).2.2.2) (lt_irrefl _)
      · exact h.distinct q q' o bs cs hs hs'
    · exact fun o ho => ⟨(h.ended o ho).1, Nat.lt_succ_of_lt (h.ended o ho).2⟩
    · exact fun o ho => ⟨(h.durable o ho).1, Nat.lt_succ_of_lt (h.durable o ho).2⟩
  | bread p b hr hb => exact { h with }
  | modify p b d o bs hr hp hb => exact atomic_modify h hp b d
  | full p b o bs e hr hp hb he =>
    exact atomic_congr h rfl rfl rfl rfl rfl rfl (pc_update (x := .stopped _) nofun)
  | absorb p b o bs hr hp hb hm =>
    refine atomic_congr h rfl rfl rfl rfl rfl rfl (pc_update (fun o' cs he => ?_))
    exact ⟨bs, (Pc.op.inj he).1 ▸ hp⟩
  | append p b o bs hr hp hb hm hlen =>
    refine atomic_congr h rfl rfl rfl rfl rfl rfl (pc_update (fun o' cs he => ?_))
    exact ⟨bs, (Pc.op.inj he).1 ▸ hp⟩
  | brelse p b hr hb => exact { h with }
  | endBusy p o bs hr hp hc =>
    exact atomic_congr h rfl rfl rfl rfl rfl rfl (pc_update (x := .stopped _) nofun)
  | endLast p o bs hr hp hc ho => exact atomic_end (x := .commit .start) h hp nofun rfl rfl rfl rfl rfl rfl rfl
  | endMore p o bs hr hp hc => exact atomic_end (x := .idle) h hp nofun rfl rfl rfl rfl rfl rfl rfl
  | commit p c hr hp hu => exact atomic_commit_step hI h hp hu
  | recycle b hr hb hpin => exact { h with }
  | crash => exact ⟨h.fresh, nofun, nofun, nofun, h.durable, nofun, h.atomic⟩
  | recover r hr hu =>
    cases r with
    | install tail =>
      simp only [recover, installTrans] at hu
      repeat' split at hu
      all_goals cases hu
      all_goals exact { h with }
    | _ =>
      cases hu
      exact { h with }

end Atomicity

section Result

theorem moves_idle (hm : Moves A s a t) (hdown : s.recovery ≠ none) (hidle : ∀ p, s.pc p = .idle) (p : Nat) :
    t.pc p = .idle := by
  cases hm with
  | recover rc hrc hu => exact (congrFun (recover_step hu).pc p).trans (hidle p)
  | crash => rfl
  | _ => exact absurd ‹s.recovery = none› hdown

/-- Crash atomicity: whenever a recovery completes, the disk outside of the log
has the content left by the committed transactions, which contain each operation
entirely or not at all, and every operation whose commit has returned. -/
theorem recovery_atomic (A : Area) (d : Nat → Block) (hd : d A.start 0 = 0) (r : Run (step A))
    (h0 : r.state 0 = boot d) (hr : r.Meets (Proper A)) (i : Nat) (hi : i < r.length)
    (hdown : (r.state i).recovery ≠ none) (hup : (r.state (i + 1)).recovery = none) :
    (∀ b, A.Outside b → (r.state (i + 1)).disk b = applyAll d (r.state (i + 1)).hist.flatten b) ∧
    (∀ o, ofOp o (r.state (i + 1)).hist.flatten = ofOp o (r.state (i + 1)).made ∨
      ofOp o (r.state (i + 1)).hist.flatten = []) ∧
    (∀ o ∈ (r.state (i + 1)).durable, ofOp o (r.state (i + 1)).hist.flatten = ofOp o (r.state (i + 1)).made) := by
  have hall : ∀ j ≤ r.length, Inv A d (r.state j) ∧ Atomic (r.state j) := by
    refine r.invariant (I := fun s => Inv A d s ∧ Atomic s) hr (h0 ▸ ⟨inv_boot d hd, atomic_boot d⟩) ?_
    exact fun s a t hI hok hstep => ⟨inv_step hI.1 hok hstep, atomic_step hI.1 hI.2 hstep⟩
  obtain ⟨hI, hA⟩ := hall (i + 1) hi
  refine ⟨fun b hb => ?_, hA.atomic, fun o ho => (hA.durable o ho).1⟩
  have hidle := moves_idle (step_moves (r.next i hi)) hdown ((hall i (le_of_lt hi)).1.procs.down hdown)
  have hR := hI.rest hup (fun p c hp => absurd ((hidle p).symm.trans hp) nofun)
  rw [← hI.store.recov b hb, recovered_of_empty hR.head]

/-- An operation changes block 40, and the machine crashes when the header has
been written and the block has not. -/
def crashAfterHead : Run (step mkfs) :=
  Run.ofExec (step mkfs) (boot (fun _ _ => 0))
    (List.replicate 4 Act.recover ++ [Act.beginOp 0, Act.bread 0 40, Act.modify 0 40 (fun _ => 7), Act.logWrite 0 40,
      Act.brelse 0 40, Act.endOp 0] ++ List.replicate 4 (Act.commit 0) ++ [Act.crash] ++ List.replicate 5 Act.recover) (by decide +kernel)

theorem recovery_atomic_crashAfterHead : (crashAfterHead.state 15).disk 40 0 = 0 ∧
    (crashAfterHead.state (19 + 1)).disk 40 0 = 7 ∧
    ∀ b, mkfs.Outside b → (crashAfterHead.state (19 + 1)).disk b =
      applyAll (fun _ _ => 0) (crashAfterHead.state (19 + 1)).hist.flatten b := by
  have hr : crashAfterHead.Meets (Proper mkfs) := by decide +kernel
  exact ⟨by decide +kernel, by decide +kernel,
    (recovery_atomic mkfs (fun _ _ => 0) rfl crashAfterHead Run.ofExec_start hr 19 (by decide)
      (by decide +kernel) (by decide +kernel)).1⟩

/-- While the system is up, the cache shows every block as the committed transactions and the current one have left
it; a buffer that is neither pinned nor being changed has what the disk has, so that it can be recycled; and nothing
else is going on during a commit. -/
theorem cache_current (A : Area) (d : Nat → Block) (hd : d A.start 0 = 0) (r : Run (step A)) (h0 : r.state 0 = boot d)
    (hr : r.Meets (Proper A)) (i : Nat) (hi : i ≤ r.length) :
    ((r.state i).recovery = none → ∀ b, A.Outside b →
      (r.state i).buf b = applyAll d ((r.state i).hist.flatten ++ (r.state i).cur) b) ∧
    (∀ b, (r.state i).pinned b = false → b ∉ (r.state i).dirty → (r.state i).buf b = (r.state i).disk b) ∧
    ∀ p c, (r.state i).pc p = .commit c → (r.state i).outstanding = 0 ∧ ∀ q e, (r.state i).pc q = .commit e → q = p := by
  have hI := inv_run d hd r h0 hr i hi
  refine ⟨hI.store.view, hI.store.coherent, fun p c hp => ⟨?_, fun q e hq => hI.procs.unique q p e c hq hp⟩⟩
  exact hI.procs.quiet (hI.procs.committer p c hp)

theorem cache_current_crashAfterHead : (crashAfterHead.state 20).buf 40 =
    applyAll (fun _ _ => 0) ((crashAfterHead.state 20).hist.flatten ++ (crashAfterHead.state 20).cur) 40 :=
  (cache_current mkfs (fun _ _ => 0) rfl crashAfterHead Run.ofExec_start (by decide +kernel) 20 (by decide)).1
    (by decide +kernel) 40 (by decide)

end Result

end Xv6Rcu.Log

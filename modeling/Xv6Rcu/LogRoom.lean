import Xv6Rcu.LogStore

namespace Xv6Rcu.Log

open Transition Threads Function List

variable {A : Area} {base : Nat → Block} {s t : State} {a : Act} {p b k : Nat} {ps : Finset Nat}

section Definitions

/-- With block `b`, the operation has at most `k` distinct blocks in the log. -/
def Adds (k b : Nat) : Pc → Prop
  | .op _ bs => b ∈ bs ∨ bs.length < k
  | _ => True

instance (k b : Nat) (x : Pc) : Decidable (Adds k b x) :=
  match x with
  | .op _ bs => inferInstanceAs (Decidable (b ∈ bs ∨ bs.length < k))
  | .idle | .commit _ | .stopped _ => inferInstanceAs (Decidable True)

/-- An operation passes at most `k` distinct blocks to `log_write`. -/
def Limited (k : Nat) (s : State) : Act → Prop
  | .logWrite p b => Adds k b (s.pc p)
  | _ => True

instance (k : Nat) (s : State) (a : Act) : Decidable (Limited k s a) :=
  match a with
  | .logWrite p b => inferInstanceAs (Decidable (Adds k b (s.pc p)))
  | .beginOp _ | .bread _ _ | .modify _ _ _ | .brelse _ _ | .endOp _ | .commit _ | .recycle _ | .crash
  | .recover => inferInstanceAs (Decidable True)

def left (k : Nat) : Pc → Nat
  | .op _ bs => k - bs.length
  | _ => 0

/-- The log has room for all that the operations under way can still add, with
a block to spare. -/
structure Room (k : Nat) (s : State) : Prop where
  reserve : ∃ ps : Finset Nat, (∀ p, p ∈ ps ↔ inOp (s.pc p) = true) ∧ s.outstanding = ps.card ∧
    (s.recovery = none → s.lh.length + ∑ p ∈ ps, left k (s.pc p) ≤ LOGSIZE - 2)
  blocks : ∀ p o bs, s.pc p = .op o bs → ∀ b ∈ bs, b ∈ s.lh
  runs : ∀ p e, s.pc p ≠ .stopped e

end Definitions

section Sums

theorem sum_left (hp : p ∈ ps) (pc : Nat → Pc) (x : Pc) :
    ∑ q ∈ ps, left k (update pc p x q) + left k (pc p) = ∑ q ∈ ps, left k (pc q) + left k x := by
  have hrest : ∑ q ∈ ps.erase p, left k (update pc p x q) = ∑ q ∈ ps.erase p, left k (pc q) := by
    apply Finset.sum_congr rfl
    intro q hq
    rw [update_of_ne (Finset.ne_of_mem_erase hq)]
  rw [← Finset.add_sum_erase ps _ hp, ← Finset.add_sum_erase ps (fun q => left k (pc q)) hp, hrest,
    update_self]
  omega

theorem sum_left_of_notMem (hp : p ∉ ps) (pc : Nat → Pc) (x : Pc) :
    ∑ q ∈ ps, left k (update pc p x q) = ∑ q ∈ ps, left k (pc q) := by
  apply Finset.sum_congr rfl
  intro q hq
  rw [update_of_ne (fun (he : q = p) => hp (he ▸ hq))]

theorem left_op (o : Nat) (bs : List Nat) : left k (.op o bs) = k - bs.length := rfl

theorem left_le (x : Pc) : left k x ≤ k := by
  cases x with
  | op o bs => exact Nat.sub_le k bs.length
  | _ => exact Nat.zero_le k

theorem sum_left_le (pc : Nat → Pc) : ∑ q ∈ ps, left k (pc q) ≤ ps.card * k := by
  exact Finset.sum_le_card_nsmul ps _ k (fun q _ => left_le _)

end Sums

section Steps

theorem room_boot (d : Nat → Block) : Room k (boot d) where
  reserve := ⟨∅, fun p => by simp [boot, inOp], rfl, nofun⟩
  blocks := nofun
  runs := nofun

theorem room_quiet (hn : ∀ p, inOp (t.pc p) = false) (ho : t.outstanding = 0)
    (hl : t.recovery = none → t.lh.length ≤ LOGSIZE - 2) (hs : ∀ p e, t.pc p ≠ .stopped e) : Room k t where
  reserve := ⟨∅, fun p => by simp [hn p], ho, by simpa using hl⟩
  blocks := by
    intro p o bs hp
    have hx := hn p
    rw [hp] at hx
    contradiction
  runs := hs

theorem runs_update {x : Pc} (hs : ∀ p e, s.pc p ≠ .stopped e) (hx : ∀ e, x ≠ .stopped e) (q : Nat) (e : Panic) :
    update s.pc p x q ≠ .stopped e := by
  exact update_cases q (hx e) (fun _ => hs q e)

theorem room_logWrite {o : Nat} {bs ls : List Nat} (h : Room k s) (hr : s.recovery = none)
    (hp : s.pc p = .op o bs) (hlim : b ∈ bs ∨ bs.length < k) (hls : ∀ b' ∈ s.lh, b' ∈ ls) (hb : b ∈ ls)
    (hlen : ls.length ≤ s.lh.length + (if b ∈ s.lh then 0 else 1))
    (hpc : t.pc = update s.pc p (.op o (if b ∈ bs then bs else b :: bs))) (hlh : t.lh = ls)
    (hout : t.outstanding = s.outstanding) : Room k t := by
  obtain ⟨ps, hps, hcard, hsum⟩ := h.reserve
  have hmem : p ∈ ps := (hps p).mpr (by rw [hp]; rfl)
  have hold := hsum hr
  have hnew := sum_left (k := k) hmem s.pc (.op o (if b ∈ bs then bs else b :: bs))
  refine ⟨⟨ps, fun q => ?_, hout.trans hcard, fun _ => ?_⟩, ?_, ?_⟩
  · rw [hpc, same_update (f := inOp) rfl (by rw [hp]; rfl)]
    exact hps q
  · rw [hlh, hpc]
    rw [hp] at hnew
    by_cases hbs : b ∈ bs
    · have hm := h.blocks p o bs hp b hbs
      rw [if_pos hm] at hlen
      rw [if_pos hbs] at hnew ⊢
      omega
    · have hlt := hlim.resolve_left hbs
      rw [if_neg hbs] at hnew ⊢
      rw [left_op, left_op, length_cons] at hnew
      split at hlen <;> omega
  · intro q o' bs' hq
    rw [hpc] at hq
    rw [hlh]
    by_cases hqp : q = p
    · rw [hqp, update_self] at hq
      cases hq
      intro b' hb'
      split at hb'
      · exact hls b' (h.blocks p _ bs hp b' hb')
      · rcases mem_cons.mp hb' with rfl | hb'
        · exact hb
        · exact hls b' (h.blocks p _ bs hp b' hb')
    · rw [update_of_ne hqp] at hq
      exact fun b' hb' => hls b' (h.blocks q o' bs' hq b' hb')
  · rw [hpc]
    exact runs_update h.runs nofun

theorem room_end {x : Pc} (h : Room k s) (hr : s.recovery = none) (hp : inOp (s.pc p) = true) (hx : inOp x = false)
    (hs : ∀ e, x ≠ .stopped e) (hpc : t.pc = update s.pc p x) (hlh : t.lh = s.lh)
    (hout : t.outstanding = s.outstanding - 1) : Room k t := by
  obtain ⟨ps, hps, hcard, hsum⟩ := h.reserve
  have hmem : p ∈ ps := (hps p).mpr hp
  refine ⟨⟨ps.erase p, fun q => ?_, ?_, fun _ => ?_⟩, ?_, ?_⟩
  · rw [hpc]
    by_cases hqp : q = p
    · simp [hqp, hx]
    · simp [hqp, hps]
  · rw [hout, hcard, Finset.card_erase_of_mem hmem]
  · rw [hlh, hpc, sum_left_of_notMem (Finset.notMem_erase p ps)]
    have hle := Finset.add_sum_erase ps (fun q => left k (s.pc q)) hmem
    have hold := hsum hr
    omega
  · intro q o bs hq
    rw [hpc] at hq
    rw [hlh]
    by_cases hqp : q = p
    · rw [hqp, update_self] at hq
      rw [hq] at hx
      contradiction
    · rw [update_of_ne hqp] at hq
      exact h.blocks q o bs hq
  · rw [hpc]
    exact runs_update h.runs hs

theorem room_begin (h : Room (MAXOPBLOCKS - 2) s) (hp : s.pc p = .idle)
    (hroom : s.lh.length + (s.outstanding + 1) * MAXOPBLOCKS ≤ LOGSIZE) :
    Room (MAXOPBLOCKS - 2) { s with
      outstanding := s.outstanding + 1
      pc := update s.pc p (.op s.nextop [])
      nextop := s.nextop + 1 } := by
  obtain ⟨ps, hps, hcard, -⟩ := h.reserve
  have hmem : p ∉ ps := by simp [hps, hp, inOp]
  refine ⟨⟨insert p ps, fun q => ?_, ?_, fun _ => ?_⟩, ?_, runs_update h.runs nofun⟩
  · by_cases hqp : q = p
    · simp [hqp, inOp]
    · simp [hqp, hps]
  · rw [Finset.card_insert_of_notMem hmem, hcard]
  · have hle : ∑ q ∈ ps, left (MAXOPBLOCKS - 2) (s.pc q) ≤ ps.card * (MAXOPBLOCKS - 2) := sum_left_le s.pc
    have hself : left (MAXOPBLOCKS - 2) (update s.pc p (.op s.nextop []) p) = MAXOPBLOCKS - 2 := by
      rw [update_self, left_op, length_nil, Nat.sub_zero]
    rw [Finset.sum_insert hmem, sum_left_of_notMem hmem, hself]
    rw [hcard] at hroom
    simp only [MAXOPBLOCKS, LOGSIZE] at hle hroom ⊢
    omega
  · intro q o bs hq
    by_cases hqp : q = p
    · subst hqp
      simp only [update_self, Pc.op.injEq] at hq
      rw [← hq.2]
      exact nofun
    · exact h.blocks q o bs (by simpa [hqp] using hq)

theorem room_step (hI : Inv mkfs base s) (h : Room (MAXOPBLOCKS - 2) s)
    (hlim : Limited (MAXOPBLOCKS - 2) s a) (hstep : step mkfs s a = some t) : Room (MAXOPBLOCKS - 2) t := by
  have hm := step_moves hstep
  cases hm with
  | beginOp p hr hp hc hroom => exact room_begin h hp hroom
  | bread p b hr hb => exact { h with }
  | modify p b d o bs hr hp hb => exact { h with }
  | full p b o bs e hr hp hb he =>
    obtain ⟨ps, hps, hcard, hsum⟩ := h.reserve
    have hmem : p ∈ ps := (hps p).mpr (by rw [hp]; rfl)
    have hpos : 0 < ps.card := Finset.card_pos.mpr ⟨p, hmem⟩
    have hroom := hsum hr
    simp only [MAXOPBLOCKS, LOGSIZE, mkfs] at he hroom
    rcases he with ⟨-, he⟩ | ⟨-, he⟩ <;> omega
  | absorb p b o bs hr hp hb hm =>
    have hlim' : b ∈ bs ∨ bs.length < MAXOPBLOCKS - 2 := by simpa only [Limited, Adds, hp] using hlim
    exact room_logWrite h hr hp hlim' (fun _ hb' => hb') hm (Nat.le_add_right _ _) rfl rfl rfl
  | append p b o bs hr hp hb hm hlen =>
    have hlim' : b ∈ bs ∨ bs.length < MAXOPBLOCKS - 2 := by simpa only [Limited, Adds, hp] using hlim
    exact room_logWrite h hr hp hlim' (fun _ hb' => mem_append_left _ hb')
      (mem_append_right _ (mem_singleton_self b)) (by simp [hm]) rfl rfl rfl
  | brelse p b hr hb => exact { h with }
  | endBusy p o bs hr hp hc =>
    have hn := hI.procs.not_inOp hc p
    rw [hp] at hn
    contradiction
  | endLast p o bs hr hp hc ho =>
    exact room_end (x := .commit .start) h hr (by rw [hp]; rfl) rfl (by rintro _ ⟨⟩) rfl rfl rfl
  | endMore p o bs hr hp hc => exact room_end (x := .idle) h hr (by rw [hp]; rfl) rfl (by rintro _ ⟨⟩) rfl rfl rfl
  | commit p c hr hp hu =>
    have hcom := hI.procs.committer p c hp
    have hno := hI.procs.not_inOp hcom
    obtain ⟨hpc, hout, -, -, -⟩ := commit_step hu
    have hlh : t.lh = s.lh ∨ t.lh = [] := by
      cases c with
      | writeLog tail =>
        simp only [commit, writeLog] at hu
        repeat' split at hu
        all_goals cases hu
        all_goals exact .inl rfl
      | install tail =>
        simp only [commit, installTrans] at hu
        repeat' split at hu
        all_goals cases hu
        all_goals exact .inl rfl
      | clear =>
        cases hu
        exact .inr rfl
      | _ =>
        cases hu
        exact .inl rfl
    obtain ⟨x, hpc, hx, hxs⟩ : ∃ x, t.pc = update s.pc p x ∧ inOp x = false ∧ ∀ e, x ≠ .stopped e := by
      rcases hpc with ⟨-, hpc, -⟩ | ⟨c', hpc, -⟩
      · exact ⟨.idle, hpc, rfl, (by rintro _ ⟨⟩)⟩
      · exact ⟨.commit c', hpc, rfl, (by rintro _ ⟨⟩)⟩
    refine room_quiet (fun q => ?_) (hout.trans (hI.procs.quiet hcom)) (fun _ => ?_) (fun q e => ?_)
    · rw [hpc, same_update (f := inOp) rfl (hx.trans (hno p).symm)]
      exact hno q
    · obtain ⟨ps, -, -, hsum⟩ := h.reserve
      have hroom := hsum hr
      rcases hlh with hlh | hlh
      · rw [hlh]
        omega
      · rw [hlh]
        exact Nat.zero_le _
    · rw [hpc]
      exact runs_update h.runs hxs q e
  | recycle b hr hb hpin => exact { h with }
  | crash => exact { room_boot s.disk with }
  | recover r hr hu =>
    have hidle := hI.procs.down (hr ▸ (by rintro ⟨⟩))
    have hstep' := recover_step hu
    have ht (q : Nat) : t.pc q = .idle := (congrFun hstep'.pc q).trans (hidle q)
    have hout : s.outstanding = 0 := by
      obtain ⟨ps, hps, hcard⟩ := hI.procs.count
      have hnil : ps = ∅ := Finset.eq_empty_of_forall_notMem (fun q hq => by
        have hx := (hps q).mp hq
        rw [hidle q] at hx
        contradiction)
      rw [hcard, hnil]
      rfl
    refine room_quiet (fun q => by rw [ht q]; rfl) (hstep'.outstanding.trans hout) (fun hn => ?_)
      (fun q e => by rw [ht q]; rintro ⟨⟩)
    cases r with
    | writeHead =>
      obtain ⟨-, -, hl, -⟩ := hI.recovering _ hr
      cases hu
      change s.lh.length ≤ _
      rw [hl]
      exact Nat.zero_le _
    | install tail =>
      simp only [recover, installTrans] at hu
      repeat' split at hu
      all_goals cases hu
      · cases hn
      · cases hn
    | _ =>
      cases hu
      cases hn

end Steps

section Result

/-- The schedule in which process `p` passes `m` blocks of its own to the log. -/
def logs (p m : Nat) : List Act :=
  (List.range m).flatMap (fun j => [.bread p (50 + 10 * p + j), .logWrite p (50 + 10 * p + j),
    .brelse p (50 + 10 * p + j)])

def threeOperations : Run (step mkfs) :=
  Run.ofExec (step mkfs) (boot (fun _ _ => 0))
    (List.replicate 4 Act.recover ++ [Act.beginOp 0, Act.beginOp 1, Act.beginOp 2] ++ logs 0 8 ++ logs 1 8 ++ logs 2 8)
    (by decide +kernel)

/-- Three operations of `MAXOPBLOCKS` blocks each, up to the last block. -/
def thirtyBlocks : Run (step mkfs) :=
  Run.ofExec (step mkfs) (boot (fun _ _ => 0))
    (List.replicate 4 Act.recover ++ [Act.beginOp 0, Act.beginOp 1, Act.beginOp 2] ++ logs 0 10 ++ logs 1 10 ++ logs 2 9 ++
      [Act.bread 2 79, Act.logWrite 2 79]) (by decide +kernel)

end Result

end Xv6Rcu.Log

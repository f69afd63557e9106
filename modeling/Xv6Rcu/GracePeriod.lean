import Xv6Rcu.KernelSteps

namespace Xv6Rcu.GracePeriod

open Transition Kernel KernelThread KernelInv KernelSteps List

variable {n h g p q : Nat} {s t : State} {a : Act} {c : SyncCall}

section Rounds

variable {x y : Local} {f : Frame} {rest base : List Frame} {W : Nat → Nat → Prop}

theorem pop_proc (x : Local) (code : List Frame) :
    (x.pop (fun y => y.goto code)).proc = x.proc ∨
      (x.pop (fun y => y.goto code)).proc = { x.proc with code := code } := by
  unfold Local.pop
  split
  · exact .inl rfl
  · exact .inr rfl

theorem take_proc {l : LockId} {code : List Frame} (hy : x.take h l code = some y) :
    y.proc = x.proc ∨ y.proc = { x.proc with code := code } := by
  unfold Local.take at hy
  split at hy
  · cases hy
    exact .inr rfl
  · split at hy
    · cases hy
      exact .inl rfl
    · contradiction

theorem drop_proc (x : Local) (h : Nat) (l : LockId) (code : List Frame) :
    (x.drop h l code).proc = x.proc ∨ (x.drop h l code).proc = { x.proc with code := code } := by
  unfold Local.drop
  split
  · exact pop_proc { x with lock := Function.update x.lock l none } code
  · exact .inl rfl

/-- The places of a leaving routine behind its switch to the scheduler. -/
def resumed : LeavePc → Bool
  | .resume _ | .release => true
  | _ => false

inductive LeaveTo (q : Nat) (k : Leave) (pc : LeavePc) (rest : List Frame) (x y : Local) : Prop
  | stay (hcode : y.proc.code = x.proc.code)
  | go (pc' : LeavePc) (hcode : y.proc.code = .leave k pc' :: rest)
      (hres : resumed pc' = true → resumed pc = true ∨ y.ctx = .sched (.release q))
  | done (hpc : pc = .release) (hcode : y.proc.code = k.after ++ rest)

theorem leave_to {k : Leave} {pc : LeavePc} (hy : leaveStep h q x k rest pc = some y) :
    y.proc.affinity = x.proc.affinity ∧ LeaveTo q k pc rest x y := by
  have hgo : ∀ pc', resumed pc' = false →
      y.proc = x.proc ∨ y.proc = { x.proc with code := .leave k pc' :: rest } →
      y.proc.affinity = x.proc.affinity ∧ LeaveTo q k pc rest x y := by
    intro pc' hpc' hy
    rcases hy with hy | hy
    · exact ⟨by rw [hy], .stay (by rw [hy])⟩
    · exact ⟨by rw [hy], .go pc' (by rw [hy]) (fun hr => absurd (hpc'.symm.trans hr) Bool.false_ne_true)⟩
  cases pc with
  | enter =>
    cases hy
    exact hgo .entered rfl (.inr rfl)
  | entered =>
    cases hy
    exact hgo .acquire rfl (pop_proc x _)
  | acquire =>
    cases hy
    exact hgo .spin rfl (.inr rfl)
  | spin => exact hgo .first rfl (take_proc hy)
  | first =>
    cases k with
    | sleep lk =>
      cases hy
      exact hgo .second rfl (drop_proc x h _ _)
    | exit =>
      cases hy
      exact ⟨rfl, .go .second rfl nofun⟩
    | _ =>
      cases hy
      exact ⟨rfl, .go .schedEnter rfl nofun⟩
  | second =>
    cases k with
    | sleep lk =>
      cases hy
      exact ⟨rfl, .go .schedEnter rfl nofun⟩
    | exit =>
      cases hy
      exact hgo .schedEnter rfl (drop_proc x h _ _)
    | _ => contradiction
  | schedEnter =>
    cases hy
    exact hgo .schedEntered rfl (.inr rfl)
  | schedEntered =>
    cases hy
    exact hgo .sched rfl (pop_proc x _)
  | sched =>
    cases hy
    unfold schedOut
    split
    · exact ⟨rfl, .stay rfl⟩
    split
    · exact ⟨rfl, .stay rfl⟩
    split
    · exact ⟨rfl, .stay rfl⟩
    split
    · exact ⟨rfl, .stay rfl⟩
    · exact ⟨rfl, .go _ rfl (fun _ => .inr rfl)⟩
  | resume b =>
    cases k with
    | exit =>
      cases hy
      exact ⟨rfl, .stay rfl⟩
    | _ =>
      cases hy
      exact ⟨rfl, .go .release rfl (fun _ => .inl rfl)⟩
  | release =>
    cases hy
    rcases drop_proc x h (.proc q) (k.after ++ rest) with hy | hy
    · exact ⟨by rw [hy], .stay (by rw [hy])⟩
    · exact ⟨by rw [hy], .done rfl (by rw [hy])⟩

/-- The frames of an interrupt handler, and of the `myproc` before the loop. -/
def isTrap : Frame → Bool
  | .nop | .myproc _ | .lock _ _ | .unlock _ | .leave .yield _ | .timerCheck _ | .trapRet => true
  | _ => false

theorem trap_exec (hf : isTrap f = true) (hcode : x.proc.code = f :: rest)
    (hy : execFrame h q x rest f = some y) : y.proc.affinity = x.proc.affinity ∧
      ∃ pre, y.proc.code = pre ++ rest ∧ ∀ g ∈ pre, isTrap g = true := by
  have hgo : ∀ (pre : List Frame), (∀ g ∈ pre, isTrap g = true) →
      y.proc = x.proc ∨ y.proc = { x.proc with code := pre ++ rest } →
      y.proc.affinity = x.proc.affinity ∧ ∃ pre, y.proc.code = pre ++ rest ∧ ∀ g ∈ pre, isTrap g = true := by
    intro pre hpre hy
    rcases hy with hy | hy
    · exact ⟨by rw [hy], [f], by rw [hy]; exact hcode, by simpa using hf⟩
    · exact ⟨by rw [hy], pre, by rw [hy], hpre⟩
  cases f with
  | nop =>
    cases hy
    exact hgo [] nofun (.inr rfl)
  | myproc b =>
    cases b with
    | false =>
      cases hy
      exact hgo [.myproc true] (by simp [isTrap]) (.inr rfl)
    | true =>
      cases hy
      exact hgo [] nofun (pop_proc x rest)
  | lock i b =>
    cases b with
    | false =>
      cases hy
      exact hgo [.lock i true] (by simp [isTrap]) (.inr rfl)
    | true => exact hgo [] nofun (take_proc hy)
  | unlock i =>
    cases hy
    exact hgo [] nofun (drop_proc x h _ rest)
  | timerCheck b =>
    cases b with
    | false =>
      cases hy
      exact hgo [.timerCheck true] (by simp [isTrap]) (.inr rfl)
    | true =>
      by_cases hr : x.proc.state = .running
      · simp only [execFrame, if_pos hr] at hy
        cases hy
        exact hgo [.leave .yield .enter] (by simp [isTrap]) (pop_proc x _)
      · simp only [execFrame, if_neg hr] at hy
        cases hy
        exact hgo [] nofun (pop_proc x rest)
  | trapRet =>
    cases hy
    exact hgo [] nofun (.inr rfl)
  | leave k pc =>
    cases k with
    | yield =>
      obtain ⟨haff, hto⟩ := leave_to hy
      refine ⟨haff, ?_⟩
      cases hto with
      | stay hstay => exact ⟨[.leave .yield pc], hstay.trans hcode, by simp [isTrap]⟩
      | go pc' hcode' _ => exact ⟨[.leave .yield pc'], hcode', by simp [isTrap]⟩
      | done _ hcode' => exact ⟨[], hcode', nofun⟩
    | _ => contradiction
  | _ => contradiction

/-- The loop of a grace period at the frame `f`: when it has come to hart `k`
the sections `W` that are still open are on `k` or later harts, and when the
process runs again after its `yield` they are behind `k`. -/
inductive Round (c : SyncCall) (W : Nat → Nat → Prop) (aff : Int) (hosted : Prop) : Frame → Prop
  | loop (k : Nat) (hw : ∀ q h, W q h → k ≤ h) : Round c W aff hosted (.syncLoop c k)
  | leave (k : Nat) (pc : LeavePc) (haff : aff = k) (hw : ∀ q h, W q h → k ≤ h)
      (hres : resumed pc = true → hosted → ∀ q h, W q h → k < h) :
      Round c W aff hosted (.leave (.sync c k) pc)

def Waits (c : SyncCall) (base : List Frame) (W : Nat → Nat → Prop) (s : State) (p : Nat) : Prop :=
  ∃ pre f, (s.proc p).code = pre ++ f :: base ∧ (∀ g ∈ pre, isTrap g = true) ∧
    Round c W (s.proc p).affinity (Hosted s p) f

theorem Round.mono {W' : Nat → Nat → Prop} {aff : Int} {hosted hosted' : Prop}
    (hr : Round c W aff hosted f) (hW : ∀ q h, W' q h → W q h)
    (hh : hosted' → hosted) : Round c W' aff hosted' f := by
  cases hr with
  | loop k hw => exact .loop k (fun q h hq => hw q h (hW q h hq))
  | leave k pc haff hw hres =>
    exact .leave k pc haff (fun q h hq => hw q h (hW q h hq))
      (fun hpc hd q h hq => hres hpc (hh hd) q h (hW q h hq))

theorem Round.hosted {aff : Int} (hr : Round c W aff (Hosted s p) f)
    (hW : ∀ q h, W q h → (s.hart h).ctx = .thread q) (hg : (s.hart g).ctx = .sched (.swtch p))
    (hadm : aff = -1 ∨ aff = g) : Round c W aff True f := by
  cases hr with
  | loop k hw => exact .loop k hw
  | leave k pc haff hw hres =>
    refine .leave k pc haff hw (fun _ _ q h hq => ?_)
    obtain rfl : k = g := by omega
    refine Nat.lt_of_le_of_ne (hw q h hq) ?_
    rintro rfl
    exact absurd (hg.symm.trans (hW q k hq)) nofun

theorem waits_rest (hi : Inv s) (hs : step n s a = some t)
    (hW : ∀ q h, W q h → (s.hart h).ctx = .thread q) (hcode : (t.proc p).code = (s.proc p).code)
    (haff : (t.proc p).affinity = (s.proc p).affinity) (hw : Waits c base W s p) : Waits c base W t p := by
  obtain ⟨pre, f, hpre, htrap, hr⟩ := hw
  refine ⟨pre, f, hcode.trans hpre, htrap, ?_⟩
  rw [haff]
  by_cases hh : Hosted s p
  · exact hr.mono (fun _ _ hq => hq) (fun _ => hh)
  by_cases ht : Hosted t p
  · obtain ⟨g, hg⟩ := ht
    rcases ctx_step hi hs hg with hgs | ⟨-, hgs⟩
    · exact absurd ⟨g, hgs⟩ hh
    · exact (hr.hosted hW hgs (hi.sched g _ hgs).2.2.1).mono (fun _ _ hq => hq) (fun _ => trivial)
  · exact hr.mono (fun _ _ hq => hq) (fun ht' => absurd ht' ht)

theorem round_exec (hi : Inv s) (hc : (s.hart h).ctx = .thread p)
    (hcode : (s.proc p).code = f :: base) (hy : execFrame h p (s.view h p) base f = some y)
    (hr : Round c W (s.proc p).affinity (Hosted s p) f) :
    (∀ q h, W q h → c.bound ≤ h) ∨ Waits c base W (s.commit h p y) p := by
  cases hr with
  | loop k hw =>
    simp only [execFrame] at hy
    split at hy
    · cases hy
      refine .inr ⟨[], .leave (.sync c k) .enter, ?_, (by intros; contradiction), ?_⟩
      · rw [commit_proc]
        rfl
      · rw [commit_proc]
        exact .leave k .enter rfl hw (by intros; contradiction)
    · rename_i hk
      exact .inl (fun q h hq => le_trans (Nat.le_of_not_lt hk) (hw q h hq))
  | leave k pc haff hw hres =>
    obtain ⟨haff', hto⟩ := leave_to hy
    refine .inr ?_
    unfold Waits
    rw [commit_proc, haff']
    cases hto with
    | stay hcode' =>
      exact ⟨[], _, hcode'.trans hcode, (by intros; contradiction), .leave k pc haff hw (fun hpc _ => hres hpc ⟨h, hc⟩)⟩
    | go pc' hcode' hres' =>
      refine ⟨[], _, hcode', (by intros; contradiction), .leave k pc' haff hw (fun hpc' hhosted => ?_)⟩
      rcases hres' hpc' with hpc | hctx
      · exact hres hpc ⟨h, hc⟩
      · obtain ⟨g, hg⟩ := hhosted
        by_cases hgh : g = h
        · subst hgh
          rw [commit_hart] at hg
          exact absurd (hctx.symm.trans hg) (by rintro ⟨⟩)
        · rw [commit_hart_of_ne s p y hgh] at hg
          exact absurd (hi.one g h p hg hc) hgh
    | done hpc hcode' =>
      exact ⟨[], _, hcode', (by intros; contradiction), .loop (k + 1) (hres (by rw [hpc]; rfl) ⟨h, hc⟩)⟩

theorem isTrap_kernelTimer (h : Nat) : ∀ g ∈ kernelTimer h, isTrap g = true := by
  unfold kernelTimer devintr
  split <;> simp [isTrap]

theorem waits_step (hi : Inv s) (hs : step n s a = some t)
    (hW : ∀ q h, W q h → (s.hart h).ctx = .thread q) (hw : Waits c base W s p) :
    (∀ q h, W q h → c.bound ≤ h) ∨ Waits c base W t p := by
  cases changes_step hi hs p with
  | rest hcode hdepth haff => exact .inr (waits_rest hi hs hW hcode haff hw)
  | @exec h f rest y ha hp hc hcode hy ht =>
    subst ht
    obtain ⟨pre, f', hpre, htrap, hr⟩ := hw
    rw [hcode] at hpre
    cases pre with
    | nil =>
      cases hpre
      exact round_exec hi hc hcode hy hr
    | cons g pre =>
      cases hpre
      obtain ⟨haff, pre', hcode', htrap'⟩ := trap_exec (htrap f mem_cons_self) hcode hy
      refine .inr ⟨pre' ++ pre, f', ?_, ?_, ?_⟩
      · rw [commit_proc, hcode', append_assoc]
        rfl
      · intro g hg
        rcases mem_append.mp hg with hg | hg
        · exact htrap' g hg
        · exact htrap g (mem_cons_of_mem f hg)
      · rw [commit_proc, haff]
        exact hr.mono (fun _ _ hq => hq) (fun _ => ⟨h, hc⟩)
  | user hcode ht =>
    obtain ⟨pre, f, hpre, -⟩ := hw
    rw [hcode] at hpre
    simp at hpre
  | @timer h hc ht =>
    obtain ⟨pre, f, hpre, htrap, hr⟩ := hw
    refine .inr ⟨kernelTimer h ++ pre, f, ?_, ?_, ?_⟩
    · rw [ht, append_assoc, ← hpre]
    · intro g hg
      rcases mem_append.mp hg with hg | hg
      · exact isTrap_kernelTimer h g hg
      · exact htrap g hg
    · rw [ht]
      exact hr.mono (fun _ _ hq => hq) (fun _ => ⟨h, hc⟩)
  | fork hnot hstate ht =>
    obtain ⟨pre, f, hpre, htrap, hr⟩ := hw
    cases hi.parked p hnot with
    | unused hcode _ _ =>
      rw [hcode] at hpre
      simp at hpre
    | stopped k pc code hcode _ _ _ _ hlive =>
      obtain rfl : k = .exit := hlive.resolve_right (fun hl => hl.1 hstate)
      rw [hcode] at hpre
      cases pre with
      | nil =>
        cases hpre
        contradiction
      | cons g pre =>
        cases hpre
        exact absurd (htrap _ mem_cons_self) nofun

end Rounds

def Begins (s : State) (a : Act) (c : SyncCall) (p : Nat) : Prop :=
  ∃ h rest, a = .exec h ∧ (s.hart h).ctx = .thread p ∧ (s.proc p).code = .syncCall c :: rest

def Returns (s : State) (a : Act) (c : SyncCall) (p : Nat) : Prop :=
  ∃ h rest, a = .exec h ∧ (s.hart h).ctx = .thread p ∧ (s.proc p).code = .syncRet c :: rest

/-- Whenever a call returns, every section that was open when it started has
been closed in between. -/
def Guarantee (n : Nat) (c : SyncCall) : Prop :=
  ∀ r : Run (step n), r.state 0 = boot → ∀ i j p, i < j → j < r.length →
    Begins (r.state i) (r.act i) c p → Returns (r.state j) (r.act j) c p →
    ∀ q, 0 < ((r.state i).proc q).depth → ∃ k, i ≤ k ∧ k ≤ j ∧ ((r.state k).proc q).depth = 0

section Runs

variable (r : Run (step n)) {i j : Nat}

/-- A section of `q` on hart `h` that was open at time `i` and has not been
closed until time `j`. -/
def OpenSince (i j q h : Nat) : Prop :=
  ((r.state i).hart h).ctx = .thread q ∧ ∀ k, i ≤ k → k ≤ j → 0 < ((r.state k).proc q).depth

theorem OpenSince.succ {h : Nat} (ho : OpenSince r i (j + 1) q h) : OpenSince r i j q h :=
  ⟨ho.1, fun k hik hkj => ho.2 k hik (Nat.le_succ_of_le hkj)⟩

theorem OpenSince.ctx {h : Nat} (h0 : r.state 0 = boot) (hij : i ≤ j) (hj : j ≤ r.length)
    (ho : OpenSince r i j q h) : ((r.state j).hart h).ctx = .thread q := by
  induction j, hij using Nat.le_induction with
  | base => exact ho.1
  | succ j hij ih =>
    have hinv := inv_run r h0 j (Nat.le_of_succ_le hj)
    exact pinned_step hinv (r.next j hj) (ih (Nat.le_of_succ_le hj) ho.succ)
      (ho.2 (j + 1) (Nat.le_succ_of_le hij) le_rfl)

theorem waits_begin {W : Nat → Nat → Prop} (hb : Begins s a c p) (hs : step n s a = some t) :
    ∃ base, Waits c base W t p := by
  obtain ⟨h, rest, rfl, hc, hcode⟩ := hb
  obtain ⟨-, -, y, hy, rfl⟩ := exec_cases hs hc hcode
  cases hy
  refine ⟨c.tail ++ Frame.syncRet c :: rest, [.myproc false], .syncLoop c 0, ?_, by simp [isTrap], ?_⟩
  · rw [commit_proc]
    simp [Local.goto, SyncCall.code]
  · exact .loop 0 (fun _ _ _ => Nat.zero_le _)

/-- During the whole call the sections that are still open lie on harts that
the loop has not passed. -/
theorem waits_run (h0 : r.state 0 = boot) (hb : Begins (r.state i) (r.act i) c p) (hij : i < j)
    (hj : j ≤ r.length) : ∃ base, (∀ q h, OpenSince r i j q h → c.bound ≤ h) ∨
      Waits c base (OpenSince r i j) (r.state j) p := by
  induction j, hij using Nat.le_induction with
  | base =>
    obtain ⟨base, hw⟩ := waits_begin hb (r.next i hj)
    exact ⟨base, .inr hw⟩
  | succ j hij ih =>
    have hjl := Nat.le_of_succ_le hj
    obtain ⟨base, hw⟩ := ih hjl
    refine ⟨base, ?_⟩
    have hw : (∀ q h, OpenSince r i j q h → c.bound ≤ h) ∨
        Waits c base (OpenSince r i j) (r.state (j + 1)) p := by
      refine hw.elim .inl (fun hw => ?_)
      exact waits_step (inv_run r h0 j hjl) (r.next j hj)
        (fun q h ho => ho.ctx r h0 (le_of_lt hij) hjl) hw
    refine hw.imp (fun hw q h ho => hw q h ho.succ) ?_
    rintro ⟨pre, f, hcode, htrap, hr⟩
    exact ⟨pre, f, hcode, htrap, hr.mono (fun q h ho => ho.succ) id⟩

/-- When the call returns, the sections that were open on the harts of its
loop have been closed. -/
theorem closed_of_returns (h0 : r.state 0 = boot) (hij : i < j) (hj : j < r.length)
    (hb : Begins (r.state i) (r.act i) c p) (hr : Returns (r.state j) (r.act j) c p)
    (hc : ((r.state i).hart h).ctx = .thread q) (hh : h < c.bound) :
    ∃ k, i ≤ k ∧ k ≤ j ∧ ((r.state k).proc q).depth = 0 := by
  by_contra hno
  have hopen : OpenSince r i j q h := by
    refine ⟨hc, fun k hik hkj => Nat.pos_of_ne_zero (fun hk => hno ⟨k, hik, hkj, hk⟩)⟩
  obtain ⟨base, hw | ⟨pre, f, hcode, htrap, hround⟩⟩ := waits_run r h0 hb hij (le_of_lt hj)
  · exact absurd (hw q h hopen) (Nat.not_le_of_lt hh)
  · obtain ⟨g, rest, -, -, hret⟩ := hr
    rw [hret] at hcode
    cases pre with
    | nil =>
      cases hcode
      contradiction
    | cons f pre =>
      cases hcode
      exact absurd (htrap _ mem_cons_self) nofun

theorem hart_lt (h0 : r.state 0 = boot) (hi : i ≤ r.length)
    (hc : ((r.state i).hart h).ctx = .thread q) : h < n := by
  have hall : ∀ i, i ≤ r.length → Inv (r.state i) ∧ ∀ h q, ((r.state i).hart h).ctx = .thread q → h < n := by
    refine r.invariant
      (I := fun s => Inv s ∧ ∀ h q, (s.hart h).ctx = .thread q → h < n) r.meets_true ?_ ?_
    · rw [h0]
      exact ⟨inv_boot, nofun⟩
    · rintro s a t ⟨hinv, hlt⟩ - hs
      refine ⟨inv_step hinv hs, fun h q hc => ?_⟩
      rcases ctx_step hinv hs hc with hc | ⟨hh, -⟩
      · exact hlt h q hc
      · exact hh
  exact (hall i hi).2 h q hc

theorem hosted_of_open (h0 : r.state 0 = boot) (hi : i ≤ r.length)
    (hq : 0 < ((r.state i).proc q).depth) : ∃ h, h < n ∧ ((r.state i).hart h).ctx = .thread q := by
  obtain ⟨h, hc⟩ := (inv_run r h0 i hi).hosted_of_depth hq
  exact ⟨h, hart_lt r h0 hi hc, hc⟩

end Runs

theorem guarantee_of_le (hn : n ≤ c.bound) : Guarantee n c := by
  intro r h0 i j p hij hj hb hr q hq
  obtain ⟨h, hh, hc⟩ := hosted_of_open r h0 (le_of_lt (lt_trans hij hj)) hq
  exact closed_of_returns r h0 hij hj hb hr hc (lt_of_lt_of_le hh hn)

theorem not_guarantee {m i j : Nat} (hmn : m ≤ n) (r : Run (step m)) (h0 : r.state 0 = boot) (hij : i < j)
    (hj : j < r.length) (hb : Begins (r.state i) (r.act i) c p) (hr : Returns (r.state j) (r.act j) c p)
    (hc : ((r.state i).hart h).ctx = .thread q) (hq : 0 < ((r.state i).proc q).depth)
    (hidle : ∀ k < j, i ≤ k → r.act k ≠ .exec h) : ¬ Guarantee n c := by
  intro hg
  obtain ⟨k, hik, hkj, hk⟩ := hg ⟨r.length, r.state, r.act, fun k hk => step_mono hmn (r.next k hk)⟩ h0
    i j p hij hj hb hr q hq
  have hopen : ∀ k, i ≤ k → k ≤ j →
      ((r.state k).hart h).ctx = .thread q ∧ 0 < ((r.state k).proc q).depth := by
    intro k hik hkj
    induction k, hik using Nat.le_induction with
    | base => exact ⟨hc, hq⟩
    | succ k hik ih =>
      obtain ⟨hck, hqk⟩ := ih (Nat.le_of_succ_le hkj)
      have hkl : k < r.length := lt_trans hkj hj
      have hinv := inv_run r h0 k (le_of_lt hkl)
      have hd : ((r.state (k + 1)).proc q).depth = ((r.state k).proc q).depth := by
        refine depth_step hinv (r.next k hkl) (fun g hg => ?_)
        rw [hinv.one g h q hg hck]
        exact hidle k hkj hik
      rw [← hd] at hqk
      exact ⟨pinned_step hinv (r.next k hkl) hck hqk, hqk⟩
  have := (hopen k hik hkj).2
  change ((r.state k).proc q).depth = 0 at hk
  omega

/-- Process 0 is scheduled on hart `h` and runs `body` up to its second operation. -/
def openSection (h : Nat) (body : List Op) : List Act :=
  List.flatten [List.replicate 7 (.sched h), List.replicate 5 (.exec h), [.ecall h body],
    List.replicate 10 (.exec h)]

/-- Process 1 is scheduled on hart 0 and comes to the first operation of `body`. -/
def comeToCall (body : List Op) : List Act :=
  List.flatten [List.replicate 12 (.sched 0), List.replicate 5 (.exec 0), [.ecall 0 body],
    List.replicate 9 (.exec 0)]

/-- The first round of the loop: hart 0 scans the whole table and runs the
process again, which then leaves for hart 1. -/
def firstRound : List Act :=
  List.flatten [List.replicate 12 (.exec 0), List.replicate 324 (.sched 0), List.replicate 11 (.exec 0),
    [.sched 0]]

/-- The reader stays in its section on the fourth hart, which the loop does not visit. -/
def readerOnFourth : List Act :=
  List.flatten [[.fork 0, .fork 1], openSection 3 [.rcuReadLock, .nop, .rcuReadUnlock],
    comeToCall [.sync .synchronizeRcu], firstRound, List.replicate 13 (.sched 1),
    List.replicate 11 (.exec 1), [.sched 1], List.replicate 13 (.sched 2), List.replicate 4 (.exec 2)]

/-- The grace period of `synchronize_rcu` is one on up to three harts and on
no machine with more. -/
theorem synchronizeRcu_guarantee_iff (n : Nat) : Guarantee n .synchronizeRcu ↔ n ≤ 3 := by
  refine ⟨fun hg => ?_, fun hn => guarantee_of_le (c := .synchronizeRcu) hn⟩
  by_contra hn
  have hidle : .exec 3 ∉ readerOnFourth.drop 52 := by decide +kernel
  refine not_guarantee (p := 1) (q := 0) (h := 3) (i := 52) (j := 441) (Nat.lt_of_not_le hn)
    (Run.ofExec (step 4) boot readerOnFourth (by decide +kernel)) Run.ofExec_start (by decide) (by decide +kernel)
    ⟨0, .killed .acquire :: usertrapret, ?_⟩ ⟨2, .killed .acquire :: usertrapret, ?_⟩
    (by decide +kernel) (by decide +kernel) (fun k hk hik ha => hidle ?_) hg
  · decide +kernel
  · decide +kernel
  · rw [← ha]
    exact Run.ofExec_act_mem hik (lt_trans hk (by decide +kernel))

/-- On the default machine `sys_rcusync` waits for the sections of the harts
that its loop visits. -/
theorem sysRcusync_closes (r : Run (step 3)) (h0 : r.state 0 = boot) (i j p : Nat) (hij : i < j)
    (hj : j < r.length) (hb : Begins (r.state i) (r.act i) .sysRcusync p)
    (hr : Returns (r.state j) (r.act j) .sysRcusync p)
    (hfree : ∀ q, ((r.state i).hart 2).ctx = .thread q → ((r.state i).proc q).depth = 0) (q : Nat)
    (hq : 0 < ((r.state i).proc q).depth) : ∃ k, i ≤ k ∧ k ≤ j ∧ ((r.state k).proc q).depth = 0 := by
  obtain ⟨h, hh, hc⟩ := hosted_of_open r h0 (le_of_lt (lt_trans hij hj)) hq
  refine closed_of_returns r h0 hij hj hb hr hc ?_
  have hne : h ≠ 2 := by
    rintro rfl
    exact absurd (hfree q hc) (ne_of_gt hq)
  change h < 2
  omega

/-- The reader opens a section with `rcureadlock` on the third hart and is in
user mode when the call returns. -/
def readerOnThird : List Act :=
  List.flatten [[.fork 0, .fork 1], openSection 2 sysRcureadlock, List.replicate 8 (.exec 2),
    comeToCall sysRcusync, firstRound, List.replicate 13 (.sched 1), List.replicate 8 (.exec 1)]

theorem sysRcusync_early : ¬ Guarantee 3 .sysRcusync := by
  have hidle : .exec 2 ∉ readerOnThird.drop 60 := by decide +kernel
  refine not_guarantee (p := 1) (q := 0) (h := 2) (i := 60) (j := 428) le_rfl
    (Run.ofExec (step 3) boot readerOnThird (by decide +kernel)) Run.ofExec_start (by decide) (by decide +kernel)
    ⟨0, .killed .acquire :: usertrapret, ?_⟩ ⟨1, .killed .acquire :: usertrapret, ?_⟩
    (by decide +kernel) (by decide +kernel) (fun k hk hik ha => hidle ?_)
  · decide +kernel
  · decide +kernel
  · rw [← ha]
    exact Run.ofExec_act_mem hik (lt_trans hk (by decide +kernel))

/-- The reader on the second hart closes its section and yields to a timer
interrupt before the process can run there. -/
def readerOnSecond : List Act :=
  List.flatten [[.fork 0, .fork 1], openSection 1 [.rcuReadLock, .nop, .rcuReadUnlock],
    comeToCall sysRcusync, firstRound, List.replicate 10 (.exec 1), [.timer 1],
    List.replicate 14 (.exec 1), List.replicate 8 (.sched 1), List.replicate 8 (.exec 1)]

def readerOnSecondRun : Run (step 3) := Run.ofExec (step 3) boot readerOnSecond (by decide +kernel)

theorem sysRcusync_closes_onSecond :
    0 < ((readerOnSecondRun.state 52).proc 0).depth ∧
      ∃ k, 52 ≤ k ∧ k ≤ 440 ∧ ((readerOnSecondRun.state k).proc 0).depth = 0 := by
  have hq : 0 < ((readerOnSecondRun.state 52).proc 0).depth := by decide +kernel
  refine ⟨hq, sysRcusync_closes readerOnSecondRun Run.ofExec_start 52 440 1 (by decide) (by decide +kernel)
    ⟨0, .killed .acquire :: usertrapret, ?_⟩ ⟨1, .killed .acquire :: usertrapret, ?_⟩ ?_ 0 hq⟩
  · decide +kernel
  · decide +kernel
  · have hc : ((readerOnSecondRun.state 52).hart 2).ctx = .sched .intrOn := by decide +kernel
    intro q hq
    exact absurd (hc.symm.trans hq) nofun

end Xv6Rcu.GracePeriod

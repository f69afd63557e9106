import Xv6Rcu.KernelThread

namespace Xv6Rcu.KernelInv

open Transition Kernel KernelThread Function Option

variable {n h g q : Nat} {s t : State} {a : Act} {pc : SchedPc}

/-- What other processes do to an entry of the table under its lock. -/
inductive Tends (p : Proc) : Proc → Prop
  | wakeup (hs : p.state = .sleeping) : Tends p { p with state := .runnable }
  | kill : Tends p { p with killed := true, state := if p.state = .sleeping then .runnable else p.state }
  | fork (hs : p.state = .unused) : Tends p freshProc
  | reap (hs : p.state = .zombie) : Tends p { p with state := .unused }

inductive Moves (n : Nat) (s : State) : Act → State → Prop
  | sched {h : Nat} {pc : SchedPc} {t : State} (hh : h < n) (hp : (s.hart h).panic = none)
      (hc : (s.hart h).ctx = .sched pc) (ht : schedStep h s pc = some t) : Moves n s (.sched h) t
  | exec {h q : Nat} {f : Frame} {rest : List Frame} {y : Local} (hh : h < n)
      (hp : (s.hart h).panic = none) (hc : (s.hart h).ctx = .thread q)
      (hcode : (s.proc q).code = f :: rest) (hy : execFrame h q (s.view h q) rest f = some y) :
      Moves n s (.exec h) (s.commit h q y)
  | ecall {h q : Nat} {body : List Op} (hh : h < n) (hp : (s.hart h).panic = none)
      (hc : (s.hart h).ctx = .thread q)
      (hcode : (s.proc q).code = []) (hb : balanced 0 body = true) :
      Moves n s (.ecall h body) (s.trap h q (syscallTrap body))
  | userTimer {h q : Nat} (hh : h < n) (hp : (s.hart h).panic = none) (hc : (s.hart h).ctx = .thread q)
      (hsie : (s.hart h).cpu.sie = true) (hcode : (s.proc q).code = []) :
      Moves n s (.timer h) (s.trap h q (userTimer h))
  | kernelTimer {h q : Nat} (hh : h < n) (hp : (s.hart h).panic = none)
      (hc : (s.hart h).ctx = .thread q)
      (hsie : (s.hart h).cpu.sie = true) (hcode : (s.proc q).code ≠ []) :
      Moves n s (.timer h) (s.trap h q (kernelTimer h ++ (s.proc q).code))
  | table {a : Act} {q : Nat} {p : Proc} (ha : a = .wakeup q ∨ a = .kill q ∨ a = .fork q ∨ a = .reap q)
      (hl : s.lock (.proc q) = none) (ht : Tends (s.proc q) p) : Moves n s a (s.setProc q p)

@[simp]
theorem commit_hart (s : State) (h q : Nat) (y : Local) :
    (s.commit h q y).hart h = ⟨y.cpu, y.ctx, y.panic⟩ := update_self _ _ _

theorem commit_hart_of_ne (s : State) (q : Nat) (y : Local) (hg : g ≠ h) :
    (s.commit h q y).hart g = s.hart g := update_of_ne hg _ _

@[simp]
theorem commit_proc (s : State) (h q : Nat) (y : Local) : (s.commit h q y).proc q = y.proc :=
  update_self _ _ _

theorem commit_proc_of_ne {p : Nat} (s : State) (h : Nat) (y : Local) (hp : p ≠ q) :
    (s.commit h q y).proc p = s.proc p := update_of_ne hp _ _

theorem running_eq_some (hr : s.running h = some q) :
    (s.hart h).panic = none ∧ (s.hart h).ctx = .thread q := by
  unfold State.running at hr
  split at hr
  · rename_i hp hc
    cases hr
    exact ⟨hp, hc⟩
  · contradiction

theorem bind_running {k : Nat → Option State} (hk : (if h < n then (s.running h).bind k else none) = some t) :
    h < n ∧ ∃ q, (s.hart h).panic = none ∧ (s.hart h).ctx = .thread q ∧ k q = some t := by
  split at hk
  · rename_i hh
    obtain ⟨q, hq, hk⟩ := bind_eq_some_iff.mp hk
    obtain ⟨hp, hc⟩ := running_eq_some hq
    exact ⟨hh, q, hp, hc, hk⟩
  · contradiction

theorem step_cases (hs : step n s a = some t) : Moves n s a t := by
  cases a with
  | sched h =>
    simp only [step] at hs
    split at hs
    · rename_i hh
      split at hs
      · rename_i pc hc
        exact .sched hh.1 hh.2 hc hs
      · contradiction
    · contradiction
  | exec h =>
    obtain ⟨hh, q, hp, hc, hk⟩ := bind_running hs
    split at hk
    · contradiction
    · rename_i f rest hcode
      obtain ⟨y, hy, rfl⟩ := map_eq_some_iff.mp hk
      exact .exec hh hp hc hcode hy
  | ecall h body =>
    obtain ⟨hh, q, hp, hc, hk⟩ := bind_running hs
    split at hk
    · rename_i hb
      cases hk
      exact .ecall hh hp hc hb.1 hb.2
    · contradiction
  | timer h =>
    obtain ⟨hh, q, hp, hc, hk⟩ := bind_running hs
    split at hk
    · rename_i hsie
      cases hk
      split
      · rename_i hcode
        exact .userTimer hh hp hc hsie hcode
      · rename_i hcode
        exact .kernelTimer hh hp hc hsie hcode
    · contradiction
  | wakeup q =>
    simp only [step] at hs
    split at hs
    · rename_i hq
      cases hs
      exact .table (.inl rfl) hq.1 (.wakeup hq.2)
    · contradiction
  | kill q =>
    simp only [step] at hs
    split at hs
    · rename_i hq
      cases hs
      exact .table (.inr (.inl rfl)) hq .kill
    · contradiction
  | fork q =>
    simp only [step] at hs
    split at hs
    · rename_i hq
      cases hs
      exact .table (.inr (.inr (.inl rfl))) hq.1 (.fork hq.2)
    · contradiction
  | reap q =>
    simp only [step] at hs
    split at hs
    · rename_i hq
      cases hs
      exact .table (.inr (.inr (.inr rfl))) hq.1 (.reap hq.2)
    · contradiction

theorem exec_cases {f : Frame} {rest : List Frame} (hs : step n s (.exec h) = some t)
    (hc : (s.hart h).ctx = .thread q) (hcode : (s.proc q).code = f :: rest) :
    h < n ∧ (s.hart h).panic = none ∧
      ∃ y, execFrame h q (s.view h q) rest f = some y ∧ t = s.commit h q y := by
  obtain ⟨hh, p, hp, hc', hk⟩ := bind_running hs
  obtain rfl : q = p := Ctx.thread.inj (hc.symm.trans hc')
  rw [hcode] at hk
  obtain ⟨y, hy, rfl⟩ := map_eq_some_iff.mp hk
  exact ⟨hh, hp, y, hy, rfl⟩

def Hosted (s : State) (q : Nat) : Prop := ∃ h, (s.hart h).ctx = .thread q

/-- The affinity filter of the scheduler of hart `h` lets the process pass. -/
def Admits (h : Nat) (p : Proc) : Prop := p.affinity = -1 ∨ p.affinity = h

def Holds (s : State) (h i : Nat) : Prop :=
  (s.hart h).cpu.noff = 1 ∧ (s.hart h).cpu.sie = false ∧ s.lock (.proc i) = some h

/-- What the scheduler of hart `h` knows at each of its places. It has read the
affinity of a process that may run on another hart; only a process that no
hart runs is found runnable under the lock. -/
def Sched (s : State) (h : Nat) : SchedPc → Prop
  | .intrOn | .acquire _ => (s.hart h).cpu.noff = 0
  | .spin _ => (s.hart h).cpu.noff = 1 ∧ (s.hart h).cpu.sie = false
  | .affinity i | .affinityHere i | .release i => Holds s h i
  | .check i => Holds s h i ∧ (Hosted s i ∨ Admits h (s.proc i))
  | .setRunning i => Holds s h i ∧ ¬ Hosted s i ∧ Admits h (s.proc i) ∧ (s.proc i).state = .runnable
  | .swtch i => Holds s h i ∧ ¬ Hosted s i ∧ Admits h (s.proc i) ∧ (s.proc i).state = .running

structure Inv (s : State) : Prop where
  runs : ∀ h q, (s.hart h).ctx = .thread q → Runs h q (s.view h q)
  one : ∀ h g q, (s.hart h).ctx = .thread q → (s.hart g).ctx = .thread q → h = g
  sched : ∀ h pc, (s.hart h).ctx = .sched pc → Sched s h pc
  parked : ∀ q, ¬ Hosted s q → Parked (s.proc q)

theorem inv_boot : Inv boot where
  runs := nofun
  one := nofun
  sched := by
    intro h pc hc
    cases hc
    rfl
  parked := fun _ _ => .unused rfl rfl rfl

theorem Sched.frame (hs : Sched s g pc) (hcpu : (t.hart g).cpu = (s.hart g).cpu)
    (hlock : ∀ i, s.lock (.proc i) = some g → t.lock (.proc i) = some g ∧
      (Hosted s i ∧ Hosted t i ∨ ¬ Hosted s i ∧ ¬ Hosted t i ∧ t.proc i = s.proc i)) : Sched t g pc := by
  have hholds : ∀ {i}, Holds s g i → Holds t g i := fun hi =>
    ⟨by rw [hcpu]; exact hi.1, by rw [hcpu]; exact hi.2.1, (hlock _ hi.2.2).1⟩
  cases pc with
  | intrOn => exact (congrArg Cpu.noff hcpu).trans hs
  | acquire i => exact (congrArg Cpu.noff hcpu).trans hs
  | spin i => exact ⟨(congrArg Cpu.noff hcpu).trans hs.1, (congrArg Cpu.sie hcpu).trans hs.2⟩
  | affinity i => exact hholds hs
  | affinityHere i => exact hholds hs
  | release i => exact hholds hs
  | check i =>
    refine ⟨hholds hs.1, ?_⟩
    rcases (hlock i hs.1.2.2).2 with ⟨-, hi⟩ | ⟨hi, -, hp⟩
    · exact .inl hi
    · rw [hp]
      exact .inr (hs.2.resolve_left hi)
  | setRunning i =>
    rcases (hlock i hs.1.2.2).2 with ⟨hi, -⟩ | ⟨-, hi, hp⟩
    · exact absurd hi hs.2.1
    · rw [Sched, hp]
      exact ⟨hholds hs.1, hi, hs.2.2⟩
  | swtch i =>
    rcases (hlock i hs.1.2.2).2 with ⟨hi, -⟩ | ⟨-, hi, hp⟩
    · exact absurd hi hs.2.1
    · rw [Sched, hp]
      exact ⟨hholds hs.1, hi, hs.2.2⟩

theorem Inv.frame (hi : Inv s) (h : Nat) (hhart : ∀ g, g ≠ h → t.hart g = s.hart g)
    (hkeep : Keeps h s.lock t.lock) (hproc : ∀ g q, g ≠ h → (s.hart g).ctx = .thread q → t.proc q = s.proc q)
    (hself : ∀ q, (t.hart h).ctx = .thread q →
      Runs h q (t.view h q) ∧ ∀ g, g ≠ h → (s.hart g).ctx ≠ .thread q)
    (hsched : ∀ pc, (t.hart h).ctx = .sched pc → Sched t h pc)
    (hothers : ∀ g i, g ≠ h → s.lock (.proc i) = some g →
      Hosted s i ∧ Hosted t i ∨ ¬ Hosted s i ∧ ¬ Hosted t i ∧ t.proc i = s.proc i)
    (hparked : ∀ q, ¬ Hosted t q → Parked (t.proc q)) : Inv t where
  runs := by
    intro g q hc
    by_cases hg : g = h
    · subst hg
      exact (hself q hc).1
    · rw [hhart g hg] at hc
      refine (hi.runs g q hc).frame ?_ ?_ (hproc g q hg hc) (hkeep _ _ hg)
      · exact congrArg Hart.cpu (hhart g hg)
      · exact congrArg Hart.panic (hhart g hg)
  one := by
    intro g g' q hg hg'
    by_cases h1 : g = h
    · by_cases h2 : g' = h
      · exact h1.trans h2.symm
      · subst h1
        rw [hhart g' h2] at hg'
        exact absurd hg' ((hself q hg).2 g' h2)
    · by_cases h2 : g' = h
      · subst h2
        rw [hhart g h1] at hg
        exact absurd hg ((hself q hg').2 g h1)
      · rw [hhart g h1] at hg
        rw [hhart g' h2] at hg'
        exact hi.one g g' q hg hg'
  sched := by
    intro g pc hc
    by_cases hg : g = h
    · subst hg
      exact hsched pc hc
    · rw [hhart g hg] at hc
      exact (hi.sched g pc hc).frame (congrArg Hart.cpu (hhart g hg))
        (fun i hl => ⟨hkeep _ _ hg hl, hothers g i hg hl⟩)
  parked := hparked

theorem Inv.hosted_of_depth (hi : Inv s) (hd : 0 < (s.proc q).depth) : Hosted s q := by
  by_contra hnot
  cases hi.parked q hnot with
  | unused _ _ hdepth => omega
  | stopped _ _ _ _ _ _ _ hdepth _ => omega

theorem Inv.not_hosted {i : Nat} (hi : Inv s) (hc : (s.hart h).ctx = .sched pc)
    (hl : s.lock (.proc i) = some h) (hs : (s.proc i).state ≠ .running) : ¬ Hosted s i := by
  rintro ⟨g, hg⟩
  rcases (hi.runs g i hg).2 with hr | hr
  · exact hs hr
  · obtain rfl : h = g := some.inj (hl.symm.trans hr)
    rw [hc] at hg
    contradiction

theorem Inv.commit {y : Local} (hi : Inv s) (hc : (s.hart h).ctx = .thread q)
    (hy : Steps h q (s.view h q) y) : Inv (s.commit h q y) := by
  obtain ⟨hkeep, hy⟩ := hy
  have hother : ∀ g, g ≠ h → (s.hart g).ctx ≠ .thread q := fun g hg hgc => hg (hi.one g h q hgc hc)
  have hctx : y.ctx = .thread q ∨ y.ctx = .sched (.release q) := by
    rcases hy with ⟨hy, -⟩ | hy
    · exact .inl (hy.trans hc)
    · exact .inr hy.1
  have hhosted : ∀ i, i ≠ q → (Hosted (s.commit h q y) i ↔ Hosted s i) := by
    intro i hiq
    refine exists_congr (fun g => ?_)
    by_cases hg : g = h
    · subst hg
      rw [commit_hart, hc]
      rcases hctx with hctx | hctx <;> simp [hctx, hiq.symm]
    · rw [commit_hart_of_ne s q y hg]
  refine hi.frame h (fun g hg => commit_hart_of_ne s q y hg) hkeep ?_ ?_ ?_ ?_ ?_
  · intro g i hg hgc
    exact commit_proc_of_ne s h y (fun hiq => hother g hg (hiq ▸ hgc))
  · intro i hi'
    rw [commit_hart] at hi'
    rcases hy with ⟨hy, hr⟩ | hy
    · obtain rfl : q = i := Ctx.thread.inj ((hy.trans hc).symm.trans hi')
      refine ⟨hr.frame ?_ ?_ (commit_proc s h q y) id, hother⟩
      · exact congrArg Hart.cpu (commit_hart s h q y)
      · exact congrArg Hart.panic (commit_hart s h q y)
    · exact absurd (hy.1.symm.trans hi') nofun
  · intro pc hpc
    rw [commit_hart] at hpc
    rcases hy with ⟨hy, -⟩ | ⟨hy, -, hnoff, hsie, hlock⟩
    · exact absurd ((hy.trans hc).symm.trans hpc) nofun
    · obtain rfl : SchedPc.release q = pc := Ctx.sched.inj (hy.symm.trans hpc)
      simp only [Sched, Holds, commit_hart]
      exact ⟨hnoff, hsie, hlock⟩
  · intro g i hg hl
    by_cases hiq : i = q
    · subst hiq
      refine .inl ⟨⟨h, hc⟩, h, ?_⟩
      rcases hy with ⟨hy, -⟩ | ⟨-, -, -, -, hlock⟩
      · rw [commit_hart]
        exact hy.trans hc
      · exact absurd (some.inj ((hkeep _ g hg hl).symm.trans hlock)) hg
    · rw [hhosted i hiq]
      by_cases hs : Hosted s i
      · exact .inl ⟨hs, hs⟩
      · exact .inr ⟨hs, hs, commit_proc_of_ne s h y hiq⟩
  · intro i hs
    by_cases hiq : i = q
    · subst hiq
      rw [commit_proc]
      rcases hy with ⟨hy, -⟩ | ⟨-, hp, -⟩
      · exact absurd ⟨h, by rw [commit_hart]; exact hy.trans hc⟩ hs
      · exact hp
    · rw [commit_proc_of_ne s h y hiq]
      exact hi.parked i ((hhosted i hiq).not.mp hs)

/-- The scheduler of hart `h` goes on, under a lock that it holds or takes. -/
theorem Inv.schedTo {x : Hart} {l : LockId → Option Nat} {p : Nat → Proc} {pc' : SchedPc} (hi : Inv s)
    (hc : (s.hart h).ctx = .sched pc) (hx : x.ctx = .sched pc') (hkeep : Keeps h s.lock l)
    (hp : ∀ i, p i = s.proc i ∨ s.lock (.proc i) = some h ∧ ¬ Hosted s i ∧ Parked (p i))
    (hsched : (∀ i, Hosted ⟨update s.hart h x, p, l⟩ i ↔ Hosted s i) →
      Sched ⟨update s.hart h x, p, l⟩ h pc') :
    Inv ⟨update s.hart h x, p, l⟩ := by
  have hself : (update s.hart h x) h = x := update_self _ _ _
  have hhosted : ∀ i, Hosted ⟨update s.hart h x, p, l⟩ i ↔ Hosted s i := by
    intro i
    refine exists_congr (fun g => ?_)
    by_cases hg : g = h
    · subst hg
      change (update s.hart g x g).ctx = _ ↔ _
      rw [hself, hc, hx]
      exact ⟨nofun, nofun⟩
    · change (update s.hart h x g).ctx = _ ↔ _
      rw [update_of_ne hg]
  refine hi.frame h (fun g hg => update_of_ne hg _ _) hkeep ?_ ?_ ?_ ?_ ?_
  · intro g q _ hgq
    exact (hp q).resolve_right (fun hq => hq.2.1 ⟨g, hgq⟩)
  · intro q hq
    change (update s.hart h x h).ctx = _ at hq
    rw [hself, hx] at hq
    contradiction
  · intro pc'' hpc
    change (update s.hart h x h).ctx = _ at hpc
    rw [hself, hx] at hpc
    cases hpc
    exact hsched hhosted
  · intro g i hg hl
    rw [hhosted]
    by_cases hs : Hosted s i
    · exact .inl ⟨hs, hs⟩
    · refine .inr ⟨hs, hs, (hp i).resolve_right (fun hq => hg ?_)⟩
      exact some.inj (hl.symm.trans hq.1)
  · intro q hq
    rw [hhosted] at hq
    change Parked (p q)
    rcases hp q with hpq | hpq
    · rw [hpq]
      exact hi.parked q hq
    · exact hpq.2.2


theorem Inv.swtch {i : Nat} (hi : Inv s) (hc : (s.hart h).ctx = .sched (.swtch i)) :
    Inv (s.setHart h { s.hart h with ctx := .thread i }) := by
  obtain ⟨⟨hnoff, hsie, hlock⟩, hnot, -, hstate⟩ := hi.sched h _ hc
  have hhosted : ∀ q, q ≠ i → (Hosted (s.setHart h { s.hart h with ctx := .thread i }) q ↔ Hosted s q) := by
    intro q hq
    refine exists_congr (fun g => ?_)
    by_cases hg : g = h
    · subst hg
      simp [State.setHart, hc, hq.symm]
    · simp [State.setHart, hg]
  refine hi.frame h (fun g hg => update_of_ne hg _ _) (Keeps.refl h _) (fun _ _ _ _ => rfl) ?_ ?_ ?_ ?_
  · intro q hq
    simp only [State.setHart, update_self] at hq
    cases hq
    refine ⟨?_, fun g _ hg => hnot ⟨g, hg⟩⟩
    refine Runs.frame ((hi.parked i hnot).fit (x := s.view h i) hstate hnoff hsie hlock).runs ?_ ?_ rfl id
    · simp [State.setHart, State.view]
    · simp [State.setHart, State.view]
  · intro pc hpc
    simp only [State.setHart, update_self] at hpc
    contradiction
  · intro g q hg hl
    have hq : q ≠ i := by
      rintro rfl
      exact hg (some.inj (hl.symm.trans hlock))
    rw [hhosted q hq]
    by_cases hs : Hosted s q
    · exact .inl ⟨hs, hs⟩
    · exact .inr ⟨hs, hs, rfl⟩
  · intro q hq
    have hqi : q ≠ i := by
      rintro rfl
      exact hq ⟨h, by simp [State.setHart]⟩
    exact hi.parked q ((hhosted q hqi).not.mp hq)

theorem Inv.schedStep (hi : Inv s) (hc : (s.hart h).ctx = .sched pc) (ht : schedStep h s pc = some t) :
    Inv t := by
  have hs := hi.sched h pc hc
  have hself : ∀ x, update s.hart h x h = x := fun x => update_self _ _ _
  have hsame : ∀ i, s.proc i = s.proc i ∨ s.lock (.proc i) = some h ∧ ¬ Hosted s i ∧ Parked (s.proc i) :=
    fun i => .inl rfl
  cases pc with
  | intrOn =>
    cases ht
    refine hi.schedTo hc rfl (Keeps.refl h _) hsame (fun _ => ?_)
    simp only [Sched, hself]
    exact hs
  | acquire i =>
    cases ht
    refine hi.schedTo hc rfl (Keeps.refl h _) hsame (fun _ => ?_)
    simp only [Sched, hself, Cpu.pushOff]
    exact ⟨congrArg (· + 1) hs, trivial⟩
  | spin i =>
    simp only [Kernel.schedStep] at ht
    cases hl : s.lock (.proc i) with
    | none =>
      rw [hl] at ht
      cases ht
      refine hi.schedTo hc rfl (Keeps.update (.inl hl)) hsame (fun _ => ?_)
      simp only [Sched, Holds, hself]
      exact ⟨hs.1, hs.2, update_self _ _ _⟩
    | some g =>
      simp only [hl] at ht
      split at ht
      · cases ht
        refine hi.schedTo hc hc (Keeps.refl h _) hsame (fun _ => ?_)
        simp only [Sched, hself]
        exact hs
      · contradiction
  | affinity i | affinityHere i =>
    cases ht
    refine hi.schedTo hc rfl (Keeps.refl h _) hsame (fun _ => ?_)
    split
    · simp only [Sched, Holds, hself]
      exact hs
    · rename_i ha
      simp only [Sched, Holds, hself]
      first
      | exact ⟨hs, .inr (.inl (not_not.mp ha))⟩
      | exact ⟨hs, .inr (.inr (not_not.mp ha))⟩
  | check i =>
    simp only [Kernel.schedStep] at ht
    split at ht
    · rename_i hr
      have hnot := hi.not_hosted hc hs.1.2.2 (by rw [hr]; nofun)
      cases ht
      refine hi.schedTo hc rfl (Keeps.refl h _) hsame (fun hhosted => ?_)
      simp only [Sched, Holds, hself]
      exact ⟨hs.1, (hhosted i).not.mpr hnot, hs.2.resolve_left hnot, hr⟩
    · cases ht
      refine hi.schedTo hc rfl (Keeps.refl h _) hsame (fun _ => ?_)
      simp only [Sched, Holds, hself]
      exact hs.1
  | setRunning i =>
    cases ht
    obtain ⟨hholds, hnot, hadm, hrun⟩ := hs
    refine hi.schedTo hc rfl (Keeps.refl h _) (fun j => ?_) (fun hhosted => ?_)
    · by_cases hj : j = i
      · subst hj
        simp only [State.setProc, update_self]
        exact .inr ⟨hholds.2.2, hnot, (hi.parked j hnot).running hrun⟩
      · exact .inl (update_of_ne hj _ _)
    · simp only [Sched, Holds, hself, State.setProc, update_self]
      exact ⟨hholds, (hhosted i).not.mpr hnot, hadm, trivial⟩
  | swtch i =>
    cases ht
    exact hi.swtch hc
  | release i =>
    obtain ⟨hnoff, hsie, hlock⟩ := hs
    have hpop : (s.hart h).cpu.popOff = .ok ⟨0, (s.hart h).cpu.intena, true && (s.hart h).cpu.intena⟩ := by
      simp [Cpu.popOff, hnoff, hsie]
    simp only [Kernel.schedStep, if_pos hlock, hpop] at ht
    cases ht
    refine hi.schedTo hc rfl (Keeps.update (.inr hlock)) hsame (fun _ => ?_)
    unfold nextSlot
    split
    · simp only [Sched, hself]
    · simp only [Sched, hself]

theorem parked_tends {p p' : Proc} (hp : Parked p) (ht : Tends p p') : Parked p' := by
  cases hp with
  | unused hcode hstate hdepth =>
    cases ht with
    | wakeup hs => exact absurd (hstate.symm.trans hs) nofun
    | kill => exact .unused hcode (by simp [hstate]) hdepth
    | fork hs => exact parked_freshProc
    | reap hs => exact absurd (hstate.symm.trans hs) nofun
  | stopped k pc c hcode hpc hshape hdebt hdepth hlive =>
    cases ht with
    | wakeup hs => exact .stopped k pc c hcode hpc hshape hdebt hdepth (.inr ⟨nofun, nofun⟩)
    | kill =>
      refine .stopped k pc c hcode hpc hshape hdebt hdepth (hlive.imp_right (fun hlive => ?_))
      change (if p.state = .sleeping then ProcState.runnable else p.state) ≠ .unused ∧
        (if p.state = .sleeping then ProcState.runnable else p.state) ≠ .zombie
      split
      · exact ⟨nofun, nofun⟩
      · exact hlive
    | fork hs => exact parked_freshProc
    | reap hs => exact .stopped k pc c hcode hpc hshape hdebt hdepth (hlive.imp_right (fun hl => absurd hs hl.2))

theorem Inv.tends_hosted {p : Proc} (hi : Inv s) (hc : (s.hart h).ctx = .thread q)
    (hl : s.lock (.proc q) = none) (ht : Tends (s.proc q) p) : p = { s.proc q with killed := true } := by
  have hrun : (s.proc q).state = .running :=
    (hi.runs h q hc).2.resolve_right (fun hl' => absurd (hl.symm.trans hl') nofun)
  cases ht with
  | wakeup hs => exact absurd (hrun.symm.trans hs) nofun
  | kill => simp [hrun]
  | fork hs => exact absurd (hrun.symm.trans hs) nofun
  | reap hs => exact absurd (hrun.symm.trans hs) nofun

theorem Inv.table {p : Proc} (hi : Inv s) (hl : s.lock (.proc q) = none) (ht : Tends (s.proc q) p) :
    Inv (s.setProc q p) where
  runs := by
    intro g i hc
    have hr := hi.runs g i hc
    by_cases hiq : i = q
    · subst hiq
      have hp := hi.tends_hosted hc hl ht
      subst hp
      simp only [State.view, State.setProc, update_self]
      exact ⟨fun hp => ⟨(hr.1 hp).shape, (hr.1 hp).noff, (hr.1 hp).sie, (hr.1 hp).own, (hr.1 hp).state⟩, hr.2⟩
    · exact hr.frame rfl rfl (update_of_ne hiq _ _) id
  one := hi.one
  sched := by
    intro g pc hc
    refine (hi.sched g pc hc).frame rfl (fun i hli => ⟨hli, ?_⟩)
    by_cases hs : Hosted s i
    · exact .inl ⟨hs, hs⟩
    · refine .inr ⟨hs, hs, update_of_ne ?_ _ _⟩
      rintro rfl
      exact absurd (hl.symm.trans hli) nofun
  parked := by
    intro i hs
    by_cases hiq : i = q
    · subst hiq
      simp only [State.setProc, update_self]
      exact parked_tends (hi.parked i hs) ht
    · simp only [State.setProc, update_of_ne hiq]
      exact hi.parked i hs

theorem Inv.trap {c : List Frame} (hi : Inv s) (hc : (s.hart h).ctx = .thread q)
    (hp : (s.hart h).panic = none) (hl : load (s.proc q).code = 0) (hr : Rests c ∧ debt c = 0) :
    Inv (s.trap h q c) :=
  hi.commit hc ((((hi.runs h q hc).1 hp).trap hl hr.1 hr.2).steps (Keeps.refl h _) rfl)

theorem inv_step (hi : Inv s) (hs : step n s a = some t) : Inv t := by
  cases step_cases hs with
  | sched hh hp hc ht => exact hi.schedStep hc ht
  | exec hh hp hc hcode hy => exact hi.commit hc (execFrame_steps ((hi.runs _ _ hc).1 hp) hcode hy)
  | ecall hh hp hc hcode hb => exact hi.trap hc hp (by rw [hcode]; rfl) (rests_syscallTrap hb)
  | userTimer hh hp hc hsie hcode => exact hi.trap hc hp (by rw [hcode]; rfl) (rests_userTimer _)
  | kernelTimer hh hp hc hsie hcode =>
    have hf := (hi.runs _ _ hc).1 hp
    have hl := hf.sie hsie
    obtain ⟨hr, hd⟩ := hf.shape.rests hl
    exact hi.trap hc hp hl (rests_kernelTimer _ hr hd)
  | table ha hl ht => exact hi.table hl ht

theorem inv_run (r : Run (step n)) (h0 : r.state 0 = boot) : ∀ i, i ≤ r.length → Inv (r.state i) :=
  r.invariant r.meets_true (h0 ▸ inv_boot) (fun _ _ _ hs _ ht => inv_step hs ht)

end Xv6Rcu.KernelInv

import Xv6Rcu.ProcessStore

namespace Xv6Rcu.ProcessTable

open Process ProcessCode ProcessInv Function List Option

variable {n h g j p q : Nat} {s t : State} {u v : Tid} {f : Frame} {c rest : List Frame} {l : LockId} {i : Instr}
  {a : Act} {x : Slot}

section Spawn

theorem ready_forkret (j : Nat) : Ready (forkret j) j :=
  ⟨by simp [forkret, usertrapret, myproc], by simp [forkret, usertrapret, myproc, load], rfl⟩

theorem shape_forkret (j : Nat) : Shape (forkret j) := by
  have hbody : Free (.body true [] 0 :: usertrapret) :=
    Free.cons (f := .body true [] 0) (free_single rfl rfl rfl) free_usertrapret
  have hentry : Shape [.pushOff, .popOff, .release (.proc j)] := by simp [Firm]
  have hall := shape_append hbody hentry
  exact hall

theorem forall_forkret {P : Frame → Prop} (j : Nat) (hpush : P .pushOff) (hpop : P .popOff)
    (hrelease : P (.release (.proc j))) (hbody : P (.body true [] 0)) (hoff : P .intrOff) (hret : P .userRet) :
    ∀ f ∈ forkret j, P f := by
  simp only [forkret, usertrapret, myproc, cons_append, nil_append, forall_mem_cons]
  exact ⟨hpush, hpop, hrelease, hbody, hpush, hpop, hoff, hret, (by intros; contradiction)⟩

theorem setThread_self {y : Thread} : (s.setThread u y).thread u = y := update_self ..

theorem setThread_ne {y : Thread} (hv : v ≠ u) : (s.setThread u y).thread v = s.thread v :=
  update_of_ne hv ..

/-- The frames whose instruction makes a process, changes `c->proc` or switches to a process. -/
theorem decode_switch (hd : decode s h rest f = some i) :
    match i with
    | .spawn j c => ∃ p k pid, f = .allocMem p k j pid ∧
        (c = .release (.proc j) :: .acquire .wait :: .setParent p k j pid :: rest ∨
          c = .acquire .wait :: .setParent p k j pid :: rest)
    | .proc o c => (∃ m, f = .schedProc m ∧ o = some m ∧ c = .swtch m :: rest) ∨
        ∃ m, f = .schedClear m ∧ o = none ∧ c = .release (.proc m) :: .schedScan (m + 1) :: rest
    | .toProc j c => f = .swtch j ∧ c = .schedClear j :: rest
    | _ => True := by
  cases f with
  | allocMem p k m pid =>
    cases k <;> cases hd
    · exact ⟨p, .fork, pid, rfl, .inl rfl⟩
    · exact ⟨p, .threadCreate, pid, rfl, .inr rfl⟩
  | schedProc m =>
    cases hd
    exact .inl ⟨m, rfl, rfl, rfl⟩
  | schedClear m =>
    cases hd
    exact .inr ⟨m, rfl, rfl, rfl⟩
  | swtch m =>
    cases hd
    exact ⟨rfl, rfl⟩
  | leave p k pc =>
    cases pc <;> cases k <;> simp only [decode, decodeLeave, schedOut] at hd <;> (repeat' split at hd) <;> cases hd <;>
      trivial
  | _ =>
    simp only [decode] at hd
    repeat' split at hd
    all_goals cases hd <;> trivial

theorem inv_spawned (hI : Inv s) (hj : (s.slot j).state = .used) : Inv (s.setThread (.proc j) (.spawned j)) := by
  have hnot : ¬Hosted s j := hI.not_hosted (.inl hj)
  have hself : (s.setThread (.proc j) (.spawned j)).thread (.proc j) = .spawned j := setThread_self
  have hne {u : Tid} (hu : u ≠ .proc j) : (s.setThread (.proc j) (.spawned j)).thread u = s.thread u :=
    setThread_ne hu
  have hcur (h : Nat) : (s.hart h).cur ≠ .proc j := fun he => hnot ⟨h, he⟩
  have hsched (h : Nat) : (s.setThread (.proc j) (.spawned j)).thread (.sched h) = s.thread (.sched h) := hne nofun
  have hrun (h : Nat) : (s.setThread (.proc j) (.spawned j)).run h = s.run h := hne (hcur h)
  have hcases (u : Tid) {P : List Frame → Prop} (hp : u = .proc j → P (forkret j)) (ho : P (s.thread u).code) :
      P ((s.setThread (.proc j) (.spawned j)).thread u).code := by
    by_cases hu : u = .proc j
    · rw [hu, hself]
      exact hp hu
    · rwa [hne hu]
  constructor
  case shape => exact fun u => hcases u (fun _ => shape_forkret j) (hI.shape u)
  case below =>
    refine fun u => hcases u (P := fun c => AllBelow c.tail) (fun _ => AllBelow.tail ?_) (hI.below u)
    exact forall_forkret j trivial trivial trivial trivial trivial trivial
  case of =>
    refine fun u => hcases u (fun _ => ?_) (hI.of u)
    exact forall_forkret j (of_plain rfl rfl) (of_plain rfl rfl) (of_plain rfl rfl) (of_plain rfl rfl)
      (of_plain rfl rfl) (of_plain rfl rfl)
  case good =>
    refine fun u => hcases u (fun _ => ?_) ?_
    · exact forall_forkret j trivial trivial trivial trivial trivial trivial
    · intro f hf
      have hg := hI.good u f hf
      have hready {m : Nat} (hr : Ready (s.thread (.proc m)).code m) :
          Ready ((s.setThread (.proc j) (.spawned j)).thread (.proc m)).code m := by
        by_cases hm : m = j
        · rw [hm, hself]
          exact ready_forkret j
        · rwa [hne (fun he => hm (Tid.proc.inj he))]
      cases f with
      | setParent p k m pid => exact ⟨hg.1, hready hg.2⟩
      | setRunnable m pid => exact ⟨hg.1, hready hg.2⟩
      | _ => exact hg
  case nodup => exact fun u => hcases u (P := fun c => (making c).Nodup) (fun _ => nodup_nil) (hI.nodup u)
  case apart =>
    have hmem {u : Tid} {m : Nat} (hm : m ∈ making ((s.setThread (.proc j) (.spawned j)).thread u).code) :
        m ∈ making (s.thread u).code := by
      by_cases hu : u = .proc j
      · rw [hu, hself] at hm
        exact absurd hm not_mem_nil
      · rwa [hne hu] at hm
    exact fun u v m hu hv => hI.apart u v m (hmem hu) (hmem hv)
  case fit =>
    intro h
    rw [hrun]
    exact hI.fit h
  case cur => exact hI.cur
  case single => exact hI.single
  case hosted =>
    intro h q hq
    rw [hsched, hne (hq ▸ hcur h)]
    exact hI.hosted h q hq
  case sched =>
    intro h hc
    rw [hsched]
    exact hI.sched h hc
  case parked =>
    intro q hq ha
    refine hcases (.proc q) (P := fun c => Ready c q) (fun he => ?_) (hI.parked q hq ha)
    cases he
    exact ready_forkret j
  case loose =>
    intro q hq
    exact hcases (.proc q) (P := fun c => ∀ f ∈ c, firm f = [])
      (fun _ => forall_forkret j rfl rfl rfl rfl rfl rfl) (hI.loose q hq)
  case claimed =>
    intro q hq hr
    obtain ⟨g, hg, hm⟩ := hI.claimed q hq hr
    exact ⟨g, hg, by rwa [hsched]⟩

theorem inv_spawn (hI : Inv s) (hfetch : fetch s h a = some (.spawn j c)) (hcode : (s.run h).code = f :: rest)
    (hd : decode s h rest f = some (.spawn j c)) (ho : Outcome s h (.spawn j c) t) : Inv t := by
  have hgood := hI.good_run hcode
  obtain ⟨hgf, hgr⟩ := forall_mem_cons.mp hgood
  have hslot := ho.slot
  have hproc := ho.proc_eq
  obtain ⟨p, k, pid, rfl, hc⟩ := decode_switch hd
  have hnot : ¬Hosted s j := hI.not_hosted (.inl hgf)
  have hcur : (s.hart h).cur ≠ .proc j := fun he => hnot ⟨h, he⟩
  have hrun : (s.setThread (.proc j) (.spawned j)).run h = s.run h := setThread_ne hcur
  have hI' := inv_spawned hI hgf
  have hof : AllOf (s.hart h).cur c := fetch_of hfetch rfl (hI.of _) (fun _ hp hm => hI.proc_cur hp hm)
  have hst : Stays (s.setThread (.proc j) (.spawned j)) t h c := {
    hart := fun _ hg => ho.hart_ne hg
    cur := ho.cur
    thread := by
      intro u hu
      by_cases huj : u = .proc j
      · rw [huj, ho.spawned rfl hcur, setThread_self]
      · rw [ho.thread_ne hu (fun m hm => some.inj hm ▸ huj), setThread_ne huj]
    code := ho.code rfl
    lock := fun _ _ hg => ho.lock_iff hg
    shape := balanced_shape (hI.balanced hfetch) rfl
    below := fetch_below hfetch rfl (hI.shape _) (hI.fit h).sie (hI.below _)
    of := hof
    fit := ho.fit (hI.fit h) (hI.shape _) (hI.balanced hfetch) rfl }
  have hg : AllGood (s.setThread (.proc j) (.spawned j)) (s.hart h).cur c := by
    have hr : AllGood (s.setThread (.proc j) (.spawned j)) (s.hart h).cur rest := by
      have hall := hI'.good (s.hart h).cur
      rw [setThread_ne hcur, ← State.run, hcode] at hall
      exact (forall_mem_cons.mp hall).2
    have hs : Good (s.setThread (.proc j) (.spawned j)) (s.hart h).cur (.setParent p k j pid) := by
      refine ⟨hgf, ?_⟩
      rw [setThread_self]
      exact ready_forkret j
    rcases hc with rfl | rfl
    · exact AllGood.cons (f := .release (.proc j)) (AllGood.cons (f := .acquire .wait) (hr.cons hs) trivial) trivial
    · exact AllGood.cons (f := .acquire .wait) (hr.cons hs) trivial
  have hcalm : Calm (.allocMem p k j pid :: rest) c := by
    rcases hc with rfl | rfl <;> exact calm_of rfl rfl rfl rfl
  rw [← hcode, ← hrun] at hcalm
  refine inv_stay hst hI' (tabled_same hI' hst hslot hg hcalm.state hcalm.making ?_ ?_ ?_ ?_)
  · exact fun q hcq => hproc.trans (hI.hosted h q hcq).1
  · intro hcs
    have hmark := hcalm.mark_old
    rw [hrun, State.run, show (s.hart h).cur = .sched h from hcs] at hmark
    rw [hproc, hcalm.mark]
    exact (hI.sched h hcs).1.trans (congrArg claim hmark)
  · rw [hcalm.mark]
    rintro _ ⟨⟩
  · rw [hcalm.mark_old]
    rintro q (hk | hk) <;> cases hk

end Spawn

section Switch

theorem inv_proc {o : Option Nat} (hI : Inv s) (hfetch : fetch s h a = some (.proc o c))
    (hcode : (s.run h).code = f :: rest) (hd : decode s h rest f = some (.proc o c))
    (ho : Outcome s h (.proc o c) t) : Inv t := by
  have hst := stays_of hI hfetch ho rfl rfl rfl
  have hproc := ho.proc_eq
  have hgood := hI.good_run hcode
  have hof := hI.of_run hcode
  obtain ⟨hgf, hgr⟩ := forall_mem_cons.mp hgood
  have hcur : (s.hart h).cur = .sched h := by
    refine hI.sched_of (f := f) ?_ (hof f mem_cons_self)
    rcases decode_switch hd with ⟨m, rfl, -⟩ | ⟨m, rfl, -⟩ <;> rfl
  have hno (q : Nat) (hq : (s.hart h).cur = .proc q) : (t.hart h).proc = some q := by
    rw [hcur] at hq
    contradiction
  rcases decode_switch hd with ⟨m, rfl, rfl, rfl⟩ | ⟨m, rfl, rfl, rfl⟩
  · refine inv_stay hst hI (tabled_same hI hst ho.slot (AllGood.cons (f := .swtch m) hgr hgf) ?_ ?_ hno (fun _ => hproc) nofun ?_)
    · rw [hcode]
      rfl
    · rw [hcode]
      exact List.Sublist.refl _
    · rw [hcode]
      rintro q (hk | hk) <;> cases hk
      exact .inr rfl
  · have hg : AllGood s (s.hart h).cur (.release (.proc m) :: .schedScan (m + 1) :: rest) :=
      AllGood.cons (f := .release (.proc m)) (AllGood.cons (f := .schedScan (m + 1)) hgr trivial) trivial
    refine inv_stay hst hI (tabled_same hI hst ho.slot hg ?_ ?_ hno (fun _ => hproc) nofun ?_)
    · rw [hcode]
      rfl
    · rw [hcode]
      exact List.Sublist.refl _
    · rw [hcode]
      rintro q (hk | hk) <;> cases hk

theorem decode_toSched (hd : decode s h rest f = some (.toSched c)) :
    ∃ p k, f = .leave p k .sched ∧ c = .leave p k (.resume (s.hart h).cpu.intena) :: rest ∧
      s.lock (.proc p) = some h ∧ (s.hart h).cpu.noff = 1 ∧ (s.slot p).state ≠ .running := by
  cases f with
  | leave p k pc =>
    cases pc with
    | sched =>
      have hd := some.inj hd
      simp only [schedOut] at hd
      repeat' split at hd
      all_goals cases hd
      exact ⟨p, k, rfl, rfl, not_not.mp ‹_›, not_not.mp ‹_›, ‹_›⟩
    | first => cases k <;> cases hd
    | second => cases k <;> cases hd
    | resume b => cases k <;> cases hd
    | _ => cases hd
  | _ =>
    simp only [decode] at hd
    repeat' split at hd
    all_goals cases hd

theorem held_of_mark (hm : mark c = some (.schedProc q) ∨ mark c = some (.swtch q) ∨ mark c = some (.schedClear q)) :
    .proc q ∈ held c := by
  cases c with
  | nil => rcases hm with hm | hm | hm <;> cases hm
  | cons f rest => cases f <;> rcases hm with hm | hm | hm <;> cases hm <;> exact mem_cons_self

theorem code_of_mark (hm : mark c = some (.schedClear q)) : ∃ rest, c = .schedClear q :: rest := by
  cases c with
  | nil => cases hm
  | cons f rest =>
    cases f <;> cases hm
    exact ⟨rest, rfl⟩

/-- Hart `h` changes between its scheduler and process `j`, whose lock it has. -/
structure Switches (s t : State) (h j : Nat) (c : List Frame) : Prop where
  hart : ∀ g, g ≠ h → t.hart g = s.hart g
  thread : ∀ u, u ≠ (s.hart h).cur → t.thread u = s.thread u
  code : (t.thread (s.hart h).cur).code = c
  lock : t.lock = s.lock
  slot : t.slot = s.slot
  cpu : (t.hart h).cpu = (s.hart h).cpu
  proc : (t.hart h).proc = (s.hart h).proc
  mine : s.lock (.proc j) = some h
  host : ∀ q, q ≠ j → (Hosted t q ↔ Hosted s q)
  shape : Shape c
  below : AllBelow c.tail
  of : AllOf (s.hart h).cur c
  good : AllGood t (s.hart h).cur c
  made : making c = making (s.run h).code

theorem Switches.code_cases (hw : Switches s t h j c) (u : Tid) :
    u = (s.hart h).cur ∧ (t.thread u).code = c ∨ u ≠ (s.hart h).cur ∧ t.thread u = s.thread u := by
  by_cases hu : u = (s.hart h).cur
  · exact .inl ⟨hu, hu ▸ hw.code⟩
  · exact .inr ⟨hu, hw.thread u hu⟩

theorem Switches.cur_ne (hw : Switches s t h j c) (hg : g ≠ h) : (t.hart g).cur = (s.hart g).cur := by
  rw [hw.hart g hg]

theorem Switches.making_eq (hw : Switches s t h j c) (u : Tid) :
    making (t.thread u).code = making (s.thread u).code := by
  rcases hw.code_cases u with ⟨hu, hc⟩ | ⟨-, hc⟩
  · rw [hc, hw.made, hu, State.run]
  · rw [hc]

theorem Switches.good_all (hI : Inv s) (hw : Switches s t h j c) (u : Tid) : AllGood t u (t.thread u).code := by
  rcases hw.code_cases u with ⟨hu, hc⟩ | ⟨hu, hc⟩
  · rw [hc, hu]
    exact hw.good
  · intro f hf
    rw [hc] at hf
    refine good_congr (hI.good u f hf) (fun m hm => ?_) (fun m hm => ?_)
    · have hmj : m ≠ j := fun he => hI.firm_locked hu hf hm (he ▸ hw.mine)
      rw [hw.slot]
      exact ⟨rfl, hw.host m hmj, .inr rfl⟩
    · have hn := hI.not_hosted (.inl (used_of_made (hI.good u f hf) hm))
      rw [hw.slot, hw.thread _ (fun he => hn ⟨h, he.symm⟩)]
      exact ⟨rfl, rfl⟩

theorem Switches.fit_all (hI : Inv s) (hw : Switches s t h j c)
    (hf : Fit (s.hart h).cpu s.lock h (t.run h).code) (g : Nat) : Fit (t.hart g).cpu t.lock g (t.run g).code := by
  by_cases hg : g = h
  · subst hg
    rw [hw.cpu, hw.lock]
    exact hf
  · have hrun : t.run g = s.run g := by
      rw [State.run, hw.cur_ne hg, hw.thread _ (hI.run_ne hg), State.run]
    rw [hrun, hw.hart g hg, hw.lock]
    exact hI.fit g

theorem Switches.shape_all (hI : Inv s) (hw : Switches s t h j c) (u : Tid) :
    Shape (t.thread u).code ∧ AllBelow (t.thread u).code.tail ∧ AllOf u (t.thread u).code := by
  rcases hw.code_cases u with ⟨hu, hc⟩ | ⟨-, hc⟩
  · rw [hc, hu]
    exact ⟨hw.shape, hw.below, hw.of⟩
  · rw [hc]
    exact ⟨hI.shape u, hI.below u, hI.of u⟩

theorem inv_toProc (hI : Inv s) (hw : Switches s t h j (.schedClear j :: rest))
    (hcode : (s.run h).code = .swtch j :: rest) (hcur : (s.hart h).cur = .sched h)
    (htcur : (t.hart h).cur = .proc j) : Inv t := by
  have hgood := hI.good_run hcode
  obtain ⟨hrunning, hnot⟩ : (s.slot j).state = .running ∧ ¬Hosted s j := hgood _ mem_cons_self
  have hready := hI.parked j hnot (.inr (.inr hrunning))
  have hunhost {q : Nat} (hq : ¬Hosted t q) : q ≠ j ∧ ¬Hosted s q := by
    have hqj : q ≠ j := fun he => hq ⟨h, he ▸ htcur⟩
    exact ⟨hqj, fun hh => hq ((hw.host q hqj).mpr hh)⟩
  have hproc (q : Nat) : t.thread (.proc q) = s.thread (.proc q) := hw.thread _ (by rw [hcur]; exact nofun)
  have hsched {g : Nat} (hg : g ≠ h) : t.thread (.sched g) = s.thread (.sched g) :=
    hw.thread _ (by rw [hcur]; exact fun he => hg (Tid.sched.inj he))
  constructor
  case shape => exact fun u => (hw.shape_all hI u).1
  case below => exact fun u => (hw.shape_all hI u).2.1
  case of => exact fun u => (hw.shape_all hI u).2.2
  case good => exact hw.good_all hI
  case nodup => exact fun u => hw.making_eq u ▸ hI.nodup u
  case apart => exact fun u v m hu hv => hI.apart u v m (hw.making_eq u ▸ hu) (hw.making_eq v ▸ hv)
  case fit =>
    refine hw.fit_all hI ?_
    have hs := hI.shape_run hcode
    have hfree : Free rest := ⟨hs.2.2.2, hs.1⟩
    rw [State.run, htcur, hproc]
    refine (hI.fit h).congr ?_ ?_
    · rw [hready.held, hcode]
      simp [hfree.held]
    · rw [hready.load, hcode]
      simp [load, hfree.held, hfree.extra]
  case cur =>
    intro g m hg
    by_cases hgh : g = h
    · rw [hgh, htcur] at hg
      contradiction
    · exact hI.cur g m ((hw.cur_ne hgh).symm.trans hg)
  case single =>
    have hother {g : Nat} (hgh : g ≠ h) (hg : (t.hart g).cur = .proc j) : False :=
      hnot ⟨g, (hw.cur_ne hgh).symm.trans hg⟩
    intro g g' q hg hg'
    by_cases hgh : g = h <;> by_cases hgh' : g' = h
    · exact hgh.trans hgh'.symm
    · rw [hgh, htcur] at hg
      exact (hother hgh' (hg'.trans hg.symm)).elim
    · rw [hgh', htcur] at hg'
      exact (hother hgh (hg.trans hg'.symm)).elim
    · exact hI.single g g' q ((hw.cur_ne hgh).symm.trans hg) ((hw.cur_ne hgh').symm.trans hg')
  case hosted =>
    intro g q hg
    by_cases hgh : g = h
    · subst hgh
      rw [htcur] at hg
      cases hg
      rw [hw.proc, hproc, hw.slot, ← hcur, hw.code]
      refine ⟨?_, rfl, hrunning.trans hready.state.symm⟩
      have hs := (hI.sched g hcur).1
      rwa [← hcur, ← State.run, hcode] at hs
    · rw [hw.hart g hgh, hsched hgh, hw.slot, hproc]
      exact hI.hosted g q ((hw.cur_ne hgh).symm.trans hg)
  case sched =>
    intro g hg
    have hgh : g ≠ h := by
      rintro rfl
      rw [htcur] at hg
      contradiction
    have hg' := (hw.cur_ne hgh).symm.trans hg
    rw [hw.hart g hgh, hsched hgh]
    refine ⟨(hI.sched g hg').1, fun q hq hh => ?_⟩
    have hqj : q ≠ j := by
      -- Hart `g` would still have the lock of `j` from its last switch.
      rintro rfl
      have hl : s.lock (.proc q) = some g := by
        refine ((hI.fit g).lock _).mpr ?_
        rw [State.run, hg']
        exact held_of_mark (.inr (.inr hq))
      exact hgh (some.inj (hl.symm.trans hw.mine))
    exact (hI.sched g hg').2 q hq ((hw.host q hqj).mp hh)
  case parked =>
    intro q hq ha
    rw [hproc]
    rw [hw.slot] at ha
    exact hI.parked q (hunhost hq).2 ha
  case loose =>
    intro q hq
    rw [hproc]
    exact hI.loose q (hunhost hq).2
  case claimed =>
    intro q hq hr
    rw [hw.slot] at hr
    obtain ⟨g, hg, hm⟩ := hI.claimed q (hunhost hq).2 hr
    have hgh : g ≠ h := by
      rintro rfl
      rw [← hcur, ← State.run, hcode] at hm
      rcases hm with hm | hm <;> cases hm
      exact (hunhost hq).1 rfl
    exact ⟨g, (hw.cur_ne hgh).trans hg, by rwa [hsched hgh]⟩

theorem leave_firm {k : Leave} {pc : LeavePc} (hs : Shape (.leave p k pc :: rest)) (hf : f ∈ rest) : firm f = [] := by
  cases k with
  | sleep ch lk => exact hs.1.2.2.2.2 f hf
  | _ => exact Free.firm ⟨hs.2.2.2, hs.1⟩ hf

theorem inv_toSched {k : Leave} {b : Bool} (hI : Inv s) (hw : Switches s t h p (.leave p k (.resume b) :: rest))
    (hkeep : Keeps (s.run h).code (.leave p k (.resume b) :: rest))
    (hcode : (s.run h).code = .leave p k .sched :: rest) (hcur : (s.hart h).cur = .proc p)
    (htcur : (t.hart h).cur = .sched h) (hnoff : (s.hart h).cpu.noff = 1) (hrun : (s.slot p).state ≠ .running) :
    Inv t := by
  obtain ⟨hproc, hmark, hstate⟩ := hI.hosted h p hcur
  have hsched (g : Nat) : t.thread (.sched g) = s.thread (.sched g) := hw.thread _ (by rw [hcur]; exact nofun)
  have hthread {q : Nat} (hq : q ≠ p) : t.thread (.proc q) = s.thread (.proc q) :=
    hw.thread _ (by rw [hcur]; exact fun he => hq (Tid.proc.inj he))
  have hnot : ¬Hosted t p := by
    rintro ⟨g, hg⟩
    have hgh : g ≠ h := by
      rintro rfl
      rw [htcur] at hg
      contradiction
    exact hgh (hI.single g h p ((hw.cur_ne hgh).symm.trans hg) hcur)
  have hunhost {q : Nat} (hqp : q ≠ p) (hq : ¬Hosted t q) : ¬Hosted s q := fun hh => hq ((hw.host q hqp).mpr hh)
  have hload : load (s.run h).code = 1 := (hI.fit h).noff.symm.trans hnoff
  have hheld : held (s.run h).code = [.proc p] := by
    have hm : .proc p ∈ held (s.run h).code := ((hI.fit h).lock _).mp hw.mine
    have hlen : (held (s.run h).code).length ≤ 1 := by
      rw [← hload, load]
      exact Nat.le_add_right ..
    obtain ⟨l, hl⟩ := length_eq_one_iff.mp (Nat.le_antisymm hlen (length_pos_of_mem hm))
    rw [hl] at hm ⊢
    rw [mem_singleton.mp hm]
  constructor
  case shape => exact fun u => (hw.shape_all hI u).1
  case below => exact fun u => (hw.shape_all hI u).2.1
  case of => exact fun u => (hw.shape_all hI u).2.2
  case good => exact hw.good_all hI
  case nodup => exact fun u => hw.making_eq u ▸ hI.nodup u
  case apart => exact fun u v m hu hv => hI.apart u v m (hw.making_eq u ▸ hu) (hw.making_eq v ▸ hv)
  case fit =>
    refine hw.fit_all hI ?_
    obtain ⟨r, hr⟩ := code_of_mark hmark
    have hfree : Free r := by
      have hs := hI.shape (.sched h)
      rw [hr] at hs
      exact ⟨hs.2.2.2, hs.1⟩
    rw [State.run, htcur, hsched, hr]
    refine (hI.fit h).congr ?_ ?_
    · rw [hheld]
      simp [hfree.held]
    · rw [hload]
      simp [load, hfree.held, hfree.extra]
  case cur =>
    intro g m hg
    by_cases hgh : g = h
    · rw [hgh, htcur] at hg
      rw [hgh]
      exact (Tid.sched.inj hg).symm
    · exact hI.cur g m ((hw.cur_ne hgh).symm.trans hg)
  case single =>
    have hne {g q : Nat} (hg : (t.hart g).cur = .proc q) : g ≠ h := by
      rintro rfl
      rw [htcur] at hg
      contradiction
    intro g g' q hg hg'
    exact hI.single g g' q ((hw.cur_ne (hne hg)).symm.trans hg) ((hw.cur_ne (hne hg')).symm.trans hg')
  case hosted =>
    intro g q hg
    have hgh : g ≠ h := by
      rintro rfl
      rw [htcur] at hg
      contradiction
    have hqp : q ≠ p := fun he => hnot ⟨g, he ▸ hg⟩
    rw [hw.hart g hgh, hsched, hw.slot, hthread hqp]
    exact hI.hosted g q ((hw.cur_ne hgh).symm.trans hg)
  case sched =>
    intro g hg
    rw [hsched]
    by_cases hgh : g = h
    · subst hgh
      rw [hw.proc, hproc, hmark]
      refine ⟨rfl, fun q hq => ?_⟩
      cases hq
      exact hnot
    · have hg' := (hw.cur_ne hgh).symm.trans hg
      rw [hw.hart g hgh]
      refine ⟨(hI.sched g hg').1, fun q hq hh => ?_⟩
      by_cases hqp : q = p
      · exact hnot (hqp ▸ hh)
      · exact (hI.sched g hg').2 q hq ((hw.host q hqp).mp hh)
  case parked =>
    intro q hq ha
    rw [hw.slot] at ha
    by_cases hqp : q = p
    · subst hqp
      rw [← hcur, hw.code]
      refine ⟨hkeep.2.1.trans hheld, hkeep.2.2.trans hload, ?_⟩
      rw [hstate, ← hcur, ← State.run, hcode] at ha
      cases k with
      | exit st => rcases ha with ha | ha | ha <;> cases ha
      | _ => rfl
    · rw [hthread hqp]
      exact hI.parked q (hunhost hqp hq) ha
  case loose =>
    intro q hq
    by_cases hqp : q = p
    · subst hqp
      rw [← hcur, hw.code]
      intro f hf
      rcases mem_cons.mp hf with rfl | hf
      · cases k <;> rfl
      · exact leave_firm hw.shape hf
    · rw [hthread hqp]
      exact hI.loose q (hunhost hqp hq)
  case claimed =>
    intro q hq hr
    rw [hw.slot] at hr
    have hqp : q ≠ p := fun he => hrun (he ▸ hr)
    obtain ⟨g, hg, hm⟩ := hI.claimed q (hunhost hqp hq) hr
    have hgh : g ≠ h := by
      rintro rfl
      rw [hcur] at hg
      contradiction
    exact ⟨g, (hw.cur_ne hgh).trans hg, by rwa [hsched]⟩

theorem switches_of (hI : Inv s) (hd : fetch s h a = some i) (ho : Outcome s h i t)
    (hi : i = .toProc j (f :: rest) ∨ i = .toSched (f :: rest)) (hmine : s.lock (.proc j) = some h)
    (hhost : ∀ q, q ≠ j → (Hosted t q ↔ Hosted s q)) (hf : Good t (s.hart h).cur f)
    (hr : AllGood s (s.hart h).cur rest) (hfirm : ∀ f ∈ rest, firm f = [])
    (hmade : making (f :: rest) = making (s.run h).code) : Switches s t h j (f :: rest) := by
  have hc : next i = some (f :: rest) := by rcases hi with rfl | rfl <;> rfl
  have hspawn : spawns i = none := by rcases hi with rfl | rfl <;> rfl
  have hslot : t.slot = s.slot := by rw [ho.slot]; rcases hi with rfl | rfl <;> rfl
  have hthread {u : Tid} (hu : u ≠ (s.hart h).cur) : t.thread u = s.thread u :=
    ho.thread_ne hu (by rw [hspawn]; exact nofun)
  exact {
    hart := fun _ hg => ho.hart_ne hg
    thread := fun _ hu => hthread hu
    code := ho.code hc
    lock := by rcases hi with rfl | rfl <;> cases ho <;> rfl
    slot := hslot
    cpu := by rcases hi with rfl | rfl <;> cases ho <;> simp [State.commit, State.setHart, State.setThread]
    proc := by rw [ho.proc_eq]; rcases hi with rfl | rfl <;> rfl
    mine := hmine
    host := hhost
    shape := balanced_shape (hI.balanced hd) hc
    below := fetch_below hd hc (hI.shape _) (hI.fit h).sie (hI.below _)
    of := fetch_of hd hc (hI.of _) (fun _ hp hm => hI.proc_cur hp hm)
    good := by
      refine AllGood.cons (fun g hg => ?_) hf
      refine good_congr (hr g hg) (fun m hm => ?_) (fun m hm => ?_)
      · rw [hfirm g hg] at hm
        exact absurd hm not_mem_nil
      · have hn := hI.not_hosted (.inl (used_of_made (hr g hg) hm))
        rw [hslot, hthread (fun he => hn ⟨h, he.symm⟩)]
        exact ⟨rfl, rfl⟩
    made := hmade }

theorem inv_swtch (hI : Inv s) (hd : fetch s h a = some (.toProc j c)) (hcode : (s.run h).code = f :: rest)
    (hdec : decode s h rest f = some (.toProc j c)) (ho : Outcome s h (.toProc j c) t) : Inv t := by
  obtain ⟨rfl, rfl⟩ := decode_switch hdec
  have hgood := hI.good_run hcode
  have hof := hI.of_run hcode
  have hshape := hI.shape_run hcode
  have hcur : (s.hart h).cur = .sched h := hI.sched_of (f := .swtch j) rfl (hof _ mem_cons_self)
  have hmine : s.lock (.proc j) = some h := ((hI.fit h).lock _).mpr (hcode ▸ mem_cons_self)
  have hhost (q : Nat) (hq : q ≠ j) : Hosted t q ↔ Hosted s q := by
    refine exists_congr (fun g => ?_)
    by_cases hg : g = h
    · subst hg
      rw [ho.cur, hcur]
      exact ⟨fun he => absurd (Tid.proc.inj he).symm hq, nofun⟩
    · rw [ho.hart_ne hg]
  refine inv_toProc hI (switches_of hI hd ho (.inl rfl) hmine hhost trivial ?_ ?_ ?_) hcode hcur ho.cur
  · exact fun g hg => hgood g (mem_cons_of_mem _ hg)
  · exact fun g hg => Free.firm ⟨hshape.2.2.2, hshape.1⟩ hg
  · rw [hcode]
    rfl

theorem inv_sched (hI : Inv s) (hd : fetch s h a = some (.toSched c)) (hcode : (s.run h).code = f :: rest)
    (hdec : decode s h rest f = some (.toSched c)) (ho : Outcome s h (.toSched c) t) : Inv t := by
  obtain ⟨p, k, rfl, rfl, hmine, hnoff, hrun⟩ := decode_toSched hdec
  have hgood := hI.good_run hcode
  have hof := hI.of_run hcode
  have hshape := hI.shape_run hcode
  have hcur : (s.hart h).cur = .proc p := (hof _ mem_cons_self).own p rfl
  have hhost (q : Nat) (hq : q ≠ p) : Hosted t q ↔ Hosted s q := by
    refine exists_congr (fun g => ?_)
    by_cases hg : g = h
    · subst hg
      rw [ho.cur, hcur]
      exact ⟨nofun, fun he => absurd (Tid.proc.inj he).symm hq⟩
    · rw [ho.hart_ne hg]
  refine inv_toSched hI (switches_of hI hd ho (.inr rfl) hmine hhost trivial ?_ ?_ ?_) (hI.balanced hd) hcode hcur
    ho.cur hnoff hrun
  · exact fun g hg => hgood g (mem_cons_of_mem _ hg)
  · exact fun g hg => leave_firm hshape hg
  · rw [hcode]
    rfl

end Switch

section Run

theorem step_cases (hstep : step n s a = some t) : ∃ i u, a.hart < n ∧ (s.hart a.hart).stop = none ∧
    fetch s a.hart a = some i ∧ apply s a.hart i = some u ∧ t = u.note (recorded s a.hart a) := by
  unfold step at hstep
  split at hstep
  · rename_i hh
    obtain ⟨u, hu, rfl⟩ := map_eq_some_iff.mp hstep
    obtain ⟨i, hi, ha⟩ := bind_eq_some_iff.mp hu
    exact ⟨i, u, hh.1, hh.2, hi, ha, rfl⟩
  · contradiction

theorem Inv.congr (hI : Inv s) (hcur : ∀ g, (t.hart g).cur = (s.hart g).cur)
    (hcpu : ∀ g, (t.hart g).cpu = (s.hart g).cpu) (hproc : ∀ g, (t.hart g).proc = (s.hart g).proc)
    (hthread : t.thread = s.thread) (hslot : t.slot = s.slot) (hlock : t.lock = s.lock) : Inv t := by
  have hhost {q : Nat} : Hosted t q ↔ Hosted s q := by simp only [Hosted, hcur]
  have hrun (g : Nat) : t.run g = s.run g := by rw [State.run, State.run, hthread, hcur]
  have hgood (u : Tid) : AllGood t u (s.thread u).code := by
    intro f hf
    refine good_congr (hI.good u f hf) (fun j _ => ?_) (fun j _ => ?_)
    · rw [hslot]
      exact ⟨rfl, hhost, .inr rfl⟩
    · rw [hslot, hthread]
      exact ⟨rfl, rfl⟩
  constructor
  case good =>
    rw [hthread]
    exact hgood
  all_goals
    simp only [hcur, hcpu, hproc, hrun, hhost, hthread, hslot, hlock]
  case shape => exact hI.shape
  case below => exact hI.below
  case of => exact hI.of
  case nodup => exact hI.nodup
  case apart => exact hI.apart
  case fit => exact hI.fit
  case cur => exact hI.cur
  case single => exact hI.single
  case hosted => exact hI.hosted
  case sched => exact hI.sched
  case parked => exact hI.parked
  case loose => exact hI.loose
  case claimed => exact hI.claimed

theorem inv_note (hI : Inv s) (es : List Event) : Inv (s.note es) :=
  hI.congr (fun _ => rfl) (fun _ => rfl) (fun _ => rfl) rfl rfl rfl

theorem inv_fail (hI : Inv s) (h : Nat) (e : Stop) : Inv (s.fail h e) := by
  have hsame {α : Type} (F : Hart → α) (hF : F { s.hart h with stop := some e } = F (s.hart h)) (g : Nat) :
      F ((s.fail h e).hart g) = F (s.hart g) := by
    by_cases hg : g = h
    · rw [hg, State.fail, State.setHart]
      exact (congrArg F (update_self ..)).trans hF
    · rw [State.fail, State.setHart]
      exact congrArg F (update_of_ne hg ..)
  exact hI.congr (hsame Hart.cur rfl) (hsame Hart.cpu rfl) (hsame Hart.proc rfl) rfl rfl rfl

theorem inv_step (hI : Inv s) (hstep : step n s a = some t) : Inv t := by
  obtain ⟨i, u, -, -, hd, ha, rfl⟩ := step_cases hstep
  refine inv_note ?_ _
  have ho := hI.outcome hd ha
  generalize a.hart = h at hd ha ho
  by_cases hq : quiet i = true
  · exact inv_quiet hI hd hq ho
  obtain ⟨g, f, rest, rfl, hcode, hdec⟩ := fetch_loud hd (Bool.not_eq_true _ ▸ hq)
  cases i with
  | store j x c => exact inv_store hI hcode hdec (stays_of hI hd ho rfl rfl rfl) ho.slot ho.proc_eq
  | spawn j c => exact inv_spawn hI hd hcode hdec ho
  | proc o c => exact inv_proc hI hd hcode hdec ho
  | stop e =>
    cases ho
    exact inv_fail hI h e
  | toProc j c => exact inv_swtch hI hd hcode hdec ho
  | toSched c => exact inv_sched hI hd hcode hdec ho
  | _ => exact absurd rfl hq

theorem step_slot (hI : Inv s) (hstep : step n s a = some t) : t.slot = s.slot ∨ ∃ f rest j x c, a = .exec a.hart ∧
    (s.run a.hart).code = f :: rest ∧ decode s a.hart rest f = some (.store j x c) ∧
    t.slot = update s.slot j x ∧ Stored s (s.hart a.hart).cur f rest j x c := by
  obtain ⟨i, u, -, -, hd, ha, rfl⟩ := step_cases hstep
  have ho := hI.outcome hd ha
  have hslot : (u.note (recorded s a.hart a)).slot = slots s i := ho.slot
  cases i with
  | store j x c =>
    obtain ⟨g, f, rest, rfl, hcode, hdec⟩ := fetch_loud hd rfl
    exact .inr ⟨f, rest, j, x, c, rfl, hcode, hdec, hslot, hI.stored hcode hdec⟩
  | _ => exact .inl hslot

theorem step_outcome (hI : Inv s) (hstep : step n s a = some t) : ∃ i v, fetch s a.hart a = some i ∧
    Outcome s a.hart i v ∧ t = v.note (recorded s a.hart a) := by
  obtain ⟨i, v, -, -, hd, ha, rfl⟩ := step_cases hstep
  exact ⟨i, v, hd, hI.outcome hd ha, rfl⟩

theorem note_nil (s : State) : s.note [] = s := by
  simp only [State.note, append_nil]

inductive Moves (s t : State) : Act → Prop
  | code (h : Nat) (f : Frame) (rest : List Frame) (i : Instr) (v : State) (hcode : (s.run h).code = f :: rest)
      (hd : decode s h rest f = some i) (ho : Outcome s h i v) (ht : t = v.note (events s f ++ returns s h f)) :
      Moves s t (.exec h)
  | other (a : Act) (i : Instr) (ha : ∀ g, a ≠ .exec g) (hd : fetch s a.hart a = some i) (hq : quiet i = true)
      (hn : t.nextpid = s.nextpid) (ho : Outcome s a.hart i t) : Moves s t a

theorem step_moves (hI : Inv s) (hstep : step n s a = some t) : Moves s t a := by
  obtain ⟨i, v, hd, ho, rfl⟩ := step_outcome hI hstep
  by_cases ha : ∃ g, a = .exec g
  · obtain ⟨g, rfl⟩ := ha
    cases fetch_cases hd with
    | exec _ f rest _ hcode hdec =>
      change (s.run g).code = f :: rest at hcode
      exact .code g f rest i v hcode hdec ho (by simp only [recorded, Act.hart, hcode])
    | trap _ _ _ _ _ _ _ ht => cases ht
  · have hrec : recorded s a.hart a = [] := by
      cases a <;> first | rfl | exact absurd ⟨_, rfl⟩ ha
    rw [hrec, note_nil]
    refine .other a i (fun g hg => ha ⟨g, hg⟩) hd ?_ ?_ ho
    · by_contra hq
      obtain ⟨g, -, -, hg, -⟩ := fetch_loud hd (Bool.not_eq_true _ ▸ hq)
      exact ha ⟨g, hg⟩
    · rw [ho.nextpid_eq]
      cases i <;> first | rfl | exact absurd (fetch_nextpid hd) ha

/-- What the frames of all threads know after a step: the new code of the
thread that took it, the old code of the others, and the code of a new one. -/
theorem frames_step {P : Tid → Frame → Prop} (ho : Outcome s h i t)
    (hself : ∀ f ∈ (next i).getD (s.run h).code, P (s.hart h).cur f)
    (hkeep : ∀ u, u ≠ (s.hart h).cur → ∀ f ∈ (s.thread u).code, P u f)
    (hnew : ∀ j, spawns i = some j → ∀ f ∈ forkret j, P (.proc j) f) : ∀ u, ∀ f ∈ (t.thread u).code, P u f := by
  intro u f hf
  rcases ho.thread_cases u with rfl | ⟨-, j, hj, rfl, he⟩ | ⟨hu, he⟩
  · rw [ho.code_self] at hf
    exact hself f hf
  · rw [he] at hf
    exact hnew j hj f hf
  · rw [he] at hf
    exact hkeep u hu f hf

theorem boot_cases (u : Tid) : (boot.thread u).code = [.schedLoop] ∧ (∃ m, u = .sched m) ∨
    (boot.thread u).code = forkret initproc ∧ u = .proc initproc ∨ (boot.thread u).code = [] ∧ ∃ q, u = .proc q := by
  cases u with
  | sched m => exact .inl ⟨rfl, m, rfl⟩
  | proc q =>
    by_cases hq : q = initproc
    · subst hq
      exact .inr (.inl ⟨rfl, rfl⟩)
    · exact .inr (.inr ⟨by simp [boot, hq], q, rfl⟩)

theorem forall_boot {P : Tid → Frame → Prop} (hsched : ∀ m, P (.sched m) .schedLoop)
    (hfork : ∀ f ∈ forkret initproc, P (.proc initproc) f) (u : Tid) : ∀ f ∈ (boot.thread u).code, P u f := by
  rcases boot_cases u with ⟨hc, m, rfl⟩ | ⟨hc, rfl⟩ | ⟨hc, -⟩ <;> rw [hc]
  · exact forall_mem_singleton.mpr (hsched m)
  · exact hfork
  · exact fun _ hf => absurd hf not_mem_nil

theorem boot_inactive (hq : q ≠ initproc) : ¬Active (boot.slot q).state := by
  simp [boot, hq, Active]

theorem inv_boot : Inv boot := by
  constructor
  case shape =>
    intro u
    rcases boot_cases u with ⟨hc, -⟩ | ⟨hc, -⟩ | ⟨hc, -⟩ <;> rw [hc]
    · exact (free_single (f := .schedLoop) rfl rfl rfl).shape
    · exact shape_forkret _
    · trivial
  case below =>
    intro u
    rcases boot_cases u with ⟨hc, -⟩ | ⟨hc, -⟩ | ⟨hc, -⟩ <;> rw [hc]
    · exact allBelow_nil
    · exact AllBelow.tail (forall_forkret _ trivial trivial trivial trivial trivial trivial)
    · exact allBelow_nil
  case of =>
    exact forall_boot (P := Of) (fun m => ⟨nofun, fun _ => ⟨m, rfl⟩⟩) (forall_forkret _ (of_plain rfl rfl)
      (of_plain rfl rfl) (of_plain rfl rfl) (of_plain rfl rfl) (of_plain rfl rfl) (of_plain rfl rfl))
  case good => exact forall_boot (P := Good boot) (fun _ => trivial) (forall_forkret _ trivial trivial trivial trivial trivial trivial)
  case nodup =>
    intro u
    rcases boot_cases u with ⟨hc, -⟩ | ⟨hc, -⟩ | ⟨hc, -⟩ <;> rw [hc] <;> exact nodup_nil
  case apart =>
    intro u v j hj
    rcases boot_cases u with ⟨hc, -⟩ | ⟨hc, -⟩ | ⟨hc, -⟩ <;> rw [hc] at hj <;> exact absurd hj not_mem_nil
  case fit => exact fun h => ⟨rfl, nofun, fun l => ⟨nofun, nofun⟩⟩
  case cur => exact fun h m hm => (Tid.sched.inj hm).symm
  case single => exact fun h g q hq => nomatch hq
  case hosted => exact fun h q hq => nomatch hq
  case sched => exact fun h _ => ⟨rfl, nofun⟩
  case parked =>
    intro q _ ha
    by_cases hq : q = initproc
    · subst hq
      exact ready_forkret _
    · exact absurd ha (boot_inactive hq)
  case loose =>
    intro q _
    rcases boot_cases (.proc q) with ⟨hc, -⟩ | ⟨hc, -⟩ | ⟨hc, -⟩ <;> rw [hc]
    · exact fun f hf => mem_singleton.mp hf ▸ rfl
    · exact forall_forkret _ rfl rfl rfl rfl rfl rfl
    · exact nofun
  case claimed =>
    intro q _ hr
    by_cases hq : q = initproc
    · subst hq
      cases hr
    · exact absurd (.inr (.inr hr)) (boot_inactive hq)

end Run

end Xv6Rcu.ProcessTable

import Xv6Rcu.ProcessTable

namespace Xv6Rcu.ProcessTable

open Process ProcessCode ProcessInv Function List

variable {n h g j p q : Nat} {s t : State} {u v : Tid} {f : Frame} {c rest : List Frame} {l : LockId} {i : Instr}
  {a : Act} {x : Slot}

section Stores

/-- The changes of the state of entry `j` from `y` to `z` when thread `u` goes
on from frame `f` to `c`. -/
inductive Change (s : State) (u : Tid) (f : Frame) (rest c : List Frame) (j : Nat) (y z : ProcState) : Prop
  | same (hz : z = y) (hm : making c = making (f :: rest)) (hk : mark c = none)
  | leave (hu : u = .proc j) (hz : z = stateOf c) (hm : making c = making (f :: rest)) (hk : mark c = none)
  | wake (hy : y = .sleeping) (hz : z = .runnable) (hm : making c = making (f :: rest)) (hk : mark c = none)
  | free (hy : y = .zombie) (hz : z = .unused) (hm : making c = making (f :: rest)) (hk : mark c = none)
  | discard (hy : y = .used) (hz : z = .unused) (hf : made f = some j) (hm : making c = making rest)
      (hk : mark c = none)
  | alloc (hy : y = .unused) (hz : z = .used) (hm : making c = j :: making (f :: rest)) (hk : mark c = none)
  | ready (hy : y = .used) (hz : z = .runnable) (hr : Ready (s.thread (.proc j)).code j)
      (hf : made f = some j) (hm : making c = making rest) (hk : mark c = none)
  | run (hy : y = .runnable) (hz : z = .running) (hs : scheds f = true) (ha : Hosted s j ∨ Admits s u j)
      (hm : making c = making (f :: rest)) (hk : mark c = some (.schedProc j))

structure Stored (s : State) (u : Tid) (f : Frame) (rest : List Frame) (j : Nat) (x : Slot) (c : List Frame) :
    Prop where
  mark_old : mark (f :: rest) = none
  state_old : stateOf (f :: rest) = .running
  apart : ∀ m, .proc m ∉ held rest
  lock : x.state ≠ (s.slot j).state → .proc j ∈ held (f :: rest)
  affinity : x.affinity = (s.slot j).affinity ∨ u = .proc j ∨ .proc j ∈ held (f :: rest)
  state : stateOf c = .running ∨ u = .proc j ∧ x.state = stateOf c
  change : Change s u f rest c j (s.slot j).state x.state

theorem not_held_of_load (hl : load rest = 0) (m : Nat) : .proc m ∉ held rest := by
  rw [(load_eq_zero.mp hl).1]
  exact not_mem_nil

theorem decodeLeave_stored {k : Leave} {pc : LeavePc} (hs : Shape (.leave p k pc :: rest))
    (hd : decodeLeave s h p k rest pc = some (.store j x c)) (hu : u = .proc p) :
    Stored s u (.leave p k pc) rest j x c := by
  have hrest (m : Nat) : .proc m ∉ held rest := by
    cases k with
    | sleep ch lk =>
      rw [hs.1.2.1]
      simpa using fun he => hs.1.1 m he.symm
    | _ => exact not_held_of_load hs.1 m
  have hlock : .proc p ∈ held (.leave p k pc :: rest) := by
    cases k <;> cases pc <;> exact mem_cons_self
  have hsched (he : Instr.store j x c = schedOut s h p k rest) : False := by
    simp only [schedOut] at he
    repeat' split at he
    all_goals contradiction
  cases pc with
  | first =>
    cases k <;> cases hd
    all_goals exact ⟨rfl, rfl, hrest, fun _ => hlock, .inl rfl, .inr ⟨hu, rfl⟩, .leave hu rfl rfl rfl⟩
  | second =>
    cases k <;> cases hd
    exact ⟨rfl, rfl, hrest, fun _ => hlock, .inl rfl, .inr ⟨hu, rfl⟩, .leave hu rfl rfl rfl⟩
  | sched => exact (hsched (Option.some.inj hd).symm).elim
  | clear =>
    cases hd
    exact ⟨rfl, by cases k <;> rfl, hrest, fun _ => hlock, .inl rfl, .inl (by cases k <;> rfl), .same rfl rfl rfl⟩
  | resume b => cases k <;> cases hd
  | _ => cases hd

theorem decode_stored (hs : Shape (f :: rest)) (hd : decode s h rest f = some (.store j x c)) (hf : Good s u f)
    (hu : ∀ p, own f = some p → u = .proc p) (hb : AllBelow rest) : Stored s u f rest j x c := by
  cases f with
  | leave p k pc => exact decodeLeave_stored hs hd (hu p rfl)
  | setKilled p =>
    cases hd
    exact ⟨rfl, rfl, not_held_of_load hs.1, fun hx => absurd rfl hx, .inl rfl, .inl rfl, .same rfl rfl rfl⟩
  | syncLoop p ca m =>
    have hu := hu p rfl
    simp only [decode] at hd
    split at hd <;> cases hd
    · exact ⟨rfl, rfl, not_held_of_load hs.1, fun hx => absurd rfl hx, .inr (.inl hu), .inl rfl,
        .same rfl rfl rfl⟩
    · exact ⟨rfl, rfl, not_held_of_load hs.1, fun hx => absurd rfl hx, .inr (.inl hu), .inl hb.state,
        .same rfl rfl hb.mark⟩
  | wakeTest ch m =>
    simp only [decode] at hd
    split at hd <;> cases hd
    rename_i hw
    exact ⟨rfl, rfl, hs.1.1, fun _ => mem_cons_self, .inl rfl, .inl rfl, .wake hw.1 rfl rfl rfl⟩
  | reparent p st m =>
    simp only [decode] at hd
    repeat' split at hd
    all_goals cases hd
    exact ⟨rfl, rfl, not_held_of_load hs.1, fun hx => absurd rfl hx, .inl rfl, .inl rfl, .same rfl rfl rfl⟩
  | waitFree p m pid st =>
    cases hd
    exact ⟨rfl, rfl, not_held_of_load hs.1, fun _ => mem_cons_self, .inl rfl, .inl rfl,
      .free hf rfl rfl rfl⟩
  | allocSet p k m pid =>
    cases hd
    exact ⟨rfl, rfl, not_held_of_load hs.1, fun _ => mem_cons_self, .inr (.inr mem_cons_self),
      .inl rfl, .alloc hf rfl rfl rfl⟩
  | freeproc m =>
    cases hd
    exact ⟨rfl, rfl, not_held_of_load hs.1, fun _ => mem_cons_self, .inl rfl, .inl rfl,
      .discard hf rfl rfl rfl rfl⟩
  | setParent p k m pid =>
    cases k <;> cases hd
    all_goals exact ⟨rfl, rfl, not_held_of_load hs.1, fun hx => absurd rfl hx, .inl rfl, .inl rfl,
      .same rfl rfl rfl⟩
  | setRunnable m pid =>
    cases hd
    exact ⟨rfl, rfl, not_held_of_load hs.1, fun _ => mem_cons_self, .inl rfl, .inl rfl,
      .ready hf.1 rfl hf.2 rfl rfl rfl⟩
  | killTest pid m =>
    simp only [decode] at hd
    split at hd <;> cases hd
    refine ⟨rfl, rfl, not_held_of_load hs.1, fun _ => mem_cons_self, .inl rfl, .inl rfl, ?_⟩
    by_cases hw : (s.slot j).state = .sleeping
    · exact .wake hw (if_pos hw) rfl rfl
    · exact .same (if_neg hw) rfl rfl
  | schedCheck m =>
    simp only [decode] at hd
    split at hd <;> cases hd
    rename_i hr
    exact ⟨rfl, rfl, not_held_of_load hs.1, fun _ => mem_cons_self, .inl rfl, .inl rfl,
      .run hr rfl rfl hf rfl rfl⟩
  | timerCheck => simp only [decode] at hd; split at hd <;> cases hd
  | timerState => simp only [decode] at hd; split at hd <;> cases hd
  | _ =>
    simp only [decode] at hd
    repeat' split at hd
    all_goals cases hd

/-- The lock of its process protects every state that a thread gives itself. -/
theorem held_of_state (ho : AllOf (.proc q) c) (hs : stateOf c ≠ .running) : .proc q ∈ held c := by
  cases c with
  | nil => exact absurd rfl hs
  | cons f rest =>
    cases f with
    | leave p k pc =>
      have hp : Tid.proc q = .proc p := (ho _ mem_cons_self).own p rfl
      cases hp
      cases k <;> cases pc <;> exact mem_cons_self
    | _ => exact absurd rfl hs

theorem Inv.hosted_running (hI : Inv s) (hc : (s.hart g).cur = .proc q) (hl : s.lock (.proc q) ≠ some g) :
    (s.slot q).state = .running := by
  by_contra hne
  refine hl (((hI.fit g).lock _).mpr ?_)
  rw [(hI.hosted g q hc).2.2] at hne
  rw [State.run, hc]
  exact held_of_state (hI.of _) hne

theorem Inv.not_hosted_of_lock (hI : Inv s) (hl : s.lock (.proc j) = some h) (hne : (s.slot j).state ≠ .running)
    (hu : (s.hart h).cur ≠ .proc j) : ¬Hosted s j := by
  rintro ⟨g, hg⟩
  refine hne (hI.hosted_running hg (fun he => ?_))
  rw [hl] at he
  exact hu (Option.some.inj he ▸ hg)

theorem decode_stored_good (hd : decode s h rest f = some (.store j x c)) (hf : Good s u f)
    (hslot : t.slot j = x) (hthread : (s.slot j).state = .used → (t.thread (.proc j)).code = (s.thread (.proc j)).code)
    (hrun : scheds f = true → (s.slot j).state = .runnable → x.state = .running → ¬Hosted t j)
    (hr : AllGood t u rest) :
    AllGood t u c := by
  cases f with
  | leave p k pc =>
    rcases decodeLeave_next hd rfl with ⟨pc', rfl⟩ | rfl
    · exact hr.cons trivial
    · cases k with
      | sleep ch lk => exact AllGood.cons (f := .acquire lk) hr trivial
      | _ => exact hr
  | allocSet p k m pid =>
    cases hd
    exact hr.cons (congrArg Slot.state hslot)
  | setParent p k m pid =>
    have hgood {pid : Int} (hx : x.state = .used) (hj : m = j) : Good t u (.setRunnable m pid) := by
      subst hj
      exact ⟨(congrArg Slot.state hslot).trans hx, hthread hf.1 ▸ hf.2⟩
    cases k <;> cases hd
    all_goals
      repeat first
        | exact hr
        | refine AllGood.cons ?_ trivial
        | refine AllGood.cons ?_ (hgood hf.1 rfl)
  | schedCheck m =>
    simp only [decode] at hd
    split at hd <;> cases hd
    rename_i hrunnable
    exact hr.cons ⟨congrArg Slot.state hslot, hrun rfl hrunnable rfl⟩
  | _ =>
    simp only [decode] at hd
    (repeat' split at hd) <;> first | contradiction | cases hd
    all_goals
      repeat first
        | exact hr
        | refine AllGood.cons ?_ trivial

theorem making_made (hf : made f = some j) : making (f :: rest) = j :: making rest :=
  filterMap_cons_some hf

section

variable (hS : Stored s u f rest j x c)

include hS

theorem Stored.mark_cases :
    mark c = none ∨ mark c = some (.schedProc j) ∧ x.state = .running := by
  cases hS.change with
  | run _ hz _ _ _ hk => exact .inr ⟨hk, hz⟩
  | _ => exact .inl ‹_›

theorem Stored.used (hy : (s.slot j).state = .used) (hu : u ≠ .proc j) :
    x.state = .used ∨ made f = some j := by
  cases hS.change with
  | same hz => exact .inl (hz.trans hy)
  | leave h => exact absurd h hu
  | discard _ _ hf => exact .inr hf
  | ready _ _ _ hf => exact .inr hf
  | wake h => exact absurd (hy.symm.trans h) nofun
  | free h => exact absurd (hy.symm.trans h) nofun
  | alloc h => exact absurd (hy.symm.trans h) nofun
  | run h => exact absurd (hy.symm.trans h) nofun

theorem Stored.running (hy : (s.slot j).state = .running) :
    x.state = .running ∨ u = .proc j ∧ x.state = stateOf c := by
  cases hS.change with
  | same hz => exact .inl (hz.trans hy)
  | leave hu hz => exact .inr ⟨hu, hz⟩
  | discard h => exact absurd (hy.symm.trans h) nofun
  | ready h => exact absurd (hy.symm.trans h) nofun
  | wake h => exact absurd (hy.symm.trans h) nofun
  | free h => exact absurd (hy.symm.trans h) nofun
  | alloc h => exact absurd (hy.symm.trans h) nofun
  | run h => exact absurd (hy.symm.trans h) nofun

theorem Stored.runs (hu : u ≠ .proc j) (hx : x.state = .running) :
    (s.slot j).state = .running ∨ mark c = some (.schedProc j) := by
  cases hS.change with
  | same hz => exact .inl (hz.symm.trans hx)
  | leave h => exact absurd h hu
  | run _ _ _ _ _ hk => exact .inr hk
  | discard _ hz => exact absurd (hx.symm.trans hz) nofun
  | ready _ hz => exact absurd (hx.symm.trans hz) nofun
  | wake _ hz => exact absurd (hx.symm.trans hz) nofun
  | free _ hz => exact absurd (hx.symm.trans hz) nofun
  | alloc _ hz => exact absurd (hx.symm.trans hz) nofun

theorem Stored.active (hu : u ≠ .proc j) (ha : Active x.state) :
    Active (s.slot j).state ∨ Ready (s.thread (.proc j)).code j := by
  have hno {P : Prop} (hx : x.state = .unused ∨ x.state = .used) : P := by
    rcases hx with hx | hx <;> rw [hx] at ha <;> rcases ha with ha | ha | ha <;> cases ha
  cases hS.change with
  | same hz => exact .inl (hz ▸ ha)
  | leave h => exact absurd h hu
  | wake h => exact .inl (.inr (.inl h))
  | run h => exact .inl (.inl h)
  | ready _ _ hr => exact .inr hr
  | free _ hz => exact hno (.inl hz)
  | discard _ hz => exact hno (.inl hz)
  | alloc _ hz => exact hno (.inr hz)

theorem Stored.making :
    (making c).Sublist (making (f :: rest)) ∨ (s.slot j).state = .unused ∧ making c = j :: making (f :: rest) := by
  cases hS.change with
  | alloc hy _ hm => exact .inr ⟨hy, hm⟩
  | discard _ _ _ hm => exact .inl (hm ▸ making_cons_sublist)
  | ready _ _ _ _ hm => exact .inl (hm ▸ making_cons_sublist)
  | same _ hm => exact .inl (hm ▸ List.Sublist.refl _)
  | leave _ _ hm => exact .inl (hm ▸ List.Sublist.refl _)
  | wake _ _ hm => exact .inl (hm ▸ List.Sublist.refl _)
  | free _ _ hm => exact .inl (hm ▸ List.Sublist.refl _)
  | run _ _ _ _ hm => exact .inl (hm ▸ List.Sublist.refl _)

end

theorem inv_store (hI : Inv s) (hcode : (s.run h).code = f :: rest) (hd : decode s h rest f = some (.store j x c))
    (hst : Stays s t h c) (hslot : t.slot = update s.slot j x) (hproc : (t.hart h).proc = (s.hart h).proc) :
    Inv t := by
  have hshape := hI.shape_run hcode
  have hgood := hI.good_run hcode
  have hof := hI.of_run hcode
  have hbelow : AllBelow rest := by
    have := hI.below (s.hart h).cur
    rwa [← State.run, hcode] at this
  have hnodup : (making (f :: rest)).Nodup := hcode ▸ hI.nodup _
  obtain ⟨hgf, hgr⟩ := forall_mem_cons.mp hgood
  have hS := decode_stored hshape hd hgf (hof f mem_cons_self).own hbelow
  have hself : t.slot j = x := by rw [hslot, update_self]
  have hne {m : Nat} (hm : m ≠ j) : t.slot m = s.slot m := by rw [hslot, update_of_ne hm]
  have hlocked (hx : x.state ≠ (s.slot j).state) : s.lock (.proc j) = some h :=
    ((hI.fit h).lock _).mpr (hcode ▸ hS.lock hx)
  have hthread {m : Nat} (hm : (s.slot m).state = .used) : t.thread (.proc m) = s.thread (.proc m) :=
    hst.thread _ (fun he => hI.not_hosted (.inl hm) ⟨h, he.symm⟩)
  have hused (hy : (s.slot j).state = .used) : (s.hart h).cur ≠ .proc j :=
    fun he => hI.not_hosted (.inl hy) ⟨h, he⟩
  refine inv_stay hst hI ?_
  constructor
  case good =>
    refine decode_stored_good hd hgf hself (fun hy => by rw [hthread hy]) ?_ ?_
    · intro hs hy hz hh
      have hcur := hI.sched_of hs (hof f mem_cons_self)
      have hl := hlocked (by rw [hy, hz]; rintro ⟨⟩)
      exact hI.not_hosted_of_lock hl (by rw [hy]; rintro ⟨⟩) (by rw [hcur]; rintro ⟨⟩) (hst.hosted_iff.mp hh)
    · intro g hg
      refine good_congr (hgr g hg) (fun m hm => ?_) (fun m hm => ?_)
      · exact absurd (hshape.2.2.2.firm g hg _ hm) (hS.apart m)
      · have hu := used_of_made (hgr g hg) hm
        rw [hthread hu]
        refine ⟨?_, rfl⟩
        by_cases hmj : m = j
        · subst hmj
          rw [hself]
          rcases hS.used hu (hused hu) with hx | hf
          · exact hx.trans hu.symm
          · rw [making_made hf] at hnodup
            exact absurd (mem_filterMap.mpr ⟨g, hg, hm⟩) (nodup_cons.mp hnodup).1
        · rw [hne hmj]
  case nodup =>
    rcases hS.making with hm | ⟨hy, hm⟩
    · exact hm.nodup hnodup
    · rw [hm]
      refine nodup_cons.mpr ⟨fun hj => ?_, hnodup⟩
      rw [used_of_making hgood hj] at hy
      contradiction
  case fresh =>
    intro m hm
    rw [hcode]
    rcases hS.making with hmk | ⟨hy, hmk⟩
    · exact .inl (hmk.subset hm)
    · rw [hmk] at hm
      rcases mem_cons.mp hm with rfl | hm
      · exact .inr hy
      · exact .inl hm
  case own =>
    intro q hq
    obtain ⟨hp, -, hstate⟩ := hI.hosted h q hq
    rw [← hq, ← State.run, hcode, hS.state_old] at hstate
    refine ⟨?_, hproc.trans hp⟩
    by_cases hqj : q = j
    · subst hqj
      rw [hself]
      rcases hS.running hstate with hx | hx
      · rcases hS.state with hc | hc
        · exact hx.trans hc.symm
        · exact hc.2
      · exact hx.2
    · rw [hne hqj, hstate]
      rcases hS.state with hc | hc
      · exact hc.symm
      · exact absurd (Tid.proc.inj (hq.symm.trans hc.1)) hqj
  case sched =>
    intro hcs
    have hs := (hI.sched h hcs).1
    rw [← hcs, ← State.run, hcode, hS.mark_old] at hs
    rw [hproc, hs]
    rcases hS.mark_cases with hk | ⟨hk, -⟩ <;> rw [hk] <;> exact ⟨rfl, (by rintro _ ⟨⟩)⟩
  case other =>
    intro g q hg hq
    by_cases hqj : q = j
    · subst hqj
      rw [hself]
      by_contra hx
      have hrun := hI.hosted_running hq (by rw [hlocked hx]; exact fun he => hg (Option.some.inj he).symm)
      rcases hS.running hrun with hr | hr
      · exact hx (hr.trans hrun.symm)
      · exact hg (hI.single g h q hq hr.1)
    · rw [hne hqj]
  case active =>
    intro q hq ha
    by_cases hqj : q = j
    · subst hqj
      rw [hself] at ha
      rcases hS.active (fun he => hq ⟨h, he⟩) ha with ha | hr
      · exact hI.parked q hq ha
      · exact hr
    · rw [hne hqj] at ha
      exact hI.parked q hq ha
  case claimed =>
    intro q hq hr
    rw [hcode, hS.mark_old]
    by_cases hqj : q = j
    · subst hqj
      rw [hself] at hr
      rcases hS.runs (fun he => hq ⟨h, he⟩) hr with hy | hk
      · exact .inr (.inr ⟨hy, (by rintro ⟨⟩), (by rintro ⟨⟩)⟩)
      · exact .inl hk
    · rw [hne hqj] at hr
      exact .inr (.inr ⟨hr, (by rintro ⟨⟩), (by rintro ⟨⟩)⟩)
  case calm =>
    intro m hm
    by_cases hmj : m = j
    · subst hmj
      rw [hself]
      refine ⟨by_contra (fun hx => hm (hlocked hx)), ?_⟩
      rcases hS.affinity with ha | ha | ha
      · exact .inr ha
      · exact .inl ⟨h, ha⟩
      · exact absurd (((hI.fit h).lock _).mpr (hcode ▸ ha)) hm
    · rw [hne hmj]
      exact ⟨rfl, .inr rfl⟩
  case made =>
    intro v m hv hm
    by_cases hmj : m = j
    · subst hmj
      have hu := used_of_making (hI.good v) hm
      rw [hself]
      rcases hS.used hu (hused hu) with hx | hf
      · exact hx.trans hu.symm
      · have hmine : m ∈ making (s.thread (s.hart h).cur).code := by
          rw [← State.run, hcode, making_made hf]
          exact mem_cons_self
        exact absurd (hI.apart _ _ m hm hmine) hv
    · rw [hne hmj]

end Stores

section Identity

inductive Flagged (s : State) (u : Tid) (f : Frame) (j : Nat) (x : Slot) : Prop
  | same (hp : x.pid = (s.slot j).pid) (hk : x.killed = (s.slot j).killed)
      (hu : x.state = .unused ↔ (s.slot j).state = .unused) (hn : ∀ p k m v, f ≠ .allocSet p k m v)
  | mark (hp : x.pid = (s.slot j).pid) (hk : x.killed = true) (hu : x.state = .unused ↔ (s.slot j).state = .unused)
      (hn : ∀ p k m v, f ≠ .allocSet p k m v)
      (he : f = .killTest x.pid j ∨ f = .setKilled j ∧ u = .proc j)
  | freed (hp : x.pid = 0) (hk : x.killed = false) (hu : x.state = .unused)
      (hf : (∃ p v st, f = .waitFree p j v st) ∨ f = .freeproc j)
  | alloc (hk : x.killed = (s.slot j).killed) (hy : (s.slot j).state = .unused) (hu : x.state ≠ .unused)
      (he : ∃ p k, f = .allocSet p k j x.pid)

theorem decodeLeave_flagged {k : Leave} {pc : LeavePc} (hd : decodeLeave s h p k rest pc = some (.store j x c))
    (hrun : (s.slot p).state = .running) : Flagged s u (.leave p k pc) j x := by
  have hiff (hx : x.state ≠ .unused) (hj : p = j) : x.state = .unused ↔ (s.slot j).state = .unused := by
    rw [← hj, hrun]
    exact ⟨fun he => absurd he hx, nofun⟩
  cases pc with
  | first => cases k <;> cases hd <;> exact .same rfl rfl (hiff nofun rfl) nofun
  | second =>
    cases k <;> cases hd
    exact .same rfl rfl (hiff nofun rfl) nofun
  | clear =>
    cases hd
    exact .same rfl rfl Iff.rfl nofun
  | sched =>
    have he := Option.some.inj hd
    simp only [schedOut] at he
    repeat' split at he
    all_goals contradiction
  | resume b => cases k <;> cases hd
  | _ => cases hd

theorem decode_flagged (hd : decode s h rest f = some (.store j x c)) (hf : Good s u f)
    (hu : ∀ p, own f = some p → u = .proc p) (hrun : ∀ p, u = .proc p → (s.slot p).state = .running) :
    Flagged s u f j x := by
  cases f with
  | leave p k pc => exact decodeLeave_flagged hd (hrun p (hu p rfl))
  | setKilled p =>
    cases hd
    exact .mark rfl rfl Iff.rfl (by rintro _ _ _ _ ⟨⟩) (.inr ⟨rfl, hu _ rfl⟩)
  | waitFree p m pid st =>
    cases hd
    exact .freed rfl rfl rfl (.inl ⟨p, pid, st, rfl⟩)
  | freeproc m =>
    cases hd
    exact .freed rfl rfl rfl (.inr rfl)
  | allocSet p k m pid =>
    cases hd
    exact .alloc rfl hf (by rintro ⟨⟩) ⟨p, k, rfl⟩
  | killTest pid m =>
    simp only [decode] at hd
    split at hd <;> cases hd
    rename_i hp
    refine .mark rfl rfl ?_ (by rintro _ _ _ _ ⟨⟩) (.inl (by rw [hp]))
    by_cases hw : (s.slot j).state = .sleeping <;> simp [hw]
  | setRunnable m pid =>
    cases hd
    refine .same rfl rfl ?_ (by rintro _ _ _ _ ⟨⟩)
    rw [hf.1]
    exact ⟨(by intros; contradiction), (by intros; contradiction)⟩
  | wakeTest ch m =>
    simp only [decode] at hd
    split at hd <;> cases hd
    rename_i hw
    refine .same rfl rfl ?_ (by rintro _ _ _ _ ⟨⟩)
    rw [hw.1]
    exact ⟨(by intros; contradiction), (by intros; contradiction)⟩
  | schedCheck m =>
    simp only [decode] at hd
    split at hd <;> cases hd
    rename_i hw
    refine .same rfl rfl ?_ (by rintro _ _ _ _ ⟨⟩)
    rw [hw]
    exact ⟨(by intros; contradiction), (by intros; contradiction)⟩
  | _ =>
    simp only [decode] at hd
    (repeat' split at hd) <;> cases hd
    all_goals exact .same rfl rfl Iff.rfl (by rintro _ _ _ _ ⟨⟩)

section

variable (hI : Inv s) (hcode : (s.run h).code = f :: rest) (hd : decode s h rest f = some (.store j x c))

include hI hcode hd

theorem Inv.stored :
    Stored s (s.hart h).cur f rest j x c := by
  have hshape := hI.shape_run hcode
  have hgood := hI.good_run hcode
  have hof := hI.of_run hcode
  have hbelow := hI.below_run hcode
  exact decode_stored hshape hd (hgood f mem_cons_self) (hof f mem_cons_self).own hbelow

theorem Inv.flagged
    : Flagged s (s.hart h).cur f j x := by
  have hgood := hI.good_run hcode
  have hof := hI.of_run hcode
  refine decode_flagged hd (hgood f mem_cons_self) (hof f mem_cons_self).own (fun p hp => ?_)
  rw [(hI.hosted h p hp).2.2, ← hp, ← State.run, hcode]
  exact (hI.stored hcode hd).state_old

end

end Identity

end Xv6Rcu.ProcessTable

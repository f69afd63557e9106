import Xv6Rcu.ProcessInv

namespace Xv6Rcu.ProcessTable

open Process ProcessCode ProcessInv List
open Kernel (Cpu NPROC SyncCall)

variable {n h g j p q : Nat} {s t : State} {u v : Tid} {f : Frame} {c rest : List Frame} {l : LockId} {i : Instr}
  {a : Act} {x : Slot}

section Definitions

def Hosted (s : State) (q : Nat) : Prop := ∃ h, (s.hart h).cur = .proc q

/-- A thread to which a scheduler can switch: it holds the lock of its process
and nothing else. -/
structure Ready (c : List Frame) (q : Nat) : Prop where
  held : held c = [.proc q]
  load : load c = 1
  state : stateOf c = .running

def Active (x : ProcState) : Prop := x = .runnable ∨ x = .sleeping ∨ x = .running

def Admits (s : State) (u : Tid) (i : Nat) : Prop :=
  (s.slot i).affinity = -1 ∨ ∃ m : Nat, u = .sched m ∧ (s.slot i).affinity = m

/-- What a frame of thread `u` knows of the table, under a lock or because
nobody else hands out the entry. -/
def Good (s : State) (u : Tid) : Frame → Prop
  | .pidLoad _ _ i | .pidStore _ _ i _ | .allocSet _ _ i _ => (s.slot i).state = .unused
  | .waitCopy _ _ i _ | .waitFree _ i _ _ => (s.slot i).state = .zombie
  | .allocMem _ _ i _ | .freeproc i => (s.slot i).state = .used
  | .setParent _ _ i _ | .setRunnable i _ => (s.slot i).state = .used ∧ Ready (s.thread (.proc i)).code i
  | .schedCheck i => Hosted s i ∨ Admits s u i
  | .schedProc i | .swtch i => (s.slot i).state = .running ∧ ¬Hosted s i
  | _ => True

def AllGood (s : State) (u : Tid) (c : List Frame) : Prop := ∀ f ∈ c, Good s u f

def claim : Option Frame → Option Nat
  | some (.swtch i) | some (.schedClear i) => some i
  | _ => none

structure Inv (s : State) : Prop where
  shape : ∀ u, Shape (s.thread u).code
  below : ∀ u, AllBelow (s.thread u).code.tail
  of : ∀ u, AllOf u (s.thread u).code
  good : ∀ u, AllGood s u (s.thread u).code
  nodup : ∀ u, (making (s.thread u).code).Nodup
  apart : ∀ u v j, j ∈ making (s.thread u).code → j ∈ making (s.thread v).code → u = v
  fit : ∀ h, Fit (s.hart h).cpu s.lock h (s.run h).code
  cur : ∀ h m, (s.hart h).cur = .sched m → m = h
  single : ∀ h g q, (s.hart h).cur = .proc q → (s.hart g).cur = .proc q → h = g
  hosted : ∀ h q, (s.hart h).cur = .proc q → (s.hart h).proc = some q ∧
    mark (s.thread (.sched h)).code = some (.schedClear q) ∧ (s.slot q).state = stateOf (s.thread (.proc q)).code
  sched : ∀ h, (s.hart h).cur = .sched h → (s.hart h).proc = claim (mark (s.thread (.sched h)).code) ∧
    ∀ q, mark (s.thread (.sched h)).code = some (.schedClear q) → ¬Hosted s q
  parked : ∀ q, ¬Hosted s q → Active (s.slot q).state → Ready (s.thread (.proc q)).code q
  loose : ∀ q, ¬Hosted s q → ∀ f ∈ (s.thread (.proc q)).code, firm f = []
  claimed : ∀ q, ¬Hosted s q → (s.slot q).state = .running → ∃ g, (s.hart g).cur = .sched g ∧
    (mark (s.thread (.sched g)).code = some (.schedProc q) ∨ mark (s.thread (.sched g)).code = some (.swtch q))

end Definitions

section Local

theorem AllGood.cons (hc : AllGood s u c) (hf : Good s u f) : AllGood s u (f :: c) :=
  forall_mem_cons.mpr ⟨hf, hc⟩

theorem allGood_nil : AllGood s u [] := nofun

theorem decode_good (hd : decode s h rest f = some i) (hq : quiet i = true) (hc : next i = some c)
    (hu : scheds f = true → u = .sched h) (hf : Good s u f) (hr : AllGood s u rest) : AllGood s u c := by
  cases f with
  | leave p k pc =>
    rcases decodeLeave_next hd hc with ⟨pc', rfl⟩ | rfl
    · exact hr.cons trivial
    · cases k with
      | sleep ch lk => exact AllGood.cons (f := .acquire lk) hr trivial
      | _ => exact hr
  | schedAffinity j =>
    simp only [decode] at hd
    split at hd <;> cases hd <;> cases hc
    · exact hr.cons trivial
    · exact hr.cons (.inr (.inl (not_not.mp ‹_›)))
  | schedAffinityHere j =>
    simp only [decode] at hd
    split at hd <;> cases hd <;> cases hc
    · exact (AllGood.cons (f := .schedScan (j + 1)) hr trivial).cons trivial
    · exact hr.cons (.inr (.inr ⟨h, hu rfl, not_not.mp ‹_›⟩))
  | _ =>
    simp only [decode] at hd
    (repeat' split at hd) <;> first | contradiction | cases hd
    all_goals cases hc
    all_goals first | contradiction | skip
    all_goals
      repeat first
        | exact hr
        | exact allGood_nil
        | refine AllGood.cons ?_ trivial
        | refine AllGood.cons ?_ hf
        | refine AllGood.cons ?_ ‹_›

theorem good_begins (hb : Begins a f) : Good s u f := by
  cases f <;> trivial

theorem fetch_good (hd : fetch s h a = some i) (hq : quiet i = true) (hc : next i = some c)
    (hu : ∀ f, scheds f = true → Of u f → u = .sched h) (ho : AllOf u (s.run h).code)
    (hg : AllGood s u (s.run h).code) : AllGood s u c := by
  refine fetch_forall hd hc hg (fun f hb => good_begins hb) (fun p k j pid hf => hf) ?_
  intro f rest hcode hd hf hr
  rw [hcode] at ho
  exact decode_good hd hq hc (fun hs => hu f hs (ho f mem_cons_self)) hf hr

/-- What a frame knows is stable where its locks and its entry are respected. -/
theorem good_congr (hg : Good s u f)
    (hl : ∀ j, .proc j ∈ firm f → (t.slot j).state = (s.slot j).state ∧ (Hosted t j ↔ Hosted s j) ∧
      (Hosted s j ∨ (t.slot j).affinity = (s.slot j).affinity))
    (hm : ∀ j, made f = some j → (t.slot j).state = (s.slot j).state ∧
      (t.thread (.proc j)).code = (s.thread (.proc j)).code) : Good t u f := by
  cases f with
  | pidLoad p k j => exact (hl j mem_cons_self).1.trans hg
  | pidStore p k j pid => exact (hl j (mem_cons_of_mem _ mem_cons_self)).1.trans hg
  | allocSet p k j pid => exact (hl j mem_cons_self).1.trans hg
  | waitCopy p k j pid => exact (hl j mem_cons_self).1.trans hg
  | waitFree p j pid st => exact (hl j mem_cons_self).1.trans hg
  | allocMem p k j pid => exact (hm j rfl).1.trans hg
  | freeproc j => exact (hm j rfl).1.trans hg
  | setParent p k j pid => exact ⟨(hm j rfl).1.trans hg.1, (hm j rfl).2 ▸ hg.2⟩
  | setRunnable j pid => exact ⟨(hm j rfl).1.trans hg.1, (hm j rfl).2 ▸ hg.2⟩
  | schedCheck j =>
    obtain ⟨-, hh, ha⟩ := hl j mem_cons_self
    rcases hg with hg | hg
    · exact .inl (hh.mpr hg)
    · rcases ha with ha | ha
      · exact .inl (hh.mpr ha)
      · exact .inr (by rwa [Admits, ha])
  | schedProc j =>
    obtain ⟨hst, hh, -⟩ := hl j mem_cons_self
    exact ⟨hst.trans hg.1, fun ht => hg.2 (hh.mp ht)⟩
  | swtch j =>
    obtain ⟨hst, hh, -⟩ := hl j mem_cons_self
    exact ⟨hst.trans hg.1, fun ht => hg.2 (hh.mp ht)⟩
  | _ => trivial

theorem used_of_made (hg : Good s u f) (hm : made f = some j) : (s.slot j).state = .used := by
  cases f <;> cases hm <;> first | exact hg | exact hg.1

theorem used_of_making (hg : AllGood s u c) (hm : j ∈ making c) : (s.slot j).state = .used := by
  obtain ⟨f, hf, hj⟩ := mem_filterMap.mp hm
  exact used_of_made (hg f hf) hj

theorem leaveState_ne_used (k : Leave) (pc : LeavePc) : leaveState k pc ≠ .used ∧ leaveState k pc ≠ .unused := by
  cases k <;> cases pc <;> simp [leaveState]

theorem stateOf_ne (c : List Frame) : stateOf c ≠ .used ∧ stateOf c ≠ .unused := by
  cases c with
  | nil => simp [stateOf]
  | cons f rest =>
    cases f with
    | leave p k pc => exact leaveState_ne_used k pc
    | _ => simp [stateOf]

end Local

section Consequences

variable (hI : Inv s)

include hI

theorem Inv.not_hosted (hj : (s.slot j).state = .used ∨ (s.slot j).state = .unused) : ¬Hosted s j := by
  rintro ⟨g, hg⟩
  have hst := (hI.hosted g j hg).2.2
  rcases hj with hj | hj
  · exact (stateOf_ne _).1 (hst.symm.trans hj)
  · exact (stateOf_ne _).2 (hst.symm.trans hj)

theorem Inv.run_ne (hg : g ≠ h) : (s.hart g).cur ≠ (s.hart h).cur := by
  intro he
  cases hc : (s.hart h).cur with
  | sched m => exact hg ((hI.cur g m (he.trans hc)).symm.trans (hI.cur h m hc))
  | proc q => exact hg (hI.single g h q (he.trans hc) hc)

theorem Inv.firm_locked (hv : v ≠ (s.hart h).cur) (hf : f ∈ (s.thread v).code) (hl : l ∈ firm f) :
    s.lock l ≠ some h := by
  have hcur (g : Nat) (hg : (s.hart g).cur = v) : s.lock l ≠ some h := by
    have hlock : s.lock l = some g := by
      refine ((hI.fit g).lock _).mpr ?_
      rw [State.run, hg]
      exact (hI.shape v).firm f hf _ hl
    rw [hlock]
    intro he
    exact hv (Option.some.inj he ▸ hg.symm)
  have hnone (he : firm f = []) : s.lock l ≠ some h := by
    rw [he] at hl
    exact absurd hl not_mem_nil
  cases v with
  | proc q =>
    by_cases hh : Hosted s q
    · obtain ⟨g, hg⟩ := hh
      exact hcur g hg
    · exact hnone (hI.loose q hh f hf)
  | sched m =>
    cases hm : (s.hart m).cur with
    | sched m' => exact hcur m (hI.cur m m' hm ▸ hm)
    | proc q =>
      -- The scheduler waits at the frame after its `swtch`.
      have hmark := (hI.hosted m q hm).2.1
      have hshape := hI.shape (.sched m)
      revert hf hmark hshape
      cases (s.thread (.sched m)).code with
      | nil => intro hf; exact absurd hf not_mem_nil
      | cons f' rest =>
        intro hf hmark hshape
        cases f' with
        | schedClear q' =>
          have hfree : Free rest := ⟨hshape.2.2.2, hshape.1⟩
          rcases mem_cons.mp hf with rfl | hf
          · exact hnone rfl
          · exact hnone (hfree.firm hf)
        | _ => cases hmark

end Consequences

section Stay

structure Stays (s t : State) (h : Nat) (c : List Frame) : Prop where
  hart : ∀ g, g ≠ h → t.hart g = s.hart g
  cur : (t.hart h).cur = (s.hart h).cur
  thread : ∀ u, u ≠ (s.hart h).cur → t.thread u = s.thread u
  code : (t.thread (s.hart h).cur).code = c
  lock : ∀ g l, g ≠ h → (t.lock l = some g ↔ s.lock l = some g)
  shape : Shape c
  below : AllBelow c.tail
  of : AllOf (s.hart h).cur c
  fit : Fit (t.hart h).cpu t.lock h c

structure Tabled (s t : State) (h : Nat) (c : List Frame) : Prop where
  good : AllGood t (s.hart h).cur c
  nodup : (making c).Nodup
  fresh : ∀ j ∈ making c, j ∈ making (s.run h).code ∨ (s.slot j).state = .unused
  own : ∀ q, (s.hart h).cur = .proc q → (t.slot q).state = stateOf c ∧ (t.hart h).proc = some q
  sched : (s.hart h).cur = .sched h → (t.hart h).proc = claim (mark c) ∧
    ∀ q, mark c = some (.schedClear q) → ¬Hosted s q
  other : ∀ g q, g ≠ h → (s.hart g).cur = .proc q → (t.slot q).state = (s.slot q).state
  active : ∀ q, ¬Hosted s q → Active (t.slot q).state → Ready (s.thread (.proc q)).code q
  claimed : ∀ q, ¬Hosted s q → (t.slot q).state = .running →
    mark c = some (.schedProc q) ∨ mark c = some (.swtch q) ∨
      (s.slot q).state = .running ∧ mark (s.run h).code ≠ some (.schedProc q) ∧
        mark (s.run h).code ≠ some (.swtch q)
  calm : ∀ j, s.lock (.proc j) ≠ some h → (t.slot j).state = (s.slot j).state ∧
    (Hosted s j ∨ (t.slot j).affinity = (s.slot j).affinity)
  made : ∀ v j, v ≠ (s.hart h).cur → j ∈ making (s.thread v).code → (t.slot j).state = (s.slot j).state

variable (hst : Stays s t h c)

include hst

theorem Stays.hosted_iff : Hosted t q ↔ Hosted s q := by
  have hcur (g : Nat) : (t.hart g).cur = (s.hart g).cur := by
    by_cases hg : g = h
    · exact hg ▸ hst.cur
    · rw [hst.hart g hg]
  simp only [Hosted, hcur]

theorem Stays.code_cases (u : Tid) :
    u = (s.hart h).cur ∧ (t.thread u).code = c ∨ u ≠ (s.hart h).cur ∧ t.thread u = s.thread u := by
  by_cases hu : u = (s.hart h).cur
  · exact .inl ⟨hu, hu ▸ hst.code⟩
  · exact .inr ⟨hu, hst.thread u hu⟩

theorem mark_sched (hI : Inv s) (hm : mark c ≠ none) : (s.hart h).cur = .sched h := by
  have hf : ∃ f ∈ c, scheds f = true := by
    cases c with
    | nil => exact absurd rfl hm
    | cons f rest =>
      refine ⟨f, mem_cons_self, ?_⟩
      cases f <;> first | rfl | exact absurd rfl hm
  obtain ⟨f, hf, hs⟩ := hf
  obtain ⟨m, hm⟩ := (hst.of f hf).scheds hs
  rw [hm, hI.cur h m hm]

theorem inv_stay (hI : Inv s) (ht : Tabled s t h c) : Inv t := by
  have hcur (g : Nat) : (t.hart g).cur = (s.hart g).cur := by
    by_cases hg : g = h
    · exact hg ▸ hst.cur
    · rw [hst.hart g hg]
  have hhost {q : Nat} : Hosted t q ↔ Hosted s q := hst.hosted_iff
  have hrun {q : Nat} (hq : ¬Hosted s q) : t.thread (.proc q) = s.thread (.proc q) :=
    hst.thread _ (fun he => hq ⟨h, he.symm⟩)
  have hgood (v : Tid) (hv : v ≠ (s.hart h).cur) : AllGood t v (s.thread v).code := by
    intro f hf
    refine good_congr (hI.good v f hf) (fun j hj => ?_) (fun j hj => ?_)
    · have hc := ht.calm j (hI.firm_locked hv hf hj)
      exact ⟨hc.1, hhost, hc.2⟩
    · have hm : j ∈ making (s.thread v).code := mem_filterMap.mpr ⟨f, hf, hj⟩
      have hu := hI.not_hosted (.inl (used_of_making (hI.good v) hm))
      exact ⟨ht.made v j hv hm, by rw [hrun hu]⟩
  constructor
  case shape =>
    intro u
    rcases hst.code_cases u with ⟨-, hc⟩ | ⟨-, hc⟩
    · exact hc ▸ hst.shape
    · exact hc ▸ hI.shape u
  case below =>
    intro u
    rcases hst.code_cases u with ⟨-, hc⟩ | ⟨-, hc⟩
    · exact hc ▸ hst.below
    · exact hc ▸ hI.below u
  case of =>
    intro u
    rcases hst.code_cases u with ⟨hu, hc⟩ | ⟨-, hc⟩
    · rw [hc, hu]
      exact hst.of
    · exact hc ▸ hI.of u
  case good =>
    intro u
    rcases hst.code_cases u with ⟨hu, hc⟩ | ⟨hu, hc⟩
    · rw [hc, hu]
      exact ht.good
    · exact hc ▸ hgood u hu
  case nodup =>
    intro u
    rcases hst.code_cases u with ⟨-, hc⟩ | ⟨-, hc⟩
    · exact hc ▸ ht.nodup
    · exact hc ▸ hI.nodup u
  case apart =>
    -- A new entry was unused, the others of all threads are used.
    have hnew {v : Tid} {j : Nat} (hv : v ≠ (s.hart h).cur) (hj : j ∈ making c)
        (hm : j ∈ making (s.thread v).code) : (s.hart h).cur = v := by
      rcases ht.fresh j hj with ho | ho
      · exact hI.apart _ _ j ho hm
      · have := used_of_making (hI.good v) hm
        rw [ho] at this
        contradiction
    intro u v j hu hv
    rcases hst.code_cases u with ⟨hue, hc⟩ | ⟨hue, hc⟩ <;> rcases hst.code_cases v with ⟨hve, hc'⟩ | ⟨hve, hc'⟩
    · exact hue.trans hve.symm
    · rw [hue]
      exact hnew hve (hc ▸ hu) (hc' ▸ hv)
    · rw [hve]
      exact (hnew hue (hc' ▸ hv) (hc ▸ hu)).symm
    · exact hI.apart u v j (hc ▸ hu) (hc' ▸ hv)
  case fit =>
    intro g
    by_cases hg : g = h
    · subst hg
      rw [State.run, hst.cur, hst.code]
      exact hst.fit
    · have hf := hI.fit g
      have hcode : (t.run g).code = (s.run g).code := by
        rw [State.run, hcur, hst.thread _ (hI.run_ne hg), State.run]
      rw [hcode, hst.hart g hg]
      exact ⟨hf.noff, hf.sie, fun l => (hst.lock g l hg).trans (hf.lock l)⟩
  case cur =>
    intro g m hg
    exact hI.cur g m ((hcur g).symm.trans hg)
  case single =>
    intro g g' q hg hg'
    exact hI.single g g' q ((hcur g).symm.trans hg) ((hcur g').symm.trans hg')
  case hosted =>
    intro g q hg
    rw [hcur] at hg
    obtain ⟨hproc, hmark, hstate⟩ := hI.hosted g q hg
    have hsched : t.thread (.sched g) = s.thread (.sched g) := by
      refine hst.thread _ (fun he => ?_)
      rw [hI.cur h g he.symm, ← he] at hg
      contradiction
    rw [hsched]
    by_cases hgh : g = h
    · subst hgh
      have ho := ht.own q hg
      refine ⟨ho.2, hmark, ?_⟩
      rw [ho.1, ← hst.code, hg]
    · have hne := hI.run_ne hgh
      rw [hst.hart g hgh, ht.other g q hgh hg, hst.thread _ (hg ▸ hne)]
      exact ⟨hproc, hmark, hstate⟩
  case sched =>
    intro g hg
    rw [hcur] at hg
    by_cases hgh : g = h
    · subst hgh
      have hs := ht.sched hg
      rw [← hst.code, hg] at hs
      exact ⟨hs.1, fun q hq hh => hs.2 q hq (hhost.mp hh)⟩
    · have hsched : t.thread (.sched g) = s.thread (.sched g) := hst.thread _ (hg ▸ hI.run_ne hgh)
      rw [hsched, hst.hart g hgh]
      exact ⟨(hI.sched g hg).1, fun q hq hh => (hI.sched g hg).2 q hq (hhost.mp hh)⟩
  case parked =>
    intro q hq ha
    rw [hhost] at hq
    rw [hrun hq]
    exact ht.active q hq ha
  case loose =>
    intro q hq
    rw [hhost] at hq
    rw [hrun hq]
    exact hI.loose q hq
  case claimed =>
    intro q hq hr
    rw [hhost] at hq
    have hself (hm : mark c = some (.schedProc q) ∨ mark c = some (.swtch q)) : ∃ g, (t.hart g).cur = .sched g ∧
        (mark (t.thread (.sched g)).code = some (.schedProc q) ∨
          mark (t.thread (.sched g)).code = some (.swtch q)) := by
      have hs := mark_sched hst hI (by rcases hm with hm | hm <;> rw [hm] <;> exact nofun)
      refine ⟨h, hst.cur.trans hs, ?_⟩
      rwa [← hs, hst.code]
    rcases ht.claimed q hq hr with hm | hm | ⟨hrun', hm, hm'⟩
    · exact hself (.inl hm)
    · exact hself (.inr hm)
    · obtain ⟨g, hg, hmark⟩ := hI.claimed q hq hrun'
      have hne : g ≠ h := by
        intro he
        rw [State.run, ← he, hg] at hm hm'
        rcases hmark with hmark | hmark
        · exact hm hmark
        · exact hm' hmark
      refine ⟨g, (hcur g).trans hg, ?_⟩
      rw [hst.thread _ (hg ▸ hI.run_ne hne)]
      exact hmark

end Stay

section Steps

theorem Inv.proc_cur (hI : Inv s) (hp : (s.hart h).proc = some p) (hm : mark (s.run h).code = none) :
    (s.hart h).cur = .proc p := by
  cases hc : (s.hart h).cur with
  | sched m =>
    have hm' := hI.cur h m hc
    subst hm'
    rw [State.run, hc] at hm
    have hs := (hI.sched m hc).1
    rw [hm, hp] at hs
    cases hs
  | proc q =>
    have hq := (hI.hosted h q hc).1
    rw [hp] at hq
    rw [Option.some.inj hq]

section Running

variable (hI : Inv s) (hc : (s.run h).code = c)

include hI hc

theorem Inv.shape_run : Shape c := hc ▸ hI.shape _

theorem Inv.below_run : AllBelow c.tail := hc ▸ hI.below (s.hart h).cur

theorem Inv.of_run : AllOf (s.hart h).cur c := hc ▸ hI.of _

theorem Inv.good_run : AllGood s (s.hart h).cur c := hc ▸ hI.good _

end Running

theorem Inv.balanced (hI : Inv s) (hd : fetch s h a = some i) : Balanced (s.run h).code i :=
  fetch_balanced (hI.shape _) (hI.fit h).sie hd

theorem Inv.outcome (hI : Inv s) (hd : fetch s h a = some i) (ha : apply s h i = some t) : Outcome s h i t :=
  apply_outcome (hI.fit h) (hI.balanced hd) ha

theorem stays_of (hI : Inv s) (hd : fetch s h a = some i) (ho : Outcome s h i t) (hc : next i = some c)
    (hcur : curAfter s h i = (s.hart h).cur) (hs : spawns i = none) : Stays s t h c where
  hart := fun _ hg => ho.hart_ne hg
  cur := ho.cur.trans hcur
  thread := fun _ hu => ho.thread_ne hu (by rw [hs]; exact nofun)
  code := ho.code hc
  lock := fun _ _ hg => ho.lock_iff hg
  shape := balanced_shape (hI.balanced hd) hc
  below := fetch_below hd hc (hI.shape _) (hI.fit h).sie (hI.below _)
  of := fetch_of hd hc (hI.of _) (fun _ hp hm => hI.proc_cur hp hm)
  fit := ho.fit (hI.fit h) (hI.shape _) (hI.balanced hd) hc

theorem Inv.sched_of (hI : Inv s) (hs : scheds f = true) (ho : Of (s.hart h).cur f) :
    (s.hart h).cur = .sched h := by
  obtain ⟨m, hm⟩ := ho.scheds hs
  rw [hm, hI.cur h m hm]

theorem tabled_same (hI : Inv s) (hst : Stays s t h c) (hslot : t.slot = s.slot)
    (hg : AllGood s (s.hart h).cur c) (hstate : stateOf c = stateOf (s.run h).code)
    (hm : (making c).Sublist (making (s.run h).code))
    (hproc : ∀ q, (s.hart h).cur = .proc q → (t.hart h).proc = some q)
    (hsched : (s.hart h).cur = .sched h → (t.hart h).proc = claim (mark c))
    (hclear : ∀ q, mark c ≠ some (.schedClear q))
    (hclaim : ∀ q, mark (s.run h).code = some (.schedProc q) ∨ mark (s.run h).code = some (.swtch q) →
      mark c = some (.schedProc q) ∨ mark c = some (.swtch q)) : Tabled s t h c := by
  constructor
  case good =>
    intro f hf
    refine good_congr (hg f hf) (fun j _ => ?_) (fun j hj => ?_)
    · rw [hslot]
      exact ⟨rfl, hst.hosted_iff, .inr rfl⟩
    · have hu := hI.not_hosted (.inl (used_of_made (hg f hf) hj))
      rw [hslot, hst.thread _ (fun he => hu ⟨h, he.symm⟩)]
      exact ⟨rfl, rfl⟩
  case nodup => exact hm.nodup (hI.nodup _)
  case fresh => exact fun j hj => .inl (hm.subset hj)
  case own =>
    intro q hq
    rw [hslot, hstate, State.run, hq]
    exact ⟨(hI.hosted h q hq).2.2, hproc q hq⟩
  case sched => exact fun hc => ⟨hsched hc, fun q hq => absurd hq (hclear q)⟩
  case other =>
    intro g q _ _
    rw [hslot]
  case active =>
    intro q hh ha
    exact hI.parked q hh (hslot ▸ ha)
  case claimed =>
    intro q _ hr
    by_cases hk : mark (s.run h).code = some (.schedProc q) ∨ mark (s.run h).code = some (.swtch q)
    · rcases hclaim q hk with hk | hk
      · exact .inl hk
      · exact .inr (.inl hk)
    · exact .inr (.inr ⟨hslot ▸ hr, fun he => hk (.inl he), fun he => hk (.inr he)⟩)
  case calm =>
    intro j _
    rw [hslot]
    exact ⟨rfl, .inr rfl⟩
  case made =>
    intro v j _ _
    rw [hslot]

theorem inv_quiet (hI : Inv s) (hd : fetch s h a = some i) (hq : quiet i = true) (ho : Outcome s h i t) :
    Inv t := by
  obtain ⟨c, hc⟩ : ∃ c, next i = some c := by
    cases i <;> first | exact ⟨_, rfl⟩ | contradiction
  have hcur : curAfter s h i = (s.hart h).cur := by
    cases i <;> first | rfl | contradiction
  have hspawn : spawns i = none := by
    cases i <;> first | rfl | contradiction
  have hproc : (t.hart h).proc = (s.hart h).proc := by
    rw [ho.proc_eq]
    cases i <;> first | rfl | contradiction
  have hslot : t.slot = s.slot := by
    rw [ho.slot]
    cases i <;> first | rfl | contradiction
  have hst := stays_of hI hd ho hc hcur hspawn
  have hcalm := fetch_calm hd hq hc (hI.shape _) (hI.fit h).sie (hI.below _)
  have hg := fetch_good hd hq hc (fun f hs ho => hI.sched_of hs ho) (hI.of _) (hI.good _)
  refine inv_stay hst hI (tabled_same hI hst hslot hg hcalm.state hcalm.making ?_ ?_ ?_ ?_)
  · exact fun q hcq => hproc.trans (hI.hosted h q hcq).1
  · intro hcs
    have hmark := hcalm.mark_old
    rw [State.run, hcs] at hmark
    rw [hproc, (hI.sched h hcs).1, hmark, hcalm.mark]
  · rw [hcalm.mark]
    exact nofun
  · rw [hcalm.mark_old]
    rintro q (hk | hk) <;> cases hk

end Steps

end Xv6Rcu.ProcessTable

import Xv6Rcu.ProcessCode

namespace Xv6Rcu.ProcessInv

open Process ProcessCode Function List
open Kernel (Cpu NPROC SyncCall)

variable {n h g p q : Nat} {s t : State} {u : Tid} {f : Frame} {c rest : List Frame} {l : LockId} {i : Instr}
  {a : Act}

section Apply

@[simp]
def next : Instr → Option (List Frame)
  | .goto c | .push c | .pop c | .take _ c | .drop _ c | .sie _ c | .intena _ c | .store _ _ c | .spawn _ c
  | .nextpid _ c | .cond _ c | .proc _ c | .toProc _ c | .toSched c => some c
  | .stop _ => none

@[simp]
def slots (s : State) : Instr → Nat → Slot
  | .store j x _ => update s.slot j x
  | _ => s.slot

@[simp]
def curAfter (s : State) (h : Nat) : Instr → Tid
  | .toProc j _ => .proc j
  | .toSched _ => .sched h
  | _ => (s.hart h).cur

@[simp]
def procAfter (s : State) (h : Nat) : Instr → Option Nat
  | .proc o _ => o
  | _ => (s.hart h).proc

@[simp]
def spawns : Instr → Option Nat
  | .spawn j _ => some j
  | _ => none

@[simp]
def nextpidAfter (s : State) : Instr → Int
  | .nextpid v _ => v
  | _ => s.nextpid

inductive Outcome (s : State) (h : Nat) : Instr → State → Prop
  | goto (c : List Frame) : Outcome s h (.goto c) (s.commit h (s.hart h) ((s.run h).goto c))
  | push (c : List Frame) : Outcome s h (.push c) (s.commit h { s.hart h with cpu := (s.hart h).cpu.pushOff }
      (((s.run h).push (s.hart h).cpu.sie).goto c))
  | pop (c : List Frame) (x : Cpu) : (s.hart h).cpu.popOff = .ok x →
      Outcome s h (.pop c) (s.commit h { s.hart h with cpu := x } ((s.run h).pop.goto c))
  | take (l : LockId) (c : List Frame) : s.lock l = none →
      Outcome s h (.take l c) ((s.setLock l (some h)).commit h (s.hart h) ((s.run h).goto c))
  | drop (l : LockId) (c : List Frame) (x : Cpu) : s.lock l = some h → (s.hart h).cpu.popOff = .ok x →
      Outcome s h (.drop l c) ((s.setLock l none).commit h { s.hart h with cpu := x } ((s.run h).pop.goto c))
  | sie (b : Bool) (c : List Frame) : Outcome s h (.sie b c)
      (s.commit h { s.hart h with cpu := (s.hart h).cpu.setSie b } ((s.run h).goto c))
  | intena (b : Bool) (c : List Frame) : Outcome s h (.intena b c)
      (s.commit h { s.hart h with cpu := (s.hart h).cpu.setIntena b } ((s.run h).goto c))
  | store (j : Nat) (x : Slot) (c : List Frame) : Outcome s h (.store j x c) ((s.setSlot j x).commit h (s.hart h) ((s.run h).goto c))
  | spawn (j : Nat) (c : List Frame) : Outcome s h (.spawn j c)
      ((s.setThread (.proc j) (.spawned j)).commit h (s.hart h) ((s.run h).goto c))
  | nextpid (v : Int) (c : List Frame) : Outcome s h (.nextpid v c)
      ({ s with nextpid := v }.commit h (s.hart h) ((s.run h).goto c))
  | cond (v : Bool) (c : List Frame) : Outcome s h (.cond v c) ({ s with cond := v }.commit h (s.hart h) ((s.run h).goto c))
  | proc (o : Option Nat) (c : List Frame) : Outcome s h (.proc o c) (s.commit h { s.hart h with proc := o } ((s.run h).goto c))
  | toProc (j : Nat) (c : List Frame) : Outcome s h (.toProc j c) (s.commit h { s.hart h with cur := .proc j } ((s.run h).goto c))
  | toSched (c : List Frame) : Outcome s h (.toSched c) (s.commit h { s.hart h with cur := .sched h } ((s.run h).goto c))
  | stop (e : Stop) : Outcome s h (.stop e) (s.fail h e)

section

variable (ho : Outcome s h i t)

include ho

theorem Outcome.hart_ne (hg : g ≠ h) : t.hart g = s.hart g := by
  cases ho <;> simp [State.commit, State.setHart, State.setThread, State.setLock, State.setSlot, State.fail, hg]

theorem Outcome.thread_ne (hu : u ≠ (s.hart h).cur) (hs : ∀ j, spawns i = some j → u ≠ .proc j) :
    t.thread u = s.thread u := by
  cases ho <;>
    simp_all [State.commit, State.setHart, State.setThread, State.setLock, State.setSlot, State.fail]

theorem Outcome.code (hc : next i = some c) : (t.thread (s.hart h).cur).code = c := by
  cases ho <;>
    simp_all [State.commit, State.setHart, State.setThread, State.setLock, State.setSlot, Thread.goto]

theorem Outcome.spawned {j : Nat} (hs : spawns i = some j) (hu : (s.hart h).cur ≠ .proc j) :
    t.thread (.proc j) = .spawned j := by
  cases ho <;>
    simp_all [State.commit, State.setHart, State.setThread, update_of_ne hu.symm]

theorem Outcome.thread_cases (u : Tid) : u = (s.hart h).cur ∨
    u ≠ (s.hart h).cur ∧ (∃ j, spawns i = some j ∧ u = .proc j ∧ t.thread u = .spawned j) ∨
    u ≠ (s.hart h).cur ∧ t.thread u = s.thread u := by
  by_cases hu : u = (s.hart h).cur
  · exact .inl hu
  · by_cases hs : ∃ j, spawns i = some j ∧ u = .proc j
    · obtain ⟨j, hj, rfl⟩ := hs
      exact .inr (.inl ⟨hu, j, hj, rfl, ho.spawned hj (Ne.symm hu)⟩)
    · exact .inr (.inr ⟨hu, ho.thread_ne hu (fun j hj he => hs ⟨j, hj, he⟩)⟩)

theorem Outcome.cur : (t.hart h).cur = curAfter s h i := by
  cases ho <;> simp [State.commit, State.setHart, State.setThread, State.setLock, State.setSlot, State.fail]

theorem Outcome.proc_eq : (t.hart h).proc = procAfter s h i := by
  cases ho <;> simp [State.commit, State.setHart, State.setThread, State.setLock, State.setSlot, State.fail]

theorem Outcome.slot : t.slot = slots s i := by
  cases ho <;> rfl

theorem Outcome.nextpid_eq : t.nextpid = nextpidAfter s i := by
  cases ho <;> rfl

theorem Outcome.code_self :
    (t.thread (s.hart h).cur).code = (next i).getD (s.run h).code := by
  cases hc : next i with
  | some c => exact ho.code hc
  | none =>
    cases i <;> cases hc
    cases ho
    rfl

theorem Outcome.log : t.log = s.log := by
  cases ho <;> rfl

theorem Outcome.lock_iff (hg : g ≠ h) : t.lock l = some g ↔ s.lock l = some g := by
  cases ho with
  | take m c hm =>
    change update s.lock m (some h) l = some g ↔ _
    by_cases hl : l = m
    · subst hl
      simp [hm, hg.symm]
    · rw [update_of_ne hl]
  | drop m c x hm =>
    change update s.lock m none l = some g ↔ _
    by_cases hl : l = m
    · subst hl
      simp [hm, hg.symm]
    · rw [update_of_ne hl]
  | _ => rfl

end

end Apply

section Fit

/-- The counter, the interrupt bit and the spinlocks of a hart are as the code
of its thread accounts for them. -/
structure Fit (x : Cpu) (lock : LockId → Option Nat) (h : Nat) (c : List Frame) : Prop where
  noff : x.noff = load c
  sie : x.sie = true → load c = 0
  lock : ∀ l, lock l = some h ↔ l ∈ held c

variable {x : Cpu} {lk : LockId → Option Nat} {c' : List Frame}

theorem Fit.congr (hf : Fit x lk h c) (hh : held c' = held c) (hl : load c' = load c) : Fit x lk h c' where
  noff := hf.noff.trans hl.symm
  sie := fun hi => hl.trans (hf.sie hi)
  lock := fun l => by rw [hf.lock, hh]

theorem Fit.popOff (hf : Fit x lk h c) (hl : 0 < load c) :
    x.popOff = .ok ⟨x.noff - 1, x.intena, decide (x.noff - 1 = 0) && x.intena⟩ := by
  have hsie : x.sie = false := by
    cases hi : x.sie with
    | false => rfl
    | true => exact absurd (hf.sie hi) (ne_of_gt hl)
  have hnoff : ¬ x.noff < 1 := by
    have := hf.noff
    omega
  simp [Cpu.popOff, hsie, hnoff]

theorem apply_outcome (hf : Fit (s.hart h).cpu s.lock h (s.run h).code) (hb : Balanced (s.run h).code i)
    (ha : apply s h i = some t) : Outcome s h i t := by
  cases i with
  | pop c =>
    have hpop := hf.popOff (by have := hb.2.2; omega)
    simp only [apply, hpop] at ha
    cases ha
    exact .pop c _ hpop
  | take l c =>
    simp only [apply] at ha
    split at ha
    · rename_i hl
      cases ha
      exact .take l c hl
    · rename_i g hl
      split at ha
      · rename_i hg
        have hm : l ∈ (held c).erase l := hb.2.1 ▸ (hf.lock l).mp (hg ▸ hl)
        exact absurd hm hb.1.nodup.not_mem_erase
      · contradiction
  | drop l c =>
    have hl : s.lock l = some h := (hf.lock l).mpr hb.2.2.1
    have hpop := hf.popOff (by have := hb.2.2.2; omega)
    simp only [apply, hl, if_true, hpop] at ha
    cases ha
    exact .drop l c _ hl hpop
  | goto c => cases ha; exact .goto c
  | push c => cases ha; exact .push c
  | sie b c => cases ha; exact .sie b c
  | intena b c => cases ha; exact .intena b c
  | store j x c => cases ha; exact .store j x c
  | spawn j c => cases ha; exact .spawn j c
  | nextpid v c => cases ha; exact .nextpid v c
  | cond v c => cases ha; exact .cond v c
  | proc o c => cases ha; exact .proc o c
  | toProc j c => cases ha; exact .toProc j c
  | toSched c => cases ha; exact .toSched c
  | stop e => cases ha; exact .stop e

theorem balanced_shape (hb : Balanced c i) (hc : next i = some c') : Shape c' := by
  cases i <;> cases hc <;> first | exact hb.1 | exact hb.1.1

theorem Fit.keeps {y : Cpu} (hf : Fit x lk h c) (hk : Keeps c c') (hn : y.noff = x.noff)
    (hs : y.sie = true → load c' = 0) : Fit y lk h c' where
  noff := hn.trans (hf.noff.trans hk.2.2.symm)
  sie := hs
  lock := fun l => by rw [hf.lock, hk.2.1]

theorem popped_sie {y : Cpu} (hp : x.popOff = .ok y) :
    y.noff + 1 = x.noff ∧ (y.sie = true → y.noff = 0) ∧ y.intena = x.intena := by
  unfold Cpu.popOff at hp
  split at hp
  · contradiction
  split at hp
  · contradiction
  · cases hp
    refine ⟨?_, ?_, rfl⟩
    · change x.noff - 1 + 1 = x.noff
      omega
    · exact fun hi => of_decide_eq_true (Bool.and_eq_true_iff.mp hi).1

theorem Outcome.fit (ho : Outcome s h i t) (hf : Fit (s.hart h).cpu s.lock h (s.run h).code)
    (hs : Shape (s.run h).code) (hb : Balanced (s.run h).code i) (hc : next i = some c) : Fit (t.hart h).cpu t.lock h c := by
  have hself (x : Hart) (y : Thread) (s' : State) : ((s'.commit h x y).hart h) = x := by
    simp [State.commit, State.setHart, State.setThread]
  cases ho <;> cases hc <;> simp only [hself]
  case push =>
    refine ⟨?_, nofun, fun l => ?_⟩
    · change (s.hart h).cpu.noff + 1 = load c
      rw [hf.noff, hb.2.2]
    · rw [hb.2.1]
      exact hf.lock l
  case pop x hp =>
    have hx := popped_sie hp
    have hn := hf.noff
    have hl := hb.2.2
    refine ⟨by omega, fun hi => ?_, fun l => ?_⟩
    · have := hx.2.1 hi
      omega
    · rw [hb.2.1]
      exact hf.lock l
  case take m hm =>
    refine ⟨hf.noff.trans hb.2.2.2.symm, fun hi => hb.2.2.2.trans (hf.sie hi), fun l => ?_⟩
    change update s.lock m (some h) l = some h ↔ l ∈ held c
    by_cases hl : l = m
    · subst hl
      simpa using hb.2.2.1
    · rw [update_of_ne hl, hf.lock, hb.2.1, mem_erase_of_ne hl]
  case drop m x hm hp =>
    have hx := popped_sie hp
    have hn := hf.noff
    have hl := hb.2.2.2
    refine ⟨by omega, fun hi => ?_, fun l => ?_⟩
    · have := hx.2.1 hi
      omega
    change update s.lock m none l = some h ↔ l ∈ held c
    rw [hb.2.1]
    by_cases hl : l = m
    · subst hl
      simpa using hs.nodup.not_mem_erase
    · rw [update_of_ne hl, hf.lock, mem_erase_of_ne hl]
  case sie b => exact hf.keeps hb.1 rfl hb.2
  all_goals exact hf.keeps hb rfl (fun hi => hb.2.2.trans (hf.sie hi))

end Fit

section Places

def own : Frame → Option Nat
  | .leave p _ _ | .killedLoad p | .setKilled p | .syncLoop p _ _ | .exitStart p _ | .reparent p _ _
  | .waitScan p _ _ _ | .waitTest p _ _ | .waitCopy p _ _ _ | .waitFree p _ _ _ | .waitKilled p _
  | .allocScan p _ _ | .allocTest p _ _ | .pidLoad p _ _ | .pidStore p _ _ _ | .allocSet p _ _ _
  | .allocMem p _ _ _ | .setParent p _ _ _ => some p
  | _ => none

def scheds : Frame → Bool
  | .schedLoop | .schedScan _ | .schedAffinity _ | .schedAffinityHere _ | .schedCheck _ | .schedProc _
  | .swtch _ | .schedClear _ => true
  | _ => false

structure Of (u : Tid) (f : Frame) : Prop where
  own : ∀ p, own f = some p → u = .proc p
  scheds : scheds f = true → ∃ m, u = .sched m

def AllOf (u : Tid) (c : List Frame) : Prop := ∀ f ∈ c, Of u f

/-- A frame that is not the innermost one is at the start of its routine. -/
def Below : Frame → Prop
  | .leave _ _ pc => pc = .first
  | .schedProc _ | .swtch _ | .schedClear _ => False
  | _ => True

def AllBelow (c : List Frame) : Prop := ∀ f ∈ c, Below f

/-- The entry of the table that a frame of `fork` or `thread_create` is about
to hand out, once `allocproc` has taken it. -/
def made : Frame → Option Nat
  | .allocMem _ _ i _ | .freeproc i | .setParent _ _ i _ | .setRunnable i _ => some i
  | _ => none

def making (c : List Frame) : List Nat := c.filterMap made

def leaveState : Leave → LeavePc → ProcState
  | .yield, .push | .yield, .pop | .yield, .sched => .runnable
  | .sleep _ _, .push | .sleep _ _, .pop | .sleep _ _, .sched => .sleeping
  | .exit _, .second | .exit _, .push | .exit _, .pop | .exit _, .sched | .exit _, .resume _ => .zombie
  | _, _ => .running

def stateOf : List Frame → ProcState
  | .leave _ k pc :: _ => leaveState k pc
  | _ => .running

def mark : List Frame → Option Frame
  | .schedProc i :: _ => some (.schedProc i)
  | .swtch i :: _ => some (.swtch i)
  | .schedClear i :: _ => some (.schedClear i)
  | _ => none

theorem of_plain (ho : own f = none) (hs : scheds f = false) : Of u f :=
  ⟨fun _ hp => absurd (ho.symm.trans hp) nofun, fun hf => absurd (hs.symm.trans hf) nofun⟩

theorem AllOf.cons (hf : Of u f) (hc : AllOf u c) : AllOf u (f :: c) := forall_mem_cons.mpr ⟨hf, hc⟩

theorem AllOf.plain (hc : AllOf u c) (ho : own f = none) (hs : scheds f = false) : AllOf u (f :: c) :=
  .cons (of_plain ho hs) hc

theorem allOf_nil : AllOf u [] := nofun

theorem allOf_yieldCode (hu : u = .proc p) (hc : AllOf u c) : AllOf u (yieldCode p ++ c) := by
  have hl : Of u (.leave p .yield .first) := ⟨fun _ he => (Option.some.inj he) ▸ hu, nofun⟩
  exact .plain (.plain (.plain (.cons hl hc) rfl rfl) rfl rfl) rfl rfl

theorem decodeLeave_next {k : Leave} {pc : LeavePc} (hd : decodeLeave s h p k rest pc = some i)
    (hc : next i = some c) : (∃ pc', c = .leave p k pc' :: rest) ∨ c = k.after ++ rest := by
  cases pc with
  | first => cases k <;> cases hd <;> cases hc <;> exact .inl ⟨_, rfl⟩
  | second => cases k <;> cases hd <;> cases hc <;> exact .inl ⟨_, rfl⟩
  | push => cases hd; cases hc; exact .inl ⟨_, rfl⟩
  | pop => cases hd; cases hc; exact .inl ⟨_, rfl⟩
  | sched =>
    cases hd
    simp only [schedOut] at hc
    repeat' split at hc
    all_goals cases hc
    exact .inl ⟨_, rfl⟩
  | resume b => cases k <;> cases hd <;> cases hc <;> exact .inl ⟨_, rfl⟩
  | clear => cases hd; cases hc; exact .inl ⟨_, rfl⟩
  | release => cases hd; cases hc; exact .inr rfl

theorem decode_of (hd : decode s h rest f = some i) (hc : next i = some c) (hf : Of u f) (hr : AllOf u rest)
    (hp : ∀ p, (s.hart h).proc = some p → mark (f :: rest) = none → u = .proc p) : AllOf u c := by
  cases f with
  | leave p k pc =>
    rcases decodeLeave_next hd hc with ⟨pc', rfl⟩ | rfl
    · exact .cons ⟨hf.own, hf.scheds⟩ hr
    · cases k with
      | sleep ch lk => exact .plain hr rfl rfl
      | _ => exact hr
  | timerState =>
    simp only [decode] at hd
    split at hd <;> cases hd <;> cases hc
    · exact hr
    · rename_i p hproc
      split
      · exact allOf_yieldCode (hp p hproc rfl) hr
      · exact hr
  | _ =>
    simp only [decode] at hd
    (repeat' split at hd) <;> first | contradiction | cases hd
    all_goals cases hc
    all_goals
      repeat first
        | exact hr
        | exact allOf_nil
        | refine AllOf.plain ?_ rfl rfl
        | refine AllOf.cons ⟨hf.own, hf.scheds⟩ ?_

theorem decodeFail_of (hd : decodeFail rest f = some i) (hc : next i = some c) (hr : AllOf u rest) :
    AllOf u c := by
  rcases decodeFail_cases hd with ⟨p, k, j, pid, rfl, rfl⟩ | ⟨p, k, j, pid, rfl, rfl⟩ <;> cases hc
  · exact .plain (.plain hr rfl rfl) rfl rfl
  · exact .plain (.plain (.plain hr rfl rfl) rfl rfl) rfl rfl

theorem decodeOp_of {b : Bool} {ho : List Nat} {d : Nat} {o : Op} (hd : decodeOp s h rest b ho d o = some i)
    (hc : next i = some c) (hr : AllOf u rest) (hp : ∀ p, (s.hart h).proc = some p → u = .proc p) :
    AllOf u c := by
  have body {b' : Bool} {ho' : List Nat} {d' : Nat} : AllOf u (.body b' ho' d' :: rest) := .plain hr rfl rfl
  have same {p : Nat} (hproc : (s.hart h).proc = some p) {f : Frame} (hf : own f = some p)
      (hs : scheds f = false) : Of u f :=
    ⟨fun q hq => Option.some.inj (hf.symm.trans hq) ▸ hp p hproc, fun ht => absurd (hs.symm.trans ht) nofun⟩
  cases o <;> simp only [decodeOp] at hd <;> (repeat' split at hd) <;> first | contradiction | cases hd
  all_goals cases hc
  all_goals
    repeat first
      | exact body
      | exact hr
      | refine AllOf.plain ?_ rfl rfl
      | refine AllOf.cons (same ‹_› rfl rfl) ?_

theorem allOf_trap (ht : UserTrap p a c) : AllOf (.proc p) c := by
  have same {f : Frame} (hf : own f = some p) (hs : scheds f = false) : Of (.proc p) f :=
    ⟨fun q hq => congrArg Tid.proc (Option.some.inj (hf.symm.trans hq)), fun ht => absurd (hs.symm.trans ht) nofun⟩
  rcases ht with ⟨_, ca⟩ | _ | ⟨_, timer⟩
  · cases ca
    all_goals
      repeat first
        | exact allOf_nil
        | refine AllOf.plain ?_ rfl rfl
        | refine AllOf.cons (same rfl rfl) ?_
  · repeat first
      | exact allOf_nil
      | refine AllOf.plain ?_ rfl rfl
      | refine AllOf.cons (same rfl rfl) ?_
  · cases timer
    all_goals
      repeat first
        | exact allOf_nil
        | refine AllOf.plain ?_ rfl rfl
        | refine AllOf.cons (same rfl rfl) ?_

theorem fetch_of (hd : fetch s h a = some i) (hc : next i = some c) (ho : AllOf (s.hart h).cur (s.run h).code)
    (hp : ∀ p, (s.hart h).proc = some p → mark (s.run h).code = none → (s.hart h).cur = .proc p) :
    AllOf (s.hart h).cur c := by
  cases fetch_cases hd with
  | exec g f rest i hcode hd =>
    rw [hcode] at ho hp
    obtain ⟨hf, hr⟩ := forall_mem_cons.mp ho
    exact decode_of hd hc hf hr hp
  | fail g f rest i hcode hd =>
    rw [hcode] at ho
    exact decodeFail_of hd hc (forall_mem_cons.mp ho).2
  | op g o b ho' d rest i hcode hd =>
    rw [hcode] at ho hp
    exact decodeOp_of hd hc (forall_mem_cons.mp ho).2 (fun p hproc => hp p hproc rfl)
  | trap a q p c hq hcode hproc ht =>
    cases hc
    rw [hp p hproc (by rw [hcode]; rfl)]
    exact allOf_trap ht
  | intr g timer hsie =>
    cases hc
    cases timer
    · exact .plain (.plain ho rfl rfl) rfl rfl
    · exact .plain (.plain (.plain (.plain (.plain ho rfl rfl) rfl rfl) rfl rfl) rfl rfl) rfl rfl

theorem AllBelow.tail (hc : AllBelow c) : AllBelow c.tail := fun f hf => hc f (mem_of_mem_tail hf)

theorem AllBelow.cons (hc : AllBelow c) (hf : Below f) : AllBelow (f :: c) := forall_mem_cons.mpr ⟨hf, hc⟩

theorem allBelow_nil : AllBelow [] := nofun

theorem decode_below (hd : decode s h rest f = some i) (hc : next i = some c) (hr : AllBelow rest) :
    AllBelow c.tail := by
  cases f with
  | leave p k pc =>
    rcases decodeLeave_next hd hc with ⟨pc', rfl⟩ | rfl
    · exact hr
    · cases k with
      | sleep ch lk => exact hr
      | _ => exact hr.tail
  | _ =>
    simp only [decode] at hd
    (repeat' split at hd) <;> first | contradiction | cases hd
    all_goals cases hc
    all_goals
      first
      | exact hr.tail
      | repeat first
        | exact hr
        | exact allBelow_nil
        | refine AllBelow.cons ?_ trivial
        | refine AllBelow.cons ?_ rfl

theorem decodeFail_below (hd : decodeFail rest f = some i) (hc : next i = some c) (hr : AllBelow rest) :
    AllBelow c.tail := by
  rcases decodeFail_cases hd with ⟨p, k, j, pid, rfl, rfl⟩ | ⟨p, k, j, pid, rfl, rfl⟩ <;> cases hc
  · exact .cons (f := .ret .failed) hr trivial
  · exact .cons (f := .release .wait) (.cons (f := .ret .failed) hr trivial) trivial

theorem decodeOp_below {b : Bool} {ho : List Nat} {d : Nat} {o : Op} (hd : decodeOp s h rest b ho d o = some i)
    (hc : next i = some c) (hr : AllBelow rest) : AllBelow c.tail := by
  cases o <;> simp only [decodeOp] at hd <;> (repeat' split at hd) <;> first | contradiction | cases hd
  all_goals cases hc
  all_goals
    first
    | exact hr.tail
    | repeat first
      | exact hr
      | refine AllBelow.cons ?_ trivial
      | refine AllBelow.cons ?_ rfl

theorem allBelow_trap (ht : UserTrap p a c) : AllBelow c := by
  rcases ht with ⟨_, ca⟩ | _ | ⟨_, timer⟩
  · cases ca
    all_goals
      repeat first
        | exact allBelow_nil
        | refine AllBelow.cons ?_ trivial
  · repeat first
      | exact allBelow_nil
      | refine AllBelow.cons ?_ trivial
  · cases timer
    all_goals
      repeat first
        | exact allBelow_nil
        | refine AllBelow.cons ?_ trivial
        | refine AllBelow.cons ?_ rfl

theorem below_of_free (hf : Free (f :: rest)) : Below f := by
  have hh := hf.held
  cases f with
  | leave p k pc => cases k <;> cases pc <;> simp at hh
  | schedProc j => simp at hh
  | swtch j => simp at hh
  | schedClear j => simp at hh
  | _ => trivial

theorem allBelow_of_free (hf : Free c) (hb : AllBelow c.tail) : AllBelow c := by
  cases c with
  | nil => exact allBelow_nil
  | cons f rest => exact hb.cons (below_of_free hf)

theorem fetch_below (hd : fetch s h a = some i) (hc : next i = some c) (hs : Shape (s.run h).code)
    (hi : (s.hart h).cpu.sie = true → load (s.run h).code = 0) (hb : AllBelow (s.run h).code.tail) :
    AllBelow c.tail := by
  cases fetch_cases hd with
  | exec g f rest i hcode hd =>
    rw [hcode] at hb
    exact decode_below hd hc hb
  | fail g f rest i hcode hd =>
    rw [hcode] at hb
    exact decodeFail_below hd hc hb
  | op g o b ho d rest i hcode hd =>
    rw [hcode] at hb
    exact decodeOp_below hd hc hb
  | trap a q p c hq hcode hproc ht =>
    cases hc
    exact (allBelow_trap ht).tail
  | intr g timer hsie =>
    cases hc
    have hall := allBelow_of_free ⟨hs, hi hsie⟩ hb
    cases timer
    all_goals
      repeat first
        | exact hall
        | refine AllBelow.cons ?_ trivial

theorem AllBelow.state (hb : AllBelow c) : stateOf c = .running := by
  cases c with
  | nil => rfl
  | cons f rest =>
    have hf := hb f mem_cons_self
    cases f with
    | leave p k pc =>
      cases hf
      cases k <;> rfl
    | _ => rfl

theorem AllBelow.mark (hb : AllBelow c) : mark c = none := by
  cases c with
  | nil => rfl
  | cons f rest =>
    have hf := hb f mem_cons_self
    cases f with
    | schedProc j => exact absurd hf id
    | swtch j => exact absurd hf id
    | schedClear j => exact absurd hf id
    | _ => rfl

end Places

section Quiet

/-- The instructions that leave the process table and the hosting alone. -/
def quiet : Instr → Bool
  | .store _ _ _ | .spawn _ _ | .proc _ _ | .toProc _ _ | .toSched _ | .stop _ => false
  | _ => true

/-- The thread goes on in the same state, with nothing new to hand out. -/
structure Calm (old c : List Frame) : Prop where
  state : stateOf c = stateOf old
  mark : mark c = none
  mark_old : ProcessInv.mark old = none
  making : (making c).Sublist (making old)

theorem making_cons_sublist : (making rest).Sublist (making (f :: rest)) :=
  (sublist_cons_self f rest).filterMap made

theorem calm_pop (hr : AllBelow rest) (hs : stateOf (f :: rest) = .running) (hm : mark (f :: rest) = none) :
    Calm (f :: rest) rest :=
  ⟨hr.state.trans hs.symm, hr.mark, hm, making_cons_sublist⟩

theorem calm_of {old : List Frame} (hs : stateOf c = stateOf old) (hm : mark c = none) (ho : mark old = none)
    (he : making c = making old) : Calm old c :=
  ⟨hs, hm, ho, he ▸ List.Sublist.refl _⟩

theorem decodeLeave_calm {k : Leave} {pc : LeavePc} (hd : decodeLeave s h p k rest pc = some i)
    (hq : quiet i = true) (hc : next i = some c) (hr : AllBelow rest) : Calm (.leave p k pc :: rest) c := by
  cases pc with
  | first => cases k <;> cases hd <;> cases hc <;> first | contradiction | exact calm_of rfl rfl rfl rfl
  | second => cases k <;> cases hd <;> cases hc <;> first | contradiction | exact calm_of rfl rfl rfl rfl
  | push => cases hd; cases hc; exact calm_of (by cases k <;> rfl) rfl rfl rfl
  | pop => cases hd; cases hc; exact calm_of (by cases k <;> rfl) rfl rfl rfl
  | sched =>
    cases hd
    simp only [schedOut] at hq
    repeat' split at hq
    all_goals contradiction
  | resume b => cases k <;> cases hd <;> cases hc <;> exact calm_of rfl rfl rfl rfl
  | clear => cases hd; contradiction
  | release =>
    cases hd
    cases hc
    cases k with
    | sleep ch lk => exact calm_of rfl rfl rfl rfl
    | _ => exact calm_pop hr rfl rfl

theorem decode_calm (hd : decode s h rest f = some i) (hq : quiet i = true) (hc : next i = some c)
    (hr : AllBelow rest) : Calm (f :: rest) c := by
  cases f with
  | leave p k pc => exact decodeLeave_calm hd hq hc hr
  | _ =>
    simp only [decode] at hd
    (repeat' split at hd) <;> first | contradiction | cases hd
    all_goals cases hc
    all_goals
      first
      | contradiction
      | exact calm_of rfl rfl rfl rfl
      | exact calm_pop hr rfl rfl
      | exact ⟨rfl, rfl, rfl, nil_sublist _⟩

theorem decodeFail_calm (hd : decodeFail rest f = some i) (hc : next i = some c) : Calm (f :: rest) c := by
  rcases decodeFail_cases hd with ⟨p, k, j, pid, rfl, rfl⟩ | ⟨p, k, j, pid, rfl, rfl⟩ <;> cases hc
  · exact calm_of rfl rfl rfl rfl
  · exact calm_of rfl rfl rfl rfl

theorem decodeOp_calm {b : Bool} {ho : List Nat} {d : Nat} {o : Op} (hd : decodeOp s h rest b ho d o = some i)
    (hc : next i = some c) (hr : AllBelow rest) : Calm (.body b ho d :: rest) c := by
  cases o <;> simp only [decodeOp] at hd <;> (repeat' split at hd) <;> first | contradiction | cases hd
  all_goals cases hc
  all_goals first | exact calm_of rfl rfl rfl rfl | exact calm_pop hr rfl rfl

theorem trap_calm (ht : UserTrap p a c) : Calm [] c := by
  rcases ht with ⟨_, ca⟩ | _ | ⟨_, timer⟩
  · cases ca <;> exact calm_of rfl rfl rfl rfl
  · exact calm_of rfl rfl rfl rfl
  · cases timer <;> exact calm_of rfl rfl rfl rfl

theorem fetch_calm (hd : fetch s h a = some i) (hq : quiet i = true) (hc : next i = some c)
    (hs : Shape (s.run h).code) (hi : (s.hart h).cpu.sie = true → load (s.run h).code = 0)
    (hb : AllBelow (s.run h).code.tail) : Calm (s.run h).code c := by
  cases fetch_cases hd with
  | exec g f rest i hcode hd =>
    rw [hcode] at hb ⊢
    exact decode_calm hd hq hc hb
  | fail g f rest i hcode hd =>
    rw [hcode]
    exact decodeFail_calm hd hc
  | op g o b ho d rest i hcode hd =>
    rw [hcode] at hb ⊢
    exact decodeOp_calm hd hc hb
  | trap a q p c hq hcode hproc ht =>
    cases hc
    rw [hcode]
    exact trap_calm ht
  | intr g timer hsie =>
    cases hc
    have hall := allBelow_of_free ⟨hs, hi hsie⟩ hb
    cases timer <;> exact calm_of hall.state.symm rfl hall.mark rfl

theorem fetch_loud (hd : fetch s h a = some i) (hq : quiet i = false) :
    ∃ g f rest, a = .exec g ∧ (s.run h).code = f :: rest ∧ decode s h rest f = some i := by
  cases fetch_cases hd with
  | exec g f rest i hcode hd => exact ⟨g, f, rest, rfl, hcode, hd⟩
  | fail g f rest i hcode hd =>
    cases f <;> simp only [decodeFail] at hd <;> (repeat' split at hd) <;> cases hd <;> contradiction
  | op g o b ho d rest i hcode hd =>
    cases o <;> simp only [decodeOp] at hd <;> (repeat' split at hd) <;> cases hd <;> contradiction
  | trap a q p c hq' hcode hproc ht => contradiction
  | intr g timer hsie => contradiction

theorem fetch_nextpid {v : Int} (hd : fetch s h a = some (.nextpid v c)) : ∃ g, a = .exec g := by
  cases fetch_cases hd with
  | exec g f rest i hcode hd => exact ⟨g, rfl⟩
  | fail g f rest i hcode hd =>
    cases f <;> simp only [decodeFail] at hd <;> (repeat' split at hd) <;> cases hd
  | op g o b ho d rest i hcode hd =>
    cases o <;> simp only [decodeOp] at hd <;> (repeat' split at hd) <;> cases hd

end Quiet

section Frames

/-- The frames with which traps, system calls and other kernel code begin. -/
def Begins (a : Act) : Frame → Prop
  | .pushOff | .popOff | .acquire _ | .release _ | .intrOn | .intrOff | .trapRet | .userRet | .body _ _ _
  | .killedLoad _ | .setKilled _ | .timerCheck | .exitStart _ _ => True
  | .leave _ k pc => pc = .first ∧ (k = .yield ∨ ∃ ch l, k = .sleep (.other ch) (.other l) ∧
      ∃ g, a = .op g (.sleep ch l))
  | .wakeup ch j => j = 0 ∧ ∃ m, ch = some (.other m)
  | .syncLoop _ _ j | .allocScan _ _ j => j = 0
  | .waitScan _ _ j havekids => j = 0 ∧ havekids = false
  | .killScan pid j => j = 0 ∧ ∃ g, a = .ecall g (.kill pid)
  | .ret r => r = .failed
  | _ => False

/-- The frames that a step other than one of the thread's own code begins with. -/
def Starts (a : Act) (code : List Frame) (f : Frame) : Prop :=
  Begins a f ∨ ∃ p k j pid rest, code = .allocMem p k j pid :: rest ∧ f = .freeproc j

theorem starts_cons {fs : List Frame} (hf : Begins a f) (hfs : ∀ g ∈ fs, Starts a c g) : ∀ g ∈ f :: fs, Starts a c g :=
  forall_mem_cons.mpr ⟨.inl hf, hfs⟩

theorem starts_nil : ∀ g ∈ [], Starts a c g := nofun

theorem starts_trap (ht : UserTrap p a c) : ∀ f ∈ c, Starts a [] f := by
  rcases ht with ⟨g, ca⟩ | _ | ⟨_, timer⟩
  · cases ca
    all_goals
      repeat first
        | exact starts_nil
        | refine starts_cons trivial ?_
        | refine starts_cons rfl ?_
        | refine starts_cons ⟨rfl, rfl⟩ ?_
        | refine starts_cons ⟨rfl, _, rfl⟩ ?_
  · repeat first
      | exact starts_nil
      | refine starts_cons trivial ?_
  · cases timer
    all_goals
      repeat first
        | exact starts_nil
        | refine starts_cons trivial ?_
        | refine starts_cons ⟨rfl, .inl rfl⟩ ?_

theorem starts_kernelIntr (g : Nat) (timer : Bool) : ∀ f ∈ kernelIntr timer, Starts (.intr g timer) c f := by
  cases timer
  all_goals
    repeat first
      | exact starts_nil
      | refine starts_cons trivial ?_

theorem decodeOp_starts {b : Bool} {ho : List Nat} {d : Nat} {o : Op} {old : List Frame}
    (hd : decodeOp s h rest b ho d o = some i) (hc : next i = some c) :
    ∃ fs, c = fs ++ rest ∧ ∀ f ∈ fs, Starts (.op g o) old f := by
  have hbody {b' : Bool} {ho' : List Nat} {d' : Nat} : ∀ f ∈ [.body b' ho' d'], Starts (.op g o) old f :=
    starts_cons trivial starts_nil
  cases o <;> simp only [decodeOp] at hd <;> (repeat' split at hd) <;> first | contradiction | cases hd
  all_goals cases hc
  case acquire => exact ⟨[_, _], rfl, starts_cons trivial hbody⟩
  case release => exact ⟨[_], rfl, hbody⟩
  case pushOff => exact ⟨[_], rfl, hbody⟩
  case popOff => exact ⟨[_], rfl, hbody⟩
  case wakeup ch => exact ⟨[_, _], rfl, starts_cons ⟨rfl, ch, rfl⟩ hbody⟩
  case setCond => exact ⟨[_], rfl, hbody⟩
  case done => exact ⟨[], rfl, starts_nil⟩
  · exact ⟨[_, _, _, _, _], rfl, starts_cons trivial (starts_cons trivial (starts_cons trivial
      (starts_cons ⟨rfl, .inl rfl⟩ hbody)))⟩
  · exact ⟨[_, _, _, _, _], rfl, starts_cons trivial (starts_cons trivial (starts_cons trivial
      (starts_cons ⟨rfl, .inr ⟨_, _, rfl, g, rfl⟩⟩ hbody)))⟩
  · exact ⟨[_, _, _, _], rfl, starts_cons trivial (starts_cons trivial (starts_cons rfl hbody))⟩
  · exact ⟨[_, _, _], rfl, starts_cons trivial (starts_cons trivial hbody)⟩

section

variable (hd : fetch s h a = some i) (hc : next i = some c)

include hd hc

/-- Such a step puts frames on top of the code or on top of what is under the
innermost frame. -/
theorem fetch_starts (ha : ∀ g, a ≠ .exec g) :
    ∃ fs old, c = fs ++ old ∧ old <:+ (s.run h).code ∧ ∀ f ∈ fs, Starts a (s.run h).code f := by
  cases fetch_cases hd with
  | exec g f rest i hcode hd => exact absurd rfl (ha g)
  | fail g f rest i hcode hd =>
    rw [hcode]
    rcases decodeFail_cases hd with ⟨p, k, j, pid, rfl, rfl⟩ | ⟨p, k, j, pid, rfl, rfl⟩ <;> cases hc
    · refine ⟨[.freeproc j, .ret .failed], rest, rfl, suffix_cons _ _, ?_⟩
      exact forall_mem_cons.mpr ⟨.inr ⟨p, k, j, pid, rest, rfl, rfl⟩, starts_cons rfl starts_nil⟩
    · refine ⟨[.release (.proc j), .release .wait, .ret .failed], rest, rfl, suffix_cons _ _, ?_⟩
      exact starts_cons trivial (starts_cons trivial (starts_cons rfl starts_nil))
  | op g o b ho d rest i hcode hd =>
    rw [hcode]
    obtain ⟨fs, rfl, hfs⟩ := decodeOp_starts (g := g) hd hc
    exact ⟨fs, rest, rfl, suffix_cons _ _, hfs⟩
  | trap a q p c hq hcode hproc ht =>
    cases hc
    rw [hcode]
    exact ⟨c, [], (append_nil c).symm, suffix_refl _, starts_trap ht⟩
  | intr g timer hsie =>
    cases hc
    exact ⟨kernelIntr timer, (s.run h).code, rfl, suffix_refl _, starts_kernelIntr g timer⟩

theorem starts_forall {P : Frame → Prop} (ha : ∀ g, a ≠ .exec g)
    (hold : ∀ f ∈ (s.run h).code, P f) (hnew : ∀ f, Begins a f → P f)
    (hfree : ∀ p k j pid, P (.allocMem p k j pid) → P (.freeproc j)) : ∀ f ∈ c, P f := by
  obtain ⟨fs, old, rfl, hsub, hfs⟩ := fetch_starts hd hc ha
  intro f hf
  rcases mem_append.mp hf with hf | hf
  · rcases hfs f hf with hb | ⟨p, k, j, pid, rest, hcode, rfl⟩
    · exact hnew f hb
    · exact hfree p k j pid (hold _ (hcode ▸ mem_cons_self))
  · exact hold f (hsub.subset hf)

/-- What holds of all frames of a thread, of those that its own code leads to,
and of those that other steps begin with holds of its frames after a step. -/
theorem fetch_forall {P : Frame → Prop}
    (hold : ∀ f ∈ (s.run h).code, P f) (hnew : ∀ f, Begins a f → P f)
    (hfree : ∀ p k j pid, P (.allocMem p k j pid) → P (.freeproc j))
    (hexec : ∀ f rest, (s.run h).code = f :: rest → decode s h rest f = some i → P f → (∀ g ∈ rest, P g) →
      ∀ g ∈ c, P g) : ∀ f ∈ c, P f := by
  by_cases ha : ∃ g, a = .exec g
  · obtain ⟨g, rfl⟩ := ha
    cases fetch_cases hd with
    | exec _ f rest _ hcode hd =>
      rw [hcode] at hold
      obtain ⟨hf, hr⟩ := forall_mem_cons.mp hold
      exact hexec f rest hcode hd hf hr
    | trap _ _ _ _ _ _ _ ht => cases ht
  · exact starts_forall hd hc (fun g hg => ha ⟨g, hg⟩) hold hnew hfree

end

end Frames

end Xv6Rcu.ProcessInv

import Xv6Rcu.ProcessSched

namespace Xv6Rcu.ProcessKill

open Transition Process ProcessCode ProcessInv ProcessTable Function List
  ProcessSched

variable {n h g i j p q : Nat} {s t : State} {u : Tid} {a : Act} {x : Slot} {f : Frame} {c rest : List Frame}
  {pid : Int} {killed : Bool} {log es : List Event} {ins : Instr}

section Calls

def Named : Frame → Prop
  | .killScan pid _ | .killTest pid _ => pid ≠ 0
  | _ => True

def AllNamed (c : List Frame) : Prop := ∀ f ∈ c, Named f

theorem AllNamed.cons (hc : AllNamed c) (hf : Named f) : AllNamed (f :: c) := forall_mem_cons.mpr ⟨hf, hc⟩

theorem allNamed_nil : AllNamed [] := nofun

theorem decode_named (hd : decode s h rest f = some ins) (hc : next ins = some c) (hf : Named f)
    (hr : AllNamed rest) : AllNamed c := by
  cases f with
  | leave p k pc =>
    rcases decodeLeave_next hd hc with ⟨pc', rfl⟩ | rfl
    · exact hr.cons trivial
    · cases k with
      | sleep ch lk => exact AllNamed.cons (f := .acquire lk) hr trivial
      | _ => exact hr
  | _ =>
    simp only [decode] at hd
    (repeat' split at hd) <;> first | contradiction | cases hd
    all_goals cases hc
    all_goals
      repeat first
        | exact hr
        | exact allNamed_nil
        | refine AllNamed.cons ?_ trivial
        | refine AllNamed.cons ?_ hf

def NamedKill (_ : State) (a : Act) : Prop := ∀ h, a ≠ .ecall h (.kill 0)

instance (s : State) (a : Act) : Decidable (NamedKill s a) :=
  match a with
  | .ecall g (.kill v) =>
    if hv : v = 0 then isFalse (fun hn => hn g (by rw [hv])) else isTrue (fun h he => by cases he; exact hv rfl)
  | .ecall _ .fork | .ecall _ .threadCreate | .ecall _ (.wait _) | .ecall _ .threadJoin | .ecall _ (.exit _)
  | .ecall _ (.threadExit _) | .ecall _ .other | .exec _ | .fail _ | .op _ _ | .fault _ | .intr _ _ =>
    isTrue (fun h he => by cases he)

theorem named_begins (ha : NamedKill s a) (hb : Begins a f) : Named f := by
  cases f with
  | killScan pid j =>
    obtain ⟨-, g, rfl⟩ := hb
    rintro rfl
    exact ha g rfl
  | killTest pid j => exact absurd hb id
  | _ => trivial

theorem fetch_named (hd : fetch s h a = some ins) (hc : next ins = some c) (ha : NamedKill s a)
    (hn : AllNamed (s.run h).code) : AllNamed c :=
  fetch_forall hd hc hn (fun _ hb => named_begins ha hb) (fun _ _ _ _ _ => trivial)
    (fun _ _ _ hd hf hr => decode_named hd hc hf hr)

end Calls

section Log

/-- Since process `c` was allocated with this pid, it has been killed by it or
has faulted if its flag is set. -/
def Since (log : List Event) (c : Nat) (pid : Int) (killed : Bool) : Prop :=
  ∃ l₁ l₂, log = l₁ ++ Event.alloc c pid :: l₂ ∧ (∀ v, .alloc c v ∉ l₂) ∧
    (killed = true → .kill pid ∈ l₂ ∨ .fault c ∈ l₂)

theorem Since.append (hs : Since log i pid killed) (he : ∀ v, .alloc i v ∉ es) :
    Since (log ++ es) i pid killed := by
  obtain ⟨l₁, l₂, rfl, hno, hk⟩ := hs
  refine ⟨l₁, l₂ ++ es, by simp, fun v => ?_, fun hki => ?_⟩
  · rw [mem_append]
    exact fun hv => hv.elim (hno v) (he v)
  · exact (hk hki).imp (mem_append_left es) (mem_append_left es)

theorem Since.mark (hs : Since log i pid killed) (he : ∀ v, .alloc i v ∉ es)
    (hk : .kill pid ∈ es ∨ .fault i ∈ es) : Since (log ++ es) i pid true := by
  obtain ⟨l₁, l₂, rfl, hno, -⟩ := hs
  refine ⟨l₁, l₂ ++ es, by simp, fun v => ?_, fun _ => ?_⟩
  · rw [mem_append]
    exact fun hv => hv.elim (hno v) (he v)
  · exact hk.imp (mem_append_right l₂) (mem_append_right l₂)

theorem since_alloc (log : List Event) (i : Nat) (pid : Int) : Since (log ++ [Event.alloc i pid]) i pid false :=
  ⟨log, [], rfl, fun _ => not_mem_nil, nofun⟩

end Log

section Flags

/-- Without `kill(0)`, the flag is clear in unused entries and set in others
only since their last allocation. -/
structure Flags (s : State) : Prop where
  named : ∀ u, AllNamed (s.thread u).code
  unused : ∀ j, (s.slot j).state = .unused → (s.slot j).pid = 0 ∧ (s.slot j).killed = false
  since : ∀ j, (s.slot j).state ≠ .unused → Since s.log j (s.slot j).pid (s.slot j).killed

theorem named_step (hI : Inv s) (hF : Flags s) (ha : NamedKill s a) (hstep : step n s a = some t) (u : Tid) :
    AllNamed (t.thread u).code := by
  obtain ⟨ins, v, hd, ho, rfl⟩ := step_outcome hI hstep
  refine frames_step (P := fun _ f => Named f) ho ?_ (fun u _ => hF.named u) ?_ u
  · cases hc : next ins with
    | none => exact hF.named _
    | some c => exact fetch_named hd hc ha (hF.named _)
  · exact fun j _ => forall_forkret j trivial trivial trivial trivial trivial trivial

theorem events_alloc (hm : .alloc j pid ∈ events s f ++ returns s h f) : ∃ p k, f = .allocSet p k j pid := by
  cases f with
  | allocSet p k m v =>
    cases mem_singleton.mp hm
    exact ⟨p, k, rfl⟩
  | ret r =>
    cases r with
    | waited v st =>
      simp only [events, returns] at hm
      split at hm <;> simp at hm
    | _ => exact absurd hm not_mem_nil
  | exitStart p st =>
    simp only [events, returns] at hm
    split at hm <;> simp at hm
  | killTest v m =>
    simp only [events, returns] at hm
    split at hm <;> simp at hm
  | setParent p k m v => simp [events, returns] at hm
  | setKilled p => simp [events, returns] at hm
  | _ => exact absurd hm not_mem_nil

theorem recorded_alloc (hm : .alloc j pid ∈ recorded s h a) :
    ∃ g p k rest, a = .exec g ∧ (s.run h).code = .allocSet p k j pid :: rest := by
  cases a with
  | exec g =>
    simp only [recorded] at hm
    split at hm
    · rename_i f rest hcode
      obtain ⟨p, k, rfl⟩ := events_alloc hm
      exact ⟨g, p, k, rest, rfl, hcode⟩
    · exact absurd hm not_mem_nil
  | _ => exact absurd hm not_mem_nil

theorem recorded_exec (ha : a = .exec a.hart) (hcode : (s.run a.hart).code = f :: rest) :
    recorded s a.hart a = events s f ++ returns s a.hart f := by
  cases a with
  | exec g =>
    change (s.run g).code = f :: rest at hcode
    simp only [recorded, Act.hart, hcode]
  | _ => cases ha

theorem alloc_slot (hI : Inv s) (hstep : step n s a = some t) (hm : .alloc j pid ∈ recorded s a.hart a) :
    t.slot ≠ s.slot := by
  obtain ⟨ins, v, hd, ho, rfl⟩ := step_outcome hI hstep
  obtain ⟨g, p, k, rest, rfl, hcode⟩ := recorded_alloc hm
  have hunused : (s.slot j).state = .unused := hI.good (s.hart g).cur (.allocSet p k j pid) (by
    change _ ∈ (s.run g).code
    rw [show (s.run g).code = _ from hcode]
    exact mem_cons_self)
  simp only [fetch, hcode, decode, Option.some.injEq] at hd
  subst hd
  intro he
  have hj := congrFun (ho.slot.symm.trans he) j
  rw [slots, update_self] at hj
  have hused := congrArg Slot.state hj
  rw [hunused] at hused
  contradiction

theorem flagged_unused (hw : Flagged s u f j x) (hF : Flags s) (hn : Named f)
    (hrun : u = .proc j → (s.slot j).state = .running) (hx : x.state = .unused) : x.pid = 0 ∧ x.killed = false := by
  cases hw with
  | same hp hk hu =>
    rw [hp, hk]
    exact hF.unused j (hu.mp hx)
  | mark hp _ hu _ he =>
    have hy := hu.mp hx
    rcases he with rfl | ⟨-, he⟩
    · exact absurd (hp.trans (hF.unused j hy).1) hn
    · rw [hrun he] at hy
      contradiction
  | freed hp hk => exact ⟨hp, hk⟩
  | alloc _ _ hu => exact absurd hx hu

theorem flagged_since (hw : Flagged s u f j x) (hF : Flags s) (hx : x.state ≠ .unused) :
    Since (s.log ++ (events s f ++ returns s h f)) j x.pid x.killed := by
  have hno (hn : ∀ p k m v, f ≠ .allocSet p k m v) (v : Int) : .alloc j v ∉ events s f ++ returns s h f := by
    intro hm
    obtain ⟨p, k, hf⟩ := events_alloc hm
    exact hn p k j v hf
  cases hw with
  | same hp hk hu hn =>
    rw [hp, hk]
    exact (hF.since j (fun hy => hx (hu.mpr hy))).append (hno hn)
  | mark hp hk hu hn he =>
    rw [hk]
    refine Since.mark (hp ▸ hF.since j (fun hy => hx (hu.mpr hy))) (hno hn) ?_
    rcases he with rfl | ⟨rfl, -⟩
    · simp [events, hp]
    · simp [events]
  | freed _ _ hu => exact absurd hu hx
  | alloc hk hy _ he =>
    obtain ⟨p, k, rfl⟩ := he
    rw [hk, (hF.unused j hy).2]
    exact since_alloc s.log j x.pid

theorem flags_step (hI : Inv s) (hF : Flags s) (ha : NamedKill s a) (hstep : step n s a = some t) : Flags t := by
  have hlog : t.log = s.log ++ recorded s a.hart a := by
    obtain ⟨ins, v, -, ho, rfl⟩ := step_outcome hI hstep
    exact congrArg (· ++ _) ho.log
  have hnamed := named_step hI hF ha hstep
  rcases step_slot hI hstep with he | ⟨f, rest, j, x, c, hex, hcode, hd, he, hS⟩
  · refine ⟨hnamed, he ▸ hF.unused, fun j hj => ?_⟩
    rw [hlog, he]
    exact (hF.since j (he ▸ hj)).append (fun v hm => alloc_slot hI hstep hm he)
  have hall : AllNamed (f :: rest) := hcode ▸ hF.named _
  have hrun (hp : (s.hart a.hart).cur = .proc j) : (s.slot j).state = .running := by
    rw [(hI.hosted a.hart j hp).2.2, ← hp, ← State.run, hcode]
    exact hS.state_old
  have hw := hI.flagged hcode hd
  rw [recorded_exec hex hcode] at hlog
  have hself : t.slot j = x := by rw [he, update_self]
  have hne {m : Nat} (hm : m ≠ j) : t.slot m = s.slot m := by rw [he, update_of_ne hm]
  refine ⟨hnamed, fun m hm => ?_, fun m hm => ?_⟩
  · by_cases hmj : m = j
    · subst hmj
      rw [hself] at hm ⊢
      exact flagged_unused hw hF (hall f mem_cons_self) hrun hm
    · rw [hne hmj] at hm ⊢
      exact hF.unused m hm
  · by_cases hmj : m = j
    · subst hmj
      rw [hself] at hm ⊢
      rw [hlog]
      exact flagged_since hw hF hm
    · rw [hne hmj] at hm ⊢
      rw [hlog]
      refine (hF.since m hm).append (fun v hv => ?_)
      -- What is recorded as an allocation is the entry that is stored to.
      obtain ⟨p, k, rfl⟩ := events_alloc hv
      cases hd
      exact hmj rfl

theorem flags_boot : Flags boot := by
  constructor
  case named => exact forall_boot (P := fun _ => Named) (fun _ => trivial) (forall_forkret _ trivial trivial trivial trivial trivial trivial)
  case unused =>
    intro j hj
    by_cases he : j = initproc
    · subst he
      cases hj
    · simp [boot, he]
  case since =>
    intro j hj
    by_cases he : j = initproc
    · subst he
      exact since_alloc [] initproc 1
    · exact absurd (by simp [boot, he]) hj

end Flags

section Result

/-- `kill(pid)` is at entry `j`, which has this pid: it marks it and returns 0. -/
def Finds (s : State) (h : Nat) (pid : Int) (j : Nat) : Prop :=
  (s.run h).code.head? = some (.killTest pid j) ∧ (s.slot j).pid = pid

theorem Flags.finds (hF : Flags s) (hf : Finds s h pid j) : (s.slot j).state ≠ .unused := by
  obtain ⟨hcode, hp⟩ := hf
  have hn : pid ≠ 0 := hF.named _ _ (mem_of_head? hcode)
  exact fun hu => hn (hp.symm.trans (hF.unused j hu).1)

theorem flags_run (r : Run (step n)) (hr : r.Meets NamedKill) (h0 : r.state 0 = boot) (i : Nat) (hi : i ≤ r.length) :
    Inv (r.state i) ∧ Flags (r.state i) :=
  r.invariant (I := fun s => Inv s ∧ Flags s) hr (h0 ▸ ⟨inv_boot, flags_boot⟩)
    (fun _ _ _ hI ha hstep => ⟨inv_step hI.1 hstep, flags_step hI.1 hI.2 ha hstep⟩) i hi

/-- As long as no process calls `kill(0)`: unused entries have a clear flag, the
flag of a process is set only by `kill` with its pid or by its own fault, after
it was allocated, and `kill` returns 0 only for a process. -/
theorem killed_by_kill (n : Nat) (r : Run (step n)) (h0 : r.state 0 = boot) (hr : r.Meets NamedKill) (i : Nat)
    (hi : i ≤ r.length) (j : Nat) :
    (((r.state i).slot j).state = .unused → ((r.state i).slot j).killed = false) ∧
    (((r.state i).slot j).state ≠ .unused →
      Since (r.state i).log j ((r.state i).slot j).pid ((r.state i).slot j).killed) ∧
    ∀ h pid, Finds (r.state i) h pid j → ((r.state i).slot j).state ≠ .unused := by
  have hF := (flags_run r hr h0 i hi).2
  exact ⟨fun hu => (hF.unused j hu).2, hF.since j, fun h pid hf => hF.finds hf⟩

def killSelf : Run (step 2) :=
  Run.ofExec (step 2) boot (toUser ++ Act.ecall 0 (.kill 1) :: List.replicate 13 (Act.exec 0)) (by decide +kernel)

theorem killed_by_kill_killSelf : ((killSelf.state 30).slot initproc).killed = true ∧
    Since (killSelf.state 30).log initproc ((killSelf.state 30).slot initproc).pid
      ((killSelf.state 30).slot initproc).killed := by
  have hr : killSelf.Meets NamedKill := by decide +kernel
  have hj : ((killSelf.state 30).slot initproc).state ≠ .unused := by decide +kernel
  exact ⟨by decide +kernel,
    (killed_by_kill 2 killSelf Run.ofExec_start hr 30 (by decide +kernel) initproc).2.1 hj⟩

def killZero : Run (step 2) :=
  Run.ofExec (step 2) boot (toUser ++ Act.ecall 0 (.kill 0) :: List.replicate 28 (Act.exec 0) ++
    Act.ecall 0 .fork :: List.replicate 26 (Act.exec 0)) (by decide +kernel)

/-- `kill(0)` returns 0 for an unused entry and marks it, and the process that
`allocproc` puts there is killed from the start. -/
theorem kill_zero_marks_unused : killZero.state 0 = boot ∧ Finds (killZero.state 34) 0 0 1 ∧
    ((killZero.state 35).slot 1).state = .unused ∧ ((killZero.state 35).slot 1).killed = true ∧
    (killZero.state 72).log = [.alloc initproc 1, .kill 0, .alloc 1 2] ∧
    ((killZero.state 72).slot 1).state = .used ∧ ((killZero.state 72).slot 1).killed = true := by
  refine ⟨rfl, ⟨?_, ?_⟩, ?_, ?_, ?_, ?_, ?_⟩ <;> decide +kernel

end Result

end Xv6Rcu.ProcessKill

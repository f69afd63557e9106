import Xv6Rcu.Process

namespace Xv6Rcu.ProcessCode

open Process List
open Kernel (NPROC SyncCall)

variable {s : State} {h p : Nat} {k : Leave} {f : Frame} {c fs rest old : List Frame} {l : LockId} {i : Instr}

section Accounts

@[simp]
def locks : Frame → List LockId
  | .release l => [l]
  | .body _ holds _ => holds.map .other
  | .killedLoad p | .setKilled p => [.proc p]
  | .wakeTest _ i | .killTest _ i | .freeproc i | .setRunnable i _ => [.proc i]
  | .allocTest _ _ i | .allocSet _ _ i _ | .allocMem _ _ i _ => [.proc i]
  | .pidLoad _ _ i | .pidStore _ _ i _ => [.pid, .proc i]
  | .setParent _ .fork _ _ => [.wait]
  | .setParent _ .threadCreate i _ => [.wait, .proc i]
  | .reparent _ _ _ | .waitScan _ _ _ _ => [.wait]
  | .waitTest _ _ i | .waitCopy _ _ i _ | .waitFree _ i _ _ => [.proc i, .wait]
  | .waitKilled p _ => [.proc p, .wait]
  | .schedAffinity i | .schedAffinityHere i | .schedCheck i | .schedProc i | .swtch i
  | .schedClear i => [.proc i]
  | _ => []

/-- The spinlocks held in a leaving routine over code that holds `ls`: `sleep`
gives its lock away for a while, `exit` keeps `wait_lock` at first. -/
@[simp]
def leaveLocks (p : Nat) (ls : List LockId) : Leave → LeavePc → List LockId
  | .yield, _ => .proc p :: ls
  | .sleep _ _, .first => .proc p :: ls
  | .sleep _ lk, _ => .proc p :: ls.erase lk
  | .exit _, .first | .exit _, .second => .proc p :: .wait :: ls
  | .exit _, _ => .proc p :: ls

/-- The spinlocks held at a frame over code that holds `ls`. A frame under an
`acquire` is counted with the lock it is about to get. -/
@[simp]
def locksOver (ls : List LockId) : Frame → List LockId
  | .acquire l | .spin l => ls.erase l
  | .leave p k pc => leaveLocks p ls k pc
  | f => locks f ++ ls

@[simp]
def held : List Frame → List LockId
  | [] => []
  | f :: c => locksOver (held c) f

@[simp]
def extraOver (d : Nat) : Frame → Nat
  | .pushOff => d - 1
  | .popOff | .spin _ | .leave _ _ .pop => d + 1
  | .body _ _ sections => sections + d
  | _ => d

/-- The calls of `push_off` still to be undone, apart from those of spinlocks. -/
@[simp]
def extra : List Frame → Nat
  | [] => 0
  | f :: c => extraOver (extra c) f

def load (c : List Frame) : Nat := (held c).length + extra c

@[simp]
def chanLocks : Option Chan → List LockId
  | some (.proc _) => [.wait]
  | _ => []

@[simp]
def firm : Frame → List LockId
  | .pidLoad _ _ i | .allocSet _ _ i _ => [.proc i]
  | .pidStore _ _ i _ => [.pid, .proc i]
  | .reparent _ _ (_ + 1) | .waitScan _ _ (_ + 1) _ | .waitTest _ _ _ | .waitKilled _ _ => [.wait]
  | .waitCopy _ _ i _ | .waitFree _ i _ _ => [.proc i, .wait]
  | .leave _ (.sleep _ lk) .first => [lk]
  | .leave _ (.exit _) .first => [.wait]
  | .wakeup c _ | .wakeSelf c _ | .wakeTest c _ => chanLocks c
  | .schedCheck i | .schedProc i | .swtch i => [.proc i]
  | _ => []

/-- The frames that `acquire` leads to, with the lock they acquire. -/
@[simp]
def entry (l : LockId) : Frame → Prop
  | .killedLoad i | .setKilled i | .wakeTest _ i | .killTest _ i | .allocTest _ _ i
  | .setRunnable i _ | .waitTest _ _ i | .waitKilled i _ | .schedAffinity i
  | .leave i _ .first => l = .proc i
  | .pidLoad _ _ _ => l = .pid
  | .setParent _ _ _ _ | .waitScan _ _ 0 false | .reparent _ _ 0 => l = .wait
  | .body _ holds _ => ∃ i ∈ holds, l = .other i
  | _ => False

/-- The code that `acquire` leads to. Other kernel code asks for `p->killed`
and releases `p->lock` at once. -/
@[simp]
def Enters (l : LockId) : List Frame → Prop
  | [] => False
  | .release m :: .body _ _ _ :: _ => l = m ∧ ∃ i, m = .proc i
  | f :: _ => entry l f

def exits : Frame → Bool
  | .reparent _ _ _ | .leave _ (.exit _) .first => true
  | _ => false

@[simp]
def need : Frame → List Frame → Prop
  | .popOff, _ => True
  | .pushOff, c => 0 < extra c
  | .acquire l, c | .spin l, c => Enters l c
  | .release l, c => l ∉ held c
  | .leave _ (.sleep _ lk) _, c =>
    (∀ i, lk ≠ .proc i) ∧ held c = [lk] ∧ extra c = 0 ∧ Enters lk c ∧ ∀ f ∈ c, firm f = []
  | .wakeup _ _, c | .wakeSelf _ _, c | .wakeTest _ _, c =>
    (∀ i, .proc i ∉ held c) ∧ (.wait ∈ held c → ∃ f ∈ c, exits f = true)
  | _, c => load c = 0

def Firm (c : List Frame) : Prop := ∀ f ∈ c, ∀ l ∈ firm f, l ∈ held c

@[simp]
def Shape : List Frame → Prop
  | [] => True
  | f :: c => need f c ∧ (held (f :: c)).Nodup ∧ Firm (f :: c) ∧ Shape c

theorem load_eq_zero : load c = 0 ↔ held c = [] ∧ extra c = 0 := by
  simp [load, Nat.add_eq_zero_iff, length_eq_zero_iff]

theorem Shape.firm (hs : Shape c) : Firm c := by
  cases c with
  | nil => exact nofun
  | cons f c => exact hs.2.2.1

theorem Shape.nodup (hs : Shape c) : (held c).Nodup := by
  cases c with
  | nil => exact nodup_nil
  | cons f c => exact hs.2.1

end Accounts

section Append

/-- Code that holds nothing, as a system call or an interrupt finds it. -/
structure Free (rest : List Frame) : Prop where
  shape : Shape rest
  load : load rest = 0

theorem Free.held (hr : Free rest) : held rest = [] := (load_eq_zero.mp hr.load).1

theorem Free.extra (hr : Free rest) : extra rest = 0 := (load_eq_zero.mp hr.load).2

theorem Free.firm (hr : Free rest) (hf : f ∈ rest) : firm f = [] := by
  refine eq_nil_iff_forall_not_mem.mpr (fun l hl => ?_)
  have hm := hr.shape.firm f hf l hl
  rw [hr.held] at hm
  exact absurd hm not_mem_nil

theorem held_append (fs : List Frame) (hr : Free rest) : held (fs ++ rest) = held fs := by
  induction fs with
  | nil => exact hr.held
  | cons f fs ih =>
    simp only [cons_append, ProcessCode.held]
    rw [ih]

theorem extra_append (fs : List Frame) (hr : Free rest) : extra (fs ++ rest) = extra fs := by
  induction fs with
  | nil => exact hr.extra
  | cons f fs ih =>
    simp only [cons_append, ProcessCode.extra]
    rw [ih]

theorem load_append (fs : List Frame) (hr : Free rest) : load (fs ++ rest) = load fs := by
  rw [ProcessCode.load, ProcessCode.load, held_append _ hr, extra_append _ hr]

theorem enters_append (he : Enters l fs) : Enters l (fs ++ rest) := by
  cases fs with
  | nil => exact absurd he id
  | cons f fs =>
    cases f with
    | release m =>
      cases fs with
      | nil => exact absurd he id
      | cons g fs => cases g <;> exact he
    | _ => exact he

theorem need_append (hr : Free rest) (hn : need f fs) : need f (fs ++ rest) := by
  have hfirm : ∀ g ∈ fs ++ rest, (∀ g ∈ fs, ProcessCode.firm g = []) → ProcessCode.firm g = [] := by
    intro g hg hfs
    rcases mem_append.mp hg with hg | hg
    · exact hfs g hg
    · exact hr.firm hg
  cases f with
  | popOff => trivial
  | pushOff =>
    simp only [need, extra_append _ hr]
    exact hn
  | acquire l => exact enters_append hn
  | spin l => exact enters_append hn
  | release l =>
    simp only [need, held_append _ hr]
    exact hn
  | leave p k pc =>
    cases k with
    | sleep ch lk =>
      obtain ⟨hlk, hheld, hextra, he, hf⟩ := hn
      refine ⟨hlk, ?_, ?_, enters_append he, fun g hg => hfirm g hg hf⟩
      · rw [held_append _ hr, hheld]
      · rw [extra_append _ hr, hextra]
    | _ => exact (load_append _ hr).trans hn
  | wakeup ch j =>
    simp only [need, held_append _ hr, mem_append]
    exact ⟨hn.1, fun hw => (hn.2 hw).imp fun g hg => ⟨.inl hg.1, hg.2⟩⟩
  | wakeSelf ch j =>
    simp only [need, held_append _ hr, mem_append]
    exact ⟨hn.1, fun hw => (hn.2 hw).imp fun g hg => ⟨.inl hg.1, hg.2⟩⟩
  | wakeTest ch j =>
    simp only [need, held_append _ hr, mem_append]
    exact ⟨hn.1, fun hw => (hn.2 hw).imp fun g hg => ⟨.inl hg.1, hg.2⟩⟩
  | _ => exact (load_append _ hr).trans hn

theorem firm_append (hr : Free rest) (hf : Firm fs) : Firm (fs ++ rest) := by
  intro g hg l hl
  rw [held_append _ hr]
  rcases mem_append.mp hg with hg | hg
  · exact hf g hg l hl
  · rw [hr.firm hg] at hl
    exact absurd hl not_mem_nil

theorem shape_append (hr : Free rest) (hs : Shape fs) : Shape (fs ++ rest) := by
  induction fs with
  | nil => exact hr.shape
  | cons f fs ih =>
    obtain ⟨hneed, hnodup, hfirm, hrest⟩ := hs
    refine ⟨need_append hr hneed, ?_, firm_append hr hfirm, ih hrest⟩
    change (held (f :: fs ++ rest)).Nodup
    rw [held_append _ hr]
    exact hnodup

end Append

section Balance

variable {rest' : List Frame}

def Keeps (old c : List Frame) : Prop := Shape c ∧ held c = held old ∧ load c = load old

/-- What a step of a thread changes in its code is what it does to its hart
and to the locks. -/
def Balanced (old : List Frame) : Instr → Prop
  | .goto c | .intena _ c | .store _ _ c | .spawn _ c | .nextpid _ c | .cond _ c | .proc _ c
  | .toProc _ c | .toSched c => Keeps old c
  | .sie b c => Keeps old c ∧ (b = true → load c = 0)
  | .push c => Shape c ∧ held c = held old ∧ load c = load old + 1
  | .pop c => Shape c ∧ held c = held old ∧ load c + 1 = load old
  | .take l c => Shape c ∧ held old = (held c).erase l ∧ l ∈ held c ∧ load c = load old
  | .drop l c => Shape c ∧ held c = (held old).erase l ∧ l ∈ held old ∧ load c + 1 = load old
  | .stop _ => True

theorem free_nil : Free [] := ⟨trivial, rfl⟩

theorem keeps_of (hs : Shape c) (hh : held c = held old) (he : extra c = extra old) : Keeps old c :=
  ⟨hs, hh, by rw [load, load, hh, he]⟩

theorem keeps_over (hr : Free rest) (hr' : Free rest') (fs : List Frame) (hs : Shape fs)
    (hh : held fs = held [f]) (he : extra fs = extra [f]) : Keeps (f :: rest) (fs ++ rest') := by
  have hold : held (f :: rest) = held [f] := held_append [f] hr
  have hload : load (f :: rest) = load [f] := load_append [f] hr
  refine ⟨shape_append hr' hs, ?_, ?_⟩
  · rw [held_append _ hr', hh, hold]
  · rw [load_append _ hr', hload, load, load, hh, he]

theorem keeps_one {g : Frame} (hr : Free rest) (hs : Shape [g] := by simp [Firm, load])
    (hh : held [g] = held [f] := by simp) (he : extra [g] = extra [f] := by rfl) : Keeps (f :: rest) (g :: rest) :=
  keeps_over hr hr [g] hs hh he

theorem keeps_two {g g' : Frame} (hr : Free rest) (hs : Shape [g, g'] := by simp [Firm, load])
    (hh : held [g, g'] = held [f] := by simp) (he : extra [g, g'] = extra [f] := by rfl) :
    Keeps (f :: rest) (g :: g' :: rest) :=
  keeps_over hr hr [g, g'] hs hh he

theorem mem_held_of_enters (he : Enters l c) : l ∈ held c := by
  cases c with
  | nil => exact absurd he id
  | cons f c =>
    cases f with
    | leave p k pc => cases k <;> cases pc <;> simp_all
    | release m =>
      cases c with
      | nil => exact absurd he id
      | cons g c => cases g <;> simp_all
    | setParent p k i pid => cases k <;> simp_all
    | waitScan p k i b => cases i <;> cases b <;> simp_all
    | reparent p st i => cases i <;> simp_all
    | body b hs d =>
      obtain ⟨x, hx, rfl⟩ := he
      exact mem_append_left _ (mem_map_of_mem hx)
    | _ => simp_all

theorem spin_balanced (hs : Shape (.spin l :: rest)) : Balanced (.spin l :: rest) (.take l rest) := by
  have hm : l ∈ held rest := mem_held_of_enters hs.1
  refine ⟨hs.2.2.2, rfl, hm, ?_⟩
  have hpos := length_pos_of_mem hm
  simp only [load, held, locksOver, extra, extraOver, length_erase_of_mem hm]
  omega

theorem acquire_balanced (hs : Shape (.acquire l :: rest)) :
    Balanced (.acquire l :: rest) (.push (.spin l :: rest)) := by
  obtain ⟨hneed, hnodup, hfirm, hrest⟩ := hs
  refine ⟨⟨hneed, hnodup, ?_, hrest⟩, rfl, rfl⟩
  simpa [Firm] using hfirm

theorem leave_shape {pc pc' : LeavePc} (hs : Shape (.leave p k pc :: rest))
    (hf : firm (.leave p k pc') = []) : Shape (.leave p k pc' :: rest) := by
  obtain ⟨hneed, -, -, hrest⟩ := hs
  have hfree : (∀ g ∈ rest, firm g = []) ∧ (held (.leave p k pc' :: rest)).Nodup := by
    cases k with
    | sleep ch lk =>
      obtain ⟨hlk, hheld, -, -, hfirm⟩ := hneed
      exact ⟨hfirm, by cases pc' <;> simp [hheld, (hlk p).symm]⟩
    | _ =>
      have hr : Free rest := ⟨hrest, hneed⟩
      exact ⟨fun g hg => hr.firm hg, by cases pc' <;> simp [hr.held]⟩
  refine ⟨by cases k <;> exact hneed, hfree.2, ?_, hrest⟩
  intro g hg m hm
  rcases mem_cons.mp hg with rfl | hg
  · rw [hf] at hm
    exact absurd hm not_mem_nil
  · rw [hfree.1 g hg] at hm
    exact absurd hm not_mem_nil

theorem leave_keeps {pc pc' : LeavePc} (hs : Shape (.leave p k pc :: rest))
    (hf : firm (.leave p k pc') = [])
    (hl : leaveLocks p (held rest) k pc' = leaveLocks p (held rest) k pc)
    (he : extra (.leave p k pc' :: rest) = extra (.leave p k pc :: rest)) :
    Keeps (.leave p k pc :: rest) (.leave p k pc' :: rest) := by
  refine ⟨leave_shape hs hf, hl, ?_⟩
  rw [load, load, he]
  exact congrArg (fun ls => ls.length + extra (.leave p k pc :: rest)) hl

theorem schedOut_balanced (hs : Shape (.leave p k .sched :: rest)) :
    Balanced (.leave p k .sched :: rest) (schedOut s h p k rest) := by
  unfold schedOut
  split
  · trivial
  split
  · trivial
  split
  · trivial
  split
  · trivial
  · exact leave_keeps hs (by cases k <;> rfl) (by cases k <;> rfl) rfl

theorem after_balanced (hs : Shape (.leave p k .release :: rest)) :
    Balanced (.leave p k .release :: rest) (.drop (.proc p) (k.after ++ rest)) := by
  obtain ⟨hneed, -, -, hrest⟩ := hs
  cases k with
  | sleep ch lk =>
    obtain ⟨-, hheld, hextra, hent, hfirm⟩ := hneed
    refine ⟨⟨hent, ?_, ?_, hrest⟩, ?_, ?_, ?_⟩
    · simp [hheld]
    · intro g hg m hm
      rcases mem_cons.mp hg with rfl | hg
      · exact absurd hm not_mem_nil
      · rw [hfirm g hg] at hm
        exact absurd hm not_mem_nil
    all_goals simp [Leave.after, hheld, load]
    omega
  | _ =>
    refine ⟨hrest, ?_, ?_, ?_⟩
    all_goals simp [Leave.after, load]
    omega

theorem leave_balanced {pc : LeavePc} (hs : Shape (.leave p k pc :: rest))
    (hd : decodeLeave s h p k rest pc = some i) : Balanced (.leave p k pc :: rest) i := by
  cases pc with
  | first =>
    cases k with
    | sleep ch lk =>
      obtain ⟨hlk, hheld, -, -, -⟩ := hs.1
      cases hd
      refine ⟨leave_shape hs rfl, ?_, ?_, ?_⟩
      all_goals simp [hheld, (hlk p).symm, load]
      omega
    | _ =>
      cases hd
      exact leave_keeps hs rfl rfl rfl
  | second =>
    cases k with
    | yield => contradiction
    | sleep ch lk =>
      cases hd
      exact leave_keeps hs rfl rfl rfl
    | exit st =>
      cases hd
      refine ⟨leave_shape hs rfl, ?_, ?_, ?_⟩
      all_goals simp [load]
      omega
  | push =>
    cases hd
    refine ⟨leave_shape hs (by cases k <;> rfl), by cases k <;> rfl, by cases k <;> rfl⟩
  | pop =>
    cases hd
    refine ⟨leave_shape hs (by cases k <;> rfl), by cases k <;> rfl, by cases k <;> rfl⟩
  | sched =>
    cases hd
    exact schedOut_balanced hs
  | resume b =>
    cases k with
    | exit st =>
      cases hd
      trivial
    | _ =>
      cases hd
      exact leave_keeps hs rfl rfl rfl
  | clear =>
    cases hd
    exact leave_keeps hs (by cases k <;> rfl) (by cases k <;> rfl) rfl
  | release =>
    cases hd
    exact after_balanced hs

theorem shape_cons (hc : Shape c) (hn : need f c) (hf : ∀ l ∈ firm f, l ∈ held c)
    (hl : held (f :: c) = locks f ++ held c) (hd : ∀ l ∈ locks f, l ∉ held c) (hnd : (locks f).Nodup) :
    Shape (f :: c) := by
  refine ⟨hn, ?_, ?_, hc⟩
  · rw [hl]
    exact nodup_append.mpr ⟨hnd, hc.nodup, fun l hl m hm hlm => hd l hl (hlm ▸ hm)⟩
  · intro g hg l hg'
    rw [hl]
    refine mem_append_right _ ?_
    rcases mem_cons.mp hg with rfl | hg
    · exact hf l hg'
    · exact hc.firm g hg l hg'

theorem shape_acquire (hc : Shape (f :: c)) (he : Enters l (f :: c)) (hf : ∀ m ∈ firm f, m ∈ held c)
    (hl : (held (f :: c)).erase l = held c) : Shape (.acquire l :: f :: c) := by
  have hheld : held (.acquire l :: f :: c) = held c := hl
  refine ⟨he, ?_, ?_, hc⟩
  · rw [hheld]
    exact hc.2.2.2.nodup
  · intro g hg m hm
    rw [hheld]
    rcases mem_cons.mp hg with rfl | hg
    · exact absurd hm not_mem_nil
    · rcases mem_cons.mp hg with rfl | hg
      · exact hf m hm
      · exact hc.2.2.2.firm g hg m hm

theorem wakeup_balanced {ch : Option Chan} {j : Nat} (hc : Shape rest) (hn : need (.wakeup ch j) rest)
    (hf : ∀ l ∈ chanLocks ch, l ∈ held rest) :
    (decode s h rest (.wakeup ch j) = some i → Balanced (.wakeup ch j :: rest) i) ∧
    (decode s h rest (.wakeSelf ch j) = some i → Balanced (.wakeSelf ch j :: rest) i) ∧
    (decode s h rest (.wakeTest ch j) = some i → Balanced (.wakeTest ch j :: rest) i) := by
  have hwake : ∀ j, Shape (.wakeup ch j :: rest) := fun j => shape_cons hc hn hf rfl nofun nodup_nil
  have hself : Shape (.wakeSelf ch j :: rest) := shape_cons hc hn hf rfl nofun nodup_nil
  have htest : Shape (.wakeTest ch j :: rest) :=
    shape_cons hc hn hf rfl (by simpa using hn.1 j) (nodup_singleton _)
  have hpop : Shape (.popOff :: .wakeSelf ch j :: rest) :=
    shape_cons hself trivial nofun rfl nofun nodup_nil
  have hpush : Shape (.pushOff :: .popOff :: .wakeSelf ch j :: rest) :=
    shape_cons hpop (Nat.succ_pos _) nofun rfl nofun nodup_nil
  have hacq : Shape (.acquire (.proc j) :: .wakeTest ch j :: rest) :=
    shape_acquire htest rfl hf (by simp)
  have hrel : Shape (.release (.proc j) :: .wakeup ch (j + 1) :: rest) :=
    shape_cons (hwake (j + 1)) (hn.1 j) nofun rfl (by simpa using hn.1 j) (nodup_singleton _)
  refine ⟨fun hd => ?_, fun hd => ?_, fun hd => ?_⟩
  · cases hd
    split
    · exact ⟨hpush, rfl, rfl⟩
    · exact ⟨hc, rfl, rfl⟩
  · simp only [decode] at hd
    split at hd
    · cases hd
      exact ⟨hwake (j + 1), rfl, rfl⟩
    · cases hd
      refine ⟨hacq, ?_, ?_⟩ <;> simp [load]
  · simp only [decode] at hd
    split at hd
    · cases hd
      exact ⟨hrel, rfl, rfl⟩
    · cases hd
      exact ⟨hrel, rfl, rfl⟩

/-- The frames of `fork`, `thread_create`, `wait`, `thread_join` and `kill`. -/
theorem call_balanced (hr : Free rest) (hd : decode s h rest f = some i)
    (hf : match f with
      | .allocScan _ _ _ | .allocTest _ _ _ | .pidLoad _ _ _ | .pidStore _ _ _ _ | .allocSet _ _ _ _
      | .allocMem _ _ _ _ | .freeproc _ | .setParent _ _ _ _ | .setRunnable _ _ | .waitScan _ _ _ _
      | .waitTest _ _ _ | .waitCopy _ _ _ _ | .waitFree _ _ _ _ | .waitKilled _ _ | .killScan _ _
      | .killTest _ _ | .ret _ => True
      | _ => False) : Balanced (f :: rest) i := by
  cases f with
  | allocScan p k j =>
    cases hd
    split
    · exact keeps_two hr
    · exact keeps_one hr
  | allocTest p k j =>
    simp only [decode] at hd
    split at hd
    · cases hd
      exact keeps_two hr
    · cases hd
      exact keeps_two hr
  | pidLoad p k j =>
    cases hd
    exact keeps_one hr
  | pidStore p k j pid =>
    cases hd
    exact keeps_two hr
  | allocSet p k j pid =>
    cases hd
    exact keeps_one hr
  | allocMem p k j pid =>
    cases k with
    | fork =>
      cases hd
      exact keeps_over hr hr [.release (.proc j), .acquire .wait, .setParent p .fork j pid]
        (by simp [Firm, load]) rfl rfl
    | threadCreate =>
      cases hd
      exact keeps_two hr
  | freeproc j =>
    cases hd
    exact keeps_one hr
  | setParent p k j pid =>
    cases k with
    | fork =>
      cases hd
      exact keeps_over hr hr [.release .wait, .acquire (.proc j), .setRunnable j pid]
        (by simp [Firm, load]) (by simp) rfl
    | threadCreate =>
      cases hd
      exact keeps_over hr hr [.release .wait, .release (.proc j), .acquire (.proc j), .setRunnable j pid]
        (by simp [Firm, load]) (by simp) rfl
  | setRunnable j pid =>
    cases hd
    exact keeps_two hr
  | waitScan p k j havekids =>
    simp only [decode] at hd
    split at hd
    · split at hd
      · cases hd
        exact keeps_two hr
      · cases hd
        exact keeps_one hr
    · split at hd
      · cases hd
        exact keeps_two hr
      · cases hd
        exact keeps_two hr
  | waitTest p k j =>
    simp only [decode] at hd
    split at hd
    · cases hd
      exact keeps_one hr
    · cases hd
      exact keeps_two hr
  | waitCopy p k j pid =>
    cases hd
    exact keeps_one hr
  | waitFree p j pid status =>
    cases hd
    exact keeps_over hr hr [.release (.proc j), .release .wait, .ret (.waited pid status)]
      (by simp [Firm, load]) rfl rfl
  | waitKilled p k =>
    cases hd
    split
    · exact keeps_over hr hr [.release (.proc p), .release .wait, .ret .failed] (by simp [Firm, load]) rfl rfl
    · exact keeps_over (f := .waitKilled p k) hr hr
        (Frame.release (.proc p) :: sleepCode p (.proc p) .wait ++ [Frame.waitScan p k 0 false])
        (by simp [Firm, load, sleepCode, myproc]) (by simp [sleepCode, myproc]) rfl
  | killScan pid j =>
    cases hd
    split
    · exact keeps_two hr
    · exact keeps_one hr
  | killTest pid j =>
    simp only [decode] at hd
    split at hd
    · cases hd
      exact keeps_two hr
    · cases hd
      exact keeps_two hr
  | ret r =>
    cases hd
    exact keeps_over hr hr [] trivial rfl rfl
  | _ => exact absurd hf id

theorem sched_balanced (hr : Free rest) (hd : decode s h rest f = some i)
    (hf : match f with
      | .schedLoop | .schedScan _ | .schedAffinity _ | .schedAffinityHere _ | .schedCheck _ | .schedProc _
      | .swtch _ | .schedClear _ => True
      | _ => False) : Balanced (f :: rest) i := by
  have hrel : ∀ j, Shape [.release (.proc j), .schedScan (j + 1)] := fun j => by simp [Firm, load]
  cases f with
  | schedLoop =>
    cases hd
    exact ⟨keeps_one hr, fun _ => load_append [_] hr⟩
  | schedScan j =>
    cases hd
    split
    · exact keeps_two hr
    · exact keeps_one hr
  | schedAffinity j =>
    simp only [decode] at hd
    split at hd
    · cases hd
      exact keeps_one hr
    · cases hd
      exact keeps_one hr
  | schedAffinityHere j =>
    simp only [decode] at hd
    split at hd
    · cases hd
      exact keeps_two hr (hrel j)
    · cases hd
      exact keeps_one hr
  | schedCheck j =>
    simp only [decode] at hd
    split at hd
    · cases hd
      exact keeps_one hr
    · cases hd
      exact keeps_two hr (hrel j)
  | schedProc j =>
    cases hd
    exact keeps_one hr
  | swtch j =>
    cases hd
    exact keeps_one hr
  | schedClear j =>
    cases hd
    exact keeps_two hr (hrel j)
  | _ => exact absurd hf id

theorem shape_yieldCode (p : Nat) : Shape (yieldCode p) := by simp [yieldCode, myproc, Firm, load]

theorem decode_balanced (hs : Shape (f :: rest)) (hd : decode s h rest f = some i) :
    Balanced (f :: rest) i := by
  obtain ⟨hneed, hnodup, hfirm, hrest⟩ := hs
  have hfree : load rest = 0 → Free rest := fun hl => ⟨hrest, hl⟩
  cases f with
  | pushOff =>
    cases hd
    have hneed : 0 < extra rest := hneed
    refine ⟨hrest, rfl, ?_⟩
    simp only [load, held, locksOver, locks, extra, extraOver, nil_append]
    omega
  | popOff =>
    cases hd
    exact ⟨hrest, rfl, rfl⟩
  | acquire l =>
    cases hd
    exact acquire_balanced ⟨hneed, hnodup, hfirm, hrest⟩
  | spin l =>
    cases hd
    exact spin_balanced ⟨hneed, hnodup, hfirm, hrest⟩
  | release l =>
    cases hd
    refine ⟨hrest, ?_, ?_, ?_⟩
    all_goals simp [load]
    omega
  | body _ _ _ => contradiction
  | leave p k pc => exact leave_balanced ⟨hneed, hnodup, hfirm, hrest⟩ hd
  | wakeup ch j => exact (wakeup_balanced hrest hneed (hfirm _ mem_cons_self)).1 hd
  | wakeSelf ch j => exact (wakeup_balanced hrest hneed (hfirm _ mem_cons_self)).2.1 hd
  | wakeTest ch j =>
    refine (wakeup_balanced hrest hneed (fun l hl => ?_)).2.2 hd
    have hm : l ∈ .proc j :: held rest := hfirm _ mem_cons_self l hl
    rcases mem_cons.mp hm with rfl | hm
    · cases ch with
      | none => exact absurd hl not_mem_nil
      | some ch => cases ch <;> simp at hl
    · exact hm
  | intrOn =>
    cases hd
    exact ⟨keeps_over (hfree hneed) (hfree hneed) [] trivial rfl rfl, fun _ => hneed⟩
  | trapRet =>
    cases hd
    exact ⟨keeps_over (hfree hneed) (hfree hneed) [] trivial rfl rfl, fun _ => hneed⟩
  | userRet =>
    cases hd
    exact ⟨keeps_over (hfree hneed) (hfree hneed) [] trivial rfl rfl, fun _ => hneed⟩
  | intrOff =>
    cases hd
    exact ⟨keeps_over (hfree hneed) (hfree hneed) [] trivial rfl rfl, nofun⟩
  | killedLoad p =>
    have hr := hfree hneed
    cases hd
    split
    · have := keeps_over (f := .killedLoad p) hr free_nil (.release (.proc p) :: exitCode p (-1))
        (by simp [exitCode, myproc, Firm, load]) rfl rfl
      rwa [append_nil] at this
    · exact keeps_one hr
  | setKilled p =>
    have hr := hfree hneed
    cases hd
    exact keeps_one hr
  | timerCheck =>
    have hr := hfree hneed
    simp only [decode] at hd
    split at hd
    · cases hd
      exact keeps_over hr hr [] trivial rfl rfl
    · cases hd
      exact keeps_over hr hr [.pushOff, .popOff, .timerState] (by simp [Firm, load]) rfl rfl
  | timerState =>
    have hr := hfree hneed
    simp only [decode] at hd
    split at hd
    · cases hd
      exact keeps_over hr hr [] trivial rfl rfl
    · rename_i p _
      cases hd
      split
      · exact keeps_over hr hr (yieldCode p) (shape_yieldCode p) (by simp [yieldCode, myproc]) rfl
      · exact keeps_over hr hr [] trivial rfl rfl
  | syncLoop p c j =>
    have hr := hfree hneed
    simp only [decode] at hd
    split at hd
    · cases hd
      exact keeps_over (f := .syncLoop p c j) hr hr (yieldCode p ++ [Frame.syncLoop p c (j + 1)])
        (by simp [yieldCode, myproc, Firm, load]) (by simp [yieldCode, myproc]) rfl
    · cases hd
      exact keeps_over hr hr [] trivial rfl rfl
  | exitStart p status =>
    simp only [decode] at hd
    split at hd
    · cases hd
      trivial
    · cases hd
      exact keeps_over (f := .exitStart p status) (hfree hneed) free_nil
        [.body true [] 0, .acquire .wait, .reparent p status 0] (by simp [Firm, load]) rfl rfl
  | reparent p status j =>
    have hr := hfree hneed
    simp only [decode] at hd
    split at hd
    · split at hd
      · cases hd
        exact keeps_over hr hr [.wakeup (some (.proc initproc)) 0, .reparent p status (j + 1)]
          (by simp [Firm, load, exits]) rfl rfl
      · cases hd
        exact keeps_one hr
    · cases hd
      refine keeps_over (f := .reparent p status j) hr hr [.wakeup ((s.slot p).parent.map .proc) 0,
        .acquire (.proc p), .leave p (.exit status) .first] ?_ (by simp) rfl
      cases (s.slot p).parent <;> simp [Firm, load, exits]
  | schedLoop => exact sched_balanced (hfree hneed) hd trivial
  | schedScan j => exact sched_balanced (hfree hneed) hd trivial
  | schedAffinity j => exact sched_balanced (hfree hneed) hd trivial
  | schedAffinityHere j => exact sched_balanced (hfree hneed) hd trivial
  | schedCheck j => exact sched_balanced (hfree hneed) hd trivial
  | schedProc j => exact sched_balanced (hfree hneed) hd trivial
  | swtch j => exact sched_balanced (hfree hneed) hd trivial
  | schedClear j => exact sched_balanced (hfree hneed) hd trivial
  | _ => exact call_balanced (hfree hneed) hd trivial

theorem decodeFail_cases (hd : decodeFail rest f = some i) :
    (∃ p k j pid, f = .allocMem p k j pid ∧ i = .goto (.freeproc j :: .ret .failed :: rest)) ∨
      ∃ p k j pid, f = .waitCopy p k j pid ∧
        i = .goto (.release (.proc j) :: .release .wait :: .ret .failed :: rest) := by
  cases f with
  | allocMem p k j pid =>
    cases hd
    exact .inl ⟨p, k, j, pid, rfl, rfl⟩
  | waitCopy p k j pid =>
    cases k with
    | wait addr =>
      simp only [decodeFail] at hd
      split at hd <;> cases hd
      exact .inr ⟨p, _, j, pid, rfl, rfl⟩
    | threadJoin => contradiction
  | _ => contradiction

theorem decodeFail_balanced (hs : Shape (f :: rest)) (hd : decodeFail rest f = some i) :
    Balanced (f :: rest) i := by
  rcases decodeFail_cases hd with ⟨p, k, j, pid, rfl, rfl⟩ | ⟨p, k, j, pid, rfl, rfl⟩
  · exact keeps_two ⟨hs.2.2.2, hs.1⟩
  · have hr : Free rest := ⟨hs.2.2.2, hs.1⟩
    exact keeps_over hr hr [.release (.proc j), .release .wait, .ret .failed] (by simp [Firm, load]) rfl rfl

section Body

variable {blocks : Bool} {holds : List Nat} {sections : Nat}

def others (holds : List Nat) : List LockId := holds.map .other

theorem mem_others {j : Nat} : .other j ∈ others holds ↔ j ∈ holds := by
  simp [others]

theorem others_erase (j : Nat) : others (holds.erase j) = (others holds).erase (.other j) :=
  map_erase (fun _ _ he => LockId.other.inj he) holds

section

variable (hr : Free rest)

include hr

theorem held_body {b : Bool} {d : Nat} : held (.body b holds d :: rest) = others holds := by
  simp [hr.held, others]

theorem extra_body : extra (.body blocks holds sections :: rest) = sections := by
  simp [hr.extra]

theorem load_body :
    load (.body blocks holds sections :: rest) = (others holds).length + sections := by
  rw [load, held_body hr, extra_body hr]

theorem shape_body (hn : (others holds).Nodup) :
    Shape (.body blocks holds sections :: rest) := by
  refine ⟨hr.load, (held_body hr).symm ▸ hn, ?_, hr.shape⟩
  intro g hg l hl
  rcases mem_cons.mp hg with rfl | hg
  · exact absurd hl not_mem_nil
  · rw [hr.firm hg] at hl
    exact absurd hl not_mem_nil

theorem free_body : Free (.body blocks [] 0 :: rest) :=
  ⟨shape_body hr nodup_nil, load_body hr⟩

theorem firm_body {g : Frame} (hg : g ∈ Frame.body blocks holds sections :: rest) :
    firm g = [] := by
  rcases mem_cons.mp hg with rfl | hg
  · rfl
  · exact hr.firm hg

theorem shape_over_body (hn : (others holds).Nodup) (hneed : need f (.body blocks holds sections :: rest))
    (hf : firm f = []) (hnodup : (held (f :: .body blocks holds sections :: rest)).Nodup) :
    Shape (f :: .body blocks holds sections :: rest) := by
  refine ⟨hneed, hnodup, ?_, shape_body hr hn⟩
  intro g hg l hl
  rcases mem_cons.mp hg with rfl | hg
  · rw [hf] at hl
    exact absurd hl not_mem_nil
  · rw [firm_body hr hg] at hl
    exact absurd hl not_mem_nil

end

theorem decodeOp_balanced {o : Op} (hs : Shape (.body blocks holds sections :: rest))
    (hd : decodeOp s h rest blocks holds sections o = some i) :
    Balanced (.body blocks holds sections :: rest) i := by
  have hr : Free rest := ⟨hs.2.2.2, hs.1⟩
  have hn : (others holds).Nodup := held_body (b := blocks) (d := sections) hr ▸ hs.2.1
  cases o with
  | acquire j =>
    simp only [decodeOp] at hd
    split at hd
    case isFalse => contradiction
    rename_i hj
    cases hd
    have hj : .other j ∉ others holds := fun hm => hj (mem_others.mp hm)
    have hnew : held (.body blocks (j :: holds) sections :: rest) = .other j :: others holds :=
      held_body hr
    have hn' : (others (j :: holds)).Nodup := nodup_cons.mpr ⟨hj, hn⟩
    have hheld : held (.acquire (.other j) :: .body blocks (j :: holds) sections :: rest) =
        others holds := by
      rw [held, locksOver, hnew, erase_cons_head]
    refine keeps_of (shape_over_body hr hn' ⟨_, mem_cons_self, rfl⟩ rfl (hheld.symm ▸ hn)) ?_ rfl
    rw [hheld, held_body hr]
  | release j =>
    simp only [decodeOp] at hd
    split at hd
    case isFalse => contradiction
    rename_i hj
    cases hd
    have hj : .other j ∈ others holds := mem_others.mpr hj
    have hpos := length_pos_of_mem hj
    refine ⟨shape_body hr ?_, ?_, ?_, ?_⟩
    · rw [others_erase]
      exact hn.erase _
    · rw [held_body hr, held_body hr, others_erase]
    · rwa [held_body hr]
    · rw [load_body hr, load_body hr, others_erase, length_erase_of_mem hj]
      omega
  | pushOff =>
    cases hd
    exact ⟨shape_body hr hn, by rw [held_body hr, held_body hr], by rw [load_body hr, load_body hr, Nat.add_assoc]⟩
  | popOff =>
    simp only [decodeOp] at hd
    split at hd
    case isFalse => contradiction
    cases hd
    refine ⟨shape_body hr hn, by rw [held_body hr, held_body hr], ?_⟩
    rw [load_body hr, load_body hr]
    omega
  | yield =>
    simp only [decodeOp] at hd
    split at hd
    case h_2 => contradiction
    split at hd
    case isFalse => contradiction
    rename_i p _ hq
    obtain ⟨-, rfl, rfl⟩ := hq
    cases hd
    exact keeps_over hr (free_body hr) (yieldCode p) (shape_yieldCode p) (by simp [yieldCode, myproc]) rfl
  | sleep ch j =>
    simp only [decodeOp] at hd
    split at hd
    case h_2 => contradiction
    split at hd
    case isFalse => contradiction
    rename_i p _ hq
    obtain ⟨-, hlock, rfl⟩ := hq
    cases hd
    have hold : held [.body blocks holds 0] = [.other j] := by
      rw [held_body free_nil, hlock]
      rfl
    have hnew := keeps_over (f := .body blocks holds 0) hr hr
      (sleepCode p (.other ch) (.other j) ++ [Frame.body true [j] 0])
      (by simp [sleepCode, myproc, Firm, load]) (hold ▸ by simp [sleepCode, myproc]) rfl
    rw [append_assoc] at hnew
    exact hnew
  | wakeup ch =>
    cases hd
    have hheld : held (.wakeup (some (.other ch)) 0 :: .body blocks holds sections :: rest) = others holds :=
      held_body hr
    refine keeps_of (shape_over_body hr hn ?_ rfl (hheld.symm ▸ hn)) ?_ rfl
    · simp [hr.held]
    · rw [hheld, held_body hr]
  | sync ch =>
    simp only [decodeOp] at hd
    split at hd
    case h_2 => contradiction
    split at hd
    case isFalse => contradiction
    rename_i p _ hq
    obtain ⟨-, rfl, rfl⟩ := hq
    cases hd
    exact keeps_over (f := .body blocks [] 0) hr (free_body hr) (myproc ++ [Frame.syncLoop p ch 0])
      (by simp [myproc, Firm, load]) rfl rfl
  | killed =>
    simp only [decodeOp] at hd
    split at hd
    case h_2 => contradiction
    split at hd
    case isFalse => contradiction
    rename_i p _ hq
    cases hd
    have hrel : Shape (.release (.proc p) :: .body blocks holds sections :: rest) := by
      refine shape_over_body hr hn ?_ rfl ?_
      · simp [hr.held]
      · change (.proc p :: held (.body blocks holds sections :: rest)).Nodup
        rw [held_body hr]
        exact nodup_cons.mpr ⟨by simp [others], hn⟩
    have hheld : held (.acquire (.proc p) :: .release (.proc p) :: .body blocks holds sections :: rest) =
        others holds := by
      rw [← held_body (b := blocks) (d := sections) hr]
      exact erase_cons_head _ _
    refine keeps_of ⟨⟨rfl, p, rfl⟩, hheld.symm ▸ hn, ?_, hrel⟩ ?_ rfl
    · intro g hg l hl
      simp only [mem_cons] at hg
      rcases hg with rfl | rfl | hg
      · exact absurd hl not_mem_nil
      · exact absurd hl not_mem_nil
      · rw [firm_body hr (mem_cons.mpr hg)] at hl
        exact absurd hl not_mem_nil
    · rw [hheld, held_body hr]
  | setCond v =>
    cases hd
    exact ⟨hs, rfl, rfl⟩
  | done =>
    simp only [decodeOp] at hd
    split at hd
    case isFalse => contradiction
    rename_i hq
    obtain ⟨rfl, rfl⟩ := hq
    cases hd
    exact keeps_over hr hr [] trivial rfl rfl

end Body

section Traps

theorem Free.append (hc : Free c) (hr : Free rest) : Free (c ++ rest) :=
  ⟨shape_append hr hc.shape, (load_append c hr).trans hc.load⟩

theorem Free.cons (hf : Free [f]) (hr : Free rest) : Free (f :: rest) := hf.append hr

theorem free_myproc : Free myproc := ⟨by simp [myproc, Firm], rfl⟩

theorem free_yieldCode (p : Nat) : Free (yieldCode p) :=
  ⟨shape_yieldCode p, by simp [yieldCode, myproc, load]⟩

theorem free_killedCheck (p : Nat) : Free (killedCheck p) :=
  ⟨by simp [killedCheck, Firm, load], by simp [killedCheck, load]⟩

theorem free_setKilled (p : Nat) : Free [.acquire (.proc p), .setKilled p] :=
  ⟨by simp [Firm, load], by simp [load]⟩

theorem free_single (hn : need f []) (hl : load [f] = 0) (hf : firm f = []) : Free [f] := by
  refine ⟨⟨hn, ?_, ?_, trivial⟩, hl⟩
  · rw [(load_eq_zero.mp hl).1]
    exact nodup_nil
  · intro g hg l hm
    rw [mem_singleton.mp hg, hf] at hm
    exact absurd hm not_mem_nil

theorem free_usertrapret : Free usertrapret :=
  free_myproc.append (Free.cons (f := .intrOff) (free_single rfl rfl rfl) (free_single rfl rfl rfl))

theorem free_waitCode (p : Nat) (w : Waiter) : Free (waitCode p w) :=
  free_myproc.append ⟨by simp [Firm, load], by simp [load]⟩

theorem free_callCode (p : Nat) (ca : Call) : Free (ca.code p) := by
  cases ca with
  | fork => exact free_myproc.append (free_single rfl rfl rfl)
  | threadCreate => exact free_myproc.append (free_single rfl rfl rfl)
  | wait addr => exact free_waitCode p _
  | threadJoin => exact free_waitCode p _
  | exit st => exact free_myproc.append (free_single rfl rfl rfl)
  | threadExit st => exact free_myproc.append (free_single rfl rfl rfl)
  | kill pid => exact free_single rfl rfl rfl
  | other => exact free_single rfl rfl rfl

theorem free_syscallTrap (p : Nat) (ca : Call) : Free (syscallTrap p ca) :=
  ((((free_myproc.append (free_killedCheck p)).append (Free.cons (f := .intrOn) (free_single rfl rfl rfl) free_myproc)).append
    (free_callCode p ca)).append (free_killedCheck p)).append free_usertrapret

theorem free_faultTrap (p : Nat) : Free (faultTrap p) :=
  (free_myproc.append ((free_setKilled p).append (free_killedCheck p))).append free_usertrapret

theorem free_userIntr (p : Nat) (timer : Bool) : Free (userIntr p timer) := by
  refine ((free_myproc.append (Free.cons (f := .body false [] 0) (free_single rfl rfl rfl) (free_killedCheck p))).append ?_).append
    free_usertrapret
  cases timer with
  | false => exact free_nil
  | true => exact free_yieldCode p

theorem free_kernelIntr (timer : Bool) : Free (kernelIntr timer) := by
  refine (Free.cons (f := .body false [] 0) (free_single rfl rfl rfl) ?_).append (free_single rfl rfl rfl)
  cases timer with
  | false => exact free_nil
  | true => exact free_myproc.append (free_single rfl rfl rfl)

theorem keeps_free (ho : Free old) (hc : Free c) : Keeps old c :=
  keeps_of hc.shape (hc.held.trans ho.held.symm) (hc.extra.trans ho.extra.symm)

inductive UserTrap (p : Nat) : Act → List Frame → Prop
  | syscall (g : Nat) (ca : Call) : UserTrap p (.ecall g ca) (syscallTrap p ca)
  | fault (g : Nat) : UserTrap p (.fault g) (faultTrap p)
  | intr (g : Nat) (timer : Bool) : UserTrap p (.intr g timer) (userIntr p timer)

theorem UserTrap.free {a : Act} (ht : UserTrap p a c) : Free c := by
  cases ht with
  | syscall g ca => exact free_syscallTrap p ca
  | fault g => exact free_faultTrap p
  | intr g timer => exact free_userIntr p timer

inductive Fetched (s : State) (h : Nat) : Act → Instr → Prop
  | exec (g : Nat) (f : Frame) (rest : List Frame) (i : Instr) : (s.run h).code = f :: rest →
      decode s h rest f = some i → Fetched s h (.exec g) i
  | fail (g : Nat) (f : Frame) (rest : List Frame) (i : Instr) : (s.run h).code = f :: rest →
      decodeFail rest f = some i → Fetched s h (.fail g) i
  | op (g : Nat) (o : Op) (blocks : Bool) (holds : List Nat) (sections : Nat) (rest : List Frame) (i : Instr) :
      (s.run h).code = .body blocks holds sections :: rest →
      decodeOp s h rest blocks holds sections o = some i → Fetched s h (.op g o) i
  | trap (a : Act) (q p : Nat) (c : List Frame) : (s.hart h).cur = .proc q → (s.run h).code = [] →
      (s.hart h).proc = some p → UserTrap p a c → Fetched s h a (.sie false c)
  | intr (g : Nat) (timer : Bool) : (s.hart h).cpu.sie = true →
      Fetched s h (.intr g timer) (.sie false (kernelIntr timer ++ (s.run h).code))

theorem fetch_cases {a : Act} (hd : fetch s h a = some i) : Fetched s h a i := by
  cases a with
  | exec g =>
    simp only [fetch] at hd
    split at hd
    · exact .exec g _ _ i ‹_› hd
    · contradiction
  | fail g =>
    simp only [fetch] at hd
    split at hd
    · exact .fail g _ _ i ‹_› hd
    · contradiction
  | op g o =>
    simp only [fetch] at hd
    split at hd
    · exact .op g o _ _ _ _ i ‹_› hd
    · contradiction
  | ecall g ca =>
    simp only [fetch] at hd
    split at hd
    · cases hd
      exact .trap _ _ _ _ ‹_› ‹_› ‹_› (.syscall g ca)
    · contradiction
  | fault g =>
    simp only [fetch] at hd
    split at hd
    · cases hd
      exact .trap _ _ _ _ ‹_› ‹_› ‹_› (.fault g)
    · contradiction
  | intr g timer =>
    simp only [fetch] at hd
    split at hd
    · split at hd
      · cases hd
        exact .trap _ _ _ _ ‹_› ‹_› ‹_› (.intr g timer)
      · cases hd
        exact .intr g timer ‹_›
    · contradiction

/-- Every step of a hart accounts for its locks and its calls of `push_off`. -/
theorem fetch_balanced {a : Act} (hs : Shape (s.run h).code)
    (hi : (s.hart h).cpu.sie = true → load (s.run h).code = 0) (hd : fetch s h a = some i) :
    Balanced (s.run h).code i := by
  cases fetch_cases hd with
  | exec g f rest i hc hd =>
    rw [hc] at hs ⊢
    exact decode_balanced hs hd
  | fail g f rest i hc hd =>
    rw [hc] at hs ⊢
    exact decodeFail_balanced hs hd
  | op g o blocks holds sections rest i hc hd =>
    rw [hc] at hs ⊢
    exact decodeOp_balanced hs hd
  | trap a q p c hq hc hp ht =>
    rw [hc]
    exact ⟨keeps_free free_nil ht.free, nofun⟩
  | intr g timer hsie =>
    have hfree : Free (s.run h).code := ⟨hs, hi hsie⟩
    exact ⟨keeps_free hfree ((free_kernelIntr timer).append hfree), nofun⟩

end Traps

end Balance

end Xv6Rcu.ProcessCode

import Xv6Rcu.ProcessFamily

namespace Xv6Rcu.ProcessOrder

open Transition Process ProcessCode ProcessInv ProcessTable List
open ProcessSched ProcessFamily

variable {n h g i j p q : Nat} {s : State} {f : Frame} {c rest : List Frame} {l : LockId}

section Definitions

/-- Hart `g` spins for a lock of the process table that hart `h` holds. -/
def Blocks (s : State) (h g : Nat) : Prop :=
  ∃ l, (l = .wait ∨ ∃ j, l = .proc j) ∧ s.lock l = some h ∧ ∃ rest, (s.run g).code = .spin l :: rest

/-- `exit` or `thread_exit` is under `wait_lock` while `thread_create` asks for
it, with the lock of the new process held. -/
def Overlap (s : State) : Prop :=
  ∃ h g p i pid, s.lock .wait = some h ∧ (∃ f ∈ (s.run h).code, exits f = true) ∧
    .setParent p .threadCreate i pid ∈ (s.run g).code

end Definitions

section Spinning

theorem not_mem_held_spin (hs : Shape (.spin l :: rest)) : l ∉ held (.spin l :: rest) :=
  hs.2.2.2.nodup.not_mem_erase

/-- Nobody asks for the lock of a process with that of another one in hand. With
`wait_lock` in hand, it is `wakeup` in `exit`, or `wait` for a child, or the
process is the one that the routine runs in. -/
theorem held_spin_proc (hs : Shape (.spin (.proc j) :: rest)) :
    (∀ i, .proc i ∉ held (.spin (.proc j) :: rest)) ∧ (.wait ∈ held (.spin (.proc j) :: rest) →
      (∃ f ∈ rest, exits f = true) ∨ (∃ p k, .waitTest p k j ∈ rest) ∨ ∃ f ∈ rest, own f = some j) := by
  obtain ⟨he, -, -, hrest⟩ := hs
  change (∀ i, LockId.proc i ∉ (held rest).erase (.proc j)) ∧ (LockId.wait ∈ (held rest).erase (.proc j) → _)
  cases rest with
  | nil => exact absurd he id
  | cons f c =>
    obtain ⟨hn, -, -, hc⟩ := hrest
    cases f with
    | release m =>
      cases c with
      | nil => exact absurd he id
      | cons g c =>
        cases g with
        | body b ho d =>
          obtain ⟨rfl, -⟩ := he
          simp [(load_eq_zero.mp hc.1).1]
        | _ => exact absurd he id
    | leave q k pc =>
      cases pc <;> first | exact absurd he id | skip
      cases he
      refine ⟨fun i => ?_, fun _ => .inr (.inr ⟨_, mem_cons_self, rfl⟩)⟩
      cases k with
      | sleep ch lk => simp [hn.2.1, (hn.1 i).symm]
      | _ => simp [(load_eq_zero.mp hn).1]
    | wakeTest ch k =>
      cases he
      refine ⟨fun i => by simpa using hn.1 i, fun hm => ?_⟩
      obtain ⟨g, hg, hx⟩ := hn.2 (by simpa using hm)
      exact .inl ⟨g, mem_cons_of_mem _ hg, hx⟩
    | waitTest q k m =>
      cases he
      exact ⟨fun i => by simp [(load_eq_zero.mp hn).1], fun _ => .inr (.inl ⟨q, k, mem_cons_self⟩)⟩
    | waitKilled q k =>
      cases he
      exact ⟨fun i => by simp [(load_eq_zero.mp hn).1], fun _ => .inr (.inr ⟨_, mem_cons_self, rfl⟩)⟩
    | waitScan q k m b => cases m <;> cases b <;> first | exact absurd he id | cases he
    | reparent q st m => cases m <;> first | exact absurd he id | cases he
    | body b ho d =>
      obtain ⟨x, -, hx⟩ := he
      cases hx
    | killedLoad q | setKilled q | killTest pid k | allocTest q m k | setRunnable k pid | schedAffinity k =>
      cases he
      simp [(load_eq_zero.mp hn).1]
    | _ => first | exact absurd he id | cases he

/-- Only `thread_create` asks for `wait_lock` with the lock of a process in hand. -/
theorem held_spin_wait (hs : Shape (.spin .wait :: rest)) (hm : .proc i ∈ held (.spin .wait :: rest)) :
    ∃ p pid, .setParent p .threadCreate i pid ∈ rest := by
  obtain ⟨he, -, -, hrest⟩ := hs
  change LockId.proc i ∈ (held rest).erase .wait at hm
  cases rest with
  | nil => exact absurd he id
  | cons f c =>
    obtain ⟨hn, -, -, hc⟩ := hrest
    cases f with
    | release m =>
      cases c with
      | nil => exact absurd he id
      | cons g c =>
        cases g with
        | body b ho d =>
          obtain ⟨rfl, x, hx⟩ := he
          cases hx
        | _ => exact absurd he id
    | setParent q k m pid =>
      cases k with
      | fork => simp [(load_eq_zero.mp hn).1] at hm
      | threadCreate =>
        obtain rfl : i = m := by simpa [(load_eq_zero.mp hn).1] using hm
        exact ⟨q, pid, mem_cons_self⟩
    | leave q k pc => cases pc <;> first | exact absurd he id | cases he
    | waitScan q k m b =>
      cases m <;> cases b <;> first | exact absurd he id | simp [(load_eq_zero.mp hn).1] at hm
    | reparent q st m => cases m <;> first | exact absurd he id | simp [(load_eq_zero.mp hn).1] at hm
    | body b ho d =>
      obtain ⟨x, -, hx⟩ := he
      cases hx
    | _ => first | exact absurd he id | cases he

end Spinning

section Cycles

/-- Every member of a cycle of harts spins, and holds a lock for which the next
member spins. -/
theorem exists_next (hc : Relation.TransGen (Blocks s) h h) :
    ∃ g, Blocks s h g ∧ Relation.TransGen (Blocks s) g g := by
  obtain ⟨g, hg, hback⟩ := Relation.TransGen.head'_iff.mp hc
  exact ⟨g, hg, Relation.TransGen.trans_right hback (Relation.TransGen.single hg)⟩

theorem exists_spin (hc : Relation.TransGen (Blocks s) h h) :
    ∃ l, (l = .wait ∨ ∃ j, l = .proc j) ∧ ∃ rest, (s.run h).code = .spin l :: rest := by
  obtain ⟨g, -, l, hl, -, hspin⟩ := Relation.TransGen.tail'_iff.mp hc
  exact ⟨l, hl, hspin⟩

theorem mem_held_run (hI : Inv s) (hl : s.lock l = some h) (hc : (s.run h).code = c) : l ∈ held c :=
  hc ▸ ((hI.fit h).lock l).mp hl

/-- A member of a cycle that spins for the lock of a process holds `wait_lock`. -/
theorem wait_of_spin_proc (hI : Inv s) (hc : Relation.TransGen (Blocks s) h h)
    (hspin : (s.run h).code = .spin (.proc j) :: rest) :
    s.lock .wait = some h ∧ ∃ g, (∃ rest', (s.run g).code = .spin .wait :: rest') ∧
      Relation.TransGen (Blocks s) g g := by
  obtain ⟨g, ⟨l, rfl | ⟨i, rfl⟩, hl, hg⟩, hgg⟩ := exists_next hc
  · exact ⟨hl, g, hg, hgg⟩
  · exact absurd (mem_held_run hI hl hspin) ((held_spin_proc (hI.shape_run hspin)).1 i)

/-- A member of a cycle that spins for `wait_lock` holds the lock of a process
for which the holder of `wait_lock` spins. -/
theorem proc_of_spin_wait (hI : Inv s) (hc : Relation.TransGen (Blocks s) g g)
    (hspin : (s.run g).code = .spin .wait :: rest) :
    ∃ h i rest', s.lock .wait = some h ∧ (s.run h).code = .spin (.proc i) :: rest' ∧ s.lock (.proc i) = some g := by
  obtain ⟨h, ⟨l, rfl | ⟨i, rfl⟩, hl, rest', hh⟩, hhh⟩ := exists_next hc
  · exact absurd (mem_held_run hI hl hspin) (not_mem_held_spin (hI.shape_run hspin))
  · exact ⟨h, i, rest', (wait_of_spin_proc hI hhh hh).1, hh, hl⟩

theorem exists_cross (hI : Inv s) (hc : Relation.TransGen (Blocks s) h h) :
    ∃ g m i c c', (s.run g).code = .spin .wait :: c ∧ s.lock (.proc i) = some g ∧
      (s.run m).code = .spin (.proc i) :: c' ∧ s.lock .wait = some m := by
  have hwait : ∃ g c, (s.run g).code = .spin .wait :: c ∧ Relation.TransGen (Blocks s) g g := by
    obtain ⟨l, rfl | ⟨j, rfl⟩, c, hspin⟩ := exists_spin hc
    · exact ⟨h, c, hspin, hc⟩
    · obtain ⟨-, g, ⟨c', hg⟩, hgg⟩ := wait_of_spin_proc hI hc hspin
      exact ⟨g, c', hg, hgg⟩
  obtain ⟨g, c, hg, hgg⟩ := hwait
  obtain ⟨m, i, c', hw, hm, hl⟩ := proc_of_spin_wait hI hgg hg
  exact ⟨g, m, i, c, c', hg, hl, hm, hw⟩

/-- The process that `thread_create` makes has no parent and does not run, so
only `exit` asks for its lock under `wait_lock`. -/
theorem overlap_of_cycle (hI : Inv s) (hF : Family s) (hc : Relation.TransGen (Blocks s) h h) : Overlap s := by
  obtain ⟨g, m, i, c, c', hg, hl, hm, hw⟩ := exists_cross hI hc
  obtain ⟨p, pid, hset⟩ := held_spin_wait (hI.shape_run hg) (mem_held_run hI hl hg)
  have hset' : .setParent p .threadCreate i pid ∈ (s.run g).code := hg ▸ mem_cons_of_mem _ hset
  have hparent : (s.slot i).parent = none := (hF.kin _ _ hset').2
  have hused : (s.slot i).state = .used := (hI.good _ _ hset').1
  rcases (held_spin_proc (hI.shape_run hm)).2 (mem_held_run hI hw hm) with ⟨f, hf, hx⟩ | ⟨q, k, ht⟩ | ⟨f, hf, ho⟩
  · exact ⟨m, g, p, i, pid, hw, ⟨f, hm ▸ mem_cons_of_mem _ hf, hx⟩, hset'⟩
  · have ht' : .waitTest q k i ∈ (s.run m).code := hm ▸ mem_cons_of_mem _ ht
    have hq : (s.slot i).parent = some q := hF.kin _ _ ht'
    exact absurd (hparent.symm.trans hq) nofun
  · have hf' : f ∈ (s.run m).code := hm ▸ mem_cons_of_mem _ hf
    have hcur : (s.hart m).cur = .proc i := (hI.of _ f hf').own i ho
    exact absurd ⟨m, hcur⟩ (hI.not_hosted (.inl hused))

end Cycles

section Result

def createWaits : Run (step 2) :=
  Run.ofExec (step 2) boot (toUser ++ Act.ecall 0 .threadCreate :: List.replicate 28 (Act.exec 0)) (by decide +kernel)

/-- The first process forks a child that exits on hart 1. When the child has
`wait_lock`, the first process calls `thread_create`, which takes the lock of
entry 2 and spins for `wait_lock`; the child wakes its parent and on the way
spins for the lock of entry 2. -/
def exitMeetsCreate : Run (step 2) :=
  Run.ofExec (step 2) boot (toUser ++ childToUser ++ childExits ++
    (Act.ecall 0 .threadCreate :: List.replicate 33 (Act.exec 0)) ++ List.replicate 82 (Act.exec 1)) (by decide +kernel)

end Result

end Xv6Rcu.ProcessOrder

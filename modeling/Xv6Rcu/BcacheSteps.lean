import Xv6Rcu.Bcache

namespace Xv6Rcu.Bcache

open Ring Threads Transition Function List

section Lists

variable {l : Links} {bs cs : List Nat} {b : Nat}

theorem unlink_isRing (hr : IsRing l.next l.prev head (bs ++ b :: cs)) :
    IsRing (l.unlink b).next (l.unlink b).prev head (bs ++ cs) := by
  have hprev : update l.prev (l.next b) (l.prev b) b = l.prev b := by
    by_cases h : b = l.next b
    · rw [← h, update_self]
    · rw [update_of_ne h]
  change IsRing (update l.next (update l.prev (l.next b) (l.prev b) b) (l.next b)) _ _ _
  rw [hprev]
  exact hr.unlink

theorem pushFront_isRing (hr : IsRing l.next l.prev head bs) (hb : b ∉ head :: bs) :
    IsRing (l.pushFront b).next (l.pushFront b).prev head (b :: bs) := by
  have hne : head ≠ b := fun (he : head = b) => hb (he ▸ mem_cons_self)
  have hnext : update l.next b (l.next head) head = l.next head := update_of_ne hne _ _
  change IsRing _ (update (update l.prev b head)
    (update l.next b (l.next head) head) b) _ _
  rw [hnext]
  exact hr.push hb

theorem lt_of_perm (hp : bs.Perm (List.range NBUF)) : b ∈ bs ↔ b < NBUF := by
  rw [hp.mem_iff, mem_range]

theorem Links.Full.toFront (hl : l.Full) (hb : b < NBUF) : ((l.unlink b).pushFront b).Full := by
  obtain ⟨bs, hr, hp⟩ := hl
  obtain ⟨cs, ds, rfl⟩ := append_of_mem ((lt_of_perm hp).mpr hb)
  refine ⟨b :: (cs ++ ds), pushFront_isRing (unlink_isRing hr) ?_, perm_middle.symm.trans hp⟩
  have hd : (b :: head :: (cs ++ ds)).Nodup := by
    refine (List.Perm.nodup_iff ?_).mp hr.nodup
    exact (perm_middle.cons head).trans (List.Perm.swap b head _)
  exact (nodup_cons.mp hd).1

theorem foldl_isRing (n : Nat) (hn : n ≤ NBUF) (hl : IsRing l.next l.prev head []) :
    IsRing ((List.range n).foldl Links.pushFront l).next ((List.range n).foldl Links.pushFront l).prev head
      (List.range n).reverse := by
  induction n with
  | zero => exact hl
  | succ n ih =>
    rw [range_succ, foldl_append, reverse_append, reverse_singleton, singleton_append]
    refine pushFront_isRing (ih (Nat.le_of_succ_le hn)) ?_
    rw [mem_cons, mem_reverse, mem_range, not_or]
    exact ⟨Nat.ne_of_lt hn, lt_irrefl n⟩

theorem binit_full : binit.Full :=
  ⟨_, foldl_isRing NBUF le_rfl (isRing_nil rfl rfl), reverse_perm _⟩

end Lists

variable {D : Type} {s t : State D} {a : Act D}

section Searches

variable {i : Nat}

theorem find_lt {q : Nat → Bool} {bs : List Nat} (hp : bs.Perm (List.range NBUF)) :
    (∀ i, bs.find? q = some i → i < NBUF ∧ q i = true) ∧
      (bs.find? q = none → ∀ i < NBUF, q i = false) := by
  constructor
  · intro i hi
    exact ⟨(lt_of_perm hp).mp (mem_of_find?_eq_some hi), find?_some hi⟩
  · intro hn i hi
    have := find?_eq_none.mp hn i ((lt_of_perm hp).mpr hi)
    simpa using this

theorem length_lt {bs : List Nat} (hp : bs.Perm (List.range NBUF)) : bs.length < NBUF + 1 := by
  rw [hp.length_eq, length_range]
  exact Nat.lt_succ_self NBUF

/-- The first loop of `bget` finds a buffer of the block exactly if there is one. -/
theorem cached_spec (dev blockno : Nat) (hl : s.links.Full) :
    (∀ i, cached s dev blockno = some i → i < NBUF ∧ (s.buf i).dev = dev ∧ (s.buf i).blockno = blockno) ∧
      (cached s dev blockno = none → ∀ i < NBUF, ¬ ((s.buf i).dev = dev ∧ (s.buf i).blockno = blockno)) := by
  obtain ⟨bs, hr, hp⟩ := hl
  rw [cached, hr.walk_next (length_lt hp)]
  obtain ⟨hsome, hnone⟩ := find_lt
    (q := fun i => (s.buf i).dev == dev && (s.buf i).blockno == blockno) hp
  constructor
  · intro i hi
    have hfound := hsome i hi
    simpa using hfound
  · intro hn i hi
    have hmiss := hnone hn i hi
    simpa using hmiss

theorem unused_spec (hl : s.links.Full) (hi : unused s = some i) : i < NBUF ∧ (s.buf i).refcnt = 0 := by
  obtain ⟨bs, hr, hp⟩ := hl
  rw [unused, hr.walk_prev (length_lt hp)] at hi
  have hfound := (find_lt (q := fun i => (s.buf i).refcnt == 0) ((reverse_perm bs).trans hp)).1 i hi
  simpa using hfound

end Searches

section Moves

inductive Moves (s : State D) : Act D → State D → Prop where
  | hit {p dev blockno i} : s.pc p = .idle → i < NBUF → (s.buf i).dev = dev → (s.buf i).blockno = blockno →
      Moves s (.bget p dev blockno)
        ((s.setBuf i { s.buf i with refcnt := (s.buf i).refcnt + 1 }).setPc p (.waiting dev blockno i))
  | recycle {p dev blockno i} : s.pc p = .idle → i < NBUF → (s.buf i).refcnt = 0 →
      (∀ j < NBUF, ¬ ((s.buf j).dev = dev ∧ (s.buf j).blockno = blockno)) →
      Moves s (.bget p dev blockno)
        ((s.setBuf i { s.buf i with dev := dev, blockno := blockno, valid := false, refcnt := 1 }).setPc p
          (.waiting dev blockno i))
  | full {p dev blockno} : s.pc p = .idle → Moves s (.bget p dev blockno) (s.setPc p (.stopped .noBuffers))
  | lock {p dev blockno i} : s.pc p = .waiting dev blockno i → (s.buf i).lock = none →
      Moves s (.acquiresleep p)
        ((s.setBuf i { s.buf i with lock := some p }).setPc p (.locked dev blockno i))
  | keep {p dev blockno i} : s.pc p = .locked dev blockno i → (s.buf i).valid = true →
      Moves s (.bread p) (s.setPc p (.holding dev blockno i))
  | read {p dev blockno i} : s.pc p = .locked dev blockno i → (s.buf i).valid = false →
      Moves s (.bread p)
        ((s.setBuf i { s.buf i with data := s.disk (s.buf i).blockno, valid := true }).setPc p
          (.holding dev blockno i))
  | modify {p dev blockno i d} : s.pc p = .holding dev blockno i →
      Moves s (.modify p d)
        { s.setBuf i { s.buf i with data := d } with
          stored := update s.stored (s.buf i).blockno d
          dirty := update s.dirty i true }
  | bwrite {p dev blockno i} : s.pc p = .holding dev blockno i → (s.buf i).lock = some p →
      Moves s (.bwrite p) (bwrite s i)
  | bwritePanic {p dev blockno i} : s.pc p = .holding dev blockno i → (s.buf i).lock ≠ some p →
      Moves s (.bwrite p) (s.setPc p (.stopped .bwrite))
  | bpin {p dev blockno i} : s.pc p = .holding dev blockno i →
      Moves s (.bpin p)
        { s.setBuf i { s.buf i with refcnt := (s.buf i).refcnt + 1 } with
          pins := update s.pins i (s.pins i + 1) }
  | bunpin {p dev blockno i} : s.pc p = .holding dev blockno i →
      Moves s (.bunpin p)
        { s.setBuf i { s.buf i with refcnt := (s.buf i).refcnt - 1 } with
          pins := update s.pins i (s.pins i - 1) }
  | brelse {p dev blockno i} : s.pc p = .holding dev blockno i → (s.buf i).lock = some p →
      Moves s (.brelse p) ((s.setBuf i { s.buf i with lock := none }).setPc p (.releasing i))
  | brelsePanic {p dev blockno i} : s.pc p = .holding dev blockno i → (s.buf i).lock ≠ some p →
      Moves s (.brelse p) (s.setPc p (.stopped .brelse))
  | drop {p i l} : s.pc p = .releasing i → (l = s.links ∨ l = (s.links.unlink i).pushFront i) →
      Moves s (.drop p)
        { (s.setBuf i { s.buf i with refcnt := (s.buf i).refcnt - 1 }).setPc p .idle with links := l }

theorem bget_moves {p dev blockno : Nat} (hl : s.links.Full) (hp : s.pc p = .idle) :
    Moves s (.bget p dev blockno) (bget s p dev blockno) := by
  obtain ⟨hhit, hmiss⟩ := cached_spec dev blockno hl
  unfold bget
  cases hc : cached s dev blockno with
  | some i =>
    obtain ⟨hi, hdev, hb⟩ := hhit i hc
    exact .hit hp hi hdev hb
  | none =>
    cases hu : unused s with
    | some i =>
      obtain ⟨hi, hr⟩ := unused_spec hl hu
      exact .recycle hp hi hr (hmiss hc)
    | none => exact .full hp

theorem drop_moves {p i : Nat} (hp : s.pc p = .releasing i) :
    Moves s (.drop p) ((drop s i).setPc p .idle) := by
  unfold drop
  dsimp only
  split
  · exact .drop hp (.inr rfl)
  · exact .drop hp (.inl rfl)

theorem step_moves (hl : s.links.Full) (h : step s a = some t) : Moves s a t := by
  cases a with
  | bget p dev blockno =>
    dsimp only [step] at h
    split at h
    case h_1 hp => cases h; exact bget_moves hl hp
    case h_2 => cases h
  | acquiresleep p =>
    dsimp only [step] at h
    split at h
    case h_1 dev blockno i hp =>
      split at h
      · rename_i hlock
        cases h
        exact .lock hp hlock
      · cases h
    case h_2 => cases h
  | bread p =>
    dsimp only [step] at h
    split at h
    case h_1 dev blockno i hp =>
      cases h
      unfold bread
      split
      · rename_i hv
        exact .keep hp hv
      · rename_i hv
        exact .read hp (by simpa using hv)
    case h_2 => cases h
  | modify p d =>
    dsimp only [step] at h
    split at h
    case h_1 hp => cases h; exact .modify hp
    case h_2 => cases h
  | bwrite p =>
    dsimp only [step] at h
    split at h
    case h_1 hp =>
      cases h
      split
      · rename_i hlock
        exact .bwrite hp hlock
      · rename_i hlock
        exact .bwritePanic hp hlock
    case h_2 => cases h
  | bpin p =>
    dsimp only [step] at h
    split at h
    case h_1 hp => cases h; exact .bpin hp
    case h_2 => cases h
  | bunpin p =>
    dsimp only [step] at h
    split at h
    case h_1 hp => cases h; exact .bunpin hp
    case h_2 => cases h
  | brelse p =>
    dsimp only [step] at h
    split at h
    case h_1 hp =>
      cases h
      split
      · rename_i hlock
        exact .brelse hp hlock
      · rename_i hlock
        exact .brelsePanic hp hlock
    case h_2 => cases h
  | drop p =>
    dsimp only [step] at h
    split at h
    case h_1 hp => cases h; exact drop_moves hp
    case h_2 => cases h

end Moves

end Xv6Rcu.Bcache

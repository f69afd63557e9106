import Xv6Rcu.Transition

namespace Xv6Rcu.RwLock

open Transition Function

structure ReaderWriterLock where
  readers : BitVec 64
  writer : Bool
  deriving DecidableEq

def rwLockInit : ReaderWriterLock := ⟨0, false⟩

namespace ReaderWriterLock

def addReader (l : ReaderWriterLock) : ReaderWriterLock := { l with readers := l.readers + 1 }

def subReader (l : ReaderWriterLock) : ReaderWriterLock := { l with readers := l.readers - 1 }

/-- The store of the atomic swap in `write_lock`; the old value is read from
the lock before it. -/
def testAndSet (l : ReaderWriterLock) : ReaderWriterLock := { l with writer := true }

def release (l : ReaderWriterLock) : ReaderWriterLock := { l with writer := false }

@[simp] theorem addReader_writer (l : ReaderWriterLock) : l.addReader.writer = l.writer := rfl

@[simp] theorem subReader_writer (l : ReaderWriterLock) : l.subReader.writer = l.writer := rfl

@[simp] theorem testAndSet_readers (l : ReaderWriterLock) : l.testAndSet.readers = l.readers := rfl

@[simp] theorem release_readers (l : ReaderWriterLock) : l.release.readers = l.readers := rfl

theorem testAndSet_of_writer {l : ReaderWriterLock} (h : l.writer = true) : l.testAndSet = l := by
  cases l
  simp_all [testAndSet]

end ReaderWriterLock

/-- Where a thread stands between two atomic steps of `rwlock.c`. A thread at
`reading` or `writing` is between the lock call and the unlock call. -/
inductive Pc where
  | idle
  | readAdd | readCheck | readCancel | readWait | reading
  | writeSet | writeSpin | writeDrain | writing
  deriving DecidableEq

/-- The next atomic step of a thread. The three wait loops poll: a step that
finds the awaited value missing leaves the thread where it is. -/
def advance (l : ReaderWriterLock) : Pc → Option (ReaderWriterLock × Pc)
  | .idle => none
  | .readAdd => some (l.addReader, .readCheck)
  | .readCheck => some (l, if l.writer then .readCancel else .reading)
  | .readCancel => some (l.subReader, .readWait)
  | .readWait => some (l, if l.writer then .readWait else .readAdd)
  | .reading => some (l.subReader, .idle)
  | .writeSet => some (l.testAndSet, if l.writer then .writeSpin else .writeDrain)
  | .writeSpin => some (l, if l.writer then .writeSpin else .writeSet)
  | .writeDrain => some (l, if l.readers = 0 then .writing else .writeDrain)
  | .writing => some (l.release, .idle)

structure State (n : Nat) where
  lock : ReaderWriterLock
  pc : Fin n → Pc

inductive Act (n : Nat) where
  | readLock (t : Fin n)
  | writeLock (t : Fin n)
  | run (t : Fin n)

def step {n : Nat} : Step (State n) (Act n)
  | s, .readLock t => if s.pc t = .idle then some ⟨s.lock, update s.pc t .readAdd⟩ else none
  | s, .writeLock t => if s.pc t = .idle then some ⟨s.lock, update s.pc t .writeSet⟩ else none
  | s, .run t => (advance s.lock (s.pc t)).map (fun q => ⟨q.1, update s.pc t q.2⟩)

def initial (n : Nat) : State n := ⟨rwLockInit, fun _ => .idle⟩

variable {n : Nat}

/-- The thread has incremented `readers` and not yet decremented it. -/
def Pc.counted : Pc → Bool
  | .readCheck | .readCancel | .reading => true
  | _ => false

/-- The thread has set `writer` and not yet released it. -/
def Pc.owner : Pc → Bool
  | .writeDrain | .writing => true
  | _ => false

def countedThreads (pc : Fin n → Pc) : Finset (Fin n) :=
  Finset.univ.filter (fun t => (pc t).counted = true)

theorem mem_countedThreads {pc : Fin n → Pc} {t : Fin n} :
    t ∈ countedThreads pc ↔ (pc t).counted = true := by
  simp [countedThreads]

theorem countedThreads_update (pc : Fin n → Pc) (t : Fin n) (q : Pc) :
    countedThreads (update pc t q) =
      if q.counted then insert t (countedThreads pc) else (countedThreads pc).erase t := by
  ext u
  by_cases hu : u = t
  · subst u
    by_cases hq : q.counted <;> simp [countedThreads, hq]
  · by_cases hq : q.counted <;> simp [countedThreads, hq, hu]

theorem card_le (pc : Fin n → Pc) : (countedThreads pc).card ≤ n := by
  simpa using Finset.card_le_univ (countedThreads pc)

theorem card_add (pc : Fin n → Pc) (t : Fin n) (q : Pc) (ht : (pc t).counted = false)
    (hq : q.counted = true) :
    (countedThreads (update pc t q)).card = (countedThreads pc).card + 1 := by
  rw [countedThreads_update, if_pos hq]
  exact Finset.card_insert_of_notMem (by simp [mem_countedThreads, ht])

theorem card_sub (pc : Fin n → Pc) (t : Fin n) (q : Pc) (ht : (pc t).counted = true)
    (hq : q.counted = false) :
    (countedThreads (update pc t q)).card + 1 = (countedThreads pc).card := by
  rw [countedThreads_update, if_neg (by simp [hq])]
  exact Finset.card_erase_add_one (by simp [mem_countedThreads, ht])

theorem card_same (pc : Fin n → Pc) (t : Fin n) (q : Pc) (h : (pc t).counted = q.counted) :
    (countedThreads (update pc t q)).card = (countedThreads pc).card := by
  congr 1
  ext u
  by_cases hu : u = t
  · subst u; simp [countedThreads, h]
  · simp [countedThreads, hu]

/-- What every reachable state of the protocol satisfies. The last field is
the exclusion itself; it is kept because the two sides close it from opposite
ends: a writer waits until no thread is counted, and a reader that finds
`writer` clear finds no owner. -/
structure Inv (s : State n) : Prop where
  count : s.lock.readers = BitVec.ofNat 64 (countedThreads s.pc).card
  flag : s.lock.writer = true ↔ ∃ t, (s.pc t).owner = true
  unique : ∀ t u, (s.pc t).owner = true → (s.pc u).owner = true → t = u
  exclusive : ∀ t u, s.pc t = .writing → s.pc u ≠ .reading

theorem inv_initial : Inv (initial n) := by
  refine ⟨?_, ?_, ?_, ?_⟩ <;> simp [initial, rwLockInit, countedThreads, Pc.counted, Pc.owner]

theorem owner_update {pc : Fin n → Pc} {t : Fin n} {q : Pc} (h : (pc t).owner = q.owner) (u : Fin n) :
    (update pc t q u).owner = (pc u).owner := by
  by_cases hu : u = t
  · subst u; simp [h]
  · simp [hu]

/-- Exclusion survives the move of one thread if that thread does not end up
inside a section while another stands in a conflicting one. -/
theorem exclusive_update {pc : Fin n → Pc} {t : Fin n} {q : Pc}
    (h : ∀ t u, pc t = .writing → pc u ≠ .reading)
    (hr : q = .reading → ∀ u, pc u ≠ .writing) (hw : q = .writing → ∀ u, pc u ≠ .reading)
    (u v : Fin n) (hu : update pc t q u = .writing) : update pc t q v ≠ .reading := by
  intro hv
  by_cases hut : u = t <;> by_cases hvt : v = t
  · subst u; subst v
    rw [hu] at hv
    cases hv
  · subst u
    rw [update_self] at hu
    rw [update_of_ne hvt] at hv
    exact hw hu v hv
  · subst v
    rw [update_self] at hv
    rw [update_of_ne hut] at hu
    exact hr hv u hu
  · rw [update_of_ne hut] at hu
    rw [update_of_ne hvt] at hv
    exact h u v hu hv

theorem Inv.move {s : State n} (h : Inv s) (t : Fin n) (q : Pc)
    (hc : (s.pc t).counted = q.counted) (ho : (s.pc t).owner = q.owner)
    (hr : q = .reading → ∀ u, s.pc u ≠ .writing) (hw : q = .writing → ∀ u, s.pc u ≠ .reading) :
    Inv ⟨s.lock, update s.pc t q⟩ where
  count := by simpa only [card_same s.pc t q hc] using h.count
  flag := by simpa only [owner_update ho] using h.flag
  unique := by simpa only [owner_update ho] using h.unique
  exclusive := exclusive_update h.exclusive hr hw

theorem Inv.addReader {s : State n} (h : Inv s) (t : Fin n) (ht : s.pc t = .readAdd) :
    Inv ⟨s.lock.addReader, update s.pc t .readCheck⟩ where
  count := by
    rw [card_add s.pc t .readCheck (by rw [ht]; rfl) rfl, BitVec.ofNat_add, ← h.count]
    rfl
  flag := by
    have ho : (s.pc t).owner = Pc.readCheck.owner := by rw [ht]; rfl
    simpa only [owner_update ho, ReaderWriterLock.addReader_writer] using h.flag
  unique := by
    have ho : (s.pc t).owner = Pc.readCheck.owner := by rw [ht]; rfl
    simpa only [owner_update ho] using h.unique
  exclusive := exclusive_update h.exclusive (fun e => by cases e) (fun e => by cases e)

/-- Both decrements of `readers`: the cancelling one in `read_lock` and the
one in `read_unlock`. -/
theorem Inv.subReader {s : State n} (h : Inv s) (t : Fin n) (q : Pc)
    (ht : (s.pc t).counted = true) (hq : q = .readWait ∨ q = .idle) :
    Inv ⟨s.lock.subReader, update s.pc t q⟩ := by
  have hqc : q.counted = false := by obtain rfl | rfl := hq <;> rfl
  have ho : (s.pc t).owner = q.owner := by
    cases hp : s.pc t <;> simp_all [Pc.counted] <;> obtain rfl | rfl := hq <;> rfl
  refine ⟨?_, ?_, ?_, ?_⟩
  · have hcard := card_sub s.pc t q ht hqc
    have hcount := h.count
    rw [← hcard, BitVec.ofNat_add] at hcount
    change s.lock.readers - 1 = _
    rw [hcount]
    exact BitVec.add_sub_cancel _ _
  · simpa only [owner_update ho, ReaderWriterLock.subReader_writer] using h.flag
  · simpa only [owner_update ho] using h.unique
  · apply exclusive_update h.exclusive <;> intro e <;> obtain rfl | rfl := hq <;> cases e

/-- The winning test-and-set: no thread owned the flag, so the winner is the
only owner. -/
theorem Inv.take {s : State n} (h : Inv s) (t : Fin n) (ht : s.pc t = .writeSet)
    (hw : s.lock.writer = false) :
    Inv ⟨s.lock.testAndSet, update s.pc t .writeDrain⟩ := by
  have hnone : ∀ u, (s.pc u).owner = false := by
    intro u
    by_contra hu
    have := h.flag.mpr ⟨u, by simpa using hu⟩
    simp [hw] at this
  have hown : ∀ u, (update s.pc t .writeDrain u).owner = true → u = t := by
    intro u hu
    by_contra hne
    rw [update_of_ne hne, hnone u] at hu
    cases hu
  refine ⟨?_, ?_, ?_, ?_⟩
  · simpa only [card_same s.pc t .writeDrain (by rw [ht]; rfl),
      ReaderWriterLock.testAndSet_readers] using h.count
  · exact ⟨fun _ => ⟨t, by simp [Pc.owner]⟩, fun _ => rfl⟩
  · exact fun u v hu hv => (hown u hu).trans (hown v hv).symm
  · exact exclusive_update h.exclusive (fun e => by cases e) (fun e => by cases e)

theorem Inv.release {s : State n} (h : Inv s) (t : Fin n) (ht : s.pc t = .writing) :
    Inv ⟨s.lock.release, update s.pc t .idle⟩ := by
  have hown : (s.pc t).owner = true := by rw [ht]; rfl
  have hnone : ∀ u, (update s.pc t .idle u).owner = false := by
    intro u
    by_cases hu : u = t
    · subst u; simp [Pc.owner]
    · rw [update_of_ne hu]
      by_contra ho
      exact hu (h.unique u t (by simpa using ho) hown)
  refine ⟨?_, ?_, ?_, ?_⟩
  · simpa only [card_same s.pc t .idle (by rw [ht]; rfl),
      ReaderWriterLock.release_readers] using h.count
  · simp [hnone, ReaderWriterLock.release]
  · simp [hnone]
  · exact exclusive_update h.exclusive (fun e => by cases e) (fun e => by cases e)

/-- A drained count leaves no reader inside; this is where the number of
threads must not exceed what the counter can hold. -/
theorem Inv.drained {s : State n} (h : Inv s) (hn : n < 2 ^ 64) (hz : s.lock.readers = 0)
    (u : Fin n) : s.pc u ≠ .reading := by
  intro hu
  have hcount := congrArg BitVec.toNat (h.count.symm.trans hz)
  have hle := card_le s.pc
  rw [BitVec.toNat_ofNat, Nat.mod_eq_of_lt (lt_of_le_of_lt hle hn)] at hcount
  have hmem : u ∈ countedThreads s.pc := mem_countedThreads.mpr (by rw [hu]; rfl)
  rw [Finset.card_eq_zero.mp hcount] at hmem
  exact absurd hmem (Finset.notMem_empty u)

theorem inv_advance (hn : n < 2 ^ 64) {s : State n} (h : Inv s) (t : Fin n)
    {q : ReaderWriterLock × Pc} (hq : advance s.lock (s.pc t) = some q) :
    Inv ⟨q.1, update s.pc t q.2⟩ := by
  cases hp : s.pc t <;> simp only [hp, advance, Option.some.injEq, reduceCtorEq] at hq <;> subst q
  case readAdd => exact h.addReader t hp
  case readCheck =>
    by_cases hw : s.lock.writer = true
    · simpa only [hw, if_true] using h.move t .readCancel (by rw [hp]; rfl) (by rw [hp]; rfl)
        (fun e => by cases e) (fun e => by cases e)
    · have hf : s.lock.writer = false := by simpa using hw
      have hno : ∀ u, s.pc u ≠ .writing := fun u hu =>
        hw (h.flag.mpr ⟨u, by rw [hu]; rfl⟩)
      simpa only [hf, Bool.false_eq_true, if_false] using h.move t .reading (by rw [hp]; rfl)
        (by rw [hp]; rfl) (fun _ => hno) (fun e => by cases e)
  case readCancel => exact h.subReader t .readWait (by rw [hp]; rfl) (Or.inl rfl)
  case readWait =>
    split
    · exact h.move t .readWait (by rw [hp]) (by rw [hp]) (fun e => by cases e) (fun e => by cases e)
    · exact h.move t .readAdd (by rw [hp]; rfl) (by rw [hp]; rfl) (fun e => by cases e)
        (fun e => by cases e)
  case reading => exact h.subReader t .idle (by rw [hp]; rfl) (Or.inr rfl)
  case writeSet =>
    by_cases hw : s.lock.writer = true
    · have hl := ReaderWriterLock.testAndSet_of_writer hw
      simpa only [hl, hw, if_true] using h.move t .writeSpin (by rw [hp]; rfl) (by rw [hp]; rfl)
        (fun e => by cases e) (fun e => by cases e)
    · have hf : s.lock.writer = false := by simpa using hw
      simpa only [hf, Bool.false_eq_true, if_false] using h.take t hp hf
  case writeSpin =>
    split
    · exact h.move t .writeSpin (by rw [hp]) (by rw [hp]) (fun e => by cases e) (fun e => by cases e)
    · exact h.move t .writeSet (by rw [hp]; rfl) (by rw [hp]; rfl) (fun e => by cases e)
        (fun e => by cases e)
  case writeDrain =>
    split
    · rename_i hz
      exact h.move t .writing (by rw [hp]; rfl) (by rw [hp]; rfl) (fun e => by cases e)
        (fun _ => h.drained hn hz)
    · exact h.move t .writeDrain (by rw [hp]) (by rw [hp]) (fun e => by cases e)
        (fun e => by cases e)
  case writing => exact h.release t hp

theorem inv_step (hn : n < 2 ^ 64) {s s' : State n} {a : Act n} (h : Inv s)
    (hs : step s a = some s') : Inv s' := by
  cases a with
  | readLock t | writeLock t =>
    simp only [step] at hs
    split at hs
    · rename_i hp
      cases hs
      exact h.move t _ (by rw [hp]; rfl) (by rw [hp]; rfl) (fun e => by cases e) (fun e => by cases e)
    · cases hs
  | run t =>
    obtain ⟨q, hq, rfl⟩ := Option.map_eq_some_iff.mp hs
    exact inv_advance hn h t hq

/-- In no reachable state of any interleaving is a writer inside together with
another writer or a reader. The counter is exact, so no decrement underflows.
A thread is a slot of the process table, far below the range of the counter. -/
theorem readerWriter_exclusion (hn : n < 2 ^ 64) (r : Run (step (n := n)))
    (h0 : r.state 0 = initial n) (i : Nat) (hi : i ≤ r.length) :
    (∀ t u, (r.state i).pc t = .writing → (r.state i).pc u = .writing → t = u) ∧
      (∀ t u, (r.state i).pc t = .writing → (r.state i).pc u ≠ .reading) ∧
      (r.state i).lock.readers.toNat = (countedThreads (r.state i).pc).card ∧
      (∀ t, ((r.state i).pc t).counted = true → 0 < (r.state i).lock.readers.toNat) := by
  have h : Inv (r.state i) := r.invariant r.meets_true (h0 ▸ inv_initial)
    (fun _ _ _ hs _ ht => inv_step hn hs ht) i hi
  have hcount : (r.state i).lock.readers.toNat = (countedThreads (r.state i).pc).card := by
    rw [h.count, BitVec.toNat_ofNat]
    exact Nat.mod_eq_of_lt (lt_of_le_of_lt (card_le _) hn)
  refine ⟨?_, h.exclusive, hcount, ?_⟩
  · exact fun t u ht hu => h.unique t u (by rw [ht]; rfl) (by rw [hu]; rfl)
  · intro t ht
    rw [hcount]
    exact Finset.card_pos.mpr ⟨t, mem_countedThreads.mpr ht⟩

instance : Inhabited (Act 2) := ⟨.run 0⟩

/-- A reader inside and a writer that has set the flag and drains. -/
def drainSchedule : List (Act 2) := [.readLock 0, .run 0, .run 0, .writeLock 1, .run 1, .run 1]

theorem readerWriter_exclusion_drain :
    (stateAt step (initial 2) drainSchedule 6).pc 0 = .reading ∧
      (stateAt step (initial 2) drainSchedule 6).pc 1 ≠ .writing :=
  ⟨rfl, fun h => (readerWriter_exclusion (by decide)
    (Run.ofExec step (initial 2) drainSchedule rfl) rfl 6 (by decide)).2.1 1 0 h rfl⟩

end Xv6Rcu.RwLock

import Xv6Rcu.LockList
import Xv6Rcu.Threads

namespace Xv6Rcu.LockInsert

open Transition Links Threads LockList Function List Option
open RwLock (ReaderWriterLock rwLockInit)

variable {n : Nat}

def insertedValue : Act n → Option Int
  | .call _ (.insertLock x) => some x
  | _ => none

def insertedValues (as : List (Act n)) : Multiset Int := ↑(as.filterMap insertedValue)

def InsertOnly : Act n → Prop
  | .call _ c => ∃ x, c = .insertLock x
  | _ => True

instance : DecidablePred (InsertOnly (n := n))
  | .call _ (.insertLock x) => isTrue ⟨x, rfl⟩
  | .call _ (.deleteNodeLock _) => isFalse (fun h => by cases h with | intro _ h => cases h)
  | .call _ (.searchLock _) => isFalse (fun h => by cases h with | intro _ h => cases h)
  | .kalloc _ _ => isTrue trivial
  | .run _ => isTrue trivial

/-- The list holds the node of `init_list_lock` and every inserted value as
often as it was inserted, and none of its locks is held. -/
def HoldsInserted (s : State n) (xs : Multiset Int) : Prop :=
  ∃ l, Chain s.mem.next s.mem.head l ∧ (↑(l.map s.mem.data) : Multiset Int) = 0 ::ₘ xs ∧
    ∀ a ∈ l, (s.mem.lock a).writer = false

/-- What the two late reads of `head_ref` must find: the lock taken is still
the lock of the head, and the head is still the caller's node when the lock
to release is looked up through it. -/
def HeadKept (s : State n) : Act n → Prop
  | .run t =>
    match s.pc t with
    | .insWrite .writeSet _ lk => (s.mem.lock lk).writer = false → s.mem.head = some lk
    | .insReload new => s.mem.head = some new
    | _ => True
  | _ => True

instance (s : State n) (a : Act n) : Decidable (HeadKept s a) := by
  unfold HeadKept
  split
  · split <;> infer_instance
  · infer_instance

def pending (m : Mem) : Pc → Multiset Int
  | .insAlloc x => {x}
  | .insLock new | .insWrite _ new _ | .insLink new | .insPublish new => {m.data new}
  | _ => 0

def held (m : Mem) : Pc → Option Addr
  | .insWrite q _ lk => if q = .writeDrain then some lk else none
  | .insLink _ => m.head
  | .insPublish new | .insReload new => m.next new
  | .insNext h => m.next h
  | .insUnlock lk => some lk
  | _ => none

/-- Where an `insert_lock` call can stand relative to the list `l`. -/
def Stands (m : Mem) (l : List Addr) : Pc → Prop
  | .idle _ | .insAlloc _ => True
  | .insLock new | .insLink new => new ∉ l ∧ m.alloc new = true
  | .insWrite q new lk => new ∉ l ∧ m.alloc new = true ∧ Writes q ∧
      (q = .writeDrain → m.head = some lk)
  | .insPublish new => new ∉ l ∧ m.alloc new = true ∧ m.next new = m.head
  | .insReload new => new ∈ l ∧ m.next new ≠ none
  | .insNext h => h ∈ l ∧ m.next h ≠ none
  | .insUnlock lk => lk ∈ l
  | _ => False

structure Inv (total : Multiset Int) (m : Mem) (pc : Fin n → Pc) (l : List Addr) : Prop where
  chain : Chain m.next m.head l
  nonempty : l ≠ []
  allocated : ∀ a ∈ l, m.alloc a = true
  stands : ∀ t, Stands m l (pc t)
  distinct : Distinct fresh pc
  locks : Exclusive (fun a => (m.lock a).writer) (fun t a => held m (pc t) = some a)
  readers : ∀ a, (m.lock a).readers = 0
  values : (↑(l.map m.data) : Multiset Int) + ∑ t, pending m (pc t) = total

variable {total : Multiset Int} {m : Mem} {pc : Fin n → Pc} {l : List Addr} {t : Fin n}

theorem inv_initial (a : Addr) :
    Inv {0} (initListLock a) (fun _ : Fin n => .idle none) [a] where
  chain := Chain.cons Chain.nil
  nonempty := by simp
  allocated := by simp [initListLock]
  stands := fun _ => trivial
  distinct := by simp [Distinct, fresh]
  locks := ⟨by simp [initListLock, rwLockInit, held], by simp [held]⟩
  readers := fun _ => rfl
  values := by simp [initListLock, pending]

theorem Inv.head (h : Inv total m pc l) : ∃ a k, l = a :: k ∧ m.head = some a := by
  cases l with
  | nil => exact absurd rfl h.nonempty
  | cons a k => exact ⟨a, k, rfl, h.chain.head⟩

theorem stands_withLock (m : Mem) (lock : Addr → ReaderWriterLock) (l : List Addr) (p : Pc) :
    Stands (m.withLock lock) l p = Stands m l p := by
  cases p <;> rfl

theorem held_withLock (m : Mem) (lock : Addr → ReaderWriterLock) (p : Pc) :
    held (m.withLock lock) p = held m p := by
  cases p <;> rfl

theorem pending_withLock (m : Mem) (lock : Addr → ReaderWriterLock) (p : Pc) :
    pending (m.withLock lock) p = pending m p := by
  cases p <;> rfl

theorem pending_setNext (m : Mem) (a : Addr) (v : Option Addr) (p : Pc) :
    pending (m.setNext a v) p = pending m p := by
  cases p <;> rfl

theorem pending_setHead (m : Mem) (v : Option Addr) (p : Pc) :
    pending (m.setHead v) p = pending m p := by
  cases p <;> rfl

section

variable (h : Inv total m pc l)

include h

/-- A step that changes at most one lock and the place of one thread, and
publishes nothing. -/
theorem Inv.move {p q : Pc} (hp : pc t = p) (lock : Addr → ReaderWriterLock)
    (hstands : Stands m l q) (hfresh : fresh q = fresh p) (hpend : pending m q = pending m p)
    (hreaders : ∀ a, (lock a).readers = 0)
    (hlocks : Exclusive (fun a => (lock a).writer)
      (fun u a => held m (update pc t q u) = some a)) :
    Inv total (m.withLock lock) (update pc t q) l where
  chain := h.chain
  nonempty := h.nonempty
  allocated := h.allocated
  stands := by
    simp only [stands_withLock]
    exact forall_update hstands (fun u _ => h.stands u)
  distinct := h.distinct.same hp hfresh
  locks := by
    simp only [held_withLock]
    exact hlocks
  readers := hreaders
  values := by
    simp only [pending_withLock, same_update hp hpend]
    exact h.values

theorem Inv.stay {p q : Pc} (hp : pc t = p) (hstands : Stands m l q)
    (hfresh : fresh q = fresh p) (hpend : pending m q = pending m p) (hheld : held m q = held m p) :
    Inv total m (update pc t q) l := by
  refine h.move hp m.lock hstands hfresh hpend h.readers ?_
  simpa only [same_update hp hheld] using h.locks

theorem Inv.held_mem {a : Addr} (ha : held m (pc t) = some a) : a ∈ l := by
  obtain ⟨b, k, rfl, hb⟩ := h.head
  have hs := h.stands t
  have hnext : ∀ {c}, c ∈ b :: k → m.next c = some a → a ∈ b :: k := by
    intro c hc hn
    exact h.chain.mem_iff.mpr ((h.chain.mem_iff.mp hc).succ hn)
  cases hp : pc t <;> rw [hp] at ha hs <;> simp only [held, Stands, reduceCtorEq] at ha hs
  case insWrite q new lk =>
    split at ha
    · rename_i hq
      have hh := hs.2.2.2 hq
      simp_all
    · cases ha
  case insLink new => simp_all
  case insPublish new => simp_all
  case insReload new => exact hnext hs.1 ha
  case insNext c => exact hnext hs.1 ha
  case insUnlock lk => simp_all

/-- No two threads hold the same lock, so beside the thread about to publish
no other stands between taking the head's lock and publishing. -/
theorem Inv.not_held_head (ht : held m (pc t) = m.head) {u : Fin n}
    (hu : u ≠ t) : held m (pc u) ≠ m.head := by
  intro he
  obtain ⟨a, k, -, ha⟩ := h.head
  rw [ha] at ht he
  exact hu (h.locks.unique u t a he ht)

theorem Inv.take {new lk : Addr} (hp : pc t = .insWrite .writeSet new lk)
    (hw : (m.lock lk).writer = false) (hhead : m.head = some lk) :
    Inv total (m.setLock lk (m.lock lk).testAndSet)
      (update pc t (.insWrite .writeDrain new lk)) l := by
  have hs := h.stands t
  rw [hp] at hs
  refine h.move hp _ ⟨hs.1, hs.2.1, .inr (.inr rfl), fun _ => hhead⟩ rfl rfl ?_ ?_
  · intro a
    by_cases ha : a = lk
    · subst a; simpa using h.readers lk
    · simpa [ha] using h.readers a
  · refine h.locks.take (t := t) (a := lk) hw ?_ ?_
    · funext a
      by_cases ha : a = lk
      · subst a; simp [ReaderWriterLock.testAndSet]
      · simp [ha]
    · intro u b
      by_cases hu : u = t
      · subst u
        simp [hp, held, eq_comm]
      · simp [hu]

theorem Inv.drop {lk : Addr} (hp : pc t = .insUnlock lk) :
    Inv total (m.writeUnlock lk) (update pc t (.idle none)) l := by
  refine h.move hp _ trivial rfl rfl ?_ ?_
  · intro a
    by_cases ha : a = lk
    · subst a; simpa using h.readers lk
    · simpa [ha] using h.readers a
  · refine h.locks.drop (t := t) (a := lk) (by simp [hp, held]) ?_ ?_
    · funext a
      by_cases ha : a = lk
      · subst a; simp [ReaderWriterLock.release]
      · simp [ha]
    · intro u b
      by_cases hu : u = t
      · subst u
        simp [hp, held, eq_comm]
      · simp [hu]

theorem Inv.fresh_ne {new : Addr} (hp : fresh (pc t) = some new)
    {u : Fin n} (hu : u ≠ t) {a : Addr} (ha : fresh (pc u) = some a) : a ≠ new := by
  rintro rfl
  exact hu (h.distinct u t a ha hp)

theorem Inv.link {new : Addr} (hp : pc t = .insLink new) :
    Inv total (m.setNext new m.head) (update pc t (.insPublish new)) l := by
  have hs := h.stands t
  rw [hp] at hs
  have hmem : ∀ a ∈ l, a ≠ new := fun a ha he => hs.1 (he ▸ ha)
  have hne : ∀ u, u ≠ t → ∀ a, fresh (pc u) = some a → a ≠ new := fun u hu a ha =>
    h.fresh_ne (by rw [hp]; rfl) hu ha
  refine ⟨h.chain.update_of_notMem hs.1 _, h.nonempty, h.allocated, ?_,
    h.distinct.same hp rfl, ?_, h.readers, ?_⟩
  · apply forall_update
    · exact ⟨hs.1, hs.2, by simp [Mem.setNext]⟩
    · intro u hu
      have hus := h.stands u
      have huf := hne u hu
      cases hq : pc u <;> rw [hq] at hus huf <;> try exact hus
      case insPublish a => exact ⟨hus.1, hus.2.1, by simpa [Mem.setNext, huf a rfl] using hus.2.2⟩
      case insReload a => exact ⟨hus.1, by simpa [Mem.setNext, hmem a hus.1] using hus.2⟩
      case insNext a => exact ⟨hus.1, by simpa [Mem.setNext, hmem a hus.1] using hus.2⟩
  · refine h.locks.congr (fun _ => rfl) (fun u b => ?_)
    by_cases hu : u = t
    · subst u
      simp [hp, held, Mem.setNext]
    · rw [update_of_ne hu]
      have hus := h.stands u
      have huf := hne u hu
      cases hq : pc u <;> rw [hq] at hus huf <;> try rfl
      case insPublish a => simp [held, Mem.setNext, huf a rfl]
      case insReload a => simp [held, Mem.setNext, hmem a hus.1]
      case insNext a => simp [held, Mem.setNext, hmem a hus.1]
  · have hq : pending m (.insPublish new) = pending m (.insLink new) := rfl
    simp only [pending_setNext, same_update hp hq]
    exact h.values

/-- Publishing puts the new node before the list. No other thread stands
between the lock of the old head and its own publication. -/
theorem Inv.publish {new : Addr} (hp : pc t = .insPublish new) :
    Inv total (m.setHead (some new)) (update pc t (.insReload new)) (new :: l) := by
  have hs := h.stands t
  rw [hp] at hs
  obtain ⟨hnew, hal, hnext⟩ := hs
  obtain ⟨a, k, hl, ha⟩ := h.head
  have hother : ∀ u, u ≠ t → held m (pc u) ≠ m.head := fun u hu =>
    h.not_held_head (t := t) (by rw [hp]; exact hnext) hu
  refine ⟨?_, by simp, ?_, ?_, h.distinct.update (by simp [fresh]), ?_, h.readers, ?_⟩
  · exact Chain.cons (show Chain m.next (m.next new) l by rw [hnext]; exact h.chain)
  · intro b hb
    obtain rfl | hb := mem_cons.mp hb
    · exact hal
    · exact h.allocated b hb
  · apply forall_update
    · exact ⟨by simp, by simp [Mem.setHead, hnext, ha]⟩
    · intro u hu
      have hus := h.stands u
      have huf : ∀ b, fresh (pc u) = some b → b ≠ new := fun b hb =>
        h.fresh_ne (by rw [hp]; rfl) hu hb
      have huh := hother u hu
      cases hq : pc u <;> rw [hq] at hus huf huh <;>
        simp only [Stands, held, fresh, Mem.setHead, mem_cons, not_or, ne_eq,
          not_true_eq_false] at hus huf huh ⊢
      case insLock b => exact ⟨⟨huf b rfl, hus.1⟩, hus.2⟩
      case insWrite q b lk =>
        obtain ⟨h1, h2, h3, h4⟩ := hus
        refine ⟨⟨huf b rfl, h1⟩, h2, h3, ?_⟩
        rintro rfl
        exact absurd (h4 rfl).symm huh
      case insPublish b => exact absurd hus.2.2 huh
      case insReload b => exact ⟨.inr hus.1, hus.2⟩
      case insNext b => exact ⟨.inr hus.1, hus.2⟩
      case insUnlock b => exact .inr hus
  · refine h.locks.congr (fun _ => rfl) (fun u b => ?_)
    by_cases hu : u = t
    · subst u
      simp [hp, held, Mem.setHead]
    · rw [update_of_ne hu]
      have huh := hother u hu
      cases hq : pc u <;> rw [hq] at huh <;> try rfl
      case insLink c => exact absurd rfl huh
  · simp only [pending_setHead]
    rw [← h.values, ← sum_settle hp (show pending m (.insReload new) = 0 from rfl), map_cons,
      ← Multiset.cons_coe, ← Multiset.singleton_add]
    exact congrArg (· + _) (add_comm _ _)

theorem Inv.call (x : Int) (hp : (pc t).isIdle = true) :
    Inv (total + {x}) m (update pc t (.insAlloc x)) l := by
  obtain ⟨res, hp⟩ : ∃ res, pc t = .idle res := by
    cases hq : pc t <;> simp_all [Pc.isIdle]
  have hheld : held m (.insAlloc x) = held m (.idle res) := rfl
  refine ⟨h.chain, h.nonempty, h.allocated, forall_update trivial (fun u _ => h.stands u),
    h.distinct.same hp rfl, ?_, h.readers, ?_⟩
  · simpa only [same_update hp hheld] using h.locks
  · rw [sum_begin hp (show pending m (.idle res) = 0 from rfl), ← add_assoc, h.values]
    rfl

end

theorem alloc_of_fresh {p : Pc} {a : Addr} (hs : Stands m l p) (ha : fresh p = some a) :
    m.alloc a = true := by
  cases p with
  | insLock new =>
    cases ha
    exact hs.2
  | insWrite q new lk =>
    cases ha
    exact hs.2.1
  | insLink new =>
    cases ha
    exact hs.2
  | insPublish new =>
    cases ha
    exact hs.2.1
  | _ => contradiction

theorem pending_newNode {p : Pc} {a : Addr} (x : Int) (hp : fresh p ≠ some a) :
    pending (m.newNode a x) p = pending m p := by
  have hdata : ∀ new, some new ≠ some a → (m.newNode a x).data new = m.data new := by
    intro new hnew
    exact update_of_ne (fun he => hnew (congrArg some he)) _ _
  cases p with
  | insLock new => exact congrArg (fun v => ({v} : Multiset Int)) (hdata new hp)
  | insWrite q new lk => exact congrArg (fun v => ({v} : Multiset Int)) (hdata new hp)
  | insLink new => exact congrArg (fun v => ({v} : Multiset Int)) (hdata new hp)
  | insPublish new => exact congrArg (fun v => ({v} : Multiset Int)) (hdata new hp)
  | _ => rfl

theorem Inv.kalloc (h : Inv total m pc l) {x : Int} {a : Addr} (hp : pc t = .insAlloc x)
    (ha : m.alloc a = false) :
    Inv total (m.newNode a x) (update pc t (.insLock a)) l := by
  have hal : a ∉ l := by
    intro hm
    rw [h.allocated a hm] at ha
    cases ha
  have hne : ∀ u b, fresh (pc u) = some b → b ≠ a := by
    rintro u b hb rfl
    exact absurd ((alloc_of_fresh (h.stands u) hb).symm.trans ha) nofun
  have halloc : ∀ b, m.alloc b = true → (m.newNode a x).alloc b = true := by
    intro b hb
    by_cases hba : b = a
    · subst b; simp [Mem.newNode]
    · simpa [Mem.newNode, hba] using hb
  have hw : (m.lock a).writer = false := by
    by_contra hw
    obtain ⟨u, hu⟩ := (h.locks.flag_iff a).mp (by simpa using hw)
    exact hal (h.held_mem hu)
  have hdistinct : Distinct fresh (update pc t (.insLock a)) := by
    apply h.distinct.update
    intro u _ b hb he
    exact hne u b hb (some.inj he).symm
  refine ⟨h.chain, h.nonempty, fun b hb => halloc b (h.allocated b hb), ?_, hdistinct, ?_, ?_, ?_⟩
  · apply forall_update
    · exact ⟨hal, by simp [Mem.newNode]⟩
    · intro u _
      have hus := h.stands u
      cases hq : pc u <;> rw [hq] at hus <;> try exact hus
      case insLock b => exact ⟨hus.1, halloc b hus.2⟩
      case insWrite q b lk => exact ⟨hus.1, halloc b hus.2.1, hus.2.2⟩
      case insLink b => exact ⟨hus.1, halloc b hus.2⟩
      case insPublish b => exact ⟨hus.1, halloc b hus.2.1, hus.2.2⟩
  · refine h.locks.congr (fun b => ?_) (fun u b => ?_)
    · by_cases hb : b = a
      · subst b; simp [Mem.newNode, rwLockInit, hw]
      · simp [Mem.newNode, hb]
    · have hheld : held m (.insLock a) = held m (.insAlloc x) := rfl
      rw [← same_update hp hheld u]
      cases update pc t (.insLock a) u <;> rfl
  · intro b
    by_cases hb : b = a
    · subst b; simp [Mem.newNode, rwLockInit]
    · simpa [Mem.newNode, hb] using h.readers b
  · have hdata : l.map (m.newNode a x).data = l.map m.data := by
      apply map_congr_left
      intro b hb
      have hba : b ≠ a := fun he => hal (he ▸ hb)
      simp [Mem.newNode, hba]
    have hpend : ∀ u, pending (m.newNode a x) (update pc t (.insLock a) u) =
        pending m (pc u) := by
      intro u
      by_cases hu : u = t
      · subst u
        simp [hp, pending, Mem.newNode]
      · rw [update_of_ne hu]
        exact pending_newNode x (fun hf => hne u a hf rfl)
    simpa only [hdata, hpend] using h.values

/-- The steps inside `write_lock`. Only the winning test-and-set uses that the
lock belongs to the head. -/
theorem Inv.write (h : Inv total m pc l) {q : RwLock.Pc} {new lk : Addr}
    (hp : pc t = .insWrite q new lk)
    (hkept : q = .writeSet → (m.lock lk).writer = false → m.head = some lk) {r : Mem × Pc}
    (hr : lockStep m lk q (fun q => .insWrite q new lk) (.insLink new) = some r) :
    Inv total r.1 (update pc t r.2) l := by
  have hs := h.stands t
  rw [hp] at hs
  obtain ⟨hnew, hal, hq, hhead⟩ := hs
  obtain ⟨hne, rfl | rfl⟩ | ⟨rfl, hw, rfl⟩ | ⟨rfl, rfl | rfl⟩ := lockStep_write hq hr
  · exact h.stay hp ⟨hnew, hal, .inr (.inl rfl), by simp⟩ rfl rfl (by simp [held, hne])
  · exact h.stay hp ⟨hnew, hal, .inl rfl, by simp⟩ rfl rfl (by simp [held, hne])
  · exact h.take hp hw (hkept rfl hw)
  · exact h.stay hp ⟨hnew, hal⟩ rfl rfl (hhead rfl)
  · exact h.stay hp ⟨hnew, hal, hq, hhead⟩ rfl rfl rfl

theorem Inv.advance (h : Inv total m pc l)
    (hset : ∀ new lk, pc t = .insWrite .writeSet new lk → (m.lock lk).writer = false →
      m.head = some lk)
    (hreload : ∀ new, pc t = .insReload new → m.head = some new) {r : Mem × Pc}
    (hr : LockList.advance m (pc t) = some r) : ∃ l', Inv total r.1 (update pc t r.2) l' := by
  have hs := h.stands t
  obtain ⟨a, k, hl, ha⟩ := h.head
  cases hp : pc t <;> rw [hp] at hr hs <;> simp only [Stands] at hs <;>
    simp only [LockList.advance, reduceCtorEq] at hr
  case insLock new =>
    simp only [ha, some.injEq] at hr
    subst r
    exact ⟨l, h.stay hp ⟨hs.1, hs.2, .inl rfl, by simp⟩ rfl rfl rfl⟩
  case insWrite q new lk =>
    exact ⟨l, h.write hp (fun hq => hset new lk (hq ▸ hp)) hr⟩
  case insLink new =>
    cases hr
    exact ⟨l, h.link hp⟩
  case insPublish new =>
    cases hr
    exact ⟨new :: l, h.publish hp⟩
  case insReload new =>
    simp only [hreload new hp, some.injEq] at hr
    subst r
    exact ⟨l, h.stay hp hs rfl rfl rfl⟩
  case insNext b =>
    obtain ⟨c, hc⟩ := ne_none_iff_exists'.mp hs.2
    simp only [hc, some.injEq] at hr
    subst r
    have hheld : held m (pc t) = some c := by rw [hp]; exact hc
    exact ⟨l, h.stay hp (h.held_mem hheld) rfl rfl hc.symm⟩
  case insUnlock lk =>
    cases hr
    exact ⟨l, h.drop hp⟩

theorem insertedValues_append (as : List (Act n)) (a : Act n) :
    insertedValues (as ++ [a]) = insertedValues as + insertedValues [a] := by
  simp [insertedValues, filterMap_append, ← Multiset.coe_add]

theorem inv_step {s s' : State n} {a : Act n} (h : Inv total s.mem s.pc l) (hins : InsertOnly a)
    (hkept : HeadKept s a) (hs : step s a = some s') :
    ∃ l', Inv (total + insertedValues [a]) s'.mem s'.pc l' := by
  cases a with
  | call t c =>
    obtain ⟨x, rfl⟩ := hins
    simp only [step] at hs
    split at hs
    · rename_i hp
      cases hs
      exact ⟨l, h.call x hp⟩
    · cases hs
  | kalloc t a =>
    obtain ⟨r, hr, rfl⟩ := map_eq_some_iff.mp hs
    cases hp : s.pc t <;> rw [hp] at hr <;> simp only [kallocStep, reduceCtorEq] at hr
    split at hr
    · cases hr
    · rename_i ha
      cases hr
      have hnone : insertedValues [Act.kalloc t a] = 0 := rfl
      rw [hnone, add_zero]
      exact ⟨l, h.kalloc hp (by simpa using ha)⟩
  | run t =>
    obtain ⟨r, hr, rfl⟩ := map_eq_some_iff.mp hs
    have hset : ∀ new lk, s.pc t = .insWrite .writeSet new lk →
        (s.mem.lock lk).writer = false → s.mem.head = some lk := by
      intro new lk hp
      simpa only [HeadKept, hp] using hkept
    have hreload : ∀ new, s.pc t = .insReload new → s.mem.head = some new := by
      intro new hp
      simpa only [HeadKept, hp] using hkept
    have hnone : insertedValues [Act.run t] = 0 := rfl
    rw [hnone, add_zero]
    exact h.advance hset hreload hr

theorem Inv.holdsInserted {xs : Multiset Int} {s : State n} (h : Inv ({0} + xs) s.mem s.pc l)
    (hq : Quiet s) : HoldsInserted s xs := by
  have hidle : ∀ t, ∃ res, s.pc t = .idle res := by
    intro t
    have ht := hq t
    cases hp : s.pc t <;> simp_all [Pc.isIdle]
  have hpend : ∀ t, pending s.mem (s.pc t) = 0 := by
    intro t
    obtain ⟨res, hp⟩ := hidle t
    rw [hp]
    rfl
  refine ⟨l, h.chain, ?_, ?_⟩
  · simpa only [hpend, Finset.sum_const_zero, add_zero, Multiset.singleton_add] using h.values
  · intro a _
    by_contra hw
    obtain ⟨t, ht⟩ := (h.locks.flag_iff a).mp (by simpa using hw)
    obtain ⟨res, hp⟩ := hidle t
    rw [hp] at ht
    cases ht

/-- Concurrent `insert_lock` calls on the list of `init_list_lock` lose nothing
and leave no lock behind in every run in which both late reads of `head_ref`
find the head unchanged. -/
theorem insertLock_keeps (a : Addr) (r : Run (step (n := n)))
    (h0 : r.state 0 = ⟨initListLock a, fun _ => .idle none⟩)
    (hins : ∀ i < r.length, InsertOnly (r.act i)) (hkept : r.Meets HeadKept)
    (i : Nat) (hi : i ≤ r.length) (hq : Quiet (r.state i)) :
    HoldsInserted (r.state i) (insertedValues (r.acts i)) := by
  have hmeets : r.Meets (fun s a => InsertOnly a ∧ HeadKept s a) := fun j hj =>
    ⟨hins j hj, hkept j hj⟩
  have hinv := r.invariant_acts (I := fun as s => ∃ l, Inv ({0} + insertedValues as) s.mem s.pc l)
    hmeets ⟨[a], by rw [h0]; simpa [insertedValues] using inv_initial a⟩ (by
      rintro as s b t ⟨l, hl⟩ ⟨hb, hk⟩ hs
      rw [insertedValues_append, ← add_assoc]
      exact inv_step hl hb hk hs) i hi
  obtain ⟨l, hl⟩ := hinv
  exact hl.holdsInserted hq

/-- Two calls that both read the first node as the head: the second one takes
its lock after the first has published, and then releases another node's. -/
def overtaken : List (Act 2) :=
  [.call 0 (.insertLock 1), .kalloc 0 1, .run 0, .run 0, .run 0,
   .call 1 (.insertLock 2), .kalloc 1 2, .run 1, .run 1,
   .run 0, .run 0, .run 0, .run 0, .run 0,
   .run 1, .run 1, .run 1, .run 1, .run 1, .run 1, .run 1, .run 1]

def overtakenStart : State 2 := ⟨initListLock 0, fun _ => .idle none⟩

theorem insertLock_overtaken : ∃ r : Run (step (n := 2)), r.state 0 = overtakenStart ∧
    (∀ i < r.length, InsertOnly (r.act i)) ∧ Quiet (r.state r.length) ∧
    ¬ HoldsInserted (r.state r.length) (insertedValues (r.acts r.length)) := by
  refine ⟨Run.ofExec step overtakenStart overtaken (by decide +kernel), rfl, by decide +kernel,
    by decide +kernel, ?_⟩
  rintro ⟨l, hl, -, hw⟩
  have hreach : Reach (stateAt step overtakenStart overtaken 22).mem.next
      (stateAt step overtakenStart overtaken 22).mem.head 0 :=
    Reach.step (a := 2) (Reach.step (a := 1) (Reach.here 0))
  have hset : ((stateAt step overtakenStart overtaken 22).mem.lock 0).writer = true := by
    decide +kernel
  exact Bool.noConfusion (hset.symm.trans (hw 0 (hl.mem_iff.mpr hreach)))

def inTurn : List (Act 2) :=
  [.call 0 (.insertLock 1), .kalloc 0 1, .run 0, .run 0, .run 0, .run 0, .run 0, .run 0, .run 0, .run 0,
   .call 1 (.insertLock 1), .kalloc 1 2, .run 1, .run 1, .run 1, .run 1, .run 1, .run 1, .run 1, .run 1]

theorem insertLock_keeps_inTurn :
    HoldsInserted (stateAt step overtakenStart inTurn 20) {1, 1} := by
  exact insertLock_keeps 0 (Run.ofExec step overtakenStart inTurn (by decide +kernel)) rfl (by decide +kernel)
    (by decide +kernel) 20 (by decide) (by decide +kernel)

end Xv6Rcu.LockInsert

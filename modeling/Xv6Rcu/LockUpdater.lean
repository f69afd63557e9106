import Xv6Rcu.Edits
import Xv6Rcu.LockSeek
import Xv6Rcu.Threads

namespace Xv6Rcu.LockUpdater

open Transition Links Edits Threads LockList LockSeek Function Option
open RwLock (ReaderWriterLock)

variable {n : Nat}

/-- The shape of `testrcu`: the process `w` updates, with keys that are in the
list when the deletion starts, and the other processes search. -/
def OneUpdater (w : Fin n) (s : State n) : Act n → Prop
  | .call t (.insertLock _) => t = w
  | .call t (.deleteNodeLock key) => t = w ∧ KeyAhead s.mem key s.mem.head
  | .call t (.searchLock _) => t ≠ w
  | _ => True

def Searches : Pc → Prop
  | .idle _ | .seaLoad _ | .seaRead _ _ _ | .seaTest _ _ | .seaFound _ | .seaPass _ _
  | .seaMove _ _ => True
  | _ => False

/-- Where the only updater stands: its node is private until it is published,
and the node it took for the head is the head. -/
def Place (m : Mem) (l : List Addr) : Pc → Prop
  | .idle _ | .fault | .insAlloc _ | .insReload _ | .insNext _ | .insUnlock _ => True
  | .insLock new | .insWrite _ new _ | .insLink new => m.alloc new = true ∧ new ∉ l
  | .insPublish new => m.alloc new = true ∧ new ∉ l ∧ m.next new = m.head
  | .delWrite q key temp => KeyAhead m key m.head ∧ Writes q ∧ m.head = some temp
  | p => Seeks m l p

structure Inv (w : Fin n) (m : Mem) (pc : Fin n → Pc) (l : List Addr) : Prop where
  chain : Chain m.next m.head l
  alloc : ∀ a ∈ l, m.alloc a = true
  place : Place m l (pc w)
  others : ∀ t, t ≠ w → Searches (pc t)

def view (w : Fin n) (m : Mem) (pc : Fin n → Pc) : View Addr where
  head := m.head
  next := m.next
  pub := fun a => m.alloc a = true ∧ fresh (pc w) ≠ some a

variable {m : Mem} {l : List Addr} {pc : Fin n → Pc} {w t : Fin n}

theorem Place.fresh_notMem {p : Pc} (h : Place m l p) {new : Addr} (hf : fresh p = some new) :
    m.alloc new = true ∧ new ∉ l := by
  cases p <;> cases hf
  case insLock => exact h
  case insWrite => exact h
  case insLink => exact h
  case insPublish => exact ⟨h.1, h.2.1⟩

theorem Inv.proper (h : Inv w m pc l) : (view w m pc).Proper where
  chain := ⟨l, h.chain⟩
  listed_pub := by
    intro a ha
    have hl := h.chain.mem_iff.mpr ha
    exact ⟨h.alloc a hl, fun hf => (h.place.fresh_notMem hf).2 hl⟩

theorem place_withLock (m : Mem) (lock : Addr → ReaderWriterLock) (l : List Addr) (p : Pc) :
    Place (m.withLock lock) l p = Place m l p := by
  cases p <;> rfl

theorem searches_searchAt (key : Int) (h : Option Addr) : Searches (searchAt key h) := by
  cases h <;> trivial

theorem Searches.advance {p : Pc} (hp : Searches p) {r : Mem × Pc}
    (hr : LockList.advance m p = some r) : (∃ lock, r.1 = m.withLock lock) ∧ Searches r.2 := by
  cases p <;> try exact hp.elim
  case idle => cases hr
  case seaLoad key =>
    cases hr
    exact ⟨⟨m.lock, rfl⟩, searches_searchAt key m.head⟩
  case seaRead q key c =>
    rw [LockList.advance] at hr
    obtain ⟨hlock, h | ⟨q', h⟩⟩ := lockStep_cases hr
    · exact ⟨hlock, by rw [h]; trivial⟩
    · exact ⟨hlock, by rw [h]; trivial⟩
  case seaTest key c =>
    cases hr
    refine ⟨⟨m.lock, rfl⟩, ?_⟩
    by_cases hd : m.data c = key
    · simp only [hd, if_true]
      trivial
    · simp only [hd, if_false]
      trivial
  case seaFound c =>
    cases hr
    exact ⟨⟨_, rfl⟩, trivial⟩
  case seaPass key c =>
    cases hr
    exact ⟨⟨_, rfl⟩, trivial⟩
  case seaMove key c =>
    cases hr
    exact ⟨⟨m.lock, rfl⟩, searches_searchAt key (m.next c)⟩

/-- A call waits for the lock of the node that it has just read as the head. -/
theorem advance_delWrite {p : Pc} {r : Mem × Pc} (hr : LockList.advance m p = some r)
    {q : RwLock.Pc} {key : Int} {temp : Addr} (hq : r.2 = .delWrite q key temp) :
    m.head = some temp ∨ ∃ q', p = .delWrite q' key temp := by
  cases p <;> simp only [LockList.advance, reduceCtorEq] at hr <;> try grind
  case insWrite => obtain ⟨-, h | ⟨q', h⟩⟩ := lockStep_cases hr <;> simp [h] at hq
  case delWrite =>
    obtain ⟨-, h | ⟨q', h⟩⟩ := lockStep_cases hr <;> rw [h] at hq <;> cases hq
    exact .inr ⟨_, rfl⟩
  case delNextWrite => obtain ⟨-, h | ⟨q', h⟩⟩ := lockStep_cases hr <;> simp [h] at hq
  case seaRead => obtain ⟨-, h | ⟨q', h⟩⟩ := lockStep_cases hr <;> simp [h] at hq
  case seaLoad key' =>
    cases hr
    exact (hq ▸ searches_searchAt key' m.head : Searches (.delWrite q key temp)).elim
  case seaMove key' c =>
    cases hr
    exact (hq ▸ searches_searchAt key' (m.next c) : Searches (.delWrite q key temp)).elim

theorem Seeks.fresh_eq {p : Pc} (hs : Seeks m l p) : fresh p = none := by
  cases p <;> first | rfl | exact hs.elim

theorem Seeks.place {p : Pc} (hs : Seeks m l p)
    (hhead : ∀ q key temp, p = .delWrite q key temp → m.head = some temp) : Place m l p := by
  cases p <;> try exact hs
  case fault => trivial
  case delWrite q key temp => exact ⟨hs.1, hs.2.1, hhead q key temp rfl⟩
  all_goals exact hs.elim

def Deletes : Pc → Prop
  | .delLoad _ | .delWrite _ _ _ | .delHead _ _ | .delHeadNext _ | .delHeadStore _ _
  | .delHeadUnlock _ | .delTest _ _ _ | .delPeek _ _ _ | .delReload _ _ | .delNextWrite _ _ _ _
  | .delPass _ _ | .delMove _ _ | .delLast _ _ | .delNone _ | .delNext _ _ | .delUnlink _ _ _
  | .delUnlockPrev _ _ | .delUnlockTemp _ => True
  | _ => False

theorem Place.seeks {p : Pc} (h : Place m l p) (hp : Deletes p) : Seeks m l p := by
  cases p <;> try exact h
  case delWrite q key temp => exact ⟨h.1, h.2.1, fun _ => h.2.2⟩
  all_goals exact hp.elim

/-- What the step of a run has to show: the invariant, that the searches see
an edit, and that no node in use has its data changed. -/
structure Moves (w : Fin n) (m : Mem) (pc : Fin n → Pc) (m' : Mem) (pc' : Fin n → Pc) : Prop where
  inv : ∃ l, Inv w m' pc' l
  edit : Edit (view w m pc) (view w m' pc')
  data : ∀ a, m.alloc a = true → m'.data a = m.data a

section

variable (h : Inv w m pc l)

include h

theorem Inv.others_update (q : Pc) :
    ∀ t, t ≠ w → Searches (update pc w q t) := by
  intro t ht
  rw [update_of_ne ht]
  exact h.others t ht

theorem Inv.keep {p q : Pc} (hp : pc w = p) (lock : Addr → ReaderWriterLock)
    (hq : Place m l q) (hf : fresh q = fresh p ∨ fresh q = none) :
    Moves w m pc (m.withLock lock) (update pc w q) where
  inv := ⟨l, h.chain, h.alloc, by rw [update_self, place_withLock]; exact hq,
    h.others_update q⟩
  edit := by
    refine ⟨?_, Change.same⟩
    rintro a ⟨ha, hfr⟩
    refine ⟨ha, ?_⟩
    rw [hp] at hfr
    rw [update_self]
    obtain hf | hf := hf <;> rw [hf]
    · exact hfr
    · simp
  data := fun _ _ => rfl

theorem Inv.link {new : Addr} (hp : pc w = .insLink new) :
    Moves w m pc (m.setNext new m.head) (update pc w (.insPublish new)) where
  inv := by
    have hplace := h.place
    rw [hp] at hplace
    refine ⟨l, h.chain.update_of_notMem hplace.2 _, h.alloc, ?_, h.others_update _⟩
    rw [update_self]
    exact ⟨hplace.1, hplace.2, by simp [Mem.setNext]⟩
  edit := by
    refine ⟨?_, Change.link new m.head ?_⟩
    · rintro a ⟨ha, hf⟩
      rw [hp] at hf
      exact ⟨ha, by rw [update_self]; exact hf⟩
    · rintro ⟨-, hf⟩
      rw [hp] at hf
      exact hf rfl
  data := fun _ _ => rfl

theorem Inv.publish {new : Addr} (hp : pc w = .insPublish new) :
    Moves w m pc (m.setHead (some new)) (update pc w (.insReload new)) where
  inv := by
    have hplace := h.place
    rw [hp] at hplace
    refine ⟨new :: l, Chain.cons ?_, ?_, ?_, h.others_update _⟩
    · rw [Mem.setHead, hplace.2.2]
      exact h.chain
    · exact List.forall_mem_cons.mpr ⟨hplace.1, h.alloc⟩
    · rw [update_self]
      trivial
  edit := by
    have hplace := h.place
    rw [hp] at hplace
    refine ⟨fun a ha => ⟨ha.1, ?_⟩, Change.push new hplace.2.2⟩
    rw [update_self]
    simp [fresh]
  data := fun _ _ => rfl

theorem Inv.storeHead {v : Addr} {nxt : Option Addr}
    (hp : pc w = .delHeadStore v nxt) :
    Moves w m pc (m.setHead nxt) (update pc w (.delHeadUnlock v)) := by
  have hplace := h.place
  rw [hp] at hplace
  obtain ⟨hh, rfl⟩ := hplace
  obtain ⟨k, rfl⟩ : ∃ k, l = v :: k := by
    have hc := h.chain
    rw [hh] at hc
    cases hc
    exact ⟨_, rfl⟩
  refine ⟨⟨k, h.chain.tail (l := []), ?_, ?_, h.others_update _⟩, ⟨?_, Change.pop v hh⟩, fun _ _ => rfl⟩
  · exact fun a ha => h.alloc a (List.mem_cons_of_mem _ ha)
  · rw [update_self]
    trivial
  · refine fun a ha => ⟨ha.1, ?_⟩
    rw [update_self]
    simp [fresh]

theorem Inv.unlink {a v : Addr} {nxt : Option Addr}
    (hp : pc w = .delUnlink v (some a) nxt) :
    Moves w m pc (m.setNext a nxt) (update pc w (.delUnlockPrev v a)) := by
  have hplace := h.place
  rw [hp] at hplace
  obtain ⟨ha, hav, rfl⟩ := hplace
  have hva : v ≠ a := by
    rintro rfl
    exact h.chain.next_ne ha hav
  have hlisted := h.chain.mem_iff.mp ha
  obtain ⟨l₁, l₂, rfl⟩ := h.chain.split ha hav
  refine ⟨⟨l₁ ++ a :: l₂, h.chain.unlink, ?_, ?_, h.others_update _⟩,
    ⟨?_, Change.unlink a v hlisted hav⟩, fun _ _ => rfl⟩
  · exact fun b hb => h.alloc b (h.chain.mem_unlink.mp hb).1
  · rw [update_self]
    exact hva
  · refine fun b hb => ⟨hb.1, ?_⟩
    rw [update_self]
    simp [fresh]

theorem Inv.insert {p : Pc} (hp : pc w = p) (hd : ¬ Deletes p) {r : Mem × Pc}
    (hr : LockList.advance m p = some r) : Moves w m pc r.1 (update pc w r.2) := by
  have hplace := h.place
  rw [hp] at hplace
  cases p <;> try exact absurd trivial hd
  case idle => cases hr
  case fault => cases hr
  case insAlloc => cases hr
  case insLock new =>
    cases hh : m.head <;> simp only [LockList.advance, hh, some.injEq] at hr <;> subst r
    · exact h.keep hp m.lock trivial (.inr rfl)
    · exact h.keep hp m.lock hplace (.inl rfl)
  case insWrite q new lk =>
    rw [LockList.advance] at hr
    obtain ⟨⟨lock, hlock⟩, hq | ⟨q', hq⟩⟩ := lockStep_cases hr <;> rw [hlock, hq]
    · exact h.keep hp lock hplace (.inl rfl)
    · exact h.keep hp lock hplace (.inl rfl)
  case insLink new =>
    cases hr
    exact h.link hp
  case insPublish new =>
    cases hr
    exact h.publish hp
  case insReload new =>
    cases hh : m.head <;> simp only [LockList.advance, hh, some.injEq] at hr <;> subst r
    · exact h.keep hp m.lock trivial (.inl rfl)
    · exact h.keep hp m.lock trivial (.inl rfl)
  case insNext a =>
    cases hh : m.next a <;> simp only [LockList.advance, hh, some.injEq] at hr <;> subst r
    · exact h.keep hp m.lock trivial (.inl rfl)
    · exact h.keep hp m.lock trivial (.inl rfl)
  case insUnlock lk =>
    cases hr
    exact h.keep hp _ trivial (.inl rfl)
  all_goals exact hplace.elim

theorem Inv.delete {p : Pc} (hp : pc w = p) (hd : Deletes p) {r : Mem × Pc}
    (hr : LockList.advance m p = some r) : Moves w m pc r.1 (update pc w r.2) := by
  have hplace := h.place
  rw [hp] at hplace
  have hs := hplace.seeks hd
  by_cases hstore : Stores p
  · cases p <;> try exact hstore.elim
    case delHeadStore v nxt =>
      cases hr
      exact h.storeHead hp
    case delUnlink v prev nxt =>
      cases prev with
      | none => exact hs.elim
      | some a =>
        cases hr
        exact h.unlink hp
  · have hhead : ∀ q key temp, p = .delWrite q key temp → m.head = some temp := by
      rintro q key temp rfl
      exact hplace.2.2
    obtain ⟨⟨lock, hlock⟩, hseeks, -⟩ := hs.advance h.chain hstore
      (fun key temp he _ => hhead _ key temp he) hr
    rw [hlock]
    refine h.keep hp lock (Seeks.place hseeks ?_) (.inr (Seeks.fresh_eq hseeks))
    intro q key temp hq
    obtain hh | ⟨q', hq'⟩ := advance_delWrite hr hq
    · exact hh
    · exact hhead q' key temp hq'

theorem Inv.kalloc (x : Int) {a : Addr} (ha : m.alloc a = false) :
    Moves w m pc (m.newNode a x) (update pc w (.insLock a)) := by
  have hne : ∀ b, m.alloc b = true → b ≠ a := by
    rintro b hb rfl
    rw [ha] at hb
    cases hb
  have hkeep : ∀ b, m.alloc b = true → (m.newNode a x).alloc b = true := by
    intro b hb
    simp [Mem.newNode, hne b hb, hb]
  refine ⟨⟨l, h.chain, fun b hb => hkeep b (h.alloc b hb), ?_, h.others_update _⟩,
    ⟨?_, Change.same⟩, ?_⟩
  · rw [update_self]
    exact ⟨by simp [Mem.newNode], fun hl => hne a (h.alloc a hl) rfl⟩
  · refine fun b hb => ⟨hkeep b hb.1, ?_⟩
    rw [update_self]
    exact fun he => hne b hb.1 (some.inj he).symm
  · intro b hb
    simp [Mem.newNode, hne b hb]

theorem Inv.search (ht : t ≠ w) (lock : Addr → ReaderWriterLock) {q : Pc}
    (hq : Searches q) : Moves w m pc (m.withLock lock) (update pc t q) := by
  have hw : update pc t q w = pc w := update_of_ne ht.symm _ _
  refine ⟨⟨l, h.chain, h.alloc, ?_, ?_⟩, ⟨fun a ha => ⟨ha.1, ?_⟩, Change.same⟩, fun _ _ => rfl⟩
  · rw [hw, place_withLock]
    exact h.place
  · intro u hu
    exact update_cases u hq (fun _ => h.others u hu)
  · rw [hw]
    exact ha.2

end

theorem inv_step {s s' : State n} {a : Act n} (h : Inv w s.mem s.pc l) (hone : OneUpdater w s a)
    (hs : step s a = some s') : Moves w s.mem s.pc s'.mem s'.pc := by
  cases a with
  | call t c =>
    simp only [step, ite_none_right_eq_some, some.injEq] at hs
    obtain ⟨-, rfl⟩ := hs
    cases c with
    | insertLock x =>
      obtain rfl : t = w := hone
      exact h.keep rfl s.mem.lock trivial (.inr rfl)
    | deleteNodeLock key =>
      obtain ⟨rfl, hkey⟩ : t = w ∧ KeyAhead s.mem key s.mem.head := hone
      exact h.keep rfl s.mem.lock hkey (.inr rfl)
    | searchLock key => exact h.search hone s.mem.lock trivial
  | kalloc t a =>
    obtain ⟨r, hr, rfl⟩ := map_eq_some_iff.mp hs
    cases hp : s.pc t <;> simp only [hp, kallocStep, reduceCtorEq] at hr
    obtain ⟨ha, hr⟩ := ite_none_left_eq_some.mp hr
    cases hr
    by_cases ht : t = w
    · subst t
      exact h.kalloc _ (by simpa using ha)
    · have hother := h.others t ht
      rw [hp] at hother
      exact hother.elim
  | run t =>
    obtain ⟨r, hr, rfl⟩ := map_eq_some_iff.mp hs
    by_cases ht : t = w
    · subst t
      by_cases hd : Deletes (s.pc w)
      · exact h.delete rfl hd hr
      · exact h.insert rfl hd hr
    · obtain ⟨⟨lock, hlock⟩, hq⟩ := (h.others t ht).advance hr
      rw [hlock]
      exact h.search ht lock hq

end Xv6Rcu.LockUpdater

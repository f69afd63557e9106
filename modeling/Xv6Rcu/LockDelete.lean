import Xv6Rcu.LockSeek
import Xv6Rcu.Threads

namespace Xv6Rcu.LockDelete

open Transition Links Threads LockList LockSeek Function List Option
open RwLock (ReaderWriterLock rwLockInit)

variable {n : Nat}

def deletedKey : Act n → Option Int
  | .call _ (.deleteNodeLock key) => some key
  | _ => none

def deletedKeys (as : List (Act n)) : List Int := as.filterMap deletedKey

def DeleteOnly : Act n → Prop
  | .call _ c => ∃ key, c = .deleteNodeLock key
  | _ => True

instance : DecidablePred (DeleteOnly (n := n))
  | .call _ (.deleteNodeLock key) => isTrue ⟨key, rfl⟩
  | .call _ (.insertLock _) => isFalse (fun h => by cases h with | intro _ h => cases h)
  | .call _ (.searchLock _) => isFalse (fun h => by cases h with | intro _ h => cases h)
  | .kalloc _ _ => isTrue trivial
  | .run _ => isTrue trivial

/-- The node the call has released and whose link it is still about to follow
or to rewrite. -/
def trailing : Pc → Option Addr
  | .delMove _ temp => some temp
  | .delTest _ _ prev | .delNext _ prev | .delUnlink _ prev _ => prev
  | .delUnlockPrev _ prev => some prev
  | _ => none

/-- What hand-over-hand locking would ensure and the early release of `prev`
does not: nobody takes the lock of a node that another call still trails,
and the first lock taken is the lock of the node that is the head. -/
def HandOverHand (s : State n) : Act n → Prop
  | .run t =>
    match s.pc t with
    | .delWrite .writeSet _ temp => (s.mem.lock temp).writer = false →
        s.mem.head = some temp ∧ ∀ u, u ≠ t → trailing (s.pc u) ≠ some temp
    | .delNextWrite .writeSet _ _ nxt => (s.mem.lock nxt).writer = false →
        ∀ u, u ≠ t → trailing (s.pc u) ≠ some nxt
    | _ => True
  | _ => True

instance : (a : Act n) → (s : State n) → Decidable (HandOverHand s a)
  | .run t, s => by
    unfold HandOverHand
    dsimp only
    split <;> infer_instance
  | .call .., _ | .kalloc .., _ => isTrue trivial

/-- The call has set the flag of the node's lock and not yet cleared it. -/
def locked (m : Mem) (p : Pc) (a : Addr) : Prop :=
  match p with
  | .delWrite q _ temp => q = .writeDrain ∧ a = temp
  | .delHead _ temp | .delHeadNext temp | .delHeadStore temp _ | .delHeadUnlock temp
  | .delTest _ temp _ | .delPeek _ temp _ | .delReload _ temp | .delNext temp _
  | .delUnlink temp _ _ | .delUnlockPrev temp _ | .delUnlockTemp temp => a = temp
  | .delNextWrite q _ temp nxt => a = temp ∨ q = .writeDrain ∧ a = nxt
  | .delPass _ temp => a = temp ∨ m.next temp = some a
  | .delMove _ temp => m.next temp = some a
  | _ => False

def owns (m : Mem) (p : Pc) (a : Addr) : Prop := locked m p a ∨ trailing p = some a

/-- The invariant of a run that keeps to the discipline, from the list `l0`
after calls with the keys `keys`: the list has lost exactly the nodes whose
deletion has been stored. -/
structure Inv (l0 : List Addr) (keys : List Int) (m : Mem) (pc : Fin n → Pc) (l : List Addr) :
    Prop where
  chain : Chain m.next m.head l
  subset : ∀ a ∈ l, a ∈ l0
  inj : ∀ a ∈ l0, ∀ b ∈ l0, m.data a = m.data b → a = b
  seeks : ∀ t, Seeks m l (pc t)
  locks : Exclusive (fun a => (m.lock a).writer) (fun t a => locked m (pc t) a)
  owned : ∀ t u a, owns m (pc t) a → owns m (pc u) a → t = u
  targets : Distinct (target m) pc
  started : ∀ t k, target m (pc t) = some k → k ∈ keys
  kept : ∀ a ∈ l0, a ∈ l ↔ m.data a ∉ keys ∨ ∃ t, target m (pc t) = some (m.data a)

variable {l0 l : List Addr} {keys : List Int} {m : Mem} {pc : Fin n → Pc} {t : Fin n}

theorem locked_withLock (m : Mem) (lock : Addr → ReaderWriterLock) (p : Pc) (a : Addr) :
    locked (m.withLock lock) p a = locked m p a := by
  cases p <;> rfl

theorem owns_withLock (m : Mem) (lock : Addr → ReaderWriterLock) (p : Pc) (a : Addr) :
    owns (m.withLock lock) p a = owns m p a := by
  rw [owns, owns, locked_withLock]

/-- Ownership stays exclusive if the moving thread gains only what nobody has. -/
theorem owned_update {m : Mem} (h : ∀ t u a, owns m (pc t) a → owns m (pc u) a → t = u) {q : Pc}
    (hq : ∀ a, owns m q a → owns m (pc t) a ∨ ∀ u, u ≠ t → ¬ owns m (pc u) a) :
    ∀ u v a, owns m (update pc t q u) a → owns m (update pc t q v) a → u = v := by
  refine unique_update (R := owns m) h (fun v a hv ha hva => ?_)
  obtain hb | hb := hq a ha
  · exact hv (h v t a hva hb)
  · exact hb v hv hva

theorem Inv.move (h : Inv l0 keys m pc l) {p q : Pc} (hp : pc t = p)
    (lock : Addr → ReaderWriterLock) (hseeks : Seeks m l q) (htarget : target m q = target m p)
    (hlocks : Exclusive (fun a => (lock a).writer) (fun u a => locked m (update pc t q u) a))
    (howns : ∀ a, owns m q a → owns m p a ∨ ∀ u, u ≠ t → ¬ owns m (pc u) a) :
    Inv l0 keys (m.withLock lock) (update pc t q) l where
  chain := h.chain
  subset := h.subset
  inj := h.inj
  seeks := by
    simp only [seeks_withLock]
    exact forall_update hseeks (fun u _ => h.seeks u)
  locks := by
    simp only [locked_withLock]
    exact hlocks
  owned := by
    simp only [owns_withLock]
    exact owned_update h.owned (hp ▸ howns)
  targets := by
    have heq : target (m.withLock lock) = target m := funext (target_withLock m lock)
    rw [heq]
    exact h.targets.same hp htarget
  started := by
    simp only [target_withLock, same_update hp htarget]
    exact h.started
  kept := by
    simp only [target_withLock, same_update hp htarget]
    exact h.kept

theorem locked_update (m : Mem) {p q : Pc} (hp : pc t = p) (hq : ∀ a, locked m q a ↔ locked m p a)
    (u : Fin n) (a : Addr) : locked m (update pc t q u) a ↔ locked m (pc u) a := by
  by_cases hu : u = t
  · subst u
    rw [update_self, hp]
    exact hq a
  · rw [update_of_ne hu]

theorem Inv.stay (h : Inv l0 keys m pc l) {p q : Pc} (hp : pc t = p) (hseeks : Seeks m l q)
    (htarget : target m q = target m p) (hlocked : ∀ a, locked m q a ↔ locked m p a)
    (htrail : ∀ a, trailing q = some a → owns m p a) :
    Inv l0 keys m (update pc t q) l := by
  refine h.move hp m.lock hseeks htarget ?_ ?_
  · exact h.locks.congr (fun _ => rfl) (locked_update m hp hlocked)
  · rintro a (ha | ha)
    · exact .inl (.inl ((hlocked a).mp ha))
    · exact .inl (htrail a ha)

theorem Inv.take (h : Inv l0 keys m pc l) {p q : Pc} {b : Addr} (hp : pc t = p)
    (hseeks : Seeks m l q) (htarget : target m q = target m p)
    (hlocked : ∀ a, locked m q a ↔ locked m p a ∨ a = b) (htrail : trailing q = none)
    (hw : (m.lock b).writer = false) (hfree : ∀ u, u ≠ t → trailing (pc u) ≠ some b) :
    Inv l0 keys (m.setLock b (m.lock b).testAndSet) (update pc t q) l := by
  refine h.move hp _ hseeks htarget ?_ ?_
  · refine h.locks.take (t := t) (a := b) hw ?_ ?_
    · funext a
      by_cases ha : a = b
      · subst a; simp [ReaderWriterLock.testAndSet]
      · simp [ha]
    · intro u a
      by_cases hu : u = t
      · subst u
        simp only [update_self, hp, true_and]
        exact hlocked a
      · simp [hu]
  · rintro a (ha | ha)
    · obtain ha | rfl := (hlocked a).mp ha
      · exact .inl (.inl ha)
      · refine .inr (fun u hu => ?_)
        rintro (hb | hb)
        · exact h.locks.not_own hw u hb
        · exact hfree u hu hb
    · rw [htrail] at ha
      cases ha

theorem writer_release (m : Mem) (b : Addr) :
    (fun a => ((m.writeUnlock b).lock a).writer) =
      update (fun a => (m.lock a).writer) b false := by
  funext a
  by_cases ha : a = b
  · subst a; simp [Mem.writeUnlock, Mem.setLock, Mem.withLock, ReaderWriterLock.release]
  · simp [Mem.writeUnlock, Mem.setLock, Mem.withLock, ha]

theorem Inv.drop (h : Inv l0 keys m pc l) {p q : Pc} {b : Addr} (hp : pc t = p)
    (hseeks : Seeks m l q) (htarget : target m q = target m p) (hb : locked m p b)
    (hlocked : ∀ a, locked m q a ↔ locked m p a ∧ a ≠ b)
    (htrail : ∀ a, trailing q = some a → owns m p a) :
    Inv l0 keys (m.writeUnlock b) (update pc t q) l := by
  refine h.move hp _ hseeks htarget ?_ ?_
  · refine h.locks.drop (t := t) (a := b) (by rw [hp]; exact hb) (writer_release m b) ?_
    intro u a
    by_cases hu : u = t
    · subst u
      simp only [update_self, hp, true_and]
      exact hlocked a
    · simp [hu]
  · rintro a (ha | ha)
    · exact .inl (.inl ((hlocked a).mp ha).1)
    · exact .inl (htrail a ha)

theorem Inv.dropPrev (h : Inv l0 keys m pc l) {temp prev : Addr}
    (hp : pc t = .delUnlockPrev temp prev) (hne : temp ≠ prev) :
    Inv l0 keys (m.writeUnlock prev) (update pc t (.delUnlockTemp temp)) l := by
  have hfree : (m.lock prev).writer = false := by
    by_contra hw
    obtain ⟨u, hu⟩ := (h.locks.flag_iff prev).mp (by simpa using hw)
    have hut : u = t := h.owned u t prev (.inl hu) (by rw [hp]; exact .inr rfl)
    rw [hut, hp] at hu
    exact hne hu.symm
  refine h.move hp _ trivial rfl ?_ (fun a ha => .inl ?_)
  · refine h.locks.congr (fun a => ?_) (locked_update m hp (fun _ => Iff.rfl))
    by_cases ha : a = prev
    · subst a; simp [ReaderWriterLock.release, hfree]
    · simp [ha]
  · obtain ha | ha := ha
    · exact .inl ha
    · cases ha

theorem Inv.advance (h : Inv l0 keys m pc l) {p : Pc} (hp : pc t = p) (hstore : ¬ Stores p)
    (hset : ∀ key temp, p = .delWrite .writeSet key temp → (m.lock temp).writer = false →
      m.head = some temp ∧ ∀ u, u ≠ t → trailing (pc u) ≠ some temp)
    (hnext : ∀ key temp nxt, p = .delNextWrite .writeSet key temp nxt →
      (m.lock nxt).writer = false → ∀ u, u ≠ t → trailing (pc u) ≠ some nxt)
    {r : Mem × Pc} (hr : LockList.advance m p = some r) :
    Inv l0 keys r.1 (update pc t r.2) l := by
  have hs : Seeks m l p := hp ▸ h.seeks t
  obtain ⟨-, hseeks, htarget⟩ := hs.advance h.chain hstore
    (fun key temp he hw => (hset key temp he hw).1) hr
  cases p <;> simp only [Seeks, Stores, not_true_eq_false] at hs hstore <;>
    simp only [LockList.advance, some.injEq, reduceCtorEq] at hr
  case delLoad key =>
    obtain ⟨a, ha⟩ := hs.ne_none
    simp only [ha, some.injEq] at hr
    subst r
    exact h.stay hp hseeks htarget (by simp [locked]) (by simp [trailing])
  case delWrite q key temp =>
    obtain ⟨hne, rfl | rfl⟩ | ⟨rfl, hw, rfl⟩ | ⟨rfl, rfl | rfl⟩ := lockStep_write hs.2.1 hr
    · exact h.stay hp hseeks htarget (by simp [locked, hne]) (by simp [trailing])
    · exact h.stay hp hseeks htarget (by simp [locked, hne]) (by simp [trailing])
    · exact h.take hp hseeks htarget (by simp [locked]) rfl hw (hset key temp rfl hw).2
    · exact h.stay hp hseeks htarget (by simp [locked]) (by simp [trailing])
    · exact h.stay hp hseeks htarget (by simp [locked]) (by simp [trailing])
  case delHead key temp =>
    subst r
    by_cases hd : m.data temp = key <;> simp only [hd, if_true, if_false] at hseeks htarget ⊢
    · exact h.stay hp hseeks htarget (by simp [locked]) (by simp [trailing])
    · exact h.stay hp hseeks htarget (by simp [locked]) (by simp [trailing])
  case delHeadNext temp =>
    subst r
    exact h.stay hp hseeks htarget (by simp [locked]) (by simp [trailing])
  case delHeadUnlock temp =>
    subst r
    exact h.drop hp hseeks htarget (by simp [locked]) (by simp [locked]) (by simp [trailing])
  case delTest key temp prev =>
    subst r
    by_cases hd : m.data temp = key <;> simp only [hd, if_true, if_false] at hseeks htarget ⊢
    · exact h.stay hp hseeks htarget (by simp [locked]) (fun a ha => .inr ha)
    · exact h.stay hp hseeks htarget (by simp [locked]) (by simp [trailing])
  case delPeek key temp prev =>
    obtain ⟨a, ha⟩ := hs.1.ne_none
    simp only [ha, some.injEq] at hr
    subst r
    exact h.stay hp hseeks htarget (by simp [locked]) (by simp [trailing])
  case delReload key temp =>
    obtain ⟨a, ha⟩ := hs.1.ne_none
    simp only [ha, some.injEq] at hr
    subst r
    exact h.stay hp hseeks htarget (by simp [locked]) (by simp [trailing])
  case delNextWrite q key temp nxt =>
    obtain ⟨hne, rfl | rfl⟩ | ⟨rfl, hw, rfl⟩ | ⟨rfl, rfl | rfl⟩ := lockStep_write hs.2.2.2 hr
    · exact h.stay hp hseeks htarget (by simp [locked, hne]) (by simp [trailing])
    · exact h.stay hp hseeks htarget (by simp [locked, hne]) (by simp [trailing])
    · exact h.take hp hseeks htarget (by simp [locked]) rfl hw (hnext key temp nxt rfl hw)
    · exact h.stay hp hseeks htarget (by simp [locked, hs.2.2.1, eq_comm]) (by simp [trailing])
    · exact h.stay hp hseeks htarget (by simp [locked]) (by simp [trailing])
  case delPass key temp =>
    subst r
    have hne := h.chain.next_ne hs.2
    refine h.drop hp hseeks htarget (.inl rfl) ?_ ?_
    · intro a
      refine ⟨fun ha => ⟨.inr ha, fun he => hne (he ▸ ha)⟩, ?_⟩
      rintro ⟨rfl | ha, hat⟩
      · exact absurd rfl hat
      · exact ha
    · exact fun a ha => .inl (.inl (some.inj ha).symm)
  case delMove key temp =>
    obtain ⟨a, ha⟩ := hs.1.ne_none
    simp only [ha, some.injEq] at hr
    subst r
    exact h.stay hp hseeks htarget (by simp [locked, ha, eq_comm]) (fun b hb => .inr hb)
  case delNext temp prev =>
    subst r
    exact h.stay hp hseeks htarget (by simp [locked]) (fun b hb => .inr hb)
  case delUnlockPrev temp prev =>
    subst r
    exact h.dropPrev hp hs
  case delUnlockTemp temp =>
    subst r
    exact h.drop hp hseeks htarget (by simp [locked]) (by simp [locked]) (by simp [trailing])

theorem seeks_setHead {v : Addr} {p : Pc} (hs : Seeks m (v :: l) p)
    (hc : Chain m.next m.head (v :: l)) (hown : ¬ owns m p v)
    (hkey : target m p ≠ some (m.data v)) : Seeks (m.setHead (m.next v)) l p := by
  have hh := hc.head
  have hmem : ∀ a, a ∈ v :: l → owns m p a → a ∈ l := by
    intro a ha hoa
    obtain rfl | ha := mem_cons.mp ha
    · exact absurd hoa hown
    · exact ha
  have hahead : ∀ key, target m p = some key → KeyAhead m key m.head → KeyAhead m key (m.next v) := by
    intro key hk ha
    rw [hh] at ha
    exact ha.next (fun hd => hkey (hd ▸ hk))
  have hhead : ∀ a, m.head = some a → ¬ owns m p a := by
    rintro a ha hoa
    rw [hh] at ha
    exact hown (some.inj ha ▸ hoa)
  cases p <;> try exact hs
  case delLoad key => exact hahead key rfl hs
  case delWrite q key temp =>
    refine ⟨hahead key rfl hs.1, hs.2.1, ?_⟩
    rintro rfl
    exact absurd (.inl ⟨rfl, rfl⟩) (hhead temp (hs.2.2 rfl))
  case delHead key temp => exact absurd (.inl rfl) (hhead temp hs.2)
  case delHeadNext temp => exact absurd (.inl rfl) (hhead temp hs)
  case delHeadStore temp nxt => exact absurd (.inl rfl) (hhead temp hs.1)
  case delTest key temp prev =>
    cases prev with
    | none => exact absurd (.inl rfl) (hhead temp hs.2.2)
    | some b => exact ⟨hs.1, hmem b hs.2.1 (.inr rfl), hs.2.2⟩
  case delPeek key temp prev => exact ⟨hs.1, hmem temp hs.2 (.inl rfl)⟩
  case delReload key temp => exact ⟨hs.1, hmem temp hs.2 (.inl rfl)⟩
  case delNextWrite q key temp nxt =>
    exact ⟨hs.1, hmem temp hs.2.1 (.inl (.inl rfl)), hs.2.2⟩
  case delPass key temp => exact ⟨hs.1, hmem temp hs.2 (.inl (.inl rfl))⟩
  case delMove key temp => exact ⟨hs.1, hmem temp hs.2 (.inr rfl)⟩
  case delNext temp prev =>
    cases prev with
    | none => exact hs
    | some b => exact ⟨hmem b hs.1 (.inr rfl), hs.2⟩
  case delUnlink temp prev nxt =>
    cases prev with
    | none => exact hs
    | some b => exact ⟨hmem b hs.1 (.inr rfl), hs.2⟩

/-- A later node leaves the list under a call that owns neither it nor the
node before it and does not seek it. -/
theorem seeks_unlink {a v : Addr} {l₁ l₂ : List Addr} {p : Pc}
    (hs : Seeks m (l₁ ++ a :: v :: l₂) p) (hav : m.next a = some v) (ha : ¬ owns m p a)
    (hv : ¬ owns m p v) (hkey : target m p ≠ some (m.data v)) :
    Seeks (m.setNext a (m.next v)) (l₁ ++ a :: l₂) p := by
  have hmem : ∀ b, b ∈ l₁ ++ a :: v :: l₂ → owns m p b → b ∈ l₁ ++ a :: l₂ := by
    intro b hb hob
    have hbv : b ≠ v := fun he => hv (he ▸ hob)
    simpa [hbv] using hb
  have hnext : ∀ b, owns m p b → (m.setNext a (m.next v)).next b = m.next b := by
    intro b hob
    have hba : b ≠ a := fun he => ha (he ▸ hob)
    simp [Mem.setNext, hba]
  have hahead : ∀ key h, target m p = some key → KeyAhead m key h →
      KeyAhead (m.setNext a (m.next v)) key h := by
    rintro key h hk ⟨b, hb, hd⟩
    have hbv : b ≠ v := by
      rintro rfl
      exact hkey (hd ▸ hk)
    exact ⟨b, hb.unlink hav hbv, hd⟩
  cases p <;> try exact hs
  case delLoad key => exact hahead key _ rfl hs
  case delWrite q key temp => exact ⟨hahead key _ rfl hs.1, hs.2⟩
  case delHead key temp => exact ⟨hahead key _ rfl hs.1, hs.2⟩
  case delHeadStore temp nxt => exact ⟨hs.1, (hnext temp (.inl rfl)).trans hs.2⟩
  case delTest key temp prev =>
    cases prev with
    | none => exact ⟨hahead key _ rfl hs.1, hs.2⟩
    | some b =>
      exact ⟨hahead key _ rfl hs.1, hmem b hs.2.1 (.inr rfl),
        (hnext b (.inr rfl)).trans hs.2.2⟩
  case delPeek key temp prev =>
    have ht : owns m (.delPeek key temp prev) temp := .inl rfl
    exact ⟨by rw [hnext temp ht]; exact hahead key _ rfl hs.1, hmem temp hs.2 ht⟩
  case delReload key temp =>
    have ht : owns m (.delReload key temp) temp := .inl rfl
    exact ⟨by rw [hnext temp ht]; exact hahead key _ rfl hs.1, hmem temp hs.2 ht⟩
  case delNextWrite q key temp nxt =>
    have ht : owns m (.delNextWrite q key temp nxt) temp := .inl (.inl rfl)
    exact ⟨hahead key _ rfl hs.1, hmem temp hs.2.1 ht, (hnext temp ht).trans hs.2.2.1, hs.2.2.2⟩
  case delPass key temp =>
    have ht : owns m (.delPass key temp) temp := .inl (.inl rfl)
    exact ⟨by rw [hnext temp ht]; exact hahead key _ rfl hs.1, hmem temp hs.2 ht⟩
  case delMove key temp =>
    have ht : owns m (.delMove key temp) temp := .inr rfl
    exact ⟨by rw [hnext temp ht]; exact hahead key _ rfl hs.1, hmem temp hs.2 ht⟩
  case delNext temp prev =>
    cases prev with
    | none => exact hs
    | some b => exact ⟨hmem b hs.1 (.inr rfl), (hnext b (.inr rfl)).trans hs.2⟩
  case delUnlink temp prev nxt =>
    cases prev with
    | none => exact hs
    | some b =>
      exact ⟨hmem b hs.1 (.inr rfl), (hnext b (.inr rfl)).trans hs.2.1,
        (hnext temp (.inl rfl)).trans hs.2.2⟩

theorem locked_setNext {a : Addr} {w : Option Addr} {p : Pc} (ha : ¬ owns m p a) (b : Addr) :
    locked (m.setNext a w) p b ↔ locked m p b := by
  cases p <;> try rfl
  case delPass key temp =>
    have hta : temp ≠ a := fun he => ha (.inl (.inl he.symm))
    simp [locked, Mem.setNext, hta]
  case delMove key temp =>
    have hta : temp ≠ a := fun he => ha (.inr (congrArg some he))
    simp [locked, Mem.setNext, hta]

theorem target_setNext (m : Mem) (a : Addr) (w : Option Addr) (p : Pc) :
    target (m.setNext a w) p = target m p := by
  cases p <;> rfl

theorem target_setHead (m : Mem) (w : Option Addr) (p : Pc) :
    target (m.setHead w) p = target m p := by
  cases p <;> rfl

theorem locked_setHead (m : Mem) (w : Option Addr) (p : Pc) (b : Addr) :
    locked (m.setHead w) p b = locked m p b := by
  cases p <;> rfl

section

variable (h : Inv l0 keys m pc l)

include h

/-- The bookkeeping of the keys when the call that seeks `v` has unlinked it. -/
theorem Inv.removed {v : Addr} {q : Pc} {k : List Addr}
    (ht : target m (pc t) = some (m.data v)) (hq : target m q = none) (hv : v ∈ l)
    (hk : ∀ a, a ∈ k ↔ a ∈ l ∧ a ≠ v) :
    Distinct (target m) (update pc t q) ∧
      (∀ u x, target m (update pc t q u) = some x → x ∈ keys) ∧
      ∀ a ∈ l0, a ∈ k ↔ m.data a ∉ keys ∨
        ∃ u, target m (update pc t q u) = some (m.data a) := by
  have hother : ∀ u x, target m (update pc t q u) = some x →
      u ≠ t ∧ target m (pc u) = some x := by
    intro u x hu
    by_cases hut : u = t
    · rw [hut, update_self, hq] at hu
      cases hu
    · rw [update_of_ne hut] at hu
      exact ⟨hut, hu⟩
  refine ⟨h.targets.update (by simp [hq]), fun u x hu => h.started u x (hother u x hu).2, ?_⟩
  intro a ha
  rw [hk, h.kept a ha]
  constructor
  · rintro ⟨hx | ⟨u, hu⟩, hav⟩
    · exact .inl hx
    · refine .inr ⟨u, ?_⟩
      have hut : u ≠ t := by
        rintro rfl
        rw [ht] at hu
        exact hav (h.inj a ha v (h.subset v hv) (some.inj hu).symm)
      rw [update_of_ne hut]
      exact hu
  · rintro (hx | ⟨u, hu⟩)
    · refine ⟨.inl hx, ?_⟩
      rintro rfl
      exact hx (h.started t _ ht)
    · obtain ⟨hut, hu⟩ := hother u _ hu
      refine ⟨.inr ⟨u, hu⟩, ?_⟩
      rintro rfl
      exact hut (h.targets u t _ hu ht)

theorem Inv.not_owns {a : Addr} (ht : owns m (pc t) a) {u : Fin n}
    (hu : u ≠ t) : ¬ owns m (pc u) a :=
  fun hua => hu (h.owned u t a hua ht)

theorem Inv.storeHead {v : Addr} {nxt : Option Addr}
    (hp : pc t = .delHeadStore v nxt) :
    ∃ l', Inv l0 keys (m.setHead nxt) (update pc t (.delHeadUnlock v)) l' := by
  have hs := h.seeks t
  rw [hp] at hs
  obtain ⟨hh, rfl⟩ := hs
  obtain ⟨k, rfl⟩ : ∃ k, l = v :: k := by
    have hc := h.chain
    rw [hh] at hc
    cases hc
    exact ⟨_, rfl⟩
  have hown : owns m (pc t) v := by rw [hp]; exact .inl rfl
  have htarget : target m (pc t) = some (m.data v) := by rw [hp]; rfl
  have hnd := h.chain.nodup
  obtain ⟨hd, hst, hkept⟩ := h.removed (q := .delHeadUnlock v) (k := k) htarget rfl (by simp) (by
    intro a
    constructor
    · intro ha
      refine ⟨by simp [ha], ?_⟩
      rintro rfl
      exact (nodup_cons.mp hnd).1 ha
    · rintro ⟨ha, hne⟩
      simpa [hne] using ha)
  have hlocked : ∀ a, locked m (.delHeadUnlock v) a ↔ locked m (.delHeadStore v (m.next v)) a :=
    fun _ => Iff.rfl
  have heq : target (m.setHead (m.next v)) = target m := funext (target_setHead m _)
  refine ⟨k, ⟨h.chain.tail (l := []), fun a ha => h.subset a (by simp [ha]), h.inj, ?_, ?_, ?_, ?_,
    ?_, ?_⟩⟩
  · refine forall_update trivial (fun u hu => ?_)
    refine seeks_setHead (h.seeks u) h.chain (h.not_owns hown hu) ?_
    exact fun he => hu (h.targets u t _ he htarget)
  · simp only [locked_setHead]
    exact h.locks.congr (fun _ => rfl) (locked_update m hp hlocked)
  · simp only [owns, locked_setHead]
    refine owned_update h.owned (fun a ha => .inl ?_)
    rw [hp]
    obtain ha | ha := ha
    · exact .inl ha
    · cases ha
  · rw [heq]
    exact hd
  · rw [heq]
    exact hst
  · rw [heq]
    exact hkept

theorem Inv.unlink {a v : Addr} {nxt : Option Addr}
    (hp : pc t = .delUnlink v (some a) nxt) :
    ∃ l', Inv l0 keys (m.setNext a nxt) (update pc t (.delUnlockPrev v a)) l' := by
  have hs := h.seeks t
  rw [hp] at hs
  obtain ⟨ha, hav, rfl⟩ := hs
  obtain ⟨l₁, l₂, rfl⟩ := h.chain.split ha hav
  have hoa : owns m (pc t) a := by rw [hp]; exact .inr rfl
  have hov : owns m (pc t) v := by rw [hp]; exact .inl rfl
  have hva : v ≠ a := by
    rintro rfl
    exact h.chain.next_ne ha hav
  have htarget : target m (pc t) = some (m.data v) := by rw [hp]; rfl
  obtain ⟨hd, hst, hkept⟩ := h.removed (q := .delUnlockPrev v a) (k := l₁ ++ a :: l₂) htarget rfl
    (by simp) (fun _ => h.chain.mem_unlink)
  have hlocked : ∀ b, locked m (.delUnlockPrev v a) b ↔ locked m (.delUnlink v (some a) (m.next v)) b :=
    fun _ => Iff.rfl
  have hsame : ∀ u b, locked (m.setNext a (m.next v)) (update pc t (.delUnlockPrev v a) u) b ↔
      locked m (update pc t (.delUnlockPrev v a) u) b := by
    intro u b
    by_cases hu : u = t
    · subst u
      rw [update_self]
      rfl
    · rw [update_of_ne hu]
      exact locked_setNext (h.not_owns hoa hu) b
  have heq : target (m.setNext a (m.next v)) = target m := funext (target_setNext m _ _)
  refine ⟨l₁ ++ a :: l₂, ⟨h.chain.unlink, ?_, h.inj, ?_, ?_, ?_, ?_, ?_, ?_⟩⟩
  · exact fun b hb => h.subset b (h.chain.mem_unlink.mp hb).1
  · refine forall_update hva (fun u hu => ?_)
    refine seeks_unlink (h.seeks u) hav (h.not_owns hoa hu) (h.not_owns hov hu) ?_
    exact fun he => hu (h.targets u t _ he htarget)
  · simp only [hsame]
    exact h.locks.congr (fun _ => rfl) (locked_update m hp hlocked)
  · simp only [owns, hsame]
    refine owned_update h.owned (fun b hb => .inl ?_)
    rw [hp]
    exact hb
  · rw [heq]
    exact hd
  · rw [heq]
    exact hst
  · rw [heq]
    exact hkept

theorem Inv.call {k : Int} (hp : (pc t).isIdle = true) (hk : k ∉ keys)
    (hpresent : ∃ a ∈ l0, m.data a = k) :
    Inv l0 (keys ++ [k]) m (update pc t (.delLoad k)) l := by
  obtain ⟨res, hres⟩ : ∃ res, pc t = .idle res := by
    cases hq : pc t <;> simp [hq, Pc.isIdle] at hp ⊢
  have hother : ∀ u k', target m (pc u) = some k' →
      target m (update pc t (.delLoad k) u) = some k' := by
    intro u k' hu
    have hut : u ≠ t := by
      rintro rfl
      rw [hres] at hu
      cases hu
    rwa [update_of_ne hut]
  refine ⟨h.chain, h.subset, h.inj, ?_, ?_, ?_, ?_, ?_, ?_⟩
  · refine forall_update ?_ (fun u _ => h.seeks u)
    obtain ⟨a, ha, rfl⟩ := hpresent
    exact ⟨a, h.chain.mem_iff.mp ((h.kept a ha).mpr (.inl hk)), rfl⟩
  · exact h.locks.congr (fun _ => rfl) (locked_update m hres (fun _ => Iff.rfl))
  · exact owned_update h.owned (by simp [owns, locked, trailing])
  · refine h.targets.update (fun u _ k' hu he => hk ?_)
    cases he
    exact h.started u k hu
  · intro u k'
    refine forall_update (t := t) (C := fun p => target m p = some k' → k' ∈ keys ++ [k]) ?_ ?_ u
    · rintro ⟨⟩
      simp
    · exact fun v _ hv => mem_append_left _ (h.started v k' hv)
  · intro a ha
    rw [h.kept a ha]
    constructor
    · rintro (hd | ⟨u, hu⟩)
      · by_cases he : m.data a = k
        · exact .inr ⟨t, by rw [update_self, he]; rfl⟩
        · exact .inl (by simp [hd, he])
      · exact .inr ⟨u, hother u _ hu⟩
    · rintro (hd | ⟨u, hu⟩)
      · exact .inl (fun he => hd (mem_append_left _ he))
      · by_cases hut : u = t
        · rw [hut, update_self] at hu
          exact .inl (some.inj hu ▸ hk)
        · rw [update_of_ne hut] at hu
          exact .inr ⟨u, hu⟩

end

theorem inv_step {s s' : State n} {a : Act n} (h : Inv l0 keys s.mem s.pc l) (hdel : DeleteOnly a)
    (hcond : HandOverHand s a)
    (hkey : ∀ k, deletedKey a = some k → k ∉ keys ∧ ∃ b ∈ l0, s.mem.data b = k)
    (hs : step s a = some s') :
    (∃ l', Inv l0 (keys ++ (deletedKey a).toList) s'.mem s'.pc l') ∧ s'.mem.data = s.mem.data := by
  cases a with
  | call t c =>
    obtain ⟨k, rfl⟩ := hdel
    simp only [step, ite_none_right_eq_some, some.injEq] at hs
    obtain ⟨hidle, rfl⟩ := hs
    obtain ⟨hk, hpresent⟩ := hkey k rfl
    exact ⟨⟨l, h.call hidle hk hpresent⟩, rfl⟩
  | kalloc t a =>
    obtain ⟨r, hr, rfl⟩ := map_eq_some_iff.mp hs
    have hseeks := h.seeks t
    cases hp : s.pc t <;> simp [hp, kallocStep] at hr
    rw [hp] at hseeks
    exact hseeks.elim
  | run t =>
    obtain ⟨r, hr, rfl⟩ := map_eq_some_iff.mp hs
    refine ⟨?_, advance_data hr⟩
    simp only [deletedKey, toList_none, append_nil]
    by_cases hstore : Stores (s.pc t)
    · have hseeks := h.seeks t
      cases hp : s.pc t <;> rw [hp] at hstore <;> try exact hstore.elim
      case delHeadStore v nxt =>
        rw [hp] at hr
        cases hr
        exact h.storeHead hp
      case delUnlink v prev nxt =>
        rw [hp] at hr hseeks
        cases prev with
        | none => exact hseeks.elim
        | some a =>
          cases hr
          exact h.unlink hp
    · refine ⟨l, h.advance rfl hstore ?_ ?_ hr⟩
      · intro key temp hp hw
        rw [HandOverHand, hp] at hcond
        exact hcond hw
      · intro key temp nxt hp hw
        rw [HandOverHand, hp] at hcond
        exact hcond hw

theorem deletedKeys_append (as : List (Act n)) (a : Act n) :
    deletedKeys (as ++ [a]) = deletedKeys as ++ (deletedKey a).toList := by
  cases h : deletedKey a <;> simp [deletedKeys, h]

theorem inv_initial (m : Mem) (hc : Chain m.next m.head l0)
    (hinj : ∀ a ∈ l0, ∀ b ∈ l0, m.data a = m.data b → a = b) (hfree : ∀ a, (m.lock a).writer = false) :
    Inv l0 [] m (fun _ : Fin n => .idle none) l0 where
  chain := hc
  subset := fun _ ha => ha
  inj := hinj
  seeks := fun _ => trivial
  locks := ⟨by simp [hfree, locked], by simp [locked]⟩
  owned := by simp [owns, locked, trailing]
  targets := by simp [Distinct, target]
  started := by simp [target]
  kept := by simp

/-- Every deletion of a run that keeps to the discipline takes effect, and
nothing else leaves the list. -/
theorem deleteNodeLock_exact (m : Mem) (l0 : List Addr) (hc : Chain m.next m.head l0)
    (hinj : ∀ a ∈ l0, ∀ b ∈ l0, m.data a = m.data b → a = b) (hfree : ∀ a, (m.lock a).writer = false)
    (r : Run (step (n := n))) (h0 : r.state 0 = ⟨m, fun _ => .idle none⟩)
    (hdel : ∀ i < r.length, DeleteOnly (r.act i)) (hhand : r.Meets HandOverHand)
    (i : Nat) (hi : i ≤ r.length) (hnodup : (deletedKeys (r.acts i)).Nodup)
    (hpresent : ∀ k ∈ deletedKeys (r.acts i), KeyAhead m k m.head) (hq : Quiet (r.state i)) (k : Int) :
    KeyAhead (r.state i).mem k (r.state i).mem.head ↔
      KeyAhead m k m.head ∧ k ∉ deletedKeys (r.acts i) := by
  have hmeets : r.Meets (fun s a => DeleteOnly a ∧ HandOverHand s a) := fun j hj =>
    ⟨hdel j hj, hhand j hj⟩
  have hkeys : ∀ k, KeyAhead m k m.head ↔ ∃ a ∈ l0, m.data a = k := fun k => by
    simp only [KeyAhead, hc.mem_iff]
  have hinv := r.invariant_acts (I := fun as s =>
    (deletedKeys as).Nodup → (∀ k ∈ deletedKeys as, KeyAhead m k m.head) →
      (∃ l, Inv l0 (deletedKeys as) s.mem s.pc l) ∧ s.mem.data = m.data) hmeets
    (fun _ _ => by rw [h0]; exact ⟨⟨l0, inv_initial m hc hinj hfree⟩, rfl⟩) (by
      rintro as s a t ih ⟨hd, hh⟩ hs hnd hpr
      rw [deletedKeys_append] at hnd hpr ⊢
      obtain ⟨⟨l, hl⟩, hdata⟩ := ih hnd.of_append_left (fun k hk => hpr k (mem_append_left _ hk))
      obtain ⟨hl', hdata'⟩ := inv_step hl hd hh (fun k hk => by
        rw [hk] at hnd hpr
        rw [hdata]
        refine ⟨fun hmem => ?_, (hkeys k).mp (hpr k (by simp))⟩
        exact disjoint_of_nodup_append hnd hmem (by simp)) hs
      exact ⟨hl', hdata'.trans hdata⟩) i hi hnodup hpresent
  obtain ⟨⟨l, hl⟩, hdata⟩ := hinv
  have hnone : ∀ t, target (r.state i).mem ((r.state i).pc t) = none := by
    intro t
    have ht := hq t
    cases hp : (r.state i).pc t <;> simp [hp, Pc.isIdle, target] at ht ⊢
  have hkept := hl.kept
  simp only [hnone, reduceCtorEq, exists_false, or_false, hdata] at hkept
  rw [hkeys]
  simp only [KeyAhead, ← hl.chain.mem_iff, hdata]
  constructor
  · rintro ⟨a, ha, rfl⟩
    exact ⟨⟨a, hl.subset a ha, rfl⟩, (hkept a (hl.subset a ha)).mp ha⟩
  · rintro ⟨⟨a, ha, rfl⟩, hk⟩
    exact ⟨a, (hkept a ha).mpr hk, rfl⟩

def fourNodes : Mem where
  head := some 0
  data := fun a => a
  next := fun a => if a < 3 then some (a + 1) else none
  lock := fun _ => rwLockInit
  alloc := fun a => decide (a < 4)

theorem fourNodes_chain : Chain fourNodes.next fourNodes.head [0, 1, 2, 3] :=
  .cons (.cons (.cons (.cons .nil)))

theorem fourNodes_holds {k : Int} (hk : k ∈ [2, 1]) : KeyAhead fourNodes k fourNodes.head := by
  obtain rfl | rfl : k = 2 ∨ k = 1 := by simpa using hk
  · exact ⟨2, fourNodes_chain.mem_iff.mp (by simp), rfl⟩
  · exact ⟨1, fourNodes_chain.mem_iff.mp (by simp), rfl⟩

def fourNodesStart : State 2 := ⟨fourNodes, fun _ => .idle none⟩

/-- The call for 2 has released node 1 and is about to rewrite its link when
the call for 1 unlinks that node. -/
def lostDeletion : List (Act 2) :=
  List.flatten [[.call 0 (.deleteNodeLock 2)], List.replicate 18 (.run 0), [.call 1 (.deleteNodeLock 1)],
    List.replicate 16 (.run 1), List.replicate 5 (.run 0)]

theorem deleteNodeLock_lost : ∃ r : Run (step (n := 2)), r.state 0 = fourNodesStart ∧
    (∀ i < r.length, DeleteOnly (r.act i)) ∧ deletedKeys (r.acts r.length) = [2, 1] ∧
    Quiet (r.state r.length) ∧ KeyAhead (r.state r.length).mem 2 (r.state r.length).mem.head := by
  refine ⟨Run.ofExec step fourNodesStart lostDeletion (by decide +kernel), rfl, by decide +kernel,
    by decide +kernel, by decide +kernel, 2, ?_, by decide +kernel⟩
  exact Reach.step (a := 0) (Reach.here 2)

/-- The second call finds the lock of the head taken and waits its turn. -/
def waitedTurn : List (Act 2) :=
  List.flatten [[.call 0 (.deleteNodeLock 2), .run 0, .run 0, .call 1 (.deleteNodeLock 1), .run 1, .run 1],
    List.replicate 21 (.run 0), List.replicate 16 (.run 1)]

theorem deleteNodeLock_exact_waited :
    let s := stateAt step fourNodesStart waitedTurn 43
    ∀ k, KeyAhead s.mem k s.mem.head ↔ KeyAhead fourNodes k fourNodes.head ∧ k ∉ [2, 1] :=
  deleteNodeLock_exact fourNodes [0, 1, 2, 3] fourNodes_chain (by decide) (fun _ => rfl)
    (Run.ofExec step fourNodesStart waitedTurn (by decide +kernel)) rfl (by decide +kernel) (by decide +kernel)
    43 (by decide) (by decide +kernel) (fun _ hk => fourNodes_holds hk) (by decide +kernel)

end Xv6Rcu.LockDelete

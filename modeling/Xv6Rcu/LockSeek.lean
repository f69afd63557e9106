import Xv6Rcu.LockList

namespace Xv6Rcu.LockSeek

open Links LockList Option
open RwLock (ReaderWriterLock)

variable {m : Mem} {l : List Addr}

def KeyAhead (m : Mem) (key : Int) (h : Option Addr) : Prop :=
  ∃ b, Reach m.next h b ∧ m.data b = key

/-- Where a `deleteNode_lock` call whose key is present stands relative to the
list `l`. The places it reaches only when the key is missing are excluded. -/
def Seeks (m : Mem) (l : List Addr) : Pc → Prop
  | .idle _ | .delHeadUnlock _ | .delUnlockTemp _ => True
  | .delLoad key => KeyAhead m key m.head
  | .delWrite q key temp => KeyAhead m key m.head ∧ Writes q ∧ (q = .writeDrain → m.head = some temp)
  | .delHead key temp => KeyAhead m key m.head ∧ m.head = some temp
  | .delHeadNext temp => m.head = some temp
  | .delHeadStore temp nxt => m.head = some temp ∧ m.next temp = nxt
  | .delTest key temp none => KeyAhead m key (some temp) ∧ m.data temp ≠ key ∧ m.head = some temp
  | .delTest key temp (some p) => KeyAhead m key (some temp) ∧ p ∈ l ∧ m.next p = some temp
  | .delPeek key temp _ | .delReload key temp | .delPass key temp | .delMove key temp =>
    KeyAhead m key (m.next temp) ∧ temp ∈ l
  | .delNextWrite q key temp nxt =>
    KeyAhead m key (some nxt) ∧ temp ∈ l ∧ m.next temp = some nxt ∧ Writes q
  | .delNext temp (some p) => p ∈ l ∧ m.next p = some temp
  | .delUnlink temp (some p) nxt => p ∈ l ∧ m.next p = some temp ∧ m.next temp = nxt
  | .delUnlockPrev temp p => temp ≠ p
  | _ => False

def target (m : Mem) : Pc → Option Int
  | .delLoad key | .delWrite _ key _ | .delHead key _ | .delTest key _ _ | .delPeek key _ _
  | .delReload key _ | .delNextWrite _ key _ _ | .delPass key _ | .delMove key _ => some key
  | .delHeadNext temp | .delHeadStore temp _ | .delNext temp _ | .delUnlink temp _ _ =>
    some (m.data temp)
  | _ => none

theorem KeyAhead.not_none {key : Int} : ¬ KeyAhead m key none := by
  rintro ⟨b, hb, -⟩
  exact not_reach_none hb

theorem KeyAhead.next {key : Int} {a : Addr} (h : KeyAhead m key (some a)) (ha : m.data a ≠ key) :
    KeyAhead m key (m.next a) := by
  obtain ⟨b, hb, hk⟩ := h
  obtain rfl | hb := reach_some.mp hb
  · exact absurd hk ha
  · exact ⟨b, hb, hk⟩

theorem KeyAhead.ne_none {key : Int} {h : Option Addr} (hk : KeyAhead m key h) :
    ∃ a, h = some a := by
  cases h with
  | none => exact absurd hk KeyAhead.not_none
  | some a => exact ⟨a, rfl⟩

theorem seeks_withLock (m : Mem) (lock : Addr → ReaderWriterLock) (l : List Addr) (p : Pc) :
    Seeks (m.withLock lock) l p = Seeks m l p := by
  cases p <;> rfl

theorem target_withLock (m : Mem) (lock : Addr → ReaderWriterLock) (p : Pc) :
    target (m.withLock lock) p = target m p := by
  cases p <;> rfl

def Stores : Pc → Prop
  | .delHeadStore _ _ | .delUnlink _ _ _ => True
  | _ => False

/-- Every other step of the call leaves the links alone and keeps its place
and its key. The first lock must be the lock of the node that is the head. -/
theorem Seeks.advance {p : Pc} (hs : Seeks m l p) (hc : Chain m.next m.head l) (hp : ¬ Stores p)
    (hset : ∀ key temp, p = .delWrite .writeSet key temp → (m.lock temp).writer = false →
      m.head = some temp) {r : Mem × Pc} (hr : LockList.advance m p = some r) :
    (∃ lock, r.1 = m.withLock lock) ∧ Seeks m l r.2 ∧ target m r.2 = target m p := by
  cases p <;> simp only [Seeks, Stores, not_true_eq_false] at hs hp <;>
    simp only [LockList.advance, some.injEq, reduceCtorEq] at hr
  case delLoad key =>
    obtain ⟨t, ht⟩ := hs.ne_none
    simp only [ht, some.injEq] at hr
    subst r
    exact ⟨⟨m.lock, rfl⟩, ⟨hs, .inl rfl, by simp⟩, rfl⟩
  case delWrite q key temp =>
    obtain ⟨hk, hq, hh⟩ := hs
    obtain ⟨hne, rfl | rfl⟩ | ⟨rfl, hw, rfl⟩ | ⟨rfl, rfl | rfl⟩ := lockStep_write hq hr
    · exact ⟨⟨m.lock, rfl⟩, ⟨hk, .inr (.inl rfl), by simp⟩, rfl⟩
    · exact ⟨⟨m.lock, rfl⟩, ⟨hk, .inl rfl, by simp⟩, rfl⟩
    · exact ⟨⟨_, rfl⟩, ⟨hk, .inr (.inr rfl), fun _ => hset key temp rfl hw⟩, rfl⟩
    · exact ⟨⟨m.lock, rfl⟩, ⟨hk, hh rfl⟩, rfl⟩
    · exact ⟨⟨m.lock, rfl⟩, ⟨hk, hq, hh⟩, rfl⟩
  case delHead key temp =>
    obtain ⟨hk, hh⟩ := hs
    subst r
    refine ⟨⟨m.lock, rfl⟩, ?_⟩
    by_cases hd : m.data temp = key
    · simp only [hd, if_true]
      exact ⟨hh, by simp [target, hd]⟩
    · simp only [hd, if_false]
      exact ⟨⟨hh ▸ hk, hd, hh⟩, rfl⟩
  case delHeadNext temp =>
    subst r
    exact ⟨⟨m.lock, rfl⟩, ⟨hs, rfl⟩, rfl⟩
  case delHeadUnlock temp =>
    subst r
    exact ⟨⟨_, rfl⟩, trivial, rfl⟩
  case delTest key temp prev =>
    subst r
    refine ⟨⟨m.lock, rfl⟩, ?_⟩
    cases prev with
    | none =>
      obtain ⟨hk, hd, hh⟩ := hs
      simp only [hd, if_false]
      exact ⟨⟨hk.next hd, hc.mem_iff.mpr (hh ▸ Reach.here temp)⟩, rfl⟩
    | some p =>
      obtain ⟨hk, hm, hn⟩ := hs
      by_cases hd : m.data temp = key
      · simp only [hd, if_true]
        exact ⟨⟨hm, hn⟩, by simp [target, hd]⟩
      · simp only [hd, if_false]
        exact ⟨⟨hk.next hd, hc.mem_iff.mpr ((hc.mem_iff.mp hm).succ hn)⟩, rfl⟩
  case delPeek key temp prev =>
    obtain ⟨a, ha⟩ := hs.1.ne_none
    simp only [ha, some.injEq] at hr
    subst r
    exact ⟨⟨m.lock, rfl⟩, hs, rfl⟩
  case delReload key temp =>
    obtain ⟨a, ha⟩ := hs.1.ne_none
    simp only [ha, some.injEq] at hr
    subst r
    exact ⟨⟨m.lock, rfl⟩, ⟨ha ▸ hs.1, hs.2, ha, .inl rfl⟩, rfl⟩
  case delNextWrite q key temp nxt =>
    obtain ⟨hk, hm, hn, hq⟩ := hs
    obtain ⟨hne, rfl | rfl⟩ | ⟨rfl, hw, rfl⟩ | ⟨rfl, rfl | rfl⟩ := lockStep_write hq hr
    · exact ⟨⟨m.lock, rfl⟩, ⟨hk, hm, hn, .inr (.inl rfl)⟩, rfl⟩
    · exact ⟨⟨m.lock, rfl⟩, ⟨hk, hm, hn, .inl rfl⟩, rfl⟩
    · exact ⟨⟨_, rfl⟩, ⟨hk, hm, hn, .inr (.inr rfl)⟩, rfl⟩
    · exact ⟨⟨m.lock, rfl⟩, ⟨hn ▸ hk, hm⟩, rfl⟩
    · exact ⟨⟨m.lock, rfl⟩, ⟨hk, hm, hn, hq⟩, rfl⟩
  case delPass key temp =>
    subst r
    exact ⟨⟨_, rfl⟩, hs, rfl⟩
  case delMove key temp =>
    obtain ⟨a, ha⟩ := hs.1.ne_none
    simp only [ha, some.injEq] at hr
    subst r
    exact ⟨⟨m.lock, rfl⟩, ⟨ha ▸ hs.1, hs.2, ha⟩, rfl⟩
  case delNext temp prev =>
    subst r
    cases prev with
    | none => exact hs.elim
    | some p => exact ⟨⟨m.lock, rfl⟩, ⟨hs.1, hs.2, rfl⟩, rfl⟩
  case delUnlockPrev temp prev =>
    subst r
    exact ⟨⟨_, rfl⟩, trivial, rfl⟩
  case delUnlockTemp temp =>
    subst r
    exact ⟨⟨_, rfl⟩, trivial, rfl⟩

end Xv6Rcu.LockSeek

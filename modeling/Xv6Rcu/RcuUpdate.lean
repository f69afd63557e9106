import Xv6Rcu.RcuList
import Xv6Rcu.Threads

namespace Xv6Rcu.RcuUpdate

open Transition Links Threads RcuList Function List Option

variable {n : Nat}

/-- What the two stale copies of `head_ref` must satisfy when they are used:
the node that `deleteNode` loaded before it got the lock is still in the list,
and `insert` publishes in front of the node that is the head. -/
def CopiesCurrent (s : State n) : Act n → Prop
  | .run h => ∀ t, s.cpu h = some t →
    match s.pc t with
    | .delSpin _ (some temp) => s.mem.holder = none → Reach s.mem.next s.mem.head temp
    | .insPublish new => s.mem.head = s.mem.next new
    | _ => True
  | _ => True

/-- The node that is out of the list and known to the call alone: one that is
not yet published, or one that is unlinked and not yet freed. -/
def own : Pc → Option Addr
  | .insAcquire new | .insSpin new | .insLink new | .insRelease new | .insCallSync new
  | .insSync new | .insPublish new => some new
  | .delRelease v | .delCallSync v | .delSync v | .delFree v => some v
  | _ => none

/-- Where a `deleteNode` call stands in the list `l` while it is in the lock. -/
def Stands (m : Mem n) (l : List Addr) : Pc → Prop
  | .fault | .delNext _ none | .delUnlink _ none _ => False
  | .delHead _ temp | .delHeadNext temp | .delMove _ temp => temp ∈ l
  | .delHeadStore temp nxt => temp ∈ l ∧ m.next temp = nxt
  | .delTest key temp none => temp ∈ l ∧ m.data temp ≠ key
  | .delTest _ temp (some p) | .delNext temp (some p) => temp ∈ l ∧ p ∈ l ∧ m.next p = some temp
  | .delUnlink temp (some p) nxt => temp ∈ l ∧ p ∈ l ∧ m.next p = some temp ∧ m.next temp = nxt
  | _ => True

structure Inv (m : Mem n) (pc : Fin n → Pc) (l : List Addr) : Prop where
  chain : Chain m.next m.head l
  live : ∀ a ∈ l, m.alloc a = true ∧ m.kfreed a = 0
  owned : ∀ t a, own (pc t) = some a → m.alloc a = true ∧ m.kfreed a = 0 ∧ a ∉ l
  distinct : Distinct own pc
  stands : ∀ t, Stands m l (pc t)
  lock : ∀ t, (pc t).holds = true ↔ m.holder = some t
  once : ∀ a, m.kfreed a ≤ 1
  unused : ∀ a, m.alloc a = false → m.kfreed a = 0

variable {m : Mem n} {pc : Fin n → Pc} {l : List Addr} {t : Fin n}

theorem inv_initial (hc : Chain m.next m.head l) (halloc : ∀ a ∈ l, m.alloc a = true)
    (hfree : ∀ a, m.kfreed a = 0) (hlock : m.holder = none) : Inv m (fun _ => .idle none) l where
  chain := hc
  live := fun a ha => ⟨halloc a ha, hfree a⟩
  owned := by simp [own]
  distinct := by simp [Distinct, own]
  stands := fun _ => trivial
  lock := by simp [Pc.holds, hlock]
  once := by simp [hfree]
  unused := fun a _ => hfree a

theorem Stands.frame {m' : Mem n} {l' : List Addr} {p : Pc} (hs : Stands m l p)
    (hl : ∀ a ∈ l, a ∈ l' ∧ m'.next a = m.next a ∧ m'.data a = m.data a) : Stands m' l' p := by
  cases p <;> try exact hs
  case delHead => exact (hl _ hs).1
  case delHeadNext => exact (hl _ hs).1
  case delMove => exact (hl _ hs).1
  case delHeadStore temp nxt => exact ⟨(hl _ hs.1).1, (hl _ hs.1).2.1.trans hs.2⟩
  case delTest key temp prev =>
    cases prev with
    | none => exact ⟨(hl _ hs.1).1, by rw [(hl _ hs.1).2.2]; exact hs.2⟩
    | some p => exact ⟨(hl _ hs.1).1, (hl _ hs.2.1).1, (hl _ hs.2.1).2.1.trans hs.2.2⟩
  case delNext temp prev =>
    cases prev with
    | none => exact hs
    | some p => exact ⟨(hl _ hs.1).1, (hl _ hs.2.1).1, (hl _ hs.2.1).2.1.trans hs.2.2⟩
  case delUnlink temp prev nxt =>
    cases prev with
    | none => exact hs
    | some p =>
      exact ⟨(hl _ hs.1).1, (hl _ hs.2.1).1, (hl _ hs.2.1).2.1.trans hs.2.2.1,
        (hl _ hs.1).2.1.trans hs.2.2.2⟩

theorem Stands.of_not_holds {m' : Mem n} {l' : List Addr} {p : Pc} (hs : Stands m l p)
    (hp : p.holds = false) : Stands m' l' p := by
  cases p <;> first | exact hs | cases hp

section

variable (h : Inv m pc l)

include h

theorem Inv.not_holds (ht : (pc t).holds = true) {u : Fin n} (hu : u ≠ t) :
    (pc u).holds = false := by
  by_contra hw
  have hut := ((h.lock t).mp ht).symm.trans ((h.lock u).mp (by simpa using hw))
  exact hu (some.inj hut).symm

theorem Inv.move {p q : Pc} (hp : pc t = p) (holder : Option (Fin n))
    (hstands : Stands m l q) (hown : own q = own p)
    (hlock : ∀ u, (update pc t q u).holds = true ↔ holder = some u) :
    Inv (m.setHolder holder) (update pc t q) l where
  chain := h.chain
  live := h.live
  owned := by
    simp only [same_update hp hown]
    exact h.owned
  distinct := h.distinct.same hp hown
  stands := forall_update (hstands.frame (fun _ ha => ⟨ha, rfl, rfl⟩))
    (fun u _ => (h.stands u).frame (fun _ ha => ⟨ha, rfl, rfl⟩))
  lock := hlock
  once := h.once
  unused := h.unused

theorem Inv.stay {p q : Pc} (hp : pc t = p) (hstands : Stands m l q)
    (hown : own q = own p) (hholds : q.holds = p.holds) : Inv m (update pc t q) l := by
  refine h.move hp m.holder hstands hown (fun u => ?_)
  rw [same_update hp hholds]
  exact h.lock u

theorem Inv.take {p q : Pc} (hp : pc t = p) (hstands : Stands m l q)
    (hown : own q = own p) (hfree : m.holder = none) (hq : q.holds = true) :
    Inv (m.setHolder (some t)) (update pc t q) l := by
  refine h.move hp (some t) hstands hown (fun u => ?_)
  by_cases hu : u = t
  · subst u
    simp [hq]
  · rw [update_of_ne hu, h.lock u, hfree]
    simp [Ne.symm hu]

theorem Inv.drop {p q : Pc} (hp : pc t = p) (hstands : Stands m l q)
    (hown : own q = own p) (hholds : p.holds = true) (hq : q.holds = false) :
    Inv (m.setHolder none) (update pc t q) l := by
  refine h.move hp none hstands hown (fun u => ?_)
  by_cases hu : u = t
  · subst u
    simp [hq]
  · rw [update_of_ne hu, h.not_holds (hp ▸ hholds) hu]
    simp

theorem Inv.link {new : Addr} (hp : pc t = .insLink new) :
    Inv (m.setNext new m.head) (update pc t (.insRelease new)) l := by
  have hnew : new ∉ l := (h.owned t new (by rw [hp]; rfl)).2.2
  refine ⟨h.chain.update_of_notMem hnew _, h.live, ?_, h.distinct.same hp rfl, ?_, ?_, h.once, h.unused⟩
  · simp only [same_update hp (show own (.insRelease new) = own (.insLink new) from rfl)]
    exact h.owned
  · refine forall_update trivial (fun u _ => (h.stands u).frame (fun a ha => ⟨ha, ?_, rfl⟩))
    have hne : a ≠ new := fun he => hnew (he ▸ ha)
    simp [Mem.setNext, hne]
  · intro u
    rw [same_update hp (show (Pc.insRelease new).holds = (Pc.insLink new).holds from rfl)]
    exact h.lock u

theorem Inv.publish {new : Addr} (hp : pc t = .insPublish new)
    (hhead : m.head = m.next new) :
    Inv (m.setHead (some new)) (update pc t (.idle none)) (new :: l) := by
  have hown : own (pc t) = some new := by rw [hp]; rfl
  obtain ⟨halloc, hzero, hnew⟩ := h.owned t new hown
  refine ⟨Chain.cons ?_, ?_, ?_, h.distinct.update (by simp [own]), ?_, ?_, h.once, h.unused⟩
  · exact hhead ▸ h.chain
  · exact forall_mem_cons.mpr ⟨⟨halloc, hzero⟩, h.live⟩
  · intro u a
    refine update_cases u ?_ (fun hu => ?_)
    · simp [own]
    · intro ha
      obtain ⟨hb, hc, hd⟩ := h.owned u a ha
      refine ⟨hb, hc, not_mem_cons_of_ne_of_not_mem ?_ hd⟩
      rintro rfl
      exact hu (h.distinct u t a ha hown)
  · refine forall_update trivial (fun u _ => (h.stands u).frame (fun a ha => ⟨?_, rfl, rfl⟩))
    exact mem_cons_of_mem _ ha
  · intro u
    rw [same_update hp (show (Pc.idle none).holds = (Pc.insPublish new).holds from rfl)]
    exact h.lock u

/-- The store by which `deleteNode` takes the node `v` out of the list; what is
left is `k`. -/
theorem Inv.remove {p : Pc} (hp : pc t = p) (hholds : p.holds = true)
    {m' : Mem n} {v : Addr} {k : List Addr} (hc : Chain m'.next m'.head k)
    (hv : v ∈ l) (hk : ∀ a ∈ k, a ∈ l ∧ a ≠ v) (halloc : m'.alloc = m.alloc)
    (hkfreed : m'.kfreed = m.kfreed) (hholder : m'.holder = m.holder) :
    Inv m' (update pc t (.delRelease v)) k where
  chain := hc
  live := by
    rw [halloc, hkfreed]
    exact fun a ha => h.live a (hk a ha).1
  owned := by
    rw [halloc, hkfreed]
    intro u a
    refine update_cases u ?_ (fun _ => ?_)
    · intro ha
      obtain rfl : v = a := some.inj ha
      exact ⟨(h.live v hv).1, (h.live v hv).2, fun hvk => (hk v hvk).2 rfl⟩
    · intro ha
      obtain ⟨hb, hc, hd⟩ := h.owned u a ha
      exact ⟨hb, hc, fun hak => hd (hk a hak).1⟩
  distinct := by
    refine h.distinct.update (fun u _ a ha he => ?_)
    obtain rfl : v = a := some.inj he
    exact (h.owned u v ha).2.2 hv
  stands := forall_update trivial
    (fun u hu => (h.stands u).of_not_holds (h.not_holds (hp ▸ hholds) hu))
  lock := by
    intro u
    rw [hholder, same_update hp (show (Pc.delRelease v).holds = p.holds from hholds.symm)]
    exact h.lock u
  once := by
    rw [hkfreed]
    exact h.once
  unused := by
    rw [halloc, hkfreed]
    exact h.unused

theorem Inv.storeHead {v : Addr} {nxt : Option Addr}
    (hp : pc t = .delHeadStore v nxt) :
    ∃ k, Inv (m.setHead nxt) (update pc t (.delRelease v)) k := by
  have hs := h.stands t
  rw [hp] at hs
  obtain ⟨hv, rfl⟩ := hs
  obtain ⟨l₁, l₂, rfl⟩ := append_of_mem hv
  have hnd := h.chain.nodup
  rw [nodup_middle] at hnd
  refine ⟨l₂, h.remove hp rfl h.chain.tail hv (fun a ha => ⟨by simp [ha], ?_⟩) rfl rfl rfl⟩
  rintro rfl
  exact (nodup_cons.mp hnd).1 (mem_append_right _ ha)

theorem Inv.unlink {a v : Addr} {nxt : Option Addr}
    (hp : pc t = .delUnlink v (some a) nxt) :
    ∃ k, Inv (m.setNext a nxt) (update pc t (.delRelease v)) k := by
  have hs := h.stands t
  rw [hp] at hs
  obtain ⟨hv, ha, hav, rfl⟩ := hs
  obtain ⟨l₁, l₂, rfl⟩ := h.chain.split ha hav
  exact ⟨l₁ ++ a :: l₂, h.remove hp rfl h.chain.unlink hv
    (fun b hb => h.chain.mem_unlink.mp hb) rfl rfl rfl⟩

theorem Inv.call (c : Call) (hp : (pc t).isIdle = true) :
    Inv m (update pc t c.entry) l := by
  obtain ⟨res, hres⟩ : ∃ res, pc t = .idle res := by
    cases hq : pc t <;> simp [hq, Pc.isIdle] at hp ⊢
  cases c <;> exact h.stay hres trivial rfl rfl

theorem Inv.kalloc {x : Int} {a : Addr} (hp : pc t = .insAlloc x)
    (ha : m.alloc a = false) : Inv (m.newNode a x) (update pc t (.insAcquire a)) l := by
  have hne : ∀ b, m.alloc b = true → b ≠ a := by
    rintro b hb rfl
    rw [ha] at hb
    cases hb
  have hkeep : ∀ b, m.alloc b = true → (m.newNode a x).alloc b = true := by
    intro b hb
    simp [Mem.newNode, hne b hb, hb]
  have hnew : a ∉ l := fun hl => hne a (h.live a hl).1 rfl
  refine ⟨h.chain, fun b hb => ⟨hkeep b (h.live b hb).1, (h.live b hb).2⟩, ?_, ?_, ?_, ?_, h.once, ?_⟩
  · intro u b
    refine update_cases u ?_ (fun _ => ?_)
    · intro hb
      obtain rfl : a = b := some.inj hb
      exact ⟨by simp [Mem.newNode], h.unused a ha, hnew⟩
    · intro hb
      obtain ⟨hc, hd, he⟩ := h.owned u b hb
      exact ⟨hkeep b hc, hd, he⟩
  · refine h.distinct.update (fun u _ b hb he => ?_)
    obtain rfl : a = b := some.inj he
    exact hne a (h.owned u a hb).1 rfl
  · refine forall_update trivial (fun u _ => (h.stands u).frame (fun b hb => ⟨hb, rfl, ?_⟩))
    simp [Mem.newNode, hne b (h.live b hb).1]
  · intro u
    rw [same_update hp (show (Pc.insAcquire a).holds = (Pc.insAlloc x).holds from rfl)]
    exact h.lock u
  · intro b hb
    refine h.unused b ?_
    by_contra hw
    rw [hkeep b (by simpa using hw)] at hb
    cases hb

theorem Inv.kfree {v : Addr} (hp : pc t = .delFree v) (d : Int) (x : Option Addr) :
    Inv (m.kfree v d x) (update pc t (.idle none)) l := by
  have hown : own (pc t) = some v := by rw [hp]; rfl
  obtain ⟨halloc, hzero, hv⟩ := h.owned t v hown
  have hne : ∀ a ∈ l, a ≠ v := fun a ha he => hv (he ▸ ha)
  have hcount : ∀ a, a ≠ v → (m.kfree v d x).kfreed a = m.kfreed a := by
    intro a ha
    simp [Mem.kfree, ha]
  refine ⟨h.chain.update_of_notMem hv _, ?_, ?_, h.distinct.update (by simp [own]), ?_, ?_, ?_, ?_⟩
  · intro a ha
    rw [hcount a (hne a ha)]
    exact h.live a ha
  · intro u a
    refine update_cases u ?_ (fun hu => ?_)
    · simp [own]
    · intro ha
      rw [hcount a (fun he => hu (h.distinct u t a ha (he ▸ hown)))]
      exact h.owned u a ha
  · refine forall_update trivial (fun u _ => (h.stands u).frame (fun a ha => ⟨ha, ?_, ?_⟩))
    · simp [Mem.kfree, hne a ha]
    · simp [Mem.kfree, hne a ha]
  · intro u
    rw [same_update hp (show (Pc.idle none).holds = (Pc.delFree v).holds from rfl)]
    exact h.lock u
  · intro a
    by_cases ha : a = v
    · rw [ha]
      simp [Mem.kfree, hzero]
    · rw [hcount a ha]
      exact h.once a
  · intro a ha
    rw [hcount a]
    · exact h.unused a ha
    · rintro rfl
      exact absurd halloc (by simpa [Mem.kfree] using ha)

theorem Inv.next_mem {a b : Addr} (ha : a ∈ l) (hab : m.next a = some b) : b ∈ l :=
  h.chain.mem_iff.mpr ((h.chain.mem_iff.mp ha).succ hab)

theorem Inv.advance {p : Pc} (hp : pc t = p)
    (hspin : ∀ key temp, p = .delSpin key (some temp) → m.holder = none → temp ∈ l)
    (hpub : ∀ new, p = .insPublish new → m.head = m.next new) {r : Mem n × Pc}
    (hr : RcuList.advance m t p = some r) : ∃ k, Inv r.1 (update pc t r.2) k := by
  have hs := h.stands t
  rw [hp] at hs
  cases p <;> simp only [RcuList.advance, some.injEq, reduceCtorEq] at hr
  case insAcquire new =>
    subst r
    exact ⟨l, h.stay hp trivial rfl rfl⟩
  case insSpin new =>
    cases hh : m.holder <;> simp only [hh, some.injEq] at hr <;> subst r
    · exact ⟨l, h.take hp trivial rfl hh rfl⟩
    · exact ⟨l, h.stay hp trivial rfl rfl⟩
  case insLink new =>
    subst r
    exact ⟨l, h.link hp⟩
  case insRelease new =>
    subst r
    exact ⟨l, h.drop hp trivial rfl rfl rfl⟩
  case insPublish new =>
    subst r
    exact ⟨new :: l, h.publish hp (hpub new rfl)⟩
  case delLoad key =>
    subst r
    exact ⟨l, h.stay hp trivial rfl rfl⟩
  case delAcquire key temp =>
    subst r
    exact ⟨l, h.stay hp trivial rfl rfl⟩
  case delSpin key temp =>
    cases hh : m.holder <;> simp only [hh, some.injEq] at hr <;> subst r
    · cases temp with
      | none => exact ⟨l, h.take hp trivial rfl hh rfl⟩
      | some a => exact ⟨l, h.take hp (hspin key a rfl hh) rfl hh rfl⟩
    · exact ⟨l, h.stay hp trivial rfl rfl⟩
  case delHead key temp =>
    subst r
    by_cases hd : m.data temp = key <;> simp only [hd, if_true, if_false]
    · exact ⟨l, h.stay hp hs rfl rfl⟩
    · exact ⟨l, h.stay hp ⟨hs, hd⟩ rfl rfl⟩
  case delHeadNext temp =>
    subst r
    exact ⟨l, h.stay hp ⟨hs, rfl⟩ rfl rfl⟩
  case delHeadStore temp nxt =>
    subst r
    exact h.storeHead hp
  case delTest key temp prev =>
    subst r
    by_cases hd : m.data temp = key <;> simp only [hd, if_true, if_false]
    · cases prev with
      | none => exact absurd hd hs.2
      | some p => exact ⟨l, h.stay hp hs rfl rfl⟩
    · cases prev with
      | none => exact ⟨l, h.stay hp hs.1 rfl rfl⟩
      | some p => exact ⟨l, h.stay hp hs.1 rfl rfl⟩
  case delMove key temp =>
    subst r
    cases hn : m.next temp with
    | none => exact ⟨l, h.stay hp trivial rfl rfl⟩
    | some b => exact ⟨l, h.stay hp ⟨h.next_mem hs hn, hs, hn⟩ rfl rfl⟩
  case delNone =>
    subst r
    exact ⟨l, h.drop hp trivial rfl rfl rfl⟩
  case delNext temp prev =>
    subst r
    cases prev with
    | none => exact hs.elim
    | some p => exact ⟨l, h.stay hp ⟨hs.1, hs.2.1, hs.2.2, rfl⟩ rfl rfl⟩
  case delUnlink temp prev nxt =>
    cases prev with
    | none => exact hs.elim
    | some p =>
      cases hr
      exact h.unlink hp
  case delRelease temp =>
    subst r
    exact ⟨l, h.drop hp trivial rfl rfl rfl⟩
  case seaLoad key =>
    subst r
    exact ⟨l, h.stay hp trivial rfl rfl⟩
  case seaEnter key c =>
    subst r
    cases c <;> exact ⟨l, h.stay hp trivial rfl rfl⟩
  case seaTest key c =>
    subst r
    by_cases hd : m.data c = key <;> simp only [hd, if_true, if_false] <;>
      exact ⟨l, h.stay hp trivial rfl rfl⟩
  case seaMove key c =>
    subst r
    cases hn : m.next c <;> exact ⟨l, h.stay hp trivial rfl rfl⟩

end

theorem inv_moves {s s' : State n} {a : Act n} (h : Inv s.mem s.pc l) (hcur : CopiesCurrent s a)
    (hs : Moves s t a s') : ∃ k, Inv s'.mem s'.pc k := by
  cases hs with
  | call _ c hidle => exact ⟨l, h.call c hidle⟩
  | kalloc _ x a hp ha => exact ⟨l, h.kalloc hp ha⟩
  | kfree _ v d x hp => exact ⟨l, h.kfree hp d x⟩
  | insCallSync _ new hp => exact ⟨l, h.stay hp trivial rfl rfl⟩
  | delCallSync _ v hp => exact ⟨l, h.stay hp trivial rfl rfl⟩
  | insSync _ new hp _ => exact ⟨l, h.stay hp trivial rfl rfl⟩
  | delSync _ v hp _ => exact ⟨l, h.stay hp trivial rfl rfl⟩
  | exit _ res hp => exact ⟨l, h.stay hp trivial rfl rfl⟩
  | advance _ r hcpu hr =>
    have hcond := hcur t hcpu
    refine h.advance rfl ?_ ?_ hr
    · intro key temp hp hh
      rw [hp] at hcond
      exact h.chain.mem_iff.mpr (hcond hh)
    · intro new hp
      rw [hp] at hcond
      exact hcond

theorem inv_step {s s' : State n} {a : Act n} (h : Inv s.mem s.pc l) (hcur : CopiesCurrent s a)
    (hs : step s a = some s') : ∃ k, Inv s'.mem s'.pc k := by
  obtain ⟨-, hmem, hpc, -⟩ | ⟨t, ht⟩ := step_cases hs
  · rw [hmem, hpc]
    exact ⟨l, h⟩
  · exact inv_moves h hcur ht

/-- While every copy of the head is current when it is used, no node of the
list has been passed to `kfree` and no node is passed to it twice. -/
theorem updaters_safe (m : Mem n) (l : List Addr) (hc : Chain m.next m.head l)
    (halloc : ∀ a ∈ l, m.alloc a = true) (hfree : ∀ a, m.kfreed a = 0) (hlock : m.holder = none)
    (r : Run (step (n := n))) (h0 : r.state 0 = start m) (hcur : r.Meets CopiesCurrent)
    (i : Nat) (hi : i ≤ r.length) :
    (∀ a, Reach (r.state i).mem.next (r.state i).mem.head a → (r.state i).mem.kfreed a = 0) ∧
      ∀ a, (r.state i).mem.kfreed a ≤ 1 := by
  obtain ⟨k, hk⟩ := r.invariant (I := fun s => ∃ k, Inv s.mem s.pc k) hcur
    ⟨l, by rw [h0]; exact inv_initial hc halloc hfree hlock⟩
    (fun _ _ _ ⟨_, hs⟩ ha ht => inv_step hs ha ht) i hi
  exact ⟨fun a ha => (hk.live a (hk.chain.mem_iff.mpr ha)).2, hk.once⟩

/-- Both calls have loaded the first node before either takes the lock, and
both unlink and free it. -/
def twiceFreed : List (Act 2) :=
  List.flatten [[.dispatch 0 0, .dispatch 1 1, .call 0 (.deleteNode 0), .call 1 (.deleteNode 0), .run 0,
    .run 1], List.replicate 6 (.run 0), List.replicate 6 (.run 1),
    [.run 0, .run 0, .kfree 0 1 none, .run 1, .run 1, .kfree 1 1 none]]

theorem updaters_doubleFree : ∃ r : Run (step (n := 2)), r.state 0 = start (initList 0) ∧
    (r.state r.length).mem.kfreed 0 = 2 :=
  ⟨Run.ofExec step (start (initList 0)) twiceFreed (by decide +kernel), rfl, by decide +kernel⟩

/-- The deletion has loaded the first node, which stays in the list when the
insertion puts another one in front of it. -/
def behindInsert : List (Act 2) :=
  List.flatten [[.dispatch 0 0, .dispatch 1 1, .call 0 (.insert 5), .kalloc 0 1],
    List.replicate 6 (.run 0), [.call 1 (.deleteNode 0), .run 1, .run 0], List.replicate 8 (.run 1),
    [.kfree 1 1 none]]

def behindInsertRun : Run (step (n := 2)) :=
  Run.ofExec step (start (initList 0)) behindInsert (by decide +kernel)

theorem behindInsert_current : behindInsertRun.Meets CopiesCurrent := by
  intro i hi
  change i < 22 at hi
  interval_cases i <;> first
    | trivial
    | (intro t ht; cases ht; first | trivial | rfl | exact fun _ => Reach.step (Reach.here 0))

theorem updaters_safe_behindInsert : (behindInsertRun.state 22).mem.kfreed 0 ≤ 1 :=
  (updaters_safe (initList 0) [0] (.cons .nil) (by simp [initList]) (fun _ => rfl) rfl
    behindInsertRun rfl behindInsert_current 22 (by decide)).2 0

end Xv6Rcu.RcuUpdate

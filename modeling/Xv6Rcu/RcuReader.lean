import Xv6Rcu.RcuUpdate

namespace Xv6Rcu.RcuReader

open Transition Links Threads RcuList RcuUpdate Function Option

variable {n : Nat}

/-- The node whose `data` or `next` field the next step of a `search` reads. -/
def cursor : Pc → Option Addr
  | .seaTest _ c | .seaMove _ c => some c
  | _ => none

def ReadsFreed (s : State n) : Act n → Prop
  | .run h => ∃ t c, s.cpu h = some t ∧ cursor (s.pc t) = some c ∧ s.mem.kfreed c ≠ 0
  | _ => False

/-- What the copy of `head_ref` that `search` takes before `rcu_read_lock` must
satisfy when the section opens: its node is still in the list. -/
def EntersCurrent (s : State n) : Act n → Prop
  | .run h => ∀ t, s.cpu h = some t →
    match s.pc t with
    | .seaEnter _ (some c) => Reach s.mem.next s.mem.head c
    | _ => True
  | _ => True

def fresh : Pc → Option Addr
  | .insAcquire new | .insSpin new | .insLink new | .insRelease new | .insCallSync new
  | .insSync new | .insPublish new => some new
  | _ => none

/-- The node can still be met by the search that stands at the place. -/
def Ahead (m : Mem n) (p : Pc) (a : Addr) : Prop := ∃ c, cursor p = some c ∧ Reach m.next (some c) a

def Good (m : Mem n) (pc : Fin n → Pc) (a : Addr) : Prop :=
  m.alloc a = true ∧ m.kfreed a = 0 ∧ ∀ t, fresh (pc t) ≠ some a

/-- What the grace period gives: nothing that a search can still meet has been
freed, and a deletion that has unlinked a node waits for, and then has outlived,
every search that can still meet it. -/
structure Readers (m : Mem n) (pc : Fin n → Pc) (waits : Fin n → Finset (Fin n)) : Prop where
  safe : ∀ u a, Ahead m (pc u) a → Good m pc a
  wait : ∀ t v, pc t = .delSync v → ∀ u, Ahead m (pc u) v → u ∈ waits t
  gone : ∀ t v, pc t = .delFree v → ∀ u, ¬ Ahead m (pc u) v

variable {m m' : Mem n} {pc : Fin n → Pc} {waits waits' : Fin n → Finset (Fin n)} {l : List Addr}
  {t : Fin n} {p q : Pc}

theorem own_of_fresh {a : Addr} (h : fresh p = some a) : own p = some a := by
  cases p <;> first | exact h | cases h

theorem good_of_mem (h : Inv m pc l) {a : Addr} (ha : a ∈ l) : Good m pc a :=
  ⟨(h.live a ha).1, (h.live a ha).2, fun t hf => (h.owned t a (own_of_fresh hf)).2.2 ha⟩

/-- One step, of process `t`: the searches meet nothing new but what is in the
list, and the waiting of the others goes on. -/
theorem Readers.step (h : Readers m pc waits) (hinv : Inv m pc l)
    (hahead : ∀ u a, Ahead m' (update pc t q u) a → Ahead m (pc u) a ∨ a ∈ l)
    (hgood : ∀ a, Good m pc a → (a ∈ l ∨ ∃ u, Ahead m (pc u) a) → Good m' (update pc t q) a)
    (hwaits : ∀ v u a, u ∈ waits v → Ahead m' (update pc t q u) a → v ≠ t → u ∈ waits' v)
    (hsync : ∀ v, q = .delSync v → ∀ u a, Ahead m' (update pc t q u) a → u ∈ waits' t)
    (hfree : ∀ v, q = .delFree v → ∀ u, ¬ Ahead m' (update pc t q u) v) :
    Readers m' (update pc t q) waits' where
  safe := by
    intro u a ha
    obtain hb | hb := hahead u a ha
    · exact hgood a (h.safe u a hb) (.inr ⟨u, hb⟩)
    · exact hgood a (good_of_mem hinv hb) (.inl hb)
  wait := by
    intro w v hw u hu
    by_cases hwt : w = t
    · rw [hwt, update_self] at hw
      rw [hwt]
      exact hsync v hw u v hu
    · rw [update_of_ne hwt] at hw
      obtain hb | hb := hahead u v hu
      · exact hwaits w u v (h.wait w v hw u hb) hu hwt
      · exact absurd hb (hinv.owned w v (by rw [hw]; rfl)).2.2
  gone := by
    intro w v hw u hu
    by_cases hwt : w = t
    · rw [hwt, update_self] at hw
      exact hfree v hw u hu
    · rw [update_of_ne hwt] at hw
      obtain hb | hb := hahead u v hu
      · exact h.gone w v hw u hb
      · exact absurd hb (hinv.owned w v (by rw [hw]; rfl)).2.2

theorem good_update (hp : pc t = p) (hf : ∀ a, fresh q = some a → fresh p = some a)
    (halloc : ∀ a, m.alloc a = true → m'.alloc a = true) (hkfreed : m'.kfreed = m.kfreed) {a : Addr}
    (h : Good m pc a) : Good m' (update pc t q) a := by
  obtain ⟨ha, hk, hfr⟩ := h
  refine ⟨halloc a ha, by rw [hkfreed]; exact hk, fun u => ?_⟩
  exact update_cases u (fun he => hfr t (by rw [hp]; exact hf a he)) (fun _ => hfr u)

/-- A step that writes no link, starts no grace period and ends none. A search
moves along the list or enters it. -/
structure Plain (m : Mem n) (p : Pc) (m' : Mem n) (q : Pc) : Prop where
  next : m'.next = m.next
  alloc : m'.alloc = m.alloc
  kfreed : m'.kfreed = m.kfreed
  fresh : ∀ a, fresh q = some a → fresh p = some a
  notSync : ∀ v, q ≠ .delSync v
  notFree : ∀ v, q ≠ .delFree v
  cursor : ∀ c, cursor q = some c → (∃ key, p = .seaEnter key (some c)) ∨ Ahead m p c

theorem Readers.plain (h : Readers m pc waits) (hinv : Inv m pc l) (hp : pc t = p)
    (hq : Plain m p m' q) (henter : ∀ key c, p = .seaEnter key (some c) → c ∈ l) :
    Readers m' (update pc t q) waits := by
  refine h.step hinv ?_ (fun a ha _ => good_update hp hq.fresh (by simp [hq.alloc]) hq.kfreed ha)
    (fun v u a hu _ _ => hu) (fun v hv => absurd hv (hq.notSync v)) (fun v hv => absurd hv (hq.notFree v))
  rintro u a ⟨c, hc, hr⟩
  rw [hq.next] at hr
  by_cases hu : u = t
  · subst u
    rw [update_self] at hc
    obtain ⟨key, hkey⟩ | ⟨c₀, hc₀, hr₀⟩ := hq.cursor c hc
    · have hm := hinv.chain.mem_iff.mp (henter key c hkey)
      exact .inr (hinv.chain.mem_iff.mpr (hm.trans hr))
    · exact .inl ⟨c₀, by rw [hp]; exact hc₀, hr₀.trans hr⟩
  · rw [update_of_ne hu] at hc
    exact .inl ⟨c, hc, hr⟩

theorem ahead_update (hq : cursor q = none)
    (hreach : ∀ u c, cursor (pc u) = some c → ∀ a, Reach m'.next (some c) a → Reach m.next (some c) a)
    (u : Fin n) (a : Addr) (ha : Ahead m' (update pc t q u) a) : Ahead m (pc u) a ∨ a ∈ l := by
  obtain ⟨c, hc, hr⟩ := ha
  by_cases hu : u = t
  · rw [hu, update_self, hq] at hc
    cases hc
  · rw [update_of_ne hu] at hc
    exact .inl ⟨c, hc, hreach u c hc a hr⟩

section

variable (h : Readers m pc waits) (hinv : Inv m pc l)

include h hinv

theorem Readers.link {new : Addr}
    (hp : pc t = .insLink new) :
    Readers (m.setNext new m.head) (update pc t (.insRelease new)) waits := by
  refine h.step hinv (ahead_update rfl ?_)
    (fun a ha _ => good_update hp (by simp [fresh]) (fun _ hb => hb) rfl ha)
    (fun v u a hu _ _ => hu) (by simp) (by simp)
  intro u c hc a hr
  have hnew : ¬ Reach m.next (some c) new := fun hn =>
    (h.safe u new ⟨c, hc, hn⟩).2.2 t (by rw [hp]; rfl)
  exact (reach_update_of_not_reach _ hnew).mp hr

theorem Readers.unlink {a v : Addr} {nxt : Option Addr}
    (hp : pc t = .delUnlink v (some a) nxt) :
    Readers (m.setNext a nxt) (update pc t (.delRelease v)) waits := by
  have hs := hinv.stands t
  rw [hp] at hs
  obtain ⟨-, -, hav, rfl⟩ := hs
  refine h.step hinv (ahead_update rfl (fun u c _ b hr => Reach.of_unlink hav hr))
    (fun b hb _ => good_update hp (by simp [fresh]) (fun _ hb => hb) rfl hb)
    (fun v u a hu _ _ => hu) (by simp) (by simp)

theorem Readers.kalloc {x : Int} {a : Addr}
    (ha : m.alloc a = false) :
    Readers (m.newNode a x) (update pc t (.insAcquire a)) waits := by
  refine h.step hinv (ahead_update rfl (fun u c _ b hr => hr)) ?_ (fun v u a hu _ _ => hu)
    (by simp) (by simp)
  rintro b ⟨hb, hk, hf⟩ -
  have hba : b ≠ a := by
    rintro rfl
    rw [ha] at hb
    cases hb
  refine ⟨by simp [Mem.newNode, hba, hb], hk, fun u => ?_⟩
  exact update_cases u (fun he => hba (some.inj he).symm) (fun _ => hf u)

theorem Readers.kfree {v : Addr}
    (hp : pc t = .delFree v) (d : Int) (x : Option Addr) :
    Readers (m.kfree v d x) (update pc t (.idle none)) waits := by
  have hv : v ∉ l := (hinv.owned t v (by rw [hp]; rfl)).2.2
  refine h.step hinv (ahead_update rfl ?_) ?_ (fun v u a hu _ _ => hu) (by simp) (by simp)
  · intro u c hc a hr
    exact (reach_update_of_not_reach x (fun hn => h.gone t v hp u ⟨c, hc, hn⟩)).mp hr
  · intro a hgood hmet
    have hav : a ≠ v := by
      rintro rfl
      obtain hl | ⟨u, hu⟩ := hmet
      · exact hv hl
      · exact h.gone t a hp u hu
    obtain ⟨ha, hk, hf⟩ := good_update hp (q := .idle none) (by simp [fresh]) (fun _ hb => hb) rfl hgood
    exact ⟨ha, by simpa [Mem.kfree, hav] using hk, hf⟩

/-- The start of a grace period: every section that is open now is waited for. -/
theorem Readers.callSync (hp : pc t = p)
    (hf : ∀ a, fresh q = some a → fresh p = some a) (hq : cursor q = none) (hfree : ∀ v, q ≠ .delFree v) :
    Readers m (update pc t q) (update waits t (sections pc)) := by
  refine h.step hinv (ahead_update hq (fun u c _ b hr => hr))
    (fun b hb _ => good_update hp hf (fun _ hb => hb) rfl hb) ?_ ?_ (fun v hv => absurd hv (hfree v))
  · intro v u a hu _ hvt
    rwa [update_of_ne hvt]
  · rintro v - u a ⟨c, hc, -⟩
    have hu : u ≠ t := by
      rintro rfl
      rw [update_self, hq] at hc
      cases hc
    rw [update_of_ne hu] at hc
    rw [update_self, sections, Finset.mem_filter]
    refine ⟨Finset.mem_univ u, ?_⟩
    cases hpu : pc u <;> rw [hpu] at hc <;> first | rfl | cases hc

theorem Readers.endSync {v : Addr}
    (hp : pc t = .delSync v) (hw : waits t = ∅) :
    Readers m (update pc t (.delFree v)) waits := by
  refine h.step hinv (ahead_update rfl (fun u c _ b hr => hr))
    (fun b hb _ => good_update hp (by simp [fresh]) (fun _ hb => hb) rfl hb)
    (fun v u a hu _ _ => hu) (by simp) ?_
  rintro _ ⟨⟩ u ⟨c, hc, hr⟩
  have hu : u ≠ t := by
    rintro rfl
    rw [update_self] at hc
    cases hc
  rw [update_of_ne hu] at hc
  have hmem := h.wait t v hp u ⟨c, hc, hr⟩
  rw [hw] at hmem
  cases hmem

theorem Readers.exit {res : Option Addr}
    (hp : pc t = .seaExit res) :
    Readers m (update pc t (.idle res)) (fun u => (waits u).erase t) := by
  refine h.step hinv (ahead_update rfl (fun u c _ b hr => hr))
    (fun b hb _ => good_update hp (by simp [fresh]) (fun _ hb => hb) rfl hb) ?_ (by simp) (by simp)
  rintro v u a hu ⟨c, hc, -⟩ -
  refine Finset.mem_erase.mpr ⟨?_, hu⟩
  rintro rfl
  rw [update_self] at hc
  cases hc

end

/-- The two link stores of the updaters; every other step of a call is plain. -/
theorem advance_cases {r : Mem n × Pc} (hr : RcuList.advance m t p = some r) :
    (∃ new, p = .insLink new ∧ r = (m.setNext new m.head, .insRelease new)) ∨
      (∃ v a nxt, p = .delUnlink v (some a) nxt ∧ r = (m.setNext a nxt, .delRelease v)) ∨
      Plain m p r.1 r.2 := by
  cases p <;> simp only [RcuList.advance, some.injEq, reduceCtorEq] at hr
  case insLink new => exact .inl ⟨new, rfl, hr.symm⟩
  case delUnlink v prev nxt =>
    cases prev <;> simp only [some.injEq] at hr <;> subst r
    · exact .inr (.inr ⟨rfl, rfl, rfl, by simp [fresh], by simp, by simp, by simp [cursor]⟩)
    · exact .inr (.inl ⟨v, _, nxt, rfl, rfl⟩)
  case seaEnter key c =>
    subst r
    refine .inr (.inr ?_)
    cases c with
    | none => exact ⟨rfl, rfl, rfl, by simp [fresh, searchAt], by simp [searchAt], by simp [searchAt],
        by simp [cursor, searchAt]⟩
    | some c =>
      refine ⟨rfl, rfl, rfl, by simp [fresh, searchAt], by simp [searchAt], by simp [searchAt], ?_⟩
      rintro _ ⟨⟩
      exact .inl ⟨key, rfl⟩
  case seaTest key c =>
    subst r
    refine .inr (.inr ?_)
    by_cases hd : m.data c = key <;> simp only [hd, if_true, if_false]
    · exact ⟨rfl, rfl, rfl, by simp [fresh], by simp, by simp, by simp [cursor]⟩
    · refine ⟨rfl, rfl, rfl, by simp [fresh], by simp, by simp, ?_⟩
      rintro _ ⟨⟩
      exact .inr ⟨c, rfl, Reach.here c⟩
  case seaMove key c =>
    subst r
    refine .inr (.inr ?_)
    cases hn : m.next c with
    | none => exact ⟨rfl, rfl, rfl, by simp [fresh, searchAt], by simp [searchAt], by simp [searchAt],
        by simp [cursor, searchAt]⟩
    | some d =>
      refine ⟨rfl, rfl, rfl, by simp [fresh, searchAt], by simp [searchAt], by simp [searchAt], ?_⟩
      rintro _ ⟨⟩
      exact .inr ⟨c, rfl, Reach.step (hn ▸ Reach.here d)⟩
  case delMove key temp =>
    subst r
    refine .inr (.inr ?_)
    cases m.next temp <;> exact ⟨rfl, rfl, rfl, by simp [fresh, loopAt], by simp [loopAt],
      by simp [loopAt], by simp [cursor, loopAt]⟩
  case delSpin key temp =>
    refine .inr (.inr ?_)
    cases hh : m.holder <;> simp only [hh, some.injEq] at hr <;> subst r
    · cases temp <;> exact ⟨rfl, rfl, rfl, by simp [fresh, headAt], by simp [headAt],
        by simp [headAt], by simp [cursor, headAt]⟩
    · exact ⟨rfl, rfl, rfl, by simp [fresh], by simp, by simp, by simp [cursor]⟩
  case insSpin new =>
    refine .inr (.inr ?_)
    cases hh : m.holder <;> simp only [hh, some.injEq] at hr <;> subst r <;>
      exact ⟨rfl, rfl, rfl, by simp [fresh], by simp, by simp, by simp [cursor]⟩
  case delHead key temp =>
    subst r
    refine .inr (.inr ?_)
    by_cases hd : m.data temp = key <;> simp only [hd, if_true, if_false] <;>
      exact ⟨rfl, rfl, rfl, by simp [fresh], by simp, by simp, by simp [cursor]⟩
  case delTest key temp prev =>
    subst r
    refine .inr (.inr ?_)
    by_cases hd : m.data temp = key <;> simp only [hd, if_true, if_false] <;>
      exact ⟨rfl, rfl, rfl, by simp [fresh], by simp, by simp, by simp [cursor]⟩
  all_goals
    subst r
    exact .inr (.inr ⟨rfl, rfl, rfl, by simp [fresh], by simp, by simp, by simp [cursor]⟩)

theorem readers_moves {s s' : State n} {a : Act n} (h : Readers s.mem s.pc s.waits)
    (hinv : Inv s.mem s.pc l) (henter : EntersCurrent s a) (hs : Moves s t a s') :
    Readers s'.mem s'.pc s'.waits := by
  cases hs with
  | call _ c hidle =>
    have hnone : fresh c.entry = none ∧ cursor c.entry = none := by
      cases c <;> exact ⟨rfl, rfl⟩
    refine h.plain hinv rfl ⟨rfl, rfl, rfl, by simp [hnone.1], ?_, ?_, by simp [hnone.2]⟩ ?_
    · cases c <;> simp [Call.entry]
    · cases c <;> simp [Call.entry]
    · intro key c' hp
      rw [hp] at hidle
      cases hidle
  | kalloc _ x a hp ha => exact h.kalloc hinv ha
  | kfree _ v d x hp => exact h.kfree hinv hp d x
  | insCallSync _ new hp => exact h.callSync hinv hp (by simp [fresh]) rfl (by simp)
  | delCallSync _ v hp => exact h.callSync hinv hp (by simp [fresh]) rfl (by simp)
  | insSync _ new hp _ =>
    exact h.plain hinv hp ⟨rfl, rfl, rfl, by simp [fresh], by simp, by simp, by simp [cursor]⟩ (by simp)
  | delSync _ v hp hw => exact h.endSync hinv hp hw
  | exit _ res hp => exact h.exit hinv hp
  | advance _ r hcpu hr =>
    obtain ⟨new, hp, rfl⟩ | ⟨v, b, nxt, hp, rfl⟩ | hq := advance_cases hr
    · exact h.link hinv hp
    · exact h.unlink hinv hp
    · refine h.plain hinv rfl hq (fun key c hp => ?_)
      have hcond := henter t hcpu
      rw [hp] at hcond
      exact hinv.chain.mem_iff.mpr hcond

theorem readers_step {s s' : State n} {a : Act n} (h : Readers s.mem s.pc s.waits)
    (hinv : Inv s.mem s.pc l) (henter : EntersCurrent s a) (hs : step s a = some s') :
    Readers s'.mem s'.pc s'.waits := by
  obtain ⟨-, hmem, hpc, hwaits⟩ | ⟨t, ht⟩ := step_cases hs
  · rw [hmem, hpc, hwaits]
    exact h
  · exact readers_moves h hinv henter ht

/-- While every copy of the head is current when it is used, no step of a
search reads a freed node. -/
theorem search_safe (m : Mem n) (l : List Addr) (hc : Chain m.next m.head l)
    (halloc : ∀ a ∈ l, m.alloc a = true) (hfree : ∀ a, m.kfreed a = 0) (hlock : m.holder = none)
    (r : Run (step (n := n))) (h0 : r.state 0 = start m) (hcur : r.Meets CopiesCurrent)
    (henter : r.Meets EntersCurrent) (i : Nat) (hi : i < r.length) :
    ¬ ReadsFreed (r.state i) (r.act i) := by
  have hmeets : r.Meets (fun s a => CopiesCurrent s a ∧ EntersCurrent s a) := fun j hj =>
    ⟨hcur j hj, henter j hj⟩
  have hstart : Readers (start m).mem (start m).pc (start m).waits := by
    refine ⟨?_, ?_, ?_⟩ <;> simp [start, Ahead, cursor]
  obtain ⟨⟨k, hk⟩, hread⟩ := r.invariant
    (I := fun s => (∃ k, Inv s.mem s.pc k) ∧ Readers s.mem s.pc s.waits) hmeets
    (by rw [h0]; exact ⟨⟨l, inv_initial hc halloc hfree hlock⟩, hstart⟩)
    (fun s a s' ⟨⟨k, hk⟩, hread⟩ ⟨ha, he⟩ hs => ⟨inv_step hk ha hs, readers_step hread hk he hs⟩)
    i (le_of_lt hi)
  cases r.act i with
  | run h =>
    rintro ⟨t, c, -, hct, hfreed⟩
    exact hfreed (hread.safe t c ⟨c, hct, Reach.here c⟩).2.1
  | _ => exact id

/-- The search is preempted between its load of `head_ref` and
`rcu_read_lock`; the node is unlinked, a grace period passes and the node is
freed before the search goes on. -/
def preemptedSearch : List (Act 2) :=
  List.flatten [[.dispatch 0 0, .call 0 (.search 7), .run 0, .preempt 0, .dispatch 1 1,
    .call 1 (.deleteNode 0)], List.replicate 9 (.run 1), [.kfree 1 1 none, .dispatch 0 0, .run 0, .run 0]]

theorem search_readsFreed : ∃ r : Run (step (n := 2)), r.state 0 = start (initList 0) ∧
    ∃ i < r.length, ReadsFreed (r.state i) (r.act i) := by
  refine ⟨Run.ofExec step (start (initList 0)) preemptedSearch (by decide +kernel), rfl, 18,
    by decide, 0, 0, ?_, ?_, ?_⟩
  · decide +kernel
  · decide +kernel
  · decide +kernel

/-- The search reads the node after it was unlinked; the grace period of the
deletion waits for it. -/
def waitedFor : List (Act 2) :=
  List.flatten [[.dispatch 0 0, .dispatch 1 1, .call 0 (.search 7), .run 0, .run 0,
    .call 1 (.deleteNode 0)], List.replicate 8 (.run 1), List.replicate 3 (.run 0), [.run 1, .kfree 1 1 none]]

def waitedForRun : Run (step (n := 2)) :=
  Run.ofExec step (start (initList 0)) waitedFor (by decide +kernel)

theorem waitedFor_current : waitedForRun.Meets CopiesCurrent ∧ waitedForRun.Meets EntersCurrent := by
  constructor
  all_goals
    intro i hi
    change i < 19 at hi
    interval_cases i <;> first
      | trivial
      | (intro t ht; cases ht; first | trivial | exact Reach.here 0 | exact fun _ => Reach.here 0)

theorem search_safe_waitedFor : ¬ ReadsFreed (waitedForRun.state 14) (waitedForRun.act 14) :=
  search_safe (initList 0) [0] (.cons .nil) (by simp [initList]) (fun _ => rfl) rfl waitedForRun rfl
    waitedFor_current.1 waitedFor_current.2 14 (by decide)

end Xv6Rcu.RcuReader

import Xv6Rcu.RcuUpdate

namespace Xv6Rcu.RcuInsert

open Transition Links Threads RcuList RcuUpdate Function

variable {n : Nat}

def insertedValue : Act n → Option Int
  | .call _ (.insert x) => some x
  | _ => none

def insertedValues (as : List (Act n)) : Multiset Int := ↑(as.filterMap insertedValue)

def InsertOnly : Act n → Prop
  | .call _ c => ∃ x, c = .insert x
  | _ => True

instance : DecidablePred (InsertOnly (n := n))
  | .call _ (.insert x) => isTrue ⟨x, rfl⟩
  | .call _ (.deleteNode _) => isFalse (fun h => by cases h with | intro _ h => cases h)
  | .call _ (.search _) => isFalse (fun h => by cases h with | intro _ h => cases h)
  | .dispatch _ _ | .preempt _ | .kalloc _ _ | .kfree _ _ _ | .run _ => isTrue trivial

/-- The store that publishes a node finds the head that the node was linked to. -/
def AtHead (m : Mem n) : Pc → Prop
  | .insPublish new => m.head = m.next new
  | _ => True

instance (m : Mem n) (p : Pc) : Decidable (AtHead m p) := by
  unfold AtHead
  split <;> infer_instance

def PublishesAtHead (s : State n) : Act n → Prop
  | .run h => ∀ t, s.cpu h = some t → AtHead s.mem (s.pc t)
  | _ => True

instance (s : State n) (a : Act n) : Decidable (PublishesAtHead s a) := by
  unfold PublishesAtHead
  split <;> infer_instance

def HoldsValues (m : Mem n) (xs : Multiset Int) : Prop :=
  ∃ l, Chain m.next m.head l ∧ (↑(l.map m.data) : Multiset Int) = xs

def pending (m : Mem n) : Pc → Multiset Int
  | .insAlloc x => {x}
  | .insAcquire new | .insSpin new | .insLink new | .insRelease new | .insCallSync new
  | .insSync new | .insPublish new => {m.data new}
  | _ => 0

def Inserts : Pc → Prop
  | .idle _ | .insAlloc _ | .insAcquire _ | .insSpin _ | .insLink _ | .insRelease _ | .insCallSync _
  | .insSync _ | .insPublish _ => True
  | _ => False

/-- The invariant of a run of insertions: what is in the list and what is
pending add up to `total`. -/
structure Holds (total : Multiset Int) (m : Mem n) (pc : Fin n → Pc) (l : List Addr) : Prop where
  inv : Inv m pc l
  inserts : ∀ t, Inserts (pc t)
  values : (↑(l.map m.data) : Multiset Int) + ∑ t, pending m (pc t) = total

variable {total : Multiset Int} {m : Mem n} {pc : Fin n → Pc} {l : List Addr} {t : Fin n}

section

variable (h : Holds total m pc l)

include h

theorem Holds.keep {m' : Mem n} {p q : Pc} (hp : pc t = p)
    (hinv : Inv m' (update pc t q) l) (hq : Inserts q) (hdata : m'.data = m.data)
    (hpend : pending m q = pending m p) : Holds total m' (update pc t q) l where
  inv := hinv
  inserts := forall_update hq (fun u _ => h.inserts u)
  values := by
    have heq : ∀ p, pending m' p = pending m p := by
      intro p
      cases p <;> simp only [pending, hdata]
    simp only [heq, same_update hp hpend, hdata]
    exact h.values

theorem Holds.publish {new : Addr} (hp : pc t = .insPublish new)
    (hhead : m.head = m.next new) :
    Holds total (m.setHead (some new)) (update pc t (.idle none)) (new :: l) where
  inv := h.inv.publish hp hhead
  inserts := forall_update trivial (fun u _ => h.inserts u)
  values := by
    have heq : ∀ p, pending (m.setHead (some new)) p = pending m p := by
      intro p
      cases p <;> rfl
    simp only [heq]
    rw [← h.values, ← sum_settle hp (show pending m (.idle none) = 0 from rfl), List.map_cons,
      ← Multiset.cons_coe, ← Multiset.singleton_add]
    exact congrArg (· + _) (add_comm _ _)

theorem Holds.kalloc {x : Int} {a : Addr} (hp : pc t = .insAlloc x)
    (ha : m.alloc a = false) :
    Holds total (m.newNode a x) (update pc t (.insAcquire a)) l where
  inv := h.inv.kalloc hp ha
  inserts := forall_update trivial (fun u _ => h.inserts u)
  values := by
    have hne : ∀ b, m.alloc b = true → (m.newNode a x).data b = m.data b := by
      intro b hb
      have hba : b ≠ a := by
        rintro rfl
        rw [ha] at hb
        cases hb
      simp [Mem.newNode, hba]
    have hdata : l.map (m.newNode a x).data = l.map m.data :=
      List.map_congr_left (fun b hb => hne b (h.inv.live b hb).1)
    have hpend : ∀ u, pending (m.newNode a x) (update pc t (.insAcquire a) u) =
        pending m (pc u) := by
      intro u
      by_cases hu : u = t
      · subst u
        simp [hp, pending, Mem.newNode]
      · rw [update_of_ne hu]
        have hown := h.inv.owned u
        cases hq : pc u <;> rw [hq] at hown <;> try rfl
        all_goals simp only [pending, hne _ (hown _ rfl).1]
    simp only [hdata, hpend]
    exact h.values

theorem Holds.call (x : Int) (hp : (pc t).isIdle = true) :
    Holds (total + {x}) m (update pc t (.insAlloc x)) l where
  inv := h.inv.call (.insert x) hp
  inserts := forall_update trivial (fun u _ => h.inserts u)
  values := by
    obtain ⟨res, hres⟩ : ∃ res, pc t = .idle res := by
      cases hq : pc t <;> simp [hq, Pc.isIdle] at hp ⊢
    rw [sum_begin hres (show pending m (.idle res) = 0 from rfl), ← add_assoc, h.values]
    rfl

theorem Holds.advance {p : Pc} (hp : pc t = p)
    (hpub : ∀ new, p = .insPublish new → m.head = m.next new) {r : Mem n × Pc}
    (hr : RcuList.advance m t p = some r) : ∃ k, Holds total r.1 (update pc t r.2) k := by
  have hins := h.inserts t
  rw [hp] at hins
  cases p <;> try exact hins.elim
  case idle => cases hr
  case insAlloc => cases hr
  case insAcquire new =>
    cases hr
    exact ⟨l, h.keep hp (h.inv.stay hp trivial rfl rfl) trivial rfl rfl⟩
  case insSpin new =>
    cases hh : m.holder <;> simp only [RcuList.advance, hh, Option.some.injEq] at hr <;> subst r
    · exact ⟨l, h.keep hp (h.inv.take hp trivial rfl hh rfl) trivial rfl rfl⟩
    · exact ⟨l, h.keep hp (h.inv.stay hp trivial rfl rfl) trivial rfl rfl⟩
  case insLink new =>
    cases hr
    exact ⟨l, h.keep hp (h.inv.link hp) trivial rfl rfl⟩
  case insRelease new =>
    cases hr
    exact ⟨l, h.keep hp (h.inv.drop hp trivial rfl rfl rfl) trivial rfl rfl⟩
  case insCallSync => cases hr
  case insSync => cases hr
  case insPublish new =>
    cases hr
    exact ⟨new :: l, h.publish hp (hpub new rfl)⟩

end

theorem insertedValues_append (as : List (Act n)) (a : Act n) :
    insertedValues (as ++ [a]) = insertedValues as + ↑(insertedValue a).toList := by
  rw [insertedValues, List.filterMap_append, ← Multiset.coe_add]
  cases h : insertedValue a <;> simp [insertedValues, h]

theorem Holds.moves {s s' : State n} {a : Act n} (h : Holds total s.mem s.pc l)
    (hpub : PublishesAtHead s a) (hcall : ∀ g c, a ≠ .call g c) (hs : Moves s t a s') :
    ∃ k, Holds total s'.mem s'.pc k := by
  have hplace := h.inserts t
  cases hs with
  | call g c _ => exact absurd rfl (hcall g c)
  | kalloc _ x a hp ha => exact ⟨l, h.kalloc hp ha⟩
  | kfree _ v d x hp => exact (hp ▸ hplace : Inserts (.delFree v)).elim
  | insCallSync _ new hp =>
    exact ⟨l, h.keep hp (h.inv.stay hp trivial rfl rfl) trivial rfl rfl⟩
  | delCallSync _ v hp => exact (hp ▸ hplace : Inserts (.delCallSync v)).elim
  | insSync _ new hp _ => exact ⟨l, h.keep hp (h.inv.stay hp trivial rfl rfl) trivial rfl rfl⟩
  | delSync _ v hp _ => exact (hp ▸ hplace : Inserts (.delSync v)).elim
  | exit _ res hp => exact (hp ▸ hplace : Inserts (.seaExit res)).elim
  | advance _ r hcpu hr =>
    refine h.advance rfl (fun new hp => ?_) hr
    have hcond := hpub t hcpu
    rw [hp] at hcond
    exact hcond

theorem holds_step {s s' : State n} {a : Act n} (h : Holds total s.mem s.pc l) (hins : InsertOnly a)
    (hpub : PublishesAtHead s a) (hs : step s a = some s') :
    ∃ k, Holds (total + ↑(insertedValue a).toList) s'.mem s'.pc k := by
  cases a with
  | call g c =>
    obtain ⟨x, rfl⟩ := hins
    obtain ⟨hf, -⟩ | ⟨t, ht⟩ := step_cases hs
    · exact hf.elim
    · cases ht with
      | call _ _ hidle => exact ⟨l, h.call x hidle⟩
  | _ =>
    simp only [insertedValue, Option.toList_none, Multiset.coe_nil, add_zero]
    obtain ⟨-, hmem, hpc, -⟩ | ⟨t, ht⟩ := step_cases hs
    · rw [hmem, hpc]
      exact ⟨l, h⟩
    · exact h.moves hpub (by simp) ht

/-- Insertions that publish at the head they were linked to lose nothing. -/
theorem insert_keeps (m : Mem n) (l : List Addr) (hc : Chain m.next m.head l)
    (halloc : ∀ a ∈ l, m.alloc a = true) (hfree : ∀ a, m.kfreed a = 0) (hlock : m.holder = none)
    (r : Run (step (n := n))) (h0 : r.state 0 = start m)
    (hins : ∀ i < r.length, InsertOnly (r.act i)) (hpub : r.Meets PublishesAtHead)
    (i : Nat) (hi : i ≤ r.length) (hq : Quiet (r.state i)) :
    HoldsValues (r.state i).mem (↑(l.map m.data) + insertedValues (r.acts i)) := by
  have hmeets : r.Meets (fun s a => InsertOnly a ∧ PublishesAtHead s a) := fun j hj =>
    ⟨hins j hj, hpub j hj⟩
  obtain ⟨k, hk⟩ := r.invariant_acts
    (I := fun as s => ∃ k, Holds (↑(l.map m.data) + insertedValues as) s.mem s.pc k) hmeets (by
      refine ⟨l, ?_, ?_, ?_⟩
      · rw [h0]
        exact inv_initial hc halloc hfree hlock
      · rw [h0]
        exact fun _ => trivial
      · rw [h0]
        simp [start, pending, insertedValues]) (by
      rintro as s a t ⟨k, hk⟩ ⟨ha, hp⟩ hs
      rw [insertedValues_append, ← add_assoc]
      exact holds_step hk ha hp hs) i hi
  have hpend : ∀ t, pending (r.state i).mem ((r.state i).pc t) = 0 := by
    intro t
    have ht := hq t
    cases hp : (r.state i).pc t <;> simp [hp, Pc.isIdle, pending] at ht ⊢
  refine ⟨k, hk.inv.chain, ?_⟩
  have hvalues := hk.values
  simpa only [hpend, Finset.sum_const_zero, add_zero] using hvalues

/-- Both calls link to the first node, and the second one to publish drops the
node of the first. -/
def overlapping : List (Act 2) :=
  List.flatten [[.dispatch 0 0, .dispatch 1 1, .call 0 (.insert 1), .kalloc 0 1],
    List.replicate 4 (.run 0), [.call 1 (.insert 2), .kalloc 1 2], List.replicate 4 (.run 1),
    List.replicate 3 (.run 0), List.replicate 3 (.run 1)]

theorem insert_lost : ∃ r : Run (step (n := 2)), r.state 0 = start (initList 0) ∧
    (∀ i < r.length, InsertOnly (r.act i)) ∧ Quiet (r.state r.length) ∧
    ¬ HoldsValues (r.state r.length).mem ({0} + insertedValues (r.acts r.length)) := by
  refine ⟨Run.ofExec step (start (initList 0)) overlapping (by decide +kernel), rfl, by decide +kernel,
    by decide +kernel, ?_⟩
  rintro ⟨l, hl, hv⟩
  obtain rfl : l = [2, 0] := hl.unique (.cons (.cons .nil))
  exact absurd (congrArg Multiset.card hv) (by decide +kernel)

/-- One insertion links while the other waits for its grace period to publish. -/
def inTurn : List (Act 2) :=
  List.flatten [[.dispatch 0 0, .dispatch 1 1, .call 0 (.insert 1), .kalloc 0 1, .call 1 (.insert 1),
    .kalloc 1 2], List.replicate 7 (.run 0), List.replicate 7 (.run 1)]

theorem insert_keeps_inTurn :
    HoldsValues (stateAt step (start (initList (n := 2) 0)) inTurn 20).mem ({0} + {1, 1}) :=
  insert_keeps (initList 0) [0] (.cons .nil) (by simp [initList]) (fun _ => rfl) rfl
    (Run.ofExec step (start (initList 0)) inTurn (by decide +kernel)) rfl (by decide +kernel) (by decide +kernel) 20
    (by decide) (by decide +kernel)

end Xv6Rcu.RcuInsert

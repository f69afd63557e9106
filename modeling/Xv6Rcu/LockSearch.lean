import Xv6Rcu.LockUpdater

namespace Xv6Rcu.LockSearch

open Transition Links Edits LockList LockSeek LockUpdater Function
open RwLock (ReaderWriterLock rwLockInit)

variable {n : Nat} {m : Mem} {w t : Fin n}

/-- The node a search stands on: it was in the list since the call began, and
what stays in the list under the key is still ahead. -/
structure Walks (v : Nat → View Addr) (data : Addr → Int) (i j : Nat) (key : Int) (c : Addr) :
    Prop where
  seen : Seen v i j c
  ahead : ∀ b, Stays v i j b → data b = key → Reach (v j).next (some c) b

def Reads (v : Nat → View Addr) (data : Addr → Int) (i j : Nat) (key : Int) : Pc → Prop
  | .seaLoad k => k = key
  | .seaRead q k c => k = key ∧ Walks v data i j key c ∧ Reading q
  | .seaTest k c => k = key ∧ Walks v data i j key c
  | .seaPass k c | .seaMove k c => k = key ∧ Walks v data i j key c ∧ data c ≠ key
  | .seaFound c | .idle (some c) => Seen v i j c ∧ data c = key
  | .idle none => ∀ b, Stays v i j b → data b ≠ key
  | _ => False

variable {v : Nat → View Addr} {data data' : Addr → Int} {i j : Nat} {key : Int} {p : Pc}

theorem Walks.succ {c : Addr} (hw : Walks v data i j key c) (hv : Edited v i (j + 1))
    (hdata : ∀ a, (v j).pub a → data' a = data a) : Walks v data' i (j + 1) key c where
  seen := hw.seen.mono
  ahead := by
    intro b hb hk
    have hij : i ≤ j := by
      obtain ⟨m, hi, hj, -⟩ := hw.seen
      omega
    have hlisted := hb j hij (by omega)
    rw [hdata b ((hv.proper j hij (by omega)).listed_pub b hlisted)] at hk
    exact reach_edit hv hw.seen (hb (j + 1) (by omega) (by omega)) (hw.ahead b hb.of_succ hk)

theorem Reads.succ (hp : Reads v data i j key p) (hidle : p.isIdle = false)
    (hv : Edited v i (j + 1)) (hdata : ∀ a, (v j).pub a → data' a = data a) :
    Reads v data' i (j + 1) key p := by
  have hkeep : ∀ c, Seen v i j c → data' c = data c := fun c hc => hdata c (hc.pub hv.of_succ)
  cases p <;> try exact hp.elim
  case idle => cases hidle
  case seaLoad => exact hp
  case seaRead => exact ⟨hp.1, hp.2.1.succ hv hdata, hp.2.2⟩
  case seaTest => exact ⟨hp.1, hp.2.succ hv hdata⟩
  case seaFound c => exact ⟨hp.1.mono, (hkeep c hp.1).trans hp.2⟩
  case seaPass k c =>
    refine ⟨hp.1, hp.2.1.succ hv hdata, ?_⟩
    rw [hkeep c hp.2.1.seen]
    exact hp.2.2
  case seaMove k c =>
    refine ⟨hp.1, hp.2.1.succ hv hdata, ?_⟩
    rw [hkeep c hp.2.1.seen]
    exact hp.2.2

theorem Reads.advance (hp : Reads v m.data i j key p) (hij : i ≤ j) (hv : Edited v i j)
    (hhead : (v j).head = m.head) (hnext : (v j).next = m.next) {r : Mem × Pc}
    (hr : LockList.advance m p = some r) : Reads v m.data i j key r.2 := by
  cases p <;> try exact hp.elim
  case idle => cases hr
  case seaLoad k =>
    cases hr
    obtain rfl : k = key := hp
    have hlisted : ∀ b, Stays v i j b → Reach (v j).next m.head b := fun b hb =>
      hhead ▸ hb j hij le_rfl
    cases hh : m.head with
    | none =>
      rw [hh] at hlisted
      exact fun b hb _ => not_reach_none (hlisted b hb)
    | some c =>
      rw [hh] at hlisted hhead
      refine ⟨rfl, ⟨Seen.now hij ?_, fun b hb _ => hlisted b hb⟩, .inl rfl⟩
      rw [View.Listed, hhead]
      exact Reach.here c
  case seaRead q k c =>
    rw [LockList.advance] at hr
    obtain h | ⟨q', hq', h⟩ := lockStep_read hp.2.2 hr <;> rw [h]
    · exact ⟨hp.1, hp.2.1⟩
    · exact ⟨hp.1, hp.2.1, hq'⟩
  case seaTest k c =>
    cases hr
    obtain ⟨rfl, hw⟩ := hp
    by_cases hd : m.data c = k
    · simp only [hd, if_true]
      exact ⟨hw.seen, hd⟩
    · simp only [hd, if_false]
      exact ⟨rfl, hw, hd⟩
  case seaFound c =>
    cases hr
    exact hp
  case seaPass k c =>
    cases hr
    exact hp
  case seaMove k c =>
    cases hr
    obtain ⟨rfl, hw, hd⟩ := hp
    have hahead : ∀ b, Stays v i j b → m.data b = k → Reach (v j).next (m.next c) b := by
      intro b hb hk
      obtain rfl | hr := reach_some.mp (hw.ahead b hb hk)
      · exact absurd hk hd
      · exact hnext ▸ hr
    cases hn : m.next c with
    | none =>
      rw [hn] at hahead
      exact fun b hb hk => not_reach_none (hahead b hb hk)
    | some d =>
      rw [hn] at hahead
      exact ⟨rfl, ⟨hw.seen.next hv (hnext ▸ hn), hahead⟩, .inl rfl⟩

/-- The call that stands at the place returns if its process runs alone. -/
inductive Returns : Mem → Pc → Prop
  | idle (m : Mem) (res : Option Addr) : Returns m (.idle res)
  | step {m : Mem} {p : Pc} {r : Mem × Pc} :
      LockList.advance m p = some r → Returns r.1 r.2 → Returns m p

theorem exec_of_returns {s : State n} (h : Returns s.mem (s.pc t)) :
    ∃ k s', exec step s (List.replicate k (.run t)) = some s' ∧
      (s'.pc t).isIdle = true := by
  generalize hm : s.mem = m at h
  generalize hp : s.pc t = p at h
  induction h generalizing s with
  | idle m res => exact ⟨0, s, rfl, by rw [hp]; rfl⟩
  | @step m p r hr _ ih =>
    obtain ⟨k, s', hk, hs'⟩ := @ih ⟨r.1, update s.pc t r.2⟩ rfl (update_self _ _ _)
    refine ⟨k + 1, s', ?_, hs'⟩
    rw [List.replicate_succ, exec, step, hm, hp, hr]
    exact hk

def Free (m : Mem) : Prop := ∀ a, (m.lock a).writer = false

theorem Free.setLock (hf : Free m) (a : Addr) {l : ReaderWriterLock} (hl : l.writer = false) :
    Free (m.setLock a l) := by
  intro b
  by_cases hb : b = a
  · subst b
    simpa [Mem.setLock, Mem.withLock] using hl
  · simpa [Mem.setLock, Mem.withLock, hb] using hf b

section Alone

variable {c : Addr}

/-- From the node `c` on, the call goes through whatever readers do. -/
def Goes (m : Mem) (key : Int) (c : Addr) : Prop :=
  ∀ m', m'.next = m.next → Free m' → Returns m' (.seaMove key c)

section

variable (hg : Goes m key c) (hf : Free m)

include hg hf

theorem Goes.seaPass : Returns m (.seaPass key c) :=
  .step rfl (hg _ rfl (hf.setLock c (hf c)))

theorem Goes.seaTest : Returns m (.seaTest key c) := by
  refine .step rfl ?_
  by_cases hd : m.data c = key <;> simp only [hd, if_true, if_false]
  · exact .step rfl (.idle _ _)
  · exact hg.seaPass hf

theorem Goes.readCheck :
    Returns m (.seaRead .readCheck key c) := by
  refine .step (r := (m.setLock c (m.lock c), .seaTest key c)) ?_ ?_
  · simp [LockList.advance, lockStep, RwLock.advance, hf c]
  · rw [Mem.setLock_self]
    exact hg.seaTest hf

theorem Goes.readAdd : Returns m (.seaRead .readAdd key c) := by
  refine .step rfl (Goes.readCheck ?_ (hf.setLock c (hf c)))
  exact fun m' hm' hf' => hg m' hm' hf'

theorem Goes.readWait : Returns m (.seaRead .readWait key c) := by
  refine .step (r := (m.setLock c (m.lock c), .seaRead .readAdd key c)) ?_ ?_
  · simp [LockList.advance, lockStep, RwLock.advance, hf c]
  · rw [Mem.setLock_self]
    exact hg.readAdd hf

theorem Goes.seaRead {q : RwLock.Pc} (hq : Reading q) :
    Returns m (.seaRead q key c) := by
  obtain rfl | rfl | rfl | rfl := hq
  · exact hg.readAdd hf
  · exact hg.readCheck hf
  · refine .step rfl (Goes.readWait ?_ (hf.setLock c (hf c)))
    exact fun m' hm' hf' => hg m' hm' hf'
  · exact hg.readWait hf

end

theorem returns_searchAt {h : Option Addr} {l : List Addr} (hc : Chain m.next h l) (hf : Free m) :
    Returns m (searchAt key h) := by
  induction l generalizing m h with
  | nil =>
    cases hc
    exact .idle _ _
  | cons c l ih =>
    cases hc with
    | cons hc =>
      refine Goes.readAdd (fun m' hm' hf' => .step rfl ?_) hf
      exact ih (hm' ▸ hc) hf'

theorem goes_of_chain {l : List Addr} (hc : Chain m.next (some c) l) : Goes m key c := by
  cases hc with
  | cons hc =>
    refine fun m' hm' hf' => .step rfl ?_
    exact returns_searchAt (hm' ▸ hc) hf'

theorem Reads.returns (hp : Reads v m.data i j key p) (hv : Edited v i j)
    (hproper : (v j).Proper) (hhead : (v j).head = m.head) (hnext : (v j).next = m.next)
    (hf : Free m) : Returns m p := by
  have hgo : ∀ c, Seen v i j c → Goes m key c := by
    intro c hc
    obtain ⟨l, hl⟩ := hc.chain hv
    rw [hnext] at hl
    exact goes_of_chain hl
  cases p <;> try exact hp.elim
  case idle => exact .idle _ _
  case seaLoad k =>
    obtain ⟨l, hl⟩ := hproper.chain
    rw [hhead, hnext] at hl
    exact .step rfl (returns_searchAt hl hf)
  case seaRead q k c =>
    obtain ⟨rfl, hw, hq⟩ := hp
    exact (hgo c hw.seen).seaRead hf hq
  case seaTest k c =>
    obtain ⟨rfl, hw⟩ := hp
    exact (hgo c hw.seen).seaTest hf
  case seaFound => exact .step rfl (.idle _ _)
  case seaPass k c =>
    obtain ⟨rfl, hw, -⟩ := hp
    exact (hgo c hw.seen).seaPass hf
  case seaMove k c =>
    obtain ⟨rfl, hw, -⟩ := hp
    exact hgo c hw.seen m rfl hf

end Alone

section Call

variable {r : Run (step (n := n))}

def viewAt (w : Fin n) (r : Run (step (n := n))) (j : Nat) : View Addr :=
  view w (r.state j).mem (r.state j).pc

theorem moves_at {l : List Addr} (hquiet : Quiet (r.state 0))
    (hl : Chain (r.state 0).mem.next (r.state 0).mem.head l)
    (halloc : ∀ a ∈ l, (r.state 0).mem.alloc a = true) (hone : r.Meets (OneUpdater w)) :
    (∀ j ≤ r.length, ∃ l, Inv w (r.state j).mem (r.state j).pc l) ∧
      ∀ j < r.length, Moves w (r.state j).mem (r.state j).pc (r.state (j + 1)).mem (r.state (j + 1)).pc := by
  have hidle : ∀ t, ∃ res, (r.state 0).pc t = .idle res := by
    intro t
    have ht := hquiet t
    cases hp : (r.state 0).pc t <;> simp [hp, Pc.isIdle] at ht ⊢
  have hinv : ∀ j ≤ r.length, ∃ l, Inv w (r.state j).mem (r.state j).pc l := by
    refine r.invariant (I := fun s => ∃ l, Inv w s.mem s.pc l) hone ⟨l, hl, halloc, ?_, ?_⟩ ?_
    · obtain ⟨res, hres⟩ := hidle w
      rw [hres]
      trivial
    · intro t _
      obtain ⟨res, hres⟩ := hidle t
      rw [hres]
      trivial
    · rintro s a s' ⟨l, hs⟩ ha hstep
      exact (inv_step hs ha hstep).inv
  refine ⟨hinv, fun j hj => ?_⟩
  obtain ⟨l, hs⟩ := hinv j (by omega)
  exact inv_step hs (hone j hj) (r.next j hj)

theorem edited_at (hinv : ∀ j ≤ r.length, ∃ l, Inv w (r.state j).mem (r.state j).pc l)
    (hmoves : ∀ j < r.length,
      Moves w (r.state j).mem (r.state j).pc (r.state (j + 1)).mem (r.state (j + 1)).pc)
    (i : Nat) {j : Nat} (hj : j ≤ r.length) : Edited (viewAt w r) i j where
  proper := by
    intro m _ hm
    obtain ⟨l, hs⟩ := hinv m (by omega)
    exact hs.proper
  edit := fun m _ hm => (hmoves m (by omega)).edit

theorem pc_step {s s' : State n} {a : Act n} (hs : step s a = some s')
    (hidle : (s.pc t).isIdle = false) (hsea : Searches (s.pc t)) :
    s'.pc t = s.pc t ∨ ∃ r, LockList.advance s.mem (s.pc t) = some r ∧ s'.pc t = r.2 := by
  cases a with
  | call u c =>
    simp only [step, Option.ite_none_right_eq_some, Option.some.injEq] at hs
    obtain ⟨hu, rfl⟩ := hs
    refine .inl (update_of_ne ?_ _ _)
    rintro rfl
    rw [hu] at hidle
    cases hidle
  | kalloc u a =>
    obtain ⟨r, hr, rfl⟩ := Option.map_eq_some_iff.mp hs
    refine .inl (update_of_ne ?_ _ _)
    rintro rfl
    cases hp : s.pc t <;> simp only [hp, kallocStep, reduceCtorEq] at hr
    rw [hp] at hsea
    exact hsea
  | run u =>
    obtain ⟨r, hr, rfl⟩ := Option.map_eq_some_iff.mp hs
    by_cases hu : t = u
    · subst u
      exact .inr ⟨r, hr, update_self _ _ _⟩
    · exact .inl (update_of_ne hu _ _)

theorem Reads.searches (hp : Reads v data i j key p) : Searches p := by
  cases p <;> trivial

/-- What the call of `t` at the step `i` knows in every state up to its return,
and what it makes of it in its own next step. -/
theorem reads_at (hinv : ∀ j ≤ r.length, ∃ l, Inv w (r.state j).mem (r.state j).pc l)
    (hmoves : ∀ j < r.length,
      Moves w (r.state j).mem (r.state j).pc (r.state (j + 1)).mem (r.state (j + 1)).pc)
    (hi : i < r.length) (hcall : r.act i = .call t (.searchLock key)) (m : Nat) (him : i < m)
    (hm : m ≤ r.length) (hbusy : ∀ k, i < k → k ≤ m → ((r.state k).pc t).isIdle = false) :
    Reads (viewAt w r) (r.state m).mem.data (i + 1) m key ((r.state m).pc t) ∧
      (m < r.length →
        Reads (viewAt w r) (r.state m).mem.data (i + 1) m key ((r.state (m + 1)).pc t)) := by
  induction m with
  | zero => omega
  | succ m ih =>
    have hnow : Reads (viewAt w r) (r.state (m + 1)).mem.data (i + 1) (m + 1) key
        ((r.state (m + 1)).pc t) := by
      by_cases he : m = i
      · subst m
        rw [pc_call (hcall ▸ r.next i hi)]
        exact rfl
      · have hlast := (ih (by omega) (by omega) (fun k hik hk => hbusy k hik (by omega))).2 (by omega)
        refine hlast.succ (hbusy (m + 1) him le_rfl) (edited_at hinv hmoves _ hm) ?_
        exact fun a ha => (hmoves m (by omega)).data a ha.1
    refine ⟨hnow, fun hlt => ?_⟩
    obtain hsame | ⟨q, hq, hown⟩ :=
      pc_step (r.next (m + 1) hlt) (hbusy (m + 1) him le_rfl) hnow.searches
    · rw [hsame]
      exact hnow
    · rw [hown]
      exact hnow.advance him (edited_at hinv hmoves _ hm) rfl rfl hq

/-- Against one updater, a search can finish whenever no writer is in a lock;
when it returns it has found the key if that was in the list all along, and
what it has found was in the list during the call. -/
theorem searchLock_correct (w t : Fin n) (r : Run (step (n := n))) (hquiet : Quiet (r.state 0))
    (l : List Addr) (hl : Chain (r.state 0).mem.next (r.state 0).mem.head l)
    (halloc : ∀ a ∈ l, (r.state 0).mem.alloc a = true) (hone : r.Meets (OneUpdater w))
    (i j : Nat) (hij : i < j) (hj : j ≤ r.length) (key : Int)
    (hcall : r.act i = .call t (.searchLock key))
    (hbusy : ∀ m, i < m → m < j → ((r.state m).pc t).isIdle = false) :
    (((r.state j).pc t).isIdle = false → Free (r.state j).mem →
        ∃ k s', exec step (r.state j) (List.replicate k (.run t)) = some s' ∧ (s'.pc t).isIdle = true) ∧
      ∀ res, (r.state j).pc t = .idle res →
        ((∃ a, ∀ m, i < m → m < j → Reach (r.state m).mem.next (r.state m).mem.head a ∧
          (r.state m).mem.data a = key) → res ≠ none) ∧
        ∀ c, res = some c → (r.state j).mem.data c = key ∧
          ∃ m, i < m ∧ m < j ∧ Reach (r.state m).mem.next (r.state m).mem.head c := by
  obtain ⟨hinv, hmoves⟩ := moves_at hquiet hl halloc hone
  have hknow := reads_at hinv hmoves (by omega) hcall
  constructor
  · intro hlast hfree
    have hreads := (hknow j hij hj (fun k hik hk => by
      obtain hk | rfl : k < j ∨ k = j := by omega
      · exact hbusy k hik hk
      · exact hlast)).1
    have hv := edited_at hinv hmoves (i + 1) hj
    exact exec_of_returns (hreads.returns hv (hv.proper j hij le_rfl) rfl rfl hfree)
  · intro res hres
    obtain ⟨k, rfl⟩ : ∃ k, j = k + 1 := ⟨j - 1, by omega⟩
    have hik : i < k := by
      by_contra hk
      obtain rfl : k = i := by omega
      rw [pc_call (hcall ▸ r.next k (by omega))] at hres
      cases hres
    have hend := (hknow k hik (by omega) (fun m him hmk => hbusy m him (by omega))).2 (by omega)
    rw [hres] at hend
    constructor
    · rintro ⟨a, ha⟩ rfl
      exact hend a (fun m him hmk => (ha m him (by omega)).1) (ha k hik (by omega)).2
    · rintro c rfl
      obtain ⟨hseen, hkey⟩ := hend
      refine ⟨?_, ?_⟩
      · rw [(hmoves k (by omega)).data c (hseen.pub (edited_at hinv hmoves _ (by omega))).1]
        exact hkey
      · obtain ⟨m, him, hmk, hm⟩ := hseen
        exact ⟨m, him, by omega, hm⟩

end Call

/-- The search has read node 1 as the head when that node is deleted, and
goes on to node 0 from there. -/
def overUnlinked : List (Act 2) :=
  List.flatten [[.call 0 (.insertLock 5), .kalloc 0 1], List.replicate 8 (.run 0),
    [.call 1 (.searchLock 0), .run 1, .call 0 (.deleteNodeLock 5)], List.replicate 7 (.run 0),
    List.replicate 9 (.run 1)]

def overUnlinkedRun : Run (step (n := 2)) :=
  Run.ofExec step ⟨initListLock 0, fun _ => .idle none⟩ overUnlinked (by decide +kernel)

theorem overUnlinked_oneUpdater : overUnlinkedRun.Meets (OneUpdater 0) := by
  intro i hi
  change i < 29 at hi
  interval_cases i <;> first | trivial | exact ⟨rfl, 1, Reach.here 1, rfl⟩ | exact Fin.zero_ne_one.symm

theorem overUnlinked_busy :
    ∀ m < 29, 10 < m → ((overUnlinkedRun.state m).pc 1).isIdle = false := by
  decide +kernel

theorem searchLock_correct_overUnlinked :
    (overUnlinkedRun.state 29).mem.data 0 = 0 ∧ ∃ m, 10 < m ∧ m < 29 ∧
      Reach (overUnlinkedRun.state m).mem.next (overUnlinkedRun.state m).mem.head 0 :=
  ((searchLock_correct 0 1 overUnlinkedRun (by decide +kernel) [0] (.cons .nil) (by decide)
    overUnlinked_oneUpdater 10 29 (by decide) (by decide) 0 rfl (fun m him hmj => overUnlinked_busy m hmj him)).2
    (some 0) (by decide +kernel)).2 0 rfl

end Xv6Rcu.LockSearch

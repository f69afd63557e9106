import Xv6Rcu.ProcessSolo
import Xv6Rcu.Tokens

namespace Xv6Rcu.ProcessPid

open Transition Process ProcessCode ProcessInv ProcessTable Tokens Function List

variable {n h g i j p q : Nat} {s t v : State} {u : Tid} {a : Act} {x : Slot} {f : Frame} {c rest : List Frame}
  {pid : Int} {ins : Instr}

section Places

/-- Where a pid that has been handed out is: in the entry of its process, with
the thread that allocates it or that brings it back from `wait`, or returned. -/
inductive Place where
  | slot (j : Nat)
  | thread (u : Tid)
  | log

def pidOf (x : Slot) : List Int := if x.state = .unused then [] else [x.pid]

def carried : Frame → Option Int
  | .allocSet _ _ _ pid | .ret (.waited pid _) => some pid
  | _ => none

def carries (c : List Frame) : List Int := c.filterMap carried

def reaped : Event → Option Int
  | .waited _ pid _ => some pid
  | _ => none

def reaps (es : List Event) : List Int := es.filterMap reaped

theorem reaps_append (es es' : List Event) : reaps (es ++ es') = reaps es ++ reaps es' := filterMap_append

def pids (s : State) : Place → List Int
  | .slot j => pidOf (s.slot j)
  | .thread u => carries (s.thread u).code
  | .log => reaps s.log

theorem decode_carries (hd : decode s h rest f = some ins) (hc : next ins = some c)
    (hp : ∀ p k m v, f ≠ .pidStore p k m v) (hw : ∀ p m v st, f ≠ .waitFree p m v st) :
    (carries c).Sublist (carries rest) := by
  cases f with
  | leave p k pc =>
    rcases decodeLeave_next hd hc with ⟨pc', rfl⟩ | rfl
    · exact List.Sublist.refl _
    · cases k <;> exact List.Sublist.refl _
  | pidStore p k m v => exact absurd rfl (hp p k m v)
  | waitFree p m v st => exact absurd rfl (hw p m v st)
  | _ =>
    simp only [decode] at hd
    (repeat' split at hd) <;> first | contradiction | cases hd
    all_goals cases hc
    all_goals first | exact List.Sublist.refl _ | exact nil_sublist _

theorem carries_append (fs : List Frame) : carries (fs ++ c) = carries fs ++ carries c := filterMap_append

theorem starts_carried (hf : Starts a c f) : carried f = none := by
  rcases hf with hb | ⟨p, k, j, pid, rest, -, rfl⟩
  · cases f with
    | ret r =>
      cases hb
      rfl
    | _ => first | rfl | exact absurd hb id
  · rfl

theorem fetch_carries (hd : fetch s h a = some ins) (hc : next ins = some c) (ha : ∀ g, a ≠ .exec g) :
    (carries c).Sublist (carries (s.run h).code) := by
  obtain ⟨fs, old, rfl, hsub, hfs⟩ := fetch_starts hd hc ha
  have hnil : carries fs = [] := filterMap_eq_nil_iff.mpr (fun f hf => starts_carried (hfs f hf))
  rw [carries_append, hnil]
  exact hsub.sublist.filterMap carried

def passes : Frame → Bool
  | .pidStore _ _ _ _ | .allocSet _ _ _ _ | .waitFree _ _ _ _ | .freeproc _ | .ret (.waited _ _) => true
  | _ => false

theorem decode_nextpid (hd : decode s h rest f = some ins) (hp : passes f = false) : nextpidAfter s ins = s.nextpid := by
  cases f with
  | leave p k pc =>
    cases pc <;> cases k <;> simp only [decode, decodeLeave, schedOut] at hd <;> (repeat' split at hd) <;> cases hd <;> rfl
  | pidStore p k m v => cases hp
  | _ =>
    simp only [decode] at hd
    (repeat' split at hd) <;> first | contradiction | cases hd
    all_goals rfl

theorem returns_reaps (hp : passes f = false) : reaps (events s f ++ returns s h f) = [] := by
  cases f with
  | ret r =>
    cases r with
    | waited v st => cases hp
    | _ => rfl
  | exitStart p st =>
    simp only [events, returns, reaps]
    split <;> rfl
  | killTest v m =>
    simp only [events, returns, reaps]
    split <;> rfl
  | _ => rfl

end Places

section Loads

def Loaded (s : State) : Frame → Prop
  | .pidStore _ _ _ v => v = s.nextpid ∧ 0 < v
  | .waitCopy _ _ j v | .waitFree _ j v _ => (s.slot j).pid = v
  | _ => True

def AllLoaded (s : State) (c : List Frame) : Prop := ∀ f ∈ c, Loaded s f

theorem AllLoaded.cons (hc : AllLoaded s c) (hf : Loaded s f) : AllLoaded s (f :: c) :=
  forall_mem_cons.mpr ⟨hf, hc⟩

theorem allLoaded_nil : AllLoaded s [] := nofun

def loads : List Frame → Bool
  | .pidLoad _ _ _ :: _ => true
  | _ => false

def Unwrapped (s : State) (a : Act) : Prop := loads (s.run a.hart).code = true → 0 < s.nextpid

instance (s : State) (a : Act) : Decidable (Unwrapped s a) :=
  inferInstanceAs (Decidable (_ → _))

theorem loaded_congr (hf : Loaded s f) (hn : .pid ∈ firm f → t.nextpid = s.nextpid)
    (hp : ∀ j, .proc j ∈ firm f → (t.slot j).pid = (s.slot j).pid) : Loaded t f := by
  cases f with
  | pidStore p k j v =>
    refine ⟨?_, hf.2⟩
    rw [hn mem_cons_self]
    exact hf.1
  | waitCopy p k j v => exact (hp j mem_cons_self).trans hf
  | waitFree p j v st => exact (hp j mem_cons_self).trans hf
  | _ => trivial

theorem decode_loaded (hd : decode s h rest f = some ins) (hc : next ins = some c)
    (hu : loads (f :: rest) = true → 0 < s.nextpid) (hf : Loaded s f) (hr : AllLoaded s rest) : AllLoaded s c := by
  cases f with
  | leave p k pc =>
    rcases decodeLeave_next hd hc with ⟨pc', rfl⟩ | rfl
    · exact hr.cons trivial
    · cases k with
      | sleep ch lk => exact AllLoaded.cons (f := .acquire lk) hr trivial
      | _ => exact hr
  | pidLoad p k j =>
    cases hd
    cases hc
    exact hr.cons ⟨rfl, hu rfl⟩
  | _ =>
    simp only [decode] at hd
    (repeat' split at hd) <;> first | contradiction | cases hd
    all_goals cases hc
    all_goals
      repeat first
        | exact hr
        | exact allLoaded_nil
        | refine AllLoaded.cons ?_ trivial
        | refine AllLoaded.cons ?_ hf
        | refine AllLoaded.cons ?_ rfl

end Loads

section Invariant

/-- Pids that have been handed out are positive, below `nextpid` as long as it
has not wrapped, and each of them is at one place. -/
structure Pids (s : State) : Prop where
  bound : s.nextpid < 2 ^ 31
  apart : Apart (pids s)
  range : ∀ p, ∀ v ∈ pids s p, 0 < v ∧ (0 < s.nextpid → v < s.nextpid)
  loaded : ∀ u, AllLoaded s (s.thread u).code

variable (hP : Pids s)

include hP

theorem pids_shrink (hn : t.nextpid = s.nextpid) (hs : ∀ p, (pids t p).Sublist (pids s p))
    (hl : ∀ u, AllLoaded t (t.thread u).code) : Pids t where
  bound := hn ▸ hP.bound
  apart := hP.apart.shrink hs
  range := fun p v hv => hn ▸ hP.range p v ((hs p).subset hv)
  loaded := hl

theorem pids_move {p q : Place} {r : List Int} (hn : t.nextpid = s.nextpid) (hpq : p ≠ q) (hp : pids s p = pid :: r)
    (hp' : (pids t p).Sublist r) (hq : (pids t q).Perm (pid :: pids s q))
    (hs : ∀ p', p' ≠ q → p' ≠ p → (pids t p').Sublist (pids s p')) (hl : ∀ u, AllLoaded t (t.thread u).code) :
    Pids t where
  bound := hn ▸ hP.bound
  apart := hP.apart.move hpq hp hp' hq hs
  range := by
    intro p' v hv
    rw [hn]
    have hpid : pid ∈ pids s p := hp ▸ mem_cons_self
    by_cases hq' : p' = q
    · subst hq'
      rcases mem_cons.mp (hq.mem_iff.mp hv) with rfl | hv
      · exact hP.range p v hpid
      · exact hP.range p' v hv
    · by_cases hp'' : p' = p
      · subst hp''
        exact hP.range p' v (hp ▸ mem_cons_of_mem _ (hp'.subset hv))
      · exact hP.range p' v ((hs p' hq' hp'').subset hv)
  loaded := hl

omit hP in
theorem bump_cases (hv : 0 < pid) (hb : pid < 2 ^ 31) : bump pid = pid + 1 ∧ pid + 1 < 2 ^ 31 ∨ bump pid ≤ 0 := by
  unfold bump
  rw [Int.bmod]
  omega

theorem pids_alloc {q : Place} (hpos : 0 < s.nextpid) (hn : t.nextpid = bump s.nextpid)
    (hq : (pids t q).Perm (s.nextpid :: pids s q)) (hs : ∀ p, p ≠ q → (pids t p).Sublist (pids s p))
    (hl : ∀ u, AllLoaded t (t.thread u).code) : Pids t := by
  have hfresh (p : Place) : s.nextpid ∉ pids s p := by
    intro hm
    have hlt := (hP.range p _ hm).2 hpos
    omega
  have hb := bump_cases hpos hP.bound
  have hrange (p : Place) (v : Int) (hv : v ∈ pids s p) : 0 < v ∧ (0 < t.nextpid → v < t.nextpid) := by
    have hv := hP.range p v hv
    refine ⟨hv.1, fun ht => ?_⟩
    have hlt := hv.2 hpos
    rw [hn] at ht ⊢
    omega
  constructor
  case bound =>
    rw [hn]
    omega
  case apart => exact hP.apart.add hq hs (hfresh q) (fun p hp hm => hfresh p ((hs p hp).subset hm))
  case range =>
    intro p v hv
    by_cases hpq : p = q
    · subst hpq
      rcases mem_cons.mp (hq.mem_iff.mp hv) with rfl | hv
      · refine ⟨hpos, fun ht => ?_⟩
        rw [hn] at ht ⊢
        omega
      · exact hrange p v hv
    · exact hrange p v ((hs p hpq).subset hv)
  case loaded => exact hl

end Invariant

section Steps

theorem loaded_free (hr : Free rest) (hl : AllLoaded s rest) : AllLoaded t rest := by
  intro g hg
  have hfirm := hr.firm hg
  refine loaded_congr (hl g hg) (fun hm => ?_) (fun j hm => ?_) <;> rw [hfirm] at hm <;> cases hm

theorem loaded_others (hI : Inv s) (hP : Pids s) (ho : Outcome s h ins t)
    (hself : AllLoaded t ((next ins).getD (s.run h).code))
    (hnext : s.lock .pid ≠ some h → t.nextpid = s.nextpid)
    (hpid : ∀ j, s.lock (.proc j) ≠ some h → (t.slot j).pid = (s.slot j).pid) :
    ∀ u, AllLoaded t (t.thread u).code := by
  refine frames_step (P := fun _ f => Loaded t f) ho hself ?_ ?_
  · intro u hu f hf
    exact loaded_congr (hP.loaded u f hf) (fun hm => hnext (hI.firm_locked hu hf hm))
      (fun j hm => hpid j (hI.firm_locked hu hf hm))
  · exact fun j _ => forall_forkret j trivial trivial trivial trivial trivial trivial

theorem carries_others (ho : Outcome s h ins t) (hu : u ≠ (s.hart h).cur) :
    (carries (t.thread u).code).Sublist (carries (s.thread u).code) := by
  rcases ho.thread_cases u with hc | ⟨-, j, -, rfl, ht⟩ | ⟨-, ht⟩
  · exact absurd hc hu
  · rw [ht]
    exact nil_sublist _
  · rw [ht]

theorem pids_plain (hI : Inv s) (hP : Pids s) (ho : Outcome s h ins t)
    (hself : AllLoaded s ((next ins).getD (s.run h).code))
    (hcar : (carries ((next ins).getD (s.run h).code)).Sublist (carries (s.run h).code))
    (hn : t.nextpid = s.nextpid) (hslot : ∀ j, (t.slot j).pid = (s.slot j).pid ∧
      ((t.slot j).state = .unused ↔ (s.slot j).state = .unused)) {es : List Event} (hes : reaps es = []) :
    Pids (t.note es) := by
  have hl (f : Frame) (hf : Loaded s f) : Loaded t f := loaded_congr hf (fun _ => hn) (fun j _ => (hslot j).1)
  have hall := loaded_others hI hP ho (fun f hf => hl f (hself f hf)) (fun _ => hn) (fun j _ => (hslot j).1)
  refine pids_shrink (t := t.note es) hP hn (fun p => ?_) hall
  cases p with
  | slot j =>
    change (pidOf (t.slot j)).Sublist (pidOf (s.slot j))
    simp only [pidOf, (hslot j).1, (hslot j).2]
    exact List.Sublist.refl _
  | thread u =>
    change (carries (t.thread u).code).Sublist (carries (s.thread u).code)
    by_cases hu : u = (s.hart h).cur
    · rw [hu, ho.code_self]
      exact hcar
    · exact carries_others ho hu
  | log =>
    change (reaps (t.log ++ es)).Sublist (reaps s.log)
    rw [reaps_append, hes, ho.log, append_nil]

variable {k : Maker} {m : Nat} {st : Int}

theorem thread_self (ho : Outcome s h ins t) (hc : next ins = some c) :
    pids t (.thread (s.hart h).cur) = carries c := congrArg carries (ho.code hc)

theorem thread_old (hcode : (s.run h).code = c) : pids s (.thread (s.hart h).cur) = carries c := congrArg carries hcode

theorem slot_locked (hI : Inv s) (hcode : (s.run h).code = c) (hm : .proc m ∈ held c) (hj : s.lock (.proc j) ≠ some h) :
    j ≠ m := by
  rintro rfl
  exact hj (((hI.fit h).lock _).mpr (hcode ▸ hm))

theorem store_self (ho : Outcome s h (.store m x c) t) : t.slot m = x := by rw [ho.slot, slots, update_self]

theorem store_ne (ho : Outcome s h (.store m x c) t) (hj : j ≠ m) : t.slot j = s.slot j := by
  rw [ho.slot, slots, update_of_ne hj]

theorem loaded_store (hI : Inv s) (hP : Pids s) (hcode : (s.run h).code = f :: rest) (hm : .proc m ∈ held (f :: rest))
    (ho : Outcome s h (.store m x c) t) (hl : AllLoaded t c) : ∀ u, AllLoaded t (t.thread u).code :=
  loaded_others hI hP ho hl (fun _ => ho.nextpid_eq) (fun j hj => by rw [store_ne ho (slot_locked hI hcode hm hj)])

theorem shrink_others {r : Place} {es : List Event} (ho : Outcome s h ins t) (hu : r ≠ .thread (s.hart h).cur)
    (hslot : ∀ j, r = .slot j → t.slot j = s.slot j) (hlog : r = .log → reaps es = []) :
    (pids (t.note es) r).Sublist (pids s r) := by
  cases r with
  | slot j =>
    change (pidOf (t.slot j)).Sublist (pidOf (s.slot j))
    rw [hslot j rfl]
  | thread u =>
    change (carries (t.thread u).code).Sublist (carries (s.thread u).code)
    exact carries_others ho (fun he => hu (he ▸ rfl))
  | log =>
    change (reaps (t.log ++ es)).Sublist (reaps s.log)
    rw [reaps_append, hlog rfl, ho.log, append_nil]

section

variable (hI : Inv s) (hP : Pids s)

include hI hP

theorem pids_pidStore (hcode : (s.run h).code = .pidStore p k m pid :: rest)
    (ho : Outcome s h (.nextpid (bump pid) (.release .pid :: .allocSet p k m pid :: rest)) t) : Pids (t.note []) := by
  have hall : AllLoaded s (.pidStore p k m pid :: rest) := hcode ▸ hP.loaded _
  have hshape := hI.shape_run hcode
  have hfree : Free rest := ⟨hshape.2.2.2, hshape.1⟩
  obtain ⟨⟨rfl, hpos⟩, hrest⟩ := forall_mem_cons.mp hall
  have hslot (j : Nat) : t.slot j = s.slot j := congrFun ho.slot j
  have hloaded : ∀ u, AllLoaded t (t.thread u).code := by
    refine loaded_others hI hP ho ?_ (fun hl => ?_) (fun j _ => by rw [hslot])
    · exact AllLoaded.cons (f := .release .pid) ((loaded_free hfree hrest).cons trivial) trivial
    · exact absurd (((hI.fit h).lock _).mpr (hcode ▸ mem_cons_self)) hl
  have hthread : pids t (.thread (s.hart h).cur) = s.nextpid :: pids s (.thread (s.hart h).cur) :=
    (thread_self ho rfl).trans (congrArg (s.nextpid :: ·) (thread_old hcode).symm)
  refine pids_alloc (t := t.note []) (q := .thread (s.hart h).cur) hP hpos ho.nextpid_eq (.of_eq hthread) ?_ hloaded
  exact fun p hp => shrink_others ho hp (fun j _ => hslot j) (fun _ => rfl)

theorem pids_allocSet (hcode : (s.run h).code = .allocSet p k m pid :: rest)
    (ho : Outcome s h (.store m x (.allocMem p k m pid :: rest)) t) (hx : x.pid = pid ∧ x.state ≠ .unused)
    {es : List Event} (hes : reaps es = []) : Pids (t.note es) := by
  have hall : AllLoaded s (.allocSet p k m pid :: rest) := hcode ▸ hP.loaded _
  have hshape := hI.shape_run hcode
  have hgood := hI.good_run hcode
  have hfree : Free rest := ⟨hshape.2.2.2, hshape.1⟩
  have hold : (s.slot m).state = .unused := hgood _ mem_cons_self
  have hloaded := loaded_store hI hP hcode mem_cons_self ho
    ((loaded_free hfree (forall_mem_cons.mp hall).2).cons trivial)
  refine pids_move (t := t.note es) (p := .thread (s.hart h).cur) (q := .slot m) hP ho.nextpid_eq nofun
    (thread_old hcode) ((thread_self ho rfl).symm ▸ List.Sublist.refl _) ?_ ?_ hloaded
  · change (pidOf (t.slot m)).Perm (pid :: pidOf (s.slot m))
    rw [store_self ho, pidOf, pidOf, if_neg hx.2, if_pos hold, hx.1]
  · exact fun r hm hu => shrink_others ho hu (fun j hj => store_ne ho (fun he => hm (hj.trans (he ▸ rfl)))) (fun _ => hes)

theorem pids_waitFree (hcode : (s.run h).code = .waitFree p m pid st :: rest)
    (hx : x.state = .unused)
    (ho : Outcome s h (.store m x (.release (.proc m) :: .release .wait :: .ret (.waited pid st) :: rest)) t) :
    Pids (t.note []) := by
  have hall : AllLoaded s (.waitFree p m pid st :: rest) := hcode ▸ hP.loaded _
  have hshape := hI.shape_run hcode
  have hgood := hI.good_run hcode
  have hfree : Free rest := ⟨hshape.2.2.2, hshape.1⟩
  have hold : (s.slot m).state = .zombie := hgood _ mem_cons_self
  obtain ⟨hpid, hrest⟩ := forall_mem_cons.mp hall
  change (s.slot m).pid = pid at hpid
  have hloaded := loaded_store hI hP hcode mem_cons_self ho
    (AllLoaded.cons (f := .release (.proc m)) (AllLoaded.cons (f := .release .wait)
      (AllLoaded.cons (f := .ret (.waited pid st)) (loaded_free hfree hrest) trivial) trivial) trivial)
  have hthread : pids t (.thread (s.hart h).cur) = pid :: pids s (.thread (s.hart h).cur) :=
    (thread_self ho rfl).trans (congrArg (pid :: ·) (thread_old hcode).symm)
  refine pids_move (t := t.note []) (p := .slot m) (q := .thread (s.hart h).cur) (r := []) hP ho.nextpid_eq nofun
    ?_ ?_ (.of_eq hthread) ?_ hloaded
  · change pidOf (s.slot m) = [pid]
    rw [pidOf, if_neg (by rw [hold]; exact nofun), hpid]
  · change (pidOf (t.slot m)).Sublist []
    rw [store_self ho, pidOf, if_pos hx]
  · exact fun r hu hm => shrink_others ho hu (fun j hj => store_ne ho (fun he => hm (hj.trans (he ▸ rfl)))) (fun _ => rfl)

theorem pids_freeproc (hcode : (s.run h).code = .freeproc m :: rest)
    (hx : x.state = .unused) (ho : Outcome s h (.store m x (.release (.proc m) :: rest)) t) : Pids (t.note []) := by
  have hall : AllLoaded s (.freeproc m :: rest) := hcode ▸ hP.loaded _
  have hshape := hI.shape_run hcode
  have hfree : Free rest := ⟨hshape.2.2.2, hshape.1⟩
  have hloaded := loaded_store hI hP hcode mem_cons_self ho
    ((loaded_free hfree (forall_mem_cons.mp hall).2).cons trivial)
  refine pids_shrink (t := t.note []) hP ho.nextpid_eq (fun r => ?_) hloaded
  by_cases hu : r = .thread (s.hart h).cur
  · subst hu
    exact (thread_self ho rfl).symm ▸ thread_old hcode ▸ List.Sublist.refl _
  · by_cases hm : r = .slot m
    · subst hm
      change (pidOf (t.slot m)).Sublist _
      rw [store_self ho, pidOf, if_pos hx]
      exact nil_sublist _
    · exact shrink_others ho hu (fun j hj => store_ne ho (fun he => hm (hj.trans (he ▸ rfl)))) (fun _ => rfl)

theorem pids_ret (hcode : (s.run h).code = .ret (.waited pid st) :: rest)
    (ho : Outcome s h (.goto rest) t) : Pids (t.note (returns s h (.ret (.waited pid st)))) := by
  have hall : AllLoaded s (.ret (.waited pid st) :: rest) := hcode ▸ hP.loaded _
  have hrest : AllLoaded s rest := (forall_mem_cons.mp hall).2
  have hslot (j : Nat) : t.slot j = s.slot j := congrFun ho.slot j
  have hn : t.nextpid = s.nextpid := ho.nextpid_eq
  have hloaded : ∀ u, AllLoaded t (t.thread u).code := by
    refine loaded_others hI hP ho (fun f hf => ?_) (fun _ => hn) (fun j _ => by rw [hslot])
    exact loaded_congr (hrest f hf) (fun _ => hn) (fun j _ => by rw [hslot])
  have hself : pids t (.thread (s.hart h).cur) = carries rest := thread_self ho rfl
  have hold : pids s (.thread (s.hart h).cur) = pid :: carries rest := thread_old hcode
  cases hp : (s.hart h).proc with
  | none =>
    have hret : returns s h (.ret (.waited pid st)) = [] := by simp only [returns, hp]
    rw [hret]
    refine pids_shrink (t := t.note []) hP hn (fun r => ?_) hloaded
    by_cases hu : r = .thread (s.hart h).cur
    · subst hu
      rw [hold]
      exact hself.symm ▸ sublist_cons_self _ _
    · exact shrink_others ho hu (fun j _ => hslot j) (fun _ => rfl)
  | some q =>
    have hret : returns s h (.ret (.waited pid st)) = [.waited (s.slot q).pid pid st] := by simp only [returns, hp]
    rw [hret]
    refine pids_move (t := t.note _) (p := .thread (s.hart h).cur) (q := .log) hP hn nofun hold
      (hself.symm ▸ List.Sublist.refl _) ?_ ?_ hloaded
    · change (reaps (t.log ++ _)).Perm (pid :: reaps s.log)
      rw [reaps_append, ho.log]
      exact perm_append_singleton pid _
    · exact fun r hl hu => shrink_others ho hu (fun j _ => hslot j) (fun he => absurd he hl)

end

theorem plain_slot (hI : Inv s) (hcode : (s.run h).code = f :: rest) (hd : decode s h rest f = some ins)
    (ho : Outcome s h ins t) (hp : passes f = false) (j : Nat) : (t.slot j).pid = (s.slot j).pid ∧
      ((t.slot j).state = .unused ↔ (s.slot j).state = .unused) := by
  rw [ho.slot]
  cases ins with
  | store m x c =>
    by_cases hj : j = m
    · subst hj
      rw [slots, update_self]
      cases hI.flagged hcode hd with
      | same hp _ hu => exact ⟨hp, hu⟩
      | mark hp _ hu => exact ⟨hp, hu⟩
      | freed _ _ _ hf =>
        rcases hf with ⟨p, v, st, rfl⟩ | rfl <;> cases hp
      | alloc _ _ _ he =>
        obtain ⟨p, k, rfl⟩ := he
        cases hp
    · rw [slots, update_of_ne hj]
      exact ⟨rfl, Iff.rfl⟩
  | _ => exact ⟨rfl, Iff.rfl⟩

theorem pids_code (hI : Inv s) (hP : Pids s) (hu : loads (s.run h).code = true → 0 < s.nextpid)
    (hcode : (s.run h).code = f :: rest) (hd : decode s h rest f = some ins) (ho : Outcome s h ins t) :
    Pids (t.note (events s f ++ returns s h f)) := by
  by_cases hp : passes f = false
  · have hall : AllLoaded s (f :: rest) := hcode ▸ hP.loaded _
    obtain ⟨hf, hr⟩ := forall_mem_cons.mp hall
    refine pids_plain hI hP ho ?_ ?_ (ho.nextpid_eq.trans (decode_nextpid hd hp)) (plain_slot hI hcode hd ho hp)
      (returns_reaps hp)
    · cases hc : next ins with
      | none => exact hP.loaded _
      | some c => exact decode_loaded hd hc (hcode ▸ hu) hf hr
    · cases hc : next ins with
      | none => exact List.Sublist.refl _
      | some c =>
        rw [hcode]
        refine (decode_carries hd hc ?_ ?_).trans ((sublist_cons_self f rest).filterMap carried)
        · rintro p k m v rfl
          cases hp
        · rintro p m v st rfl
          cases hp
  · cases f with
    | pidStore p k m v =>
      cases hd
      exact pids_pidStore hI hP hcode ho
    | allocSet p k m v =>
      cases hd
      exact pids_allocSet hI hP hcode ho ⟨rfl, nofun⟩ rfl
    | waitFree p m v st =>
      cases hd
      exact pids_waitFree hI hP hcode rfl ho
    | freeproc m =>
      cases hd
      exact pids_freeproc hI hP hcode rfl ho
    | ret r =>
      cases r with
      | waited v st =>
        cases hd
        exact pids_ret hI hP hcode ho
      | _ => exact absurd rfl hp
    | _ => exact absurd rfl hp

theorem pids_step (hI : Inv s) (hP : Pids s) (ha : Unwrapped s a) (hstep : step n s a = some t) : Pids t := by
  cases step_moves hI hstep with
  | code h f rest ins v hcode hd ho ht =>
    subst ht
    exact pids_code hI hP ha hcode hd ho
  | other a ins ha' hd hq hn ho =>
    obtain ⟨c, hc⟩ : ∃ c, next ins = some c := by
      cases ins <;> first | exact ⟨_, rfl⟩ | contradiction
    have hslot : t.slot = s.slot := by
      rw [ho.slot]
      cases ins <;> first | rfl | contradiction
    rw [← note_nil t]
    refine pids_plain hI hP ho ?_ ?_ hn (fun j => by rw [hslot]; exact ⟨rfl, Iff.rfl⟩) rfl
    · rw [hc]
      refine starts_forall hd hc ha' (hP.loaded _) (fun f hb => ?_) (fun _ _ _ _ _ => trivial)
      cases f <;> trivial
    · rw [hc]
      exact fetch_carries hd hc ha'

end Steps

section Result

theorem pids_boot : Pids boot := by
  have hslot (j : Nat) (v : Int) (hv : v ∈ pids boot (.slot j)) : j = initproc ∧ v = 1 := by
    by_cases hj : j = initproc
    · subst hj
      exact ⟨rfl, mem_singleton.mp hv⟩
    · change v ∈ pidOf (boot.slot j) at hv
      simp [pidOf, boot, hj] at hv
  have hthread (u : Tid) : pids boot (.thread u) = [] := by
    change carries (boot.thread u).code = []
    rcases boot_cases u with ⟨hc, -⟩ | ⟨hc, -⟩ | ⟨hc, -⟩ <;> rw [hc] <;> rfl
  have hplace (p : Place) (v : Int) (hv : v ∈ pids boot p) : p = .slot initproc ∧ v = 1 := by
    cases p with
    | slot j =>
      obtain ⟨rfl, hone⟩ := hslot j v hv
      exact ⟨rfl, hone⟩
    | thread u =>
      rw [hthread u] at hv
      cases hv
    | log => cases hv
  constructor
  case bound => decide
  case apart =>
    constructor
    · intro p
      cases p with
      | slot j =>
        change (pidOf (boot.slot j)).Nodup
        rw [pidOf]
        split <;> simp
      | thread u =>
        rw [hthread u]
        exact nodup_nil
      | log => exact nodup_nil
    · intro p q v hp hq
      rw [(hplace p v hp).1, (hplace q v hq).1]
  case range =>
    intro p v hv
    rw [(hplace p v hv).2]
    exact ⟨by decide, fun _ => by decide⟩
  case loaded => exact forall_boot (P := fun _ => Loaded boot) (fun _ => trivial) (forall_forkret _ trivial trivial trivial trivial trivial trivial)

theorem pids_run (r : Run (step n)) (hr : r.Meets Unwrapped) (h0 : r.state 0 = boot) (i : Nat) (hi : i ≤ r.length) :
    Inv (r.state i) ∧ Pids (r.state i) :=
  r.invariant (I := fun s => Inv s ∧ Pids s) hr (h0 ▸ ⟨inv_boot, pids_boot⟩)
    (fun _ _ _ hI ha hstep => ⟨inv_step hI.1 hstep, pids_step hI.1 hI.2 ha hstep⟩) i hi

theorem mem_pidOf (hx : x.state ≠ .unused) : x.pid ∈ pidOf x := by
  rw [pidOf, if_neg hx]
  exact mem_cons_self

def firstFork : Run (step 2) :=
  Run.ofExec (step 2) boot (ProcessSched.toUser ++ ProcessSolo.forkAlloc) (by decide +kernel)

end Result

end Xv6Rcu.ProcessPid

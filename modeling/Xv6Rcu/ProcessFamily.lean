import Xv6Rcu.ProcessSched

namespace Xv6Rcu.ProcessFamily

open Transition Process ProcessCode ProcessInv ProcessTable Function List Option
open Kernel (NPROC)

variable {n h g i j m p q : Nat} {s t : State} {u v : Tid} {a : Act} {x : Slot} {f : Frame} {c rest : List Frame}
  {ins : Instr}

section Frames

/-- What a frame knows of the parents of processes, because only the thread of a
process gives it children or takes them away. -/
def Kin (s : State) : Frame → Prop
  | .allocTest _ _ i | .pidLoad _ _ i | .pidStore _ _ i _ | .allocSet _ _ i _ => i < NPROC
  | .allocMem _ _ i _ | .setParent _ _ i _ => i < NPROC ∧ (s.slot i).parent = none
  | .freeproc i => (s.slot i).parent = none
  | .waitTest p _ i | .waitCopy p _ i _ | .waitFree p i _ _ => (s.slot i).parent = some p
  | .reparent p _ i => p ≠ initproc ∧ ∀ j < i, (s.slot j).parent ≠ some p
  | .leave p (.exit _) _ => p ≠ initproc ∧ ∀ j, (s.slot j).parent ≠ some p
  | _ => True

def AllKin (s : State) (c : List Frame) : Prop := ∀ f ∈ c, Kin s f

theorem AllKin.cons (hc : AllKin s c) (hf : Kin s f) : AllKin s (f :: c) := forall_mem_cons.mpr ⟨hf, hc⟩

theorem allKin_nil : AllKin s [] := nofun

theorem kin_congr (hp : ∀ j, (t.slot j).parent = (s.slot j).parent) (hf : Kin s f) : Kin t f := by
  cases f with
  | leave p k pc =>
    cases k with
    | exit st => exact ⟨hf.1, fun j => hp j ▸ hf.2 j⟩
    | _ => trivial
  | reparent p st i => exact ⟨hf.1, fun j hj => hp j ▸ hf.2 j hj⟩
  | allocMem p k i pid => exact ⟨hf.1, hp i ▸ hf.2⟩
  | setParent p k i pid => exact ⟨hf.1, hp i ▸ hf.2⟩
  | freeproc i => exact (hp i).trans hf
  | waitTest p k i => exact (hp i).trans hf
  | waitCopy p k i pid => exact (hp i).trans hf
  | waitFree p i pid st => exact (hp i).trans hf
  | _ => exact hf

theorem kin_begins (hb : Begins a f) : Kin s f := by
  cases f with
  | leave p k pc =>
    obtain ⟨-, rfl | ⟨ch, l, rfl, -⟩⟩ := hb <;> trivial
  | _ => trivial

theorem decode_kin (hd : decode s h rest f = some ins) (hc : next ins = some c) (hf : Kin s f) (hr : AllKin s rest)
    (hsmall : ∀ j p, (s.slot j).parent = some p → j < NPROC)
    (hsame : ∀ j, (slots s ins j).parent = (s.slot j).parent)
    (hunused : ∀ p k i pid, f = .allocSet p k i pid → (s.slot i).parent = none) : AllKin s c := by
  cases f with
  | leave p k pc =>
    rcases decodeLeave_next hd hc with ⟨pc', rfl⟩ | rfl
    · refine hr.cons ?_
      cases k <;> exact hf
    · cases k with
      | sleep ch lk => exact AllKin.cons (f := .acquire lk) hr trivial
      | _ => exact hr
  | reparent p st i =>
    simp only [decode] at hd
    split at hd
    · split at hd <;> cases hd <;> cases hc
      · rename_i hp
        have hx := hsame i
        rw [slots, update_self, hp] at hx
        exact absurd (some.inj hx).symm hf.1
      · rename_i hp
        refine hr.cons ⟨hf.1, fun j hj => ?_⟩
        rcases Nat.lt_succ_iff_lt_or_eq.mp hj with hj | rfl
        · exact hf.2 j hj
        · exact hp
    · rename_i hi
      cases hd
      cases hc
      have hnone (j : Nat) : (s.slot j).parent ≠ some p := fun hj =>
        hf.2 j (lt_of_lt_of_le (hsmall j p hj) (Nat.not_lt.mp hi)) hj
      exact AllKin.cons (f := .wakeup _ 0) (AllKin.cons (f := .acquire (.proc p))
        (AllKin.cons (f := .leave p (.exit st) .first) hr ⟨hf.1, hnone⟩) trivial) trivial
  | waitScan p k i b =>
    simp only [decode] at hd
    (repeat' split at hd) <;> cases hd <;> cases hc
    · exact AllKin.cons (f := .acquire (.proc i)) (AllKin.cons (f := .waitTest p k i) hr ‹_›) trivial
    · exact hr.cons trivial
    · exact AllKin.cons (f := .acquire (.proc p)) (AllKin.cons (f := .waitKilled p k) hr trivial) trivial
    · exact AllKin.cons (f := .release .wait) (AllKin.cons (f := .ret .failed) hr trivial) trivial
  | allocScan p k i =>
    cases hd
    cases hc
    split
    · exact AllKin.cons (f := .acquire (.proc i)) (AllKin.cons (f := .allocTest p k i) hr ‹_›) trivial
    · exact hr.cons trivial
  | allocSet p k i pid =>
    cases hd
    cases hc
    exact hr.cons ⟨hf, hunused p k i pid rfl⟩
  | exitStart p st =>
    simp only [decode] at hd
    split at hd <;> cases hd <;> cases hc
    rename_i hp
    exact AllKin.cons (f := .body true [] 0) (AllKin.cons (f := .acquire .wait)
      (AllKin.cons (f := .reparent p st 0) allKin_nil ⟨hp, (by intros; contradiction)⟩) trivial) trivial
  | _ =>
    simp only [decode] at hd
    (repeat' split at hd) <;> first | contradiction | cases hd
    all_goals cases hc
    all_goals
      repeat first
        | exact hr
        | exact allKin_nil
        | refine AllKin.cons ?_ trivial
        | refine AllKin.cons ?_ hf

end Frames

section Stores

inductive Bred (s : State) (f : Frame) (j : Nat) (x : Slot) : Prop
  | same (hx : x.parent = (s.slot j).parent)
  | adopt (p : Nat) (st : Int) (hf : f = .reparent p st j) (hp : (s.slot j).parent = some p)
      (hx : x.parent = some initproc)
  | born (p : Nat) (k : Maker) (pid : Int) (hf : f = .setParent p k j pid) (hx : x.parent = some p)
  | freed (hf : (∃ p pid st, f = .waitFree p j pid st) ∨ f = .freeproc j) (hx : x.parent = none)

theorem decodeLeave_bred {k : Leave} {pc : LeavePc} (hd : decodeLeave s h p k rest pc = some (.store j x c)) :
    x.parent = (s.slot j).parent ∧
      (Active (s.slot j).state → Active x.state ∨ ∃ st, Frame.leave p k pc = .leave j (.exit st) .first) := by
  cases pc with
  | first =>
    cases k <;> cases hd
    · exact ⟨rfl, fun _ => .inl (.inl rfl)⟩
    · exact ⟨rfl, fun _ => .inr ⟨_, rfl⟩⟩
  | second =>
    cases k <;> cases hd
    exact ⟨rfl, fun _ => .inl (.inr (.inl rfl))⟩
  | clear =>
    cases hd
    exact ⟨rfl, fun ha => .inl ha⟩
  | sched =>
    have he := some.inj hd
    simp only [schedOut] at he
    repeat' split at he
    all_goals contradiction
  | resume b => cases k <;> cases hd
  | _ => cases hd

theorem decode_bred (hd : decode s h rest f = some (.store j x c)) : Bred s f j x := by
  cases f with
  | leave p k pc => exact .same (decodeLeave_bred hd).1
  | reparent p st i =>
    simp only [decode] at hd
    (repeat' split at hd) <;> cases hd
    exact .adopt p st rfl ‹_› rfl
  | setParent p k i pid =>
    cases k <;> cases hd <;> exact .born p _ pid rfl rfl
  | waitFree p i pid st =>
    cases hd
    exact .freed (.inl ⟨p, pid, st, rfl⟩) rfl
  | freeproc i =>
    cases hd
    exact .freed (.inr rfl) rfl
  | _ =>
    simp only [decode] at hd
    (repeat' split at hd) <;> cases hd
    all_goals exact .same rfl

theorem decode_active (hd : decode s h rest f = some (.store j x c)) (hf : Good s u f)
    (ha : Active (s.slot j).state) : Active x.state ∨ ∃ st, f = .leave j (.exit st) .first := by
  have hno (hst : (s.slot j).state = .unused ∨ (s.slot j).state = .used ∨ (s.slot j).state = .zombie) : False := by
    rcases hst with hst | hst | hst <;> rw [hst] at ha <;> rcases ha with ha | ha | ha <;> cases ha
  cases f with
  | leave p k pc => exact (decodeLeave_bred hd).2 ha
  | waitFree p i pid st =>
    cases hd
    exact (hno (.inr (.inr hf))).elim
  | freeproc i =>
    cases hd
    exact (hno (.inr (.inl hf))).elim
  | allocSet p k i pid =>
    cases hd
    exact (hno (.inl hf)).elim
  | killTest pid i =>
    simp only [decode] at hd
    split at hd <;> cases hd
    refine .inl ?_
    change Active (if (s.slot j).state = .sleeping then .runnable else (s.slot j).state)
    split
    · exact .inl rfl
    · exact ha
  | _ =>
    simp only [decode] at hd
    (repeat' split at hd) <;> cases hd
    all_goals first | exact .inl ha | exact .inl (.inl rfl) | exact .inl (.inr (.inr rfl))

end Stores

section Invariant

structure Family (s : State) : Prop where
  kin : ∀ u, AllKin s (s.thread u).code
  orphan : ∀ j, (s.slot j).state = .unused → (s.slot j).parent = none
  alive : ∀ j p, (s.slot j).parent = some p → Active (s.slot p).state ∧ j < NPROC
  init : Active (s.slot initproc).state

def fresh : Frame → Option Nat
  | .allocMem _ _ i _ | .freeproc i | .setParent _ _ i _ => some i
  | _ => none

def waited : Frame → Option Nat
  | .waitTest _ _ i | .waitCopy _ _ i _ | .waitFree _ i _ _ => some i
  | _ => none

def exiting : Frame → Bool
  | .reparent _ _ (_ + 1) | .leave _ (.exit _) _ => true
  | _ => false

theorem made_of_fresh (hf : fresh f = some j) : made f = some j := by
  cases f <;> first | exact hf | cases hf

theorem kin_fresh (hf : Kin s f) (hj : fresh f = some j) : (s.slot j).parent = none := by
  cases f <;> cases hj <;> first | exact hf.2 | exact hf

theorem kin_waited (hf : Kin s f) (hp : own f = some p) (hj : waited f = some j) : (s.slot j).parent = some p := by
  cases f <;> cases hj <;> cases hp <;> exact hf

theorem kin_exiting (hf : Kin s f) (hp : own f = some p) (he : exiting f = true) : p ≠ initproc := by
  cases f with
  | leave p k pc =>
    cases hp
    cases k with
    | exit st => exact hf.1
    | _ => cases he
  | reparent p st i =>
    cases hp
    exact hf.1
  | _ => cases he

theorem loose_frame (hf : firm f = []) (hb : Below f) : waited f = none ∧ exiting f = false := by
  cases f with
  | leave p k pc =>
    cases hb
    cases k with
    | exit st => cases hf
    | _ => exact ⟨rfl, rfl⟩
  | reparent p st i =>
    cases i with
    | zero => exact ⟨rfl, rfl⟩
    | succ i => cases hf
  | waitTest p k i => cases hf
  | waitCopy p k i pid => cases hf
  | waitFree p i pid st => cases hf
  | _ => exact ⟨rfl, rfl⟩

theorem kin_update (hf : Kin s f) (hslot : t.slot = update s.slot j x) (hfresh : fresh f = some j → x.parent = none)
    (hwait : ∀ p, own f = some p → waited f = some j → x.parent = some p)
    (hexit : ∀ p, own f = some p → exiting f = true → x.parent ≠ some p) : Kin t f := by
  have hself : t.slot j = x := by rw [hslot, update_self]
  have hne {m : Nat} (hm : m ≠ j) : t.slot m = s.slot m := by rw [hslot, update_of_ne hm]
  have hnone {m : Nat} (hm : (s.slot m).parent = none) (hx : m = j → x.parent = none) : (t.slot m).parent = none := by
    by_cases hj : m = j
    · rw [hj, hself, hx hj]
    · rw [hne hj, hm]
  have hsome {m p : Nat} (hm : (s.slot m).parent = some p) (hx : m = j → x.parent = some p) :
      (t.slot m).parent = some p := by
    by_cases hj : m = j
    · rw [hj, hself, hx hj]
    · rw [hne hj, hm]
  have hnot {m p : Nat} (hm : (s.slot m).parent ≠ some p) (hx : x.parent ≠ some p) : (t.slot m).parent ≠ some p := by
    by_cases hj : m = j
    · rw [hj, hself]
      exact hx
    · rw [hne hj]
      exact hm
  cases f with
  | leave p k pc =>
    cases k with
    | exit st => exact ⟨hf.1, fun m => hnot (hf.2 m) (hexit p rfl rfl)⟩
    | _ => trivial
  | reparent p st i =>
    cases i with
    | zero => exact ⟨hf.1, nofun⟩
    | succ i => exact ⟨hf.1, fun m hm => hnot (hf.2 m hm) (hexit p rfl rfl)⟩
  | allocMem p k i pid => exact ⟨hf.1, hnone hf.2 (fun hj => hfresh (congrArg some hj))⟩
  | setParent p k i pid => exact ⟨hf.1, hnone hf.2 (fun hj => hfresh (congrArg some hj))⟩
  | freeproc i => exact hnone hf (fun hj => hfresh (congrArg some hj))
  | waitTest p k i => exact hsome hf (fun hj => hwait p rfl (congrArg some hj))
  | waitCopy p k i pid => exact hsome hf (fun hj => hwait p rfl (congrArg some hj))
  | waitFree p i pid st => exact hsome hf (fun hj => hwait p rfl (congrArg some hj))
  | _ => exact hf

section

variable (hI : Inv s) (hF : Family s) (hcode : (s.run h).code = f :: rest)

include hI hF hcode

theorem kin_others
    (hbred : Bred s f j x) (hslot : t.slot = update s.slot j x) (hv : v ≠ (s.hart h).cur) :
    AllKin t (s.thread v).code := by
  have hall : AllKin s (f :: rest) := hcode ▸ hF.kin _
  have hof := hI.of_run hcode
  have hkin : Kin s f := hall f mem_cons_self
  have hown : ∀ p, own f = some p → (s.hart h).cur = .proc p := (hof f mem_cons_self).own
  intro g hg
  have hgkin := hF.kin v g hg
  have hgown := (hI.of v g hg).own
  cases hbred with
  | same hx =>
    refine kin_congr (fun m => ?_) hgkin
    rw [hslot]
    by_cases hm : m = j
    · rw [hm, update_self, hx]
    · rw [update_of_ne hm]
  | adopt p st hf hp hx =>
    subst hf
    refine kin_update hgkin hslot (fun hm => ?_) (fun p' hp' hw => ?_) (fun p' hp' he => ?_)
    · exact absurd ((kin_fresh hgkin hm).symm.trans hp) (by rintro ⟨⟩)
    · have hpp := some.inj ((kin_waited hgkin hp' hw).symm.trans hp)
      exact absurd ((hgown p' hp').trans (hpp ▸ (hown p rfl).symm)) hv
    · rw [hx]
      exact fun he' => kin_exiting hgkin hp' he (some.inj he').symm
  | born p k pid hf hx =>
    subst hf
    refine kin_update hgkin hslot (fun hm => ?_) (fun p' hp' hw => ?_) (fun p' hp' he => ?_)
    · have hmine : j ∈ making (s.thread (s.hart h).cur).code := by
        rw [← State.run, hcode, making_made rfl]
        exact mem_cons_self
      exact absurd (hI.apart v _ j (mem_filterMap.mpr ⟨g, hg, made_of_fresh hm⟩) hmine) hv
    · exact absurd ((kin_waited hgkin hp' hw).symm.trans hkin.2) (by rintro ⟨⟩)
    · rw [hx]
      intro he'
      exact absurd ((hgown p' hp').trans (some.inj he' ▸ (hown p rfl).symm)) hv
  | freed hf hx =>
    refine kin_update hgkin hslot (fun _ => hx) (fun p' hp' hw => ?_) (fun p' hp' he => hx ▸ (by rintro ⟨⟩))
    have hparent := kin_waited hgkin hp' hw
    rcases hf with ⟨p, pid, st, rfl⟩ | rfl
    · have hpp := some.inj (hparent.symm.trans hkin)
      exact absurd ((hgown p' hp').trans (hpp ▸ (hown p rfl).symm)) hv
    · exact absurd (hparent.symm.trans hkin) (by rintro ⟨⟩)

theorem kin_rest (hload : load rest = 0)
    (hslot : t.slot = update s.slot j x) (hfresh : ∀ g ∈ rest, fresh g = some j → x.parent = none) :
    AllKin t rest := by
  have hall : AllKin s (f :: rest) := hcode ▸ hF.kin _
  have hshape := hI.shape_run hcode
  have hbelow := hI.below_run hcode
  have hfree : Free rest := ⟨hshape.2.2.2, hload⟩
  intro g hg
  obtain ⟨hwait, hexit⟩ := loose_frame (hfree.firm hg) (hbelow g hg)
  refine kin_update (hall g (mem_cons_of_mem _ hg)) hslot (hfresh g hg) (fun p _ hw => ?_) (fun p _ he => ?_)
  · rw [hwait] at hw
    cases hw
  · rw [hexit] at he
    cases he

theorem kin_self
    (hd : decode s h rest f = some (.store j x c)) (hslot : t.slot = update s.slot j x) :
    AllKin t c := by
  have hall : AllKin s (f :: rest) := hcode ▸ hF.kin _
  have hkin : Kin s f := hall f mem_cons_self
  have hshape := hI.shape_run hcode
  have hgood := hI.good_run hcode
  have hnodup : (making (f :: rest)).Nodup := hcode ▸ hI.nodup _
  have hself : t.slot j = x := by rw [hslot, update_self]
  have hne {m : Nat} (hm : m ≠ j) : t.slot m = s.slot m := by rw [hslot, update_of_ne hm]
  cases decode_bred hd with
  | same hx =>
    have hsame (m : Nat) : (update s.slot j x m).parent = (s.slot m).parent := by
      by_cases hm : m = j
      · rw [hm, update_self, hx]
      · rw [update_of_ne hm]
    have hc := decode_kin hd rfl hkin (forall_mem_cons.mp hall).2 (fun j p hj => (hF.alive j p hj).2) hsame ?_
    · exact fun g hg => kin_congr (fun m => by rw [hslot, hsame]) (hc g hg)
    · rintro p k i pid rfl
      exact hF.orphan i (hgood _ mem_cons_self)
  | adopt p st hf hp hx =>
    subst hf
    have hr : AllKin t rest := kin_rest hI hF hcode hshape.1 hslot (fun g hg hj =>
      absurd ((kin_fresh (hall g (mem_cons_of_mem _ hg)) hj).symm.trans hp) nofun)
    simp only [decode] at hd
    (repeat' split at hd) <;> cases hd
    refine AllKin.cons (f := .wakeup _ 0) (hr.cons ⟨hkin.1, fun m hm => ?_⟩) trivial
    by_cases hmj : m = j
    · rw [hmj, hself, hx]
      exact fun he => hkin.1 (some.inj he).symm
    · rw [hne hmj]
      exact hkin.2 m (by omega)
  | born p k pid hf hx =>
    subst hf
    have hr : AllKin t rest := kin_rest hI hF hcode hshape.1 hslot (fun g hg hj => by
      rw [making_made rfl] at hnodup
      exact absurd (mem_filterMap.mpr ⟨g, hg, made_of_fresh hj⟩) (nodup_cons.mp hnodup).1)
    cases k <;> cases hd
    all_goals
      repeat first
        | exact hr
        | refine AllKin.cons ?_ trivial
  | freed hf hx =>
    have hload : load rest = 0 := by
      rcases hf with ⟨p, pid, st, rfl⟩ | rfl <;> exact hshape.1
    have hr : AllKin t rest := kin_rest hI hF hcode hload hslot (fun _ _ _ => hx)
    rcases hf with ⟨p, pid, st, rfl⟩ | rfl <;> cases hd
    all_goals
      repeat first
        | exact hr
        | refine AllKin.cons ?_ trivial

end

theorem Family.congr (hF : Family s) (hk : ∀ u, AllKin s (t.thread u).code) (hslot : t.slot = s.slot) : Family t where
  kin := fun u f hf => kin_congr (fun j => by rw [hslot]) (hk u f hf)
  orphan := hslot ▸ hF.orphan
  alive := hslot ▸ hF.alive
  init := hslot ▸ hF.init

section

variable (hI : Inv s) (hF : Family s) (hcode : (s.run h).code = f :: rest) (hd : decode s h rest f = some (.store j x c))

include hI hF hcode hd

theorem stored_orphan
    (hx : x.state = .unused) : x.parent = none := by
  have hgood := hI.good_run hcode
  have hold (hu : (s.slot j).state = .unused) : x.parent = none := by
    have hnone := hF.orphan j hu
    cases decode_bred hd with
    | same hp => exact hp.trans hnone
    | adopt p st _ hp => exact absurd (hnone.symm.trans hp) nofun
    | born p k pid hf =>
      subst hf
      have hused : (s.slot j).state = .used := (hgood _ mem_cons_self).1
      rw [hu] at hused
      contradiction
    | freed _ hp => exact hp
  cases hI.flagged hcode hd with
  | same _ _ hu => exact hold (hu.mp hx)
  | mark _ _ hu => exact hold (hu.mp hx)
  | freed _ _ _ hf => rcases hf with ⟨p, pid, st, rfl⟩ | rfl <;> cases hd <;> rfl
  | alloc _ _ hu => exact absurd hx hu

theorem family_store
    (ho : Outcome s h (.store j x c) t) : Family t := by
  have hall : AllKin s (f :: rest) := hcode ▸ hF.kin _
  have hgood := hI.good_run hcode
  have hof := hI.of_run hcode
  have hkin : Kin s f := hall f mem_cons_self
  have hslot : t.slot = update s.slot j x := ho.slot
  have hself : t.slot j = x := by rw [hslot, update_self]
  have hne {m : Nat} (hm : m ≠ j) : t.slot m = s.slot m := by rw [hslot, update_of_ne hm]
  have hact {q : Nat} (hq : Active (s.slot q).state) :
      Active (t.slot q).state ∨ ∃ st, f = .leave q (.exit st) .first := by
    by_cases hqj : q = j
    · subst hqj
      rw [hself]
      exact decode_active hd (hgood f mem_cons_self) hq
    · rw [hne hqj]
      exact .inl hq
  have hinit : Active (t.slot initproc).state := by
    rcases hact hF.init with ha | ⟨st, rfl⟩
    · exact ha
    · exact absurd rfl hkin.1
  -- A process that still has children is not the one that becomes a zombie here.
  have hparent {m p : Nat} (hm : (s.slot m).parent = some p) : Active (t.slot p).state ∧ m < NPROC := by
    obtain ⟨ha, hlt⟩ := hF.alive m p hm
    rcases hact ha with ha | ⟨st, rfl⟩
    · exact ⟨ha, hlt⟩
    · exact absurd hm (hkin.2 m)
  constructor
  case kin =>
    exact frames_step (P := fun _ f => Kin t f) ho (kin_self hI hF hcode hd hslot)
      (fun u hu => kin_others hI hF hcode (decode_bred hd) hslot hu) nofun
  case orphan =>
    intro m hm
    by_cases hmj : m = j
    · subst hmj
      rw [hself] at hm ⊢
      exact stored_orphan hI hF hcode hd hm
    · rw [hne hmj] at hm ⊢
      exact hF.orphan m hm
  case alive =>
    intro m p hm
    by_cases hmj : m = j
    · subst hmj
      rw [hself] at hm
      cases decode_bred hd with
      | same hx => exact hparent (hx.symm.trans hm)
      | adopt p' st _ hp hx =>
        rw [hx] at hm
        cases hm
        exact ⟨hinit, (hF.alive m p' hp).2⟩
      | born p' k pid hf hx =>
        subst hf
        rw [hx] at hm
        cases hm
        have hcur : (s.hart h).cur = .proc p := (hof _ mem_cons_self).own p rfl
        have hrun : (s.slot p).state = .running := by
          rw [(hI.hosted h p hcur).2.2, ← hcur, ← State.run, hcode]
          rfl
        rcases hact (.inr (.inr hrun)) with ha | ⟨st, hf⟩
        · exact ⟨ha, hkin.1⟩
        · cases hf
      | freed _ hx =>
        rw [hx] at hm
        cases hm
    · rw [hne hmj] at hm
      exact hparent hm
  case init => exact hinit

end

theorem family_note (hF : Family s) (es : List Event) : Family (s.note es) := ⟨hF.kin, hF.orphan, hF.alive, hF.init⟩

theorem family_step (hI : Inv s) (hF : Family s) (hstep : step n s a = some t) : Family t := by
  cases step_moves hI hstep with
  | code h f rest ins v hcode hd ho ht =>
    subst ht
    refine family_note ?_ _
    have hall : AllKin s (f :: rest) := hcode ▸ hF.kin _
    obtain ⟨hf, hr⟩ := forall_mem_cons.mp hall
    by_cases hstore : ∃ j x c, ins = .store j x c
    · obtain ⟨j, x, c, rfl⟩ := hstore
      exact family_store hI hF hcode hd ho
    · have hslots : slots s ins = s.slot := by
        cases ins <;> first | rfl | exact absurd ⟨_, _, _, rfl⟩ hstore
      refine hF.congr ?_ (ho.slot.trans hslots)
      refine frames_step (P := fun _ f => Kin s f) ho ?_ (fun u _ => hF.kin u) ?_
      · cases hc : next ins with
        | none => exact hF.kin _
        | some c =>
          refine decode_kin hd hc hf hr (fun j p hj => (hF.alive j p hj).2) (fun j => by rw [hslots]) ?_
          rintro p k i pid rfl
          cases hd
          exact absurd ⟨_, _, _, rfl⟩ hstore
      · exact fun j _ => forall_forkret j trivial trivial trivial trivial trivial trivial
  | other a ins ha hd hq hn ho =>
    obtain ⟨c, hc⟩ : ∃ c, next ins = some c := by
      cases ins <;> first | exact ⟨_, rfl⟩ | contradiction
    have hslot : t.slot = s.slot := by
      rw [ho.slot]
      cases ins <;> first | rfl | contradiction
    refine hF.congr ?_ hslot
    refine frames_step (P := fun _ f => Kin s f) ho ?_ (fun u _ => hF.kin u) ?_
    · rw [hc]
      exact starts_forall hd hc ha (hF.kin _) (fun f hb => kin_begins hb) (fun _ _ _ _ hf => hf.2)
    · exact fun j _ => forall_forkret j trivial trivial trivial trivial trivial trivial

theorem family_boot : Family boot := by
  have hparent (j : Nat) : (boot.slot j).parent = none := by
    by_cases hj : j = initproc <;> simp [boot, hj]
  constructor
  case kin => exact forall_boot (P := fun _ => Kin boot) (fun _ => trivial) (forall_forkret _ trivial trivial trivial trivial trivial trivial)
  case orphan => exact fun j _ => hparent j
  case alive =>
    intro j p hj
    rw [hparent j] at hj
    cases hj
  case init => exact .inl rfl

theorem family_run (r : Run (step n)) (h0 : r.state 0 = boot) (i : Nat) (hi : i ≤ r.length) :
    Inv (r.state i) ∧ Family (r.state i) :=
  r.invariant (I := fun s => Inv s ∧ Family s) r.meets_true (h0 ▸ ⟨inv_boot, family_boot⟩)
    (fun _ _ _ hI _ hstep => ⟨inv_step hI.1 hstep, family_step hI.1 hI.2 hstep⟩) i hi

end Invariant

end Xv6Rcu.ProcessFamily

import Xv6Rcu.Fifo
import Xv6Rcu.Threads
import Xv6Rcu.Virtio

namespace Xv6Rcu.Virtio

open Fifo Threads Transition Function

variable {T B : Type}

section Places

def Pc.inside : Pc B → Bool
  | .idle | .enter _ _ | .allocSleep _ _ | .waitSleep _ _ _ | .intrEnter => false
  | _ => true

def Pc.descs : Pc B → List Nat
  | .format _ _ c | .ring _ c | .bump _ c | .wait _ c _ | .waitSleep _ c _ | .clear _ c _ => [c.i0, c.i1, c.i2]
  | .freeChain _ _ i rest => i :: rest
  | _ => []

def Pc.submitted : Pc B → Option (B × Idx)
  | .ring b c | .bump b c | .wait b c _ | .waitSleep b c _ | .clear b c _ => some (b, c)
  | _ => none

def Pc.tail : Pc B → Option (List Nat)
  | .freeChain _ _ i rest => some (i :: rest)
  | _ => none

def Pc.armed : Pc B → Option B
  | .ring b _ | .bump b _ => some b
  | _ => none

def Pc.stored : Pc B → Option Nat
  | .bump _ c => some c.i0
  | _ => none

/-- Requests that the device may know of: first descriptor, buffer and number. -/
def Pc.active : Pc B → Option (Nat × B × Nat)
  | .wait b c k | .waitSleep b c k => some (c.i0, b, k)
  | _ => none

def Pc.finished : Pc B → Option Nat
  | .clear _ _ k | .freeChain _ k _ _ | .leave _ k => some k
  | _ => none

def Pc.reading : Pc B → Option Nat
  | .intrStatus id | .intrBuf id => some id
  | _ => none

theorem active_buf {q : Pc B} {h k : Nat} {b : B} (ha : q.active = some (h, b, k)) : q.buf = some b ∧ h ∈ q.descs := by
  cases q <;> simp_all [Pc.active, Pc.buf, Pc.descs]

theorem active_submitted {q : Pc B} {h k : Nat} {b : B} (ha : q.active = some (h, b, k)) :
    ∃ c : Idx, q.submitted = some (b, c) ∧ c.i0 = h := by
  cases q <;> simp_all [Pc.active, Pc.submitted]

theorem submitted_mem {q : Pc B} {b : B} {c : Idx} (h : q.submitted = some (b, c)) :
    q.descs = [c.i0, c.i1, c.i2] ∧ q.buf = some b := by
  cases q <;> simp_all [Pc.submitted, Pc.descs, Pc.buf]

theorem armed_buf {q : Pc B} {b : B} (h : q.armed = some b) : q.buf = some b := by
  cases q <;> simp_all [Pc.armed, Pc.buf]

theorem tail_descs {q : Pc B} {l : List Nat} (h : q.tail = some l) : q.descs = l := by
  cases q <;> simp_all [Pc.tail, Pc.descs]

theorem stored_inside {q : Pc B} {i : Nat} (h : q.stored = some i) : q.inside = true := by
  cases q <;> simp_all [Pc.stored, Pc.inside]

theorem reading_active {q : Pc B} {i : Nat} (h : q.reading = some i) : q.active = none := by
  cases q <;> simp_all [Pc.reading, Pc.active]

theorem reading_inside {q : Pc B} {i : Nat} (h : q.reading = some i) : q.inside = true := by
  cases q <;> simp_all [Pc.reading, Pc.inside]

end Places

section Invariant

def ChainFrom (desc : Nat → Desc B) : List Nat → Prop
  | [] => False
  | [i] => (desc i).flags &&& F_NEXT = 0
  | i :: j :: rest => (desc i).flags &&& F_NEXT ≠ 0 ∧ (desc i).next = j ∧ ChainFrom desc (j :: rest)

theorem ChainFrom.congr {desc desc' : Nat → Desc B} {l : List Nat} (h : ChainFrom desc l)
    (heq : ∀ i ∈ l, desc' i = desc i) : ChainFrom desc' l := by
  induction l with
  | nil => exact h
  | cons i l ih =>
    have hi := heq i List.mem_cons_self
    cases l with
    | nil =>
      unfold ChainFrom at h ⊢
      rw [hi]
      exact h
    | cons j l =>
      unfold ChainFrom at h ⊢
      rw [hi]
      exact ⟨h.1, h.2.1, ih h.2.2 (fun m hm => heq m (List.mem_cons_of_mem _ hm))⟩

/-- The chain of a request; its last descriptor points to the status. -/
def Linked (desc : Nat → Desc B) (c : Idx) : Prop :=
  ChainFrom desc [c.i0, c.i1, c.i2] ∧ (desc c.i2).addr = .status c.i0

variable {s s' : State T B} {t u : T} {q : Pc B} {h k : Nat} {b : B}

structure Own (free : Nat → Bool) (pc : T → Pc B) : Prop where
  free : ∀ i < NUM, free i = true ↔ ∀ t, i ∉ (pc t).descs
  unique : ∀ t u i, i ∈ (pc t).descs → i ∈ (pc u).descs → t = u
  nodup : ∀ t, (pc t).descs.Nodup
  lt : ∀ t, ∀ i ∈ (pc t).descs, i < NUM

structure Local (s : State T B) (t : T) (q : Pc B) : Prop where
  lock : q.inside = true → s.lock = some t
  shape : ∀ b c, q.submitted = some (b, c) → Linked s.d.desc c ∧ s.d.infoB c.i0 = some b
  tail : ∀ l, q.tail = some l → ChainFrom s.d.desc l
  armed : ∀ b, q.armed = some b → s.d.disk b = true
  stored : ∀ i, q.stored = some i → s.d.ring (s.d.idx % NUM) = i
  numbered : ∀ h b k, q.active = some (h, b, k) → s.req h = k ∧ (s.d.disk b = false → k ∈ s.completed)
  finished : ∀ k, q.finished = some k → k ∈ s.completed

def Busy (s : State T B) (h : Nat) : Prop := ∃ t b k, (s.pc t).active = some (h, b, k) ∧ s.d.disk b = true

def State.out (s : State T B) (pa pu : List Nat) : List Nat := pa ++ s.work ++ s.ready ++ s.posting.toList ++ pu

/-- The way of a request: through the available ring (`pa`), the device and the
used ring (`pu`); `pre` is the entry that the handler has dealt with, but not
counted. -/
structure Flow (s : State T B) (pa pu pre : List Nat) : Prop where
  avail : Holds NUM WRAP s.d.ring s.taken s.d.idx pa
  used : Holds NUM WRAP s.usedRing s.d.usedIdx s.usedIdx (pre ++ pu)
  nodup : (pre ++ s.out pa pu).Nodup
  mem : ∀ h, h ∈ s.out pa pu ↔ Busy s h
  owned : ∀ h ∈ pre, ∃ t b k, (s.pc t).active = some (h, b, k)
  bump : pre ≠ [] → ∃ t, s.pc t = .intrBump
  one : ∀ t, s.pc t = .intrBump → ∃ h, pre = [h]
  status : ∀ h ∈ s.ready ++ s.posting.toList ++ pu, s.d.infoStatus h = 0
  posted : ∀ h, s.posting = some h → s.usedRing (s.usedIdx % NUM) = h
  done : ∀ h ∈ pu, s.req h ∈ s.completed
  reading : ∀ t id, (s.pc t).reading = some id → pu.head? = some id
  filled : ∀ t, s.pc t = .intrRead → pu ≠ []

structure Inv (s : State T B) : Prop where
  bufs : Distinct Pc.buf s.pc
  own : Own s.d.free s.pc
  places : ∀ t, Local s t (s.pc t)
  flow : ∃ pa pu pre, Flow s pa pu pre
  panic : s.panic = none

end Invariant

section Frames

variable {s s' : State T B} {t u : T} {p q : Pc B} {pa pu pre : List Nat}

theorem Local.frame (h : Local s u q) (hlock : q.inside = true → s'.lock = some u)
    (hdesc : ∀ i ∈ q.descs, s'.d.desc i = s.d.desc i) (hinfo : ∀ i ∈ q.descs, s'.d.infoB i = s.d.infoB i)
    (hdisk : ∀ b, q.buf = some b → s'.d.disk b = s.d.disk b)
    (hring : q.inside = true → s'.d.ring = s.d.ring ∧ s'.d.idx = s.d.idx)
    (hreq : ∀ i ∈ q.descs, s'.req i = s.req i) (hdone : ∀ k ∈ s.completed, k ∈ s'.completed) : Local s' u q := by
  refine ⟨hlock, fun b c hs => ?_, fun l hl => ?_, fun b hb => ?_, fun i hi => ?_, fun h' b k ha => ?_,
    fun k hk => hdone k (h.finished k hk)⟩
  · obtain ⟨hd, hb⟩ := submitted_mem hs
    obtain ⟨⟨hc, haddr⟩, hib⟩ := h.shape b c hs
    rw [← hd] at hc
    refine ⟨⟨?_, ?_⟩, ?_⟩
    · rw [← hd]
      exact hc.congr hdesc
    · rw [hdesc c.i2 (by rw [hd]; simp)]
      exact haddr
    · rw [hinfo c.i0 (by rw [hd]; simp)]
      exact hib
  · have hd := tail_descs hl
    exact (h.tail l hl).congr (fun i hi => hdesc i (hd ▸ hi))
  · rw [hdisk b (armed_buf hb)]
    exact h.armed b hb
  · obtain ⟨hr, hx⟩ := hring (stored_inside hi)
    rw [hr, hx]
    exact h.stored i hi
  · obtain ⟨hb, hm⟩ := active_buf ha
    obtain ⟨h1, h2⟩ := h.numbered h' b k ha
    rw [hreq h' hm, hdisk b hb]
    exact ⟨h1, fun hd => hdone k (h2 hd)⟩

theorem busy_congr (hact : ∀ u, (s'.pc u).active = (s.pc u).active)
    (hdisk : ∀ u h b k, (s.pc u).active = some (h, b, k) → s'.d.disk b = s.d.disk b) (h : Nat) :
    Busy s' h ↔ Busy s h := by
  constructor
  · rintro ⟨u, b, k, ha, hd⟩
    rw [hact] at ha
    exact ⟨u, b, k, ha, by rw [← hdisk u h b k ha]; exact hd⟩
  · rintro ⟨u, b, k, ha, hd⟩
    exact ⟨u, b, k, by rw [hact]; exact ha, by rw [hdisk u h b k ha]; exact hd⟩

theorem active_update [DecidableEq T] (hat : s.pc t = p) (ha : q.active = p.active) (u : T) :
    (update s.pc t q u).active = (s.pc u).active := same_update hat ha u

/-- What the way of the requests depends on is the same. -/
structure Still (s s' : State T B) : Prop where
  rings : s'.d.ring = s.d.ring ∧ s'.d.idx = s.d.idx ∧ s'.d.usedIdx = s.d.usedIdx
  device : s'.usedRing = s.usedRing ∧ s'.usedIdx = s.usedIdx ∧ s'.taken = s.taken ∧ s'.work = s.work ∧
    s'.ready = s.ready ∧ s'.posting = s.posting
  disk : ∀ u h b k, (s.pc u).active = some (h, b, k) → s'.d.disk b = s.d.disk b
  status : ∀ h, Busy s h → s'.d.infoStatus h = s.d.infoStatus h
  ghost : s'.req = s.req ∧ s'.completed = s.completed

theorem Still.refl (s : State T B) : Still s s :=
  ⟨⟨rfl, rfl, rfl⟩, ⟨rfl, rfl, rfl, rfl, rfl, rfl⟩, fun _ _ _ _ _ => rfl, fun _ _ => rfl, rfl, rfl⟩

theorem Flow.moved [DecidableEq T] (hf : Flow s pa pu pre) (hs : Still s s') (hpc : s'.pc = update s.pc t q)
    (hat : s.pc t = p) (ha : q.active = p.active) (hp : p ≠ .intrBump) (hb : q ≠ .intrBump)
    (hr : ∀ id, q.reading = some id → pu.head? = some id) (hne : q = .intrRead → pu ≠ []) : Flow s' pa pu pre := by
  obtain ⟨⟨h1, h2, h3⟩, ⟨h4, h5, h6, h7, h8, h9⟩, hdisk, hstatus, hreq, hdone⟩ := hs
  have hact : ∀ u, (s'.pc u).active = (s.pc u).active := fun u => by rw [hpc]; exact active_update hat ha u
  have hout : s'.out pa pu = s.out pa pu := by
    unfold State.out
    rw [h7, h8, h9]
  have hbusy : ∀ h, h ∈ s.ready ++ s.posting.toList ++ pu → Busy s h := by
    intro h hh
    refine (hf.mem h).mp ?_
    unfold State.out
    simp only [List.mem_append] at hh ⊢
    tauto
  refine ⟨by rw [h1, h2, h6]; exact hf.avail, by rw [h3, h4, h5]; exact hf.used, by rw [hout]; exact hf.nodup,
    fun h => ?_, fun h hh => ?_, fun hpre => ?_, fun u => ?_, fun h hh => ?_, fun h hh => ?_, fun h hh => ?_,
    fun u id => ?_, fun u => ?_⟩
  · rw [hout, hf.mem h, busy_congr hact hdisk]
  · obtain ⟨u, b, k, hu⟩ := hf.owned h hh
    exact ⟨u, b, k, by rw [hact]; exact hu⟩
  · obtain ⟨u, hu⟩ := hf.bump hpre
    have hut : u ≠ t := by
      rintro rfl
      exact hp (hat.symm.trans hu)
    exact ⟨u, by rw [hpc, update_of_ne hut]; exact hu⟩
  · rw [hpc]
    exact update_cases u (fun h => absurd h hb) (fun _ => hf.one u)
  · rw [h8, h9] at hh
    rw [hstatus h (hbusy h hh)]
    exact hf.status h hh
  · rw [h4, h5]
    exact hf.posted h (h9 ▸ hh)
  · rw [hreq, hdone]
    exact hf.done h hh
  · rw [hpc]
    exact update_cases u (hr id) (fun _ => hf.reading u id)
  · rw [hpc]
    exact update_cases u hne (fun _ => hf.filled u)

def Pc.quiet (q : Pc B) : Prop := q.reading = none ∧ q ≠ .intrRead ∧ q ≠ .intrBump

theorem Flow.frame [DecidableEq T] (hf : Flow s pa pu pre) (hs : Still s s') (hpc : s'.pc = update s.pc t q)
    (hat : s.pc t = p) (ha : q.active = p.active) (hp : p ≠ .intrBump) (hq : q.quiet) : Flow s' pa pu pre :=
  hf.moved hs hpc hat ha hp hq.2.2 (fun _ hr => absurd (hq.1.symm.trans hr) nofun) (fun h => absurd h hq.2.1)

theorem Own.change [DecidableEq T] {free free' : Nat → Bool} {pc : T → Pc B} (h : Own free pc) (hnd : q.descs.Nodup)
    (hlt : ∀ i ∈ q.descs, i < NUM) (hnew : ∀ i ∈ q.descs, i ∈ (pc t).descs ∨ free i = true)
    (hfree : ∀ i < NUM, free' i = true ↔ i ∉ q.descs ∧ (free i = true ∨ i ∈ (pc t).descs)) :
    Own free' (update pc t q) := by
  have hdisj : ∀ u, u ≠ t → ∀ i ∈ (pc u).descs, i ∉ q.descs := by
    intro u hu i hi hq
    rcases hnew i hq with hmine | hfr
    · exact hu (h.unique u t i hi hmine)
    · exact (h.free i (hlt i hq)).mp hfr u hi
  refine ⟨fun i hi => ?_, fun u v i => ?_, fun u => update_cases u hnd (fun _ => h.nodup u),
    fun u => update_cases u hlt (fun _ => h.lt u)⟩
  · rw [hfree i hi]
    constructor
    · rintro ⟨hnq, hold⟩ u
      refine update_cases u hnq (fun hu hi' => ?_)
      rcases hold with hfr | hmine
      · exact (h.free i hi).mp hfr u hi'
      · exact hu (h.unique u t i hi' hmine)
    · intro hall
      have hat := hall t
      rw [update_self] at hat
      refine ⟨hat, or_iff_not_imp_right.mpr (fun hmine => (h.free i hi).mpr (fun u hu => ?_))⟩
      rcases eq_or_ne u t with rfl | hut
      · exact hmine hu
      · exact hall u (by rwa [update_of_ne hut])
  · refine update_cases u ?_ (fun hu => ?_)
    · exact update_cases v (fun _ _ => rfl) (fun hv hq hi => absurd hq (hdisj v hv i hi))
    · exact update_cases v (fun hi hq => absurd hq (hdisj u hu i hi)) (fun _ => h.unique u v i)

theorem Own.same [DecidableEq T] {free : Nat → Bool} {pc : T → Pc B} (h : Own free pc) (hat : pc t = p)
    (hq : q.descs = p.descs) : Own free (update pc t q) := by
  have hd : ∀ u, (update pc t q u).descs = (pc u).descs := fun u => same_update hat hq u
  refine ⟨fun i hi => ?_, fun u v i => ?_, fun u => ?_, fun u => ?_⟩
  · rw [h.free i hi]
    exact forall_congr' (fun u => by rw [hd])
  · rw [hd, hd]
    exact h.unique u v i
  · rw [hd]
    exact h.nodup u
  · rw [hd]
    exact h.lt u

theorem Inv.outside (h : Inv s) (hl : s.lock = none ∨ s.lock = some t) (hu : u ≠ t) : (s.pc u).inside = false := by
  by_contra hc
  have := (h.places u).lock (by simpa using hc)
  rcases hl with hl | hl
  · rw [hl] at this
    cases this
  · rw [hl] at this
    exact hu (Option.some.inj this).symm

theorem Inv.at (h : Inv s) (hpc : s.pc t = q) : Local s t q := hpc ▸ h.places t

theorem Inv.not_inside {o : Option T} (h : Inv s) (hl : s.lock = none ∨ s.lock = some t) (u : T) (hu : u ≠ t)
    (hin : (s.pc u).inside = true) : o = some u :=
  absurd ((h.outside hl hu).symm.trans hin) nofun

theorem Inv.move [DecidableEq T] (h : Inv s) (hpc : s'.pc = update s.pc t q)
    (hbufs : Distinct Pc.buf s'.pc) (hown : Own s'.d.free s'.pc) (hloc : Local s' t q)
    (hothers : ∀ u, u ≠ t → Local s' u (s.pc u)) (hflow : ∃ pa pu pre, Flow s' pa pu pre)
    (hpanic : s'.panic = s.panic) : Inv s' := by
  refine ⟨hbufs, hown, fun u => ?_, hflow, hpanic.trans h.panic⟩
  rw [hpc]
  exact update_cases u hloc (fun hu => hothers u hu)

theorem Inv.goto [DecidableEq T] (h : Inv s) (hpc : s'.pc = update s.pc t q) (hat : s.pc t = p) (hd : s'.d = s.d)
    (hghost : s'.req = s.req ∧ s'.completed = s.completed ∧ s'.panic = s.panic)
    (hlock : ∀ u, u ≠ t → (s.pc u).inside = true → s'.lock = some u) (hloc : Local s' t q)
    (hb : q.buf = none ∨ q.buf = p.buf) (hdescs : q.descs = p.descs)
    (hflow : ∃ pa pu pre, Flow s' pa pu pre) : Inv s' := by
  obtain ⟨hreq, hdone, hpanic⟩ := hghost
  refine h.move hpc ?_ ?_ hloc (fun u hu => ?_) hflow hpanic
  · rw [hpc]
    rcases hb with hb | hb
    · refine h.bufs.update (fun u _ b _ hq => ?_)
      rw [hb] at hq
      cases hq
    · exact h.bufs.same hat hb
  · rw [hpc, hd]
    exact h.own.same hat hdescs
  · refine (h.places u).frame (hlock u hu) ?_ ?_ ?_ ?_ ?_ ?_
    · intro i _
      rw [hd]
    · intro i _
      rw [hd]
    · intro b _
      rw [hd]
    · intro _
      rw [hd]
      exact ⟨rfl, rfl⟩
    · intro i _
      rw [hreq]
    · rw [hdone]
      exact fun _ hk => hk

end Frames

end Xv6Rcu.Virtio

import Xv6Rcu.VirtioInv

namespace Xv6Rcu.Virtio

open Fifo Threads Transition Function List Option

variable {T B : Type}

section Descriptors

variable {d d' : Disk B} {i : Nat}

structure Rest (d d' : Disk B) : Prop where
  ring : d'.ring = d.ring
  idx : d'.idx = d.idx
  usedIdx : d'.usedIdx = d.usedIdx
  infoB : d'.infoB = d.infoB
  infoStatus : d'.infoStatus = d.infoStatus
  disk : d'.disk = d.disk

theorem Rest.trans {d'' : Disk B} (h : Rest d d') (h' : Rest d' d'') : Rest d d'' :=
  ⟨h'.ring.trans h.ring, h'.idx.trans h.idx, h'.usedIdx.trans h.usedIdx, h'.infoB.trans h.infoB,
    h'.infoStatus.trans h.infoStatus, h'.disk.trans h.disk⟩

theorem Rest.still {s s' : State T B} (h : Rest s.d s'.d) (hs : s' = { s with d := s'.d, pc := s'.pc, lock := s'.lock }) :
    Still s s' := by
  rw [hs]
  exact { Still.refl s with
    rings := ⟨h.ring, h.idx, h.usedIdx⟩
    disk := fun _ _ b _ _ => congrFun h.disk b
    status := fun i _ => congrFun h.infoStatus i }

theorem allocDesc_some (h : allocDesc d = some (i, d')) : i < NUM ∧ d.free i = true ∧
    d'.free = update d.free i false ∧ d'.desc = d.desc ∧ Rest d d' := by
  unfold allocDesc at h
  split at h
  · cases h
  · rename_i j hj
    cases h
    have hm := mem_of_find?_eq_some hj
    have hp := find?_some hj
    exact ⟨mem_range.mp hm, hp, rfl, rfl, rfl, rfl, rfl, rfl, rfl, rfl⟩

theorem freeDesc_spec (hi : i < NUM) (hf : d.free i = false) : ∃ d', freeDesc d i = .ok d' ∧
    d'.free = update d.free i true ∧ (∀ j, j ≠ i → d'.desc j = d.desc j) ∧ Rest d d' := by
  have hok : freeDesc d i = .ok { d with desc := update d.desc i ⟨.null, 0, 0, 0⟩,
                                         free := update d.free i true } := by
    rw [freeDesc, if_neg (by omega), if_neg (by rw [hf]; nofun)]
  exact ⟨_, hok, rfl, fun j hj => update_of_ne hj _ _, rfl, rfl, rfl, rfl, rfl, rfl⟩

/-- What `alloc3_desc` does: it does not panic, and without success it has
given everything back. -/
inductive Alloc3 (d : Disk B) : Except Panic (Option Idx × Disk B) → Prop
  | fail {d' : Disk B} (free : d'.free = d.free) (desc : ∀ j, d.free j = false → d'.desc j = d.desc j)
      (rest : Rest d d') : Alloc3 d (.ok (none, d'))
  | took {c : Idx} {d' : Disk B} (nodup : [c.i0, c.i1, c.i2].Nodup) (lt : ∀ i ∈ [c.i0, c.i1, c.i2], i < NUM ∧ d.free i = true)
      (free : ∀ j, d'.free j = true ↔ d.free j = true ∧ j ∉ [c.i0, c.i1, c.i2]) (desc : d'.desc = d.desc)
      (rest : Rest d d') : Alloc3 d (.ok (some c, d'))

theorem ne_of_free {d : Disk B} {i j : Nat} (hi : d.free i = true) (hj : d.free j = false) : j ≠ i := by
  rintro rfl
  rw [hi] at hj
  cases hj

theorem alloc3Desc_spec (d : Disk B) : Alloc3 d (alloc3Desc d) := by
  unfold alloc3Desc
  cases h0 : allocDesc d with
  | none => exact Alloc3.fail rfl (fun _ _ => rfl) ⟨rfl, rfl, rfl, rfl, rfl, rfl⟩
  | some x0 =>
    obtain ⟨i0, d0⟩ := x0
    obtain ⟨hlt0, hf0, hfree0, hdesc0, hrest0⟩ := allocDesc_some h0
    dsimp only
    cases h1 : allocDesc d0 with
    | none =>
      have hbusy : d0.free i0 = false := by
        rw [hfree0, update_self]
      obtain ⟨e, he, hfe, hde, hre⟩ := freeDesc_spec hlt0 hbusy
      dsimp only
      rw [he]
      refine Alloc3.fail ?_ (fun j hj => ?_) (hrest0.trans hre)
      · rw [hfe, hfree0, update_idem, ← hf0, update_eq_self]
      · rw [hde j (ne_of_free hf0 hj), hdesc0]
    | some x1 =>
      obtain ⟨i1, d1⟩ := x1
      obtain ⟨hlt1, hf1, hfree1, hdesc1, hrest1⟩ := allocDesc_some h1
      have h10 : i1 ≠ i0 := (ne_of_free hf1 (by rw [hfree0, update_self])).symm
      have hf1' : d.free i1 = true := by
        rw [hfree0, update_of_ne h10] at hf1
        exact hf1
      dsimp only
      cases h2 : allocDesc d1 with
      | none =>
        have hbusy0 : d1.free i0 = false := by
          rw [hfree1, update_of_ne (Ne.symm h10), hfree0, update_self]
        obtain ⟨e, he, hfe, hde, hre⟩ := freeDesc_spec hlt0 hbusy0
        have hbusy1 : e.free i1 = false := by
          rw [hfe, update_of_ne h10, hfree1, update_self]
        obtain ⟨e', he', hfe', hde', hre'⟩ := freeDesc_spec hlt1 hbusy1
        dsimp only
        rw [he]
        change Alloc3 d ((freeDesc e i1).map _)
        rw [he']
        refine Alloc3.fail ?_ (fun j hj => ?_) ((hrest0.trans hrest1).trans (hre.trans hre'))
        · funext j
          rw [hfe', hfe, hfree1, hfree0]
          refine update_cases j ?_ (fun hj1 => ?_)
          · rw [hf1']
          · by_cases hj0 : j = i0
            · rw [hj0, update_self, hf0]
            · rw [update_of_ne hj0, update_of_ne hj1, update_of_ne hj0]
        · rw [hde' j (ne_of_free hf1' hj), hde j (ne_of_free hf0 hj), hdesc1, hdesc0]
      | some x2 =>
        obtain ⟨i2, d2⟩ := x2
        obtain ⟨hlt2, hf2, hfree2, hdesc2, hrest2⟩ := allocDesc_some h2
        have h21 : i2 ≠ i1 := (ne_of_free hf2 (by rw [hfree1, update_self])).symm
        have h20 : i2 ≠ i0 :=
          (ne_of_free hf2 (by rw [hfree1, update_of_ne (Ne.symm h10), hfree0, update_self])).symm
        have hf2' : d.free i2 = true := by
          rw [hfree1, update_of_ne h21, hfree0, update_of_ne h20] at hf2
          exact hf2
        dsimp only
        refine Alloc3.took ?_ ?_ (fun j => ?_) (hdesc2.trans (hdesc1.trans hdesc0)) ((hrest0.trans hrest1).trans hrest2)
        · simp [Ne.symm h10, Ne.symm h20, Ne.symm h21]
        · simp only [mem_cons, not_mem_nil, or_false]
          rintro i (rfl | rfl | rfl)
          · exact ⟨hlt0, hf0⟩
          · exact ⟨hlt1, hf1'⟩
          · exact ⟨hlt2, hf2'⟩
        · rw [hfree2, hfree1, hfree0]
          simp only [update_apply, mem_cons, not_mem_nil, or_false]
          by_cases e2 : j = i2 <;> by_cases e1 : j = i1 <;> by_cases e0 : j = i0 <;> simp [e2, e1, e0]

end Descriptors

section Driver

variable [DecidableEq T] {s s' : State T B} {t u : T} {p q : Pc B} {b : B} {c : Idx} {k : Nat} {pa pu pre : List Nat}

section

variable (h : Inv s)

include h

omit [DecidableEq T] in
theorem Inv.quiet_other (hl : s.lock = some t) (hu : u ≠ t) : (s.pc u).quiet := by
  have hout := h.outside (.inr hl) hu
  cases hpc : s.pc u <;> simp_all [Pc.inside, Pc.quiet, Pc.reading]

omit [DecidableEq T] in
theorem Inv.pre_nil (hl : s.lock = some t) (hat : s.pc t = p) (hp : p ≠ .intrBump) (hf : Flow s pa pu pre) :
    pre = [] := by
  by_contra hne
  obtain ⟨u, hu⟩ := hf.bump hne
  have hut : u ≠ t := by
    rintro rfl
    exact hp (hat.symm.trans hu)
  exact (h.quiet_other hl hut).2.2 hu

theorem Inv.call_rw {write : Bool} (hpc : s.pc t = .idle) (hv : ∀ u, (s.pc u).buf ≠ some b) :
    Inv (s.goto t (.enter b write)) := by
  obtain ⟨pa, pu, pre, hf⟩ := h.flow
  refine h.move (t := t) (q := .enter b write) rfl ?_ ?_ ⟨nofun, nofun, nofun, nofun, nofun, nofun, nofun⟩
    (fun u hu => ?_) ⟨pa, pu, pre, ?_⟩ rfl
  · refine h.bufs.update (fun u _ b' hb' hq => ?_)
    have hbb : b = b' := some.inj hq
    exact hv u (hbb ▸ hb')
  · exact h.own.same hpc rfl
  · exact (h.places u).frame (h.places u).lock (fun _ _ => rfl) (fun _ _ => rfl) (fun _ _ => rfl)
      (fun _ => ⟨rfl, rfl⟩) (fun _ _ => rfl) (fun _ hk => hk)
  · exact hf.frame { Still.refl s with } (t := t) (q := .enter b write) rfl hpc rfl nofun
      ⟨rfl, nofun, nofun⟩

theorem Inv.acquire (hs : s.acquire t q = some s') (hloc : Local s' t q) (hat : s.pc t = p)
    (hb : q.buf = p.buf) (hd : q.descs = p.descs) (ha : q.active = p.active) (hp : p ≠ .intrBump) (hq : q.quiet) :
    Inv s' := by
  unfold State.acquire at hs
  split at hs
  · rename_i hl
    cases hs
    obtain ⟨pa, pu, pre, hf⟩ := h.flow
    refine h.goto (t := t) (q := q) rfl hat rfl ⟨rfl, rfl, rfl⟩ (h.not_inside (.inl hl)) hloc (.inr hb) hd ⟨pa, pu, pre, ?_⟩
    · exact hf.frame { Still.refl s with } (t := t) (q := q) rfl hat ha hp hq
  · cases hs

theorem Inv.release (hl : s.lock = some t) (hloc : Local (s.release t q) t q)
    (hat : s.pc t = p) (hb : q.buf = none ∨ q.buf = p.buf) (hd : q.descs = p.descs) (ha : q.active = p.active)
    (hp : p ≠ .intrBump) (hq : q.quiet) : Inv (s.release t q) := by
  obtain ⟨pa, pu, pre, hf⟩ := h.flow
  refine h.goto (t := t) (q := q) rfl hat rfl ⟨rfl, rfl, rfl⟩ (h.not_inside (.inr hl)) hloc hb hd ⟨pa, pu, pre, ?_⟩
  · exact hf.frame { Still.refl s with } (t := t) (q := q) rfl hat ha hp hq

omit [DecidableEq T] in
theorem Inv.others (hl : s.lock = some t)
    (hdesc : ∀ u, u ≠ t → ∀ i ∈ (s.pc u).descs, s'.d.desc i = s.d.desc i)
    (hinfo : ∀ u, u ≠ t → ∀ i ∈ (s.pc u).descs, s'.d.infoB i = s.d.infoB i)
    (hdisk : ∀ u, u ≠ t → ∀ b, (s.pc u).buf = some b → s'.d.disk b = s.d.disk b)
    (hreq : ∀ u, u ≠ t → ∀ i ∈ (s.pc u).descs, s'.req i = s.req i) (hdone : s'.completed = s.completed) :
    ∀ u, u ≠ t → Local s' u (s.pc u) := by
  intro u hu
  have hout := h.outside (.inr hl) hu
  refine (h.places u).frame ?_ (hdesc u hu) (hinfo u hu) (hdisk u hu) ?_ (hreq u hu) ?_
  · rw [hout]
    nofun
  · rw [hout]
    nofun
  · rw [hdone]
    exact fun _ hk => hk

theorem Inv.allocFail {write : Bool} {d' : Disk B} (hpc : s.pc t = .alloc b write)
    (hfree : d'.free = s.d.free) (hdesc : ∀ j, s.d.free j = false → d'.desc j = s.d.desc j) (hrest : Rest s.d d') :
    Inv { s.release t (.allocSleep b write) with d := d' } := by
  have hl := (h.at hpc).lock rfl
  obtain ⟨pa, pu, pre, hf⟩ := h.flow
  have hkeep : ∀ u, ∀ i ∈ (s.pc u).descs, d'.desc i = s.d.desc i := by
    intro u i hi
    refine hdesc i ?_
    by_contra hc
    exact (h.own.free i (h.own.lt u i hi)).mp (by simpa using hc) u hi
  refine h.move (t := t) (q := .allocSleep b write) rfl (h.bufs.same hpc rfl) ?_
    ⟨nofun, nofun, nofun, nofun, nofun, nofun, nofun⟩ ?_ ⟨pa, pu, pre, ?_⟩ rfl
  · change Own d'.free _
    rw [hfree]
    exact h.own.same hpc rfl
  · exact h.others hl (fun u _ => hkeep u) (fun u _ i _ => by rw [← hrest.infoB]) (fun u _ b _ => by rw [← hrest.disk])
      (fun _ _ _ _ => rfl) rfl
  · exact hf.frame (hrest.still rfl) (t := t) (q := .allocSleep b write) rfl hpc rfl nofun ⟨rfl, nofun, nofun⟩

theorem Inv.allocSome {write : Bool} {d' : Disk B} (hpc : s.pc t = .alloc b write)
    (hnd : [c.i0, c.i1, c.i2].Nodup) (hlt : ∀ i ∈ [c.i0, c.i1, c.i2], i < NUM ∧ s.d.free i = true)
    (hfree : ∀ j, d'.free j = true ↔ s.d.free j = true ∧ j ∉ [c.i0, c.i1, c.i2]) (hdesc : d'.desc = s.d.desc)
    (hrest : Rest s.d d') : Inv { s.goto t (.format b write c) with d := d' } := by
  have hl := (h.at hpc).lock rfl
  obtain ⟨pa, pu, pre, hf⟩ := h.flow
  refine h.move (t := t) (q := .format b write c) rfl (h.bufs.same hpc rfl) ?_
    ⟨fun _ => hl, nofun, nofun, nofun, nofun, nofun, nofun⟩ ?_ ⟨pa, pu, pre, ?_⟩ rfl
  · refine h.own.change hnd (fun i hi => (hlt i hi).1) (fun i hi => .inr (hlt i hi).2) (fun i _ => ?_)
    have hnone : i ∉ (s.pc t).descs := by
      rw [hpc]
      exact not_mem_nil
    change d'.free i = true ↔ i ∉ [c.i0, c.i1, c.i2] ∧ _
    rw [hfree]
    tauto
  · exact h.others hl (fun u _ i _ => congrFun hdesc i) (fun u _ i _ => congrFun hrest.infoB i)
      (fun u _ b _ => congrFun hrest.disk b) (fun _ _ _ _ => rfl) rfl
  · exact hf.frame (hrest.still rfl) (t := t) (q := .format b write c) rfl hpc rfl nofun ⟨rfl, nofun, nofun⟩

omit [DecidableEq T] in
theorem Inv.owned_ne {i j : Nat} (hi : i ∈ (s.pc t).descs) (hu : u ≠ t) (hj : j ∈ (s.pc u).descs) :
    j ≠ i := by
  rintro rfl
  exact hu (h.own.unique u t j hj hi)

omit [DecidableEq T] in
theorem Inv.buf_ne {b' : B} (hb : (s.pc t).buf = some b) (hu : u ≠ t) (hb' : (s.pc u).buf = some b') :
    b' ≠ b := by
  rintro rfl
  exact hu (h.bufs u t b' hb' hb)

end

theorem format_linked [DecidableEq B] (blockno : B → Nat) (b : B) (write : Bool) (d : Disk B)
    (hnd : [c.i0, c.i1, c.i2].Nodup) : Linked (format blockno b write c d).desc c := by
  simp only [nodup_cons, mem_cons, not_mem_nil, or_false, not_or] at hnd
  obtain ⟨⟨h01, h02⟩, h12, -⟩ := hnd
  have hd0 : (format blockno b write c d).desc c.i0 = ⟨.op c.i0, 16, F_NEXT, c.i1⟩ := by
    simp only [format]
    rw [update_of_ne h02, update_of_ne h01, update_self]
  have hd1 : (format blockno b write c d).desc c.i1 =
      ⟨.data b, BSIZE, (if write then 0 else F_WRITE) ||| F_NEXT, c.i2⟩ := by
    simp only [format]
    rw [update_of_ne h12, update_self]
  have hd2 : (format blockno b write c d).desc c.i2 = ⟨.status c.i0, 1, F_WRITE, 0⟩ := by
    simp only [format]
    rw [update_self]
  refine ⟨⟨?_, by rw [hd0], ?_, by rw [hd1], ?_⟩, by rw [hd2]⟩
  · rw [hd0]
    dsimp only
    decide
  · rw [hd1]
    dsimp only
    cases write <;> decide
  · change ((format blockno b write c d).desc c.i2).flags &&& F_NEXT = 0
    rw [hd2]
    dsimp only
    decide

theorem Inv.format [DecidableEq B] {write : Bool} (blockno : B → Nat) (h : Inv s) (hpc : s.pc t = .format b write c) :
    Inv { s.goto t (.ring b c) with d := Virtio.format blockno b write c s.d } := by
  have hl := (h.at hpc).lock rfl
  obtain ⟨pa, pu, pre, hf⟩ := h.flow
  have hmine : (s.pc t).descs = [c.i0, c.i1, c.i2] := by rw [hpc]; rfl
  have hbuf : (s.pc t).buf = some b := by rw [hpc]; rfl
  have hact : ∀ u h' b' k, (s.pc u).active = some (h', b', k) → u ≠ t := by
    rintro u h' b' k ha rfl
    rw [hpc] at ha
    cases ha
  have h0 : c.i0 ∈ (s.pc t).descs := by rw [hmine]; simp
  have h1 : c.i1 ∈ (s.pc t).descs := by rw [hmine]; simp
  have h2 : c.i2 ∈ (s.pc t).descs := by rw [hmine]; simp
  refine h.move (t := t) (q := .ring b c) rfl (h.bufs.same hpc rfl) (h.own.same hpc rfl)
    ⟨fun _ => hl, ?_, nofun, ?_, nofun, nofun, nofun⟩ ?_ ⟨pa, pu, pre, ?_⟩ rfl
  · intro b' c' hs
    cases hs
    exact ⟨format_linked blockno b write s.d (hmine ▸ h.own.nodup t), update_self ..⟩
  · intro b' hb'
    cases hb'
    exact update_self ..
  · refine h.others hl (fun u hu i hi => ?_) (fun u hu i hi => ?_) (fun u hu b' hb' => ?_) (fun _ _ _ _ => rfl) rfl
    · simp only [Virtio.format]
      rw [update_of_ne (h.owned_ne h2 hu hi), update_of_ne (h.owned_ne h1 hu hi),
        update_of_ne (h.owned_ne h0 hu hi)]
    · exact update_of_ne (h.owned_ne h0 hu hi) _ _
    · exact update_of_ne (h.buf_ne hbuf hu hb') _ _
  · refine hf.frame { Still.refl s with disk := fun u h' b' k ha => ?_, status := fun h' hb => ?_ } (t := t)
      (q := .ring b c) rfl hpc rfl nofun ⟨rfl, nofun, nofun⟩
    · exact update_of_ne (h.buf_ne hbuf (hact u h' b' k ha) (active_buf ha).1) _ _
    · obtain ⟨u, b', k, ha, -⟩ := hb
      exact update_of_ne (h.owned_ne h0 (hact u h' b' k ha) (active_buf ha).2) _ _

omit [DecidableEq T] in
theorem Inv.out_lt (h : Inv s) (hf : Flow s pa pu pre) : ∀ i ∈ pre ++ s.out pa pu, i < NUM := by
  intro i hi
  rcases mem_append.mp hi with hp | ho
  · obtain ⟨u, b, k, ha⟩ := hf.owned i hp
    exact h.own.lt u i (active_buf ha).2
  · obtain ⟨u, b, k, ha, -⟩ := (hf.mem i).mp ho
    exact h.own.lt u i (active_buf ha).2

theorem nodup_le {l : List Nat} (hnd : l.Nodup) (hlt : ∀ i ∈ l, i < NUM) : l.length ≤ NUM := by
  simpa using (hnd.subperm (fun i hi => mem_range.mpr (hlt i hi))).length_le

omit [DecidableEq T] in
/-- A request that the device does not know of yet has its place in the ring. -/
theorem Inv.avail_room (h : Inv s) (hf : Flow s pa pu pre) {i : Nat} (hi : i ∈ (s.pc t).descs)
    (ha : (s.pc t).active = none) : i ∉ pre ++ s.out pa pu ∧ pa.length < NUM := by
  have hne : ∀ u b k, (s.pc u).active ≠ some (i, b, k) := by
    intro u b k hu
    have hut := h.own.unique u t i (active_buf hu).2 hi
    rw [hut, ha] at hu
    cases hu
  have hni : i ∉ pre ++ s.out pa pu := by
    intro hc
    rcases mem_append.mp hc with hp | ho
    · obtain ⟨u, b, k, hu⟩ := hf.owned i hp
      exact hne u b k hu
    · obtain ⟨u, b, k, hu, -⟩ := (hf.mem i).mp ho
      exact hne u b k hu
  refine ⟨hni, ?_⟩
  have hlen : (i :: (pre ++ s.out pa pu)).length ≤ NUM := by
    refine nodup_le (nodup_cons.mpr ⟨hni, hf.nodup⟩) (fun j hj => ?_)
    rcases mem_cons.mp hj with rfl | hj
    · exact h.own.lt t j hi
    · exact h.out_lt hf j hj
  simp only [length_cons, length_append, State.out] at hlen
  omega

theorem num_dvd : NUM ∣ WRAP := by decide

theorem num_lt : NUM < WRAP := by decide

theorem Inv.ring (h : Inv s) (hpc : s.pc t = .ring b c) :
    Inv { s.goto t (.bump b c) with d := { s.d with ring := update s.d.ring (s.d.idx % NUM) c.i0 } } := by
  have hloc := h.at hpc
  have hl := hloc.lock rfl
  obtain ⟨pa, pu, pre, hf⟩ := h.flow
  obtain ⟨-, hroom⟩ := h.avail_room (t := t) hf (i := c.i0) (by rw [hpc]; simp [Pc.descs]) (by rw [hpc]; rfl)
  refine h.move (t := t) (q := .bump b c) rfl (h.bufs.same hpc rfl) (h.own.same hpc rfl)
    ⟨fun _ => hl, hloc.shape, (by intros; contradiction), hloc.armed, ?_, (by intros; contradiction), (by intros; contradiction)⟩ ?_ ⟨pa, pu, pre, ?_⟩ rfl
  · intro i hi
    cases hi
    exact update_self ..
  · exact h.others hl (fun _ _ _ _ => rfl) (fun _ _ _ _ => rfl) (fun _ _ _ _ => rfl) (fun _ _ _ _ => rfl) rfl
  · have hg : Flow (s.goto t (.bump b c)) pa pu pre := hf.frame { Still.refl s with } (t := t) (q := .bump b c) rfl
      hpc rfl (by rintro ⟨⟩) ⟨rfl, (by rintro ⟨⟩), (by rintro ⟨⟩)⟩
    exact { hg with avail := hf.avail.scribble num_dvd hroom c.i0 }

omit [DecidableEq T] in
theorem out_push (s : State T B) (pa pu : List Nat) (i : Nat) : (s.out (pa ++ [i]) pu).Perm (i :: s.out pa pu) := by
  unfold State.out
  simp only [append_assoc, singleton_append]
  exact perm_middle

theorem Flow.quiet (hf : Flow s pa pu pre) (hq : q.quiet) :
    (∀ u, update s.pc t q u = .intrBump → ∃ i, pre = [i]) ∧
    (∀ u id, (update s.pc t q u).reading = some id → pu.head? = some id) ∧
    (∀ u, update s.pc t q u = .intrRead → pu ≠ []) := by
  refine ⟨fun u => ?_, fun u id => ?_, fun u => ?_⟩
  · exact update_cases u (fun hu => absurd hu hq.2.2) (fun _ => hf.one u)
  · exact update_cases u (fun hu => absurd (hq.1.symm.trans hu) nofun) (fun _ => hf.reading u id)
  · exact update_cases u (fun hu => absurd hu hq.2.1) (fun _ => hf.filled u)

theorem Inv.bump (h : Inv s) (hpc : s.pc t = .bump b c) :
    Inv { s.goto t (.wait b c s.issued) with
      d := { s.d with idx := (s.d.idx + 1) % WRAP }
      req := update s.req c.i0 s.issued
      issued := s.issued + 1 } := by
  have hloc := h.at hpc
  have hl := hloc.lock rfl
  have hmine : c.i0 ∈ (s.pc t).descs := by rw [hpc]; simp [Pc.descs]
  have hbuf : (s.pc t).buf = some b := by rw [hpc]; rfl
  have harm := hloc.armed b rfl
  obtain ⟨pa, pu, pre, hf⟩ := h.flow
  obtain ⟨hni, hroom⟩ := h.avail_room (t := t) hf hmine (by rw [hpc]; rfl)
  have hpre := h.pre_nil hl hpc (by rintro ⟨⟩) hf
  subst hpre
  rw [nil_append] at hni
  have hother : ∀ u, u ≠ t → update s.pc t (.wait b c s.issued) u = s.pc u := fun u hu =>
    update_of_ne hu _ _
  have hat : update s.pc t (.wait b c s.issued) t = .wait b c s.issued := update_self ..
  obtain ⟨hone, hreading, hfilled⟩ := hf.quiet (t := t) (q := .wait b c s.issued) ⟨rfl, (by rintro ⟨⟩), (by rintro ⟨⟩)⟩
  refine h.move (t := t) (q := .wait b c s.issued) rfl (h.bufs.same hpc rfl)
    (h.own.same hpc rfl) ⟨fun _ => hl, hloc.shape, (by intros; contradiction), (by intros; contradiction), (by intros; contradiction), ?_, (by intros; contradiction)⟩ ?_
    ⟨pa ++ [c.i0], pu, [], ⟨?_, hf.used, ?_, fun i => ?_, (by intros; contradiction), (by intros; contradiction), hone, hf.status, hf.posted,
      fun i hi => ?_, hreading, hfilled⟩⟩ rfl
  · intro i b' k ha
    cases ha
    refine ⟨update_self .., fun hd => ?_⟩
    change s.d.disk b = false at hd
    rw [harm] at hd
    cases hd
  · exact h.others hl (fun _ _ _ _ => rfl) (fun _ _ _ _ => rfl) (fun _ _ _ _ => rfl)
      (fun u hu i hi => update_of_ne (h.owned_ne hmine hu hi) _ _) rfl
  · exact hf.avail.push num_dvd hroom (hloc.stored _ rfl)
  · exact ((out_push s pa pu c.i0).nodup_iff).mpr (nodup_cons.mpr ⟨hni, hf.nodup⟩)
  · refine ((out_push s pa pu c.i0).mem_iff).trans ?_
    rw [mem_cons, hf.mem i]
    constructor
    · rintro (rfl | ⟨u, b', k, ha, hd⟩)
      · exact ⟨t, b, s.issued, congrArg Pc.active hat, harm⟩
      · refine ⟨u, b', k, ?_, hd⟩
        have hut : u ≠ t := by
          rintro rfl
          rw [hpc] at ha
          cases ha
        exact (congrArg Pc.active (hother u hut)).trans ha
    · rintro ⟨u, b', k, ha, hd⟩
      by_cases hut : u = t
      · subst hut
        have ha := (congrArg Pc.active hat).symm.trans ha
        rw [Pc.active, some.injEq, Prod.mk.injEq] at ha
        exact .inl ha.1.symm
      · exact .inr ⟨u, b', k, (congrArg Pc.active (hother u hut)).symm.trans ha, hd⟩
  · have hne : i ≠ c.i0 := by
      rintro rfl
      exact hni (mem_append_right _ hi)
    change update s.req c.i0 s.issued i ∈ s.completed
    rw [update_of_ne hne]
    exact hf.done i hi

theorem Inv.waitDone (h : Inv s) (hpc : s.pc t = .wait b c k) (hd : s.d.disk b = false) :
    Inv (s.goto t (.clear b c k)) := by
  have hloc := h.at hpc
  have hl := hloc.lock rfl
  obtain ⟨pa, pu, pre, hf⟩ := h.flow
  have hpre := h.pre_nil hl hpc nofun hf
  subst hpre
  have hother : ∀ u, u ≠ t → update s.pc t (.clear b c k) u = s.pc u := fun u hu =>
    update_of_ne hu _ _
  have hat : update s.pc t (.clear b c k) t = .clear b c k := update_self ..
  obtain ⟨hone, hreading, hfilled⟩ := hf.quiet (t := t) (q := .clear b c k) ⟨rfl, nofun, nofun⟩
  refine h.goto (t := t) (q := .clear b c k) rfl hpc rfl ⟨rfl, rfl, rfl⟩ (h.not_inside (.inr hl))
    ⟨fun _ => hl, hloc.shape, nofun, nofun, nofun, nofun, ?_⟩ (.inr rfl) rfl
    ⟨pa, pu, [], ⟨hf.avail, hf.used, hf.nodup, fun i => (hf.mem i).trans ?_, nofun, nofun, hone, hf.status, hf.posted,
      hf.done, hreading, hfilled⟩⟩
  · intro k' hk'
    cases hk'
    exact (hloc.numbered c.i0 b k rfl).2 hd
  · -- `t` was not busy: its buffer is not with the disk
    constructor
    · rintro ⟨u, b', k', ha, hd'⟩
      have hut : u ≠ t := by
        rintro rfl
        rw [hpc, Pc.active, some.injEq, Prod.mk.injEq, Prod.mk.injEq] at ha
        obtain ⟨-, rfl, -⟩ := ha
        rw [hd] at hd'
        cases hd'
      exact ⟨u, b', k', (congrArg Pc.active (hother u hut)).trans ha, hd'⟩
    · rintro ⟨u, b', k', ha, hd'⟩
      have hut : u ≠ t := by
        rintro rfl
        have ha := (congrArg Pc.active hat).symm.trans ha
        cases ha
      exact ⟨u, b', k', (congrArg Pc.active (hother u hut)).symm.trans ha, hd'⟩

theorem Inv.clear (h : Inv s) (hpc : s.pc t = .clear b c k) :
    Inv { s.goto t (.freeChain b k c.i0 [c.i1, c.i2]) with
      d := { s.d with infoB := update s.d.infoB c.i0 none } } := by
  have hloc := h.at hpc
  have hl := hloc.lock rfl
  have hmine : c.i0 ∈ (s.pc t).descs := by rw [hpc]; simp [Pc.descs]
  obtain ⟨pa, pu, pre, hf⟩ := h.flow
  refine h.move (t := t) (q := .freeChain b k c.i0 [c.i1, c.i2]) rfl (h.bufs.same hpc rfl)
    (h.own.same hpc rfl) ⟨fun _ => hl, (by intros; contradiction), ?_, (by intros; contradiction), (by intros; contradiction), (by intros; contradiction), hloc.finished⟩ ?_
    ⟨pa, pu, pre, ?_⟩ rfl
  · intro l hl'
    cases hl'
    exact (hloc.shape b c rfl).1.1
  · exact h.others hl (fun _ _ _ _ => rfl) (fun u hu i hi => update_of_ne (h.owned_ne hmine hu hi) _ _)
      (fun _ _ _ _ => rfl) (fun _ _ _ _ => rfl) rfl
  · exact hf.frame { Still.refl s with } (t := t) (q := .freeChain b k c.i0 [c.i1, c.i2]) rfl hpc rfl (by rintro ⟨⟩)
      ⟨rfl, (by rintro ⟨⟩), (by rintro ⟨⟩)⟩

theorem Inv.freeOne {i : Nat} {rest : List Nat} {d' : Disk B} (h : Inv s) (hpc : s.pc t = .freeChain b k i rest)
    (hfree : d'.free = update s.d.free i true) (hdesc : ∀ j, j ≠ i → d'.desc j = s.d.desc j)
    (hrest : Rest s.d d') (hq : q.descs = rest) (hqb : q.buf = some b) (hqa : q.active = none) (hqq : q.quiet)
    (hloc : s.lock = some t → k ∈ s.completed → Local { s.goto t q with d := d' } t q) :
    Inv { s.goto t q with d := d' } := by
  have hp := h.at hpc
  have hl := hp.lock rfl
  have hmine : (s.pc t).descs = i :: rest := by rw [hpc]; rfl
  have hi : i ∈ (s.pc t).descs := by rw [hmine]; exact mem_cons_self
  have hnd := h.own.nodup t
  rw [hmine, nodup_cons] at hnd
  obtain ⟨pa, pu, pre, hf⟩ := h.flow
  refine h.move (t := t) (q := q) rfl (h.bufs.same rfl (by rw [hpc, hqb]; rfl)) ?_ (hloc hl (hp.finished k rfl)) ?_
    ⟨pa, pu, pre, ?_⟩ rfl
  · refine h.own.change (by rw [hq]; exact hnd.2) (fun j hj => ?_) (fun j hj => .inl ?_) (fun j hj => ?_)
    · rw [hq] at hj
      exact h.own.lt t j (hmine ▸ mem_cons_of_mem _ hj)
    · rw [hq] at hj
      exact hmine ▸ mem_cons_of_mem _ hj
    · change d'.free j = true ↔ _
      rw [hfree, hq, hmine, mem_cons]
      by_cases hji : j = i
      · subst hji
        simp [hnd.1]
      · rw [update_of_ne hji]
        have hown : s.d.free j = true → j ∉ rest := fun hfr hm =>
          (h.own.free j hj).mp hfr t (hmine ▸ mem_cons_of_mem _ hm)
        tauto
  · exact h.others hl (fun u hu j hj => hdesc j (h.owned_ne hi hu hj)) (fun u _ j _ => congrFun hrest.infoB j)
      (fun u _ b _ => congrFun hrest.disk b) (fun _ _ _ _ => rfl) rfl
  · exact hf.frame (hrest.still rfl) (t := t) (q := q) rfl hpc hqa nofun hqq

theorem Inv.freeChain [DecidableEq B] {blockno : B → Nat} {call : Call B} {i : Nat} {rest : List Nat} (h : Inv s)
    (hpc : s.pc t = .freeChain b k i rest) (hs : procStep blockno s t call = some s') : Inv s' := by
  have hp := h.at hpc
  have hmine : (s.pc t).descs = i :: rest := by rw [hpc]; rfl
  have hi : i ∈ (s.pc t).descs := by rw [hmine]; exact mem_cons_self
  have hlt := h.own.lt t i hi
  have hbusy : s.d.free i = false := by
    by_contra hc
    exact (h.own.free i hlt).mp (by simpa using hc) t hi
  obtain ⟨d', hok, hfree, hdesc, hrest⟩ := freeDesc_spec hlt hbusy
  have hchain := hp.tail _ rfl
  have hnd := h.own.nodup t
  rw [hmine, nodup_cons] at hnd
  unfold procStep at hs
  rw [hpc] at hs
  simp only [hok] at hs
  cases rest with
  | nil =>
    have hlast : (s.d.desc i).flags &&& F_NEXT = 0 := hchain
    rw [if_neg (by simp [hlast]), some.injEq] at hs
    subst hs
    refine h.freeOne hpc hfree hdesc hrest rfl rfl rfl ⟨rfl, nofun, nofun⟩ (fun hl hk => ?_)
    refine ⟨fun _ => hl, nofun, nofun, nofun, nofun, nofun, fun k' hk' => ?_⟩
    rw [Pc.finished, some.injEq] at hk'
    exact hk' ▸ hk
  | cons j r =>
    obtain ⟨hflag, hnext, hmore⟩ := hchain
    rw [if_pos hflag, hnext, tail_cons, some.injEq] at hs
    subst hs
    refine h.freeOne hpc hfree hdesc hrest rfl rfl rfl ⟨rfl, nofun, nofun⟩ (fun hl hk => ?_)
    refine ⟨fun _ => hl, nofun, fun l hl' => ?_, nofun, nofun, nofun, fun k' hk' => ?_⟩
    · cases hl'
      refine hmore.congr (fun m hm => hdesc m ?_)
      rintro rfl
      exact hnd.1 hm
    · rw [Pc.finished, some.injEq] at hk'
      exact hk' ▸ hk

end Driver

section Handler

variable [DecidableEq T] {s s' : State T B} {t u : T} {p q : Pc B} {b : B} {pa pu pre : List Nat} {id : Nat}

theorem Inv.handle (h : Inv s) (hl : s.lock = some t)
    (hq : q.buf = none ∧ q.descs = [] ∧ q.submitted = none ∧ q.tail = none ∧ q.armed = none ∧ q.stored = none ∧
      q.active = none ∧ q.finished = none)
    (hat : s.pc t = p) (hp : p.descs = [] ∧ p.active = none ∧ p ≠ .intrBump) (hb : q ≠ .intrBump)
    (hflow : ∀ pa pu, Flow s pa pu [] → (∀ i, q.reading = some i → pu.head? = some i) ∧ (q = .intrRead → pu ≠ [])) :
    Inv (s.goto t q) := by
  obtain ⟨hbuf, hdescs, h1, h2, h3, h4, h5, h6⟩ := hq
  obtain ⟨pa, pu, pre, hf⟩ := h.flow
  have hpre := h.pre_nil hl hat hp.2.2 hf
  subst hpre
  obtain ⟨hr, hne⟩ := hflow pa pu hf
  refine h.goto (t := t) (q := q) rfl hat rfl ⟨rfl, rfl, rfl⟩ (h.not_inside (.inr hl)) ?_ (.inl hbuf) (hdescs.trans hp.1.symm)
    ⟨pa, pu, [], ?_⟩
  · refine ⟨fun _ => hl, ?_, ?_, ?_, ?_, ?_, ?_⟩
    · rw [h1]
      nofun
    · rw [h2]
      nofun
    · rw [h3]
      nofun
    · rw [h4]
      nofun
    · rw [h5]
      nofun
    · rw [h6]
      nofun
  · exact hf.moved { Still.refl s with } (t := t) (q := q) rfl hat (h5.trans hp.2.1.symm) hp.2.2 hb hr hne

theorem Inv.intrRead (h : Inv s) (hpc : s.pc t = .intrRead) :
    Inv (s.goto t (.intrStatus (s.usedRing (s.d.usedIdx % NUM)))) := by
  have hl := (h.at hpc).lock rfl
  refine h.handle hl ⟨rfl, rfl, rfl, rfl, rfl, rfl, rfl, rfl⟩ hpc ⟨rfl, rfl, nofun⟩ nofun
    (fun pa pu hf => ⟨fun i hi => ?_, nofun⟩)
  rw [Pc.reading, some.injEq] at hi
  cases hpu : pu with
  | nil => exact absurd hpu (hf.filled t hpc)
  | cons x rest =>
    have hused := hf.used
    rw [hpu, nil_append] at hused
    rw [head?_cons, ← hi, (hused.pop num_dvd).1]

omit [DecidableEq T] in
/-- The entry that the handler looks at: its status is zero, and it is the
request of a process that sleeps. -/
theorem Inv.reading (h : Inv s) (hr : (s.pc t).reading = some id) (hf : Flow s pa pu []) :
    ∃ rest u b c k, pu = id :: rest ∧ s.d.infoStatus id = 0 ∧ u ≠ t ∧ s.pc u = .waitSleep b c k ∧ c.i0 = id ∧
      s.d.infoB id = some b := by
  have hl := (h.places t).lock (reading_inside hr)
  have hhead := hf.reading t id hr
  cases hpu : pu with
  | nil =>
    rw [hpu] at hhead
    cases hhead
  | cons x rest =>
    rw [hpu, head?_cons, some.injEq] at hhead
    subst hhead
    have hmem : x ∈ pu := hpu ▸ mem_cons_self
    have hstat := hf.status x (mem_append_right _ hmem)
    obtain ⟨u, b, k, ha, -⟩ := (hf.mem x).mp (mem_append_right _ hmem)
    obtain ⟨c, hsub, hc⟩ := active_submitted ha
    have hut : u ≠ t := by
      rintro rfl
      rw [reading_active hr] at ha
      cases ha
    have hout := h.outside (.inr hl) hut
    have hinfo := ((h.places u).shape b c hsub).2
    have hpcu : s.pc u = .waitSleep b c k := by
      cases hq : s.pc u <;> rw [hq] at ha hout hsub <;> simp_all [Pc.active, Pc.inside, Pc.submitted]
    exact ⟨rest, u, b, c, k, rfl, hstat, hut, hpcu, hc, hc ▸ hinfo⟩

omit [DecidableEq T] in
theorem out_pop (s : State T B) (pa pu : List Nat) (i : Nat) : (s.out pa (i :: pu)).Perm (i :: s.out pa pu) := by
  unfold State.out
  exact perm_middle

theorem Inv.intrBuf [DecidableEq B] (h : Inv s) (hpc : s.pc t = .intrBuf id) : ∃ b, s.d.infoB id = some b ∧
    Inv { s.goto t .intrBump with d := { s.d with disk := update s.d.disk b false } } := by
  have hloc := h.at hpc
  have hl := hloc.lock rfl
  obtain ⟨pa, pu, pre, hf⟩ := h.flow
  have hpre := h.pre_nil hl hpc (by rintro ⟨⟩) hf
  subst hpre
  obtain ⟨rest, v, b, c, k, rfl, -, hvt, hv, rfl, hinfo⟩ := h.reading (show (s.pc t).reading = some id by rw [hpc]; rfl) hf
  refine ⟨b, hinfo, ?_⟩
  have hlocv := h.at hv
  have hk : k ∈ s.completed := by
    have hd := hf.done c.i0 mem_cons_self
    rwa [(hlocv.numbered c.i0 b k rfl).1] at hd
  have hbufv : (s.pc v).buf = some b := by rw [hv]; rfl
  have hdescv : c.i0 ∈ (s.pc v).descs := by rw [hv]; simp [Pc.descs]
  have hnd : (c.i0 :: s.out pa rest).Nodup := ((out_pop s pa rest c.i0).nodup_iff).mp hf.nodup
  have hat : update s.pc t .intrBump t = .intrBump := update_self ..
  have hquiet : ∀ u, (update s.pc t .intrBump u).reading = none ∧ update s.pc t .intrBump u ≠ .intrRead := fun u =>
    update_cases u ⟨rfl, (by rintro ⟨⟩)⟩ (fun hu => ⟨(h.quiet_other hl hu).1, (h.quiet_other hl hu).2.1⟩)
  have hact : ∀ u, (update s.pc t .intrBump u).active = (s.pc u).active :=
    active_update hpc rfl
  refine h.move (t := t) (q := .intrBump) rfl ?_ (h.own.same hpc rfl)
    ⟨fun _ => hl, (by intros; contradiction), (by intros; contradiction), (by intros; contradiction), (by intros; contradiction), (by intros; contradiction), (by intros; contradiction)⟩ (fun u hu => ?_)
    ⟨pa, rest, [c.i0], ⟨hf.avail, hf.used, hnd, fun i => ?_, fun i hi => ?_, fun _ => ⟨t, hat⟩, fun _ _ => ⟨c.i0, rfl⟩,
      fun i hi => hf.status i ?_, hf.posted, fun i hi => hf.done i (mem_cons_of_mem _ hi), fun u id hu => ?_,
      fun u hu => ?_⟩⟩ rfl
  · exact h.bufs.update (fun _ _ _ _ hq => absurd hq (by contradiction))
  · have hout := h.outside (.inr hl) hu
    by_cases huv : u = v
    · rw [huv, hv]
      refine ⟨(by intros; contradiction), hlocv.shape, (by intros; contradiction), (by intros; contradiction), (by intros; contradiction), fun i b' k' ha => ?_, (by intros; contradiction)⟩
      cases ha
      exact ⟨(hlocv.numbered c.i0 b k rfl).1, fun _ => hk⟩
    · refine (h.places u).frame ?_ (fun _ _ => rfl) (fun _ _ => rfl)
        (fun b' hb' => update_of_ne (h.buf_ne hbufv huv hb') _ _) ?_ (fun _ _ => rfl) (fun _ hk => hk)
      · rw [hout]
        intros; contradiction
      · rw [hout]
        intros; contradiction
  · -- the request of `v` is no longer under way, the others are
    have hmem := hf.mem i
    rw [(out_pop s pa rest c.i0).mem_iff, mem_cons] at hmem
    change i ∈ s.out pa rest ↔ _
    constructor
    · intro hi
      have hne : i ≠ c.i0 := by
        rintro rfl
        exact (nodup_cons.mp hnd).1 hi
      obtain ⟨u, b', k', ha, hd⟩ := hmem.mp (.inr hi)
      have huv : u ≠ v := by
        rintro rfl
        rw [hv, Pc.active, some.injEq, Prod.mk.injEq] at ha
        exact hne ha.1.symm
      exact ⟨u, b', k', (hact u).trans ha, (update_of_ne (h.buf_ne hbufv huv (active_buf ha).1) _ _).trans hd⟩
    · rintro ⟨u, b', k', ha, hd⟩
      have ha := (hact u).symm.trans ha
      change update s.d.disk b false b' = true at hd
      have hbb : b' ≠ b := by
        rintro rfl
        rw [update_self] at hd
        cases hd
      rw [update_of_ne hbb] at hd
      rcases hmem.mpr ⟨u, b', k', ha, hd⟩ with rfl | hi
      · have huv := h.own.unique u v c.i0 (active_buf ha).2 hdescv
        rw [huv, hv, Pc.active, some.injEq, Prod.mk.injEq, Prod.mk.injEq] at ha
        exact absurd ha.2.1.symm hbb
      · exact hi
  · rw [mem_singleton] at hi
    subst hi
    exact ⟨v, b, k, (hact v).trans (congrArg Pc.active hv)⟩
  · rcases mem_append.mp hi with hi | hi
    · exact mem_append_left _ hi
    · exact mem_append_right _ (mem_cons_of_mem _ hi)
  · exact absurd ((hquiet u).1.symm.trans hu) (by rintro ⟨⟩)
  · exact absurd hu (hquiet u).2

theorem Inv.intrBump (h : Inv s) (hpc : s.pc t = .intrBump) :
    Inv { s.goto t .intrTest with d := { s.d with usedIdx := (s.d.usedIdx + 1) % WRAP } } := by
  have hloc := h.at hpc
  have hl := hloc.lock rfl
  obtain ⟨pa, pu, pre, hf⟩ := h.flow
  obtain ⟨x, rfl⟩ := hf.one t hpc
  have hquiet : ∀ u, (update s.pc t .intrTest u).quiet := fun u =>
    update_cases u ⟨rfl, nofun, nofun⟩ (fun hu => h.quiet_other hl hu)
  have hact : ∀ u, (update s.pc t .intrTest u).active = (s.pc u).active :=
    active_update hpc rfl
  refine h.move (t := t) (q := .intrTest) rfl ?_ (h.own.same hpc rfl)
    ⟨fun _ => hl, nofun, nofun, nofun, nofun, nofun, nofun⟩ ?_
    ⟨pa, pu, [], ⟨hf.avail, (hf.used.pop num_dvd).2, (nodup_cons.mp hf.nodup).2, fun i => ?_, nofun, nofun,
      fun u hu => ?_, hf.status, hf.posted, hf.done, fun u id hu => ?_, fun u hu => ?_⟩⟩ rfl
  · exact h.bufs.update (fun _ _ _ _ hq => absurd hq nofun)
  · exact h.others hl (fun _ _ _ _ => rfl) (fun _ _ _ _ => rfl) (fun _ _ _ _ => rfl) (fun _ _ _ _ => rfl) rfl
  · refine (hf.mem i).trans (Iff.symm ?_)
    refine busy_congr ?_ ?_ i
    · exact hact
    · exact fun _ _ _ _ _ => rfl
  · exact absurd hu (hquiet u).2.2
  · exact absurd ((hquiet u).1.symm.trans hu) nofun
  · exact absurd hu (hquiet u).2.1

end Handler

section Device

variable {s s' : State T B} {pa pu pre : List Nat} {i : Nat}

theorem Inv.device (pa' pu' : List Nat) (h : Inv s) (hf : Flow s pa pu pre) (hpc : s'.pc = s.pc) (hlock : s'.lock = s.lock)
    (hpanic : s'.panic = s.panic) (hreq : s'.req = s.req)
    (hd : s'.d.desc = s.d.desc ∧ s'.d.ring = s.d.ring ∧ s'.d.idx = s.d.idx ∧ s'.d.free = s.d.free ∧
      s'.d.usedIdx = s.d.usedIdx ∧ s'.d.infoB = s.d.infoB ∧ s'.d.disk = s.d.disk)
    (hdone : ∀ k ∈ s.completed, k ∈ s'.completed) (hperm : (s'.out pa' pu').Perm (s.out pa pu))
    (havail : Holds NUM WRAP s.d.ring s'.taken s.d.idx pa')
    (hused : Holds NUM WRAP s'.usedRing s.d.usedIdx s'.usedIdx (pre ++ pu'))
    (hstatus : ∀ i ∈ s'.ready ++ s'.posting.toList ++ pu', s'.d.infoStatus i = 0)
    (hposted : ∀ i, s'.posting = some i → s'.usedRing (s'.usedIdx % NUM) = i)
    (hpu : ∀ i ∈ pu', s.req i ∈ s'.completed) (hhead : ∀ i, pu.head? = some i → pu'.head? = some i)
    (hne : pu ≠ [] → pu' ≠ []) : Inv s' := by
  obtain ⟨hdesc, hring, hidx, hfree, hui, hinfo, hdisk⟩ := hd
  refine ⟨by rw [hpc]; exact h.bufs, by rw [hpc, hfree]; exact h.own, fun u => ?_, ⟨pa', pu', pre, ?_⟩,
    hpanic.trans h.panic⟩
  · rw [hpc]
    exact (h.places u).frame (fun hin => hlock.trans ((h.places u).lock hin)) (fun i _ => congrFun hdesc i)
      (fun i _ => congrFun hinfo i) (fun b _ => congrFun hdisk b) (fun _ => ⟨hring, hidx⟩) (fun i _ => congrFun hreq i)
      hdone
  · refine ⟨by rw [hring, hidx]; exact havail, by rw [hui]; exact hused, ?_, fun i => ?_, by rw [hpc]; exact hf.owned,
      by rw [hpc]; exact hf.bump, by rw [hpc]; exact hf.one, hstatus, hposted, by rw [hreq]; exact hpu, ?_, ?_⟩
    · exact ((hperm.append_left pre).nodup_iff).mpr hf.nodup
    · rw [hperm.mem_iff, hf.mem i]
      exact (busy_congr (fun u => by rw [hpc]) (fun _ _ b _ _ => congrFun hdisk b) i).symm
    · rw [hpc]
      exact fun u id hu => hhead id (hf.reading u id hu)
    · rw [hpc]
      exact fun u hu => hne (hf.filled u hu)

theorem Inv.take (h : Inv s) (hne : s.taken ≠ s.d.idx) :
    Inv { s with taken := (s.taken + 1) % WRAP, work := s.d.ring (s.taken % NUM) :: s.work } := by
  obtain ⟨pa, pu, pre, hf⟩ := h.flow
  cases hpa : pa with
  | nil => exact absurd ((hf.avail.empty_iff num_lt).mpr hpa) hne
  | cons x rest =>
    subst hpa
    obtain ⟨hx, hrest⟩ := hf.avail.pop num_dvd
    refine h.device rest pu hf rfl rfl rfl rfl ⟨rfl, rfl, rfl, rfl, rfl, rfl, rfl⟩ (fun _ hk => hk) ?_
      hrest hf.used hf.status hf.posted hf.done (fun _ hi => hi) id
    unfold State.out
    simp only [hx, append_assoc, cons_append]
    exact perm_middle

theorem putStatus_eq {c : Idx} (d : Disk B) (hc : Linked d.desc c) :
    putStatus d c.i0 = { d with infoStatus := update d.infoStatus c.i0 0 } := by
  obtain ⟨⟨-, h01, -, h12, -⟩, haddr⟩ := hc
  unfold putStatus
  rw [h01, h12, haddr]

theorem Inv.writeStatus (h : Inv s) (hi : i ∈ s.work) :
    Inv { s with d := putStatus s.d i, work := s.work.erase i, ready := i :: s.ready } := by
  obtain ⟨pa, pu, pre, hf⟩ := h.flow
  have hout : i ∈ s.out pa pu := by
    unfold State.out
    simp only [mem_append]
    tauto
  obtain ⟨u, b, k, ha, -⟩ := (hf.mem i).mp hout
  obtain ⟨c, hsub, rfl⟩ := active_submitted ha
  have hput := putStatus_eq s.d ((h.places u).shape b c hsub).1
  rw [hput]
  refine h.device pa pu hf rfl rfl rfl rfl ⟨rfl, rfl, rfl, rfl, rfl, rfl, rfl⟩ (fun _ hk => hk) ?_
    hf.avail hf.used (fun j hj => ?_) hf.posted hf.done (fun _ hi => hi) id
  · unfold State.out
    simp only [append_assoc, cons_append]
    refine List.Perm.append_left pa ?_
    refine perm_middle.trans ?_
    rw [← cons_append]
    exact (perm_cons_erase hi).symm.append_right _
  · change update s.d.infoStatus c.i0 0 j = 0
    refine update_cases j ?_ (fun _ => ?_)
    · rfl
    · refine hf.status j ?_
      simp only [mem_append, mem_cons] at hj ⊢
      tauto

theorem Inv.used_room (h : Inv s) (hf : Flow s pa pu pre) (hlen : 0 < s.ready.length + s.posting.toList.length) :
    (pre ++ pu).length < NUM := by
  have hle := nodup_le hf.nodup (h.out_lt hf)
  simp only [length_append, State.out] at hle ⊢
  omega

theorem Inv.post (h : Inv s) (hi : i ∈ s.ready) (hnone : s.posting = none) :
    Inv { s with usedRing := update s.usedRing (s.usedIdx % NUM) i, ready := s.ready.erase i,
                 posting := some i } := by
  obtain ⟨pa, pu, pre, hf⟩ := h.flow
  have hroom := h.used_room hf (Nat.add_pos_left (length_pos_of_mem hi) _)
  have hperm : (s.ready.erase i ++ [i]).Perm s.ready :=
    perm_append_comm.trans (perm_cons_erase hi).symm
  refine h.device pa pu hf rfl rfl rfl rfl ⟨rfl, rfl, rfl, rfl, rfl, rfl, rfl⟩ (fun _ hk => hk) ?_
    hf.avail (hf.used.scribble num_dvd hroom i) (fun j hj => hf.status j ?_) (fun j hj => ?_) hf.done (fun _ hi => hi) id
  · unfold State.out
    rw [hnone, toList_some, toList_none, append_nil, append_assoc (pa ++ s.work)]
    exact (hperm.append_left _).append_right _
  · rw [hnone, toList_none, append_nil]
    rw [toList_some] at hj
    rcases mem_append.mp hj with hj | hj
    · exact mem_append_left _ (hperm.mem_iff.mp hj)
    · exact mem_append_right _ hj
  · cases hj
    exact update_self ..

theorem Inv.publish (h : Inv s) (hi : s.posting = some i) :
    Inv { s with usedIdx := (s.usedIdx + 1) % WRAP, posting := none, completed := s.req i :: s.completed } := by
  obtain ⟨pa, pu, pre, hf⟩ := h.flow
  have hroom := h.used_room hf (by rw [hi]; exact Nat.succ_pos _)
  have hperm : (pu ++ [i]).Perm ([i] ++ pu) := perm_append_comm
  refine h.device pa (pu ++ [i]) hf rfl rfl rfl rfl ⟨rfl, rfl, rfl, rfl, rfl, rfl, rfl⟩
    (fun _ hk => mem_cons_of_mem _ hk) ?_ hf.avail ?_ (fun j hj => hf.status j ?_) nofun (fun j hj => ?_)
    (fun j hj => ?_) (fun _ => append_ne_nil_of_right_ne_nil _ (cons_ne_nil _ _))
  · unfold State.out
    rw [hi, toList_none, toList_some, append_nil, append_assoc _ [i]]
    exact hperm.append_left _
  · rw [← append_assoc]
    exact hf.used.push num_dvd hroom (hf.posted i hi)
  · rw [toList_none, append_nil] at hj
    rw [hi, toList_some, append_assoc]
    rcases mem_append.mp hj with hj | hj
    · exact mem_append_left _ hj
    · exact mem_append_right _ (hperm.mem_iff.mp hj)
  · rcases mem_append.mp hj with hj | hj
    · exact mem_cons_of_mem _ (hf.done j hj)
    · rw [mem_singleton.mp hj]
      exact mem_cons_self
  · rw [head?_append, hj]
    rfl

end Device

end Xv6Rcu.Virtio

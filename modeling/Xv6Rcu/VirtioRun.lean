import Xv6Rcu.VirtioSteps

namespace Xv6Rcu.Virtio

open Fifo Threads Transition Option

variable {T B : Type} [DecidableEq T] [DecidableEq B]

section Steps

variable {s s' : State T B} {t : T} {blockno : B → Nat} {call : Call B}

theorem Inv.alloc {b : B} {write : Bool} (h : Inv s) (hpc : s.pc t = .alloc b write)
    (hs : procStep blockno s t call = some s') : Inv s' := by
  unfold procStep at hs
  rw [hpc] at hs
  dsimp only at hs
  have hspec := alloc3Desc_spec s.d
  generalize alloc3Desc s.d = r at hspec hs
  cases hspec with
  | fail hfree hdesc hrest =>
    cases hs
    exact h.allocFail hpc hfree hdesc hrest
  | took hnd hlt hfree hdesc hrest =>
    cases hs
    exact h.allocSome hpc hnd hlt hfree hdesc hrest

theorem Inv.rw (h : Inv s) (hin : (s.pc t).inside = true) (hb : (s.pc t).buf ≠ none)
    (hs : procStep blockno s t call = some s') : Inv s' := by
  have hl := (h.places t).lock hin
  cases hpc : s.pc t
  case alloc b write => exact h.alloc hpc hs
  case freeChain b k i rest => exact h.freeChain hpc hs
  all_goals
    unfold procStep at hs
    rw [hpc] at hs hin hb
    dsimp only at hs
  case format b write c =>
    cases hs
    exact h.format blockno hpc
  case ring b c =>
    cases hs
    exact h.ring hpc
  case bump b c =>
    cases hs
    exact h.bump hpc
  case wait b c k =>
    have hloc := h.at hpc
    split at hs
    · cases hs
      exact h.release hl ⟨nofun, hloc.shape, nofun, nofun, nofun, hloc.numbered, nofun⟩ hpc (.inr rfl) rfl
        rfl nofun ⟨rfl, nofun, nofun⟩
    · rename_i hd
      cases hs
      exact h.waitDone hpc (by simpa using hd)
  case clear b c k =>
    cases hs
    exact h.clear hpc
  case leave b k =>
    cases hs
    exact h.release hl ⟨nofun, nofun, nofun, nofun, nofun, nofun, nofun⟩ hpc (.inl rfl) rfl
      rfl nofun ⟨rfl, nofun, nofun⟩
  all_goals simp_all [Pc.inside, Pc.buf]

theorem Inv.intr (h : Inv s) (hin : (s.pc t).inside = true) (hb : (s.pc t).buf = none)
    (hs : procStep blockno s t call = some s') : Inv s' := by
  have hl := (h.places t).lock hin
  unfold procStep at hs
  cases hpc : s.pc t <;> rw [hpc] at hs hin hb <;> dsimp only at hs
  case intrTest =>
    split at hs
    · rename_i hne
      cases hs
      refine h.handle hl ⟨rfl, rfl, rfl, rfl, rfl, rfl, rfl, rfl⟩ hpc ⟨rfl, rfl, nofun⟩ nofun
        (fun pa pu hf => ⟨nofun, fun _ hnil => hne ?_⟩)
      exact (hf.used.empty_iff num_lt).mpr (by rw [hnil]; rfl)
    · cases hs
      exact h.handle hl ⟨rfl, rfl, rfl, rfl, rfl, rfl, rfl, rfl⟩ hpc ⟨rfl, rfl, nofun⟩ nofun
        (fun pa pu hf => ⟨nofun, nofun⟩)
  case intrRead =>
    cases hs
    exact h.intrRead hpc
  case intrStatus id =>
    obtain ⟨pa, pu, pre, hf⟩ := h.flow
    have hpre := h.pre_nil hl hpc nofun hf
    subst hpre
    have hr : (s.pc t).reading = some id := by rw [hpc]; rfl
    obtain ⟨-, -, -, -, -, -, hstat, -⟩ := h.reading hr hf
    rw [if_neg (by simp [hstat])] at hs
    cases hs
    exact h.handle hl ⟨rfl, rfl, rfl, rfl, rfl, rfl, rfl, rfl⟩ hpc ⟨rfl, rfl, nofun⟩ nofun
      (fun pa pu hf => ⟨fun i hi => hf.reading t i (by rw [hpc]; exact hi), nofun⟩)
  case intrBuf id =>
    obtain ⟨b, hb, hinv⟩ := h.intrBuf hpc
    rw [hb] at hs
    cases hs
    exact hinv
  case intrBump =>
    cases hs
    exact h.intrBump hpc
  case intrLeave =>
    cases hs
    exact h.release hl ⟨nofun, nofun, nofun, nofun, nofun, nofun, nofun⟩ hpc (.inl rfl) rfl
      rfl nofun ⟨rfl, nofun, nofun⟩
  all_goals simp_all [Pc.inside, Pc.buf]

theorem Inv.enter (h : Inv s) (hin : (s.pc t).inside = false) (hv : Valid s (.proc t call))
    (hs : procStep blockno s t call = some s') : Inv s' := by
  have hlock : ∀ {q : Pc B}, s.acquire t q = some s' → s'.lock = some t ∧ s'.d = s.d ∧ s'.req = s.req ∧
      s'.completed = s.completed := by
    intro q hq
    unfold State.acquire at hq
    split at hq
    · cases hq
      exact ⟨rfl, rfl, rfl, rfl⟩
    · cases hq
  unfold procStep at hs
  cases hpc : s.pc t <;> rw [hpc] at hs hin <;> dsimp only at hs
  case idle =>
    cases call with
    | rw b write =>
      cases hs
      exact h.call_rw hpc (hv hpc)
    | intr =>
      cases hs
      obtain ⟨pa, pu, pre, hf⟩ := h.flow
      refine h.goto (t := t) (q := .intrEnter) rfl hpc rfl ⟨rfl, rfl, rfl⟩ (fun u _ hu => (h.places u).lock hu)
        ⟨nofun, nofun, nofun, nofun, nofun, nofun, nofun⟩ (.inl rfl) rfl ⟨pa, pu, pre, ?_⟩
      exact hf.frame { Still.refl s with } (t := t) (q := .intrEnter) rfl hpc rfl nofun ⟨rfl, nofun, nofun⟩
  case waitSleep b c k =>
    have hloc := h.at hpc
    obtain ⟨h1, h2, h3, h4⟩ := hlock hs
    refine h.acquire hs ⟨fun _ => h1, ?_, nofun, nofun, nofun, ?_, nofun⟩ hpc rfl rfl rfl nofun
      ⟨rfl, nofun, nofun⟩
    · rw [h2]
      exact hloc.shape
    · rw [h2, h3, h4]
      exact hloc.numbered
  case enter b write =>
    exact h.acquire hs ⟨fun _ => (hlock hs).1, nofun, nofun, nofun, nofun, nofun, nofun⟩ hpc rfl rfl
      rfl nofun ⟨rfl, nofun, nofun⟩
  case allocSleep b write =>
    exact h.acquire hs ⟨fun _ => (hlock hs).1, nofun, nofun, nofun, nofun, nofun, nofun⟩ hpc rfl rfl
      rfl nofun ⟨rfl, nofun, nofun⟩
  case intrEnter =>
    exact h.acquire hs ⟨fun _ => (hlock hs).1, nofun, nofun, nofun, nofun, nofun, nofun⟩ hpc rfl rfl
      rfl nofun ⟨rfl, nofun, nofun⟩
  all_goals simp_all [Pc.inside]

theorem Inv.step {a : Act T B} (h : Inv s) (hv : Valid s a) (hs : step blockno s a = some s') : Inv s' := by
  unfold Virtio.step at hs
  rw [if_neg (by simp [h.panic])] at hs
  cases a with
  | proc t call =>
    cases hin : (s.pc t).inside with
    | false => exact h.enter hin hv hs
    | true =>
      by_cases hb : (s.pc t).buf = none
      · exact h.intr hin hb hs
      · exact h.rw hin hb hs
  | take =>
    dsimp only at hs
    split at hs
    · cases hs
    · rename_i hne
      cases hs
      exact h.take hne
  | writeStatus i =>
    dsimp only at hs
    split at hs
    · rename_i hi
      cases hs
      exact h.writeStatus hi
    · cases hs
  | post i =>
    dsimp only at hs
    split at hs
    · rename_i hi
      cases hs
      exact h.post hi.1 hi.2
    · cases hs
  | publish =>
    dsimp only at hs
    split at hs
    · cases hs
    · rename_i i hi
      cases hs
      exact h.publish hi

omit [DecidableEq T] [DecidableEq B] in
theorem init_inv (d : Disk B) (usedRing req : Nat → Nat) : Inv (init (T := T) d usedRing req) := by
  refine ⟨nofun, ⟨fun i _ => ⟨fun _ _ => List.not_mem_nil, fun _ => rfl⟩, nofun, fun _ => List.nodup_nil, nofun⟩,
    fun _ => ⟨nofun, nofun, nofun, nofun, nofun, nofun, nofun⟩, ⟨[], [], [], ?_⟩, rfl⟩
  refine ⟨holds_nil (Nat.two_pow_pos 16), holds_nil (Nat.two_pow_pos 16), List.nodup_nil, fun i => ⟨nofun, ?_⟩, nofun, fun h => absurd rfl h,
    nofun, nofun, nofun, nofun, nofun, nofun⟩
  rintro ⟨u, b, k, ha, -⟩
  cases ha

end Steps

section Runs

/-- Whatever processes, handlers and the device do: a descriptor is free or
belongs to one request; the entry of the available ring that a request is about
to be stored in is not one that the device has still to take; a request that
`virtio_disk_rw` returns from is complete; the handler finds the buffer of each
completed request; and no panic is reached. -/
theorem virtio_protocol (blockno : B → Nat) (r : Run (step (T := T) blockno)) (d : Disk B) (usedRing req : Nat → Nat)
    (h0 : r.state 0 = init d usedRing req) (hv : r.Meets Valid) :
    ∀ n ≤ r.length,
      (∀ i < NUM, ((r.state n).d.free i = true ∧ ∀ t, i ∉ ((r.state n).pc t).descs) ∨
        ((r.state n).d.free i = false ∧ ∃! t, i ∈ ((r.state n).pc t).descs)) ∧
      (∀ t b c, (r.state n).pc t = .ring b c → ∀ j, j < ((r.state n).d.idx + WRAP - (r.state n).taken) % WRAP →
        ((r.state n).taken + j) % NUM ≠ (r.state n).d.idx % NUM) ∧
      (∀ t b k, (r.state n).pc t = .leave b k → k ∈ (r.state n).completed) ∧
      (∀ t id, (r.state n).pc t = .intrBuf id → (r.state n).d.infoB id ≠ none) ∧
      (r.state n).panic = none := by
  intro n hn
  have h : Inv (r.state n) :=
    r.invariant hv (h0 ▸ init_inv d usedRing req) (fun s a t hs hok hstep => hs.step hok hstep) n hn
  refine ⟨fun i hi => ?_, fun t b c hpc j hj => ?_, fun t b k hpc => (h.at hpc).finished k rfl, fun t id hpc => ?_,
    h.panic⟩
  · by_cases hfree : (r.state n).d.free i = true
    · exact .inl ⟨hfree, (h.own.free i hi).mp hfree⟩
    · refine .inr ⟨by simpa using hfree, ?_⟩
      rw [h.own.free i hi] at hfree
      obtain ⟨t, ht⟩ := not_forall_not.mp hfree
      exact ⟨t, ht, fun u hu => h.own.unique u t i hu ht⟩
  · obtain ⟨pa, pu, pre, hf⟩ := h.flow
    obtain ⟨-, hroom⟩ := h.avail_room (t := t) hf (i := c.i0) (by rw [hpc]; simp [Pc.descs]) (by rw [hpc]; rfl)
    rw [hf.avail.sub num_lt] at hj
    exact hf.avail.slot_ne num_dvd hroom hj
  · obtain ⟨b, hb, -⟩ := h.intrBuf hpc
    rw [hb]
    rintro ⟨⟩

/-- A request for a buffer, from the call to the place where it returns; the
other process is the interrupt handler. -/
def readOne : Run (step (T := Bool) (B := Unit) (fun _ => 7)) :=
  Run.ofExec (step (fun _ => 7)) (init ⟨fun _ => ⟨.null, 0, 0, 0⟩, fun _ => 0, 0, fun _ => false, 0, fun _ => none,
      fun _ => 0, fun _ => ⟨false, 0⟩, fun _ => false⟩ (fun _ => 0) (fun _ => 0))
    (List.replicate 7 (Act.proc true (.rw () false)) ++ [Act.take, Act.writeStatus 0, Act.post 0, Act.publish] ++
      List.replicate 9 (Act.proc false .intr) ++ List.replicate 6 (Act.proc true .intr))
    (by decide +kernel)

theorem virtio_protocol_readOne :
    readOne.length = 26 ∧ (readOne.state 26).pc true = .leave () 0 ∧ 0 ∈ (readOne.state 26).completed ∧
      (readOne.state 26).panic = none := by
  have hv : readOne.Meets Valid := by
    unfold Run.Meets
    decide +kernel
  have h := virtio_protocol _ readOne _ _ _ rfl hv 26 (by decide)
  have hpc : (readOne.state 26).pc true = .leave () 0 := by decide +kernel
  exact ⟨rfl, hpc, h.2.2.1 true () 0 hpc, h.2.2.2.2⟩

end Runs

end Xv6Rcu.Virtio

import Xv6Rcu.BcacheSteps

namespace Xv6Rcu.Bcache

open Ring Threads Transition Function

variable {D : Type} {s t : State D} {a : Act D} {i j p : Nat} {x : Buf D} {y : Pc}

section Definitions

def owns (i : Nat) : Pc → Bool
  | .locked _ _ j | .holding _ _ j => i == j
  | _ => false

def asks : Pc → Option (Nat × Nat × Nat)
  | .waiting dev b i | .locked dev b i | .holding dev b i => some (dev, b, i)
  | _ => none

def For (s : State D) (i b : Nat) : Prop := (s.buf i).dev = ROOTDEV ∧ (s.buf i).blockno = b

structure Users (s : State D) : Prop where
  counted : ∀ i < NBUF, ∃ k, Counted (uses i) s.pc k ∧ (s.buf i).refcnt = k + s.pins i
  range : ∀ p i, uses i (s.pc p) = true → i < NBUF
  lock : ∀ i p, (s.buf i).lock = some p ↔ owns i (s.pc p) = true
  panic : ∀ p e, s.pc p = .stopped e → e = .noBuffers

structure Keys (s : State D) : Prop where
  unique : ∀ i < NBUF, ∀ j < NBUF, ∀ b, For s i b → For s j b → i = j
  request : ∀ p dev b i, asks (s.pc p) = some (dev, b, i) → dev = ROOTDEV ∧ For s i b

structure Content (s : State D) : Prop where
  data : ∀ i < NBUF, ∀ b, For s i b → (s.buf i).valid = true → (s.buf i).data = s.stored b
  disk : ∀ b, s.disk b = s.stored b ∨ ∃ i < NBUF, For s i b ∧ s.dirty i = true
  dirty : ∀ i < NBUF, s.dirty i = true → (s.buf i).valid = true ∧ (0 < s.pins i ∨ (s.buf i).lock ≠ none)
  held : ∀ p dev b i, s.pc p = .holding dev b i → (s.buf i).valid = true

structure Inv (s : State D) : Prop where
  list : s.links.Full
  users : Users s
  keys : Keys s
  content : Content s

end Definitions

section Lemmas

theorem uses_of_owns (h : owns i y = true) : uses i y = true := by
  cases y <;> first | exact h | exact absurd h (by simp [owns])

theorem uses_of_asks {dev b : Nat} (h : asks y = some (dev, b, i)) : uses i y = true := by
  cases y <;> simp_all [asks, uses]

theorem Users.idle (h : Users s) (hi : i < NBUF) (h0 : (s.buf i).refcnt = 0) :
    Counted (uses i) s.pc 0 ∧ s.pins i = 0 := by
  obtain ⟨k, hk, hr⟩ := h.counted i hi
  have hz : k = 0 ∧ s.pins i = 0 := by omega
  exact ⟨hz.1 ▸ hk, hz.2⟩

theorem Users.idle_lock (h : Users s) (hi : i < NBUF) (h0 : (s.buf i).refcnt = 0) : (s.buf i).lock = none := by
  cases hl : (s.buf i).lock with
  | none => rfl
  | some p =>
    have hu := uses_of_owns ((h.lock i p).mp hl)
    rw [(h.idle hi h0).1.none p] at hu
    exact absurd hu Bool.false_ne_true

theorem Users.lock_eq (h : Users s) {dev b : Nat} (hp : s.pc p = .holding dev b i) :
    (s.buf i).lock = some p := (h.lock i p).mpr (by simp [hp, owns])

end Lemmas

section UserSteps

section

variable (h : Users s)

include h

theorem Users.change {z : Pc} {n : Nat} (hp : s.pc p = z) (hpc : t.pc = update s.pc p y)
    (hbuf : t.buf = update s.buf i x) (hpins : t.pins = update s.pins i n) (he : ∀ e, y = .stopped e → e = .noBuffers)
    (hu : ∀ j, j ≠ i → uses j y = uses j z) (ho : ∀ j, j ≠ i → owns j y = owns j z) (hi : uses i y = true → i < NBUF)
    (hl : ∀ q, x.lock = some q ↔ owns i (update s.pc p y q) = true)
    (hc : ∀ k, Counted (uses i) s.pc k → (s.buf i).refcnt = k + s.pins i →
      ∃ k, Counted (uses i) (update s.pc p y) k ∧ x.refcnt = k + n) : Users t where
  counted := by
    intro j hj
    obtain ⟨k, hk, hr⟩ := h.counted j hj
    rw [hpc, hbuf, hpins]
    by_cases hji : j = i
    · subst hji
      rw [update_self, update_self]
      exact hc k hk hr
    · rw [update_of_ne hji, update_of_ne hji]
      exact ⟨k, hk.same (by rw [hp, hu j hji]), hr⟩
  range := by
    intro q j
    rw [hpc]
    refine update_cases q (fun hy => ?_) (fun _ => h.range q j)
    by_cases hji : j = i
    · subst hji
      exact hi hy
    · rw [hu j hji, ← hp] at hy
      exact h.range p j hy
  lock := by
    intro j q
    rw [hpc, hbuf]
    refine update_cases j (hl q) (fun hji => ?_)
    rw [h.lock, same_update hp (ho j hji)]
  panic := by
    intro q
    rw [hpc]
    exact update_cases q he (fun _ => h.panic q)

theorem Users.stay {z : Pc} (hp : s.pc p = z) (hpc : t.pc = update s.pc p y)
    (hbuf : t.buf = update s.buf i x) (hpins : t.pins = s.pins) (hu : ∀ j, uses j y = uses j z)
    (ho : ∀ j, owns j y = owns j z) (hl : x.lock = (s.buf i).lock) (hr : x.refcnt = (s.buf i).refcnt)
    (he : ∀ e, y = .stopped e → e = .noBuffers) : Users t := by
  refine h.change hp hpc hbuf (hpins.trans (update_eq_self i s.pins).symm) he (fun j _ => hu j) (fun j _ => ho j)
    (fun hy => ?_) (fun q => ?_) (fun k hk hc => ?_)
  · rw [hu, ← hp] at hy
    exact h.range p i hy
  · rw [hl, h.lock, same_update hp (ho i)]
  · exact ⟨k, hk.same (by rw [hp, hu]), hr.trans hc⟩

theorem Users.setBuf (ht : t.buf = update s.buf i x) (hpc : t.pc = s.pc)
    (hpins : t.pins = s.pins) (hl : x.lock = (s.buf i).lock) (hr : x.refcnt = (s.buf i).refcnt) : Users t :=
  h.stay rfl (hpc.trans (update_eq_self 0 s.pc).symm) ht hpins (fun _ => rfl) (fun _ => rfl) hl hr (h.panic 0)

theorem Users.take {dev b : Nat} (hp : s.pc p = .idle) (hi : i < NBUF) (hl : x.lock = (s.buf i).lock)
    (hr : x.refcnt = (s.buf i).refcnt + 1) : Users ((s.setBuf i x).setPc p (.waiting dev b i)) := by
  refine h.change hp rfl rfl (update_eq_self i s.pins).symm nofun (fun j hj => by simp [uses, hj]) (fun _ _ => rfl)
    (fun _ => hi) (fun q => ?_) (fun k hk hc => ?_)
  · rw [hl, h.lock, same_update (f := owns i) (q := .waiting dev b i) hp rfl]
  · refine ⟨k + 1, hk.enter (by simp [hp, uses]) (by simp [uses]), ?_⟩
    omega

theorem Users.relock {l : Option Nat} {z : Pc} (hp : s.pc p = z) (hi : i < NBUF)
    (he : ∀ e, y = .stopped e → e = .noBuffers) (hu : ∀ j, uses j y = uses j z)
    (ho : ∀ j, j ≠ i → owns j y = owns j z) (hl : l = some p ↔ owns i y = true)
    (hlock : ∀ u, u ≠ p → (l = some u ↔ (s.buf i).lock = some u)) :
    Users ((s.setBuf i { s.buf i with lock := l }).setPc p y) := by
  refine h.change hp rfl rfl (update_eq_self i s.pins).symm he (fun j _ => hu j) ho (fun _ => hi) (fun u => ?_)
    (fun k hk hc => ⟨k, hk.same (by rw [hp, hu]), hc⟩)
  exact update_cases u hl (fun hne => (hlock u hne).trans (h.lock i u))

theorem Users.acquire {dev b : Nat} (hp : s.pc p = .waiting dev b i) (hl : (s.buf i).lock = none) :
    Users ((s.setBuf i { s.buf i with lock := some p }).setPc p (.locked dev b i)) :=
  h.relock hp (h.range p i (by simp [hp, uses])) nofun (fun _ => rfl) (fun j hj => by simp [owns, hj]) (by simp [owns])
    (fun u hu => by simp [hl, Ne.symm hu])

theorem Users.release {dev b : Nat} (hp : s.pc p = .holding dev b i) :
    Users ((s.setBuf i { s.buf i with lock := none }).setPc p (.releasing i)) :=
  h.relock hp (h.range p i (by simp [hp, uses])) nofun (fun _ => rfl) (fun j hj => by simp [owns, hj]) (by simp [owns])
    (fun u hu => by simp [h.lock_eq hp, Ne.symm hu])

theorem Users.pin {n : Nat} (hn : ∀ k, (s.buf i).refcnt = k + s.pins i → x.refcnt = k + n)
    (hl : x.lock = (s.buf i).lock) : Users { s.setBuf i x with pins := update s.pins i n } := by
  refine h.change (p := 0) rfl (update_eq_self 0 s.pc).symm rfl rfl (h.panic 0) (fun _ _ => rfl) (fun _ _ => rfl)
    (h.range 0 i) (fun q => ?_) (fun k hk hc => ?_)
  · rw [hl, h.lock, update_eq_self]
  · rw [update_eq_self]
    exact ⟨k, hk, hn k hc⟩

theorem Users.leave {l : Links} (hp : s.pc p = .releasing i) :
    Users { (s.setBuf i { s.buf i with refcnt := (s.buf i).refcnt - 1 }).setPc p .idle with links := l } := by
  refine h.change hp rfl rfl (update_eq_self i s.pins).symm nofun (fun j hj => by simp [uses, hj]) (fun _ _ => rfl) nofun
    (fun q => ?_) (fun k hk hc => ?_)
  · rw [same_update (f := owns i) (q := .idle) hp rfl]
    exact h.lock i q
  · have hpos : 0 < k := hk.pos (t := p) (by simp [hp, uses])
    refine ⟨k - 1, hk.leave (by simp [hp, uses]) (by simp [uses]), ?_⟩
    dsimp only
    omega

theorem users_step (hok : Proper s a) (hm : Moves s a t) : Users t := by
  cases hm with
  | hit hp hi _ _ => exact h.take hp hi rfl rfl
  | recycle hp hi h0 _ => exact h.take hp hi rfl (by rw [h0])
  | full hp =>
    refine h.stay hp rfl (update_eq_self 0 s.buf).symm rfl (fun _ => rfl) (fun _ => rfl) rfl rfl ?_
    rintro e ⟨⟩
    rfl
  | lock hp hl => exact h.acquire hp hl
  | keep hp _ =>
    exact h.stay hp rfl (update_eq_self 0 s.buf).symm rfl (fun _ => rfl) (fun _ => rfl) rfl rfl nofun
  | read hp _ => exact h.stay hp rfl rfl rfl (fun _ => rfl) (fun _ => rfl) rfl rfl nofun
  | modify hp => exact h.setBuf rfl rfl rfl rfl rfl
  | bwrite hp _ => exact { h with }
  | bwritePanic hp hl => exact absurd (h.lock_eq hp) hl
  | bpin hp => exact h.pin (fun k hk => by dsimp only; omega) rfl
  | bunpin hp =>
    have hpos : Pinned s (s.pc _) := hok
    rw [hp] at hpos
    have hpos : 0 < s.pins _ := hpos
    exact h.pin (fun k hk => by dsimp only; omega) rfl
  | brelse hp _ => exact h.release hp
  | brelsePanic hp hl => exact absurd (h.lock_eq hp) hl
  | drop hp _ => exact h.leave hp

end

end UserSteps

section KeySteps

theorem Keys.touch (h : Keys s) (hpc : t.pc = update s.pc p y) (hbuf : t.buf = update s.buf i x)
    (hdev : x.dev = (s.buf i).dev) (hb : x.blockno = (s.buf i).blockno)
    (hy : ∀ dev b j, asks y = some (dev, b, j) → asks (s.pc p) = some (dev, b, j) ∨ dev = ROOTDEV ∧ For s j b) :
    Keys t := by
  have hfor : ∀ j b, For t j b ↔ For s j b := fun j b => by
    rw [For, For, hbuf, same_update (f := Buf.dev) rfl hdev, same_update (f := Buf.blockno) rfl hb]
  constructor
  · intro j hj k hk b
    rw [hfor, hfor]
    exact h.unique j hj k hk b
  · intro q dev b j
    rw [hfor, hpc]
    refine update_cases q (fun hq => ?_) (fun _ => h.request q dev b j)
    rcases hy dev b j hq with hq | hq
    · exact h.request p dev b j hq
    · exact hq

theorem Keys.setBuf (h : Keys s) (ht : t.buf = update s.buf i x) (hpc : t.pc = s.pc)
    (hdev : x.dev = (s.buf i).dev) (hb : x.blockno = (s.buf i).blockno) : Keys t :=
  h.touch (hpc.trans (update_eq_self 0 s.pc).symm) ht hdev hb (fun _ _ _ hq => .inl hq)

theorem Keys.setPc (h : Keys s) (hy : ∀ dev b j, asks y = some (dev, b, j) → asks (s.pc p) = some (dev, b, j)) :
    Keys (s.setPc p y) :=
  h.touch rfl (update_eq_self 0 s.buf).symm rfl rfl (fun dev b j hq => .inl (hy dev b j hq))

theorem Keys.recycle {b : Nat} (h : Keys s) (hu : ∀ q, uses i (s.pc q) = false) (hdev : x.dev = ROOTDEV)
    (hb : x.blockno = b) (hnew : ∀ j < NBUF, ¬ For s j b) :
    Keys ((s.setBuf i x).setPc p (.waiting ROOTDEV b i)) := by
  have hself : ∀ c, For ((s.setBuf i x).setPc p (.waiting ROOTDEV b i)) i c ↔ c = b := by
    intro c
    change (update s.buf i x i).dev = ROOTDEV ∧ (update s.buf i x i).blockno = c ↔ c = b
    rw [update_self, hdev, hb]
    exact ⟨fun h => h.2.symm, fun h => ⟨rfl, h.symm⟩⟩
  have hother : ∀ j c, j ≠ i → (For ((s.setBuf i x).setPc p (.waiting ROOTDEV b i)) j c ↔ For s j c) := by
    intro j c hj
    change (update s.buf i x j).dev = ROOTDEV ∧ (update s.buf i x j).blockno = c ↔ _
    rw [update_of_ne hj]
    rfl
  constructor
  · intro j hj k hk c hfj hfk
    by_cases hji : j = i <;> by_cases hki : k = i
    · rw [hji, hki]
    · rw [hji, hself] at hfj
      rw [hother k c hki, hfj] at hfk
      exact absurd hfk (hnew k hk)
    · rw [hki, hself] at hfk
      rw [hother j c hji, hfk] at hfj
      exact absurd hfj (hnew j hj)
    · exact h.unique j hj k hk c ((hother j c hji).mp hfj) ((hother k c hki).mp hfk)
  · intro q dev c j
    change asks (update s.pc p (.waiting ROOTDEV b i) q) = _ → _
    refine update_cases q (fun hq => ?_) (fun _ hq => ?_)
    · obtain ⟨rfl, rfl, rfl⟩ : ROOTDEV = dev ∧ b = c ∧ i = j := by simpa [asks] using hq
      exact ⟨rfl, (hself b).mpr rfl⟩
    · have hji : j ≠ i := by
        rintro rfl
        exact Bool.false_ne_true ((hu q).symm.trans (uses_of_asks hq))
      rw [hother j c hji]
      exact h.request q dev c j hq

theorem keys_step (h : Keys s) (hu : Users s) (hok : Proper s a) (hm : Moves s a t) : Keys t := by
  cases hm with
  | hit hp hi hdev hb =>
    refine h.touch rfl rfl rfl rfl (fun dev c j hq => .inr ?_)
    obtain ⟨rfl, rfl, rfl⟩ := (by simpa [asks] using hq : _ = dev ∧ _ = c ∧ _ = j)
    exact ⟨hok, hdev.trans hok, hb⟩
  | recycle hp hi h0 hnew =>
    have hdev : _ = ROOTDEV := hok
    subst hdev
    exact h.recycle (hu.idle hi h0).1.none rfl rfl hnew
  | full hp => exact h.setPc (by simp [asks])
  | lock hp hl => exact h.touch rfl rfl rfl rfl (fun dev c j hq => .inl (by rw [hp]; exact hq))
  | keep hp _ => exact h.setPc (fun dev c j hq => by rw [hp]; exact hq)
  | read hp _ => exact h.touch rfl rfl rfl rfl (fun dev c j hq => .inl (by rw [hp]; exact hq))
  | modify hp => exact h.setBuf rfl rfl rfl rfl
  | bwrite hp _ => exact { h with }
  | bwritePanic hp _ => exact h.setPc (by simp [asks])
  | bpin hp => exact h.setBuf rfl rfl rfl rfl
  | bunpin hp => exact h.setBuf rfl rfl rfl rfl
  | brelse hp _ => exact h.touch rfl rfl rfl rfl (by simp [asks])
  | brelsePanic hp _ => exact h.setPc (by simp [asks])
  | drop hp _ => exact h.touch rfl rfl rfl rfl (by simp [asks])

end KeySteps

section ContentSteps

structure Frame (s t : State D) : Prop where
  dev : ∀ j, (t.buf j).dev = (s.buf j).dev
  blockno : ∀ j, (t.buf j).blockno = (s.buf j).blockno
  valid : ∀ j, (t.buf j).valid = (s.buf j).valid
  data : ∀ j, (t.buf j).data = (s.buf j).data
  disk : t.disk = s.disk
  stored : t.stored = s.stored
  dirty : t.dirty = s.dirty

theorem Frame.refl (s : State D) : Frame s s := ⟨fun _ => rfl, fun _ => rfl, fun _ => rfl, fun _ => rfl, rfl, rfl, rfl⟩

theorem frame_setBuf (ht : t.buf = update s.buf i x) (hx : x.dev = (s.buf i).dev)
    (hb : x.blockno = (s.buf i).blockno) (hv : x.valid = (s.buf i).valid) (hd : x.data = (s.buf i).data)
    (hdisk : t.disk = s.disk) (hstored : t.stored = s.stored) (hdirty : t.dirty = s.dirty) : Frame s t where
  dev := ht ▸ same_update (f := Buf.dev) rfl hx
  blockno := ht ▸ same_update (f := Buf.blockno) rfl hb
  valid := ht ▸ same_update (f := Buf.valid) rfl hv
  data := ht ▸ same_update (f := Buf.data) rfl hd
  disk := hdisk
  stored := hstored
  dirty := hdirty

theorem Content.frame (h : Content s) (hf : Frame s t)
    (hkept : ∀ j < NBUF, s.dirty j = true → 0 < t.pins j ∨ (t.buf j).lock ≠ none)
    (hpc : t.pc = update s.pc p y) (hy : ∀ dev b j, y = .holding dev b j → (s.buf j).valid = true) : Content t := by
  have hfor : ∀ j b, For t j b ↔ For s j b := fun j b => by rw [For, For, hf.dev, hf.blockno]
  constructor
  · intro j hj b
    rw [hfor, hf.valid, hf.data, hf.stored]
    exact h.data j hj b
  · intro b
    simp only [hfor, hf.disk, hf.stored, hf.dirty]
    exact h.disk b
  · intro j hj hd
    rw [hf.dirty] at hd
    rw [hf.valid]
    exact ⟨(h.dirty j hj hd).1, hkept j hj hd⟩
  · intro q dev b j
    rw [hpc, hf.valid]
    exact update_cases q (hy dev b j) (fun _ => h.held q dev b j)

/-- The lock of buffer `i` is changed: what keeps a dirty buffer is still there. -/
theorem Content.kept_setBuf (h : Content s) (hx : s.dirty i = true → 0 < s.pins i ∨ x.lock ≠ none) :
    ∀ j < NBUF, s.dirty j = true → 0 < s.pins j ∨ (update s.buf i x j).lock ≠ none := by
  intro j hj hd
  exact update_cases j hx (fun _ hd => (h.dirty j hj hd).2) hd

theorem Content.recycle {b : Nat} (h : Content s) (hu : ∀ q, uses i (s.pc q) = false) (hd : s.dirty i = false)
    (hv : x.valid = false) : Content ((s.setBuf i x).setPc p (.waiting ROOTDEV b i)) := by
  have hbuf : ∀ j, j ≠ i → ((s.setBuf i x).setPc p (.waiting ROOTDEV b i)).buf j = s.buf j :=
    fun j hj => update_of_ne hj _ _
  have hself : ((s.setBuf i x).setPc p (.waiting ROOTDEV b i)).buf i = x := update_self _ _ _
  have hdirty : ∀ j, s.dirty j = true → j ≠ i := by
    rintro j hj rfl
    exact Bool.false_ne_true (hd.symm.trans hj)
  constructor
  · intro j hj c hf hvj
    by_cases hji : j = i
    · rw [hji, hself, hv] at hvj
      exact absurd hvj Bool.false_ne_true
    · rw [For, hbuf j hji] at hf
      rw [hbuf j hji] at hvj ⊢
      exact h.data j hj c hf hvj
  · intro c
    rcases h.disk c with hc | ⟨j, hj, hf, hdj⟩
    · exact .inl hc
    · refine .inr ⟨j, hj, ?_, hdj⟩
      rw [For, hbuf j (hdirty j hdj)]
      exact hf
  · intro j hj hdj
    rw [hbuf j (hdirty j hdj)]
    exact h.dirty j hj hdj
  · intro q dev c j
    change update s.pc p (.waiting ROOTDEV b i) q = _ → _
    refine update_cases q nofun (fun _ hold => ?_)
    have hji : j ≠ i := fun (he : j = i) => by simpa [hold, uses, he] using hu q
    rw [hbuf j hji]
    exact h.held q dev c j hold

theorem Content.read {dev b : Nat} (h : Content s) (hk : Keys s) (hi : i < NBUF) (hf : For s i b)
    (hv : (s.buf i).valid = false) :
    Content ((s.setBuf i { s.buf i with data := s.disk (s.buf i).blockno, valid := true }).setPc p
      (.holding dev b i)) := by
  -- A changed copy would be in this buffer, which has none.
  have hdisk : s.disk b = s.stored b := by
    rcases h.disk b with hb | ⟨j, hj, hfj, hdj⟩
    · exact hb
    · have hji := hk.unique j hj i hi b hfj hf
      rw [hji] at hdj
      exact absurd (hv.symm.trans (h.dirty i hi hdj).1) Bool.false_ne_true
  have hdirty : ∀ j < NBUF, s.dirty j = true → j ≠ i := by
    rintro j hj hdj rfl
    exact Bool.false_ne_true (hv.symm.trans (h.dirty j hj hdj).1)
  generalize ht : (s.setBuf i { s.buf i with data := s.disk (s.buf i).blockno, valid := true }).setPc p
      (.holding dev b i) = t
  have hbuf : ∀ j, j ≠ i → t.buf j = s.buf j := fun j hj => ht ▸ update_of_ne hj _ _
  have hself : t.buf i = { s.buf i with data := s.disk (s.buf i).blockno, valid := true } :=
    ht ▸ update_self _ _ _
  have hpc : t.pc = update s.pc p (.holding dev b i) := ht ▸ rfl
  have hfor : ∀ j c, For t j c ↔ For s j c := by
    intro j c
    by_cases hji : j = i
    · rw [For, hji, hself]
      rfl
    · rw [For, hbuf j hji]
      rfl
  constructor
  · intro j hj c hfj hvj
    rw [hfor] at hfj
    by_cases hji : j = i
    · subst hji
      rw [hself]
      have hbc : b = c := hf.2.symm.trans hfj.2
      change s.disk (s.buf j).blockno = t.stored c
      rw [hf.2, hdisk, ← hbc, ← ht]
      rfl
    · rw [hbuf j hji] at hvj ⊢
      refine (h.data j hj c hfj hvj).trans ?_
      rw [← ht]
      rfl
  · intro c
    rcases h.disk c with hc | ⟨j, hj, hfj, hdj⟩
    · exact .inl (ht ▸ hc)
    · exact .inr ⟨j, hj, (hfor j c).mpr hfj, ht ▸ hdj⟩
  · intro j hj hdj
    have hdj : s.dirty j = true := by rw [← hdj, ← ht]; rfl
    rw [hbuf j (hdirty j hj hdj), ← ht]
    exact h.dirty j hj hdj
  · intro q dev' c j hq
    by_cases hji : j = i
    · rw [hji, hself]
    · rw [hbuf j hji]
      rw [hpc] at hq
      revert hq
      refine update_cases q (fun hq => ?_) (fun _ => h.held q dev' c j)
      cases hq
      exact absurd rfl hji

theorem Content.modify {dev b : Nat} {d : D} (h : Content s) (hk : Keys s) (hu : Users s) (hi : i < NBUF)
    (hf : For s i b) (hp : s.pc p = .holding dev b i) :
    Content { s.setBuf i { s.buf i with data := d } with
      stored := update s.stored (s.buf i).blockno d
      dirty := update s.dirty i true } := by
  rw [hf.2]
  generalize ht : ({ s.setBuf i { s.buf i with data := d } with
      stored := update s.stored b d
      dirty := update s.dirty i true } : State D) = t
  have hbuf : ∀ j, j ≠ i → t.buf j = s.buf j := fun j hj => ht ▸ update_of_ne hj _ _
  have hself : t.buf i = { s.buf i with data := d } := ht ▸ update_self _ _ _
  have hstored : t.stored = update s.stored b d := ht ▸ rfl
  have hdirty : t.dirty = update s.dirty i true := ht ▸ rfl
  have hfor : ∀ j c, For t j c ↔ For s j c := by
    intro j c
    by_cases hji : j = i
    · rw [For, hji, hself]
      rfl
    · rw [For, hbuf j hji]
      rfl
  constructor
  · intro j hj c hfj hvj
    rw [hfor] at hfj
    by_cases hji : j = i
    · subst hji
      have hcb : c = b := hfj.2.symm.trans hf.2
      rw [hself, hstored, hcb, update_self]
    · have hcb : c ≠ b := fun (hc : c = b) => hji (hk.unique j hj i hi b (hc ▸ hfj) hf)
      rw [hbuf j hji] at hvj ⊢
      rw [hstored, update_of_ne hcb]
      exact h.data j hj c hfj hvj
  · intro c
    by_cases hcb : c = b
    · exact .inr ⟨i, hi, (hfor i c).mpr (hcb ▸ hf), by rw [hdirty, update_self]⟩
    · rw [hstored, update_of_ne hcb]
      rcases h.disk c with hc | ⟨j, hj, hfj, hdj⟩
      · exact .inl (ht ▸ hc)
      · have hji : j ≠ i := by
          rintro rfl
          exact hcb (hfj.2.symm.trans hf.2)
        refine .inr ⟨j, hj, (hfor j c).mpr hfj, ?_⟩
        rw [hdirty, update_of_ne hji]
        exact hdj
  · intro j hj hdj
    by_cases hji : j = i
    · subst hji
      rw [hself]
      refine ⟨h.held p dev b j hp, .inr ?_⟩
      change (s.buf j).lock ≠ none
      rw [hu.lock_eq hp]
      exact Option.some_ne_none p
    · rw [hdirty, update_of_ne hji] at hdj
      rw [hbuf j hji, ← ht]
      exact h.dirty j hj hdj
  · intro q dev' c j hq
    have hv := h.held q dev' c j (by rw [← hq, ← ht]; rfl)
    by_cases hji : j = i
    · subst hji
      rw [hself]
      exact hv
    · rw [hbuf j hji]
      exact hv

theorem Content.bwrite {b : Nat} (h : Content s) (hi : i < NBUF) (hf : For s i b)
    (hv : (s.buf i).valid = true) : Content (bwrite s i) := by
  have hdata := h.data i hi b hf hv
  constructor
  · exact h.data
  · intro c
    change update s.disk (s.buf i).blockno (s.buf i).data c = s.stored c ∨
      ∃ j < NBUF, For s j c ∧ update s.dirty i false j = true
    rw [hf.2]
    refine update_cases c ?_ (fun hcb => ?_)
    · exact .inl hdata
    · rcases h.disk c with hc | ⟨j, hj, hfj, hdj⟩
      · exact .inl hc
      · have hji : j ≠ i := by
          rintro rfl
          exact hcb (hfj.2.symm.trans hf.2)
        refine .inr ⟨j, hj, hfj, ?_⟩
        rw [update_of_ne hji]
        exact hdj
  · intro j hj hdj
    have hdj : update s.dirty i false j = true := hdj
    by_cases hji : j = i
    · rw [hji, update_self] at hdj
      exact absurd hdj Bool.false_ne_true
    · rw [update_of_ne hji] at hdj
      exact h.dirty j hj hdj
  · exact h.held

theorem Inv.holds (h : Inv s) {dev b : Nat} (hp : s.pc p = .holding dev b i) : i < NBUF ∧ For s i b :=
  ⟨h.users.range p i (by simp [hp, uses]), (h.keys.request p dev b i (by rw [hp]; rfl)).2⟩

theorem content_step (h : Inv s) (hok : Proper s a) (hm : Moves s a t) : Content t := by
  have hc := h.content
  cases hm with
  | hit hp hi _ _ =>
    refine hc.frame (frame_setBuf rfl rfl rfl rfl rfl rfl rfl rfl) ?_ rfl nofun
    exact hc.kept_setBuf (fun hd => (hc.dirty _ hi hd).2)
  | @recycle p dev b i hp hi h0 _ =>
    have hdev : dev = ROOTDEV := hok
    subst hdev
    obtain ⟨hnone, hpins⟩ := h.users.idle hi h0
    refine hc.recycle hnone.none ?_ rfl
    rw [← Bool.not_eq_true]
    intro hd
    rcases (hc.dirty i hi hd).2 with hpos | hl
    · omega
    · exact hl (h.users.idle_lock hi h0)
  | full hp =>
    exact hc.frame { Frame.refl s with } (fun j hj hd => (hc.dirty j hj hd).2) rfl nofun
  | lock hp hl =>
    refine hc.frame (frame_setBuf rfl rfl rfl rfl rfl rfl rfl rfl) ?_ rfl nofun
    exact hc.kept_setBuf (fun _ => .inr (Option.some_ne_none _))
  | keep hp hv =>
    refine hc.frame { Frame.refl s with } (fun j hj hd => (hc.dirty j hj hd).2) rfl (fun _ _ _ hq => ?_)
    cases hq
    exact hv
  | @read p dev b i hp hv =>
    have hi := h.users.range p i (by simp [hp, uses])
    exact hc.read h.keys hi (h.keys.request p dev b i (by rw [hp]; rfl)).2 hv
  | modify hp =>
    obtain ⟨hi, hf⟩ := h.holds hp
    exact hc.modify h.keys h.users hi hf hp
  | bwrite hp hl =>
    obtain ⟨hi, hf⟩ := h.holds hp
    exact hc.bwrite hi hf (hc.held _ _ _ _ hp)
  | bwritePanic hp hl => exact absurd (h.users.lock_eq hp) hl
  | @bpin p dev b i hp =>
    refine hc.frame (frame_setBuf rfl rfl rfl rfl rfl rfl rfl rfl) ?_ (update_eq_self 0 s.pc).symm (hc.held 0)
    intro j hj hd
    refine Or.imp (fun hpos => ?_) id (hc.kept_setBuf (x := { s.buf i with refcnt := (s.buf i).refcnt + 1 })
      (fun hd => (hc.dirty i (h.holds hp).1 hd).2) j hj hd)
    change 0 < update s.pins i (s.pins i + 1) j
    exact update_cases j (Nat.succ_pos _) (fun _ => hpos)
  | @bunpin p dev b i hp =>
    refine hc.frame (frame_setBuf rfl rfl rfl rfl rfl rfl rfl rfl) ?_ (update_eq_self 0 s.pc).symm (hc.held 0)
    intro j hj hd
    change 0 < update s.pins i (s.pins i - 1) j ∨
      (update s.buf i { s.buf i with refcnt := (s.buf i).refcnt - 1 } j).lock ≠ none
    by_cases hji : j = i
    · subst hji
      rw [update_self (f := s.buf), h.users.lock_eq hp]
      exact .inr (Option.some_ne_none p)
    · rw [update_of_ne hji, update_of_ne hji]
      exact (hc.dirty j hj hd).2
  | @brelse p dev b i hp hl =>
    have hsaved : Saved s (s.pc p) := hok
    rw [hp] at hsaved
    have hsaved : s.dirty i = false ∨ 0 < s.pins i := hsaved
    refine hc.frame (frame_setBuf rfl rfl rfl rfl rfl rfl rfl rfl) ?_ rfl nofun
    refine hc.kept_setBuf (fun hd => .inl ?_)
    rcases hsaved with hno | hpos
    · exact absurd (hno.symm.trans hd) Bool.false_ne_true
    · exact hpos
  | brelsePanic hp hl => exact absurd (h.users.lock_eq hp) hl
  | @drop p i l hp _ =>
    have hi := h.users.range p i (by simp [hp, uses])
    refine hc.frame (frame_setBuf rfl rfl rfl rfl rfl rfl rfl rfl) ?_ rfl nofun
    exact hc.kept_setBuf (x := { s.buf i with refcnt := (s.buf i).refcnt - 1 }) (fun hd => (hc.dirty i hi hd).2)

end ContentSteps

section Runs

theorem list_step (h : Inv s) (hm : Moves s a t) : t.links.Full := by
  cases hm with
  | @drop p i l hp hl =>
    rcases hl with rfl | rfl
    · exact h.list
    · exact h.list.toFront (h.users.range p i (by simp [hp, uses]))
  | _ => exact h.list

theorem inv_step (h : Inv s) (hok : Proper s a) (hs : step s a = some t) : Inv t := by
  have hm := step_moves h.list hs
  exact ⟨list_step h hm, users_step h.users hok hm, keys_step h.keys h.users hok hm, content_step h hok hm⟩

theorem inv_boot (d : Nat → D) (zero : D) : Inv (boot d zero) where
  list := binit_full
  users := by
    refine ⟨fun i _ => ⟨0, Counted.zero (fun _ => rfl), rfl⟩, ?_, ?_, ?_⟩
    · intro p i h
      exact absurd h Bool.false_ne_true
    · intro i p
      exact ⟨nofun, fun h => absurd h Bool.false_ne_true⟩
    · exact nofun
  keys := by
    constructor
    · intro i _ j _ b hf
      exact absurd hf.1 Nat.zero_ne_one
    · exact nofun
  content := by
    refine ⟨?_, fun b => .inl rfl, ?_, nofun⟩
    · intro i _ b hf
      exact absurd hf.1 Nat.zero_ne_one
    · intro i _ h
      exact absurd h Bool.false_ne_true

theorem inv_run {d : Nat → D} {zero : D} (r : Run (step (D := D))) (h0 : r.state 0 = boot d zero)
    (hr : r.Meets Proper) : ∀ n ≤ r.length, Inv (r.state n) :=
  r.invariant hr (h0 ▸ inv_boot d zero) (fun _ _ _ h hok hs => inv_step h hok hs)

/-- However users read, change, write, pin and release buffers, the list has
each buffer exactly once, no block of the root device has two buffers, a
buffer's count is that of its users and pins, and who holds a buffer sees what
was last stored in the block it asked for. Only the search for a buffer can
panic. -/
theorem cache_coherent {d : Nat → D} {zero : D} (r : Run (step (D := D))) (h0 : r.state 0 = boot d zero)
    (hr : r.Meets Proper) {n : Nat} (hn : n ≤ r.length) :
    (∃ bs, IsRing (r.state n).links.next (r.state n).links.prev head bs ∧ bs.Perm (List.range NBUF)) ∧
    (∀ i < NBUF, ∀ j < NBUF, ((r.state n).buf i).dev = ROOTDEV → ((r.state n).buf j).dev = ROOTDEV →
      ((r.state n).buf i).blockno = ((r.state n).buf j).blockno → i = j) ∧
    (∀ i < NBUF, ∃ k, Counted (uses i) (r.state n).pc k ∧
      ((r.state n).buf i).refcnt = k + (r.state n).pins i) ∧
    (∀ p dev b i, (r.state n).pc p = .holding dev b i → i < NBUF ∧ ((r.state n).buf i).dev = dev ∧
      ((r.state n).buf i).blockno = b ∧ ((r.state n).buf i).data = (r.state n).stored b) ∧
    (∀ p e, (r.state n).pc p = .stopped e → e = .noBuffers) := by
  have h := inv_run r h0 hr n hn
  refine ⟨h.list, ?_, h.users.counted, ?_, h.users.panic⟩
  · intro i hi j hj hdi hdj hb
    exact h.keys.unique i hi j hj _ ⟨hdi, rfl⟩ ⟨hdj, hb.symm⟩
  · intro p dev b i hp
    obtain ⟨hi, hf⟩ := h.holds hp
    have hdev := (h.keys.request p dev b i (by rw [hp]; rfl)).1
    exact ⟨hi, hf.1.trans hdev.symm, hf.2, h.content.data i hi b hf (h.content.held p dev b i hp)⟩

/-- One user changes block 5 and leaves it to the log; a second one has it
installed, while others read on. -/
def useFive : List (Act Nat) :=
  [.bget 0 ROOTDEV 5, .acquiresleep 0, .bget 1 ROOTDEV 5, .bread 0, .modify 0 77, .bpin 0, .brelse 0,
    .acquiresleep 1, .bread 1, .drop 0, .bwrite 1, .bunpin 1, .brelse 1, .bget 2 ROOTDEV 6, .drop 1,
    .acquiresleep 2, .bread 2, .bget 3 ROOTDEV 5, .acquiresleep 3, .bread 3]

theorem cache_coherent_useFive :
    let r := Run.ofExec step (boot (fun b => b) 0) useFive (by decide +kernel)
    (r.state 20).pc 3 = .holding ROOTDEV 5 0 ∧ ((r.state 20).buf 0).data = 77 ∧
      ((r.state 20).buf 0).data = (r.state 20).stored 5 := by
  intro r
  have hpc : (r.state 20).pc 3 = .holding ROOTDEV 5 0 := by decide +kernel
  have hd : ((r.state 20).buf 0).data = 77 := by decide +kernel
  have h := cache_coherent r Run.ofExec_start (by decide +kernel) (le_refl 20)
  exact ⟨hpc, hd, (h.2.2.2.1 3 ROOTDEV 5 0 hpc).2.2.2⟩

end Runs

section Room

def used : Pc → Nat
  | .waiting _ _ i | .locked _ _ i | .holding _ _ i | .releasing i => i
  | .idle | .stopped _ => NBUF

/-- The users at work and the pinned buffers are fewer than the buffers. -/
def Room (s : State D) : Prop := ∃ busy : Finset Nat, (∀ p, s.pc p ≠ .idle → p ∈ busy) ∧
  busy.card + ((Finset.range NBUF).filter (fun i => 0 < s.pins i)).card < NBUF

theorem used_eq (h : uses i y = true) : y ≠ .idle ∧ used y = i := by
  cases y <;> simp_all [uses, used]

theorem unused_none (hl : s.links.Full) (hu : unused s = none) : ∀ i < NBUF, (s.buf i).refcnt ≠ 0 := by
  obtain ⟨bs, hr, hp⟩ := hl
  rw [unused, hr.walk_prev (length_lt hp)] at hu
  have hmiss := (find_lt (q := fun i => (s.buf i).refcnt == 0) ((List.reverse_perm bs).trans hp)).2 hu
  simpa using hmiss

/-- Every buffer that is not unused has a user of its own or is pinned. -/
theorem Room.unused (hroom : Room s) (h : Inv s) : unused s ≠ none := by
  intro hu
  obtain ⟨busy, hbusy, hlt⟩ := hroom
  have hsub : Finset.range NBUF ⊆
      busy.image (fun p => used (s.pc p)) ∪ (Finset.range NBUF).filter (fun i => 0 < s.pins i) := by
    intro i hi
    have hi' := Finset.mem_range.mp hi
    obtain ⟨k, ⟨ts, hts, rfl⟩, hr⟩ := h.users.counted i hi'
    have h0 := unused_none h.list hu i hi'
    rw [Finset.mem_union, Finset.mem_filter, Finset.mem_image]
    rcases ts.eq_empty_or_nonempty with rfl | ⟨p, hp⟩
    · rw [Finset.card_empty] at hr
      exact .inr ⟨hi, by omega⟩
    · obtain ⟨hne, hused⟩ := used_eq ((hts p).mp hp)
      exact .inl ⟨p, hbusy p hne, hused⟩
  have hle := (Finset.card_le_card hsub).trans (Finset.card_union_le _ _)
  have himage := Finset.card_image_le (s := busy) (f := fun p => used (s.pc p))
  rw [Finset.card_range] at hle
  omega

theorem bget_finds {dev b : Nat} (hu : unused s ≠ none) : bget s p dev b ≠ s.setPc p (.stopped .noBuffers) := by
  intro hc
  have hpc := congrArg (fun t => t.pc p) hc
  unfold bget at hpc
  cases hm : cached s dev b with
  | some i => simp [hm, State.setPc] at hpc
  | none =>
    cases hi : unused s with
    | some i => simp [hm, hi, State.setPc] at hpc
    | none => exact hu hi

theorem stopped_step (h : Inv s) (hroom : ∀ p dev b, a = .bget p dev b → Room s) (hs : step s a = some t) (q : Nat)
    (hq : t.pc q = .stopped .noBuffers) : s.pc q = .stopped .noBuffers := by
  have hm := step_moves h.list hs
  cases hm with
  | full hp =>
    simp only [step, hp, Option.some.injEq] at hs
    exact absurd hs (bget_finds ((hroom _ _ _ rfl).unused h))
  | modify | bwrite | bpin | bunpin => exact hq
  | _ =>
    change update s.pc _ _ q = _ at hq
    revert hq
    exact update_cases q nofun (fun _ h => h)

/-- Each of `n` processes reads a block, and waits for the disk. -/
def readers (D : Type) (n : Nat) : List (Act D) := (List.range n).flatMap (fun p => [.bget p ROOTDEV p, .acquiresleep p])

structure Reading (n : Nat) (s : State D) : Prop where
  inv : Inv s
  pins : ∀ i, s.pins i = 0
  busy : ∀ p < n, ∃ i, s.pc p = .locked ROOTDEV p i
  idle : ∀ p, n ≤ p → s.pc p = .idle
  blocks : ∀ i b, For s i b → b < n

theorem Reading.cached {n : Nat} (h : Reading n s) : cached s ROOTDEV n = none := by
  cases hc : Bcache.cached s ROOTDEV n with
  | none => rfl
  | some i =>
    have hf := ((cached_spec ROOTDEV n h.inv.list).1 i hc).2
    exact absurd (h.blocks i n hf) (lt_irrefl n)

theorem Reading.next {n : Nat} (h : Reading n s) (hn : n < NBUF) :
    ∃ t, exec step s [.bget n ROOTDEV n, .acquiresleep n] = some t ∧ Reading (n + 1) t := by
  have hroom : Room s := by
    refine ⟨Finset.range n, fun p hp => Finset.mem_range.mpr (Nat.lt_of_not_le (fun hc => hp (h.idle p hc))), ?_⟩
    simpa [h.pins] using hn
  obtain ⟨i, hi⟩ := Option.ne_none_iff_exists'.mp (hroom.unused h.inv)
  obtain ⟨hlt, h0⟩ := unused_spec h.inv.list hi
  have hidle := h.idle n (le_refl n)
  have hbget : step s (.bget n ROOTDEV n) = some ((s.setBuf i
      { s.buf i with dev := ROOTDEV, blockno := n, valid := false, refcnt := 1 }).setPc n (.waiting ROOTDEV n i)) := by
    simp only [step, hidle, bget, h.cached, hi]
  generalize hx : (s.setBuf i { s.buf i with dev := ROOTDEV, blockno := n, valid := false, refcnt := 1 }).setPc n
    (.waiting ROOTDEV n i) = x at hbget
  have hpc : x.pc = update s.pc n (.waiting ROOTDEV n i) := hx ▸ rfl
  have hbuf : x.buf = update s.buf i { s.buf i with dev := ROOTDEV, blockno := n, valid := false, refcnt := 1 } := hx ▸ rfl
  have hlock : (x.buf i).lock = none := by
    rw [hbuf, update_self]
    exact h.inv.users.idle_lock hlt h0
  have hacq : step x (.acquiresleep n) =
      some ((x.setBuf i { x.buf i with lock := some n }).setPc n (.locked ROOTDEV n i)) := by
    simp only [step, hpc, update_self, hlock, if_true]
  refine ⟨_, by rw [exec, hbget, Option.bind_some, exec, hacq]; rfl, ?_, ?_, fun p hp => ?_, fun p hp => ?_,
    fun j b hf => ?_⟩
  · exact inv_step (inv_step h.inv (a := .bget n ROOTDEV n) rfl hbget) (a := .acquiresleep n) trivial hacq
  · exact fun j => hx ▸ h.pins j
  · change ∃ j, update x.pc n (.locked ROOTDEV n i) p = .locked ROOTDEV p j
    rw [hpc, update_idem]
    exact update_cases p ⟨i, rfl⟩ (fun hne => h.busy p (by omega))
  · change update x.pc n (.locked ROOTDEV n i) p = .idle
    rw [hpc, update_idem, update_of_ne (by omega)]
    exact h.idle p (by omega)
  · change (update x.buf i { x.buf i with lock := some n } j).dev = _ ∧
      (update x.buf i { x.buf i with lock := some n } j).blockno = b at hf
    rw [hbuf, update_self, update_idem] at hf
    revert hf
    refine update_cases j (fun hf => ?_) (fun _ hf => Nat.lt_succ_of_lt (h.blocks j b hf))
    exact hf.2 ▸ Nat.lt_succ_self n

theorem exec_readers (d : Nat → D) (zero : D) {n : Nat} (hn : n ≤ NBUF) :
    ∃ t, exec step (boot d zero) (readers D n) = some t ∧ Reading n t := by
  induction n with
  | zero =>
    refine ⟨_, rfl, inv_boot d zero, fun _ => rfl, nofun, fun _ _ => rfl, fun i b hf => ?_⟩
    exact absurd hf.1 Nat.zero_ne_one
  | succ n ih =>
    obtain ⟨s, hs, hread⟩ := ih (Nat.le_of_succ_le hn)
    obtain ⟨t, ht, hnext⟩ := hread.next hn
    refine ⟨t, ?_, hnext⟩
    rw [readers, List.range_succ, List.flatMap_append, exec_append, ← readers, hs]
    exact ht

theorem Reading.full (h : Reading NBUF s) : Bcache.unused s = none := by
  cases hu : Bcache.unused s with
  | none => rfl
  | some i =>
    obtain ⟨hi, h0⟩ := unused_spec h.inv.list hu
    have hmem : ∀ p ∈ Finset.range NBUF, used (s.pc p) ∈ Finset.range NBUF := by
      intro p hp
      obtain ⟨j, hj⟩ := h.busy p (Finset.mem_range.mp hp)
      exact Finset.mem_range.mpr (hj ▸ h.inv.users.range p j (by simp [hj, uses]))
    have hinj : Set.InjOn (fun p => used (s.pc p)) (Finset.range NBUF) := by
      intro p hp q hq hpq
      obtain ⟨j, hj⟩ := h.busy p (Finset.mem_range.mp hp)
      obtain ⟨k, hk⟩ := h.busy q (Finset.mem_range.mp hq)
      dsimp only at hpq
      rw [hj, hk] at hpq
      have hfj := (h.inv.keys.request p ROOTDEV p j (by rw [hj]; rfl)).2
      have hfk := (h.inv.keys.request q ROOTDEV q k (by rw [hk]; rfl)).2
      have hjk : j = k := hpq
      rw [hjk] at hfj
      exact hfj.2.symm.trans hfk.2
    obtain ⟨p, hp, hpi⟩ := Finset.surj_on_of_inj_on_of_card_le (fun p _ => used (s.pc p)) hmem
      (fun p q hp hq hpq => hinj hp hq hpq) (le_refl _) i (Finset.mem_range.mpr hi)
    obtain ⟨j, hj⟩ := h.busy p (Finset.mem_range.mp hp)
    rw [hj] at hpi
    have hno := (h.inv.users.idle hi h0).1.none p
    rw [hj, hpi] at hno
    simp [uses, used] at hno

end Room

end Xv6Rcu.Bcache

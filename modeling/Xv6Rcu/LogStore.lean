import Xv6Rcu.LogSteps

namespace Xv6Rcu.Log

open Transition Threads Function List

variable {A : Area} {base disk disk' : Nat → Block} {s t : State} {a : Act} {p b k n : Nat} {ls : List Nat}

section Header

theorem readHead_putHead (ls : List Nat) (d : Block) : readHead (putHead ls d) = ls := by
  have hlen : putHead ls d 0 = ls.length := rfl
  apply ext_getElem
  · simp [readHead, hlen]
  · intro i hi hi'
    simp [readHead, putHead, hi']

structure Fits (A : Area) (ls : List Nat) : Prop where
  nodup : ls.Nodup
  outside : ∀ b ∈ ls, A.Outside b
  room : ls.length < A.size

theorem fits_nil : Fits A [] := ⟨nodup_nil, nofun, A.pos⟩

theorem not_outside_start : ¬A.Outside A.start := by
  have hpos := A.pos
  unfold Area.Outside
  omega

theorem update_start {m : Nat → Block} {d : Block} {b : Nat} (hb : A.Outside b) : update m A.start d b = m b :=
  update_of_ne (fun (he : b = A.start) => not_outside_start (he ▸ hb)) _ _

theorem Fits.not_outside_slot (hf : Fits A ls) (hk : k < ls.length) : ¬A.Outside (A.slot k) := by
  have hroom := hf.room
  unfold Area.Outside Area.slot
  omega

theorem slot_ne_start : A.slot k ≠ A.start := by
  unfold Area.slot
  omega

theorem slot_inj (h : A.slot k = A.slot n) : k = n := by
  unfold Area.slot at h
  omega

theorem Fits.append (hf : Fits A ls) (hn : b ∉ ls) (ho : A.Outside b) (hlen : ls.length < A.size - 1) :
    Fits A (ls ++ [b]) where
  nodup := nodup_append.mpr ⟨hf.nodup, nodup_singleton b, fun x hx y hy hxy =>
    hn (mem_singleton.mp hy ▸ hxy ▸ hx)⟩
  outside := by
    intro x hx
    rcases mem_append.mp hx with hx | hx
    · exact hf.outside x hx
    · exact mem_singleton.mp hx ▸ ho
  room := by
    rw [length_append, length_singleton]
    omega

end Header

section Recovered

/-- What recovery makes of a block: the copy in the log if the header names it. -/
def recovered (A : Area) (disk : Nat → Block) (b : Nat) : Block :=
  if b ∈ readHead (disk A.start) then disk (A.slot ((readHead (disk A.start)).idxOf b)) else disk b

/-- The blocks of the header are at their home locations as they are in the log. -/
def Copied (A : Area) (disk : Nat → Block) (ls : List Nat) (n : Nat) : Prop :=
  ∀ k b, k < n → ls[k]? = some b → disk b = disk (A.slot k)

theorem recovered_of_copied (hc : Copied A disk (readHead (disk A.start)) (readHead (disk A.start)).length) :
    recovered A disk b = disk b := by
  unfold recovered
  split
  · rename_i hb
    have hk := idxOf_lt_length_of_mem hb
    exact (hc _ b hk (getElem?_idxOf hb)).symm
  · rfl

theorem recovered_of_empty (he : readHead (disk A.start) = []) : recovered A disk b = disk b := by
  apply recovered_of_copied
  rw [he]
  exact nofun

/-- Recovery depends on the header, on the log blocks that it uses and on the
blocks that it does not name. -/
theorem recovered_congr (hh : disk' A.start = disk A.start)
    (hs : ∀ k < (readHead (disk A.start)).length, disk' (A.slot k) = disk (A.slot k))
    (hb : b ∉ readHead (disk A.start) → disk' b = disk b) : recovered A disk' b = recovered A disk b := by
  unfold recovered
  rw [hh]
  split
  · rename_i hm
    exact hs _ (idxOf_lt_length_of_mem hm)
  · rename_i hm
    exact hb hm

theorem recovered_install (hf : Fits A (readHead (disk A.start))) (hk : (readHead (disk A.start))[k]? = some b)
    (d : Block) (b' : Nat) : recovered A (update disk b d) b' = recovered A disk b' := by
  have hm : b ∈ readHead (disk A.start) := mem_of_getElem? hk
  have ho := hf.outside b hm
  refine recovered_congr ?_ ?_ ?_
  · exact update_of_ne (fun (he : A.start = b) => not_outside_start (he ▸ ho)) _ _
  · intro j hj
    exact update_of_ne (fun (he : A.slot j = b) => hf.not_outside_slot hj (he ▸ ho)) _ _
  · intro hn
    exact update_of_ne (fun (he : b' = b) => hn (he ▸ hm)) _ _

end Recovered

section Updates

theorem applyAll_append (us vs : List Update) : applyAll base (us ++ vs) = applyAll (applyAll base us) vs :=
  foldl_append

theorem applyAll_snoc (us : List Update) (u : Update) :
    applyAll base (us ++ [u]) = update (applyAll base us) u.block u.data := applyAll_append us [u]

end Updates

section Invariant

structure Store (A : Area) (base : Nat → Block) (s : State) : Prop where
  coherent : ∀ b, s.pinned b = false → b ∉ s.dirty → s.buf b = s.disk b
  inside : ∀ b, ¬A.Outside b → s.pinned b = false ∧ b ∉ s.dirty
  fits : Fits A s.lh
  head : Fits A (readHead (s.disk A.start))
  recov : ∀ b, A.Outside b → recovered A s.disk b = applyAll base s.hist.flatten b
  view : s.recovery = none → ∀ b, A.Outside b → s.buf b = applyAll base (s.hist.flatten ++ s.cur) b
  logged : ∀ u ∈ s.cur, u.block ∈ s.lh ∨ u.block ∈ s.dirty
  pins : ∀ b, s.pinned b = true → b ∈ s.lh

def Written (A : Area) (s : State) (n : Nat) : Prop :=
  ∀ k b, k < n → s.lh[k]? = some b → s.disk (A.slot k) = s.buf b

structure Rest (A : Area) (s : State) : Prop where
  head : readHead (s.disk A.start) = []
  full : ∀ b ∈ s.lh, s.pinned b = true

def Phase (A : Area) (s : State) : CommitPc → Prop
  | .start => Rest A s
  | .writeLog tail => Rest A s ∧ Written A s tail
  | .writeHead => Rest A s ∧ Written A s s.lh.length
  | .install tail => readHead (s.disk A.start) = s.lh ∧ s.cur = [] ∧ Written A s s.lh.length ∧
      ∀ k b, s.lh[k]? = some b → (s.pinned b = true ↔ tail ≤ k)
  | .clear => readHead (s.disk A.start) = s.lh ∧ s.cur = [] ∧ Written A s s.lh.length ∧ ∀ b, s.pinned b = false
  | .eraseHead => s.lh = [] ∧ s.cur = [] ∧ (∀ b, s.pinned b = false) ∧
      Copied A s.disk (readHead (s.disk A.start)) (readHead (s.disk A.start)).length
  | .finish => readHead (s.disk A.start) = [] ∧ s.lh = [] ∧ s.cur = [] ∧ ∀ b, s.pinned b = false

def Recovering (A : Area) (s : State) : RecoverPc → Prop
  | .readHead => s.lh = []
  | .install tail => readHead (s.disk A.start) = s.lh ∧ Copied A s.disk s.lh tail
  | .clear => readHead (s.disk A.start) = s.lh ∧ Copied A s.disk s.lh s.lh.length
  | .writeHead => s.lh = [] ∧ Copied A s.disk (readHead (s.disk A.start)) (readHead (s.disk A.start)).length

structure Inv (A : Area) (base : Nat → Block) (s : State) : Prop where
  procs : Procs s
  store : Store A base s
  rest : s.recovery = none → (∀ p c, s.pc p ≠ .commit c) → Rest A s
  phase : ∀ p c, s.pc p = .commit c → Phase A s c
  recovering : ∀ r, s.recovery = some r → (∀ b, s.pinned b = false) ∧ s.cur = [] ∧ Recovering A s r

theorem store_boot (d : Nat → Block) (hf : Fits A (readHead (d A.start)))
    (hd : ∀ b, A.Outside b → recovered A d b = applyAll base s.hist.flatten b) :
    Store A base { boot d with nextop := s.nextop, made := s.made, hist := s.hist, durable := s.durable } where
  coherent := fun _ _ _ => rfl
  inside := fun _ _ => ⟨rfl, not_mem_nil⟩
  fits := fits_nil
  head := hf
  recov := hd
  view := nofun
  logged := nofun
  pins := nofun

theorem inv_boot (d : Nat → Block) (hd : d A.start 0 = 0) : Inv A d (boot d) where
  procs := procs_boot d
  store := by
    have hh : readHead (d A.start) = [] := by simp [readHead, hd]
    exact store_boot (s := boot d) d (hh ▸ fits_nil) (fun b _ => recovered_of_empty hh)
  rest := nofun
  phase := nofun
  recovering := by
    rintro r ⟨⟩
    exact ⟨fun _ => rfl, rfl, rfl⟩

theorem inv_work (hI : Inv A base s) (hP : Procs t) (hr : s.recovery = none) (hr' : t.recovery = none)
    (hc : s.committing = false) (hc' : t.committing = false) (hS : Store A base t) (hR : Rest A s → Rest A t) :
    Inv A base t := by
  have hnone {u : State} (hu : Procs u) (hcu : u.committing = false) (q : Nat) (c : CommitPc) :
      u.pc q ≠ .commit c := fun hq => absurd (hcu.symm.trans (hu.committer q c hq)) nofun
  exact {
    procs := hP
    store := hS
    rest := fun _ _ => hR (hI.rest hr (hnone hI.procs hc))
    phase := fun q c hq => absurd hq (hnone hP hc' q c)
    recovering := fun r he => absurd (hr'.symm.trans he) nofun }

end Invariant

section Operations

theorem store_modify (hS : Store A base s) (hr : s.recovery = none) (ho : A.Outside b) (o : Nat) (d : Block) :
    Store A base { s with
      buf := update s.buf b d
      dirty := b :: s.dirty
      made := s.made ++ [⟨o, b, d⟩]
      cur := s.cur ++ [⟨o, b, d⟩] } := by
  refine { hS with coherent := ?_, inside := ?_, view := ?_, logged := ?_ }
  · intro b' hpin hd
    have hne : b' ≠ b := fun he => hd (he ▸ mem_cons_self)
    exact (update_of_ne hne _ _).trans (hS.coherent b' hpin (fun hm => hd (mem_cons_of_mem _ hm)))
  · intro b' hb'
    have hne : b' ≠ b := fun he => hb' (he ▸ ho)
    exact ⟨(hS.inside b' hb').1, by simp [hne, (hS.inside b' hb').2]⟩
  · intro _ b' hb'
    change update s.buf b d b' = applyAll base (s.hist.flatten ++ (s.cur ++ [⟨o, b, d⟩])) b'
    rw [← append_assoc, applyAll_snoc]
    by_cases hne : b' = b
    · rw [hne, update_self, update_self]
    · rw [update_of_ne hne, update_of_ne hne]
      exact hS.view hr b' hb'
  · intro u hu
    rcases mem_append.mp hu with hu | hu
    · exact (hS.logged u hu).imp id (mem_cons_of_mem b)
    · rw [mem_singleton.mp hu]
      exact .inr mem_cons_self

theorem store_absorb (hS : Store A base s) (hR : Rest A s) (hm : b ∈ s.lh) (x : Pc) :
    Store A base { s.setPc p x with dirty := s.dirty.filter (· ≠ b) } := by
  have hkeep {b' : Nat} (hne : b' ≠ b) (hd : b' ∉ s.dirty.filter (· ≠ b)) : b' ∉ s.dirty := by
    intro hb'
    exact hd (mem_filter.mpr ⟨hb', by simpa using hne⟩)
  refine { hS with coherent := ?_, inside := ?_, logged := ?_ }
  · intro b' hpin hd
    have hne : b' ≠ b := by
      rintro rfl
      exact absurd ((hR.full b' hm).symm.trans hpin) nofun
    exact hS.coherent b' hpin (hkeep hne hd)
  · intro b' hb'
    exact ⟨(hS.inside b' hb').1, fun hd => (hS.inside b' hb').2 (mem_of_mem_filter hd)⟩
  · intro u hu
    by_cases hub : u.block = b
    · exact .inl (hub ▸ hm)
    · exact (hS.logged u hu).imp id (fun hd => mem_filter.mpr ⟨hd, by simpa using hub⟩)

theorem store_append (hS : Store A base s) (ho : A.Outside b) (hm : b ∉ s.lh) (hlen : s.lh.length < A.size - 1)
    (x : Pc) : Store A base { s.setPc p x with
      dirty := s.dirty.filter (· ≠ b)
      pinned := update s.pinned b true
      lh := s.lh ++ [b] } := by
  have hpins {b' : Nat} (hpin : update s.pinned b true b' = false) : b' ≠ b ∧ s.pinned b' = false := by
    by_cases hne : b' = b
    · rw [hne, update_self] at hpin
      contradiction
    · exact ⟨hne, by rwa [update_of_ne hne] at hpin⟩
  refine { hS with coherent := ?_, inside := ?_, fits := hS.fits.append hm ho hlen, logged := ?_, pins := ?_ }
  · intro b' hpin hd
    obtain ⟨hne, hpin'⟩ := hpins hpin
    exact hS.coherent b' hpin' (fun hb' => hd (mem_filter.mpr ⟨hb', by simpa using hne⟩))
  · intro b' hb'
    have hne : b' ≠ b := fun he => hb' (he ▸ ho)
    exact ⟨(update_of_ne hne _ _).trans (hS.inside b' hb').1,
      fun hd => (hS.inside b' hb').2 (mem_of_mem_filter hd)⟩
  · intro u hu
    by_cases hub : u.block = b
    · exact .inl (mem_append_right _ (hub ▸ mem_singleton_self b))
    · exact (hS.logged u hu).imp (mem_append_left _) (fun hd => mem_filter.mpr ⟨hd, by simpa using hub⟩)
  · intro b' hpin
    by_cases hne : b' = b
    · exact mem_append_right _ (hne ▸ mem_singleton_self b)
    · exact mem_append_left _ (hS.pins b' (by rwa [← update_of_ne hne true s.pinned]))

theorem rest_append (hR : Rest A s) (x : Pc) : Rest A { s.setPc p x with
    dirty := s.dirty.filter (· ≠ b)
    pinned := update s.pinned b true
    lh := s.lh ++ [b] } := by
  refine ⟨hR.head, fun b' hb' => ?_⟩
  by_cases hne : b' = b
  · subst hne
    exact update_self b' true s.pinned
  · rcases mem_append.mp hb' with hb' | hb'
    · exact (update_of_ne hne _ _).trans (hR.full b' hb')
    · exact absurd (mem_singleton.mp hb') hne

end Operations

section Commit

theorem inv_commit {c' : CommitPc} (hP : Procs t)
    (hpc : t.pc = update s.pc p (.commit c')) (hr : t.recovery = none) (hS : Store A base t)
    (hPh : Phase A t c') : Inv A base t := by
  have hself : t.pc p = .commit c' := by rw [hpc, update_self]
  exact {
    procs := hP
    store := hS
    rest := fun _ hn => absurd hself (hn p c')
    phase := by
      intro q d hq
      obtain rfl := hP.unique q p d c' hq hself
      obtain rfl : c' = d := Pc.commit.inj (hself.symm.trans hq)
      exact hPh
    recovering := fun r he => absurd (hr.symm.trans he) nofun }

section

variable (hS : Store A base s)

include hS

theorem Store.coherent_bwrite {b' : Nat} {d : Block} (hd : s.dirty = [])
    (hpin : s.pinned b' = false) : update s.buf b d b' = update s.disk b d b' := by
  by_cases hne : b' = b
  · rw [hne, update_self, update_self]
  · rw [update_of_ne hne, update_of_ne hne]
    exact hS.coherent b' hpin (hd ▸ not_mem_nil)

theorem store_writeLog (hd : s.dirty = []) (hR : Rest A s) (hk : k < s.lh.length)
    (d : Block) (x : Pc) : Store A base ((s.bwrite (A.slot k) d).setPc p x) := by
  have hslot : ¬A.Outside (A.slot k) := hS.fits.not_outside_slot hk
  have hdisk {b' : Nat} (hb' : A.Outside b') : update s.disk (A.slot k) d b' = s.disk b' :=
    update_of_ne (fun (he : b' = A.slot k) => hslot (he ▸ hb')) _ _
  have hhead : update s.disk (A.slot k) d A.start = s.disk A.start :=
    update_of_ne slot_ne_start.symm _ _
  refine { hS with coherent := ?_, head := ?_, recov := ?_, view := ?_ }
  · exact fun b' hpin _ => hS.coherent_bwrite hd hpin
  · change Fits A (readHead (update s.disk (A.slot k) d A.start))
    rw [hhead]
    exact hS.head
  · intro b' hb'
    refine Eq.trans ?_ (hS.recov b' hb')
    rw [recovered_of_empty hR.head]
    refine (recovered_of_empty ?_).trans (hdisk hb')
    change readHead (update s.disk (A.slot k) d A.start) = []
    rw [hhead]
    exact hR.head
  · intro hr b' hb'
    refine Eq.trans ?_ (hS.view hr b' hb')
    exact update_of_ne (fun (he : b' = A.slot k) => hslot (he ▸ hb')) _ _

theorem written_succ (hk : s.lh[k]? = some b) (hw : Written A s k) (x : Pc) :
    Written A ((s.bwrite (A.slot k) (s.buf b)).setPc p x) (k + 1) := by
  have hlt : k < s.lh.length := (List.getElem?_eq_some_iff.mp hk).1
  have hslot : ¬A.Outside (A.slot k) := hS.fits.not_outside_slot hlt
  intro j b' hj hb'
  have hout : A.Outside b' := hS.fits.outside b' (mem_of_getElem? hb')
  have hbuf : update s.buf (A.slot k) (s.buf b) b' = s.buf b' :=
    update_of_ne (fun (he : b' = A.slot k) => hslot (he ▸ hout)) _ _
  change update s.disk (A.slot k) (s.buf b) (A.slot j) = update s.buf (A.slot k) (s.buf b) b'
  rw [hbuf]
  by_cases hjk : j = k
  · subst hjk
    rw [update_self, Option.some.inj (hk.symm.trans hb')]
  · rw [update_of_ne (fun he => hjk (slot_inj he))]
    exact hw j b' (by omega) hb'

theorem store_commit (hd : s.dirty = []) (hr : s.recovery = none)
    (hw : Written A s s.lh.length) (x : Pc) :
    Store A base { (writeHead A s).setPc p x with hist := s.hist ++ [s.cur], cur := [] } := by
  have hflat : (s.hist ++ [s.cur]).flatten = s.hist.flatten ++ s.cur := by simp
  have hhead : readHead (update s.disk A.start (putHead s.lh (s.buf A.start)) A.start) = s.lh := by
    rw [update_self, readHead_putHead]
  refine { hS with coherent := ?_, head := ?_, recov := ?_, view := ?_, logged := nofun }
  · exact fun b' hpin _ => hS.coherent_bwrite hd hpin
  · exact hhead.symm ▸ hS.fits
  · intro b' hb'
    change recovered A (update s.disk A.start _) b' = applyAll base (s.hist ++ [s.cur]).flatten b'
    rw [hflat, ← hS.view hr b' hb', recovered, hhead]
    split
    · rename_i hm
      rw [update_of_ne slot_ne_start]
      exact hw _ b' (idxOf_lt_length_of_mem hm) (getElem?_idxOf hm)
    · rename_i hm
      have hpin : s.pinned b' = false := Bool.eq_false_iff.mpr (fun hp => hm (hS.pins b' hp))
      rw [update_start hb']
      exact (hS.coherent b' hpin (hd ▸ not_mem_nil)).symm
  · intro _ b' hb'
    change update s.buf A.start _ b' = applyAll base ((s.hist ++ [s.cur]).flatten ++ []) b'
    rw [append_nil, hflat, update_start hb']
    exact hS.view hr b' hb'

theorem store_install (hd : s.dirty = []) (hh : readHead (s.disk A.start) = s.lh)
    (hk : s.lh[k]? = some b) (hbuf : s.recovery = none → s.buf b = s.disk (A.slot k)) :
    Store A base (s.bwrite b (s.disk (A.slot k))) := by
  have ho : A.Outside b := hS.fits.outside b (mem_of_getElem? hk)
  have hhead : update s.disk b (s.disk (A.slot k)) A.start = s.disk A.start :=
    update_of_ne (fun (he : A.start = b) => not_outside_start (he ▸ ho)) _ _
  refine { hS with coherent := ?_, head := ?_, recov := ?_, view := ?_ }
  · exact fun b' hpin _ => hS.coherent_bwrite hd hpin
  · change Fits A (readHead (update s.disk b _ A.start))
    rw [hhead]
    exact hS.head
  · intro b' hb'
    refine Eq.trans ?_ (hS.recov b' hb')
    exact recovered_install hS.head (hh.symm ▸ hk) _ b'
  · intro hr b' hb'
    refine Eq.trans ?_ (hS.view hr b' hb')
    change update s.buf b (s.disk (A.slot k)) b' = s.buf b'
    refine update_cases b' ?_ (fun _ => ?_)
    · rw [hbuf hr]
    · rfl

theorem written_install (hk : s.lh[k]? = some b) (hw : Written A s s.lh.length) :
    Written A (s.bwrite b (s.disk (A.slot k))) s.lh.length := by
  intro j b' hj hb'
  have hslot : ¬A.Outside (A.slot j) := hS.fits.not_outside_slot hj
  have ho : A.Outside b := hS.fits.outside b (mem_of_getElem? hk)
  have hne : A.slot j ≠ b := fun he => hslot (he ▸ ho)
  change update s.disk b _ (A.slot j) = update s.buf b _ b'
  rw [update_of_ne hne]
  by_cases hb : b' = b
  · subst hb
    rw [update_self]
    have hlt := (List.getElem?_eq_some_iff.mp hk).1
    rw [hw j b' hj hb', hw k b' hlt hk]
  · rw [update_of_ne hb]
    exact hw j b' hj hb'

theorem copied_install (hk : s.lh[k]? = some b) (hc : Copied A s.disk s.lh k) :
    Copied A (update s.disk b (s.disk (A.slot k))) s.lh (k + 1) := by
  intro j b' hj hb'
  have hlt := (List.getElem?_eq_some_iff.mp hb').1
  have hslot : ¬A.Outside (A.slot j) := hS.fits.not_outside_slot hlt
  have ho : A.Outside b := hS.fits.outside b (List.mem_of_getElem? hk)
  have hne : A.slot j ≠ b := fun he => hslot (he ▸ ho)
  rw [update_of_ne hne]
  by_cases hjk : j = k
  · subst hjk
    rw [← Option.some.inj (hk.symm.trans hb'), update_self]
  · have hbb : b' ≠ b := by
      rintro rfl
      exact hjk ((List.getElem?_inj hlt hS.fits.nodup).mp (hb'.trans hk.symm))
    rw [update_of_ne hbb]
    exact hc j b' (by omega) hb'

theorem store_erase (hd : s.dirty = []) (hl : s.lh = []) (hcur : s.cur = [])
    (hpin : ∀ b, s.pinned b = false)
    (hc : Copied A s.disk (readHead (s.disk A.start)) (readHead (s.disk A.start)).length) :
    Store A base { writeHead A s with recovery := none } ∧ readHead ((writeHead A s).disk A.start) = [] := by
  have hhead : readHead (update s.disk A.start (putHead s.lh (s.buf A.start)) A.start) = [] := by
    rw [update_self, readHead_putHead, hl]
  have hhome {b' : Nat} (hb' : A.Outside b') : s.disk b' = applyAll base s.hist.flatten b' := by
    rw [← hS.recov b' hb', recovered_of_copied hc]
  refine ⟨{ hS with coherent := ?_, head := ?_, recov := ?_, view := ?_ }, hhead⟩
  · exact fun b' hpin _ => hS.coherent_bwrite hd hpin
  · exact hhead.symm ▸ fits_nil
  · intro b' hb'
    refine Eq.trans ?_ (hhome hb')
    exact (recovered_of_empty hhead).trans (update_start hb')
  · intro _ b' hb'
    change update s.buf A.start _ b' = applyAll base (s.hist.flatten ++ s.cur) b'
    rw [hcur, append_nil, ← hhome hb', update_start hb']
    exact hS.coherent b' (hpin b') (hd ▸ not_mem_nil)

theorem store_unpin (hb : s.buf b = s.disk b) : Store A base (s.unpin b) := by
  have hpin {b' : Nat} (hne : b' ≠ b) : update s.pinned b false b' = s.pinned b' :=
    update_of_ne hne _ _
  refine { hS with coherent := ?_, inside := ?_, pins := ?_ }
  · intro b' hp hd
    by_cases hne : b' = b
    · exact hne ▸ hb
    · exact hS.coherent b' ((hpin hne).symm.trans hp) hd
  · intro b' hb'
    refine ⟨?_, (hS.inside b' hb').2⟩
    by_cases hne : b' = b
    · subst hne
      simp [State.unpin]
    · exact (hpin hne).trans (hS.inside b' hb').1
  · intro b' hp
    by_cases hne : b' = b
    · subst hne
      simp [State.unpin] at hp
    · exact hS.pins b' ((hpin hne).symm.trans hp)

end

theorem inv_commit_step {c : CommitPc} (hI : Inv A base s) (hP : Procs t) (hr : s.recovery = none)
    (hp : s.pc p = .commit c) (hu : commit A s p c = some t) : Inv A base t := by
  have hS := hI.store
  have hd : s.dirty = [] := hI.procs.not_dirty (hI.procs.committer p c hp)
  have hph := hI.phase p c hp
  cases c with
  | start =>
    cases hu
    have hR : Rest A s := hph
    split at hP
    · rw [if_pos ‹_›] at *
      exact inv_commit hP rfl hr { hS with } ⟨{ hR with }, (by rintro _ _ ⟨⟩)⟩
    · rw [if_neg ‹_›] at *
      have hl : s.lh = [] := length_eq_zero_iff.mp (Nat.eq_zero_of_not_pos ‹_›)
      have hcur : s.cur = [] := by
        refine eq_nil_iff_forall_not_mem.mpr (fun u hu => ?_)
        rcases hS.logged u hu with hm | hm
        · exact absurd (hl ▸ hm) not_mem_nil
        · exact absurd (hd ▸ hm) not_mem_nil
      have hpin (b : Nat) : s.pinned b = false :=
        Bool.eq_false_iff.mpr (fun hb => absurd (hl ▸ hS.pins b hb) not_mem_nil)
      exact inv_commit hP rfl hr { hS with } ⟨hR.head, hl, hcur, hpin⟩
  | writeLog tail =>
    obtain ⟨hR, hw⟩ := hph
    simp only [commit, writeLog] at hu
    split at hu
    · rename_i b hb
      split at hu
      · cases hu
        have hlt := (List.getElem?_eq_some_iff.mp hb).1
        refine inv_commit hP rfl hr (store_writeLog hS hd hR hlt _ _) ⟨⟨?_, hR.full⟩, written_succ hS hb hw _⟩
        change readHead (update s.disk (A.slot tail) _ A.start) = []
        rw [update_of_ne slot_ne_start.symm]
        exact hR.head
      · cases hu
    · rename_i hb
      cases hu
      refine inv_commit hP rfl hr { hS with } ⟨{ hR with }, fun k b hk hkb => hw k b ?_ hkb⟩
      exact lt_of_lt_of_le hk (getElem?_eq_none_iff.mp hb)
  | writeHead =>
    obtain ⟨hR, hw⟩ := hph
    cases hu
    refine inv_commit hP rfl hr (store_commit hS hd hr hw _) ⟨?_, rfl, ?_, ?_⟩
    · change readHead (update s.disk A.start _ A.start) = s.lh
      rw [update_self, readHead_putHead]
    · intro k b hk hkb
      have ho : A.Outside b := hS.fits.outside b (mem_of_getElem? hkb)
      change update s.disk A.start _ (A.slot k) = update s.buf A.start _ b
      rw [update_of_ne slot_ne_start,
        update_of_ne (fun (he : b = A.start) => not_outside_start (he ▸ ho))]
      exact hw k b hk hkb
    · intro k b hkb
      exact ⟨fun _ => Nat.zero_le k, fun _ => hR.full b (mem_of_getElem? hkb)⟩
  | install tail =>
    obtain ⟨hh, hcur, hw, hpin⟩ := hph
    simp only [commit, installTrans] at hu
    split at hu
    · rename_i b hb
      split at hu
      · cases hu
        have hlt := (List.getElem?_eq_some_iff.mp hb).1
        have hslot := hS.inside _ (hS.fits.not_outside_slot hlt)
        have hbs : s.buf (A.slot tail) = s.disk (A.slot tail) := hS.coherent _ hslot.1 hslot.2
        rw [hbs] at hP ⊢
        have hS' := store_install hS hd hh hb (fun _ => (hw tail b hlt hb).symm)
        have hclean : (s.bwrite b (s.disk (A.slot tail))).buf b = (s.bwrite b (s.disk (A.slot tail))).disk b :=
          (update_self b _ s.buf).trans (update_self b _ s.disk).symm
        have hU := store_unpin hS' hclean
        have ho : A.Outside b := hS.fits.outside b (mem_of_getElem? hb)
        refine inv_commit hP rfl hr { hU with } ⟨?_, hcur, written_install hS hb hw, ?_⟩
        · change readHead (update s.disk b _ A.start) = s.lh
          rw [update_of_ne (fun (he : A.start = b) => not_outside_start (he ▸ ho))]
          exact hh
        · intro k b' hk
          change update s.pinned b false b' = true ↔ tail + 1 ≤ k
          have hkl := (List.getElem?_eq_some_iff.mp hk).1
          by_cases hkt : k = tail
          · subst hkt
            rw [← Option.some.inj (hb.symm.trans hk), update_self]
            simp
          · have hne : b' ≠ b := fun he =>
              hkt ((getElem?_inj hkl hS.fits.nodup).mp (hk.trans (he ▸ hb.symm)))
            rw [update_of_ne hne, hpin k b' hk]
            omega
      · cases hu
    · rename_i hb
      cases hu
      refine inv_commit hP rfl hr { hS with } ⟨hh, hcur, hw, fun b => Bool.eq_false_iff.mpr (fun hbp => ?_)⟩
      obtain ⟨k, hk⟩ := getElem?_of_mem (hS.pins b hbp)
      have hle := (hpin k b hk).mp hbp
      have hkl := (List.getElem?_eq_some_iff.mp hk).1
      have hlen := List.getElem?_eq_none_iff.mp hb
      omega
  | clear =>
    obtain ⟨hh, hcur, hw, hpin⟩ := hph
    cases hu
    have hlog : ∀ u ∈ s.cur, u.block ∈ ([] : List Nat) ∨ u.block ∈ s.dirty := by
      rw [hcur]
      intros; contradiction
    refine inv_commit hP rfl hr { hS with
      fits := fits_nil, logged := hlog, pins := fun b hb => absurd ((hpin b).symm.trans hb) (by rintro ⟨⟩) }
      ⟨rfl, hcur, hpin, ?_⟩
    intro k b hk hkb
    have hkb' : s.lh[k]? = some b := hh ▸ hkb
    have hlt := (List.getElem?_eq_some_iff.mp hkb').1
    exact (hS.coherent b (hpin b) (hd ▸ List.not_mem_nil)).symm.trans (hw k b hlt hkb').symm
  | eraseHead =>
    obtain ⟨hl, hcur, hpin, hc⟩ := hph
    cases hu
    obtain ⟨hS', hh⟩ := store_erase hS hd hl hcur hpin hc
    exact inv_commit hP rfl hr { hS' with view := fun _ => hS'.view rfl } ⟨hh, hl, hcur, hpin⟩
  | finish =>
    obtain ⟨hh, hl, hcur, hpin⟩ := hph
    cases hu
    have hnone (q : Nat) (c : CommitPc) : update s.pc p .idle q ≠ .commit c := fun hq =>
      absurd (hP.committer q c hq) (by rintro ⟨⟩)
    exact {
      procs := hP
      store := { hS with }
      rest := fun _ _ => ⟨hh, fun b hb => absurd (hl ▸ hb) not_mem_nil⟩
      phase := fun q c hq => absurd hq (hnone q c)
      recovering := fun r he => absurd (hr.symm.trans he) (by rintro ⟨⟩) }

end Commit

section Steps

theorem inv_recover_step {r : RecoverPc} (hI : Inv A base s) (hP : Procs t) (hr : s.recovery = some r)
    (hu : recover A s r = some t) : Inv A base t := by
  have hS := hI.store
  obtain ⟨hpin, hcur, hrec⟩ := hI.recovering r hr
  have hidle := hI.procs.down (hr ▸ (by rintro ⟨⟩))
  have hd : s.dirty = [] := by
    refine eq_nil_iff_forall_not_mem.mpr (fun b hb => ?_)
    obtain ⟨q, -, hq⟩ := hI.procs.held b hb
    rw [hidle q] at hq
    contradiction
  have hbuf (b : Nat) : s.buf b = s.disk b := hS.coherent b (hpin b) (hd ▸ not_mem_nil)
  have hphase {u : State} (hpc : u.pc = s.pc) (q : Nat) (c : CommitPc) (hq : u.pc q = .commit c) :
      Phase A u c := by
    rw [hpc, hidle q] at hq
    contradiction
  cases r with
  | readHead =>
    cases hu
    have hlog : ∀ u ∈ s.cur, u.block ∈ readHead (s.buf A.start) ∨ u.block ∈ s.dirty := by
      rw [hcur]
      intros; contradiction
    refine ⟨hP, { hS with fits := ?_, view := (by intros; contradiction), logged := hlog, pins := ?_ }, (by intros; contradiction), hphase rfl, ?_⟩
    · exact (hbuf A.start).symm ▸ hS.head
    · exact fun b hb => absurd ((hpin b).symm.trans hb) (by rintro ⟨⟩)
    · rintro r ⟨⟩
      exact ⟨hpin, hcur, by rw [hbuf], (by rintro _ _ ⟨⟩)⟩
  | install tail =>
    obtain ⟨hh, hc⟩ := hrec
    simp only [recover, installTrans] at hu
    split at hu
    · rename_i b hb
      split at hu
      · cases hu
        have ho : A.Outside b := hS.fits.outside b (mem_of_getElem? hb)
        rw [hbuf (A.slot tail)] at hP ⊢
        have hS' := store_install hS hd hh hb (fun hn => absurd (hr.symm.trans hn) (by rintro ⟨⟩))
        refine ⟨hP, { hS' with view := (by intros; contradiction) }, (by intros; contradiction), hphase rfl, ?_⟩
        rintro r ⟨⟩
        refine ⟨hpin, hcur, ?_, copied_install hS hb hc⟩
        change readHead (update s.disk b _ A.start) = s.lh
        rw [update_of_ne (fun (he : A.start = b) => not_outside_start (he ▸ ho))]
        exact hh
      · cases hu
    · rename_i hb
      cases hu
      refine ⟨hP, { hS with view := (by intros; contradiction) }, (by intros; contradiction), hphase rfl, ?_⟩
      rintro r ⟨⟩
      exact ⟨hpin, hcur, hh, fun k b hk hkb =>
        hc k b (lt_of_lt_of_le hk (getElem?_eq_none_iff.mp hb)) hkb⟩
  | clear =>
    obtain ⟨hh, hc⟩ := hrec
    cases hu
    have hlog : ∀ u ∈ s.cur, u.block ∈ ([] : List Nat) ∨ u.block ∈ s.dirty := by
      rw [hcur]
      intros; contradiction
    refine ⟨hP, { hS with fits := fits_nil, view := (by intros; contradiction), logged := hlog, pins := ?_ }, (by intros; contradiction), hphase rfl, ?_⟩
    · exact fun b hb => absurd ((hpin b).symm.trans hb) (by rintro ⟨⟩)
    · rintro r ⟨⟩
      exact ⟨hpin, hcur, rfl, hh.symm ▸ hc⟩
  | writeHead =>
    obtain ⟨hl, hc⟩ := hrec
    cases hu
    obtain ⟨hS', hh⟩ := store_erase hS hd hl hcur hpin hc
    exact ⟨hP, hS', fun _ _ => ⟨hh, fun b hb => absurd (hl ▸ hb) not_mem_nil⟩, hphase rfl, (by intros; contradiction)⟩

theorem inv_crash (hI : Inv A base s) (hP : Procs (crash s)) : Inv A base (crash s) where
  procs := hP
  store := store_boot s.disk hI.store.head hI.store.recov
  rest := nofun
  phase := nofun
  recovering := by
    rintro r ⟨⟩
    exact ⟨fun _ => rfl, rfl, rfl⟩

theorem phase_holder {c : CommitPc} (hp : Phase A s c) (H : Nat → Option Nat) : Phase A { s with holder := H } c := by
  cases c with
  | start => exact { (hp : Rest A s) with }
  | writeLog tail => exact ⟨{ hp.1 with }, hp.2⟩
  | writeHead => exact ⟨{ hp.1 with }, hp.2⟩
  | _ => exact hp

theorem inv_step (hI : Inv A base s) (hok : Proper A s a) (hstep : step A s a = some t) : Inv A base t := by
  have hm := step_moves hstep
  have hP := procs_step hI.procs hok hm
  have hS := hI.store
  have hfree {o : Nat} {bs : List Nat} {q : Nat} (hq : s.pc q = .op o bs) : s.committing = false :=
    hI.procs.not_committing (by rw [hq]; rfl)
  have hrest (hr : s.recovery = none) (hc : s.committing = false) : Rest A s :=
    hI.rest hr (fun q c hq => absurd (hc.symm.trans (hI.procs.committer q c hq)) nofun)
  cases hm with
  | beginOp p hr hp hc hroom => exact inv_work hI hP hr hr hc hc { hS with } (fun hR => { hR with })
  | bread p b hr hb =>
    exact ⟨hP, { hS with }, fun hr' hn => { hI.rest hr' hn with }, fun q c hq => phase_holder (hI.phase q c hq) _,
      fun r hr' => absurd (hr.symm.trans hr') nofun⟩
  | modify p b d o bs hr hp hb =>
    exact inv_work hI hP hr hr (hfree hp) (hfree hp) (store_modify hS hr hok o d) (fun hR => { hR with })
  | full p b o bs e hr hp hb he =>
    exact inv_work hI hP hr hr (hfree hp) (hfree hp) { hS with } (fun hR => { hR with })
  | absorb p b o bs hr hp hb hm =>
    exact inv_work hI hP hr hr (hfree hp) (hfree hp) (store_absorb hS (hrest hr (hfree hp)) hm _)
      (fun hR => { hR with })
  | append p b o bs hr hp hb hm hlen =>
    exact inv_work hI hP hr hr (hfree hp) (hfree hp) (store_append hS hok hm hlen _) (fun hR => rest_append hR _)
  | brelse p b hr hb =>
    exact ⟨hP, { hS with }, fun hr' hn => { hI.rest hr' hn with }, fun q c hq => phase_holder (hI.phase q c hq) _,
      fun r hr' => absurd (hr.symm.trans hr') nofun⟩
  | endBusy p o bs hr hp hc => exact absurd ((hfree hp).symm.trans hc) nofun
  | endLast p o bs hr hp hc ho =>
    exact inv_commit hP rfl hr { hS with } { hrest hr hc with }
  | endMore p o bs hr hp hc => exact inv_work hI hP hr hr hc hc { hS with } (fun hR => { hR with })
  | commit p c hr hp hu => exact inv_commit_step hI hP hr hp hu
  | recycle b hr hb hpin =>
    -- The buffer is as the disk has its block, so nothing changes.
    have hd : b ∉ s.dirty := by
      intro hm
      obtain ⟨q, hq, -⟩ := hI.procs.held b hm
      exact absurd (hb.symm.trans hq) nofun
    rw [← hS.coherent b hpin hd, update_eq_self]
    exact hI
  | crash => exact inv_crash hI hP
  | recover r hr hu => exact inv_recover_step hI hP hr hu

theorem inv_run (d : Nat → Block) (hd : d A.start 0 = 0) (r : Run (step A)) (h0 : r.state 0 = boot d)
    (hr : r.Meets (Proper A)) (i : Nat) (hi : i ≤ r.length) : Inv A d (r.state i) :=
  r.invariant hr (h0 ▸ inv_boot d hd) (fun _ _ _ hI hok hstep => inv_step hI hok hstep) i hi

end Steps

end Xv6Rcu.Log

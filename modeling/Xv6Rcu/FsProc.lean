import Xv6Rcu.FsArray
import Xv6Rcu.FsCalls

namespace Xv6Rcu.Fs

open Exec Transition Threads Function List Option

section References

def cwdRef (k : Nat) (c : Option Nat) : Nat := if c = some k then 1 else 0

def fileRef (k : Nat) (x : File) : Nat := if x.type ≠ .none ∧ x.ip = k then 1 else 0

/-- References to inode `k` from working directories and open files. -/
def held (s : Sys) (k : Nat) : Nat := (∑ p, cwdRef k (s.cwd p)) + ∑ f, fileRef k (s.file f)

def written (s : Sys) (k : Nat) : Prop :=
  ∃ f, (s.file f).type = .inode ∧ (s.file f).writable = true ∧ (s.file f).ip = k

variable {s : Sys} {f : Fin NFILE} {p : Fin NPROC} {k : Nat} {x : File}

theorem setFile_self : (s.setFile f x).file f = x := update_self _ _ _

theorem setFile_ne {g : Fin NFILE} (h : g ≠ f) : (s.setFile f x).file g = s.file g := update_of_ne h _ _

theorem held_setFile (x : File) : held (s.setFile f x) k + fileRef k (s.file f) = held s k + fileRef k x := by
  have hsum := sum_update (fileRef k) s.file f x
  unfold held Sys.setFile
  dsimp only
  omega

theorem held_setCwd (c : Option Nat) :
    held { s with cwd := update s.cwd p c } k + cwdRef k (s.cwd p) = held s k + cwdRef k c := by
  have hsum := sum_update (cwdRef k) s.cwd p c
  unfold held
  dsimp only
  omega

theorem held_of_file (h : (s.file f).type ≠ .none) : 0 < held s (s.file f).ip := by
  have h1 := held_setFile (s := s) (f := f) (k := (s.file f).ip) { s.file f with type := .none }
  have h2 : fileRef (s.file f).ip (s.file f) = 1 := if_pos ⟨h, rfl⟩
  have h3 : fileRef (s.file f).ip { s.file f with type := .none } = 0 := if_neg (fun hc => hc.1 rfl)
  omega

theorem held_of_cwd (h : s.cwd p = some k) : 0 < held s k := by
  have h1 := held_setCwd (s := s) (p := p) (k := k) none
  have h2 : cwdRef k (s.cwd p) = 1 := if_pos h
  have h3 : cwdRef k none = 0 := if_neg nofun
  omega

theorem written_held (h : written s k) : 0 < held s k := by
  obtain ⟨f, htype, -, rfl⟩ := h
  exact held_of_file (by rw [htype]; nofun)

theorem held_same (ht : x.type = (s.file f).type) (hi : x.ip = (s.file f).ip) : held (s.setFile f x) k = held s k := by
  have h1 := held_setFile (s := s) (f := f) (k := k) x
  have h2 : fileRef k x = fileRef k (s.file f) := by
    unfold fileRef
    rw [ht, hi]
  omega

theorem written_same (ht : x.type = (s.file f).type) (hi : x.ip = (s.file f).ip)
    (hw : x.writable = (s.file f).writable) : written (s.setFile f x) k → written s k := by
  rintro ⟨g, h1, h2, h3⟩
  by_cases hg : g = f
  · subst hg
    rw [setFile_self] at h1 h2 h3
    exact ⟨g, ht ▸ h1, hw ▸ h2, hi ▸ h3⟩
  · rw [setFile_ne hg] at h1 h2 h3
    exact ⟨g, h1, h2, h3⟩

end References

section Layers

/-- What is known of the file system while a call runs: of inodes that are
written to, references of processes, references and locks of the call. -/
abbrev Assertion := (Nat → Prop) → (Nat → Nat) → List Nat → List Nat → State → Prop

/-- An assertion that the calls of `sysfile.c` and `file.c` can be carried out
with. `E` are the panics that it leaves open. -/
structure Layer (sb : Super) (E : Panic → Prop) (P : Assertion) : Prop where
  benign : Benign E
  hold : ∀ {wr base rs ls s}, P wr base rs ls s → Hold sb base rs ls s
  typed : ∀ {wr base rs ls s k}, P wr base rs ls s → k ∈ rs ∨ 0 < base k → (s.node k).type = .free → E .noType
  alike : ∀ {wr base rs ls ls' s t}, P wr base rs ls s → Alike s t → Hold sb base rs ls' t → P wr base rs ls' t
  move : ∀ {wr base base' rs rs' ls ls' s}, P wr base rs ls s →
    (∀ k, base k + rs.count k = base' k + rs'.count k) → Hold sb base' rs' ls' s → P wr base' rs' ls' s
  put : ∀ {wr base rs rs' ls ls' s t k}, P wr base rs ls s → rs.Perm (k :: rs') → Put sb k s t →
    Hold sb base rs' ls' t → P wr base rs' ls' t
  file : ∀ {wr base rs ls s t k}, P wr base rs ls s → k ∈ ls → wr k ∨ (s.node k).type = .file → Touch sb k s t →
    (t.node k).type = (s.node k).type → (t.node k).nlink = (s.node k).nlink → Hold sb base rs ls t → P wr base rs ls t
  narrow : ∀ {wr wr' base rs ls s}, P wr base rs ls s → (∀ k, wr' k → wr k ∧ (0 < base k ∨ k ∈ rs)) → P wr' base rs ls s
  grant : ∀ {wr base rs ls s k}, P wr base rs ls s → k ∈ rs → (s.node k).type ≠ .dir →
    P (fun j => wr j ∨ j = k) base rs ls s
  namei : ∀ {wr base s cwd path} {Q : Option Nat → State → Prop}, P wr base [] [] s → (∀ k, wr k → 0 < base k) →
    0 < base cwd →
    (∀ t, P wr base [] [] t → Q none t) → (∀ ip t, P wr base [ip] [] t → Q (some ip) t) →
    Runs (namei sb cwd path) s Q E
  create : ∀ {wr base s cwd path} {Q : Option Nat → State → Prop}, P wr base [] [] s → 0 < base cwd →
    (∀ t, P wr base [] [] t → Q none t) → (∀ ip t, P (fun j => wr j ∨ j = ip) base [ip] [ip] t → Q (some ip) t) →
    Runs (create sb cwd path .file 0 0) s Q E

/-- Between calls, all references belong to working directories and open files. -/
structure SysInv (P : Assertion) (s : Sys) : Prop where
  rest : P (written s) (held s) [] [] { s.fs with outstanding := 1 }
  idle : ∀ f, (s.file f).ref = 0 → (s.file f).type = .none

variable {sb : Super} {E : Panic → Prop} {P : Assertion} {wr : Nat → Prop} {base : Nat → Nat} {rs ls : List Nat}
  {s t : Sys} {v w : State} {f : Fin NFILE} {p : Fin NPROC} {k ip cwd : Nat}

theorem alike_outstanding (v : State) (o : Nat) : Alike v { v with outstanding := o } :=
  fun _ => ⟨rfl, rfl, rfl, fun _ _ _ => rfl⟩

theorem Hold.outst (h : Hold sb base rs ls v) {o : Nat} (ho : 0 < o) :
    Hold sb base rs ls { v with outstanding := o } :=
  ⟨h.sound.outstanding o, ho, h.refs, fun k hk => ⟨(h.locked k hk).1, (h.locked k hk).2.ref, (h.locked k hk).2.valid,
    (h.locked k hk).2.type⟩⟩

theorem count_move {n n' j k : Nat} {rs : List Nat} (hb : n = n' + if j = k then 1 else 0) :
    n + rs.count j = n' + (k :: rs).count j := by
  rw [hb]
  by_cases hj : j = k
  · subst hj
    rw [if_pos rfl, count_cons_self]
    omega
  · rw [if_neg hj, count_cons_of_ne (Ne.symm hj)]
    omega

namespace Layer

variable (L : Layer sb E P)

include L

theorem beginOp (h : P wr base [] [] { v with outstanding := 1 }) :
    P wr base [] [] { v with outstanding := v.outstanding + 1 } :=
  L.alike h (alike_outstanding _ _) ((L.hold h).outst (Nat.succ_pos _))

theorem endOp (h : P wr base [] ls v) : P wr base [] [] { v with outstanding := 1 } :=
  L.alike h (alike_outstanding _ _) (((L.hold h).outst one_pos).mono [] nofun)

theorem done (h : P wr base [] [] { s.fs with outstanding := 1 }) (hw : ∀ k, written s k → wr k)
    (hb : ∀ k, base k = held s k) (hi : ∀ f, (s.file f).ref = 0 → (s.file f).type = .none) : SysInv P s := by
  have hbase : base = held s := funext hb
  rw [hbase] at h
  exact ⟨L.narrow h (fun k hk => ⟨hw k hk, .inl (written_held hk)⟩), hi⟩

theorem finish {o : Nat} (h : P wr base [] ls v) (hfs : s.fs = { v with outstanding := o })
    (hw : ∀ k, written s k → wr k) (hb : ∀ k, base k = held s k)
    (hi : ∀ f, (s.file f).ref = 0 → (s.file f).type = .none) : SysInv P s := by
  have hend := L.endOp h
  refine L.done ?_ hw hb hi
  rw [hfs]
  exact hend

theorem ilock {Q : Unit → State → Prop} (h : P wr base rs ls v) (hk : k ∈ rs ∨ 0 < base k)
    (hQ : ∀ t, Quiet v t → P wr base rs (k :: ls) t → Q () t) : Runs (ilock k) v Q E :=
  (L.hold h).ilock hk (L.typed h hk) (fun t hq _ hold => hQ t hq (L.alike h hq.alike hold))

theorem iput {Q : Unit → State → Prop} (h : P wr base (k :: rs) ls v) (hQ : ∀ t, P wr base rs [] t → Q () t) :
    Runs (iput k) v Q E :=
  (L.hold h).iput [] .rfl nofun (fun t ht hold => hQ t (L.put h .rfl ht hold))

theorem iunlockput {Q : Unit → State → Prop} (h : P wr base (k :: rs) ls v) (hQ : ∀ t, P wr base rs [] t → Q () t) :
    Runs (iunlockput k) v Q E :=
  (L.hold h).iunlockput [] .rfl nofun (fun t ht hold => hQ t (L.put h .rfl ht hold))

theorem shift {base' : Nat → Nat} {rs' : List Nat} (h : P wr base rs ls v)
    (hsum : ∀ j, base j + rs.count j = base' j + rs'.count j) : P wr base' rs' [] v := by
  refine L.move h hsum ⟨(L.hold h).sound, (L.hold h).outstanding, fun j => ?_, nofun⟩
  rw [← hsum j]
  exact (L.hold h).refs j

theorem take {base' : Nat → Nat} (h : P wr base rs [] v)
    (hb : ∀ j, base j = base' j + if j = k then 1 else 0) : P wr base' (k :: rs) [] v :=
  L.shift h (fun j => count_move (hb j))

theorem give {base' : Nat → Nat} (h : P wr base (k :: rs) ls v)
    (hb : ∀ j, base' j = base j + if j = k then 1 else 0) : P wr base' rs [] v :=
  L.shift h (fun j => (count_move (hb j)).symm)

end Layer

end Layers

section Files

variable {sb : Super} {E : Panic → Prop} {P : Assertion} {wr : Nat → Prop} {base : Nat → Nat} {rs ls : List Nat}
  {s t : Sys} {v w : State} {f : Fin NFILE} {p : Fin NPROC} {fd : Fin NOFILE} {k ip cwd omode : Nat} {x : File}
  {path : List Byte} (L : Layer sb E P)

theorem idle_setFile (h : ∀ g, (s.file g).ref = 0 → (s.file g).type = .none) (hx : x.ref = 0 → x.type = .none) :
    ∀ g, ((s.setFile f x).file g).ref = 0 → ((s.setFile f x).file g).type = .none := by
  intro g
  by_cases hg : g = f
  · subst hg
    rw [setFile_self]
    exact hx
  · rw [setFile_ne hg]
    exact h g

include L

theorem SysInv.setOff (h : SysInv P s) (o : Nat) : SysInv P (s.setFile f { s.file f with off := o }) := by
  generalize hx : ({ s.file f with off := o } : File) = x
  have ht : x.type = (s.file f).type := by rw [← hx]
  have hi : x.ip = (s.file f).ip := by rw [← hx]
  have hr : x.ref = (s.file f).ref := by rw [← hx]
  have hw : x.writable = (s.file f).writable := by rw [← hx]
  refine L.done (s := s.setFile f x) h.rest (fun k hk => written_same ht hi hw hk) (fun k => (held_same ht hi).symm) ?_
  exact idle_setFile h.idle (fun h0 => ht.trans (h.idle f (hr ▸ h0)))

omit L in
theorem SysInv.setFd (h : SysInv P s) (x : Option (Fin NFILE)) : SysInv P (s.setFd p fd x) := ⟨h.rest, h.idle⟩

theorem SysInv.fileread {dev : Int} {dst : Dst} {n : Int} (h : SysInv P s) :
    Runs (fileread sb dev f dst n) s (fun _ t => SysInv P t) E := by
  have hn : uint n < 2 ^ 32 := by
    unfold uint
    omega
  unfold Fs.fileread
  rw [runs_bind, runs_look, runs_ite]
  refine ⟨fun _ => h, fun _ => ?_⟩
  cases htype : (s.file f).type with
  | none => exact L.benign _ nofun nofun
  | device => exact h
  | inode =>
    dsimp only
    rw [runs_bind, runs_onFs]
    have hpos : 0 < held s (s.file f).ip := held_of_file (by rw [htype]; nofun)
    have hhold := L.hold h.rest
    have hs : Sound sb s.fs := hhold.sound.outstanding s.fs.outstanding
    have href : 0 < (s.fs.ino (s.file f).ip).ref := hhold.ref_pos (.inr hpos)
    refine ilock_spec href (fun hv => ?_) (fun hf _ => L.typed h.rest (.inr hpos) ?_)
    · have ht := hs.type_of_valid href hv
      have hq := load_quiet hs href
      have hload : SysInv P { s with fs := s.fs.load (s.file f).ip } := by
        refine ⟨L.alike h.rest ?_ ⟨(load_sound hs href ht).outstanding 1, one_pos, fun k => ?_, nofun⟩, h.idle⟩
        · exact fun j => ⟨(hq.like j).type, (hq.like j).nlink, (hq.like j).size, (hq.like j).bytes⟩
        · change refs (s.fs.load (s.file f).ip) k = _
          rw [load_refs]
          exact hhold.refs k
      rw [runs_bind, runs_onFs]
      have hl := load_loaded hs href ht
      refine (readi_spec (load_sound hs href ht).good hl hn).safe ?_
      rintro r _ ⟨rfl, -⟩
      rw [runs_bind, runs_when]
      refine ⟨fun _ => ?_, fun _ => ?_⟩
      · rw [runs_alter, runs_bind, runs_onFs]
        exact iunlock_spec hl.ref (SysInv.setOff L hload _)
      · rw [runs_bind, runs_onFs]
        exact iunlock_spec hl.ref hload
    · rw [hhold.sound.node]
      exact hf

theorem SysInv.filewriteLoop {src : Src} {n fuel i : Nat} (h : SysInv P s) (ht : (s.file f).type = .inode)
    (hw : (s.file f).writable = true) :
    Runs (filewriteLoop sb f src n fuel i) s (fun _ t => SysInv P t) E := by
  induction fuel generalizing s i with
  | zero => exact h
  | succ fuel ih =>
    unfold Fs.filewriteLoop
    rw [runs_ite]
    refine ⟨fun hlt => ?_, fun _ => h⟩
    dsimp only
    generalize hn : (if n - i > maxWrite then maxWrite else n - i) = n1
    have hn1 : n1 < 2 ^ 32 := by
      have hmax : maxWrite = 3072 := rfl
      split at hn <;> omega
    rw [runs_bind, runs_look, runs_bind, runs_onFs, runs_beginOp, runs_bind, runs_onFs]
    have hpos : 0 < held s (s.file f).ip := held_of_file (by rw [ht]; rintro ⟨⟩)
    refine L.ilock (L.beginOp h.rest) (.inr hpos) (fun v _ hv => ?_)
    rw [runs_bind, runs_onFs]
    refine (L.hold hv).writei mem_cons_self hn1 (fun r w htouch htype hnlink hold => ?_)
    have hw' := L.file hv mem_cons_self (.inl ⟨f, ht, hw, rfl⟩) htouch htype hnlink hold
    have hend : SysInv P { s with fs := { w with outstanding := w.outstanding - 1 } } :=
      L.finish hw' rfl (fun _ hk => hk) (fun _ => rfl) h.idle
    rw [runs_bind, runs_when]
    refine ⟨fun _ => ?_, fun _ => ?_⟩
    · rw [runs_alter, runs_bind, runs_onFs]
      refine hold.iunlock (.inr hpos) ?_
      rw [runs_bind, runs_onFs, runs_endOp, runs_ite]
      have hset := SysInv.setOff (f := f) L hend ((s.file f).off + r.toNat)
      refine ⟨fun _ => hset, fun _ => ih hset ?_ ?_⟩
      · exact (congrArg File.type setFile_self).trans ht
      · exact (congrArg File.writable setFile_self).trans hw
    · rw [runs_bind, runs_onFs]
      refine hold.iunlock (.inr hpos) ?_
      rw [runs_bind, runs_onFs, runs_endOp, runs_ite]
      exact ⟨fun _ => hend, fun _ => ih hend ht hw⟩

theorem SysInv.filewrite {dev : Int} {src : Src} {n : Int} (h : SysInv P s) :
    Runs (filewrite sb dev f src n) s (fun _ t => SysInv P t) E := by
  unfold Fs.filewrite
  rw [runs_bind, runs_look, runs_ite]
  refine ⟨fun _ => h, fun hwr => ?_⟩
  cases htype : (s.file f).type with
  | none => exact L.benign _ nofun nofun
  | device => exact h
  | inode =>
    dsimp only
    rw [runs_bind]
    exact (SysInv.filewriteLoop L h htype (by simpa using hwr)).mono (fun _ _ ht => ht) (fun _ he => he)

theorem SysInv.fileclose (h : SysInv P s) :
    Runs (fileclose f) s (fun _ t => SysInv P t ∧ t.cwd = s.cwd) E := by
  unfold Fs.fileclose
  rw [runs_bind, runs_look, runs_ite]
  refine ⟨fun _ => L.benign _ nofun nofun, fun hpos => ?_⟩
  rw [runs_ite]
  constructor
  · intro hgt
    rw [runs_alter]
    generalize hx : ({ s.file f with ref := (s.file f).ref - 1 } : File) = x
    have ht : x.type = (s.file f).type := by rw [← hx]
    have hi : x.ip = (s.file f).ip := by rw [← hx]
    have hw : x.writable = (s.file f).writable := by rw [← hx]
    have hr : x.ref = (s.file f).ref - 1 := by rw [← hx]
    refine ⟨L.done (s := s.setFile f x) h.rest (fun k hk => written_same ht hi hw hk)
      (fun k => (held_same ht hi).symm) ?_, rfl⟩
    exact idle_setFile h.idle (fun h0 => by omega)
  · intro hle
    rw [runs_bind, runs_alter, runs_when]
    generalize hx : ({ s.file f with ref := 0, type := .none } : File) = x
    have hxt : x.type = .none := by rw [← hx]
    have hwr : ∀ k, written (s.setFile f x) k → written s k := by
      rintro k ⟨g, h1, h2, h3⟩
      have hg : g ≠ f := by
        rintro rfl
        rw [setFile_self, hxt] at h1
        cases h1
      rw [setFile_ne hg] at h1 h2 h3
      exact ⟨g, h1, h2, h3⟩
    have hidle := idle_setFile (f := f) (x := x) h.idle (fun _ => hxt)
    have hx0 : ∀ k, fileRef k x = 0 := fun k => if_neg (fun hc => hc.1 hxt)
    constructor
    · intro hopen
      have hne : (s.file f).type ≠ .none := by
        rintro hnone
        rw [hnone] at hopen
        exact absurd hopen (by simp)
      have hheld : ∀ j, held s j = held (s.setFile f x) j + if j = (s.file f).ip then 1 else 0 := by
        intro j
        have hsum := held_setFile (s := s) (f := f) (k := j) x
        have hold : fileRef j (s.file f) = if j = (s.file f).ip then 1 else 0 := by
          unfold fileRef
          by_cases hj : j = (s.file f).ip
          · rw [if_pos ⟨hne, hj.symm⟩, if_pos hj]
          · rw [if_neg (fun hc => hj hc.2.symm), if_neg hj]
        rw [hx0, hold] at hsum
        omega
      rw [runs_onFs, runs_bind, runs_beginOp, runs_bind]
      refine L.iput (L.take (L.beginOp h.rest) hheld) (fun w hw => ?_)
      rw [runs_endOp]
      exact ⟨L.finish hw rfl hwr (fun _ => rfl) hidle, rfl⟩
    · intro hshut
      have hnone : (s.file f).type = .none := by
        cases htype : (s.file f).type with
        | none => rfl
        | inode => exact absurd (.inl htype) hshut
        | device => exact absurd (.inr htype) hshut
      refine ⟨L.done h.rest hwr (fun k => ?_) hidle, rfl⟩
      have hsum := held_setFile (s := s) (f := f) (k := k) x
      have hold : fileRef k (s.file f) = 0 := if_neg (fun hc => hc.1 hnone)
      rw [hx0, hold] at hsum
      omega

omit L in
theorem filealloc_spec {Q : Option (Fin NFILE) → Sys → Prop} (hnone : Q none s)
    (hsome : ∀ f, (s.file f).ref = 0 → Q (some f) (s.setFile f { s.file f with ref := 1 })) : Runs filealloc s Q E := by
  unfold filealloc
  rw [runs_bind, runs_look]
  cases hf : (List.finRange NFILE).find? (fun f => (s.file f).ref == 0) with
  | none => exact hnone
  | some f => exact hsome f (by simpa using find?_some hf)

omit L in
theorem fdalloc_spec {Q : Option (Fin NOFILE) → Sys → Prop} (hnone : Q none s)
    (hsome : ∀ fd, Q (some fd) (s.setFd p fd (some f))) : Runs (fdalloc p f) s Q E := by
  unfold fdalloc
  rw [runs_bind, runs_look]
  cases (List.finRange NOFILE).find? (fun fd => (s.ofile p fd).isNone) with
  | none => exact hnone
  | some fd => exact hsome fd

omit L in
theorem fileclose_fresh {Q : Unit → Sys → Prop} (hr : (s.file f).ref = 1) (ht : (s.file f).type = .none)
    (hQ : Q () (s.setFile f { s.file f with ref := 0, type := .none })) : Runs (fileclose f) s Q E := by
  unfold fileclose
  rw [runs_bind, runs_look, if_neg (by omega), if_neg (by omega), runs_bind, runs_alter, runs_when]
  refine ⟨fun hopen => ?_, fun _ => hQ⟩
  rw [ht] at hopen
  exact absurd hopen (by simp)

theorem Layer.openFail (h : P wr (held s) [ip] ls s.fs) (hw : ∀ k, written s k → wr k)
    (hi : ∀ f, (s.file f).ref = 0 → (s.file f).type = .none) :
    Runs (openFail ip) s (fun _ t => SysInv P t) E := by
  unfold Fs.openFail
  rw [runs_onFs, runs_bind]
  refine L.iunlockput h (fun w h => ?_)
  rw [runs_bind, runs_endOp, runs_pure]
  exact L.finish h rfl hw (fun _ => rfl) hi

theorem Layer.openEnd (h : P wr base [ip] [ip] v) :
    Runs (do
      when (omode &&& O_TRUNC ≠ 0 ∧ (v.ino ip).copy.type = .file) (itrunc ip)
      iunlock ip
      Fs.endOp : M Unit) v (fun _ t => ∃ w, t = { w with outstanding := w.outstanding - 1 } ∧ P wr base [ip] [ip] w) E := by
  have hhold := L.hold h
  have hl := hhold.loaded mem_cons_self
  rw [runs_bind, runs_when]
  constructor
  · rintro ⟨-, hfile⟩
    refine (itrunc_spec hhold.sound.good hl hhold.outstanding).safe ?_
    intro _ w hw
    have htouch := hw.touch hhold.sound hl
    have hlw := htouch.loaded ip hl
    obtain ⟨g, hg⟩ := hw.copy
    have hnode : w.node ip = (w.ino ip).copy := hlw.node
    have hw' := L.file h mem_cons_self (.inr (by rw [hl.node]; exact hfile)) htouch (by rw [hnode, hl.node, hg])
      (by rw [hnode, hl.node, hg]) (hhold.touch htouch)
    rw [runs_bind]
    refine (hhold.touch htouch).iunlock (.inl mem_cons_self) ?_
    rw [runs_endOp]
    exact ⟨w, rfl, hw'⟩
  · intro _
    rw [runs_bind]
    refine hhold.iunlock (.inl mem_cons_self) ?_
    rw [runs_endOp]
    exact ⟨v, rfl, h⟩

theorem Layer.openUndo (h : P wr (held s) [ip] ls s.fs) (hw : ∀ k, written s k → wr k)
    (hi : ∀ f, (s.file f).ref = 0 → (s.file f).type = .none) (hf : (s.file f).ref = 0) (hx : x.ref = 1)
    (ht : x.type = .none) :
    Runs (do
      fileclose f
      Fs.openFail ip) (s.setFile f x) (fun _ t => SysInv P t) E := by
  rw [runs_bind]
  refine fileclose_fresh (by rw [setFile_self, hx]) (by rw [setFile_self, ht]) ?_
  rw [setFile_self]
  generalize hy : ({ x with ref := 0, type := .none } : File) = y
  have hyt : y.type = .none := by rw [← hy]
  have hset : (s.setFile f x).setFile f y = s.setFile f y := by
    unfold Sys.setFile
    rw [update_idem]
  rw [hset]
  have hheld : held (s.setFile f y) = held s := by
    funext k
    have hsum := held_setFile (s := s) (f := f) (k := k) y
    have hs0 : fileRef k (s.file f) = 0 := if_neg (fun hc => hc.1 (hi f hf))
    have hy0 : fileRef k y = 0 := if_neg (fun hc => hc.1 hyt)
    omega
  rw [← hheld] at h
  refine L.openFail h (fun k hk => hw k ?_) (idle_setFile hi (fun _ => hyt))
  obtain ⟨g, h1, h2, h3⟩ := hk
  have hg : g ≠ f := by
    rintro rfl
    rw [setFile_self, hyt] at h1
    cases h1
  rw [setFile_ne hg] at h1 h2 h3
  exact ⟨g, h1, h2, h3⟩

theorem Layer.openDone (h : P wr (held s) [ip] ls v) (hw : ∀ k, written s k → wr k)
    (hi : ∀ f, (s.file f).ref = 0 → (s.file f).type = .none) (hf : (s.file f).ref = 0) (hx : x.ref = 1)
    (ht : x.type ≠ .none) (hxi : x.ip = ip) (hxw : x.writable = true → wr ip) :
    SysInv P { (s.setFile f x).setFd p fd (some f) with fs := { v with outstanding := v.outstanding - 1 } } := by
  have hheld : ∀ j, held (s.setFile f x) j = held s j + if j = ip then 1 else 0 := by
    intro j
    have hsum := held_setFile (s := s) (f := f) (k := j) x
    have hs0 : fileRef j (s.file f) = 0 := if_neg (fun hc => hc.1 (hi f hf))
    have hx1 : fileRef j x = if j = ip then 1 else 0 := by
      unfold fileRef
      rw [hxi]
      by_cases hj : j = ip
      · rw [if_pos ⟨ht, hj.symm⟩, if_pos hj]
      · rw [if_neg (fun hc => hj hc.2.symm), if_neg hj]
    rw [hs0, hx1, add_zero] at hsum
    exact hsum
  have hwr : ∀ k, written (s.setFile f x) k → wr k := by
    rintro k ⟨g, h1, h2, h3⟩
    by_cases hg : g = f
    · subst hg
      rw [setFile_self] at h2 h3
      rw [← h3, hxi]
      exact hxw h2
    · rw [setFile_ne hg] at h1 h2 h3
      exact hw k ⟨g, h1, h2, h3⟩
  have hidle := idle_setFile (f := f) (x := x) hi (fun hc => absurd (hx.symm.trans hc) Nat.one_ne_zero)
  exact L.finish (L.give h hheld) rfl hwr (fun _ => rfl) hidle

theorem Layer.openFile (h : P wr (held s) [ip] [ip] s.fs) (hw : ∀ k, written s k → wr k)
    (hip : omode &&& O_WRONLY ≠ 0 ∨ omode &&& O_RDWR ≠ 0 → wr ip)
    (hi : ∀ f, (s.file f).ref = 0 → (s.file f).type = .none) :
    Runs (openFile p ip omode) s (fun _ t => SysInv P t) E := by
  unfold Fs.openFile
  rw [runs_bind, runs_look]
  dsimp only
  rw [runs_ite]
  refine ⟨fun _ => L.openFail h hw hi, fun _ => ?_⟩
  rw [runs_bind]
  refine filealloc_spec (L.openFail h hw hi) (fun f hf => ?_)
  dsimp only
  rw [runs_bind]
  refine fdalloc_spec (L.openUndo h hw hi hf rfl (hi f hf)) (fun fd => ?_)
  dsimp only
  rw [runs_bind, runs_alter, runs_bind, runs_onFs]
  refine Runs.mono (L.openEnd h) ?_ (fun _ he => he)
  rintro _ _ ⟨w, rfl, hwf⟩
  rw [runs_pure]
  have hset : ∀ x, ((s.setFile f { s.file f with ref := 1 }).setFd p fd (some f)).setFile f x =
      (s.setFile f x).setFd p fd (some f) := by
    intro x
    unfold Sys.setFile Sys.setFd
    dsimp only
    rw [update_idem]
  rw [hset]
  refine L.openDone hwf hw hi hf (congrArg File.ref setFile_self) ?_ rfl (fun hwx => hip (of_decide_eq_true hwx))
  dsimp only
  split <;> nofun

theorem SysInv.sysOpen (h : SysInv P s) (hcwd : 0 < held s cwd) :
    Runs (sysOpen sb p cwd path omode) s (fun _ t => SysInv P t) E := by
  unfold Fs.sysOpen
  rw [runs_bind, runs_onFs, runs_beginOp, runs_ite]
  constructor
  · intro _
    rw [runs_bind, runs_onFs]
    refine L.create (L.beginOp h.rest) hcwd (fun t ht => ?_) (fun ip t ht => ?_)
    · dsimp only
      rw [runs_bind, runs_onFs, runs_endOp]
      exact L.finish ht rfl (fun _ hk => hk) (fun _ => rfl) h.idle
    · exact L.openFile (s := { s with fs := t }) ht (fun _ hk => .inl hk) (fun _ => .inr rfl) h.idle
  · intro _
    rw [runs_bind, runs_onFs]
    refine L.namei (L.beginOp h.rest) (fun _ => written_held) hcwd (fun t ht => ?_) (fun ip t ht => ?_)
    · dsimp only
      rw [runs_bind, runs_onFs, runs_endOp]
      exact L.finish ht rfl (fun _ hk => hk) (fun _ => rfl) h.idle
    · dsimp only
      rw [runs_bind, runs_onFs]
      refine L.ilock ht (.inl mem_cons_self) (fun v _ hv => ?_)
      rw [runs_bind, runs_look, runs_ite]
      refine ⟨fun _ => L.openFail (s := { s with fs := v }) hv (fun _ hk => hk) h.idle, fun hmode => ?_⟩
      have hl := (L.hold hv).loaded mem_cons_self
      by_cases hdir : (v.node ip).type = .dir
      · -- A directory is opened for reading only.
        have hro : omode = O_RDONLY := by
          by_contra hne
          exact hmode ⟨hl.node ▸ hdir, hne⟩
        refine L.openFile (s := { s with fs := v }) hv (fun _ hk => hk) (fun hwrite => ?_) h.idle
        rw [hro] at hwrite
        exact absurd hwrite (by decide)
      · exact L.openFile (s := { s with fs := v }) (L.grant hv mem_cons_self hdir) (fun _ hk => .inl hk)
          (fun _ => .inr rfl) h.idle

theorem SysInv.sysClose (h : SysInv P s) : Runs (sysClose p fd) s (fun _ t => SysInv P t) E := by
  unfold Fs.sysClose
  rw [runs_bind, runs_look]
  cases s.ofile p fd with
  | none => exact h
  | some f =>
    dsimp only
    rw [runs_bind, runs_alter, runs_bind]
    exact (SysInv.fileclose L (h.setFd none)).mono (fun _ t ht => ht.1) (fun _ he => he)

theorem SysInv.sysChdir (h : SysInv P s) (hcwd : s.cwd p = some cwd) :
    Runs (sysChdir sb p cwd path) s (fun _ t => SysInv P t) E := by
  have hpos := held_of_cwd hcwd
  unfold Fs.sysChdir
  rw [runs_bind, runs_onFs, runs_beginOp, runs_bind, runs_onFs]
  refine L.namei (L.beginOp h.rest) (fun _ => written_held) hpos (fun t ht => ?_) (fun ip t ht => ?_)
  · dsimp only
    rw [runs_bind, runs_onFs, runs_endOp]
    exact L.finish ht rfl (fun _ hk => hk) (fun _ => rfl) h.idle
  · dsimp only
    rw [runs_bind, runs_onFs]
    refine L.ilock ht (.inl mem_cons_self) (fun v hq hv => ?_)
    rw [runs_bind, runs_look, runs_ite]
    refine ⟨fun _ => L.openFail (s := { s with fs := v }) hv (fun _ hk => hk) h.idle, fun _ => ?_⟩
    rw [runs_bind, runs_onFs, runs_bind]
    refine (L.hold hv).iunlock (.inl mem_cons_self) ?_
    -- The old directory's reference goes, the new one's stays.
    generalize hx : (fun j => held s j - if j = cwd then 1 else 0) = rest
    have hrest : ∀ j, held s j = rest j + if j = cwd then 1 else 0 := by
      intro j
      rw [← hx]
      by_cases hj : j = cwd
      · subst hj
        simp only [if_pos]
        omega
      · simp only [if_neg hj]
        omega
    have hunlock : P (written s) (held s) [ip] [] v :=
      L.alike hv (fun j => Like.refl v j) ((L.hold hv).mono [] nofun)
    rw [runs_bind]
    refine L.iput (L.take hunlock hrest) (fun w hw => ?_)
    rw [runs_endOp, runs_bind, runs_alter, runs_pure]
    have hheld : ∀ j, held { s with cwd := update s.cwd p (some ip) } j = rest j + if j = ip then 1 else 0 := by
      intro j
      have hsum := held_setCwd (s := s) (p := p) (k := j) (some ip)
      have hold : cwdRef j (s.cwd p) = if j = cwd then 1 else 0 := by
        rw [hcwd, cwdRef]
        simp only [some.injEq, eq_comm]
      have hnew : cwdRef j (some ip) = if j = ip then 1 else 0 := by
        rw [cwdRef]
        simp only [some.injEq, eq_comm]
      rw [hold, hnew, hrest j] at hsum
      omega
    exact L.finish (L.give hw hheld) rfl (fun _ hk => hk) (fun _ => rfl) h.idle

theorem SysInv.closeFd (h : SysInv P s) (n : Nat) :
    Runs (closeFd p n) s (fun _ t => SysInv P t ∧ t.cwd = s.cwd) E := by
  unfold Fs.closeFd
  split
  · rename_i hn
    rw [runs_bind, runs_look]
    cases s.ofile p ⟨n, hn⟩ with
    | none => exact ⟨h, rfl⟩
    | some f =>
      dsimp only
      rw [runs_bind]
      refine (SysInv.fileclose L h).mono ?_ (fun _ he => he)
      rintro _ t ⟨ht, hc⟩
      exact ⟨ht.setFd none, hc⟩
  · exact ⟨h, rfl⟩

theorem SysInv.exit (h : SysInv P s) (hcwd : s.cwd p = some cwd) :
    Runs (exit p cwd) s (fun _ t => SysInv P t) E := by
  unfold Fs.exit
  rw [runs_bind]
  refine Runs.mono (Runs.each (fun _ t => SysInv P t ∧ t.cwd = s.cwd) ⟨h, rfl⟩ ?_) ?_ (fun _ he => he)
  · rintro n - t ⟨ht, hc⟩
    refine (SysInv.closeFd L ht n).mono ?_ (fun _ he => he)
    exact fun _ u hu => ⟨hu.1, hu.2.trans hc⟩
  · rintro _ t ⟨ht, hc⟩
    have hcwd : t.cwd p = some cwd := by rw [hc, hcwd]
    have hheld : ∀ j, held t j = held { t with cwd := update t.cwd p none } j + if j = cwd then 1 else 0 := by
      intro j
      have hsum := held_setCwd (s := t) (p := p) (k := j) none
      have hold : cwdRef j (t.cwd p) = if j = cwd then 1 else 0 := by
        rw [hcwd, cwdRef]
        simp only [some.injEq, eq_comm]
      have hnew : cwdRef j none = 0 := if_neg nofun
      rw [hold, hnew] at hsum
      omega
    rw [runs_bind, runs_onFs, runs_bind, runs_beginOp, runs_bind]
    refine L.iput (L.take (L.beginOp ht.rest) hheld) (fun w hw => ?_)
    rw [runs_endOp, runs_bind, runs_alter, runs_pure]
    exact L.finish hw rfl (fun _ hk => hk) (fun _ => rfl) ht.idle

theorem SysInv.call {R : Sys → Prop} (h : SysInv P s) (hcwd : s.cwd p = some cwd) (hR : ∀ t, SysInv P t → R t)
    (hlink : ∀ old new, Runs (onFs (sysLink sb cwd old new)) s (fun _ t => R t) E)
    (hunlink : ∀ path, Runs (onFs (sysUnlink sb cwd path)) s (fun _ t => R t) E)
    (hmake : ∀ path type major minor, type ≠ .free →
      Runs (onFs (sysMake sb cwd path type major minor)) s (fun _ t => R t) E) (c : Call) :
    Runs (Fs.call sb p cwd c) s (fun _ t => R t) E := by
  have hpos := held_of_cwd hcwd
  have hsys : ∀ {x : C Int}, Runs x s (fun _ t => SysInv P t) E → Runs x s (fun _ t => R t) E :=
    fun hx => hx.mono (fun _ t ht => hR t ht) (fun _ he => he)
  cases c with
  | «open» path omode => exact hsys (SysInv.sysOpen L h hpos)
  | read fd dst n dev =>
    refine hsys ?_
    rw [Fs.call, runs_bind, runs_look]
    cases s.ofile p fd with
    | none => exact h
    | some f =>
      dsimp only
      rw [runs_bind]
      exact (SysInv.fileread L h).mono (fun _ _ ht => ht) (fun _ he => he)
  | write fd src n dev =>
    refine hsys ?_
    rw [Fs.call, runs_bind, runs_look]
    cases s.ofile p fd with
    | none => exact h
    | some f => exact SysInv.filewrite L h
  | close fd => exact hsys (SysInv.sysClose L h)
  | link old new => exact hlink old new
  | unlink path => exact hunlink path
  | mkdir path => exact hmake path .dir 0 0 nofun
  | mknod path major minor => exact hmake path .device (short major) (short minor) nofun
  | chdir path => exact hsys (SysInv.sysChdir L h hcwd)
  | exit => exact hsys (SysInv.exit L h hcwd)

end Files

section Steps

variable {sb : Super} {s t : Sys} {a : Fin NPROC × Call}

theorem call_of_step (h : step sb s a = some t) :
    ∃ cwd r, s.cwd a.1 = some cwd ∧ call sb a.1 cwd a.2 s = .ok (r, t) := by
  unfold step at h
  split at h
  · cases h
  · rename_i cwd hcwd
    split at h
    · rename_i r u hcall
      exact ⟨cwd, r, hcwd, some.inj h ▸ hcall⟩
    · cases h

theorem call_of_panics {e : Panic} (h : panics sb s a = some e) :
    ∃ cwd, s.cwd a.1 = some cwd ∧ call sb a.1 cwd a.2 s = .error e := by
  unfold panics at h
  split at h
  · cases h
  · rename_i cwd hcwd
    split at h
    · cases h
    · rename_i hcall
      exact ⟨cwd, hcwd, some.inj h ▸ hcall⟩

end Steps

end Xv6Rcu.Fs

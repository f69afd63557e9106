import Xv6Rcu.FsEntries

namespace Xv6Rcu.Fs

open Exec Function List

variable {sb : Super} {base : Nat → Nat} {rs rs' ls : List Nat} {s t u : State} {k j dp i n : Nat}
  {name : List Byte} {E : Panic → Prop}

section Assertion

/-- A system call in a transaction that has the references `rs` and has locked
the inodes `ls`; `base` counts the references of working directories and open
files. -/
structure Hold (sb : Super) (base : Nat → Nat) (rs ls : List Nat) (s : State) : Prop where
  sound : Sound sb s
  outstanding : 0 < s.outstanding
  refs : ∀ k, refs s k = base k + rs.count k
  locked : ∀ k ∈ ls, (k ∈ rs ∨ 0 < base k) ∧ Loaded s k

/-- Panics that do not concern the accounts of blocks or freed inodes. -/
def Benign (E : Panic → Prop) : Prop := ∀ e, e ≠ .freeingFree → e ≠ .noType → E e

def Alike (s t : State) : Prop := ∀ j, Like s t j

theorem Alike.trans (h : Alike s t) (h' : Alike t u) : Alike s u := fun j => (h j).trans (h' j)

theorem Quiet.alike (h : Quiet s t) : Alike s t := h.like

theorem Hold.ref_pos (h : Hold sb base rs ls s) (hk : k ∈ rs ∨ 0 < base k) : 0 < (s.ino k).ref := by
  have hr : (s.ino k).ref = base k + rs.count k := h.refs k
  rcases hk with hk | hk
  · have := count_pos_iff.mpr hk
    omega
  · omega

theorem Hold.loaded (h : Hold sb base rs ls s) (hk : k ∈ ls) : Loaded s k := (h.locked k hk).2

theorem Hold.mono (h : Hold sb base rs ls s) (ls' : List Nat) (hls : ∀ k ∈ ls', k ∈ ls) : Hold sb base rs ls' s :=
  ⟨h.sound, h.outstanding, h.refs, fun k hk => h.locked k (hls k hk)⟩

end Assertion

section References

section

variable (h : Hold sb base rs ls s)

include h

theorem Hold.got : Hold sb base (k :: rs) ls (s.got k) where
  sound := got_sound h.sound
  outstanding := by
    rw [got_quiet.outstanding]
    exact h.outstanding
  refs := by
    intro j
    rw [got_refs]
    by_cases hj : j = k
    · rw [hj, update_self, count_cons_self, h.refs k]
      omega
    · rw [update_of_ne hj, count_cons_of_ne (Ne.symm hj), h.refs j]
  locked := by
    intro j hj
    obtain ⟨hr, hl⟩ := h.locked j hj
    exact ⟨hr.imp_left (mem_cons_of_mem k), got_loaded hl⟩

theorem Hold.iget {Q : Unit → State → Prop} (hE : Benign E)
    (hQ : ∀ t, Quiet s t → Hold sb base (k :: rs) ls t → Q () t) : Runs (iget k) s Q E :=
  iget_spec (hQ _ got_quiet h.got) (hE _ nofun nofun)

theorem Hold.idup {Q : Unit → State → Prop} (hk : 0 < base k)
    (hQ : ∀ t, Quiet s t → Hold sb base (k :: rs) ls t → Q () t) : Runs (idup k) s Q E := by
  have href : (s.ino k).ref = base k + rs.count k := h.refs k
  exact idup_spec (by omega) (hQ _ got_quiet h.got)

theorem Hold.ilock {Q : Unit → State → Prop} (hk : k ∈ rs ∨ 0 < base k)
    (hfree : (s.node k).type = .free → E .noType)
    (hQ : ∀ t, Quiet s t → (s.node k).type ≠ .free → Hold sb base rs (k :: ls) t → Q () t) :
    Runs (ilock k) s Q E := by
  have hr := h.ref_pos hk
  have hnode := h.sound.node k
  refine ilock_spec hr (fun hv => ?_) (fun hf _ => hfree (hnode ▸ hf))
  have ht := h.sound.type_of_valid hr hv
  have hq := load_quiet h.sound hr
  refine hQ _ hq (hnode ▸ ht) ⟨load_sound h.sound hr ht, ?_, fun j => ?_, fun j hj => ?_⟩
  · rw [hq.outstanding]
    exact h.outstanding
  · rw [load_refs]
    exact h.refs j
  · rcases mem_cons.mp hj with rfl | hj
    · exact ⟨hk, load_loaded h.sound hr ht⟩
    · exact ⟨(h.locked j hj).1, load_loaded_of (h.locked j hj).2⟩

theorem Hold.iunlock {Q : Unit → State → Prop} (hk : k ∈ rs ∨ 0 < base k) (hQ : Q () s) :
    Runs (iunlock k) s Q E := iunlock_spec (h.ref_pos hk) hQ

theorem Hold.put {ls' : List Nat} (hp : rs.Perm (k :: rs')) (hls : ∀ j ∈ ls', j ∈ ls ∧ (j ∈ rs' ∨ 0 < base j))
    (ht : Put sb k s t) : Hold sb base rs' ls' t where
  sound := ht.sound
  outstanding := ht.outstanding ▸ h.outstanding
  refs := by
    intro j
    have hj := h.refs j
    rw [hp.count_eq] at hj
    rw [ht.refs]
    by_cases hjk : j = k
    · subst hjk
      rw [count_cons_self] at hj
      rw [update_self]
      omega
    · rw [count_cons_of_ne (Ne.symm hjk)] at hj
      rw [update_of_ne hjk, hj]
  locked := by
    intro j hj
    obtain ⟨hjl, hjr⟩ := hls j hj
    refine ⟨hjr, ht.loaded j (h.loaded hjl) (fun hjk => ?_)⟩
    have hk := h.refs k
    rw [hp.count_eq, count_cons_self] at hk
    rcases hjr with hjr | hjr
    · have := count_pos_iff.mpr (hjk ▸ hjr)
      omega
    · rw [hjk] at hjr
      omega

end

theorem Hold.iput {Q : Unit → State → Prop} (h : Hold sb base rs ls s) (ls' : List Nat) (hp : rs.Perm (k :: rs'))
    (hls : ∀ j ∈ ls', j ∈ ls ∧ (j ∈ rs' ∨ 0 < base j)) (hQ : ∀ t, Put sb k s t → Hold sb base rs' ls' t → Q () t) :
    Runs (iput k) s Q E := by
  refine (iput_spec h.sound h.outstanding).safe ?_
  exact fun _ t ht => hQ t ht (h.put hp hls ht)

theorem Hold.iunlockput {Q : Unit → State → Prop} (h : Hold sb base rs ls s) (ls' : List Nat) (hp : rs.Perm (k :: rs'))
    (hls : ∀ j ∈ ls', j ∈ ls ∧ (j ∈ rs' ∨ 0 < base j)) (hQ : ∀ t, Put sb k s t → Hold sb base rs' ls' t → Q () t) :
    Runs (iunlockput k) s Q E := by
  rw [Fs.iunlockput, runs_bind]
  exact iunlock_spec (h.ref_pos (.inl (hp.symm.subset mem_cons_self))) (h.iput ls' hp hls hQ)

theorem Put.alike (h : Put sb k s t) (hn : (s.node k).nlink ≠ 0 ∨ 2 ≤ Fs.refs s k) : Alike s t := by
  intro j
  by_cases hj : j = k
  · subst hj
    rcases h.ends with ⟨hl, -⟩ | ⟨-, h1, h0, -⟩
    · exact hl
    · rcases hn with hn | hn
      · exact absurd h0 hn
      · omega
  · exact h.like j hj

theorem Hold.got_put (h : Put sb k (s.got k) t) : Alike s t := by
  refine (got_quiet (k := k)).alike.trans (fun j => ?_)
  by_cases hj : j = k
  · subst hj
    rcases h.ends with ⟨hl, -⟩ | ⟨hl, h1, -, -⟩
    · exact hl
    · have href := got_ref (s := s) (k := j)
      have := (got_valid hl.valid).1
      have h1 : ((s.got j).ino j).ref = 1 := h1
      omega
  · exact h.like j hj

theorem Hold.touch (h : Hold sb base rs ls s) (ht : Touch sb k s t) : Hold sb base rs ls t where
  sound := ht.sound
  outstanding := ht.outstanding ▸ h.outstanding
  refs := by
    rw [ht.refs]
    exact h.refs
  locked := fun j hj => ⟨(h.locked j hj).1, ht.loaded j (h.locked j hj).2⟩

theorem Hold.setMeta {Q : Unit → State → Prop} {g : Dinode → Dinode} (h : Hold sb base rs ls s) (hk : k ∈ ls)
    (ht : ∀ d, (g d).type = d.type) (hz : ∀ d, (g d).size = d.size) (ha : ∀ d, (g d).addrs = d.addrs)
    (hQ : ∀ t, Touch sb k s t → t.node k = g (s.node k) → (∀ i, fileByte t k i = fileByte s k i) →
      Hold sb base rs ls t → Q () t) : Runs (setMeta k g) s Q E := by
  refine (setMeta_spec h.sound (h.loaded hk) h.outstanding ht hz ha).safe ?_
  rintro _ t ⟨htouch, hnode, hbytes⟩
  exact hQ t htouch hnode hbytes (h.touch htouch)

theorem Hold.writei {Q : Int → State → Prop} {src : Src} {off : Nat} (h : Hold sb base rs ls s) (hk : k ∈ ls)
    (hn : n < 2 ^ 32)
    (hQ : ∀ r t, Touch sb k s t → (t.node k).type = (s.node k).type → (t.node k).nlink = (s.node k).nlink →
      Hold sb base rs ls t → Q r t) : Runs (writei sb k src off n) s Q E := by
  have hl := h.loaded hk
  refine (writei_spec h.sound.good hl h.outstanding hn).safe ?_
  rintro r t (⟨-, rfl, -⟩ | ⟨tot, l, -, hw⟩)
  · exact hQ r t (Touch.refl h.sound) rfl rfl h
  · have htouch := hw.touch h.sound hl
    have hlt := htouch.loaded k hl
    obtain ⟨g, hg⟩ := hw.copy
    refine hQ r t htouch ?_ ?_ (h.touch htouch)
    · rw [hlt.node, hl.node, hg]
    · rw [hlt.node, hl.node, hg]

theorem Hold.ialloc {Q : Nat → State → Prop} {type : Kind} (h : Hold sb base rs ls s) (hE : Benign E) (h0 : Q 0 s)
    (hQ : ∀ k t, k ≠ 0 → Alloc sb type k s t → Hold sb base (k :: rs) ls t → Q k t) :
    Runs (ialloc sb type) s Q E := by
  refine (ialloc_spec h.sound h.outstanding).mono ?_ (fun e he => he ▸ hE _ nofun nofun)
  rintro k t (⟨rfl, rfl⟩ | ha)
  · exact h0
  · have hk : k ≠ 0 := by
      have := ha.pos
      omega
    refine hQ k t hk ha ⟨ha.sound, ha.outstanding ▸ h.outstanding, fun j => ?_, fun j hj => ?_⟩
    · rw [ha.refs]
      by_cases hj : j = k
      · rw [hj, update_self, count_cons_self, h.refs k]
        omega
      · rw [update_of_ne hj, count_cons_of_ne (Ne.symm hj), h.refs j]
    · exact ⟨(h.locked j hj).1.imp_left (mem_cons_of_mem k), ha.loaded j (h.locked j hj).2⟩

end References

section Directories

def Whole16 (s : State) (dp : Nat) : Prop := DESIZE ∣ (s.node dp).size

structure Allows (E : Panic → Prop) (s : State) (dp : Nat) : Prop where
  table : E .noInodes
  type : (s.node dp).type ≠ .dir → E .dirlookupNotDir
  lookup : ¬ Whole16 s dp → E .dirlookupRead
  link : ¬ Whole16 s dp → E .dirlinkRead

theorem Benign.allows (hE : Benign E) (s : State) (dp : Nat) : Allows E s dp :=
  ⟨hE _ nofun nofun, fun _ => hE _ nofun nofun, fun _ => hE _ nofun nofun, fun _ => hE _ nofun nofun⟩

def Names (s : State) (dp : Nat) (name : List Byte) (j : Nat) (inum : Nat) : Prop :=
  inum ≠ 0 ∧ ∃ de, (entries s dp)[j]? = some de ∧ de.inum = inum ∧ cut de.name = cut name

theorem Hold.dirlookup {Q : Option (Nat × Nat) → State → Prop} (h : Hold sb base rs ls s) (hd : dp ∈ ls)
    (hE : Allows E s dp)
    (hnone : (s.node dp).type = .dir → (Whole16 s dp → ∀ j inum, ¬ Names s dp name j inum) → Q none s)
    (hsome : ∀ ip j off, (s.node dp).type = .dir → (Whole16 s dp → off = DESIZE * j ∧ Names s dp name j ip) →
      Hold sb base (ip :: rs) ls (s.got ip) → Q (some (ip, off)) (s.got ip)) :
    Runs (dirlookup sb dp name) s Q E := by
  have hl := h.loaded hd
  unfold Fs.dirlookup
  rw [runs_bind, runs_look, runs_ite]
  refine ⟨fun hdir => hE.type (by rw [hl.node]; exact hdir), fun hdir => ?_⟩
  have hdir : (s.node dp).type = .dir := by
    rw [hl.node]
    simpa using hdir
  rw [runs_bind]
  have hscan := scan_spec (i := 0) (p := fun de => de.inum != 0 && namecmp name de.name == 0) (e := .dirlookupRead)
    ((s.ino dp).copy.size + 1) h.sound.good hl (by unfold DESIZE DIRSIZ; omega)
  rw [Nat.mul_zero] at hscan
  rw [← hl.node] at hscan ⊢
  refine hscan.mono ?_ (fun e he => he.1 ▸ hE.lookup he.2)
  rintro r _ ⟨rfl, hfound⟩
  match r with
  | none =>
    refine hnone hdir (fun hdvd j inum hn => ?_)
    obtain ⟨h0, de, hj, rfl, hcut⟩ := hn
    have hp := hfound hdvd j de (Nat.zero_le j) hj
    have hcmp : namecmp name de.name = 0 := namecmp_eq_zero.mpr hcut.symm
    simp [hcmp, h0] at hp
  | some (off, de) =>
    dsimp only
    rw [runs_bind]
    refine iget_spec ?_ hE.table
    refine hsome de.inum (off / DESIZE) off hdir (fun hdvd => ?_) h.got
    obtain ⟨j, -, hoff, hj, hp⟩ := hfound hdvd
    have hp : de.inum ≠ 0 ∧ namecmp name de.name = 0 := by simpa using hp
    have hj' : off / DESIZE = j := by rw [hoff, Nat.mul_div_cancel_left j DESIZE_pos]
    rw [hj']
    exact ⟨hoff, hp.1, de, hj, rfl, (namecmp_eq_zero.mp hp.2).symm⟩

/-- What `dirlink` does to the directory: it has an entry for the name already,
or there is no room for it and nothing changes, or a free slot is used. -/
structure Linked (sb : Super) (dp : Nat) (name : List Byte) (inum : Nat) (s : State) (r : Int) (t : State) : Prop where
  dir : (s.node dp).type = .dir
  like : ∀ j, j ≠ dp → Like s t j
  type : (t.node dp).type = (s.node dp).type
  nlink : (t.node dp).nlink = (s.node dp).nlink
  result : r = 0 ∧ (Whole16 s dp → Whole16 t dp ∧ (∀ j inum, ¬ Names s dp name j inum) ∧
      ∃ i, i ≤ (entries s dp).length ∧ (∀ de, (entries s dp)[i]? = some de → de.inum = 0) ∧
        entries t dp = place (entries s dp) i (decode (encode ⟨inum, strncpy DIRSIZ name⟩))) ∨
    r = -1 ∧ (Whole16 s dp → Like s t dp)

theorem encode_length (inum : Nat) (name : List Byte) : (encode ⟨inum, strncpy DIRSIZ name⟩).length = DESIZE := by
  simp [encode, strncpy_length, DESIZE]

theorem Hold.linkAt {Q : Int → State → Prop} {inum off : Nat} (h : Hold sb base rs ls s) (hd : dp ∈ ls)
    (hdir : (s.node dp).type = .dir) (hnone : Whole16 s dp → ∀ j inum, ¬ Names s dp name j inum)
    (hslot : Whole16 s dp → ∃ i, off = DESIZE * i ∧ i ≤ (entries s dp).length ∧
      ∀ de, (entries s dp)[i]? = some de → de.inum = 0)
    (hQ : ∀ r t, Linked sb dp name inum s r t → Hold sb base rs ls t → Q r t) :
    Runs (do
      let n ← Fs.writei sb dp (.kernel (encode ⟨inum, strncpy DIRSIZ name⟩)) off DESIZE
      pure (if n = DESIZE then 0 else -1) : M Int) s Q E := by
  have hl := h.loaded hd
  by_cases hdvd : Whole16 s dp
  · obtain ⟨i, rfl, hi, hfree⟩ := hslot hdvd
    rw [runs_bind]
    refine (writeEntry_spec h.sound hl h.outstanding (encode_length inum name)).safe ?_
    rintro r t ⟨htouch, htype, hnlink, ⟨rfl, hstart, hsize, hbytes⟩ | ⟨hr, hlike⟩⟩
    · obtain ⟨hdvd', -, hplace⟩ := entries_place (encode_length inum name) hdvd hstart hsize hbytes
      rw [if_pos rfl]
      exact hQ 0 t ⟨hdir, htouch.like, htype, hnlink, .inl ⟨rfl, fun _ => ⟨hdvd', hnone hdvd, i, hi, hfree, hplace⟩⟩⟩
        (h.touch htouch)
    · rw [if_neg hr]
      exact hQ (-1) t ⟨hdir, htouch.like, htype, hnlink, .inr ⟨rfl, fun _ => hlike⟩⟩ (h.touch htouch)
  · rw [runs_bind]
    refine h.writei hd (by decide) (fun r t htouch htype hnlink hold => ?_)
    refine hQ _ t ⟨hdir, htouch.like, htype, hnlink, ?_⟩ hold
    split
    · exact .inl ⟨rfl, fun hd => absurd hd hdvd⟩
    · exact .inr ⟨rfl, fun hd => absurd hd hdvd⟩

theorem Hold.dirlink {Q : Int → State → Prop} {inum : Nat} (h : Hold sb base rs ls s) (hd : dp ∈ ls)
    (hE : Allows E s dp)
    (hQ : ∀ r t, Linked sb dp name inum s r t → Hold sb base rs ls t → Q r t) :
    Runs (dirlink sb dp name inum) s Q E := by
  have hl := h.loaded hd
  unfold Fs.dirlink
  rw [runs_bind]
  refine h.dirlookup hd hE (fun hdir hnone => ?_) (fun ip j off hdir _ hgot => ?_)
  · dsimp only
    rw [runs_bind, runs_look, runs_bind]
    have hscan := scan_spec (i := 0) (p := fun de => de.inum == 0) (e := .dirlinkRead)
      ((s.ino dp).copy.size + 1) h.sound.good hl (by unfold DESIZE DIRSIZ; omega)
    rw [Nat.mul_zero] at hscan
    rw [← hl.node] at hscan ⊢
    refine hscan.mono ?_ (fun e he => he.1 ▸ hE.link he.2)
    rintro free u ⟨rfl, hfound⟩
    refine h.linkAt hd hdir hnone (fun hdvd => ?_) hQ
    have hfound := hfound hdvd
    cases free with
    | none =>
      refine ⟨(u.node dp).size / DESIZE, ?_, Nat.le_of_eq entries_length.symm, fun de hde => ?_⟩
      · rw [Nat.mul_div_cancel' hdvd]
      · rw [getElem?_eq_none (Nat.le_of_eq entries_length)] at hde
        cases hde
    | some x =>
      obtain ⟨i, -, hoff, hi, hp⟩ := hfound
      refine ⟨i, hoff, le_of_lt (List.getElem?_eq_some_iff.mp hi).1, fun de hde => ?_⟩
      rw [hi, Option.some.injEq] at hde
      rw [← hde]
      simpa using hp
  · dsimp only
    rw [runs_bind]
    refine hgot.iput ls .rfl (fun j hj => ⟨hj, (h.locked j hj).1⟩) (fun t ht hold => ?_)
    have hlike := Hold.got_put ht
    exact hQ _ t ⟨hdir, fun j _ => hlike j, (hlike dp).type, (hlike dp).nlink, .inr ⟨rfl, fun _ => hlike dp⟩⟩ hold

end Directories

section Paths

/-- An allocated inode that is linked, or that a process has a reference to. -/
def Live (base : Nat → Nat) (s : State) (k : Nat) : Prop :=
  (s.node k).type ≠ .free ∧ ((s.node k).nlink ≠ 0 ∨ 0 < base k)

structure Closed (base : Nat → Nat) (s : State) : Prop where
  whole : ∀ d, (s.node d).type = .dir → Whole16 s d
  live : ∀ d, (s.node d).type = .dir → ∀ de ∈ entries s d, de.inum ≠ 0 → Live base s de.inum

theorem Like.live (h : Like s t k) (hk : Live base s k) : Live base t k := ⟨h.type ▸ hk.1, h.nlink ▸ hk.2⟩

theorem Alike.closed (h : Alike s t) (hs : Closed base s) : Closed base t := by
  refine ⟨fun d hd => ?_, fun d hd de hde h0 => ?_⟩
  · rw [Whole16, (h d).size]
    exact hs.whole d ((h d).type ▸ hd)
  · have hd' : (s.node d).type = .dir := (h d).type ▸ hd
    rw [(h d).entries (by rw [hd']; nofun)] at hde
    exact (h _).live (hs.live d hd' de hde h0)

def Fewer (base : Nat → Nat) (s t : State) : Prop := ∀ j, Like s t j ∨ base j = 0 ∧ (t.node j).type = .free

theorem Alike.fewer (h : Alike s t) : Fewer base s t := fun j => .inl (h j)

theorem Fewer.trans (h : Fewer base s t) (h' : Fewer base t u) : Fewer base s u := by
  intro j
  rcases h' j with h2 | h2
  · rcases h j with h1 | ⟨h0, h1⟩
    · exact .inl (h1.trans h2)
    · exact .inr ⟨h0, h2.type.trans h1⟩
  · exact .inr h2

theorem Put.fewer (ht : Put sb k s t) (h : Hold sb base rs ls s) (hk : k ∈ rs) : Fewer base s t := by
  intro j
  by_cases hj : j = k
  · subst hj
    rcases ht.ends with ⟨hl, -⟩ | ⟨-, h1, -, hf⟩
    · exact .inl hl
    · have hr := h.refs j
      have := count_pos_iff.mpr hk
      exact .inr ⟨by omega, hf⟩
  · exact .inl (ht.like j hj)

theorem Put.alike_live (ht : Put sb k s t) (h : Hold sb base rs ls s) (hk : k ∈ rs) (hl : Live base s k) :
    Alike s t := by
  refine ht.alike ?_
  rcases hl.2 with hn | hb
  · exact .inl hn
  · have hr := h.refs k
    have := count_pos_iff.mpr hk
    exact .inr (by omega)

def Okay (base : Nat → Nat) (s : State) (ip : Nat) : Prop := Closed base s ∧ Live base s ip

theorem length_dropWhile_le {α : Type} (p : α → Bool) (l : List α) : (l.dropWhile p).length ≤ l.length :=
  (dropWhile_sublist p).length_le

theorem skipelem_length {path rest : List Byte} (h : skipelem path = some (name, rest)) : rest.length < path.length := by
  unfold skipelem at h
  dsimp only at h
  split at h
  · cases h
  · rename_i hne
    rw [Option.some.injEq, Prod.mk.injEq] at h
    rw [← h.2]
    have hfirst := length_dropWhile_le (fun c => c == slash) path
    generalize hp : path.dropWhile (fun c => c == slash) = q at *
    cases q with
    | nil => exact absurd rfl hne
    | cons c q =>
      have hc : (c == slash) = false := by
        have := head_dropWhile_not (fun c => c == slash) (l := path) (by rw [hp]; exact cons_ne_nil c q)
        simpa [hp] using this
      have hc' : (c != slash) = true := by simp [bne, hc]
      have h1 := length_dropWhile_le (fun c => c == slash) (q.dropWhile (fun c => c != slash))
      have h2 := length_dropWhile_le (fun c => c != slash) q
      rw [dropWhile_cons, if_pos hc']
      rw [length_cons] at hfirst
      omega

theorem Hold.namexLoop {Q : Option (Nat × List Byte) → State → Prop} {parent : Bool} {fuel ip : Nat}
    {path : List Byte} (h : Hold sb base (ip :: rs) [] s) (hE : Benign E) (hfuel : path.length < fuel)
    (hfree : ¬ Okay base s ip → E .noType)
    (hnone : ∀ t, Fewer base s t → (Okay base s ip → Alike s t) → Hold sb base rs [] t → Q none t)
    (hsome : ∀ ip' name t, Fewer base s t → (Okay base s ip → Alike s t ∧ Live base t ip') → Hold sb base (ip' :: rs) [] t →
      Q (some (ip', name)) t) :
    Runs (namexLoop sb parent fuel ip path name) s Q E := by
  induction fuel generalizing ip path name s with
  | zero => exact absurd hfuel (Nat.not_lt_zero _)
  | succ fuel ih =>
    unfold Fs.namexLoop
    cases hskip : skipelem path with
    | none =>
      dsimp only
      rw [runs_ite]
      refine ⟨fun _ => ?_, fun _ => ?_⟩
      · rw [runs_bind]
        refine h.iput [] .rfl nofun (fun t ht hold => ?_)
        exact hnone t (ht.fewer h mem_cons_self) (fun hok => ht.alike_live h mem_cons_self hok.2) hold
      · have hrefl : Alike s s := fun j => Like.refl s j
        exact hsome ip name s hrefl.fewer (fun hok => ⟨hrefl, hok.2⟩) h
    | some x =>
      obtain ⟨name, rest⟩ := x
      dsimp only
      rw [runs_bind]
      refine h.ilock (.inl mem_cons_self) (fun hf => hfree (fun hok => hok.2.1 hf)) (fun t hq htype hold => ?_)
      have hl := hold.loaded mem_cons_self
      -- What dropping `ip` does.
      have hput : ∀ u v rs ls, Hold sb base rs ls u → ip ∈ rs → Alike t u → Put sb ip u v → Okay base s ip →
          Alike s v := by
        intro u v rs ls hold hmem hu hv hok
        have hlive := (hu ip).live ((hq.like ip).live hok.2)
        exact (hq.alike.trans hu).trans (hv.alike_live hold hmem hlive)
      have hleave : Runs (do Fs.iunlockput ip; pure none) t Q E := by
        rw [runs_bind]
        refine hold.iunlockput [] .rfl nofun (fun u hu hold' => ?_)
        exact hnone u (hq.alike.fewer.trans (hu.fewer hold mem_cons_self))
          (hput t u _ _ hold mem_cons_self (fun j => Like.refl t j) hu) hold'
      rw [runs_bind, runs_look, runs_ite]
      constructor
      · exact fun _ => hleave
      · intro hdir
        have hdir : (t.node ip).type = .dir := by
          rw [hl.node]
          simpa using hdir
        rw [runs_ite]
        constructor
        · intro _
          rw [runs_bind]
          refine hold.iunlock (.inl mem_cons_self) ?_
          refine hsome ip name t hq.alike.fewer (fun hok => ⟨hq.alike, (hq.like ip).live hok.2⟩) (hold.mono [] nofun)
        · intro _
          rw [runs_bind]
          refine hold.dirlookup mem_cons_self (hE.allows t ip) (fun _ _ => ?_) (fun next j off _ hfound hgot => ?_)
          · exact hleave
          · dsimp only
            rw [runs_bind]
            refine hgot.iunlockput [] (List.Perm.swap ip next rs) nofun
              (fun u hu hold => ?_)
            have halike := hput _ u _ _ hgot (mem_cons_of_mem _ mem_cons_self) got_quiet.alike hu
            have hfewer : Fewer base s u := (hq.alike.trans got_quiet.alike).fewer.trans
              (hu.fewer hgot (mem_cons_of_mem _ mem_cons_self))
            have hnext : Okay base s ip → Okay base u next := by
              intro hok
              have hclosed := hq.alike.closed hok.1
              obtain ⟨-, h0, de, hde, rfl, -⟩ := hfound (hclosed.whole ip hdir)
              have hlive := hclosed.live ip hdir de (mem_of_getElem? hde) h0
              have hback : Alike t u := fun j => by
                have hs := hq.like j
                have := halike hok j
                exact ⟨this.type.trans hs.type.symm, this.nlink.trans hs.nlink.symm, this.size.trans hs.size.symm,
                  fun hf i hi => (this.bytes (hs.type ▸ hf) i (hs.size ▸ hi)).trans
                    (hs.bytes (hs.type ▸ hf) i (hs.size ▸ hi)).symm⟩
              exact ⟨(halike hok).closed hok.1, (hback _).live hlive⟩
            have hshort := skipelem_length hskip
            refine ih hold (by omega) (fun hno => hfree (fun hok => hno (hnext hok))) (fun v hvf hv => ?_)
              (fun ip' name v hvf hv => ?_)
            · exact hnone v (hfewer.trans hvf) (fun hok => (halike hok).trans (hv (hnext hok)))
            · exact hsome ip' name v (hfewer.trans hvf) (fun hok => ⟨(halike hok).trans (hv (hnext hok)).1, (hv (hnext hok)).2⟩)

def start (cwd : Nat) (path : List Byte) : Nat := if path.headD 0 = slash then ROOTINO else cwd

theorem Hold.namex {Q : Option (Nat × List Byte) → State → Prop} {parent : Bool} {cwd : Nat} {path : List Byte}
    (h : Hold sb base rs [] s) (hcwd : 0 < base cwd) (hE : Benign E) (hfree : ¬ Okay base s (start cwd path) → E .noType)
    (hnone : ∀ t, Fewer base s t → (Okay base s (start cwd path) → Alike s t) → Hold sb base rs [] t → Q none t)
    (hsome : ∀ ip' name t, Fewer base s t → (Okay base s (start cwd path) → Alike s t ∧ Live base t ip') → Hold sb base (ip' :: rs) [] t →
      Q (some (ip', name)) t) :
    Runs (namex sb cwd path parent) s Q E := by
  have hloop : ∀ t, Quiet s t → Hold sb base (start cwd path :: rs) [] t →
      Runs (Fs.namexLoop sb parent (path.length + 1) (start cwd path) path []) t Q E := by
    intro t hq ht
    have hok : Okay base s (start cwd path) → Okay base t (start cwd path) :=
      fun hok => ⟨hq.alike.closed hok.1, (hq.like _).live hok.2⟩
    refine ht.namexLoop hE (Nat.lt_succ_self _) (fun hno => hfree (fun h => hno (hok h))) (fun u huf hu => ?_)
      (fun ip' name u huf hu => ?_)
    · exact hnone u (hq.alike.fewer.trans huf) (fun h => hq.alike.trans (hu (hok h)))
    · exact hsome ip' name u (hq.alike.fewer.trans huf) (fun h => ⟨hq.alike.trans (hu (hok h)).1, (hu (hok h)).2⟩)
  unfold Fs.namex
  dsimp only
  by_cases hs : path.headD 0 = slash
  · have hst : start cwd path = ROOTINO := if_pos hs
    rw [hst] at hloop
    rw [if_pos hs, runs_bind, if_pos hs]
    exact h.iget hE hloop
  · have hst : start cwd path = cwd := if_neg hs
    rw [hst] at hloop
    rw [if_neg hs, runs_bind, if_neg hs]
    exact h.idup hcwd hloop

theorem Hold.namei {Q : Option Nat → State → Prop} {cwd : Nat} {path : List Byte}
    (h : Hold sb base rs [] s) (hcwd : 0 < base cwd) (hE : Benign E) (hfree : ¬ Okay base s (start cwd path) → E .noType)
    (hnone : ∀ t, Fewer base s t → (Okay base s (start cwd path) → Alike s t) → Hold sb base rs [] t → Q none t)
    (hsome : ∀ ip' t, Fewer base s t → (Okay base s (start cwd path) → Alike s t ∧ Live base t ip') → Hold sb base (ip' :: rs) [] t →
      Q (some ip') t) :
    Runs (namei sb cwd path) s Q E := by
  unfold Fs.namei
  rw [runs_bind]
  exact h.namex hcwd hE hfree hnone (fun ip' _ => hsome ip')

end Paths

end Xv6Rcu.Fs

import Xv6Rcu.FsCreate
import Xv6Rcu.FsBlocks

namespace Xv6Rcu.Fs

open Exec Transition Function List Option

variable {sb : Super} {base : Nat → Nat} {rs ls : List Nat} {s t u v : State} {k d dp ip i j cwd : Nat}
  {name path : List Byte} {type : Kind} {major minor : Int} {l : List Dirent} {de : Dirent}

section Lists

def assoc (l : List Dirent) (n : List Byte) : Option Nat :=
  (l.find? (fun de => de.inum != 0 && cut de.name == n)).map (fun de => de.inum)

def Unique (l : List Dirent) : Prop :=
  ∀ (i j : Nat) (de de' : Dirent), l[i]? = some de → l[j]? = some de' → de.inum ≠ 0 → de'.inum ≠ 0 → cut de.name = cut de'.name → i = j

theorem assoc_eq_none {n : List Byte} :
    assoc l n = none ↔ ∀ (j : Nat) de, l[j]? = some de → de.inum ≠ 0 → cut de.name ≠ n := by
  unfold assoc
  rw [map_eq_none_iff, find?_eq_none]
  constructor
  · intro h j de hj h0 hn
    have := h de (mem_of_getElem? hj)
    simp [h0, hn] at this
  · intro h de hde
    obtain ⟨j, hj⟩ := getElem?_of_mem hde
    have := h j de hj
    simpa using this

theorem assoc_eq_some {n : List Byte} (h : Unique l) :
    assoc l n = some k ↔ k ≠ 0 ∧ ∃ (j : Nat) (de : Dirent), l[j]? = some de ∧ de.inum = k ∧ cut de.name = n := by
  constructor
  · intro hk
    obtain ⟨de, hfind, rfl⟩ := map_eq_some_iff.mp hk
    have hp : de.inum ≠ 0 ∧ cut de.name = n := by simpa using find?_some hfind
    obtain ⟨j, hj⟩ := getElem?_of_mem (mem_of_find?_eq_some hfind)
    exact ⟨hp.1, j, de, hj, rfl, hp.2⟩
  · rintro ⟨h0, j, de, hj, rfl, rfl⟩
    unfold assoc
    cases hfind : l.find? (fun x => x.inum != 0 && cut x.name == cut de.name) with
    | none =>
      have := find?_eq_none.mp hfind de (mem_of_getElem? hj)
      simp [h0] at this
    | some x =>
      have hp : x.inum ≠ 0 ∧ cut x.name = cut de.name := by simpa using find?_some hfind
      obtain ⟨i, hi⟩ := getElem?_of_mem (mem_of_find?_eq_some hfind)
      have hij := h i j x de hi hj hp.1 h0 hp.2
      subst hij
      rw [hi, some.injEq] at hj
      rw [hj]
      rfl

structure DirOk (l : List Dirent) : Prop where
  unique : Unique l
  dot : ∃ de, l[0]? = some de ∧ de.inum ≠ 0 ∧ cut de.name = cut dot
  dotdot : ∃ de, l[1]? = some de ∧ de.inum ≠ 0 ∧ cut de.name = cut dotdot

theorem DirOk.new (hip : ip ≠ 0) (hdp : dp ≠ 0) :
    DirOk [⟨ip, strncpy DIRSIZ Fs.dot⟩, ⟨dp, strncpy DIRSIZ Fs.dotdot⟩] := by
  refine ⟨fun i j de de' hi hj _ _ hn => ?_, ⟨_, rfl, hip, cut_strncpy Fs.dot⟩, ⟨_, rfl, hdp, cut_strncpy Fs.dotdot⟩⟩
  have hi2 : i < 2 := (List.getElem?_eq_some_iff.mp hi).1
  have hj2 : j < 2 := (List.getElem?_eq_some_iff.mp hj).1
  have hdots : cut Fs.dot ≠ cut Fs.dotdot := by decide
  by_contra hne
  have hcases : i = 0 ∧ j = 1 ∨ i = 1 ∧ j = 0 := by omega
  rcases hcases with ⟨rfl, rfl⟩ | ⟨rfl, rfl⟩
  · simp only [getElem?_cons_zero, getElem?_cons_succ, some.injEq] at hi hj
    rw [← hi, ← hj, cut_strncpy, cut_strncpy] at hn
    exact hdots hn
  · simp only [getElem?_cons_zero, getElem?_cons_succ, some.injEq] at hi hj
    rw [← hi, ← hj, cut_strncpy, cut_strncpy] at hn
    exact hdots hn.symm

theorem DirOk.slot_ge (h : DirOk l) (hs : FreeSlot l i) : 2 ≤ i := by
  obtain ⟨de, h0, hde, -⟩ := h.dot
  obtain ⟨de', h1, hde', -⟩ := h.dotdot
  have := hs.ne h0 hde
  have := hs.ne h1 hde'
  omega

theorem Unique.place {x : Dirent} (h : Unique l) (hi : i ≤ l.length)
    (hnew : x.inum ≠ 0 → ∀ (j : Nat) de, j ≠ i → l[j]? = some de → de.inum ≠ 0 → cut de.name ≠ cut x.name) :
    Unique (place l i x) := by
  intro a b y z ha hb hy hz hn
  rw [place_getElem? hi] at ha hb
  by_cases hai : a = i
  · rw [if_pos hai, some.injEq] at ha
    subst ha
    by_cases hbi : b = i
    · rw [hai, hbi]
    · rw [if_neg hbi] at hb
      exact absurd hn.symm (hnew hy b z hbi hb hz)
  · rw [if_neg hai] at ha
    by_cases hbi : b = i
    · rw [if_pos hbi, some.injEq] at hb
      subst hb
      exact absurd hn (hnew hz a y hai ha hy)
    · rw [if_neg hbi] at hb
      exact h a b y z ha hb hy hz hn

section Link

variable {x : Dirent} (h : Unique l) (hs : FreeSlot l i) (hx : x.inum ≠ 0) (habs : assoc l (cut x.name) = none)

include h hs habs

theorem unique_link : Unique (place l i x) :=
  h.place hs.1 (fun _ j de _ hj h0 => assoc_eq_none.mp habs j de hj h0)

include hx

theorem assoc_link : assoc (place l i x) = update (assoc l) (cut x.name) (some x.inum) := by
  funext n
  refine Option.ext (fun k => ?_)
  rw [assoc_eq_some (unique_link h hs habs)]
  by_cases hn : n = cut x.name
  · subst hn
    rw [update_self, some.injEq]
    constructor
    · rintro ⟨h0, j, de, hj, rfl, hcut⟩
      rw [place_getElem? hs.1] at hj
      split at hj
      · rw [some.inj hj]
      · exact absurd hcut (assoc_eq_none.mp habs j de hj h0)
    · rintro rfl
      exact ⟨hx, i, x, by rw [place_getElem? hs.1, if_pos rfl], rfl, rfl⟩
  · rw [update_of_ne hn, assoc_eq_some h]
    refine and_congr_right (fun h0 => ⟨?_, ?_⟩)
    · rintro ⟨j, de, hj, hk, hcut⟩
      rw [place_getElem? hs.1] at hj
      split at hj
      · rw [some.inj hj] at hn
        exact absurd hcut.symm hn
      · exact ⟨j, de, hj, hk, hcut⟩
    · rintro ⟨j, de, hj, rfl, hcut⟩
      exact ⟨j, de, by rw [place_getElem? hs.1, if_neg (hs.ne hj h0)]; exact hj, rfl, hcut⟩

end Link

section Clear

variable {x y : Dirent} (h : Unique l) (hi : l[i]? = some x) (hx : x.inum ≠ 0) (hy : y.inum = 0)

include h hi hx hy

omit hx in
theorem unique_clear : Unique (place l i y) :=
  h.place (le_of_lt (List.getElem?_eq_some_iff.mp hi).1) (fun hc => absurd hy hc)

theorem assoc_clear : assoc (place l i y) = update (assoc l) (cut x.name) none := by
  have hle : i ≤ l.length := le_of_lt (List.getElem?_eq_some_iff.mp hi).1
  funext n
  by_cases hn : n = cut x.name
  · subst hn
    rw [update_self, assoc_eq_none]
    intro j de hj h0 hcut
    rw [place_getElem? hle] at hj
    split at hj
    · rw [← some.inj hj] at h0
      exact h0 hy
    · rename_i hji
      exact hji (h j i de x hj hi h0 hx hcut)
  · rw [update_of_ne hn]
    refine Option.ext (fun k => ?_)
    rw [assoc_eq_some (unique_clear h hi hy), assoc_eq_some h]
    refine and_congr_right (fun h0 => ⟨?_, ?_⟩)
    · rintro ⟨j, de, hj, rfl, hcut⟩
      rw [place_getElem? hle] at hj
      split at hj
      · rw [← some.inj hj] at h0
        exact absurd hy h0
      · exact ⟨j, de, hj, rfl, hcut⟩
    · rintro ⟨j, de, hj, rfl, hcut⟩
      refine ⟨j, de, ?_, rfl, hcut⟩
      rw [place_getElem? hle, if_neg ?_]
      · exact hj
      · rintro rfl
        rw [hi, some.injEq] at hj
        exact hn (by rw [← hcut, hj])

end Clear

theorem DirOk.link {x : Dirent} (h : DirOk l) (hs : FreeSlot l i) (habs : assoc l (cut x.name) = none) :
    DirOk (place l i x) := by
  have h2 := h.slot_ge hs
  refine ⟨unique_link h.unique hs habs, ?_, ?_⟩
  · obtain ⟨de, hde⟩ := h.dot
    exact ⟨de, by rw [place_getElem? hs.1, if_neg (by omega)]; exact hde.1, hde.2⟩
  · obtain ⟨de, hde⟩ := h.dotdot
    exact ⟨de, by rw [place_getElem? hs.1, if_neg (by omega)]; exact hde.1, hde.2⟩

/-- An entry of another name than `.` and `..` is in neither of the first two slots. -/
theorem DirOk.other_ge (h : DirOk l) (hi : l[i]? = some de) (hd : cut de.name ≠ cut Fs.dot)
    (hdd : cut de.name ≠ cut Fs.dotdot) : 2 ≤ i := by
  obtain ⟨x, h0, -, hx⟩ := h.dot
  obtain ⟨y, h1, -, hy⟩ := h.dotdot
  have hne0 : i ≠ 0 := by
    rintro rfl
    rw [h0, some.injEq] at hi
    exact hd (hi ▸ hx)
  have hne1 : i ≠ 1 := by
    rintro rfl
    rw [h1, some.injEq] at hi
    exact hdd (hi ▸ hy)
  omega

theorem DirOk.clear {y : Dirent} (h : DirOk l) (hi : l[i]? = some de) (hy : y.inum = 0)
    (hd : cut de.name ≠ cut Fs.dot) (hdd : cut de.name ≠ cut Fs.dotdot) : DirOk (place l i y) := by
  have hle : i ≤ l.length := le_of_lt (List.getElem?_eq_some_iff.mp hi).1
  have h2 := h.other_ge hi hd hdd
  refine ⟨unique_clear h.unique hi hy, ?_, ?_⟩
  · obtain ⟨de, hde⟩ := h.dot
    exact ⟨de, by rw [place_getElem? hle, if_neg (by omega)]; exact hde.1, hde.2⟩
  · obtain ⟨de, hde⟩ := h.dotdot
    exact ⟨de, by rw [place_getElem? hle, if_neg (by omega)]; exact hde.1, hde.2⟩

/-- The slots from 2 on are free exactly if there are no names but `.` and `..`. -/
theorem DirOk.empty_iff (h : DirOk l) :
    (∀ (j : Nat) de, 2 ≤ j → l[j]? = some de → de.inum = 0) ↔
      ∀ n, n ≠ cut Fs.dot → n ≠ cut Fs.dotdot → assoc l n = none := by
  constructor
  · intro hall n hd hdd
    refine assoc_eq_none.mpr (fun j de hj h0 hcut => ?_)
    have h2 := h.other_ge hj (hcut ▸ hd) (hcut ▸ hdd)
    exact h0 (hall j de h2 hj)
  · intro hnone j de h2 hj
    by_contra h0
    have hne : ∀ (i : Nat) x, i < 2 → l[i]? = some x → x.inum ≠ 0 → cut de.name ≠ cut x.name := by
      intro i x hi hx hx0 hcut
      have := h.unique j i de x hj hx h0 hx0 hcut
      omega
    obtain ⟨x, hx, hx0, hxn⟩ := h.dot
    obtain ⟨y, hy, hy0, hyn⟩ := h.dotdot
    have hd := hxn ▸ hne 0 x (by decide) hx hx0
    have hdd := hyn ▸ hne 1 y (by decide) hy hy0
    exact assoc_eq_none.mp (hnone _ hd hdd) j de hj h0 rfl

end Lists

section Invariant

structure Dirs (base : Nat → Nat) (s : State) : Prop where
  whole : ∀ d, (s.node d).type = .dir → Whole16 s d
  ok : ∀ d, (s.node d).type = .dir → DirOk (entries s d)
  nums : ∀ k, (s.node k).type ≠ .free → k ≠ 0 ∧ k < 65536
  kept : ∀ k, 0 < base k → (s.node k).type ≠ .free

theorem Dirs.change (h : Dirs base s) (ip dp : Nat)
    (hlike : ∀ j, j ≠ ip → j ≠ dp → Like s t j ∨ base j = 0 ∧ (t.node j).type = .free)
    (hok : ∀ d, d = ip ∨ d = dp → (t.node d).type = .dir → Whole16 t d ∧ DirOk (entries t d))
    (hnum : ∀ d, d = ip ∨ d = dp → (t.node d).type ≠ .free → d ≠ 0 ∧ d < 65536)
    (hkept : ∀ d, d = ip ∨ d = dp → 0 < base d → (t.node d).type ≠ .free) : Dirs base t := by
  have hcases : ∀ d, (d = ip ∨ d = dp) ∨ Like s t d ∨ base d = 0 ∧ (t.node d).type = .free := by
    intro d
    by_cases h1 : d = ip
    · exact .inl (.inl h1)
    · by_cases h2 : d = dp
      · exact .inl (.inr h2)
      · exact .inr (hlike d h1 h2)
  refine ⟨fun d hd => ?_, fun d hd => ?_, fun d hd => ?_, fun d hd => ?_⟩
  · rcases hcases d with hc | hl | ⟨-, hf⟩
    · exact (hok d hc hd).1
    · exact hl.whole (h.whole d (hl.type ▸ hd))
    · exact absurd (hf.symm.trans hd) nofun
  · rcases hcases d with hc | hl | ⟨-, hf⟩
    · exact (hok d hc hd).2
    · have hd' := hl.type ▸ hd
      rw [hl.entries (by rw [hd']; nofun)]
      exact h.ok d hd'
    · exact absurd (hf.symm.trans hd) nofun
  · rcases hcases d with hc | hl | ⟨-, hf⟩
    · exact hnum d hc hd
    · exact h.nums d (hl.type ▸ hd)
    · exact absurd hf hd
  · rcases hcases d with hc | hl | ⟨h0, -⟩
    · exact hkept d hc hd
    · rw [hl.type]
      exact h.kept d hd
    · omega

theorem Fewer.dirs (h : Fewer base s t) (hs : Dirs base s) : Dirs base t := by
  have hno : ∀ d, (t.node d).type ≠ .free → Like s t d := by
    intro d hd
    rcases h d with hl | ⟨-, hf⟩
    · exact hl
    · exact absurd hf hd
  refine ⟨fun d hd => ?_, fun d hd => ?_, fun d hd => ?_, fun d hd => ?_⟩
  · have hl := hno d (by rw [hd]; nofun)
    exact hl.whole (hs.whole d (hl.type ▸ hd))
  · have hl := hno d (by rw [hd]; nofun)
    have hd' := hl.type ▸ hd
    rw [hl.entries (by rw [hd']; nofun)]
    exact hs.ok d hd'
  · exact hs.nums d ((hno d hd).type ▸ hd)
  · rcases h d with hl | ⟨h0, -⟩
    · rw [hl.type]
      exact hs.kept d hd
    · omega

theorem Dirs.set (h : Dirs base s) (hlike : ∀ j, j ≠ dp → Like s t j) (htype : (t.node dp).type = (s.node dp).type)
    (hok : (t.node dp).type = .dir → Whole16 t dp ∧ DirOk (entries t dp)) : Dirs base t := by
  refine h.change dp dp (fun j hj _ => .inl (hlike j hj)) ?_ ?_ ?_
  · rintro d (rfl | rfl) <;> exact hok
  · rintro d (rfl | rfl) hd <;> exact h.nums d (htype ▸ hd)
  · rintro d (rfl | rfl) hd
    · rw [htype]
      exact h.kept d hd
    · rw [htype]
      exact h.kept d hd

theorem Dirs.setMeta (h : Dirs base s) (ht : Touch sb k s t) (htype : (t.node k).type = (s.node k).type)
    (hsize : (t.node k).size = (s.node k).size) (hb : ∀ i, fileByte t k i = fileByte s k i) : Dirs base t := by
  obtain ⟨hent, hwh⟩ := entries_of_bytes hsize hb
  refine h.set ht.like htype (fun hd => ?_)
  rw [htype] at hd
  exact ⟨hwh (h.whole k hd), hent ▸ h.ok k hd⟩

theorem assoc_of_names {n : Nat} (hu : Unique (entries s dp)) :
    assoc (entries s dp) (cut name) = some n ↔ ∃ j, Names s dp name j n := by
  rw [assoc_eq_some hu]
  constructor
  · rintro ⟨h0, j, de, hj, hn, hc⟩
    exact ⟨j, h0, de, hj, hn, hc⟩
  · rintro ⟨j, h0, de, hj, hn, hc⟩
    exact ⟨h0, j, de, hj, hn, hc⟩

theorem assoc_absent (habs : ∀ j inum, ¬ Names s dp name j inum) : assoc (entries s dp) (cut name) = none := by
  refine assoc_eq_none.mpr (fun j de hj h0 hc => ?_)
  exact habs j de.inum ⟨h0, de, hj, rfl, hc⟩

theorem Linked.dirs {inum : Nat} {r : Int} (h : Linked sb dp name inum s r t) (hs : Dirs base s)
    (hlt : inum < 65536) : Dirs base t := by
  have hdir := h.dir
  refine hs.set h.like h.type (fun _ => ?_)
  rcases h.result with ⟨-, hdone⟩ | ⟨-, hsame⟩
  · obtain ⟨hw, habs, i, hle, hfree, hplace⟩ := hdone (hs.whole dp hdir)
    rw [decode_encode hlt] at hplace
    refine ⟨hw, ?_⟩
    rw [hplace]
    refine (hs.ok dp hdir).link ⟨hle, hfree⟩ ?_
    rw [cut_strncpy]
    exact assoc_absent habs
  · have hl := hsame (hs.whole dp hdir)
    refine ⟨hl.whole (hs.whole dp hdir), ?_⟩
    rw [hl.entries (by rw [hdir]; nofun)]
    exact hs.ok dp hdir

theorem Cleared.dirs {r : Int} {inum : Nat} (h : Cleared dp i s r t) (hs : Dirs base s)
    (hdir : (s.node dp).type = .dir) (hn : Names s dp name i inum) (hd : cut name ≠ cut dot)
    (hdd : cut name ≠ cut dotdot) : Dirs base t := by
  refine hs.set h.like h.type (fun _ => ?_)
  obtain ⟨-, de, hi, -, hcut⟩ := hn
  rcases h.result with ⟨-, hw, hplace⟩ | ⟨-, hl⟩
  · refine ⟨hw, ?_⟩
    rw [hplace]
    exact (hs.ok dp hdir).clear hi rfl (hcut ▸ hd) (hcut ▸ hdd)
  · refine ⟨hl.whole (hs.whole dp hdir), ?_⟩
    rw [hl.entries (by rw [hdir]; nofun)]
    exact hs.ok dp hdir

end Invariant

section Calls

theorem Dirs.outstanding (h : Dirs base s) (o : Nat) : Dirs base { s with outstanding := o } :=
  ⟨h.whole, h.ok, h.nums, h.kept⟩

theorem Hold.lastPut (h : Hold sb base [k] ls s) (hd : Dirs base s) (ht : Put sb k s t) (h' : Hold sb base [] [] t) :
    Rest sb base { t with outstanding := t.outstanding - 1 } ∧ Dirs base { t with outstanding := t.outstanding - 1 } :=
  ⟨h'.endOp, ((ht.fewer h mem_cons_self).dirs hd).outstanding _⟩

theorem Hold.unlinkFail_dirs (h : Hold sb base [dp] ls s) (hd : Dirs base s) :
    Runs (Fs.unlinkFail dp) s (fun _ t => Rest sb base t ∧ Dirs base t) (fun _ => True) := by
  unfold Fs.unlinkFail
  rw [runs_bind]
  refine h.iunlockput [] .rfl nofun (fun t ht h' => ?_)
  rw [runs_bind, runs_endOp]
  exact h.lastPut hd ht h'

theorem benign_true : Benign (fun _ => True) := fun _ _ _ => trivial

theorem Hold.unlinkEntry_dirs {inum : Nat} (h : Hold sb base [ip, dp] [ip, dp] s) (hs : Dirs base s)
    (hdir : (s.node dp).type = .dir) (hn : Names s dp name i inum) (hd : cut name ≠ cut dot)
    (hdd : cut name ≠ cut dotdot) :
    Runs (Fs.unlinkEntry sb dp ip (DESIZE * i)) s (fun _ t => Rest sb base t ∧ Dirs base t) (fun _ => True) := by
  have hip : ip ∈ [ip, dp] := mem_cons_self
  have hdp : dp ∈ [ip, dp] := mem_cons_of_mem _ mem_cons_self
  unfold Fs.unlinkEntry
  rw [runs_bind, runs_look, runs_ite]
  refine ⟨fun _ => trivial, fun _ => ?_⟩
  rw [runs_bind]
  refine Runs.mono (Q := fun _ t => t = s) ?_ ?_ (fun _ he => he)
  · rw [runs_ite]
    exact ⟨fun _ => h.isdirempty hip (fun _ => trivial) (fun _ _ => rfl), fun _ => rfl⟩
  rintro empty t rfl
  rw [runs_ite]
  refine ⟨fun _ => ?_, fun _ => ?_⟩
  · rw [runs_bind]
    refine h.iunlockput [] .rfl nofun (fun u hu h' => ?_)
    exact h'.unlinkFail_dirs ((hu.fewer h hip).dirs hs)
  · rw [runs_bind]
    refine h.clear hdp (hs.whole dp hdir) (fun r u hclear hu => ?_)
    have hdu := hclear.dirs hs hdir hn hd hdd
    rw [runs_ite]
    refine ⟨fun _ => trivial, fun _ => ?_⟩
    rw [runs_bind, runs_look, runs_bind]
    refine Runs.mono (Q := fun _ t => Hold sb base [ip, dp] [ip, dp] t ∧ Dirs base t) ?_ ?_ (fun _ he => he)
    · rw [runs_when]
      refine ⟨fun _ => ?_, fun _ => ⟨hu, hdu⟩⟩
      exact hu.setMeta (g := fun d => { d with nlink := short (d.nlink - 1) }) hdp (fun _ => rfl) (fun _ => rfl)
        (fun _ => rfl) (fun w hw hnode hb h' => ⟨h', hdu.setMeta hw (by rw [hnode]) (by rw [hnode]) hb⟩)
    · rintro _ w ⟨hw, hdw⟩
      rw [runs_bind]
      refine hw.iunlockput [ip] (List.Perm.swap dp ip []) (fun j hj => ?_) (fun x hx h' => ?_)
      · rw [mem_singleton] at hj
        exact ⟨hj ▸ hip, .inl (hj ▸ mem_cons_self)⟩
      · have hdx := (hx.fewer hw hdp).dirs hdw
        rw [runs_bind]
        refine h'.setMeta (g := fun d => { d with nlink := short (d.nlink - 1) }) mem_cons_self (fun _ => rfl)
          (fun _ => rfl) (fun _ => rfl) (fun y hy hnode hb hold => ?_)
        have hdy := hdx.setMeta hy (by rw [hnode]) (by rw [hnode]) hb
        rw [runs_bind]
        refine hold.iunlockput [] .rfl nofun (fun z hz hend => ?_)
        rw [runs_bind, runs_endOp]
        exact hold.lastPut hdy hz hend

theorem Dirs.sysUnlink (hs : Dirs base s) (h : Rest sb base s) (hcwd : 0 < base cwd) :
    Runs (sysUnlink sb cwd path) s (fun _ t => Rest sb base t ∧ Dirs base t) (fun _ => True) := by
  unfold Fs.sysUnlink
  rw [runs_bind, runs_beginOp, runs_bind]
  refine h.beginOp.namex hcwd benign_true (fun _ => trivial) (fun t hf _ ht => ?_) (fun dp name t hf _ ht => ?_)
  · dsimp only
    rw [runs_bind, runs_endOp]
    exact ⟨ht.endOp, (hf.dirs (hs.outstanding _)).outstanding _⟩
  · have hst := hf.dirs (hs.outstanding _)
    dsimp only
    rw [runs_bind]
    refine ht.ilock (.inl mem_cons_self) (fun _ => trivial) (fun u hq _ hu => ?_)
    have hsu : Dirs base u := hq.alike.fewer.dirs hst
    rw [runs_ite]
    refine ⟨fun _ => hu.unlinkFail_dirs hsu, fun hname => ?_⟩
    rw [runs_bind]
    refine hu.dirlookup mem_cons_self (benign_true.allows _ _) (fun _ _ => hu.unlinkFail_dirs hsu)
      (fun ip j off hdir hfound hgot => ?_)
    obtain ⟨rfl, hn⟩ := hfound (hsu.whole dp hdir)
    dsimp only
    rw [runs_bind]
    refine hgot.ilock (.inl mem_cons_self) (fun _ => trivial) (fun w hq' _ hw => ?_)
    have halike : Alike u w := got_quiet.alike.trans hq'.alike
    have hdirw : (w.node dp).type = .dir := by
      rw [(halike dp).type]
      exact hdir
    have hnw : Names w dp name j ip := by
      unfold Names at *
      rw [(halike dp).entries (by rw [hdir]; nofun)]
      exact hn
    refine hw.unlinkEntry_dirs (halike.fewer.dirs hsu) hdirw hnw ?_ ?_
    · exact fun hc => hname (.inl (namecmp_eq_zero.mpr hc))
    · exact fun hc => hname (.inr (namecmp_eq_zero.mpr hc))

theorem Grown.dirs (h : Grown type dp ip name s u) (hs : Dirs base t) (hlike : ∀ j, j ≠ ip → Like t s j)
    (hdir : (t.node dp).type = .dir) (hne : ip ≠ dp) (hip : ip ≠ 0 ∧ ip < 65536) (hb : base ip = 0) :
    Dirs base u := by
  have hldp := hlike dp (Ne.symm hne)
  have hnum := hs.nums dp (by rw [hdir]; nofun)
  refine hs.change ip dp (fun j hj hjd => .inl ((hlike j hj).trans (h.like j hj hjd))) ?_ ?_ ?_
  · rintro d (rfl | rfl) hd
    · rw [h.itype] at hd
      obtain ⟨hw, hent⟩ := h.ientries hd
      exact ⟨hw, hent ▸ DirOk.new hip.1 hnum.1⟩
    · obtain ⟨i, hfree, hplace⟩ := h.slot
      refine ⟨h.dwhole, ?_⟩
      have habs := assoc_absent h.absent
      rw [hplace]
      rw [hldp.entries (by rw [hdir]; nofun)] at hfree habs ⊢
      refine (hs.ok d hdir).link hfree ?_
      rw [cut_strncpy]
      exact habs
  · rintro d (rfl | rfl) _
    · exact hip
    · exact hnum
  · rintro d (rfl | rfl) hpos
    · omega
    · rw [h.dtype, hldp.type, hdir]
      nofun

theorem Dirs.sysMake (hs : Dirs base s) (h : Rest sb base s) (hcwd : 0 < base cwd) :
    Runs (sysMake sb cwd path type major minor) s (fun _ t => Rest sb base t ∧ Dirs base t) (fun _ => True) := by
  unfold Fs.sysMake
  rw [runs_bind, runs_beginOp, runs_bind]
  refine Runs.mono (Q := fun r t => (r = none → Hold sb base [] [] t ∧ Dirs base t) ∧
    ∀ ip, r = some ip → Hold sb base [ip] [ip] t ∧ Dirs base t) ?_ ?_ (fun _ he => he)
  · unfold Fs.create
    rw [runs_bind]
    refine h.beginOp.namex hcwd benign_true (fun _ => trivial) (fun t hf _ ht => ?_) (fun dp name t hf _ ht => ?_)
    · exact ⟨fun _ => ⟨ht, hf.dirs (hs.outstanding _)⟩, nofun⟩
    · have hst := hf.dirs (hs.outstanding _)
      dsimp only
      rw [runs_bind]
      refine ht.ilock (.inl mem_cons_self) (fun _ => trivial) (fun u hq _ hu => ?_)
      have hsu : Dirs base u := hq.alike.fewer.dirs hst
      rw [runs_bind]
      refine hu.dirlookup mem_cons_self (benign_true.allows _ _) (fun hdir _ => ?_)
        (fun ip j off _ _ hgot => ?_)
      · dsimp only
        rw [runs_bind]
        refine hu.ialloc benign_true ?_ (fun ip w h0 ha hw => ?_)
        · rw [if_pos rfl, runs_bind]
          refine hu.iunlockput [] .rfl nofun (fun v hv h' => ?_)
          exact ⟨fun _ => ⟨h', (hv.fewer hu mem_cons_self).dirs hsu⟩, nofun⟩
        · rw [if_neg h0]
          have hne : ip ≠ dp := by
            rintro rfl
            exact absurd (ha.was.symm.trans hdir) nofun
          have hb : base ip = 0 := by
            by_contra hc
            exact hsu.kept ip (by omega) ha.was
          have hip : ip < 65536 := lt_of_lt_of_le ha.lt sb.inums
          have hldp := ha.like dp (Ne.symm hne)
          refine hw.createNew_grown benign_true hne hb not_mem_nil ha.node (fun _ => trivial)
            (hldp.whole (hsu.whole dp hdir)) hip h0 (hsu.nums dp (by rw [hdir]; nofun)).2 ?_ ?_
          · intro x y hundo hx hput hy
            have hfewer : Fewer base u x := by
              intro j
              by_cases hj : j = ip
              · subst hj
                exact .inr ⟨hb, hundo.free⟩
              · exact .inl ((ha.like j hj).trans (hundo.like j hj))
            exact ⟨fun _ => ⟨hy, (hfewer.trans (hput.fewer hx mem_cons_self)).dirs hsu⟩, nofun⟩
          · intro x y hgrown hx hput hy
            refine ⟨nofun, ?_⟩
            rintro _ ⟨⟩
            have hdx := hgrown.dirs hsu ha.like hdir hne ⟨h0, hip⟩ hb
            exact ⟨hy, (hput.fewer hx (mem_cons_of_mem _ mem_cons_self)).dirs hdx⟩
      · dsimp only
        rw [runs_bind]
        refine hgot.iunlockput [] (List.Perm.swap dp ip []) nofun (fun v hv h' => ?_)
        have hsv := (got_quiet.alike.fewer.trans (hv.fewer hgot (mem_cons_of_mem _ mem_cons_self))).dirs hsu
        rw [runs_bind]
        refine h'.ilock (.inl mem_cons_self) (fun _ => trivial) (fun w hq' _ hw => ?_)
        have hsw : Dirs base w := hq'.alike.fewer.dirs hsv
        rw [runs_bind, runs_look, runs_ite]
        refine ⟨fun _ => ⟨nofun, ?_⟩, fun _ => ?_⟩
        · rintro _ ⟨⟩
          exact ⟨hw, hsw⟩
        · rw [runs_bind]
          refine hw.iunlockput [] .rfl nofun (fun x hx hend => ?_)
          exact ⟨fun _ => ⟨hend, (hx.fewer hw mem_cons_self).dirs hsw⟩, nofun⟩
  · rintro r t ⟨hnone, hsome⟩
    cases r with
    | none =>
      dsimp only
      rw [runs_bind, runs_endOp]
      exact ⟨(hnone rfl).1.endOp, (hnone rfl).2.outstanding _⟩
    | some ip =>
      dsimp only
      rw [runs_bind]
      refine (hsome ip rfl).1.iunlockput [] .rfl nofun (fun u hu h' => ?_)
      rw [runs_bind, runs_endOp]
      exact (hsome ip rfl).1.lastPut (hsome ip rfl).2 hu h'

end Calls

section Maps

def State.locked (s : State) (d : Nat) : State := (({ s with outstanding := 1 } : State).got d).load d

theorem Rest.locked (h : Rest sb base s) (ht : (s.node d).type ≠ .free) :
    Hold sb base [d] [d] (s.locked d) ∧ Alike s (s.locked d) := by
  have h1 : Hold sb base [] [] { s with outstanding := 1 } := ⟨h.1.outstanding 1, one_pos, fun k => h.2 k, nofun⟩
  have h2 : Hold sb base [d] [] _ := h1.got
  have hr := h2.ref_pos (.inl mem_cons_self)
  have hd : ((({ s with outstanding := 1 } : State).got d).dinode d).type ≠ .free := by
    rw [got_dinode]
    change (s.dinode d).type ≠ .free
    rw [← h.1.node]
    exact ht
  have hq := load_quiet h2.sound hr
  refine ⟨⟨load_sound h2.sound hr hd, ?_, fun k => ?_, fun k hk => ?_⟩, fun j => ?_⟩
  · exact hq.outstanding ▸ h2.outstanding
  · rw [State.locked, load_refs]
    exact h2.refs k
  · rw [mem_singleton] at hk
    subst hk
    exact ⟨.inl mem_cons_self, load_loaded h2.sound hr hd⟩
  · have hout : Alike s { s with outstanding := 1 } := fun _ => ⟨rfl, rfl, rfl, fun _ _ _ => rfl⟩
    exact (hout j).trans ((got_quiet.like j).trans (hq.like j))

def Sees (sb : Super) (d : Nat) (m : List Byte → Option Nat) (s : State) : Prop :=
  ∀ name, Runs (dirlookup sb d name) s (fun r _ => r.map (fun x => x.1) = m (cut name)) (fun e => e = .noInodes)

def removeEntry (sb : Super) (dp : Nat) (name : List Byte) : M (Option Int) := do
  let r ← dirlookup sb dp name
  match r with
  | none => pure none
  | some (_, off) => do
    let n ← writei sb dp (.kernel (List.replicate DESIZE 0)) off DESIZE
    pure (some n)

/-- Directory `d` is a finite map. Names are compared up to a zero byte, on
`DIRSIZ` bytes. -/
structure DirMap (sb : Super) (s : State) (d : Nat) : Prop where
  unique : Unique (entries s d)
  dot : ∃ de, (entries s d)[0]? = some de ∧ de.inum ≠ 0 ∧ cut de.name = cut dot
  dotdot : ∃ de, (entries s d)[1]? = some de ∧ de.inum ≠ 0 ∧ cut de.name = cut dotdot
  sees : Sees sb d (assoc (entries s d)) (s.locked d)
  link : ∀ name inum, 0 < inum → inum < 65536 → Runs (dirlink sb d name inum) (s.locked d)
    (fun r t => r = 0 ∧ assoc (entries s d) (cut name) = none ∧
        Sees sb d (update (assoc (entries s d)) (cut name) (some inum)) t ∨
      r = -1 ∧ entries t d = entries s d) (fun e => e = .noInodes)
  remove : ∀ name, cut name ≠ cut Fs.dot → cut name ≠ cut Fs.dotdot → Runs (removeEntry sb d name) (s.locked d)
    (fun r t => r = none ∧ assoc (entries s d) (cut name) = none ∧ entries t d = entries s d ∨
      r = some DESIZE ∧ assoc (entries s d) (cut name) ≠ none ∧
        Sees sb d (update (assoc (entries s d)) (cut name) none) t ∨
      ∃ n, r = some n ∧ n ≠ DESIZE ∧ entries t d = entries s d) (fun e => e = .noInodes)
  empty : Runs (isdirempty sb d) (s.locked d)
    (fun b _ => b = true ↔ ∀ n, n ≠ cut Fs.dot → n ≠ cut Fs.dotdot → assoc (entries s d) n = none) (fun _ => False)

section Facts

variable (hdir : (s.node d).type = .dir) (hw : Whole16 s d)

include hdir hw

theorem allows_dir {E : Panic → Prop} (hE : E .noInodes) : Allows E s d :=
  ⟨hE, fun hc => absurd hdir hc, fun hc => absurd hw hc, fun hc => absurd hw hc⟩

section

variable (h : Hold sb base rs ls s) (hd : d ∈ ls) (hu : Unique (entries s d))

include h hd hu

theorem Hold.sees :
    Sees sb d (assoc (entries s d)) s := by
  intro name
  refine h.dirlookup hd (allows_dir hdir hw rfl) (fun _ habs => ?_) (fun ip j off _ hfound _ => ?_)
  · exact (assoc_absent (habs hw)).symm
  · exact ((assoc_of_names hu).mpr ⟨j, (hfound hw).2⟩).symm

theorem Hold.link_map {inum : Nat}
    (h0 : inum ≠ 0) (hlt : inum < 65536) :
    Runs (Fs.dirlink sb d name inum) s
      (fun r t => r = 0 ∧ assoc (entries s d) (cut name) = none ∧
          Sees sb d (update (assoc (entries s d)) (cut name) (some inum)) t ∨
        r = -1 ∧ entries t d = entries s d) (fun e => e = .noInodes) := by
  refine h.dirlink hd (allows_dir hdir hw rfl) (fun r t hlink ht => ?_)
  rcases hlink.result with ⟨rfl, hdone⟩ | ⟨rfl, hsame⟩
  · obtain ⟨hwt, habs, i, hle, hfree, hplace⟩ := hdone hw
    rw [decode_encode hlt] at hplace
    have hnone := assoc_absent habs
    have hnone' : assoc (entries s d) (cut (strncpy DIRSIZ name)) = none := by
      rw [cut_strncpy]
      exact hnone
    refine .inl ⟨rfl, hnone, ?_⟩
    have hmap := assoc_link (x := ⟨inum, strncpy DIRSIZ name⟩) hu ⟨hle, hfree⟩ h0 hnone'
    rw [cut_strncpy, ← hplace] at hmap
    rw [← hmap]
    refine ht.sees (by rw [hlink.type, hdir]) hwt hd ?_
    rw [hplace]
    exact unique_link hu ⟨hle, hfree⟩ hnone'
  · exact .inr ⟨rfl, (hsame hw).entries (by rw [hdir]; nofun)⟩

theorem Hold.remove_map :
    Runs (removeEntry sb d name) s
      (fun r t => r = none ∧ assoc (entries s d) (cut name) = none ∧ entries t d = entries s d ∨
        r = some DESIZE ∧ assoc (entries s d) (cut name) ≠ none ∧
          Sees sb d (update (assoc (entries s d)) (cut name) none) t ∨
        ∃ n, r = some n ∧ n ≠ DESIZE ∧ entries t d = entries s d) (fun e => e = .noInodes) := by
  unfold removeEntry
  rw [runs_bind]
  refine h.dirlookup hd (allows_dir hdir hw rfl) (fun _ habs => ?_) (fun ip j off _ hfound hgot => ?_)
  · exact .inl ⟨rfl, assoc_absent (habs hw), rfl⟩
  · obtain ⟨rfl, hn⟩ := hfound hw
    have hq : Quiet s (s.got ip) := got_quiet
    have hent : entries (s.got ip) d = entries s d := (hq.like d).entries (by rw [hdir]; nofun)
    dsimp only
    rw [runs_bind]
    refine hgot.clear hd ((hq.like d).whole hw) (fun r t hclear ht => ?_)
    rw [runs_pure]
    rcases hclear.result with ⟨rfl, hwt, hplace⟩ | ⟨hr, hlike⟩
    · rw [hent] at hplace
      have hsome := (assoc_of_names hu).mpr ⟨j, hn⟩
      obtain ⟨h0, de, hj, rfl, hcut⟩ := hn
      refine .inr (.inl ⟨rfl, by rw [hsome]; nofun, ?_⟩)
      have hmap := assoc_clear hu hj h0 (show noEntry.inum = 0 from rfl)
      rw [hcut, ← hplace] at hmap
      rw [← hmap]
      refine ht.sees ?_ hwt hd ?_
      · rw [hclear.type, (hq.like d).type, hdir]
      · rw [hplace]
        exact unique_clear hu hj rfl
    · refine .inr (.inr ⟨r, rfl, hr, ?_⟩)
      rw [hlike.entries (by rw [(hq.like d).type, hdir]; nofun), hent]

end

end Facts

theorem Dirs.dirMap (hs : Dirs base s) (h : Rest sb base s) (hdir : (s.node d).type = .dir) : DirMap sb s d := by
  have hfree : (s.node d).type ≠ .free := by
    rw [hdir]
    nofun
  obtain ⟨hhold, halike⟩ := h.locked hfree
  have hent := (halike d).entries hfree
  have hok := hs.ok d hdir
  have hdir' : ((s.locked d).node d).type = .dir := by
    rw [(halike d).type]
    exact hdir
  have hw' := (halike d).whole (hs.whole d hdir)
  have hu' : Unique (entries (s.locked d) d) := by
    rw [hent]
    exact hok.unique
  have hmem : d ∈ [d] := mem_cons_self
  refine ⟨hok.unique, hok.dot, hok.dotdot, ?_, fun name inum h0 hlt => ?_, fun name _ _ => ?_, ?_⟩
  · rw [← hent]
    exact hhold.sees hdir' hw' hmem hu'
  · rw [← hent]
    exact hhold.link_map hdir' hw' hmem hu' (by omega) hlt
  · rw [← hent]
    exact hhold.remove_map hdir' hw' hmem hu'
  · refine hhold.isdirempty hmem (fun hc => absurd hw' hc) (fun b hb => ?_)
    rw [hb hw', hent]
    exact hok.empty_iff

end Maps

section Runs

inductive DirOp where
  | dirlink (dp : Nat) (name : List Byte) (inum : Nat)
  | unlink (cwd : Nat) (path : List Byte)
  | create (cwd : Nat) (path : List Byte) (type : Kind) (major minor : Int)

def dirOp (sb : Super) : DirOp → M Int
  | .dirlink dp name inum => do
    beginOp
    iget dp
    ilock dp
    let r ← dirlink sb dp name inum
    iunlockput dp
    endOp
    pure r
  | .unlink cwd path => sysUnlink sb cwd path
  | .create cwd path type major minor => sysMake sb cwd path type major minor

def dirStep (sb : Super) : Step State DirOp := fun s a =>
  match dirOp sb a s with
  | .ok (_, t) => some t
  | .error _ => none

/-- Inode numbers are in 1..65535, and a process has its working directory in
the inode table. -/
def DirValid (s : State) : DirOp → Prop
  | .dirlink _ _ inum => 0 < inum ∧ inum < 65536
  | .unlink cwd _ => 0 < refs s cwd
  | .create cwd _ _ _ _ => 0 < refs s cwd

theorem dirOp_dirs (hs : Dirs base s) (h : Rest sb base s) {a : DirOp} (ha : DirValid s a) :
    Runs (dirOp sb a) s (fun _ t => Rest sb base t ∧ Dirs base t) (fun _ => True) := by
  cases a with
  | dirlink dp name inum =>
    rw [dirOp, runs_bind, runs_beginOp, runs_bind]
    refine h.beginOp.iget benign_true (fun t hq ht => ?_)
    rw [runs_bind]
    refine ht.ilock (.inl mem_cons_self) (fun _ => trivial) (fun u hq' _ hu => ?_)
    have hsu : Dirs base u := (hq.alike.trans hq'.alike).fewer.dirs (hs.outstanding _)
    rw [runs_bind]
    refine hu.dirlink mem_cons_self (benign_true.allows _ _) (fun r v hlink hv => ?_)
    have hsv := hlink.dirs hsu ha.2
    rw [runs_bind]
    refine hv.iunlockput [] .rfl nofun (fun w hw h' => ?_)
    rw [runs_bind, runs_endOp]
    exact hv.lastPut hsv hw h'
  | unlink cwd path => exact hs.sysUnlink h (h.2 cwd ▸ ha)
  | create cwd path type major minor => exact hs.sysMake h (h.2 cwd ▸ ha)

theorem directories_are_maps (r : Run (dirStep sb)) (h0 : Sound sb (r.state 0))
    (hd : Dirs (refs (r.state 0)) (r.state 0)) (hr : r.Meets DirValid) :
    ∀ i ≤ r.length, ∀ d, ((r.state i).node d).type = .dir → DirMap sb (r.state i) d := by
  intro i hi d hdir
  have hall : Rest sb (refs (r.state 0)) (r.state i) ∧ Dirs (refs (r.state 0)) (r.state i) := by
    refine r.invariant hr (I := fun s => Rest sb (refs (r.state 0)) s ∧ Dirs (refs (r.state 0)) s)
      ⟨⟨h0, fun _ => rfl⟩, hd⟩ (fun s a t hs ha hstep => ?_) i hi
    unfold dirStep at hstep
    split at hstep
    · rename_i hx
      exact some.inj hstep ▸ (dirOp_dirs hs.2 hs.1 ha).ok hx
    · cases hstep
  exact hall.2.dirMap hall.1 hdir

theorem rootSys_node : rootSys.fs.node k =
    if k = 1 then ⟨.dir, 0, 0, 1, 32, update (fun _ => 0) 0 4⟩ else blank .free := disk_node

theorem rootSys_dir (h : (rootSys.fs.node k).type ≠ .free) : k = 1 := by
  by_contra hk
  rw [rootSys_node, if_neg hk] at h
  exact h rfl

theorem rootSys_dirs : Dirs (refs rootSys.fs) rootSys.fs := by
  have hone : ∀ d, (rootSys.fs.node d).type = .dir → d = 1 := fun d hd => rootSys_dir (by rw [hd]; rintro ⟨⟩)
  have hent : entries rootSys.fs 1 = [⟨1, strncpy DIRSIZ dot⟩, ⟨1, strncpy DIRSIZ dotdot⟩] := by decide +kernel
  refine ⟨fun d hd => ?_, fun d hd => ?_, fun k hk => ?_, fun k hk => ?_⟩
  · rw [hone d hd, Whole16, rootSys_node]
    decide
  · rw [hone d hd, hent]
    exact DirOk.new Nat.one_ne_zero Nat.one_ne_zero
  · rw [rootSys_dir hk]
    decide
  · have hk1 : k = 1 := by
      by_contra hne
      simp [refs, rootSys, disk, hne] at hk
    rw [hk1, rootSys_node]
    rintro ⟨⟩

instance : Inhabited DirOp := ⟨.unlink 0 []⟩

def makeLinkUnlink : Run (dirStep tiny) :=
  Run.ofExec (dirStep tiny) rootSys.fs
    [.create 1 [47, 97] .dir 0 0, .dirlink 2 [98] 1, .create 1 [47, 99] .file 0 0, .unlink 1 [47, 99]]
    (by decide +kernel)

theorem directories_are_maps_makeLinkUnlink :
    assoc (entries (makeLinkUnlink.state 2) 2) [98] = some 1 ∧ DirMap tiny (makeLinkUnlink.state 4) 2 := by
  have hv : makeLinkUnlink.Meets DirValid := by
    intro i hi
    have hi : i < 4 := hi
    have hcases : i = 0 ∨ i = 1 ∨ i = 2 ∨ i = 3 := by omega
    rcases hcases with rfl | rfl | rfl | rfl
    · change 0 < refs (makeLinkUnlink.state 0) 1
      decide +kernel
    · change 0 < 1 ∧ 1 < 65536
      decide
    · change 0 < refs (makeLinkUnlink.state 2) 1
      decide +kernel
    · change 0 < refs (makeLinkUnlink.state 3) 1
      decide +kernel
  exact ⟨by decide +kernel,
    directories_are_maps makeLinkUnlink (disk_sound nofun (by decide)) rootSys_dirs hv 4 (by decide) 2
      (by decide +kernel)⟩

end Runs

end Xv6Rcu.Fs

import Xv6Rcu.FsCalls

namespace Xv6Rcu.Fs

open Exec List

variable {sb : Super} {base : Nat → Nat} {rs ls : List Nat} {s t u v : State} {k dp ip i j : Nat}
  {name : List Byte} {type : Kind} {major minor : Int} {E : Panic → Prop}

section Entries

theorem entries_of_bytes (hz : (t.node k).size = (s.node k).size) (hb : ∀ q, fileByte t k q = fileByte s k q) :
    entries t k = entries s k ∧ (Whole16 s k → Whole16 t k) := by
  constructor
  · unfold entries
    rw [hz]
    refine map_congr_left (fun i _ => ?_)
    unfold dirent
    rw [slice_congr (fun b _ => hb _)]
  · intro hw
    rw [Whole16, hz]
    exact hw

theorem Like.whole (h : Like s t k) (hw : Whole16 s k) : Whole16 t k := by
  rw [Whole16, h.size]
  exact hw

theorem entries_empty (h : (s.node k).size = 0) : entries s k = [] := by
  unfold entries
  rw [h]
  rfl

def FreeSlot (l : List Dirent) (i : Nat) : Prop := i ≤ l.length ∧ ∀ de, l[i]? = some de → de.inum = 0

theorem FreeSlot.ne {l : List Dirent} {de : Dirent} (h : FreeSlot l i) (hj : l[j]? = some de) (h0 : de.inum ≠ 0) :
    j ≠ i := by
  rintro rfl
  exact h0 (h.2 de hj)

def noEntry : Dirent := ⟨0, List.replicate DIRSIZ 0⟩

structure Cleared (dp i : Nat) (s : State) (r : Int) (t : State) : Prop where
  like : ∀ j, j ≠ dp → Like s t j
  type : (t.node dp).type = (s.node dp).type
  nlink : (t.node dp).nlink = (s.node dp).nlink
  result : r = DESIZE ∧ Whole16 t dp ∧ entries t dp = place (entries s dp) i noEntry ∨ r ≠ DESIZE ∧ Like s t dp

theorem Hold.clear {Q : Int → State → Prop} (h : Hold sb base rs ls s) (hd : dp ∈ ls) (hw : Whole16 s dp)
    (hQ : ∀ r t, Cleared dp i s r t → Hold sb base rs ls t → Q r t) :
    Runs (Fs.writei sb dp (.kernel (List.replicate DESIZE 0)) (DESIZE * i) DESIZE) s Q E := by
  have hlen : (List.replicate DESIZE (0 : Byte)).length = DESIZE := length_replicate
  refine (writeEntry_spec h.sound (h.loaded hd) h.outstanding hlen).safe ?_
  rintro r t ⟨htouch, htype, hnlink, ⟨rfl, hstart, hsize, hbytes⟩ | ⟨hr, hlike⟩⟩
  · obtain ⟨hwt, -, hplace⟩ := entries_place hlen hw hstart hsize hbytes
    exact hQ _ t ⟨htouch.like, htype, hnlink, .inl ⟨rfl, hwt, hplace⟩⟩ (h.touch htouch)
  · exact hQ r t ⟨htouch.like, htype, hnlink, .inr ⟨hr, hlike⟩⟩ (h.touch htouch)

end Entries

section Create

/-- What `create` has done to the new inode and to its directory when all went
well. -/
structure Grown (type : Kind) (dp ip : Nat) (name : List Byte) (s u : State) : Prop where
  like : ∀ j, j ≠ ip → j ≠ dp → Like s u j
  itype : (u.node ip).type = type
  inlink : (u.node ip).nlink = 1
  ientries : type = .dir → Whole16 u ip ∧
    entries u ip = [⟨ip, strncpy DIRSIZ dot⟩, ⟨dp, strncpy DIRSIZ dotdot⟩]
  dtype : (u.node dp).type = (s.node dp).type
  dnlink : (u.node dp).nlink = if type = .dir then short ((s.node dp).nlink + 1) else (s.node dp).nlink
  dwhole : Whole16 u dp
  absent : ∀ j inum, ¬ Names s dp name j inum
  slot : ∃ i, FreeSlot (entries s dp) i ∧ entries u dp = place (entries s dp) i ⟨ip, strncpy DIRSIZ name⟩

structure Undone (ip : Nat) (s u : State) : Prop where
  like : ∀ j, j ≠ ip → Like s u j
  free : (u.node ip).type = .free

theorem Hold.createUndo {Q : Option Nat → State → Prop} (h : Hold sb base (ip :: dp :: rs) [ip, dp] t)
    (hne : ip ≠ dp) (hb : base ip = 0) (hrs : ip ∉ rs) (hlike : ∀ j, j ≠ ip → Like s t j)
    (hQ : ∀ u v, Undone ip s u → Hold sb base (dp :: rs) [] u → Put sb dp u v → Hold sb base rs [] v → Q none v) :
    Runs (Fs.createFail dp ip) t Q E := by
  unfold Fs.createFail
  rw [runs_bind]
  refine h.setMeta (g := fun d => { d with nlink := 0 }) mem_cons_self (fun _ => rfl) (fun _ => rfl)
    (fun _ => rfl) (fun t' htouch hnode _ h' => ?_)
  rw [runs_bind]
  refine h'.iunlockput [] .rfl nofun (fun u hput hu => ?_)
  have hundone : Undone ip s u := by
    refine ⟨fun j hj => ((hlike j hj).trans (htouch.like j hj)).trans (hput.like j hj), ?_⟩
    rcases hput.ends with ⟨-, hnot⟩ | ⟨-, -, -, hfree⟩
    · refine absurd ⟨h'.loaded mem_cons_self, ?_, by rw [hnode]⟩ hnot
      rw [h'.refs, hb, count_cons_self, count_eq_zero_of_not_mem (fun hm => ?_)]
      rcases mem_cons.mp hm with hm | hm
      · exact hne hm
      · exact hrs hm
    · exact hfree
  rw [runs_bind]
  exact hu.iunlockput [] .rfl nofun (fun v hput hv => hQ u v hundone hu hput hv)

theorem place_nil (de : Dirent) : place [] i de = [de] := rfl

theorem Hold.createDots (h : Hold sb base (ip :: dp :: rs) [ip, dp] s) (hE : Benign E)
    (hsize : (s.node ip).size = 0) (hip : ip < 65536) (hip0 : ip ≠ 0) (hdp : dp < 65536) :
    Runs (do
      let r ← Fs.dirlink sb ip dot ip
      if r < 0 then pure false
      else do
        let r ← Fs.dirlink sb ip dotdot dp
        pure (decide (¬ r < 0)) : M Bool) s
      (fun ok t => Hold sb base (ip :: dp :: rs) [ip, dp] t ∧ (∀ j, j ≠ ip → Like s t j) ∧
        (t.node ip).type = (s.node ip).type ∧ (t.node ip).nlink = (s.node ip).nlink ∧
        (ok = true → Whole16 t ip ∧ entries t ip = [⟨ip, strncpy DIRSIZ dot⟩, ⟨dp, strncpy DIRSIZ dotdot⟩])) E := by
  have hmem : ip ∈ [ip, dp] := mem_cons_self
  have hwhole : Whole16 s ip := by
    rw [Whole16, hsize]
    exact Nat.dvd_zero _
  have hnil := entries_empty hsize
  rw [runs_bind]
  refine h.dirlink hmem (hE.allows _ _) (fun r t hlink ht => ?_)
  rw [runs_ite]
  constructor
  · intro _
    exact ⟨ht, hlink.like, hlink.type, hlink.nlink, (by intros; contradiction)⟩
  · intro hr
    rcases hlink.result with ⟨-, hdone⟩ | ⟨rfl, -⟩
    · obtain ⟨htwhole, -, i, -, -, hentries⟩ := hdone hwhole
      rw [hnil, place_nil, decode_encode hip] at hentries
      rw [runs_bind]
      refine ht.dirlink hmem (hE.allows _ _) (fun r' u hlink' hu => ?_)
      refine ⟨hu, fun j hj => (hlink.like j hj).trans (hlink'.like j hj), hlink'.type.trans hlink.type,
        hlink'.nlink.trans hlink.nlink, fun hok => ?_⟩
      rcases hlink'.result with ⟨-, hdone'⟩ | ⟨rfl, -⟩
      · obtain ⟨huwhole, -, i', hle, hfree, hentries'⟩ := hdone' htwhole
        rw [hentries, decode_encode hdp] at hentries'
        rw [hentries] at hle hfree
        -- Slot 0 has the entry for the directory itself.
        have hi : i' = 1 := by
          have h0 : i' ≠ 0 := by
            rintro rfl
            exact hip0 (hfree _ rfl)
          have hle : i' ≤ 1 := hle
          omega
        subst hi
        exact ⟨huwhole, hentries'⟩
      · exact absurd hok (by decide)
    · exact absurd (by decide) hr

theorem Hold.createNew_grown {Q : Option Nat → State → Prop} (h : Hold sb base (ip :: dp :: rs) [dp] s)
    (hE : Benign E) (hne : ip ≠ dp) (hb : base ip = 0) (hrs : ip ∉ rs) (hblank : s.node ip = blank type)
    (hfree : type = .free → E .noType) (hwhole : Whole16 s dp) (hip : ip < 65536) (hip0 : ip ≠ 0) (hdp : dp < 65536)
    (hnone : ∀ u v, Undone ip s u → Hold sb base (dp :: rs) [] u → Put sb dp u v → Hold sb base rs [] v → Q none v)
    (hsome : ∀ u v, Grown type dp ip name s u → Hold sb base (ip :: dp :: rs) [ip, dp] u → Put sb dp u v →
      Hold sb base (ip :: rs) [ip] v → Q (some ip) v) :
    Runs (Fs.createNew sb dp ip name type major minor) s Q E := by
  have hmip : ip ∈ [ip, dp] := mem_cons_self
  have hmdp : dp ∈ [ip, dp] := mem_cons_of_mem _ mem_cons_self
  unfold Fs.createNew
  rw [runs_bind]
  refine h.ilock (.inl mem_cons_self) (fun hf => hfree (by rw [hblank] at hf; exact hf))
    (fun t1 hq1 htype h1 => ?_)
  have htype : type ≠ .free := by
    rw [hblank] at htype
    exact htype
  rw [runs_bind]
  refine h1.setMeta (g := fun d => { d with major := major, minor := minor, nlink := 1 }) hmip (fun _ => rfl)
    (fun _ => rfl) (fun _ => rfl) (fun t2 htouch2 hnode2 _ h2 => ?_)
  have hnode : t2.node ip = { blank type with major := major, minor := minor, nlink := 1 } := by
    rw [hnode2, hq1.node, hblank]
  have hlike2 : ∀ j, j ≠ ip → Like s t2 j := fun j hj => (hq1.like j).trans (htouch2.like j hj)
  rw [runs_bind]
  refine Runs.mono (Q := fun ok t3 => Hold sb base (ip :: dp :: rs) [ip, dp] t3 ∧ (∀ j, j ≠ ip → Like s t3 j) ∧
    (t3.node ip).type = type ∧ (t3.node ip).nlink = 1 ∧ (ok = true → type = .dir → Whole16 t3 ip ∧
      entries t3 ip = [⟨ip, strncpy DIRSIZ dot⟩, ⟨dp, strncpy DIRSIZ dotdot⟩])) ?_ ?_ (fun _ he => he)
  · rw [runs_ite]
    constructor
    · intro hdir
      refine (h2.createDots hE (by rw [hnode]; rfl) hip hip0 hdp).mono ?_ (fun _ he => he)
      rintro ok t3 ⟨h3, hlike3, htype3, hnlink3, hdone⟩
      refine ⟨h3, fun j hj => (hlike2 j hj).trans (hlike3 j hj), ?_, ?_, fun hok _ => hdone hok⟩
      · rw [htype3, hnode]
        rfl
      · rw [hnlink3, hnode]
    · intro hdir
      exact ⟨h2, hlike2, by rw [hnode]; rfl, by rw [hnode], fun _ hd => absurd hd hdir⟩
  · rintro ok t3 ⟨h3, hlike3, htype3, hnlink3, hdone⟩
    rw [runs_ite]
    refine ⟨fun _ => h3.createUndo hne hb hrs hlike3 hnone, fun hok => ?_⟩
    have hok : ok = true := by simpa using hok
    have hldp := hlike3 dp (Ne.symm hne)
    have hdpfree : (s.node dp).type ≠ .free := by
      rw [← hldp.type, (h3.loaded hmdp).node]
      exact (h3.loaded hmdp).type
    have hent3 := hldp.entries hdpfree
    have hwhole3 := hldp.whole hwhole
    rw [runs_bind]
    refine h3.dirlink hmdp (hE.allows _ _) (fun r t4 hlink h4 => ?_)
    rcases hlink.result with ⟨rfl, hlinked⟩ | ⟨rfl, hsame⟩
    · obtain ⟨hwhole4, habsent, i, hle, hslot, hplace⟩ := hlinked hwhole3
      rw [if_neg (by decide), runs_bind]
      have hgrown4 : ∀ u, (∀ j, j ≠ dp → Like t4 u j) → (u.node dp).type = (t4.node dp).type →
          (u.node dp).nlink = (if type = .dir then short ((s.node dp).nlink + 1) else (s.node dp).nlink) →
          entries u dp = entries t4 dp → Whole16 u dp → Grown type dp ip name s u := by
        intro u hlike hut hun hue huw
        have hliket4 := hlink.like ip hne
        have hlikeip := hliket4.trans (hlike ip hne)
        refine ⟨fun j hj hjd => ?_, ?_, ?_, fun hdir => ?_, ?_, hun, huw, ?_, ⟨i, ⟨?_, ?_⟩, ?_⟩⟩
        · exact ((hlike3 j hj).trans (hlink.like j hjd)).trans (hlike j hjd)
        · rw [hlikeip.type, htype3]
        · rw [hlikeip.nlink, hnlink3]
        · obtain ⟨hw, he⟩ := hdone hok hdir
          refine ⟨hlikeip.whole hw, ?_⟩
          rw [hlikeip.entries (by rw [htype3]; exact htype), he]
        · rw [hut, hlink.type, hldp.type]
        · intro j inum hn
          refine habsent j inum ?_
          unfold Names at *
          rw [hent3]
          exact hn
        · rw [← hent3]
          exact hle
        · rw [← hent3]
          exact hslot
        · rw [hue, hplace, hent3, decode_encode hip]
      refine Runs.mono (Q := fun _ u => Hold sb base (ip :: dp :: rs) [ip, dp] u ∧ Grown type dp ip name s u) ?_ ?_
        (fun _ he => he)
      · rw [runs_when]
        constructor
        · intro hdir
          refine h4.setMeta (g := fun d => { d with nlink := short (d.nlink + 1) }) hmdp (fun _ => rfl) (fun _ => rfl)
            (fun _ => rfl) (fun u htouch hnodeu hbytes hu => ⟨hu, ?_⟩)
          obtain ⟨hent, hwh⟩ := entries_of_bytes (by rw [hnodeu]) hbytes
          refine hgrown4 u htouch.like (by rw [hnodeu]) ?_ hent (hwh hwhole4)
          rw [if_pos hdir, hnodeu, hlink.nlink, hldp.nlink]
        · intro hdir
          refine ⟨h4, hgrown4 t4 (fun j _ => Like.refl t4 j) rfl ?_ rfl hwhole4⟩
          rw [if_neg hdir, hlink.nlink, hldp.nlink]
      · rintro _ u ⟨hu, hgrown⟩
        rw [runs_bind]
        refine hu.iunlockput [ip] (List.Perm.swap dp ip rs) (fun j hj => ?_) (fun v hput hv => ?_)
        · rw [mem_singleton] at hj
          exact ⟨hj ▸ hmip, .inl (hj ▸ mem_cons_self)⟩
        · exact hsome u v hgrown hu hput hv
    · rw [if_pos (by decide)]
      refine h4.createUndo hne hb hrs (fun j hj => ?_) hnone
      by_cases hjd : j = dp
      · subst hjd
        exact hldp.trans (hsame hwhole3)
      · exact (hlike3 j hj).trans (hlink.like j hjd)

end Create

end Xv6Rcu.Fs

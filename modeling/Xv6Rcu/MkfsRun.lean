import Xv6Rcu.FsEntries
import Xv6Rcu.MkfsAppend

namespace Xv6Rcu.Mkfs

open Exec Fs Function List Threads
open Memory (load)

variable {D : Nat → Dinode} {s t : St} {d : Dinode} {k j z : Nat} {l p : List Byte} {c c' : Nat → List Byte}

section Files

theorem Holds.congr {E : Nat → Dinode} (h : Holds D s k l) (htype : (E k).type ≠ .free) (hw : Wide (E k))
    (hu : ∀ q, use (view E t) (k, q) = use (view D s) (k, q))
    (hb : ∀ q, q ≠ NDIRECT → use (view D s) (k, q) ≠ 0 →
      (view E t).buf (use (view D s) (k, q)) = (view D s).buf (use (view D s) (k, q))) : Holds E t k l := by
  refine ⟨htype, hw, fun q => by rw [hu, h.exact], fun i hi => ?_⟩
  obtain ⟨hne, hbyte⟩ := h.content i hi
  rw [blockOf, hu, hb _ (pos_ne _) hne]
  exact ⟨hne, hbyte⟩

theorem Appended.other (h : Appended k p D s l d t) (hj : j ≠ k) {l' : List Byte} (hh : Holds D s j l') :
    Holds (update D k d) t j l' := by
  refine hh.congr ?_ ?_ (fun q => h.extend.others j q hj) (fun q hq hne => h.extend.data j q hj hq hne)
  · rw [update_of_ne hj]
    exact hh.type
  · rw [update_of_ne hj]
    exact hh.wide

theorem update_resize {α : Type} (f : Dinode → α) (hf : f { d with size := z } = f d) (j : Nat) :
    f (update D k { d with size := z } j) = f (update D k d j) := by
  by_cases hj : j = k
  · rw [hj, update_self, update_self, hf]
  · rw [update_of_ne hj, update_of_ne hj]

theorem use_resize : use (view (update D k { d with size := z }) t) = use (view (update D k d) t) := by
  refine use_of_addrs (fun j => ?_) (fun j => ?_) rfl <;> rw [view_node, view_node]
  · exact update_resize Dinode.type rfl j
  · exact update_resize Dinode.addrs rfl j

theorem Wide.resize (h : Wide d) (hz : z < 2 ^ 32) : Wide { d with size := z } :=
  ⟨h.major, h.minor, h.nlink, hz, h.addrs, h.rest⟩

theorem Holds.resize (h : Holds (update D k d) t j l) (hz : z < 2 ^ 32) :
    Holds (update D k { d with size := z }) t j l := by
  refine h.congr ?_ ?_ (fun q => by rw [use_resize]) (fun q _ _ => rfl)
  · rw [update_resize Dinode.type rfl j]
    exact h.type
  · have := h.wide
    by_cases hj : j = k
    · rw [hj, update_self] at this ⊢
      exact this.resize hz
    · rwa [update_of_ne hj] at this ⊢

theorem Appended.size_le (h : Appended k p D s l d t) : (l ++ p).length ≤ MAXFILE * BSIZE := by
  by_contra hbig
  have hne := h.holds.content.blocks (i := MAXFILE) (by omega)
  have hp : MAXFILE < pos MAXFILE := by decide
  exact hne (addrAt_out hp)

end Files

section Invariant

def front : Memory.Mem := overlay (fun _ => 0) BSIZE BSIZE superblock

structure Made (s : St) (k : Nat) (l : List Byte) : Prop where
  holds : Holds (nodes s) s k l
  size : (nodes s k).size = l.length
  nlink : (nodes s k).nlink = 1
  type : (nodes s k).type = if k = ROOTINO then .dir else .file

theorem Made.of_node (h : Made s k l) (hh : Holds (nodes t) t k l) (hn : nodes t k = nodes s k) : Made t k l :=
  ⟨hh, hn ▸ h.size, hn ▸ h.nlink, hn ▸ h.type⟩

structure Inv (s : St) (c : Nat → List Byte) : Prop where
  base : Base s
  front : ∀ x < inodestart * BSIZE, s.img x = front x
  room : 0 < s.freeinode ∧ s.freeinode ≤ ninodeblocks * IPB
  tally : Tally sb.nmeta sb.size (view (nodes s) s).bits (use (view (nodes s) s))
  free : ∀ k, k = 0 ∨ s.freeinode ≤ k → (nodes s k).type = .free
  made : ∀ k, 0 < k → k < s.freeinode → Made s k (c k)

theorem Inv.congr (h : Inv s c) (hc : ∀ k, 0 < k → k < s.freeinode → c' k = c k) : Inv s c' :=
  ⟨h.base, h.front, h.room, h.tally, h.free, fun k h0 hk => hc k h0 hk ▸ h.made k h0 hk⟩

theorem bmapstart_le : bmapstart * BSIZE ≤ nmeta * BSIZE := by decide

def St.setInode (s : St) (k : Nat) (d : Dinode) : St := { s with img := overlay s.img (inodePos k) 64 (inodeBytes d) }

section SetInode

variable (hk : k < ninodeblocks * IPB)

include hk

theorem view_setInode : view D (s.setInode k d) = view D s := by
  refine view_congr rfl (fun x hx => overlay_out ?_)
  have h1 := inodePos_range hk
  have h2 := bmapstart_le
  omega

theorem Holds.setInode (h : Holds D s j l) : Holds D (s.setInode k d) j l :=
  h.congr h.type h.wide (fun q => by rw [view_setInode hk]) (fun q _ _ => by rw [view_setInode hk])

theorem Base.setInode (h : Base s) : Base (s.setInode k d) := by
  refine ⟨h.len, h.lo, h.hi, fun x hx => ?_⟩
  have h1 := inodePos_range hk
  have h2 := bmapstart_le
  have h3 := Nat.mul_le_mul_right BSIZE h.lo
  change s.freeblock * BSIZE ≤ x at hx
  have hout : overlay s.img (inodePos k) 64 (inodeBytes d) x = s.img x := overlay_out (by omega)
  exact hout.trans (h.zero x hx)

theorem front_setInode {x : Nat} (hx : x < inodestart * BSIZE) : (s.setInode k d).img x = s.img x := by
  have h1 := inodePos_range hk
  exact overlay_out (by omega)

end SetInode

theorem iappend_spec (h : Inv s c) (h0 : 0 < k) (hk : k < s.freeinode) :
    Runs (iappend k p) s
      (fun _ t => Inv t (update c k (c k ++ p)) ∧ t.freeinode = s.freeinode ∧
        t.freeblock + nblocks (c k).length = s.freeblock + nblocks (c k ++ p).length)
      (fun _ => ¬ Fits s (c k) p) := by
  have hk' : k < ninodeblocks * IPB := lt_of_lt_of_le hk h.room.2
  have hm := h.made k h0 hk
  unfold iappend
  rw [runs_bind]
  refine Runs.of_eq (rinode_eq h.base.len hk') ?_
  rw [runs_bind, hm.size]
  refine (iappendLoop_spec h.base h.tally hm.holds le_rfl).mono ?_ (fun _ => id)
  rintro ⟨d, off⟩ t ⟨rfl, ha⟩
  refine Runs.of_eq (winode_eq ha.base.len hk') ?_
  dsimp only
  change Inv (t.setInode k { d with size := (c k ++ p).length }) _ ∧ _
  have hsz : (c k ++ p).length < 2 ^ 32 := lt_of_le_of_lt ha.size_le (by decide)
  have hwide : Wide { d with size := (c k ++ p).length } := by
    have := ha.holds.wide
    rw [update_self] at this
    exact this.resize hsz
  have hD : nodes t = nodes s := nodes_congr (fun x _ hx => ha.low x (lt_of_lt_of_le hx bmapstart_le))
  have hN : nodes (t.setInode k { d with size := (c k ++ p).length }) =
      update (nodes s) k { d with size := (c k ++ p).length } := by
    rw [← hD]
    exact nodes_winode hk' hwide
  have hfields : ∃ f, d = { nodes s k with addrs := f } := by
    obtain ⟨f, hf⟩ := ha.extend.copy
    have : update (nodes s) k d k = { nodes s k with addrs := f } := congrArg Inode.copy hf
    rw [update_self] at this
    exact ⟨f, this⟩
  refine ⟨⟨ha.base.setInode hk', fun x hx => ?_, ?_, ?_, fun j hj => ?_, fun j hj0 hj => ?_⟩, ha.inum, ha.count⟩
  · rw [front_setInode hk' hx, ha.low x (lt_of_lt_of_le hx (by decide)), h.front x hx]
  · change 0 < t.freeinode ∧ t.freeinode ≤ _
    rw [ha.inum]
    exact h.room
  · rw [hN, view_setInode hk', use_resize]
    exact ha.extend.tally
  · change j = 0 ∨ t.freeinode ≤ j at hj
    rw [ha.inum] at hj
    rw [hN, update_of_ne (by omega)]
    exact h.free j hj
  · change j < t.freeinode at hj
    rw [ha.inum] at hj
    have hmj := h.made j hj0 hj
    by_cases hjk : j = k
    · subst hjk
      rw [update_self]
      obtain ⟨f, rfl⟩ := hfields
      refine ⟨?_, ?_, ?_, ?_⟩ <;> rw [hN]
      · exact (ha.holds.resize hsz).setInode hk'
      · rw [update_self]
      · rw [update_self]
        exact hmj.nlink
      · rw [update_self]
        exact hmj.type
    · rw [update_of_ne hjk]
      refine hmj.of_node ?_ (by rw [hN, update_of_ne hjk])
      rw [hN]
      exact ((ha.other hjk hmj.holds).resize hsz).setInode hk'

theorem use_new (hfree : (D k).type = .free) (hz : d.addrs = fun _ => 0) :
    use (view (update D k d) t) = use (view D t) := by
  funext ⟨j, q⟩
  by_cases hj : j = k
  · subst hj
    have hnode : (view (update D j d) t).node j = d := by
      rw [view_node, update_self]
    have h1 : use (view D t) (j, q) = 0 := addrAt_free hfree
    rw [h1, use, hnode, addrAt, hz]
    simp
  · rw [use, use, view_node, view_node, update_of_ne hj]
    rfl

theorem ialloc_spec (h : Inv s c) (type : Kind) (htype : type = if s.freeinode = ROOTINO then .dir else .file)
    (hroom : s.freeinode < ninodeblocks * IPB) :
    Runs (ialloc type) s
      (fun i t => i = s.freeinode ∧ Inv t (update c s.freeinode []) ∧
        t.freeinode = s.freeinode + 1 ∧ t.freeblock = s.freeblock)
      (fun _ => False) := by
  unfold ialloc
  rw [runs_bind, runs_look, runs_bind, runs_alter, runs_bind]
  refine Runs.of_eq (winode_eq (s := { s with freeinode := s.freeinode + 1 }) h.base.len hroom) ?_
  rw [runs_pure]
  refine ⟨rfl, ?_, rfl, rfl⟩
  have hne : type ≠ .free := by
    rw [htype]
    split <;> decide
  have hwide : Wide { blank type with nlink := 1 } :=
    ⟨by simp [blank], by simp [blank], by simp, by simp [blank], by simp [blank], by simp [blank]⟩
  have hfree := h.free s.freeinode (.inr le_rfl)
  have huse : use (view (update (nodes s) s.freeinode { blank type with nlink := 1 }) s) = use (view (nodes s) s) :=
    use_new hfree rfl
  have hbase : Base { s with freeinode := s.freeinode + 1 } := ⟨h.base.len, h.base.lo, h.base.hi, h.base.zero⟩
  change Inv (({ s with freeinode := s.freeinode + 1 } : St).setInode s.freeinode { blank type with nlink := 1 }) _
  generalize hu : St.setInode _ s.freeinode { blank type with nlink := 1 } = u
  have hN : nodes u = update (nodes s) s.freeinode { blank type with nlink := 1 } := hu ▸ nodes_winode hroom hwide
  have hv : ∀ E, view E u = view E s := fun E => hu ▸ view_setInode hroom
  have hinum : u.freeinode = s.freeinode + 1 := hu ▸ rfl
  refine ⟨hu ▸ hbase.setInode hroom, fun x hx => ?_, hinum ▸ ⟨Nat.succ_pos _, hroom⟩, ?_, fun j hj => ?_,
    fun j hj0 hj => ?_⟩
  · rw [← hu, front_setInode hroom hx]
    exact h.front x hx
  · rw [hN, hv, huse]
    exact h.tally
  · have := h.room.1
    rw [hN, update_of_ne (by omega)]
    exact h.free j (by omega)
  · by_cases hjk : j = s.freeinode
    · subst hjk
      rw [update_self]
      refine ⟨⟨?_, ?_, fun q => ?_, nofun⟩, ?_, ?_, ?_⟩ <;> rw [hN]
      · rw [update_self]
        exact hne
      · rw [update_self]
        exact hwide
      · have hz : use (view (nodes s) s) (s.freeinode, q) = 0 := addrAt_free hfree
        rw [hv, huse, hz]
        exact iff_of_false (fun hne => hne rfl) (Nat.not_lt_zero _)
      · rw [update_self]
        rfl
      · rw [update_self]
      · rw [update_self]
        exact htype
    · have hm := h.made j hj0 (by omega)
      have hn : nodes u j = nodes s j := by rw [hN, update_of_ne hjk]
      rw [update_of_ne hjk]
      refine hm.of_node (hm.holds.congr ?_ ?_ (fun q => by rw [hN, hv, huse]) (fun q _ _ => by rw [hv]; rfl)) hn
      · rw [hn]
        exact hm.holds.type
      · rw [hn]
        exact hm.holds.wide

end Invariant

section Start

theorem zeroed_inv (hlen : s.len = FSSIZE * BSIZE) (himg : ∀ x, s.img x = front x) (hb : s.freeblock = nmeta)
    (hi : s.freeinode = 1) : Inv s (fun _ => []) := by
  have hfront : ∀ x, 2 * BSIZE ≤ x → s.img x = 0 := by
    intro x hx
    rw [himg, front, overlay_out]
    omega
  have hfree : ∀ k, (nodes s k).type = .free := by
    intro k
    unfold nodes inodeAt
    by_cases hk : k / IPB + inodestart < bmapstart
    · rw [if_pos hk, inodePos_eq]
      have hz : load s.img (inodePos k) 2 = 0 := by
        have h1 : 2 * BSIZE ≤ inodestart * BSIZE := by decide
        have h2 : inodestart * BSIZE ≤ inodePos k := Nat.le_add_right _ _
        rw [load, load, hfront _ (by omega), hfront _ (by omega)]
        rfl
      unfold inodeOf
      dsimp only
      rw [hz]
      rfl
    · rw [if_neg hk]
      rfl
  have huse : ∀ i, use (view (nodes s) s) i = 0 := fun i => addrAt_free (hfree i.1)
  have h46 : nmeta = 46 := rfl
  refine ⟨⟨hlen, by rw [hb], by rw [hb]; decide, fun x hx => hfront x ?_⟩, fun x _ => himg x, ⟨by omega, by rw [hi]; decide⟩, ?_,
    fun k _ => hfree k, fun k h0 hk => by omega⟩
  · rw [hb] at hx
    exact le_trans (by decide) hx
  · refine ⟨fun i j _ hi => absurd (huse i) hi, fun i hi => absurd (huse i) hi, fun b _ => ?_⟩
    change decide (b < s.freeblock) = true ↔ _
    rw [decide_eq_true_eq, hb]
    constructor
    · exact .inl
    · rintro (hlt | ⟨h0, i, hi⟩)
      · exact hlt
      · exact absurd ((huse i).symm.trans hi).symm h0

theorem zero_all : Runs (each (fun i => wsect i (fun _ => 0)) FSSIZE) { start with freeblock := nmeta }
    (fun _ t => t.len = FSSIZE * BSIZE ∧ (∀ x, t.img x = 0) ∧ t.freeblock = nmeta ∧ t.freeinode = 1) (fun _ => False) := by
  refine Runs.each (fun i (t : St) => t.len = i * BSIZE ∧ (∀ x, t.img x = 0) ∧ t.freeblock = nmeta ∧ t.freeinode = 1)
    ⟨(zero_mul BSIZE).symm, fun _ => rfl, rfl, rfl⟩ ?_
  rintro i - t ⟨hlen, himg, hb, hi⟩
  refine ⟨?_, fun x => ?_, hb, hi⟩
  · change max t.len (i * BSIZE + BSIZE) = _
    rw [hlen, Nat.succ_mul]
    exact Nat.max_eq_right (Nat.le_add_right _ _)
  · change overlay t.img (i * BSIZE) BSIZE (fun _ => 0) x = 0
    unfold overlay
    split
    · rfl
    · exact himg x

end Start

section Inputs

variable {f : Input} {files rest : List Input}

def rootEntries (files : List Input) : List Dirent :=
  [⟨ROOTINO, strncpy DIRSIZ dot⟩, ⟨ROOTINO, strncpy DIRSIZ dotdot⟩] ++
    files.mapIdx (fun i f => ⟨i + 2, strncpy DIRSIZ f.name⟩)

def contents (files : List Input) (k : Nat) : List Byte :=
  if k = ROOTINO then (rootEntries files).flatMap encode else (files[k - 2]?.map Input.data).getD []

def total (files : List Input) : Nat :=
  nmeta + nblocks (DESIZE * (files.length + 2)) + (files.map (fun f => nblocks f.data.length)).sum

structure Accepts (files : List Input) : Prop where
  name : ∀ f ∈ files, slash ∉ stripUser f.arg
  size : ∀ f ∈ files, f.data.length ≤ MAXFILE * BSIZE
  total : total files ≤ FSSIZE

theorem encode_length {de : Dirent} (h : de.name.length = DIRSIZ) : (encode de).length = DESIZE := by
  rw [encode, length_cons, length_cons, h]
  rfl

theorem rootEntries_name : ∀ de ∈ rootEntries files, de.name.length = DIRSIZ := by
  intro de hde
  rw [rootEntries, mem_append] at hde
  rcases hde with hde | hde
  · simp only [mem_cons, not_mem_nil, or_false] at hde
    rcases hde with rfl | rfl <;> rfl
  · obtain ⟨i, hi, rfl⟩ := mem_mapIdx.mp hde
    exact strncpy_length _ _

theorem flatMap_encode_length {es : List Dirent} (h : ∀ de ∈ es, de.name.length = DIRSIZ) :
    (es.flatMap encode).length = DESIZE * es.length := by
  induction es with
  | nil => rfl
  | cons de es ih =>
    rw [flatMap_cons, length_append, encode_length (h de mem_cons_self),
      ih (fun e he => h e (mem_cons_of_mem _ he)), length_cons, Nat.mul_succ, add_comm]

theorem rootEntries_length : (rootEntries files).length = files.length + 2 := by
  rw [rootEntries, length_append, length_mapIdx, add_comm]
  rfl

theorem contents_root_length : (contents files ROOTINO).length = DESIZE * (files.length + 2) := by
  rw [contents, if_pos rfl, flatMap_encode_length rootEntries_name, rootEntries_length]

theorem contents_root_snoc : contents (files ++ [f]) ROOTINO =
    contents files ROOTINO ++ encode ⟨files.length + 2, strncpy DIRSIZ f.name⟩ := by
  rw [contents, contents, if_pos rfl, if_pos rfl, rootEntries, rootEntries, mapIdx_append]
  simp only [mapIdx_cons, mapIdx_nil, ← append_assoc, flatMap_append, flatMap_cons,
    flatMap_nil, append_nil, zero_add]

theorem total_snoc (files : List Input) (f : Input) : total (files ++ [f]) + nblocks (DESIZE * (files.length + 2)) =
    total files + nblocks (DESIZE * (files.length + 3)) + nblocks f.data.length := by
  have hlen : (files ++ [f]).length + 2 = files.length + 3 := by simp
  unfold total
  simp only [hlen, map_append, map_cons, map_nil, sum_append, sum_cons, sum_nil]
  omega

theorem total_mono : total files ≤ total (files ++ rest) := by
  unfold total
  have := nblocks_mono (show DESIZE * (files.length + 2) ≤ DESIZE * ((files ++ rest).length + 2) from
    Nat.mul_le_mul_left _ (by rw [length_append]; omega))
  rw [map_append, sum_append]
  omega

theorem appendAll_spec (cs : List (List Byte)) (h : Inv s c) (h0 : 0 < k) (hk : k < s.freeinode) :
    Runs (appendAll k cs) s
      (fun _ t => Inv t (update c k (c k ++ cs.flatten)) ∧ t.freeinode = s.freeinode ∧
        t.freeblock + nblocks (c k).length = s.freeblock + nblocks (c k ++ cs.flatten).length)
      (fun _ => ¬ Fits s (c k) cs.flatten) := by
  induction cs generalizing s c with
  | nil =>
    refine ⟨?_, rfl, ?_⟩
    · rw [flatten_nil, append_nil, update_eq_self]
      exact h
    · rw [flatten_nil, append_nil]
  | cons b cs ih =>
    unfold appendAll
    rw [runs_bind, flatten_cons]
    refine (iappend_spec h h0 hk).mono ?_ ?_
    · rintro _ t ⟨ht, hi, hc⟩
      have hih := ih ht (hi ▸ hk)
      rw [update_self, update_idem, append_assoc] at hih
      refine hih.mono ?_ ?_
      · rintro _ u ⟨hu, hi', hc'⟩
        exact ⟨hu, hi'.trans hi, by omega⟩
      · rintro e hno ⟨h1, h2⟩
        refine hno ⟨?_, ?_⟩
        · rw [append_assoc]
          exact h1
        · rw [append_assoc]
          omega
    · rintro e hno ⟨h1, h2⟩
      have hle : (c k ++ b).length ≤ (c k ++ (b ++ cs.flatten)).length := by
        simp only [length_append]
        omega
      have hmono := nblocks_mono hle
      exact hno ⟨le_trans hle h1, by omega⟩

structure After (files : List Input) (s : St) : Prop where
  inv : Inv s (contents files)
  inum : s.freeinode = files.length + 2
  count : s.freeblock = total files

theorem After.fits (h : After files s) (hlen : files.length ≤ 197) (ha : Accepts (files ++ [f])) (ht : t.freeblock = s.freeblock) :
    Fits t (contents files ROOTINO) (encode ⟨files.length + 2, strncpy DIRSIZ f.name⟩) := by
  have hsum := total_snoc files f
  have htot := ha.total
  have hl : (contents files ROOTINO ++ encode ⟨files.length + 2, strncpy DIRSIZ f.name⟩).length =
      DESIZE * (files.length + 3) := by
    rw [length_append, contents_root_length, encode_length (strncpy_length _ _), ← Nat.mul_succ]
  refine ⟨?_, ?_⟩
  · rw [hl]
    unfold DESIZE DIRSIZ MAXFILE NDIRECT NINDIRECT BSIZE
    omega
  · rw [hl, contents_root_length, ht, h.count]
    omega

theorem addFile_spec (h : After files s) (hlen : files.length ≤ 197) :
    Runs (addFile ROOTINO f) s (fun _ t => After (files ++ [f]) t) (fun _ => ¬ Accepts (files ++ [f])) := by
  have h208 : ninodeblocks * IPB = 208 := rfl
  have hR : ROOTINO = 1 := rfl
  have hi := h.inum
  unfold addFile
  rw [runs_ite]
  refine ⟨fun hs ha => ha.name f (by simp) hs, fun _ => ?_⟩
  rw [runs_bind]
  refine (ialloc_spec h.inv .file (by rw [if_neg (by omega)]) (by omega)).safe ?_
  rintro inum t ⟨rfl, ht, hti, htb⟩
  have hroot : update (contents files) s.freeinode [] ROOTINO = contents files ROOTINO :=
    update_of_ne (by omega) _ _
  unfold appendEntry
  rw [runs_bind]
  refine (iappend_spec ht (k := ROOTINO) (by decide) (by omega)).mono ?_ ?_
  · rintro _ u ⟨hu, hui, huc⟩
    rw [hroot] at hu huc
    have hnew : update (update (contents files) s.freeinode []) ROOTINO
        (contents files ROOTINO ++ encode ⟨s.freeinode, strncpy DIRSIZ f.name⟩) s.freeinode = [] := by
      rw [update_of_ne (by omega), update_self]
    have hrl : (contents files ROOTINO ++ encode ⟨s.freeinode, strncpy DIRSIZ f.name⟩).length =
        DESIZE * (files.length + 3) := by
      rw [length_append, contents_root_length, encode_length (strncpy_length _ _), ← Nat.mul_succ]
    have h0 : nblocks ([] : List Byte).length = 0 := rfl
    rw [hrl, contents_root_length] at huc
    have hsum := total_snoc files f
    have hcnt := h.count
    have hall := appendAll_spec f.chunks hu (k := s.freeinode) (by omega) (by omega)
    rw [hnew, nil_append] at hall
    refine hall.mono ?_ ?_
    · rintro _ v ⟨hv, hvi, hvc⟩
      rw [h0] at hvc
      have hl : f.data.length = f.chunks.flatten.length := rfl
      refine ⟨hv.congr (fun k hk0 hk => ?_), by rw [length_append]; simp; omega, by rw [hl] at hsum; omega⟩
      refine update_cases k ?_ (fun hks => ?_)
      · rw [contents, if_neg (by omega), hi, Nat.add_sub_cancel]
        simp [Input.data]
      · by_cases hkr : k = ROOTINO
        · rw [hkr, update_self, contents_root_snoc, hi]
        · rw [update_of_ne hkr, update_of_ne hks, contents, contents, if_neg hkr, if_neg hkr,
            getElem?_append_left (by omega)]
    · rintro e hno ha
      refine hno ⟨ha.size f (by simp), ?_⟩
      have htot := ha.total
      have hl : f.data.length = f.chunks.flatten.length := rfl
      rw [nil_append, h0]
      rw [hl] at hsum
      omega
  · rintro e hno ha
    rw [hroot] at hno
    have hf := h.fits hlen ha htb
    rw [← hi] at hf
    exact hno hf

theorem addFiles_spec (h : After files s) (hlen : (files ++ rest).length ≤ 198) :
    Runs (addFiles ROOTINO rest) s (fun _ t => After (files ++ rest) t) (fun _ => ¬ Accepts (files ++ rest)) := by
  induction rest generalizing files s with
  | nil =>
    rw [append_nil]
    exact h
  | cons f rest ih =>
    have happ : files ++ f :: rest = files ++ [f] ++ rest := by simp
    unfold addFiles
    rw [runs_bind]
    refine (addFile_spec h (by simp at hlen; omega)).mono ?_ ?_
    · rintro _ t ht
      rw [happ] at hlen ⊢
      exact ih ht hlen
    · rintro e hno ha
      rw [happ] at ha
      exact hno ⟨fun g hg => ha.name g (mem_append_left _ hg), fun g hg => ha.size g (mem_append_left _ hg),
        le_trans total_mono ha.total⟩

end Inputs

section Main

variable {files : List Input}

/-- The image once the size of the root directory and the bitmap are written. -/
def finish (s : St) : Memory.Mem :=
  overlay (s.setInode ROOTINO { nodes s ROOTINO with size := ((nodes s ROOTINO).size / BSIZE + 1) * BSIZE }).img
    (bmapstart * BSIZE) BSIZE (bitmap s.freeblock)

theorem contents_nil : contents [] ROOTINO =
    encode ⟨ROOTINO, strncpy DIRSIZ dot⟩ ++ encode ⟨ROOTINO, strncpy DIRSIZ dotdot⟩ := by decide

/-- `mkfs` ends with an image of the files, and does so if it accepts them. -/
theorem main_spec (hlen : files.length ≤ 198) :
    Runs (main files) start (fun _ t => ∃ s, After files s ∧ t.img = finish s) (fun _ => ¬ Accepts files) := by
  have hR : ROOTINO = 1 := rfl
  have h208 : ninodeblocks * IPB = 208 := rfl
  unfold main
  rw [runs_bind, runs_alter, runs_bind]
  refine zero_all.safe ?_
  rintro _ s ⟨hsl, hsi, hsb, hsn⟩
  rw [runs_bind, wsect, runs_alter]
  have hinv : Inv ({ s with img := overlay s.img (1 * BSIZE) BSIZE superblock, len := max s.len (1 * BSIZE + BSIZE) } : St)
      (fun _ => []) := by
    refine zeroed_inv ?_ (fun x => ?_) hsb hsn
    · change max s.len _ = _
      rw [hsl]
      exact max_eq_left (by decide)
    · change overlay s.img (1 * BSIZE) BSIZE superblock x = overlay (fun _ => 0) BSIZE BSIZE superblock x
      unfold overlay
      rw [one_mul, hsi]
  rw [runs_bind]
  refine (ialloc_spec hinv .dir (if_pos hsn).symm
    (by change s.freeinode < _; omega)).safe ?_
  rintro rootino t ⟨rfl, ht, hti, htb⟩
  change t.freeinode = s.freeinode + 1 at hti
  change t.freeblock = s.freeblock at htb
  change Inv t (update (fun _ => []) s.freeinode []) at ht
  have hs1 : s.freeinode = ROOTINO := hsn
  rw [hs1] at hti ht
  have hroot : update (fun _ => []) ROOTINO [] ROOTINO = ([] : List Byte) := update_self _ _ _
  dsimp only
  rw [hs1, if_neg (fun hne => hne rfl)]
  unfold appendEntry
  rw [runs_bind]
  -- The first two entries are in one block.
  have hnb : nblocks ([] : List Byte).length = 0 := rfl
  have h1 : nblocks ([] ++ encode ⟨ROOTINO, strncpy DIRSIZ dot⟩).length = 1 := rfl
  have h2 : nblocks (encode ⟨ROOTINO, strncpy DIRSIZ dot⟩).length = 1 := rfl
  have h3 : nblocks (encode ⟨ROOTINO, strncpy DIRSIZ dot⟩ ++ encode ⟨ROOTINO, strncpy DIRSIZ dotdot⟩).length = 1 := rfl
  have h4 : nmeta < FSSIZE := by decide
  refine (iappend_spec ht (k := ROOTINO) (by decide) (by omega)).mono ?_ ?_
  · rintro _ u ⟨hu, hui, huc⟩
    rw [hroot, update_idem] at hu
    rw [hroot, hnb] at huc
    have hroot' : update (fun _ => []) ROOTINO ([] ++ encode ⟨ROOTINO, strncpy DIRSIZ dot⟩) ROOTINO =
        encode ⟨ROOTINO, strncpy DIRSIZ dot⟩ := update_self _ _ _
    rw [runs_bind]
    refine (iappend_spec hu (k := ROOTINO) (by decide) (by omega)).mono ?_ ?_
    · rintro _ v ⟨hv, hvi, hvc⟩
      rw [hroot', update_idem] at hv
      rw [hroot'] at hvc
      have hafter : After [] v := by
        refine ⟨hv.congr (fun k hk0 hk => ?_), by rw [hvi, hui, hti]; rfl, ?_⟩
        · have hk1 : k = ROOTINO := by omega
          rw [hk1, update_self, contents_nil]
        · have htot : total [] = nmeta + 1 := rfl
          omega
      rw [runs_bind]
      refine (addFiles_spec hafter hlen).mono ?_ (fun _ => id)
      rintro _ w hw
      have hwi := hw.inum
      have hk : ROOTINO < ninodeblocks * IPB := by decide
      unfold fixSize
      rw [runs_bind, runs_bind]
      refine Runs.of_eq (rinode_eq hw.inv.base.len hk) ?_
      refine Runs.of_eq (winode_eq hw.inv.base.len hk) ?_
      have hfb : w.freeblock < BSIZE * 8 := lt_of_le_of_lt hw.inv.base.hi (by decide)
      rw [runs_bind, runs_look, balloc, if_pos hfb]
      exact ⟨w, hw, rfl⟩
    · rintro e hno ha
      rw [hroot'] at hno
      refine hno ⟨by decide, ?_⟩
      omega
  · rintro e hno ha
    rw [hroot] at hno
    refine hno ⟨by decide, ?_⟩
    rw [h1, hnb]
    omega

def superWords : List Nat := [FSMAGIC, FSSIZE, FSSIZE - nmeta, NINODES, LOGSIZE, 2, inodestart, bmapstart]

variable (h : After files s)

include h

theorem finish_front {x : Nat} (hx : x < inodestart * BSIZE) : finish s x = front x := by
  have h1 : inodestart * BSIZE ≤ bmapstart * BSIZE := by decide
  rw [finish, overlay_out (by omega), front_setInode (by decide) hx, h.inv.front x hx]

theorem finish_super {j : Nat} (hj : j < 8) : superWord (finish s) j = superWords.getD j 0 := by
  have hlow : load (finish s) (BSIZE + 4 * j) 4 = load superblock (4 * j) 4 := by
    symm
    refine Memory.load_shift (fun x _ hx => ?_)
    have hxb : x < BSIZE := by
      unfold BSIZE
      omega
    have h2 : 2 * BSIZE ≤ inodestart * BSIZE := by decide
    rw [finish_front h (by omega), front, overlay_in hxb]
  have hw := Memory.load_storeWords (m := fun _ => 0) (a := 0) (l := superWords) hj
  rw [zero_add] at hw
  have hmod : ∀ j < 8, superWords.getD j 0 % 256 ^ 4 = superWords.getD j 0 := by decide
  rw [superWord, hlow]
  exact hw.trans (hmod j hj)

def finalNodes (s : St) : Nat → Dinode :=
  update (nodes s) ROOTINO { nodes s ROOTINO with size := ((nodes s ROOTINO).size / BSIZE + 1) * BSIZE }

theorem After.root : Made s ROOTINO (contents files ROOTINO) :=
  h.inv.made ROOTINO (by decide) (by rw [h.inum]; unfold ROOTINO; omega)

theorem finish_nodes (hlen : files.length ≤ 198) : (boot (finish s)).dinode = finalNodes s := by
  have h6 := finish_super h (show 6 < 8 by decide)
  have h7 := finish_super h (show 7 < 8 by decide)
  change inodeAt (superWord (finish s) 6) (superWord (finish s) 7) (finish s) = _
  rw [h6, h7]
  change nodes { s with img := finish s } = _
  have hroot := h.root
  have hsize : ((nodes s ROOTINO).size / BSIZE + 1) * BSIZE < 2 ^ 32 := by
    rw [hroot.size, contents_root_length]
    unfold DESIZE DIRSIZ BSIZE
    omega
  have hw : Wide { nodes s ROOTINO with size := ((nodes s ROOTINO).size / BSIZE + 1) * BSIZE } :=
    hroot.holds.wide.resize hsize
  have hset : nodes (s.setInode ROOTINO { nodes s ROOTINO with size := ((nodes s ROOTINO).size / BSIZE + 1) * BSIZE }) =
      finalNodes s := nodes_winode (by decide) hw
  rw [← hset]
  exact nodes_congr (fun x _ hx => overlay_out (.inl hx))

theorem finish_bits {b : Nat} (hb : b < BSIZE * 8) : (boot (finish s)).bits b = decide (b < s.freeblock) := by
  have h7 := finish_super h (show 7 < 8 by decide)
  have hbyte : b / 8 < BSIZE := by
    unfold BSIZE at *
    omega
  change bitAt (superWord (finish s) 7) (finish s) b = _
  rw [h7, bitAt, Nat.div_eq_of_lt hb, Nat.mod_eq_of_lt hb, zero_add]
  change (blockAt (finish s) bmapstart (b / 8) &&& _ != 0) = _
  have hin : blockAt (finish s) bmapstart (b / 8) = bitmap s.freeblock (b / 8) := by
    rw [blockAt, if_pos hbyte, finish, overlay_in hbyte]
  rw [hin, bitmap_bit]

omit h in
theorem finish_data {x : Nat} (hx : nmeta * BSIZE ≤ x) : finish s x = s.img x := by
  have h1 : bmapstart * BSIZE + BSIZE ≤ nmeta * BSIZE := by decide
  have h2 := inodePos_range (k := ROOTINO) (by decide)
  rw [finish, overlay_out (by omega)]
  exact overlay_out (by omega)

omit h in
theorem finish_buf {b : Nat} (hb : nmeta ≤ b) (E : Nat → Dinode) : (boot (finish s)).buf b = (view E s).buf b := by
  rw [view_buf hb]
  funext i
  have := Nat.mul_le_mul_right BSIZE hb
  change blockAt (finish s) b i = blockAt s.img b i
  unfold blockAt
  rw [finish_data (by omega)]

theorem finish_use (hlen : files.length ≤ 198) : use (boot (finish s)) = use (view (nodes s) s) := by
  have hres : use (view (finalNodes s) s) = use (view (nodes s) s) := by
    have h1 := use_resize (D := nodes s) (k := ROOTINO) (d := nodes s ROOTINO) (t := s)
      (z := ((nodes s ROOTINO).size / BSIZE + 1) * BSIZE)
    rw [update_eq_self] at h1
    exact h1
  have hboot : ∀ i, use (boot (finish s)) i = use (view (finalNodes s) s) i := by
    refine use_congr (fun k => ?_) (fun k hk => ?_)
    · have hnode : (boot (finish s)).node k = (boot (finish s)).dinode k := rfl
      rw [hnode, finish_nodes h hlen, view_node]
    · rw [hres] at hk ⊢
      exact finish_buf (h.inv.tally.range _ hk).1 _
  rw [← hres]
  exact funext hboot

end Main

section Consistency

/-- Every block of a file has an address, every address is below the size of the
file system and used once, every inode in use has a number that the superblock
allows, and the bitmap has the bits of the metadata and of the blocks in use. -/
structure Consistent (img : Memory.Mem) : Prop where
  full : ∀ k, ((boot img).dinode k).type ≠ .free → ∀ i, i * BSIZE < ((boot img).dinode k).size → blockOf (boot img) k i ≠ 0
  below : ∀ i, use (boot img) i ≠ 0 → use (boot img) i < superWord img 1
  once : ∀ i j, use (boot img) i = use (boot img) j → use (boot img) i ≠ 0 → i = j
  inums : ∀ k, ((boot img).dinode k).type ≠ .free → k < superWord img 3
  bits : ∀ b < BSIZE * 8, (boot img).bits b = true ↔
    b < superWord img 1 - superWord img 2 ∨ b ≠ 0 ∧ ∃ i, use (boot img) i = b

variable {files : List Input} {img : Memory.Mem}

theorem mkfs_ok (hlen : files.length ≤ 198) (h : mkfs files = .ok img) : ∃ s, After files s ∧ img = finish s := by
  unfold mkfs at h
  cases hm : main files start with
  | error e =>
    rw [hm] at h
    exact nomatch h
  | ok r =>
    rw [hm] at h
    obtain ⟨s, hs, himg⟩ := (main_spec hlen).ok (a := r.1) (t := r.2) hm
    have himg' : r.2.img = img := Except.ok.inj h
    exact ⟨s, hs, himg'.symm.trans himg⟩

theorem mkfs_accepts (hlen : files.length ≤ 198) (ha : Accepts files) : ∃ img, mkfs files = .ok img := by
  unfold mkfs
  cases hm : main files start with
  | error e => exact absurd ha ((main_spec hlen).error hm)
  | ok r => exact ⟨r.2.img, rfl⟩

theorem finalNodes_type (k : Nat) : (finalNodes s k).type = (nodes s k).type := by
  unfold finalNodes
  exact update_cases k rfl (fun _ => rfl)

theorem finalNodes_root : (finalNodes s ROOTINO).size = ((nodes s ROOTINO).size / BSIZE + 1) * BSIZE := by
  rw [finalNodes, update_self]

theorem inode_lt (h : After files s) (hk : (nodes s k).type ≠ .free) : 0 < k ∧ k < files.length + 2 := by
  have := h.inv.free k
  rw [h.inum] at this
  by_contra hno
  exact hk (this (by omega))

theorem blockOf_ne_zero {i : Nat} (h : Holds D s k l) (hi : i * BSIZE < l.length) : blockOf (view D s) k i ≠ 0 :=
  h.content.blocks hi

def tinyFile (i : Fin 100) : Input where
  arg := [UInt8.ofNat (i + 100)]
  chunks := []
  arg_string := by revert i; decide
  chunk_fits := by simp

def tinyFiles (n : Nat) : List Input := (List.finRange n).map (fun i => tinyFile ⟨i % 100, Nat.mod_lt i (by decide)⟩)

theorem tinyFiles_length (n : Nat) : (tinyFiles n).length = n := by simp [tinyFiles]

theorem tinyFile_plain (i : Fin 100) : slash ∉ stripUser (tinyFile i).arg := by
  revert i
  decide

theorem tinyFiles_accepts {n : Nat} (hn : n ≤ 198) : Accepts (tinyFiles n) := by
  have hmem : ∀ f ∈ tinyFiles n, ∃ i, f = tinyFile i := by
    intro f hf
    obtain ⟨i, -, rfl⟩ := mem_map.mp hf
    exact ⟨_, rfl⟩
  refine ⟨fun f hf => ?_, fun f hf => ?_, ?_⟩
  · obtain ⟨i, rfl⟩ := hmem f hf
    exact tinyFile_plain i
  · obtain ⟨i, rfl⟩ := hmem f hf
    exact Nat.zero_le _
  · have hsum : ((tinyFiles n).map (fun f => nblocks f.data.length)).sum = 0 := by
      have hzero : (tinyFiles n).map (fun f => nblocks f.data.length) = (tinyFiles n).map (fun _ => 0) := by
        refine map_congr_left (fun f hf => ?_)
        obtain ⟨i, rfl⟩ := hmem f hf
        have hnil : (tinyFile i).data.length = 0 := rfl
        rw [hnil]
        rfl
      rw [hzero]
      simp
    have hmono := nblocks_mono (show DESIZE * (n + 2) ≤ DESIZE * 200 from Nat.mul_le_mul_left _ (by omega))
    have h200 : nblocks (DESIZE * 200) = 4 := rfl
    have hm : nmeta = 46 := rfl
    rw [total, hsum, tinyFiles_length]
    unfold FSSIZE
    omega

end Consistency

end Xv6Rcu.Mkfs

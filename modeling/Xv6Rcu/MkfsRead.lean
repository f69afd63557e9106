import Xv6Rcu.MkfsRun

namespace Xv6Rcu.Mkfs

open Exec Fs Function List Option
open Memory (load)

section Reading

variable {sb : Super} {s t : State} {k off n z i : Nat} {f : Block} {dst : Dst}

theorem content_congr (hn : ∀ k, t.node k = s.node k) (hb : t.buf = s.buf) (h : Content s k f n) : Content t k f n := by
  have hu : use t = use s := by
    funext i
    rw [use, use, hn, hb]
  intro i hi
  rw [blockOf, hu, hb]
  exact h i hi

theorem readi_content (hl : Loaded s k) (hc : Content s k f z) (hoff : off ≤ (s.ino k).copy.size) (hn : off + n < 2 ^ 32)
    (hz : min (off + n) (s.ino k).copy.size ≤ z) (hm : dst.Mapped (min (off + n) (s.ino k).copy.size - off)) :
    Runs (readi sb k dst off n) s
      (fun r t => t = s ∧ r = (((min (off + n) (s.ino k).copy.size - off : Nat) : Int),
        slice f off (min (off + n) (s.ino k).copy.size - off))) (fun _ => False) := by
  unfold readi
  rw [runs_bind, runs_look]
  dsimp only
  have hmod : (off + n) % 2 ^ 32 = off + n := Nat.mod_eq_of_lt hn
  rw [hmod, if_neg (by omega)]
  have hlen : (if off + n > (s.ino k).copy.size then (s.ino k).copy.size - off else n) =
      min (off + n) (s.ino k).copy.size - off := by
    split <;> omega
  rw [hlen]
  refine (readLoop_spec hl hc (Nat.zero_le _) le_rfl (by omega)).safe ?_
  rintro r t ⟨rfl, hr | ⟨-, hno⟩⟩
  · exact ⟨rfl, by simpa using hr⟩
  · exact absurd hm hno

theorem scan_first {p : Dirent → Bool} {e : Panic} {es : List Dirent} {de : Dirent} {j fuel : Nat} (hl : Loaded s k)
    (hc : Content s k f (DESIZE * es.length)) (hsz : DESIZE * es.length ≤ (s.ino k).copy.size)
    (hsmall : DESIZE * es.length < 2 ^ 32)
    (hes : ∀ i de, es[i]? = some de → decode (slice f (DESIZE * i) DESIZE) = de)
    (hj : es[j]? = some de) (hp : p de = true) (hbefore : ∀ i < j, ∀ de, es[i]? = some de → p de = false)
    (hij : i ≤ j) (hf : j < i + fuel) :
    Runs (scan sb k p e fuel (DESIZE * i)) s (fun r t => t = s ∧ r = some (DESIZE * j, de)) (fun _ => False) := by
  have hjlt : j < es.length := by
    by_contra hno
    rw [getElem?_eq_none (by omega)] at hj
    exact nomatch hj
  have hD : DESIZE = 16 := rfl
  induction fuel generalizing i with
  | zero => omega
  | succ fuel ih =>
    unfold scan
    have hnext : DESIZE * (i + 1) ≤ DESIZE * es.length := Nat.mul_le_mul_left _ (by omega)
    rw [Nat.mul_succ] at hnext
    have hmin : min (DESIZE * i + DESIZE) (s.ino k).copy.size - DESIZE * i = DESIZE := by omega
    rw [runs_bind, runs_look, if_pos (by omega), runs_bind]
    refine (readi_content hl hc (by omega) (by omega) (by omega) (fun _ _ _ => rfl)).safe ?_
    rintro r t ⟨rfl, hr⟩
    rw [hmin] at hr
    obtain ⟨d, hd⟩ : ∃ d, es[i]? = some d := ⟨es[i], getElem?_eq_getElem (by omega)⟩
    rw [hr]
    dsimp only
    rw [if_neg (fun hne => hne rfl), hes i d hd]
    by_cases hi : i = j
    · subst hi
      rw [hj] at hd
      obtain rfl := some.inj hd
      rw [if_pos hp]
      exact ⟨rfl, rfl⟩
    · rw [if_neg (by rw [hbefore i (by omega) d hd]; exact Bool.false_ne_true)]
      rw [← Nat.mul_succ]
      exact ih (by omega) (by omega)

end Reading

section Entries

variable {es : List Dirent} {de : Dirent} {i : Nat}

theorem slice_entries (h : ∀ de ∈ es, de.name.length = DIRSIZ) (hi : es[i]? = some de) :
    slice (fun x => (es.flatMap encode).getD x 0) (DESIZE * i) DESIZE = encode de := by
  induction es generalizing i with
  | nil => exact nomatch hi
  | cons e es ih =>
    have hlen := encode_length (h e mem_cons_self)
    cases i with
    | zero =>
      obtain rfl := some.inj hi
      refine ext_getElem (by rw [slice_length, hlen]) (fun x h1 h2 => ?_)
      simp only [slice, getElem_map, getElem_range, mul_zero, zero_add, flatMap_cons]
      rw [getD_append _ _ _ _ h2, getD_eq_getElem _ _ h2]
    | succ i =>
      rw [← ih (fun d hd => h d (mem_cons_of_mem _ hd)) hi]
      refine slice_congr (fun x _ => ?_)
      rw [flatMap_cons, getD_append_right _ _ _ _ (by rw [hlen, Nat.mul_succ]; omega), hlen, Nat.mul_succ]
      congr 1
      omega

theorem cut_of_plain {name : List Byte} (h : 0 ∉ name.take DIRSIZ) : cut name = name.take DIRSIZ := by
  unfold cut
  refine takeWhile_eq_self_iff.mpr (fun c hc => ?_)
  have : c ≠ 0 := fun h0 => h (h0 ▸ hc)
  simpa using this

theorem skipelem_name {name : List Byte} (h0 : name ≠ []) (hs : slash ∉ name) :
    skipelem (slash :: name) = some (name.take DIRSIZ, []) := by
  obtain ⟨c, name, rfl⟩ := exists_cons_of_ne_nil h0
  have hc : c ≠ slash := fun he => hs (he ▸ mem_cons_self)
  have hall : ∀ x ∈ c :: name, (x != slash) = true := by
    intro x hx
    have : x ≠ slash := fun he => hs (he ▸ hx)
    simpa using this
  have h1 : (slash :: c :: name).dropWhile (fun x => x == slash) = c :: name := by
    have hne : (c == slash) = false := by simpa using hc
    simp [List.dropWhile, hne]
  have h2 : (c :: name).takeWhile (fun x => x != slash) = c :: name := takeWhile_eq_self_iff.mpr hall
  have h3 : (c :: name).dropWhile (fun x => x != slash) = [] := dropWhile_eq_nil_iff.mpr hall
  rw [skipelem, h1, h2, h3]
  rfl

theorem Input.name_string (f : Input) : 0 ∉ f.name := by
  have h1 : 0 ∉ stripUser f.arg := by
    unfold stripUser
    split
    · exact fun h => f.arg_string (mem_of_mem_drop h)
    · exact f.arg_string
  unfold Input.name shortname
  split
  · exact fun h => h1 (mem_of_mem_drop h)
  · exact h1

end Entries

section InodeTable

variable {b t : State} {tab : Nat → Option Bool} {n k : Nat}

/-- The inode table has the inodes of `tab` with one reference each, and those for
which `tab` says so have been read. -/
structure Table (b : State) (tab : Nat → Option Bool) (n : Nat) (t : State) : Prop where
  dinode : t.dinode = b.dinode
  buf : t.buf = b.buf
  live : t.live = n
  out : ∀ k, tab k = none → (t.ino k).ref = 0
  ref : ∀ k v, tab k = some v → (t.ino k).ref = 1 ∧ (t.ino k).valid = v
  copy : ∀ k, tab k = some true → (t.ino k).copy = b.dinode k

namespace Table

section

variable (h : Table b tab n t)

include h

theorem node (k : Nat) : t.node k = b.dinode k := by
  unfold State.node
  rw [h.dinode]
  by_cases hc : 0 < (t.ino k).ref ∧ (t.ino k).valid = true
  · rw [if_pos hc]
    cases hk : tab k with
    | none => exact absurd hc.1 (by rw [h.out k hk]; exact lt_irrefl 0)
    | some v =>
      have hv : v = true := (h.ref k v hk).2.symm.trans hc.2
      exact h.copy k (hv ▸ hk)
  · rw [if_neg hc]

theorem loaded (hk : tab k = some true) (htype : (b.dinode k).type ≠ .free) : Loaded t k := by
  obtain ⟨hr, hv⟩ := h.ref k true hk
  exact ⟨by omega, hv, by rw [h.copy k hk]; exact htype⟩

theorem change {x : Inode} {v : Option Bool} {l : Nat} (hout : v = none → x.ref = 0)
    (href : ∀ w, v = some w → x.ref = 1 ∧ x.valid = w) (hcopy : v = some true → x.copy = b.dinode k) :
    Table b (update tab k v) l { t with ino := update t.ino k x, live := l } := by
  refine ⟨h.dinode, h.buf, rfl, fun j hj => ?_, fun j w hj => ?_, fun j hj => ?_⟩ <;> by_cases hjk : j = k
  · rw [hjk, update_self] at hj
    simpa [hjk] using hout hj
  · rw [update_of_ne hjk] at hj
    simpa [hjk] using h.out j hj
  · rw [hjk, update_self] at hj
    simpa [hjk] using href w hj
  · rw [update_of_ne hjk] at hj
    simpa [hjk] using h.ref j w hj
  · rw [hjk, update_self] at hj
    simpa [hjk] using hcopy hj
  · rw [update_of_ne hjk] at hj
    simpa [hjk] using h.copy j hj

theorem iget (hk : tab k = none) (hn : n < NINODE) :
    Runs (iget k) t (fun _ u => Table b (update tab k (some false)) (n + 1) u) (fun _ => False) := by
  have h0 := h.out k hk
  unfold Fs.iget
  rw [runs_bind, runs_look, if_neg (by omega), if_neg (by rw [h.live]; omega), runs_alter, h.live]
  exact h.change nofun (fun w hw => ⟨rfl, some.inj hw⟩) nofun

theorem ilock (hk : tab k = some false) (htype : (b.dinode k).type ≠ .free) :
    Runs (ilock k) t (fun _ u => Table b (update tab k (some true)) n u) (fun _ => False) := by
  obtain ⟨hr, hv⟩ := h.ref k false hk
  unfold Fs.ilock
  rw [runs_bind, runs_look, if_neg (by omega), runs_when]
  refine ⟨fun _ => ?_, fun hno => absurd hv hno⟩
  rw [runs_bind, runs_alter, if_neg (by rw [h.dinode]; exact htype), runs_pure, ← h.live]
  exact h.change nofun (fun w hw => ⟨hr, some.inj hw⟩) (fun _ => congrFun h.dinode k)

theorem iunlockput (hk : tab k = some true) (hlink : (b.dinode k).nlink ≠ 0) :
    Runs (iunlockput k) t (fun _ u => Table b (update tab k none) (n - 1) u) (fun _ => False) := by
  obtain ⟨hr, hv⟩ := h.ref k true hk
  unfold Fs.iunlockput iunlock iput
  rw [runs_bind, runs_bind, runs_look, if_neg (by omega), runs_pure, runs_bind, runs_look, runs_bind, runs_when]
  refine ⟨fun hno => absurd hno.2.2 (by rw [h.copy k hk]; exact hlink), fun _ => ?_⟩
  rw [runs_alter, if_pos hr, h.live]
  exact h.change (fun _ => by rw [hr]) nofun nofun

end

end Table

end InodeTable

section Kernel

variable {files : List Input} {s : St} {sb : Super} {k j : Nat}

theorem boot_table (img : Memory.Mem) : Table (boot img) (fun _ => none) 0 (boot img) :=
  ⟨rfl, rfl, rfl, fun _ _ => rfl, fun _ _ h => (nomatch h), fun _ h => (nomatch h)⟩

theorem finish_content (h : After files s) (hlen : files.length ≤ 198) {l : List Byte} (hm : Made s k l) :
    Content (boot (finish s)) k (fun i => l.getD i 0) l.length := by
  have huse := finish_use h hlen
  intro i hi
  obtain ⟨hne, hb⟩ := hm.holds.content i hi
  rw [blockOf, huse, finish_buf (h.inv.tally.range _ hne).1 (nodes s)]
  exact ⟨hne, hb⟩

theorem After.made (h : After files s) {i : Nat} {f : Input} (hi : files[i]? = some f) : Made s (i + 2) f.data := by
  have hlt : i < files.length := by
    by_contra hno
    rw [getElem?_eq_none (by omega)] at hi
    exact nomatch hi
  have hm := h.inv.made (i + 2) (by omega) (by rw [h.inum]; omega)
  rw [contents, if_neg (by unfold ROOTINO; omega), Nat.add_sub_cancel, hi] at hm
  exact hm

structure Named (files : List Input) : Prop where
  ne : ∀ f ∈ files, f.name.take DIRSIZ ≠ []
  slash : ∀ f ∈ files, slash ∉ f.name
  dot : ∀ f ∈ files, f.name.take DIRSIZ ≠ dot
  dotdot : ∀ f ∈ files, f.name.take DIRSIZ ≠ dotdot
  distinct : (files.map (fun f => f.name.take DIRSIZ)).Nodup

def matching (name : List Byte) (de : Dirent) : Bool := de.inum != 0 && namecmp name de.name == 0

theorem matching_iff {name : List Byte} {f : Input} (h : name.take DIRSIZ = f.name.take DIRSIZ) {inum : Nat}
    (h0 : inum ≠ 0) {other : List Byte} (ho : 0 ∉ other.take DIRSIZ) :
    matching (name.take DIRSIZ) ⟨inum, strncpy DIRSIZ other⟩ = true ↔ f.name.take DIRSIZ = other.take DIRSIZ := by
  have hplain : 0 ∉ f.name.take DIRSIZ := fun hm => f.name_string (mem_of_mem_take hm)
  have hcut : cut (name.take DIRSIZ) = f.name.take DIRSIZ := by
    rw [h, cut_of_plain (by rw [take_take, Nat.min_self]; exact hplain), take_take, Nat.min_self]
  rw [matching, Bool.and_eq_true, beq_iff_eq, bne_iff_ne, namecmp_eq_zero, hcut, cut_strncpy, cut_of_plain ho]
  exact ⟨fun hh => hh.2, fun hh => ⟨h0, hh⟩⟩

theorem rootEntries_get {i : Nat} {f : Input} (hi : files[i]? = some f) :
    (rootEntries files)[i + 2]? = some ⟨i + 2, strncpy DIRSIZ f.name⟩ := by
  rw [rootEntries, getElem?_append_right (by simp)]
  simp [hi]

theorem rootEntries_before (hn : Named files) {i : Nat} {f : Input} (hi : files[i]? = some f) {name : List Byte}
    (h : name.take DIRSIZ = f.name.take DIRSIZ) {j : Nat} (hj : j < i + 2) {de : Dirent}
    (hde : (rootEntries files)[j]? = some de) : matching (name.take DIRSIZ) de = false := by
  have hf : f ∈ files := mem_of_getElem? hi
  rw [← Bool.not_eq_true]
  rcases j with _ | _ | j
  · obtain rfl := some.inj hde
    rw [matching_iff h (by decide) (by decide)]
    exact hn.dot f hf
  · obtain rfl := some.inj hde
    rw [matching_iff h (by decide) (by decide)]
    exact hn.dotdot f hf
  · have hlt : j < files.length := by
      have := List.getElem?_eq_some_iff.mp hi
      obtain ⟨hil, -⟩ := this
      omega
    obtain ⟨g, hg⟩ : ∃ g, files[j]? = some g := ⟨files[j], getElem?_eq_getElem hlt⟩
    rw [rootEntries_get hg] at hde
    obtain rfl := some.inj hde
    rw [matching_iff h (by omega) (fun hm => g.name_string (mem_of_mem_take hm))]
    intro he
    have h1 : (files.map (fun f => f.name.take DIRSIZ))[i]? = some (f.name.take DIRSIZ) := by
      rw [getElem?_map, hi]
      rfl
    have h2 : (files.map (fun f => f.name.take DIRSIZ))[j]? = some (f.name.take DIRSIZ) := by
      rw [getElem?_map, hg, he]
      rfl
    have hil : i < (files.map (fun f => f.name.take DIRSIZ)).length := by
      by_contra hno
      rw [getElem?_eq_none (by omega)] at h1
      exact nomatch h1
    have := (getElem?_inj hil hn.distinct).mp (h1.trans h2.symm)
    omega

variable (h : After files s) (hlen : files.length ≤ 198)

include h hlen

theorem boot_root : ((boot (finish s)).dinode ROOTINO).type = .dir ∧ ((boot (finish s)).dinode ROOTINO).nlink = 1 ∧
    DESIZE * (files.length + 2) ≤ ((boot (finish s)).dinode ROOTINO).size ∧
    ((boot (finish s)).dinode ROOTINO).size < 2 ^ 31 := by
  have hm := h.root
  have htype : (nodes s ROOTINO).type = .dir := hm.type
  rw [finish_nodes h hlen]
  refine ⟨(finalNodes_type ROOTINO).trans htype, ?_, ?_, ?_⟩
  · rw [finalNodes, update_self]
    exact hm.nlink
  · rw [finalNodes_root, hm.size, contents_root_length]
    unfold BSIZE
    omega
  · rw [finalNodes_root, hm.size, contents_root_length]
    unfold BSIZE DESIZE DIRSIZ
    omega

theorem boot_file {i : Nat} {f : Input} (hi : files[i]? = some f) :
    ((boot (finish s)).dinode (i + 2)).type = .file ∧ ((boot (finish s)).dinode (i + 2)).size = f.data.length := by
  have hm := h.made hi
  have hne : i + 2 ≠ ROOTINO := by
    unfold ROOTINO
    omega
  have htype : (nodes s (i + 2)).type = .file := by rw [hm.type, if_neg hne]
  rw [finish_nodes h hlen]
  exact ⟨(finalNodes_type _).trans htype, by rw [finalNodes, update_of_ne hne]; exact hm.size⟩

theorem namei_spec (hn : Named files) {i : Nat} {f : Input} (hi : files[i]? = some f) {name : List Byte}
    (hname : name.take DIRSIZ = f.name.take DIRSIZ) (hs : slash ∉ name) (cwd : Nat) :
    Runs (namei sb cwd (slash :: name)) (boot (finish s))
      (fun r t => r = some (i + 2) ∧ ∃ tab n, tab (i + 2) = some false ∧ Table (boot (finish s)) tab n t)
      (fun _ => False) := by
  obtain ⟨htype, hlink, hsz, hsmall⟩ := boot_root h hlen
  have hil : i < files.length := (List.getElem?_eq_some_iff.mp hi).1
  have hne : name ≠ [] := by
    rintro rfl
    exact hn.ne f (mem_of_getElem? hi) (hname ▸ rfl)
  have hfree : ((boot (finish s)).dinode ROOTINO).type ≠ .free := by
    rw [htype]
    decide
  have hR : ROOTINO = 1 := rfl
  unfold namei namex
  rw [runs_bind]
  dsimp only
  have hhead : (slash :: name).headD 0 = slash := rfl
  rw [if_pos hhead, if_pos hhead, runs_bind]
  refine ((boot_table (finish s)).iget (k := ROOTINO) rfl (by decide)).safe ?_
  rintro _ t1 h1
  rw [length_cons]
  unfold namexLoop
  rw [skipelem_name hne hs]
  dsimp only
  rw [runs_bind]
  refine (h1.ilock (k := ROOTINO) (update_self _ _ _) hfree).safe ?_
  rintro _ t2 h2
  rw [update_idem] at h2
  have htab : update (fun _ => none) ROOTINO (some true) ROOTINO = some true := update_self _ _ _
  have hcopy := h2.copy ROOTINO htab
  have hl := h2.loaded htab hfree
  rw [runs_bind, runs_look, if_neg (by rw [hcopy, htype]; exact fun hno => hno rfl), if_neg (fun hno => nomatch hno.1), runs_bind]
  have hsmall' : ((boot (finish s)).dinode ROOTINO).size + 1 < 2 ^ 32 := by omega
  unfold dirlookup
  rw [runs_bind, runs_look, if_neg (by rw [hcopy, htype]; exact fun hno => hno rfl), runs_bind]
  have hc : Content t2 ROOTINO (fun x => ((rootEntries files).flatMap encode).getD x 0)
      (DESIZE * (rootEntries files).length) := by
    have := finish_content h hlen h.root
    rw [contents, if_pos rfl, flatMap_encode_length rootEntries_name] at this
    exact content_congr (s := boot (finish s)) h2.node h2.buf this
  have hdec : ∀ j de, (rootEntries files)[j]? = some de →
      decode (slice (fun x => ((rootEntries files).flatMap encode).getD x 0) (DESIZE * j) DESIZE) = de := by
    intro j de hj
    rw [slice_entries rootEntries_name hj]
    have hinum : de.inum < 65536 := by
      have := mem_of_getElem? hj
      rw [rootEntries, mem_append] at this
      rcases this with hm | hm
      · simp only [mem_cons, not_mem_nil, or_false] at hm
        rcases hm with rfl | rfl <;> decide
      · obtain ⟨q, hq, rfl⟩ := mem_mapIdx.mp hm
        dsimp only
        omega
    exact decode_encode hinum
  have hmatch : matching (name.take DIRSIZ) ⟨i + 2, strncpy DIRSIZ f.name⟩ = true :=
    (matching_iff hname (by omega) (fun hm => f.name_string (mem_of_mem_take hm))).mpr rfl
  have hscan : Runs (scan sb ROOTINO (matching (name.take DIRSIZ)) .dirlookupRead ((t2.ino ROOTINO).copy.size + 1) (DESIZE * 0)) t2
      (fun r t => t = t2 ∧ r = some (DESIZE * (i + 2), ⟨i + 2, strncpy DIRSIZ f.name⟩)) (fun _ => False) := by
    refine scan_first hl hc ?_ ?_ hdec (rootEntries_get hi) hmatch
      (fun j hj de hde => rootEntries_before hn hi hname hj hde) (Nat.zero_le _) ?_
    · rw [rootEntries_length, hcopy]
      exact hsz
    · rw [rootEntries_length]
      omega
    · rw [hcopy]
      unfold DESIZE DIRSIZ at hsz
      omega
  refine hscan.safe ?_
  rintro r t ⟨rfl, rfl⟩
  dsimp only
  rw [runs_bind]
  refine (h2.iget (k := i + 2) (update_of_ne (by omega) _ _) (by decide)).safe ?_
  rintro _ t3 h3
  rw [runs_pure]
  dsimp only
  rw [runs_bind]
  refine (h3.iunlockput (k := ROOTINO) ?_ (by rw [hlink]; decide)).safe ?_
  · rw [update_of_ne (by omega), update_self]
  rintro _ t4 h4
  unfold namexLoop
  refine ⟨rfl, _, _, ?_, h4⟩
  rw [update_of_ne (by omega), update_self]

omit hlen in
theorem fsinit_eq : fsinit (finish s) = some Mkfs.sb := by
  have h0 : superWord (finish s) 0 = FSMAGIC := finish_super h (show 0 < 8 by decide)
  have h1 : superWord (finish s) 1 = FSSIZE := finish_super h (show 1 < 8 by decide)
  have h2 : superWord (finish s) 2 = FSSIZE - nmeta := finish_super h (show 2 < 8 by decide)
  have h3 : superWord (finish s) 3 = NINODES := finish_super h (show 3 < 8 by decide)
  unfold fsinit
  rw [dif_pos ⟨h0, by rw [h1, h2]; decide, by rw [h1]; decide, by rw [h3]; decide⟩]
  simp only [h1, h2, h3]
  rfl

omit hlen in
theorem log_empty : load (finish s) (superWord (finish s) 5 * BSIZE) 4 = 0 := by
  have h5 : superWord (finish s) 5 = 2 := finish_super h (show 5 < 8 by decide)
  have hz : ∀ x, 2 * BSIZE ≤ x → x < 2 * BSIZE + 4 → finish s x = 0 := by
    intro x hlo hhi
    have h1 : 2 * BSIZE + 4 ≤ inodestart * BSIZE := by decide
    rw [finish_front h (by omega), front, overlay_out (by omega)]
  rw [h5, Memory.load_congr (m := fun _ => 0) hz]
  rfl

end Kernel

section Format

/-- The kernel looks up a file, locks it and reads it from its start. -/
def readPath (sb : Super) (cwd : Nat) (path : List Byte) (dst : Dst) (n : Nat) : M (Option (Dinode × Int × List Byte)) := do
  let r ← namei sb cwd path
  match r with
  | none => pure none
  | some ip => do
    ilock ip
    let s ← look
    let r ← readi sb ip dst 0 n
    pure (some ((s.ino ip).copy, r))

def Reads (sb : Super) (img : Memory.Mem) (name data : List Byte) : Prop :=
  ∀ cwd dst n, data.length ≤ n → n < 2 ^ 32 → dst.Mapped data.length →
    ∃ d t, readPath sb cwd (slash :: name) dst n (boot img) = .ok (some (d, data.length, data), t) ∧
      d.type = .file ∧ d.size = data.length

variable {files : List Input}

theorem slice_getD (l : List Byte) : slice (fun i => l.getD i 0) 0 l.length = l := by
  refine ext_getElem (slice_length _ _ _) (fun x h1 h2 => ?_)
  simp only [slice, getElem_map, getElem_range, zero_add]
  rw [getD_eq_getElem _ _ h2]

theorem slash_stripUser {f : Input} (h : slash ∉ f.name) : slash ∉ stripUser f.arg := by
  intro hs
  unfold Input.name shortname at h
  split at h
  · rename_i hu
    cases hc : stripUser f.arg with
    | nil =>
      rw [hc] at hs
      exact nomatch hs
    | cons c l =>
      rw [hc] at hs h hu
      rcases mem_cons.mp hs with he | hm
      · rw [← he] at hu
        exact absurd (show slash = underscore from hu) (by decide)
      · exact h hm
  · exact h hs

theorem image_format (hlen : files.length ≤ 197) (hsize : ∀ f ∈ files, f.data.length ≤ MAXFILE * BSIZE)
    (hfit : total files ≤ FSSIZE) (hn : Named files) :
    ∃ img sb, mkfs files = .ok img ∧ fsinit img = some sb ∧ load img (superWord img 5 * BSIZE) 4 = 0 ∧
      ∀ f ∈ files, ∀ name, slash ∉ name → name.take DIRSIZ = f.name.take DIRSIZ → Reads sb img name f.data := by
  have hlen' : files.length ≤ 198 := by omega
  have hacc : Accepts files := ⟨fun f hf => slash_stripUser (hn.slash f hf), hsize, hfit⟩
  obtain ⟨img, himg⟩ := mkfs_accepts hlen' hacc
  obtain ⟨s, hs, rfl⟩ := mkfs_ok hlen' himg
  refine ⟨_, Mkfs.sb, himg, fsinit_eq hs, log_empty hs, fun f hf name hslash hname cwd dst n hle hlt hmap => ?_⟩
  obtain ⟨i, hi⟩ := mem_iff_getElem?.mp hf
  obtain ⟨htype, hsz⟩ := boot_file hs hlen' hi
  have hfree : ((boot (finish s)).dinode (i + 2)).type ≠ .free := by
    rw [htype]
    decide
  have hrun : Runs (readPath Mkfs.sb cwd (slash :: name) dst n) (boot (finish s))
      (fun r _ => ∃ d, r = some (d, (f.data.length : Int), f.data) ∧ d.type = .file ∧ d.size = f.data.length)
      (fun _ => False) := by
    unfold readPath
    rw [runs_bind]
    refine (namei_spec hs hlen' hn hi hname hslash cwd).safe ?_
    rintro r t ⟨rfl, tab, m, htab, ht⟩
    dsimp only
    rw [runs_bind]
    refine (ht.ilock htab hfree).safe ?_
    rintro _ u hu
    have hcopy := hu.copy (i + 2) (update_self _ _ _)
    have hc : Content u (i + 2) (fun x => f.data.getD x 0) f.data.length :=
      content_congr (s := boot (finish s)) hu.node hu.buf (finish_content hs hlen' (hs.made hi))
    have hmin : min (0 + n) (u.ino (i + 2)).copy.size - 0 = f.data.length := by
      rw [hcopy, hsz]
      omega
    rw [runs_bind, runs_look, runs_bind]
    refine (readi_content (hu.loaded (update_self _ _ _) hfree) hc (Nat.zero_le _) (by omega)
      (by rw [hcopy, hsz]; omega) (by rw [hmin]; exact hmap)).safe ?_
    rintro r v ⟨rfl, rfl⟩
    rw [hmin, slice_getD]
    refine ⟨_, rfl, ?_, ?_⟩
    · rw [hcopy, htype]
    · rw [hcopy, hsz]
  obtain ⟨r, t, hr, d, rfl, hd⟩ := hrun.exists_ok
  exact ⟨d, t, hr, hd⟩

def twoInputs : List Input :=
  [⟨[95, 97], [[1, 2], [3]], by decide, by decide⟩, ⟨[117, 115, 101, 114, 47, 95, 98], [], by decide, by decide⟩]

theorem image_format_twoInputs : ∃ img sb, mkfs twoInputs = .ok img ∧ fsinit img = some sb ∧
    Reads sb img [97] [1, 2, 3] ∧ Reads sb img [98] [] := by
  have hnamed : Named twoInputs := ⟨by decide, by decide, by decide, by decide, by decide⟩
  obtain ⟨img, sb, h1, h2, -, h3⟩ := image_format (show twoInputs.length ≤ 197 by decide) (by decide) (by decide) hnamed
  refine ⟨img, sb, h1, h2, ?_, ?_⟩
  · exact h3 _ mem_cons_self [97] (by decide) (by decide)
  · exact h3 _ (mem_cons_of_mem _ mem_cons_self) [98] (by decide) (by decide)

end Format

end Xv6Rcu.Mkfs

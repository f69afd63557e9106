import Xv6Rcu.FsMap

namespace Xv6Rcu.Fs

open Function List Option Threads Finset

variable {n : Nat} {k d p i j dp ip : Nat} {l : List Dirent} {de : Dirent} {name : List Byte}

section Counting

def cnt (l : List Dirent) (k : Nat) : Nat := l.countP (fun de => de.inum == k && cut de.name != cut dot)

def cntAt (l : List Dirent) (i k : Nat) : Nat := cnt (l[i]?.toList) k

theorem cnt_singleton : cnt [de] k = if de.inum = k ∧ cut de.name ≠ cut dot then 1 else 0 := by
  unfold cnt
  rw [countP_singleton]
  by_cases h1 : de.inum = k <;> by_cases h2 : cut de.name = cut dot <;> simp [h1, h2]

theorem cnt_place (de : Dirent) (k : Nat) (hi : i ≤ l.length) : cnt (place l i de) k + cntAt l i k = cnt l k + cnt [de] k := by
  unfold place
  split
  · rename_i hlt
    have hle : (if (l[i].inum == k && cut l[i].name != cut dot) = true then 1 else 0) ≤ cnt l k := by
      split
      · rename_i hp
        exact countP_pos_iff.mpr ⟨l[i], getElem_mem hlt, hp⟩
      · exact Nat.zero_le _
    have hat : cntAt l i k = if (l[i].inum == k && cut l[i].name != cut dot) = true then 1 else 0 := by
      rw [cntAt, getElem?_eq_getElem hlt, toList_some, cnt, countP_singleton]
    have hone : cnt [de] k = if (de.inum == k && cut de.name != cut dot) = true then 1 else 0 := by
      rw [cnt, countP_singleton]
    rw [hat, hone]
    unfold cnt at *
    rw [countP_set hlt]
    omega
  · have hlen : i = l.length := by omega
    subst hlen
    have hat : cntAt l l.length k = 0 := by
      rw [cntAt, getElem?_eq_none le_rfl]
      rfl
    rw [hat]
    unfold cnt
    rw [countP_append]
    rfl

theorem cntAt_free (h : FreeSlot l i) (hk : k ≠ 0) : cntAt l i k = 0 := by
  unfold cntAt
  cases hi : l[i]? with
  | none => rfl
  | some x =>
    rw [toList_some, cnt_singleton, if_neg]
    rintro ⟨h1, -⟩
    exact hk (h1 ▸ h.2 x hi)

structure Node where
  type : Kind
  nlink : Int
  ents : List Dirent

variable {a : Nat → Node} {x y : Node}

def num (a : Nat → Node) (d i : Nat) : Nat := (((a d).ents[i]?).map (fun de => de.inum)).getD 0

def links (n : Nat) (a : Nat → Node) (k : Nat) : Nat := ∑ d ∈ Finset.range n, cnt (a d).ents k

theorem links_update (hd : d < n) :
    links n (update a d x) k + cnt (a d).ents k = links n a k + cnt x.ents k := by
  unfold links
  have hmem : d ∈ Finset.range n := Finset.mem_range.mpr hd
  rw [← Finset.sum_erase_add _ _ hmem, ← Finset.sum_erase_add (Finset.range n) (fun d => cnt (a d).ents k) hmem,
    update_self]
  have hsum : ∑ j ∈ (Finset.range n).erase d, cnt (update a d x j).ents k =
      ∑ j ∈ (Finset.range n).erase d, cnt (a j).ents k := by
    refine sum_congr rfl (fun j hj => ?_)
    rw [update_of_ne (ne_of_mem_erase hj)]
  omega

theorem cnt_le_links (hd : d < n) : cnt (a d).ents k ≤ links n a k :=
  Finset.single_le_sum (f := fun d => cnt (a d).ents k) (fun _ _ => Nat.zero_le _) (Finset.mem_range.mpr hd)

theorem num_some (h : num a d i ≠ 0) : ∃ de, (a d).ents[i]? = some de ∧ de.inum = num a d i := by
  unfold num at *
  cases he : (a d).ents[i]? with
  | none =>
    rw [he] at h
    exact absurd rfl h
  | some de => exact ⟨de, rfl, rfl⟩

theorem num_of (h : (a d).ents[i]? = some de) : num a d i = de.inum := by
  rw [num, h]
  rfl

end Counting

section Trees

/-- The tree of directories: what entries name is allocated, a directory is
named by one entry in its parent and by `.` and `..` entries only, and link
counts are exact. -/
structure Tree (n : Nat) (a : Nat → Node) : Prop where
  root : (a ROOTINO).type = .dir
  rootup : num a ROOTINO 1 = ROOTINO
  range : ∀ k, (a k).type ≠ .free → k ≠ 0 ∧ k < n
  files : ∀ k, (a k).type ≠ .dir → (a k).ents = []
  ok : ∀ d, (a d).type = .dir → DirOk (a d).ents
  self : ∀ d, (a d).type = .dir → num a d 0 = d
  closed : ∀ d i, num a d i ≠ 0 → (a (num a d i)).type ≠ .free
  up : ∀ d, (a d).type = .dir → d ≠ ROOTINO →
    (a (num a d 1)).type = .dir ∧ ∃ i, 2 ≤ i ∧ num a (num a d 1) i = d
  down : ∀ p i, 2 ≤ i → (a (num a p i)).type = .dir → num a p i ≠ ROOTINO ∧ num a p i ≠ p ∧
    num a (num a p i) 1 = p ∧ ∀ j, 2 ≤ j → num a p j = num a p i → j = i
  count : ∀ k, (a k).type ≠ .free → (a k).nlink = links n a k

variable {a : Nat → Node} {x y : Node}

theorem Tree.zero (h : Tree n a) : (a 0).type = .free := by
  by_contra h0
  exact (h.range 0 h0).1 rfl

theorem Tree.dir_of_num (h : Tree n a) (hn : num a d i ≠ 0) : (a d).type = .dir := by
  by_contra hd
  rw [num, h.files d hd] at hn
  exact hn rfl

theorem Tree.counted (h : Tree n a) (hi : 1 ≤ i) (he : (a d).ents[i]? = some de) (h0 : de.inum ≠ 0) :
    cut de.name ≠ cut dot := by
  have hd : (a d).type = .dir := h.dir_of_num (i := i) (by rw [num_of he]; exact h0)
  obtain ⟨x, hx, hx0, hxn⟩ := (h.ok d hd).dot
  intro hc
  have := (h.ok d hd).unique i 0 de x he hx h0 hx0 (hc.trans hxn.symm)
  omega

theorem Tree.links_pos (h : Tree n a) (hi : 1 ≤ i) (hn : num a d i = k) (hk : k ≠ 0) : 0 < links n a k := by
  subst hn
  obtain ⟨de, he, hde⟩ := num_some hk
  have hd := h.dir_of_num hk
  have hlt := (h.range d (by rw [hd]; nofun)).2
  refine lt_of_lt_of_le ?_ (cnt_le_links hlt)
  refine countP_pos_iff.mpr ⟨de, mem_of_getElem? he, ?_⟩
  have := h.counted hi he (hde ▸ hk)
  simp [hde, this]

theorem Tree.dir_linked (h : Tree n a) (hd : (a d).type = .dir) : 0 < links n a d := by
  have hd0 := (h.range d (by rw [hd]; nofun)).1
  by_cases hr : d = ROOTINO
  · subst hr
    exact h.links_pos le_rfl h.rootup hd0
  · obtain ⟨-, i, hi, hn⟩ := h.up d hd hr
    exact h.links_pos (by omega) hn hd0

theorem Tree.entry_linked (h : Tree n a) (hn : num a d i ≠ 0) : 0 < links n a (num a d i) := by
  rcases Nat.eq_zero_or_pos i with rfl | hi
  · rw [h.self d (h.dir_of_num hn)]
    exact h.dir_linked (h.dir_of_num hn)
  · exact h.links_pos hi rfl hn

theorem Tree.links_free (h : Tree n a) (hf : (a k).type = .free) (hk : k ≠ 0) : links n a k = 0 := by
  unfold links
  refine Finset.sum_eq_zero (fun d _ => ?_)
  refine countP_eq_zero.mpr (fun de hde hp => ?_)
  have hin : de.inum = k := by
    simp only [Bool.and_eq_true, beq_iff_eq] at hp
    exact hp.1
  obtain ⟨i, hi⟩ := getElem?_of_mem hde
  have hn : num a d i = k := (num_of hi).trans hin
  exact h.closed d i (hn ▸ hk) (hn ▸ hf)

end Trees

section Changes

variable {a : Nat → Node} {x y : Node} {nm : List Byte}

theorem num_update (hne : ip ≠ dp) : num (update (update a ip x) dp y) d j =
    if d = dp then ((y.ents[j]?).map (fun de => de.inum)).getD 0
    else if d = ip then ((x.ents[j]?).map (fun de => de.inum)).getD 0 else num a d j := by
  unfold num
  refine update_cases d ?_ (fun h1 => ?_)
  · rw [if_pos rfl]
  · rw [if_neg h1]
    by_cases h2 : d = ip
    · subst h2
      rw [update_self, if_pos rfl]
    · rw [update_of_ne h2, if_neg h2]

theorem num_place {z : Node} (hz : z.ents = place (a dp).ents i de) (hi : i ≤ (a dp).ents.length) :
    ((z.ents[j]?).map (fun de => de.inum)).getD 0 = if j = i then de.inum else num a dp j := by
  rw [hz, place_getElem? hi]
  split
  · rfl
  · rfl

theorem num_edit (hne : ip ≠ dp) (hye : y.ents = place (a dp).ents i de) (hi : i ≤ (a dp).ents.length) (hd : d ≠ ip) :
    num (update (update a ip x) dp y) d j = if d = dp ∧ j = i then de.inum else num a d j := by
  rw [num_update hne, num_place hye hi]
  by_cases h1 : d = dp
  · subst h1
    by_cases h2 : j = i <;> simp [h2]
  · have h3 : ¬ (d = dp ∧ j = i) := fun hc => h1 hc.1
    rw [if_neg h1, if_neg hd, if_neg h3]

theorem num_low (hne : ip ≠ dp) (hye : y.ents = place (a dp).ents i de) (hi : i ≤ (a dp).ents.length) (hge : 2 ≤ i)
    (hd : d ≠ ip) (hj : j < 2) : num (update (update a ip x) dp y) d j = num a d j := by
  rw [num_edit hne hye hi hd, if_neg]
  rintro ⟨-, rfl⟩
  omega

theorem eq_update_two {b : Nat → Node} (h : ∀ j, j ≠ ip → j ≠ dp → b j = a j) :
    b = update (update a ip (b ip)) dp (b dp) := by
  funext j
  refine update_cases j ?_ (fun h1 => ?_)
  · rfl
  · by_cases h2 : j = ip
    · rw [h2, update_self]
    · rw [update_of_ne h2, h j h2 h1]

theorem links_update_two (hne : ip ≠ dp) (hip : ip < n) (hdp : dp < n) :
    links n (update (update a ip x) dp y) k + cnt (a ip).ents k + cnt (a dp).ents k =
      links n a k + cnt x.ents k + cnt y.ents k := by
  have h1 := links_update (a := update a ip x) (x := y) (k := k) hdp
  have h2 := links_update (a := a) (x := x) (k := k) hip
  rw [update_of_ne (Ne.symm hne)] at h1
  omega

theorem Tree.leaf {b : Nat → Node} (h : Tree n a) (hdir : ∀ d, (b d).type = .dir ↔ (a d).type = .dir)
    (hnum : ∀ d j, num b d j = num a d j ∨
      2 ≤ j ∧ (a (num a d j)).type ≠ .dir ∧ (a (num b d j)).type ≠ .dir)
    (hrange : ∀ k, (b k).type ≠ .free → k ≠ 0 ∧ k < n) (hfiles : ∀ k, (b k).type ≠ .dir → (b k).ents = [])
    (hok : ∀ d, (b d).type = .dir → DirOk (b d).ents)
    (hclosed : ∀ d i, num b d i ≠ 0 → (b (num b d i)).type ≠ .free)
    (hcount : ∀ k, (b k).type ≠ .free → (b k).nlink = links n b k) : Tree n b := by
  have hlow : ∀ d j, j < 2 → num b d j = num a d j := by
    intro d j hj
    rcases hnum d j with h1 | ⟨h1, -⟩
    · exact h1
    · omega
  -- slots that name a directory are the same before and after
  have hsame : ∀ d j, (a (num a d j)).type = .dir ∨ (a (num b d j)).type = .dir → num b d j = num a d j := by
    intro d j hd
    rcases hnum d j with h1 | ⟨-, h2, h3⟩
    · exact h1
    · rcases hd with hd | hd
      · exact absurd hd h2
      · exact absurd hd h3
  refine ⟨(hdir _).mpr h.root, (hlow _ 1 (by omega)).trans h.rootup, hrange, hfiles, hok, fun d hd => ?_, hclosed,
    fun d hd hr => ?_, fun p i hi hd => ?_, hcount⟩
  · rw [hlow d 0 (by omega)]
    exact h.self d ((hdir d).mp hd)
  · obtain ⟨h1, i, h2, h3⟩ := h.up d ((hdir d).mp hd) hr
    rw [hlow d 1 (by omega)]
    refine ⟨(hdir _).mpr h1, i, h2, ?_⟩
    rw [hsame _ i (.inl (by rw [h3]; exact (hdir d).mp hd))]
    exact h3
  · have heq := hsame p i (.inr ((hdir _).mp hd))
    rw [heq] at hd ⊢
    obtain ⟨h1, h2, h3, h4⟩ := h.down p i hi ((hdir _).mp hd)
    refine ⟨h1, h2, by rw [hlow _ 1 (by omega)]; exact h3, fun j hj hc => h4 j hj ?_⟩
    rw [← hc]
    refine (hsame p j (.inr ?_)).symm
    rw [hc]
    exact (hdir _).mp hd

theorem Tree.free (h : Tree n a) (hd : (a k).type ≠ .dir) (hl : links n a k = 0) (hx : x.type = .free)
    (hxe : x.ents = []) : Tree n (update a k x) := by
  have hents : ∀ d, (update a k x d).ents = (a d).ents := by
    intro d
    by_cases hdk : d = k
    · subst hdk
      rw [update_self, hxe, h.files d hd]
    · rw [update_of_ne hdk]
  have hnum : ∀ d i, num (update a k x) d i = num a d i := by
    intro d i
    unfold num
    rw [hents]
  have hdir : ∀ d, (update a k x d).type = .dir ↔ (a d).type = .dir := by
    intro d
    refine update_cases d ?_ (fun _ => ?_)
    · rw [hx]
      exact ⟨nofun, fun hc => absurd hc hd⟩
    · rfl
  have hkept : ∀ j, (update a k x j).type ≠ .free → j ≠ k := by
    rintro j hj rfl
    rw [update_self] at hj
    exact hj hx
  refine h.leaf hdir (fun d i => .inl (hnum d i)) (fun j hj => ?_) (fun j hj => ?_) (fun d ht => ?_)
    (fun d i hn => ?_) (fun j hj => ?_)
  · have hjk := hkept j hj
    rw [update_of_ne hjk] at hj
    exact h.range j hj
  · rw [hents]
    exact h.files j (fun hc => hj ((hdir j).mpr hc))
  · rw [hents]
    exact h.ok d ((hdir d).mp ht)
  · rw [hnum] at hn ⊢
    have hnk : num a d i ≠ k := by
      intro hc
      have := h.entry_linked hn
      rw [hc, hl] at this
      exact lt_irrefl 0 this
    rw [update_of_ne hnk]
    exact h.closed d i hn
  · have hjk := hkept j hj
    rw [update_of_ne hjk] at hj ⊢
    rw [h.count j hj]
    unfold links
    refine congrArg _ (sum_congr rfl (fun d _ => ?_))
    rw [hents]

theorem update_two_ip (hne : ip ≠ dp) : update (update a ip x) dp y ip = x := by
  rw [update_of_ne hne, update_self]

theorem update_two_type (hdp : (a dp).type = .dir) (hy : y.type = .dir) (hd : d ≠ ip) :
    (update (update a ip x) dp y d).type = (a d).type := by
  refine update_cases d ?_ (fun _ => ?_)
  · rw [hy, hdp]
  · rw [update_of_ne hd]

theorem cntAt_of_num (h : num a dp i ≠ k) : cntAt (a dp).ents i k = 0 := by
  unfold num at h
  unfold cntAt
  cases he : (a dp).ents[i]? with
  | none => rfl
  | some e =>
    rw [he] at h
    rw [toList_some, cnt_singleton, if_neg (fun hc => h hc.1)]

/-- A slot of `dp` named nothing or the file `ip`, and now names nothing or
`ip`; the link count of `ip` follows. -/
theorem Tree.edit (h : Tree n a) (hdp : (a dp).type = .dir) (hip : (a ip).type ≠ .dir) (hin : ip < n)
    (hip0 : ip ≠ 0) (hi : i ≤ (a dp).ents.length) (hge : 2 ≤ i) (hold : num a dp i = ip ∨ num a dp i = 0)
    (hnew : de.inum = ip ∨ de.inum = 0) (hok : DirOk (place (a dp).ents i de)) (hxd : x.type ≠ .dir)
    (hxf : x.type ≠ .free) (hxe : x.ents = [])
    (hxl : x.nlink + cntAt (a dp).ents i ip = links n a ip + cnt [de] ip) (hyt : y.type = .dir)
    (hyl : y.nlink = (a dp).nlink) (hye : y.ents = place (a dp).ents i de) :
    Tree n (update (update a ip x) dp y) := by
  have hne : ip ≠ dp := by
    rintro rfl
    exact hip hdp
  have hdpn := h.range dp (by rw [hdp]; nofun)
  have hnum : ∀ d j, num (update (update a ip x) dp y) d j =
      if d = dp ∧ j = i then de.inum else num a d j := by
    intro d j
    by_cases hd : d = ip
    · subst hd
      rw [num_update hne, if_neg hne, if_pos rfl, if_neg (fun hc => hne hc.1), hxe, num, h.files d hip]
    · exact num_edit hne hye hi hd
  have hleaf : ∀ c, c = ip ∨ c = 0 → (a c).type ≠ .dir := by
    rintro c (rfl | rfl)
    · exact hip
    · rw [h.zero]
      nofun
  have htype : ∀ d, d ≠ ip → (update (update a ip x) dp y d).type = (a d).type :=
    fun d hd => update_two_type hdp hyt hd
  have hx' := update_two_ip (a := a) (x := x) (y := y) hne
  have hdir : ∀ d, (update (update a ip x) dp y d).type = .dir ↔ (a d).type = .dir := by
    intro d
    by_cases h1 : d = ip
    · subst h1
      rw [hx']
      exact ⟨fun hc => absurd hc hxd, fun hc => absurd hc hip⟩
    · rw [htype d h1]
  refine h.leaf hdir (fun d j => ?_) (fun j hj => ?_) (fun j hj => ?_) (fun d hd => ?_) (fun d j hn => ?_)
    (fun j hj => ?_)
  · rw [hnum]
    split
    · rename_i hc
      obtain ⟨rfl, rfl⟩ := hc
      exact .inr ⟨hge, hleaf _ hold, hleaf _ hnew⟩
    · exact .inl rfl
  · by_cases h1 : j = ip
    · exact h1 ▸ ⟨hip0, hin⟩
    · rw [htype j h1] at hj
      exact h.range j hj
  · by_cases h1 : j = ip
    · rw [h1, hx', hxe]
    · have hnd : (a j).type ≠ .dir := fun hc => hj ((hdir j).mpr hc)
      have h2 : j ≠ dp := by
        rintro rfl
        exact hnd hdp
      rw [update_of_ne h2, update_of_ne h1]
      exact h.files j hnd
  · by_cases h1 : d = dp
    · subst h1
      rw [update_self, hye]
      exact hok
    · have h2 : d ≠ ip := by
        rintro rfl
        exact hip ((hdir d).mp hd)
      rw [update_of_ne h1, update_of_ne h2]
      exact h.ok d ((hdir d).mp hd)
  · rw [hnum] at hn ⊢
    split at hn
    · rename_i hc
      rw [if_pos hc, hnew.resolve_right hn, hx']
      exact hxf
    · rename_i hc
      rw [if_neg hc]
      by_cases h1 : num a d j = ip
      · rw [h1, hx']
        exact hxf
      · rw [htype _ h1]
        exact h.closed d j hn
  · have hl := links_update_two (a := a) (x := x) (y := y) (k := j) hne hin hdpn.2
    have hp := cnt_place de j hi
    rw [h.files ip hip, hxe, hye] at hl
    by_cases h1 : j = ip
    · subst h1
      rw [hx']
      omega
    · have hj0 : j ≠ 0 := by
        rintro rfl
        rw [htype 0 h1, h.zero] at hj
        exact hj rfl
      have hat : num a dp i ≠ j := by
        rcases hold with hc | hc
        · rw [hc]
          exact Ne.symm h1
        · rw [hc]
          exact Ne.symm hj0
      have hde : ¬ (de.inum = j ∧ cut de.name ≠ cut dot) := by
        rintro ⟨hc, -⟩
        rcases hnew with hc' | hc'
        · exact h1 (hc.symm.trans hc')
        · exact hj0 (hc.symm.trans hc')
      rw [cntAt_of_num hat, cnt_singleton, if_neg hde] at hp
      have hnl : (update (update a ip x) dp y j).nlink = (a j).nlink := by
        refine update_cases j ?_ (fun _ => ?_)
        · rw [hyl]
        · rw [update_of_ne h1]
      rw [htype j h1] at hj
      rw [hnl, h.count j hj]
      omega

theorem num_free (hs : FreeSlot (a dp).ents i) : num a dp i = 0 := by
  unfold num
  cases hi : (a dp).ents[i]? with
  | none => rfl
  | some e => exact hs.2 e hi

theorem Tree.link (h : Tree n a) (hdp : (a dp).type = .dir) (hip : (a ip).type ≠ .dir) (hin : ip < n)
    (hip0 : ip ≠ 0) (hs : FreeSlot (a dp).ents i) (hno : assoc (a dp).ents (cut name) = none)
    (hdot : cut name ≠ cut dot) (hxd : x.type ≠ .dir) (hxf : x.type ≠ .free) (hxe : x.ents = [])
    (hxl : x.nlink = links n a ip + 1) (hyt : y.type = .dir) (hyl : y.nlink = (a dp).nlink)
    (hye : y.ents = place (a dp).ents i ⟨ip, name⟩) :
    Tree n (update (update a ip x) dp y) := by
  refine h.edit hdp hip hin hip0 hs.1 ((h.ok dp hdp).slot_ge hs) (.inr (num_free hs)) (.inl rfl)
    ((h.ok dp hdp).link hs hno) hxd hxf hxe ?_ hyt hyl hye
  have hone : cnt [⟨ip, name⟩] ip = 1 := by
    rw [cnt_singleton, if_pos ⟨rfl, hdot⟩]
  rw [hone, cntAt_free hs hip0]
  omega

theorem Tree.unlink (h : Tree n a) (hdp : (a dp).type = .dir) (hip : (a ip).type ≠ .dir)
    (hf : (a ip).type ≠ .free) (he : (a dp).ents[i]? = some de) (hde : de.inum = ip)
    (hdot : cut de.name ≠ cut dot) (hdd : cut de.name ≠ cut dotdot) (hxt : x.type = (a ip).type) (hxe : x.ents = [])
    (hxl : x.nlink = (a ip).nlink - 1) (hyt : y.type = .dir) (hyl : y.nlink = (a dp).nlink)
    (hye : y.ents = place (a dp).ents i noEntry) :
    Tree n (update (update a ip x) dp y) := by
  obtain ⟨hip0, hin⟩ := h.range ip hf
  have hnum : num a dp i = ip := (num_of he).trans hde
  have hi : i ≤ (a dp).ents.length := le_of_lt (List.getElem?_eq_some_iff.mp he).1
  refine h.edit hdp hip hin hip0 hi ((h.ok dp hdp).other_ge he hdot hdd) (.inl hnum) (.inr rfl)
    ((h.ok dp hdp).clear he rfl hdot hdd) (hxt ▸ hip) (hxt ▸ hf) hxe ?_ hyt hyl hye
  have hone : cntAt (a dp).ents i ip = 1 := by
    rw [cntAt, he, toList_some, cnt_singleton, if_pos ⟨hde, hdot⟩]
  have hzero : cnt [noEntry] ip = 0 := by
    rw [cnt_singleton, if_neg (fun hc => hip0 hc.1.symm)]
  rw [hone, hzero, hxl, h.count ip hf]
  omega

end Changes

section Directories

variable {a : Nat → Node} {x y : Node}

theorem Tree.mkdir (h : Tree n a) (hdp : (a dp).type = .dir) (hip : (a ip).type = .free) (hin : ip < n)
    (hip0 : ip ≠ 0) (hs : FreeSlot (a dp).ents i) (hno : assoc (a dp).ents (cut name) = none)
    (hdot : cut name ≠ cut dot) (hxd : x.type = .dir) (hxl : x.nlink = 1)
    (hxe : x.ents = [⟨ip, strncpy DIRSIZ dot⟩, ⟨dp, strncpy DIRSIZ dotdot⟩]) (hyt : y.type = .dir)
    (hyl : y.nlink = (a dp).nlink + 1) (hye : y.ents = place (a dp).ents i ⟨ip, name⟩) :
    Tree n (update (update a ip x) dp y) := by
  have hne : ip ≠ dp := by
    rintro rfl
    rw [hip] at hdp
    cases hdp
  have hdpn := h.range dp (by rw [hdp]; nofun)
  have hge : 2 ≤ i := (h.ok dp hdp).slot_ge hs
  have hnot : ∀ d j, num a d j ≠ ip := by
    intro d j hc
    exact h.closed d j (hc ▸ hip0) (hc ▸ hip)
  have hnumip : ∀ j, num (update (update a ip x) dp y) ip j =
      if j = 0 then ip else if j = 1 then dp else 0 := by
    intro j
    rw [num_update hne, if_neg hne, if_pos rfl, hxe]
    match j with
    | 0 => rfl
    | 1 => rfl
    | j + 2 => rfl
  have hnum : ∀ d j, d ≠ ip → num (update (update a ip x) dp y) d j = if d = dp ∧ j = i then ip else num a d j :=
    fun d j hd => num_edit hne hye hs.1 hd
  have hlow : ∀ d j, d ≠ ip → j < 2 → num (update (update a ip x) dp y) d j = num a d j :=
    fun d j hd hj => num_low hne hye hs.1 hge hd hj
  have htype : ∀ d, d ≠ ip → (update (update a ip x) dp y d).type = (a d).type :=
    fun d hd => update_two_type hdp hyt hd
  have hx' := update_two_ip (a := a) (x := x) (y := y) hne
  have hroot : ROOTINO ≠ ip := by
    intro hc
    have := h.root
    rw [hc, hip] at this
    cases this
  refine ⟨by rw [htype _ hroot]; exact h.root, by rw [hlow _ 1 hroot (by omega)]; exact h.rootup,
    fun j hj => ?_, fun j hj => ?_, fun d hd => ?_, fun d hd => ?_, fun d j hn => ?_, fun d hd hr => ?_,
    fun p j hj hd => ?_, fun j hj => ?_⟩
  · by_cases h1 : j = ip
    · exact h1 ▸ ⟨hip0, hin⟩
    · rw [htype j h1] at hj
      exact h.range j hj
  · have h1 : j ≠ ip := by
      rintro rfl
      rw [hx'] at hj
      exact hj hxd
    rw [htype j h1] at hj
    have h2 : j ≠ dp := by
      rintro rfl
      exact hj hdp
    rw [update_of_ne h2, update_of_ne h1]
    exact h.files j hj
  · by_cases h1 : d = dp
    · subst h1
      rw [update_self, hye]
      exact (h.ok d hdp).link hs hno
    · by_cases h2 : d = ip
      · subst h2
        rw [hx', hxe]
        exact DirOk.new hip0 hdpn.1
      · rw [htype d h2] at hd
        rw [update_of_ne h1, update_of_ne h2]
        exact h.ok d hd
  · by_cases h2 : d = ip
    · rw [h2, hnumip, if_pos rfl]
    · rw [htype d h2] at hd
      rw [hlow d 0 h2 (by omega)]
      exact h.self d hd
  · by_cases h2 : d = ip
    · subst h2
      rw [hnumip] at hn ⊢
      split
      · rw [hx', hxd]
        nofun
      · rename_i h0
        rw [if_neg h0] at hn
        split
        · rw [update_self, hyt]
          nofun
        · rename_i h1
          rw [if_neg h1] at hn
          exact absurd rfl hn
    · rw [hnum d j h2] at hn ⊢
      split
      · rw [hx', hxd]
        nofun
      · rename_i hc
        rw [if_neg hc] at hn
        rw [htype _ (hnot d j)]
        exact h.closed d j hn
  · by_cases h2 : d = ip
    · subst h2
      rw [hnumip, if_neg (by omega), if_pos rfl]
      refine ⟨by rw [update_self, hyt], i, hge, ?_⟩
      rw [hnum dp i (Ne.symm hne), if_pos ⟨rfl, rfl⟩]
    · rw [htype d h2] at hd
      obtain ⟨h3, j, h4, h5⟩ := h.up d hd hr
      have hd0 := (h.range d (by rw [hd]; nofun)).1
      rw [hlow d 1 h2 (by omega), htype _ (hnot d 1)]
      refine ⟨h3, j, h4, ?_⟩
      rw [hnum _ j (hnot d 1), if_neg]
      · exact h5
      · rintro ⟨hc, rfl⟩
        rw [hc, num_free hs] at h5
        exact hd0 h5.symm
  · by_cases h2 : p = ip
    · subst h2
      rw [hnumip, if_neg (by omega), if_neg (by omega), htype 0 (Ne.symm hip0), h.zero] at hd
      cases hd
    · rw [hnum p j h2] at hd ⊢
      split
      · rename_i hc
        obtain ⟨rfl, rfl⟩ := hc
        refine ⟨Ne.symm hroot, hne, by rw [hnumip, if_neg (by omega), if_pos rfl], fun j' hj' hc => ?_⟩
        rw [hnum p j' h2] at hc
        split at hc
        · rename_i hc'
          exact hc'.2
        · exact absurd hc (hnot p j')
      · rename_i hc
        rw [if_neg hc, htype _ (hnot p j)] at hd
        obtain ⟨h3, h4, h5, h6⟩ := h.down p j hj hd
        refine ⟨h3, h4, by rw [hlow _ 1 (hnot p j) (by omega)]; exact h5, fun j' hj' hc' => h6 j' hj' ?_⟩
        rw [hnum p j' h2] at hc'
        split at hc'
        · exact absurd hc'.symm (hnot p j)
        · exact hc'
  · have hl := links_update_two (a := a) (x := x) (y := y) (k := j) hne hin hdpn.2
    have hj0 : j ≠ 0 := by
      rintro rfl
      rw [htype 0 (Ne.symm hip0), h.zero] at hj
      exact hj rfl
    have hp := cnt_place ⟨ip, name⟩ j hs.1
    have hfile : (a ip).ents = [] := h.files ip (by rw [hip]; nofun)
    have hxc : cnt x.ents j = if dp = j then 1 else 0 := by
      have hdots : cut dotdot ≠ cut dot := by decide
      rw [hxe, cnt, countP_cons, ← cnt, cnt_singleton, cut_strncpy, cut_strncpy]
      simp [hdots]
    rw [cntAt_free hs hj0, cnt_singleton] at hp
    rw [hfile, hye, hxc] at hl
    have hnil : cnt [] j = 0 := rfl
    by_cases h1 : j = ip
    · subst h1
      rw [if_pos ⟨rfl, hdot⟩] at hp
      rw [if_neg (Ne.symm hne), h.links_free hip hip0] at hl
      rw [hx', hxl]
      omega
    · rw [if_neg (fun hc => h1 hc.1.symm)] at hp
      rw [htype j h1] at hj
      by_cases h2 : j = dp
      · subst h2
        rw [if_pos rfl] at hl
        rw [update_self, hyl, h.count j hj]
        omega
      · rw [if_neg (Ne.symm h2)] at hl
        rw [update_of_ne h2, update_of_ne h1, h.count j hj]
        omega

theorem Tree.cnt_empty (h : Tree n a) (hip : (a ip).type = .dir) (hemp : ∀ j, 2 ≤ j → num a ip j = 0)
    (hk : k ≠ 0) : cnt (a ip).ents k = if num a ip 1 = k then 1 else 0 := by
  obtain ⟨x0, h0, -, hn0⟩ := (h.ok ip hip).dot
  obtain ⟨x1, h1, -, hn1⟩ := (h.ok ip hip).dotdot
  have hnum : num a ip 1 = x1.inum := num_of h1
  rw [hnum]
  unfold num at hemp
  cases he : (a ip).ents with
  | nil =>
    rw [he] at h0
    cases h0
  | cons y0 tl =>
    cases tl with
    | nil =>
      rw [he] at h1
      cases h1
    | cons y1 rest =>
      rw [he] at h0 h1 hemp
      obtain rfl : y0 = x0 := some.inj h0
      obtain rfl : y1 = x1 := some.inj h1
      have hrest : cnt rest k = 0 := by
        refine countP_eq_zero.mpr (fun e he' hp => ?_)
        obtain ⟨j, hj⟩ := getElem?_of_mem he'
        have hz := hemp (j + 2) (by omega)
        rw [getElem?_cons_succ, getElem?_cons_succ, hj] at hz
        simp only [Bool.and_eq_true, beq_iff_eq] at hp
        exact hk (hp.1.symm.trans hz)
      have hdots : cut dotdot ≠ cut dot := by decide
      unfold cnt at hrest ⊢
      rw [countP_cons, countP_cons, hrest, hn0, hn1]
      simp [hdots]

section

variable (h : Tree n a) (hdp : (a dp).type = .dir) (hip : (a ip).type = .dir) (hemp : ∀ j, 2 ≤ j → num a ip j = 0) (he : (a dp).ents[i]? = some de) (hde : de.inum = ip) (hdot : cut de.name ≠ cut dot) (hdd : cut de.name ≠ cut dotdot)

include h hdp hip hemp he hde hdot hdd

theorem Tree.rmdir (hxt : x.type = .free) (hxe : x.ents = [])
    (hyt : y.type = .dir) (hyl : y.nlink = (a dp).nlink - 1) (hye : y.ents = place (a dp).ents i noEntry) :
    Tree n (update (update a ip x) dp y) := by
  have hge : 2 ≤ i := (h.ok dp hdp).other_ge he hdot hdd
  have hi : i ≤ (a dp).ents.length := le_of_lt (List.getElem?_eq_some_iff.mp he).1
  have hat : num a dp i = ip := (num_of he).trans hde
  obtain ⟨hip0, hin⟩ := h.range ip (by rw [hip]; nofun)
  have hdpn := h.range dp (by rw [hdp]; nofun)
  obtain ⟨hroot, hne, hup, huniq⟩ := h.down dp i hge (by rw [hat]; exact hip)
  rw [hat] at hroot hne hup huniq
  -- `ip` is named by its own `.` and by the entry that goes away
  have hnot : ∀ d j, d ≠ ip → num a d j = ip → d = dp ∧ j = i := by
    intro d j hd hc
    have hdd := h.dir_of_num (d := d) (i := j) (by rw [hc]; exact hip0)
    rcases lt_or_ge j 2 with hj | hj
    · rcases Nat.eq_zero_or_pos j with rfl | hj0
      · exact absurd ((h.self d hdd).symm.trans hc) hd
      · obtain rfl : j = 1 := by omega
        by_cases hr : d = ROOTINO
        · subst hr
          exact absurd (hc.symm.trans h.rootup) hroot
        · obtain ⟨-, j', hj', hn⟩ := h.up d hdd hr
          rw [hc, hemp j' hj'] at hn
          exact absurd hn.symm (h.range d (by rw [hdd]; nofun)).1
    · obtain ⟨-, -, h3, -⟩ := h.down d j hj (by rw [hc]; exact hip)
      rw [hc, hup] at h3
      subst h3
      exact ⟨rfl, huniq j hj hc⟩
  have hnumip : ∀ j, num (update (update a ip x) dp y) ip j = 0 := by
    intro j
    rw [num_update hne, if_neg hne, if_pos rfl, hxe]
    rfl
  have hnum : ∀ d j, d ≠ ip → num (update (update a ip x) dp y) d j = if d = dp ∧ j = i then 0 else num a d j :=
    fun d j hd => num_edit hne hye hi hd
  have hlow : ∀ d j, d ≠ ip → j < 2 → num (update (update a ip x) dp y) d j = num a d j :=
    fun d j hd hj => num_low hne hye hi hge hd hj
  have htype : ∀ d, d ≠ ip → (update (update a ip x) dp y d).type = (a d).type :=
    fun d hd => update_two_type hdp hyt hd
  have hx' := update_two_ip (a := a) (x := x) (y := y) hne
  have hkept : ∀ j, (update (update a ip x) dp y j).type ≠ .free → j ≠ ip := by
    rintro j hj rfl
    rw [hx'] at hj
    exact hj hxt
  have hdirs : ∀ j, (update (update a ip x) dp y j).type = .dir → j ≠ ip ∧ (a j).type = .dir := by
    intro j hj
    have h1 := hkept j (by rw [hj]; nofun)
    rw [htype j h1] at hj
    exact ⟨h1, hj⟩
  refine ⟨by rw [htype _ (Ne.symm hroot)]; exact h.root,
    by rw [hlow _ 1 (Ne.symm hroot) (by omega)]; exact h.rootup,
    fun j hj => ?_, fun j hj => ?_, fun d hd => ?_, fun d hd => ?_, fun d j hn => ?_, fun d hd hr => ?_,
    fun p j hj hd => ?_, fun j hj => ?_⟩
  · rw [htype j (hkept j hj)] at hj
    exact h.range j hj
  · by_cases h1 : j = ip
    · rw [h1, hx', hxe]
    · rw [htype j h1] at hj
      have h2 : j ≠ dp := by
        rintro rfl
        exact hj hdp
      rw [update_of_ne h2, update_of_ne h1]
      exact h.files j hj
  · obtain ⟨h2, hd'⟩ := hdirs d hd
    by_cases h1 : d = dp
    · subst h1
      rw [update_self, hye]
      exact (h.ok d hdp).clear he rfl hdot hdd
    · rw [update_of_ne h1, update_of_ne h2]
      exact h.ok d hd'
  · obtain ⟨h2, hd'⟩ := hdirs d hd
    rw [hlow d 0 h2 (by omega)]
    exact h.self d hd'
  · have h2 : d ≠ ip := by
      rintro rfl
      exact hn (hnumip j)
    rw [hnum d j h2] at hn ⊢
    split at hn
    · exact absurd rfl hn
    · rename_i hc
      rw [if_neg hc, htype _ (fun hc' => hc (hnot d j h2 hc'))]
      exact h.closed d j hn
  · obtain ⟨h2, hd'⟩ := hdirs d hd
    obtain ⟨h3, j, h4, h5⟩ := h.up d hd' hr
    have h6 : num a d 1 ≠ ip := by
      intro hc
      have := (hnot d 1 h2 hc).2
      omega
    rw [hlow d 1 h2 (by omega), htype _ h6]
    refine ⟨h3, j, h4, ?_⟩
    rw [hnum _ j h6, if_neg]
    · exact h5
    · rintro ⟨hc, rfl⟩
      rw [hc, hat] at h5
      exact h2 h5.symm
  · have h2 : p ≠ ip := by
      rintro rfl
      obtain ⟨-, hc⟩ := hdirs _ hd
      rw [hnumip, h.zero] at hc
      cases hc
    obtain ⟨h7, hd'⟩ := hdirs _ hd
    have hc : ¬ (p = dp ∧ j = i) := by
      intro hc
      rw [hnum p j h2, if_pos hc, h.zero] at hd'
      cases hd'
    rw [hnum p j h2, if_neg hc] at h7 hd' ⊢
    obtain ⟨h3, h4, h5, h6⟩ := h.down p j hj hd'
    refine ⟨h3, h4, by rw [hlow _ 1 h7 (by omega)]; exact h5, fun j' hj' hc' => h6 j' hj' ?_⟩
    rw [hnum p j' h2] at hc'
    split at hc'
    · rw [← hc', h.zero] at hd'
      cases hd'
    · exact hc'
  · have h1 := hkept j hj
    have hl := links_update_two (a := a) (x := x) (y := y) (k := j) hne hin hdpn.2
    have hj0 : j ≠ 0 := by
      rintro rfl
      rw [htype 0 h1, h.zero] at hj
      exact hj rfl
    have hp := cnt_place noEntry j hi
    have hzero : cnt [noEntry] j = 0 := by
      rw [cnt_singleton, if_neg (fun hc => hj0 hc.1.symm)]
    have hnil : cnt [] j = 0 := rfl
    rw [cntAt_of_num (by rw [hat]; exact Ne.symm h1), hzero] at hp
    rw [h.cnt_empty hip hemp hj0, hup, hxe, hye] at hl
    rw [htype j h1] at hj
    by_cases h2 : j = dp
    · subst h2
      rw [if_pos rfl] at hl
      rw [update_self, hyl, h.count j hj]
      omega
    · rw [if_neg (Ne.symm h2)] at hl
      rw [update_of_ne h2, update_of_ne h1, h.count j hj]
      omega

theorem Tree.links_empty : links n a ip = 1 := by
  have hi : i ≤ (a dp).ents.length := le_of_lt (List.getElem?_eq_some_iff.mp he).1
  have hat : num a dp i = ip := (num_of he).trans hde
  obtain ⟨hip0, hin⟩ := h.range ip (by rw [hip]; nofun)
  have hdpn := h.range dp (by rw [hdp]; nofun)
  obtain ⟨-, hne, hup, -⟩ := h.down dp i ((h.ok dp hdp).other_ge he hdot hdd) (by rw [hat]; exact hip)
  rw [hat] at hne hup
  have htree := h.rmdir (x := ⟨.free, 0, []⟩) (y := ⟨.dir, (a dp).nlink - 1, place (a dp).ents i noEntry⟩)
    hdp hip hemp he hde hdot hdd rfl rfl rfl rfl rfl
  have hzero := htree.links_free (k := ip) (by rw [update_two_ip hne]) hip0
  have hl := links_update_two (a := a) (x := ⟨.free, 0, []⟩)
    (y := ⟨.dir, (a dp).nlink - 1, place (a dp).ents i noEntry⟩) (k := ip) hne hin hdpn.2
  have hp := cnt_place noEntry ip hi
  have hone : cntAt (a dp).ents i ip = 1 := by
    rw [cntAt, he, toList_some, cnt_singleton, if_pos ⟨hde, hdot⟩]
  have hnew : cnt [noEntry] ip = 0 := by
    rw [cnt_singleton, if_neg (fun hc => hip0 hc.1.symm)]
  have hnil : cnt [] ip = 0 := rfl
  rw [hone, hnew] at hp
  rw [hzero, h.cnt_empty hip hemp hip0, hup, if_neg (Ne.symm hne)] at hl
  dsimp only at hl
  omega

end

end Directories

end Xv6Rcu.Fs

import Xv6Rcu.FsTree

namespace Xv6Rcu.Fs

open Exec Function List

variable {sb : Super} {base : Nat → Nat} {rs rs' ls ls' : List Nat} {s t u : State} {k dp ip cwd i : Nat}
  {name path : List Byte} {type : Kind} {major minor : Int}

section Views

def view (s : State) (k : Nat) : Node :=
  ⟨(s.node k).type, (s.node k).nlink, if (s.node k).type = .dir then entries s k else []⟩

def named (sb : Super) (s : State) (k : Nat) : Nat := links sb.ninodes (view s) k

theorem view_ents (h : (s.node k).type = .dir) : (view s k).ents = entries s k := if_pos h

theorem view_file (h : (s.node k).type ≠ .dir) : (view s k).ents = [] := if_neg h

theorem Like.view (h : Like s t k) : Fs.view t k = Fs.view s k := by
  unfold Fs.view
  rw [h.type, h.nlink]
  by_cases hd : (s.node k).type = .dir
  · rw [if_pos hd, if_pos hd, h.entries (by rw [hd]; nofun)]
  · rw [if_neg hd, if_neg hd]

theorem Alike.view (h : Alike s t) : Fs.view t = Fs.view s := funext (fun k => (h k).view)

def Keeps (base : Nat → Nat) (s t : State) : Prop := ∀ k, 0 < base k → (t.node k).type = (s.node k).type

theorem Keeps.trans (h : Keeps base s t) (h' : Keeps base t u) : Keeps base s u :=
  fun k hk => (h' k hk).trans (h k hk)

theorem Alike.keeps (h : Alike s t) : Keeps base s t := fun k _ => (h k).type

def Orphan (base : Nat → Nat) (s : State) : Prop :=
  ∃ k, 0 < base k ∧ (s.node k).type = .dir ∧ (s.node k).nlink = 0

end Views

section Invariant

/-- The directories form a tree with exact link counts, while a call has
references and locks. -/
structure Links (sb : Super) (base : Nat → Nat) (rs ls : List Nat) (s : State) : Prop where
  hold : Hold sb base rs ls s
  tree : Tree sb.ninodes (view s)
  whole : ∀ d, (s.node d).type = .dir → Whole16 s d
  kept : ∀ k, k ∈ rs ∨ 0 < base k → (s.node k).type ≠ .free

section

variable (h : Links sb base rs ls s)

include h

theorem Links.transfer {base' : Nat → Nat} (ha : Alike s t)
    (ht : Hold sb base' rs' ls' t) (hrs : ∀ j, j ∈ rs' ∨ 0 < base' j → j ∈ rs ∨ 0 < base j) :
    Links sb base' rs' ls' t := by
  refine ⟨ht, ?_, fun d hd => (ha d).whole (h.whole d ((ha d).type ▸ hd)), fun k hk => ?_⟩
  · rw [ha.view]
    exact h.tree
  · rw [(ha k).type]
    exact h.kept k (hrs k hk)

theorem Links.alike (ha : Alike s t) (ht : Hold sb base rs ls' t) :
    Links sb base rs ls' t := h.transfer ha ht (fun _ hj => hj)

theorem Links.nlink (hk : (s.node k).type ≠ .free) : (s.node k).nlink = named sb s k :=
  h.tree.count k hk

theorem Links.dir_nlink (hd : (s.node k).type = .dir) : 0 < (s.node k).nlink := by
  have hpos : 0 < named sb s k := h.tree.dir_linked hd
  rw [h.nlink (by rw [hd]; nofun)]
  omega

theorem Links.entry (hd : (s.node dp).type = .dir) {de : Dirent}
    (hi : (entries s dp)[i]? = some de) (h0 : de.inum ≠ 0) :
    (s.node de.inum).type ≠ .free ∧ (s.node de.inum).nlink ≠ 0 := by
  rw [← view_ents hd] at hi
  have hn : num (view s) dp i = de.inum := num_of hi
  have hf : (s.node de.inum).type ≠ .free := by
    have := h.tree.closed dp i (by rw [hn]; exact h0)
    rw [hn] at this
    exact this
  refine ⟨hf, ?_⟩
  have hpos : 0 < named sb s de.inum := by
    have := h.tree.entry_linked (d := dp) (i := i) (by rw [hn]; exact h0)
    rw [hn] at this
    exact this
  rw [h.nlink hf]
  omega

theorem Links.closed : Closed base s := by
  refine ⟨h.whole, fun d hd de hde h0 => ?_⟩
  obtain ⟨i, hi⟩ := getElem?_of_mem hde
  obtain ⟨hf, hn⟩ := h.entry hd hi h0
  exact ⟨hf, .inl hn⟩

theorem Links.okay (hcwd : 0 < base cwd) : Okay base s (start cwd path) := by
  refine ⟨h.closed, ?_⟩
  unfold start
  split
  · have hroot : (s.node ROOTINO).type = .dir := h.tree.root
    have := h.dir_nlink hroot
    exact ⟨by rw [hroot]; nofun, .inl (by omega)⟩
  · exact ⟨h.kept cwd (.inr hcwd), .inr hcwd⟩

theorem Links.freed (hlike : ∀ j, j ≠ k → Like s t j) (hf : (t.node k).type = .free)
    (hd : (s.node k).type ≠ .dir) (hn : named sb s k = 0) (ht : Hold sb base rs' ls' t)
    (hrs : ∀ j, j ∈ rs' ∨ 0 < base j → j ≠ k ∧ (j ∈ rs ∨ 0 < base j)) : Links sb base rs' ls' t := by
  have hview : view t = update (view s) k (view t k) := by
    funext j
    by_cases hj : j = k
    · rw [hj, update_self]
    · rw [update_of_ne hj, (hlike j hj).view]
  refine ⟨ht, ?_, fun d hdir => ?_, fun j hj => ?_⟩
  · rw [hview]
    exact h.tree.free hd hn hf (view_file (by rw [hf]; nofun))
  · have hne : d ≠ k := by
      rintro rfl
      rw [hf] at hdir
      cases hdir
    exact (hlike d hne).whole (h.whole d ((hlike d hne).type ▸ hdir))
  · obtain ⟨hne, hj'⟩ := hrs j hj
    rw [(hlike j hne).type]
    exact h.kept j hj'

theorem Links.put (hp : rs.Perm (k :: rs')) (ht : Put sb k s t)
    (hold : Hold sb base rs' ls' t) : Links sb base rs' ls' t ∧ Keeps base s t := by
  have hsub : ∀ j, j ∈ rs' ∨ 0 < base j → j ∈ rs ∨ 0 < base j :=
    fun j hj => hj.imp_left (fun hm => hp.symm.subset (mem_cons_of_mem _ hm))
  rcases ht.ends with ⟨hl, -⟩ | ⟨-, hone, h0, hf⟩
  · have halike : Alike s t := by
      intro j
      by_cases hj : j = k
      · exact hj ▸ hl
      · exact ht.like j hj
    exact ⟨h.transfer halike hold hsub, halike.keeps⟩
  · have hcount := h.hold.refs k
    have hperm := hp.count_eq k
    rw [count_cons_self] at hperm
    have hgone : ∀ j, j ∈ rs' ∨ 0 < base j → j ≠ k := by
      rintro j hj rfl
      rcases hj with hj | hj
      · have := count_pos_iff.mpr hj
        omega
      · omega
    have hfree : (s.node k).type ≠ .free := h.kept k (.inl (hp.symm.subset mem_cons_self))
    have hn := h.nlink hfree
    refine ⟨h.freed ht.like hf (fun hd => ?_) (by omega) hold (fun j hj => ⟨hgone j hj, hsub j hj⟩), fun j hj => ?_⟩
    · have := h.dir_nlink hd
      omega
    · exact (ht.like j (hgone j (.inr hj))).type

end

end Invariant

section Rules

def Typed (e : Panic) : Prop := e ≠ .noType

theorem typed_benign : Benign Typed := fun _ _ h => h

theorem Links.ilock {Q : Unit → State → Prop} (h : Links sb base rs ls s) (hk : k ∈ rs ∨ 0 < base k)
    (hQ : ∀ t, Alike s t → Links sb base rs (k :: ls) t → Q () t) : Runs (ilock k) s Q Typed :=
  h.hold.ilock hk (fun hf => absurd hf (h.kept k hk)) (fun t hq _ ht => hQ t hq.alike (h.alike hq.alike ht))

theorem Links.iput {Q : Unit → State → Prop} (h : Links sb base rs ls s) (hp : rs.Perm (k :: rs'))
    (hQ : ∀ t, Keeps base s t → Links sb base rs' [] t → Q () t) : Runs (iput k) s Q Typed :=
  h.hold.iput [] hp nofun (fun t ht hold => hQ t (h.put hp ht hold).2 (h.put hp ht hold).1)

theorem Links.iunlockput {Q : Unit → State → Prop} (h : Links sb base rs ls s) (hp : rs.Perm (k :: rs'))
    (hQ : ∀ t, Keeps base s t → Links sb base rs' [] t → Q () t) : Runs (iunlockput k) s Q Typed :=
  h.hold.iunlockput [] hp nofun (fun t ht hold => hQ t (h.put hp ht hold).2 (h.put hp ht hold).1)

theorem Links.cons (h : Links sb base rs ls s) (ha : Alike s t) (hk : (t.node k).type ≠ .free)
    (ht : Hold sb base (k :: rs) ls' t) : Links sb base (k :: rs) ls' t := by
  refine ⟨ht, by rw [ha.view]; exact h.tree, fun d hd => (ha d).whole (h.whole d ((ha d).type ▸ hd)), fun j hj => ?_⟩
  by_cases hjk : j = k
  · exact hjk ▸ hk
  · rw [(ha j).type]
    exact h.kept j (hj.imp_left (fun hm => (mem_cons.mp hm).resolve_left hjk))

theorem Links.namex {Q : Option (Nat × List Byte) → State → Prop} {parent : Bool} (h : Links sb base rs [] s)
    (hcwd : 0 < base cwd) (hnone : ∀ t, Alike s t → Links sb base rs [] t → Q none t)
    (hsome : ∀ ip name t, Alike s t → Links sb base (ip :: rs) [] t → Q (some (ip, name)) t) :
    Runs (namex sb cwd path parent) s Q Typed := by
  have hok : Okay base s (start cwd path) := h.okay hcwd
  refine h.hold.namex hcwd typed_benign (fun hc => absurd hok hc) (fun t _ ha ht => ?_) (fun ip name t _ ha ht => ?_)
  · exact hnone t (ha hok) (h.alike (ha hok) ht)
  · obtain ⟨halike, hlive⟩ := ha hok
    exact hsome ip name t halike (h.cons halike hlive.1 ht)

theorem Links.namei {Q : Option Nat → State → Prop} (h : Links sb base rs [] s) (hcwd : 0 < base cwd)
    (hnone : ∀ t, Alike s t → Links sb base rs [] t → Q none t)
    (hsome : ∀ ip t, Alike s t → Links sb base (ip :: rs) [] t → Q (some ip) t) :
    Runs (namei sb cwd path) s Q Typed := by
  unfold Fs.namei
  rw [runs_bind]
  exact h.namex hcwd hnone (fun ip _ => hsome ip)

theorem Links.dirlookup {Q : Option (Nat × Nat) → State → Prop} (h : Links sb base rs ls s) (hd : dp ∈ ls)
    (hnone : (s.node dp).type = .dir → Q none s)
    (hsome : ∀ ip j, (s.node dp).type = .dir → Names s dp name j ip → Links sb base (ip :: rs) ls (s.got ip) →
      Q (some (ip, DESIZE * j)) (s.got ip)) : Runs (dirlookup sb dp name) s Q Typed := by
  refine h.hold.dirlookup hd (typed_benign.allows s dp) (fun hdir _ => hnone hdir) (fun ip j off hdir hfound hgot => ?_)
  obtain ⟨rfl, hn⟩ := hfound (h.whole dp hdir)
  refine hsome ip j hdir hn (h.cons got_quiet.alike ?_ hgot)
  obtain ⟨h0, de, hj, rfl, -⟩ := hn
  rw [(got_quiet.alike (s := s) _).type]
  exact (h.entry hdir hj h0).1

end Rules

section Create

theorem short_eq {x : Int} (h0 : -32768 ≤ x) (h1 : x ≤ 32767) : short x = x := by
  unfold short
  omega

theorem DirOk.absent_ne_dot {l : List Dirent} {n : List Byte} (h : DirOk l) (hno : assoc l n = none) :
    n ≠ cut Fs.dot := by
  rintro rfl
  obtain ⟨de, h0, hne, hcut⟩ := h.dot
  exact assoc_eq_none.mp hno 0 de h0 hne hcut

theorem Links.change (h : Links sb base rs ls s) (ip dp : Nat) (hlike : ∀ j, j ≠ ip → j ≠ dp → Like s t j)
    (htree : Tree sb.ninodes (update (update (view s) ip (view t ip)) dp (view t dp)))
    (hwhole : ∀ d, d = ip ∨ d = dp → (t.node d).type = .dir → Whole16 t d)
    (hkept : ∀ j, j ∈ rs' ∨ 0 < base j → (t.node j).type ≠ .free) (ht : Hold sb base rs' ls' t) :
    Links sb base rs' ls' t := by
  refine ⟨ht, ?_, fun d hd => ?_, hkept⟩
  · rw [eq_update_two (fun j h1 h2 => (hlike j h1 h2).view)]
    exact htree
  · by_cases h1 : d = ip
    · exact hwhole d (.inl h1) hd
    · by_cases h2 : d = dp
      · exact hwhole d (.inr h2) hd
      · exact (hlike d h1 h2).whole (h.whole d ((hlike d h1 h2).type ▸ hd))

theorem Links.grown (h : Links sb base rs ls s) (hg : Grown type dp ip name t u)
    (hlike : ∀ j, j ≠ ip → Like s t j) (hwas : (s.node ip).type = .free) (hip0 : ip ≠ 0) (hip : ip < sb.ninodes)
    (hdir : (s.node dp).type = .dir) (htype : type ≠ .free)
    (hfew : type = .dir → named sb s dp < 32767) (hu : Hold sb base (ip :: rs) ls' u) :
    Links sb base (ip :: rs) ls' u ∧ Keeps base s u := by
  have hne : ip ≠ dp := by
    rintro rfl
    rw [hwas] at hdir
    cases hdir
  have hldp := hlike dp (Ne.symm hne)
  have hdt : (u.node dp).type = .dir := by
    rw [hg.dtype, hldp.type, hdir]
  have hkeep : ∀ j, j ≠ ip → (u.node j).type = (s.node j).type := by
    intro j hj
    by_cases hjd : j = dp
    · rw [hjd, hdt, hdir]
    · exact ((hlike j hj).trans (hg.like j hj hjd)).type
  obtain ⟨i, hfree, hplace⟩ := hg.slot
  have habs := assoc_absent hg.absent
  rw [hldp.entries (by rw [hdir]; nofun), ← view_ents hdir] at hfree habs hplace
  rw [← view_ents hdt] at hplace
  have hdot := (h.tree.ok dp hdir).absent_ne_dot habs
  rw [← cut_strncpy name] at habs hdot
  refine ⟨h.change ip dp (fun j h1 h2 => (hlike j h1).trans (hg.like j h1 h2)) ?_ ?_ ?_ hu, fun j hj => ?_⟩
  · by_cases htd : type = .dir
    · have hdn := hg.dnlink
      have hnl := h.nlink (k := dp) (by rw [hdir]; nofun)
      have hlt := hfew htd
      have hit : (u.node ip).type = .dir := hg.itype.trans htd
      rw [if_pos htd, hldp.nlink, short_eq (by omega) (by omega)] at hdn
      refine h.tree.mkdir hdir hwas hip hip0 hfree habs hdot hit hg.inlink ?_ hdt hdn hplace
      rw [view_ents hit]
      exact (hg.ientries htd).2
    · have hdn := hg.dnlink
      rw [if_neg htd, hldp.nlink] at hdn
      have hit : (u.node ip).type ≠ .dir := by
        rw [hg.itype]
        exact htd
      refine h.tree.link hdir ?_ hip hip0 hfree habs hdot hit ?_ (view_file hit) ?_ hdt hdn hplace
      · change (s.node ip).type ≠ .dir
        rw [hwas]
        nofun
      · change (u.node ip).type ≠ .free
        rw [hg.itype]
        exact htype
      · have hzero := h.tree.links_free (k := ip) hwas hip0
        rw [hzero]
        exact hg.inlink
  · rintro d (rfl | rfl) hd
    · exact (hg.ientries (hg.itype ▸ hd)).1
    · exact hg.dwhole
  · intro j hj
    by_cases hjip : j = ip
    · rw [hjip, hg.itype]
      exact htype
    · rw [hkeep j hjip]
      exact h.kept j (hj.imp_left (fun hm => (mem_cons.mp hm).resolve_left hjip))
  · have hjip : j ≠ ip := by
      rintro rfl
      exact h.kept j (.inr hj) hwas
    exact hkeep j hjip

theorem Links.create {Q : Option Nat → State → Prop} (h : Links sb base [] [] s) (hcwd : 0 < base cwd)
    (htype : type ≠ .free) (hfew : type = .dir → ∀ k, named sb s k < 32767)
    (hnone : ∀ t, Keeps base s t → Links sb base [] [] t → Q none t)
    (hsome : ∀ ip t, Keeps base s t → (type = .file → (t.node ip).type ≠ .dir) → Links sb base [ip] [ip] t →
      Q (some ip) t) :
    Runs (create sb cwd path type major minor) s Q Typed := by
  unfold Fs.create
  rw [runs_bind]
  refine h.namex hcwd (fun t ha ht => hnone t ha.keeps ht) (fun dp name t ha ht => ?_)
  dsimp only
  rw [runs_bind]
  refine ht.ilock (.inl mem_cons_self) (fun u ha' hu => ?_)
  have hsu : Alike s u := ha.trans ha'
  rw [runs_bind]
  refine hu.dirlookup mem_cons_self (fun hdir => ?_) (fun ip j _ _ hgot => ?_)
  · dsimp only
    rw [runs_bind]
    refine hu.hold.ialloc typed_benign ?_ (fun ip w h0 hal hw => ?_)
    · rw [if_pos rfl, runs_bind]
      exact hu.iunlockput .rfl (fun v hk hv => hnone v (hsu.keeps.trans hk) hv)
    · rw [if_neg h0]
      have hne : ip ≠ dp := by
        rintro rfl
        exact absurd (hal.was.symm.trans hdir) nofun
      have hb : base ip = 0 := by
        by_contra hc
        exact hu.kept ip (.inr (by omega)) hal.was
      have hldp := hal.like dp (Ne.symm hne)
      have hlt := (hu.tree.range dp (by change (u.node dp).type ≠ .free; rw [hdir]; nofun)).2
      have hnums := sb.inums
      refine hw.createNew_grown typed_benign hne hb not_mem_nil hal.node (fun hf => absurd hf htype)
        (hldp.whole (hu.whole dp hdir)) (lt_of_lt_of_le hal.lt hnums) h0 (lt_of_lt_of_le hlt hnums)
        (fun x y hundo hx hput hy => ?_) (fun x y hgrown hx hput hy => ?_)
      · have hlike : ∀ j, j ≠ ip → Like u x j := fun j hj => (hal.like j hj).trans (hundo.like j hj)
        have hlx : Links sb base [dp] [] x := by
          refine hu.freed hlike hundo.free ?_ (hu.tree.links_free hal.was h0) hx (fun j hj => ⟨?_, hj⟩)
          · rw [hal.was]
            nofun
          · rintro rfl
            exact hu.kept j hj hal.was
        obtain ⟨hly, hk⟩ := hlx.put .rfl hput hy
        refine hnone y (hsu.keeps.trans (Keeps.trans (fun j hj => ?_) hk)) hly
        have hjip : j ≠ ip := by
          rintro rfl
          omega
        exact (hlike j hjip).type
      · obtain ⟨hlx, hkx⟩ := hu.grown hgrown hal.like hal.was h0 hal.lt hdir htype
          (fun hd => by have := hfew hd dp; rwa [named, ← hsu.view] at this) hx
        obtain ⟨hly, hk⟩ := hlx.put (List.Perm.swap dp ip []) hput hy
        refine hsome ip y (hsu.keeps.trans (hkx.trans hk)) (fun hf => ?_) hly
        rw [(hput.like ip hne).type, hgrown.itype, hf]
        nofun
  · dsimp only
    rw [runs_bind]
    refine hgot.iunlockput (List.Perm.swap dp ip []) (fun v hk hv => ?_)
    rw [runs_bind]
    refine hv.ilock (.inl mem_cons_self) (fun w ha'' hw => ?_)
    have hkw : Keeps base s w := hsu.keeps.trans (Keeps.trans got_quiet.alike.keeps (hk.trans ha''.keeps))
    rw [runs_bind, runs_look, runs_ite]
    refine ⟨fun hc => ?_, fun _ => ?_⟩
    · refine hsome ip w hkw (fun _ => ?_) hw
      rw [(hw.hold.loaded mem_cons_self).node]
      rcases hc.2 with hc | hc <;> rw [hc] <;> nofun
    · rw [runs_bind]
      exact hw.iunlockput .rfl (fun x hk' hx => hnone x (hkw.trans hk') hx)

end Create

section Calls

def Settled (sb : Super) (base : Nat → Nat) (s t : State) : Prop :=
  Links sb base [] [] { t with outstanding := 1 } ∧ Keeps base s t

theorem Links.beginOp (h : Links sb base [] [] { s with outstanding := 1 }) :
    Links sb base [] [] { s with outstanding := s.outstanding + 1 } :=
  h.alike (alike_outstanding _ _) (h.hold.outst (Nat.succ_pos _))

theorem Links.settled {o : Nat} (h : Links sb base [] ls t) (hk : Keeps base s t) :
    Settled sb base s { t with outstanding := o } :=
  ⟨h.alike (alike_outstanding _ _) ((h.hold.outst one_pos).mono [] nofun), hk⟩

theorem Links.sysMake (h : Links sb base [] [] { s with outstanding := 1 }) (hcwd : 0 < base cwd)
    (htype : type ≠ .free) (hfew : ∀ k, named sb s k < 32767) :
    Runs (sysMake sb cwd path type major minor) s (fun _ t => Settled sb base s t) Typed := by
  unfold Fs.sysMake
  rw [runs_bind, runs_beginOp, runs_bind]
  refine h.beginOp.create hcwd htype (fun _ => hfew) (fun t hk ht => ?_) (fun ip t hk _ ht => ?_)
  · dsimp only
    rw [runs_bind, runs_endOp]
    exact ht.settled hk
  · dsimp only
    rw [runs_bind]
    refine ht.iunlockput .rfl (fun u hk' hu => ?_)
    rw [runs_bind, runs_endOp]
    exact hu.settled (hk.trans hk')

structure Recount (ip : Nat) (n : Int) (s t : State) : Prop where
  like : ∀ j, j ≠ ip → Like s t j
  type : (t.node ip).type = (s.node ip).type
  nlink : (t.node ip).nlink = n
  size : (t.node ip).size = (s.node ip).size
  bytes : ∀ i < (s.node ip).size, (s.node ip).type ≠ .free → fileByte t ip i = fileByte s ip i

theorem Recount.of_touch {n : Int} (ht : Touch sb ip s t) (htype : (t.node ip).type = (s.node ip).type)
    (hn : (t.node ip).nlink = n) (hsize : (t.node ip).size = (s.node ip).size)
    (hb : ∀ i, fileByte t ip i = fileByte s ip i) : Recount ip n s t :=
  ⟨ht.like, htype, hn, hsize, fun i _ _ => hb i⟩

theorem Recount.trans {n m : Int} (h : Recount ip n s t) (h' : Recount ip m t u) : Recount ip m s u :=
  ⟨fun j hj => (h.like j hj).trans (h'.like j hj), h'.type.trans h.type, h'.nlink, h'.size.trans h.size,
    fun i hi hf => (h'.bytes i (h.size ▸ hi) (h.type ▸ hf)).trans (h.bytes i hi hf)⟩

theorem Recount.alike {n : Int} (h : Recount ip n s t) (ha : Alike t u) : Recount ip n s u :=
  ⟨fun j hj => (h.like j hj).trans (ha j), (ha ip).type.trans h.type, (ha ip).nlink.trans h.nlink,
    (ha ip).size.trans h.size,
    fun i hi hf => ((ha ip).bytes (h.type ▸ hf) i (h.size ▸ hi)).trans (h.bytes i hi hf)⟩

theorem Recount.same {n : Int} (h : Recount ip n s t) (hn : n = (s.node ip).nlink) : Alike s t := by
  intro j
  by_cases hj : j = ip
  · subst hj
    exact ⟨h.type, h.nlink.trans hn, h.size, fun hf i hi => h.bytes i hi hf⟩
  · exact h.like j hj

theorem Links.closed_recount {n : Int} (h : Links sb base rs ls s) (hip : (s.node ip).type ≠ .dir)
    (hr : Recount ip n s t) (hn : n ≠ 0) : Closed base t ∧ ∀ k, Live base s k → Live base t k := by
  have hlive : ∀ k, Live base s k → Live base t k := by
    intro k hk
    by_cases hki : k = ip
    · subst hki
      exact ⟨by rw [hr.type]; exact hk.1, .inl (by rw [hr.nlink]; exact hn)⟩
    · exact (hr.like k hki).live hk
  have hdir : ∀ d, (t.node d).type = .dir → d ≠ ip := by
    rintro d hd rfl
    rw [hr.type] at hd
    exact hip hd
  refine ⟨⟨fun d hd => ?_, fun d hd de hde h0 => ?_⟩, hlive⟩
  · have hl := hr.like d (hdir d hd)
    exact hl.whole (h.whole d (hl.type ▸ hd))
  · have hl := hr.like d (hdir d hd)
    have hd' := hl.type ▸ hd
    rw [hl.entries (by rw [hd']; nofun)] at hde
    exact hlive _ (h.closed.live d hd' de hde h0)

theorem Links.linkFail (h : Links sb base [ip] ls s) (hr : Recount ip ((s.node ip).nlink + 1) s t)
    (h0 : 0 ≤ (s.node ip).nlink) (h1 : (s.node ip).nlink < 32767) (ht : Hold sb base [ip] [] t)
    (hk : Keeps base u s) : Runs (linkFail ip) t (fun _ v => Settled sb base u v) Typed := by
  unfold Fs.linkFail
  rw [runs_bind]
  refine ht.ilock (.inl mem_cons_self) (fun hf => ?_) (fun v hq _ hv => ?_)
  · rw [hr.type] at hf
    exact absurd hf (h.kept ip (.inl mem_cons_self))
  have hrv := hr.alike hq.alike
  rw [runs_bind]
  refine hv.setMeta (g := fun d => { d with nlink := short (d.nlink - 1) }) mem_cons_self (fun _ => rfl)
    (fun _ => rfl) (fun _ => rfl) (fun w htouch hnode hb hw => ?_)
  have hdrop : Recount ip (short ((v.node ip).nlink - 1)) v w :=
    Recount.of_touch htouch (by rw [hnode]) (by rw [hnode]) (by rw [hnode]) hb
  have halike : Alike s w := by
    refine (hrv.trans hdrop).same ?_
    rw [hrv.nlink, short_eq (by omega) (by omega)]
    omega
  rw [runs_bind]
  refine (h.alike halike hw).iunlockput .rfl (fun x hk' hx => ?_)
  rw [runs_bind, runs_endOp]
  exact hx.settled (hk.trans (halike.keeps.trans hk'))

theorem Links.linked {v : State} {r : Int} (h : Links sb base [ip] ls s) (hip : (s.node ip).type ≠ .dir)
    (hr : Recount ip ((s.node ip).nlink + 1) s u) (hl : Linked sb dp name ip u r v) (h0 : ¬ r < 0)
    (hv : Hold sb base [dp, ip] [dp] v) :
    Links sb base [dp, ip] [dp] v ∧ Keeps base s v := by
  have hdu : (u.node dp).type = .dir := hl.dir
  have hne : ip ≠ dp := by
    rintro rfl
    rw [hr.type] at hdu
    exact hip hdu
  have hldp := hr.like dp (Ne.symm hne)
  have hdir : (s.node dp).type = .dir := hldp.type ▸ hdu
  have hdt : (v.node dp).type = .dir := by
    rw [hl.type, hdu]
  have hlip := hl.like ip hne
  have hipf := h.kept ip (.inl mem_cons_self)
  have hrange := h.tree.range ip hipf
  have hkeep : ∀ j, (v.node j).type = (s.node j).type := by
    intro j
    by_cases hjd : j = dp
    · rw [hjd, hdt, hdir]
    · rw [(hl.like j hjd).type]
      by_cases hji : j = ip
      · rw [hji, hr.type]
      · exact (hr.like j hji).type
  rcases hl.result with ⟨-, hdone⟩ | ⟨rfl, -⟩
  · obtain ⟨hw, habs, i, hle, hfree, hplace⟩ := hdone (hldp.whole (h.whole dp hdir))
    have hent := hldp.entries (by rw [hdir]; nofun)
    have hno := assoc_absent habs
    rw [decode_encode (lt_of_lt_of_le hrange.2 sb.inums)] at hplace
    rw [hent, ← view_ents hdir] at hle hfree hplace hno
    rw [← view_ents hdt] at hplace
    have hdot := (h.tree.ok dp hdir).absent_ne_dot hno
    rw [← cut_strncpy name] at hno hdot
    have hit : (v.node ip).type ≠ .dir := by
      rw [hkeep]
      exact hip
    refine ⟨h.change ip dp (fun j h1 h2 => (hr.like j h1).trans (hl.like j h2)) ?_ ?_ (fun j hj => ?_) hv,
      fun j _ => hkeep j⟩
    · refine h.tree.link hdir hip hrange.2 hrange.1 ⟨hle, hfree⟩ hno hdot hit ?_ (view_file hit) ?_ hdt ?_ hplace
      · change (v.node ip).type ≠ .free
        rw [hkeep]
        exact hipf
      · change (v.node ip).nlink = _
        rw [hlip.nlink, hr.nlink, h.nlink hipf]
        rfl
      · change (v.node dp).nlink = _
        rw [hl.nlink, hldp.nlink]
        rfl
    · rintro d (rfl | rfl) hd
      · exact absurd hd hit
      · exact hw
    · rw [hkeep]
      by_cases hjd : j = dp
      · rw [hjd, hdir]
        nofun
      · exact h.kept j (hj.imp_left (fun hm => (mem_cons.mp hm).resolve_left hjd))
  · exact absurd (by decide) h0

theorem Links.sysLink {old new : List Byte} (h : Links sb base [] [] { s with outstanding := 1 })
    (hcwd : 0 < base cwd) (hfew : ∀ k, named sb s k < 32767) :
    Runs (sysLink sb cwd old new) s (fun _ t => Settled sb base s t) Typed := by
  unfold Fs.sysLink
  rw [runs_bind, runs_beginOp, runs_bind]
  refine h.beginOp.namei hcwd (fun t ha ht => ?_) (fun ip t ha ht => ?_)
  · dsimp only
    rw [runs_bind, runs_endOp]
    exact ht.settled ha.keeps
  dsimp only
  rw [runs_bind]
  refine ht.ilock (.inl mem_cons_self) (fun u ha' hu => ?_)
  have hsu : Alike { s with outstanding := s.outstanding + 1 } u := ha.trans ha'
  have hkeep : Keeps base s u := hsu.keeps
  rw [runs_bind, runs_look, runs_ite]
  refine ⟨fun _ => ?_, fun hdir => ?_⟩
  · rw [runs_bind]
    refine hu.iunlockput .rfl (fun v hk hv => ?_)
    rw [runs_bind, runs_endOp]
    exact hv.settled (hkeep.trans hk)
  rw [← (hu.hold.loaded mem_cons_self).node] at hdir
  have hn := hu.nlink (hu.kept ip (.inl mem_cons_self))
  have hlt : named sb u ip < 32767 := by
    rw [named, hsu.view]
    exact hfew ip
  rw [runs_bind]
  refine hu.hold.setMeta (g := fun d => { d with nlink := short (d.nlink + 1) }) mem_cons_self (fun _ => rfl)
    (fun _ => rfl) (fun _ => rfl) (fun v htouch hnode hb hv => ?_)
  have hr : Recount ip ((u.node ip).nlink + 1) u v := by
    refine Recount.of_touch htouch (by rw [hnode]) ?_ (by rw [hnode]) hb
    rw [hnode]
    exact short_eq (by omega) (by omega)
  obtain ⟨hclosed, hlive⟩ := hu.closed_recount hdir hr (by omega)
  have hok : Okay base v (start cwd new) := ⟨hclosed, hlive _ (hu.okay hcwd).2⟩
  rw [runs_bind]
  refine hv.iunlock (.inl mem_cons_self) ?_
  rw [runs_bind]
  refine (hv.mono [] nofun).namex hcwd typed_benign (fun hc => absurd hok hc) (fun w _ hw hold => ?_)
    (fun dp name w _ hw hold => ?_)
  · exact hu.linkFail (hr.alike (hw hok)) (by omega) (by omega) hold hkeep
  obtain ⟨haw, hldp⟩ := hw hok
  dsimp only
  rw [runs_bind]
  refine hold.ilock (.inl mem_cons_self) (fun hf => absurd hf hldp.1) (fun x hq _ hx => ?_)
  have hrx := hr.alike (haw.trans hq.alike)
  have hldx := (hq.like dp).live hldp
  rw [runs_bind]
  refine hx.dirlink mem_cons_self (typed_benign.allows _ _) (fun r y hlink hy => ?_)
  rw [runs_ite]
  refine ⟨fun hneg => ?_, fun hpos => ?_⟩
  · have hsame : Alike x y := by
      intro j
      by_cases hj : j = dp
      · subst hj
        rcases hlink.result with ⟨rfl, -⟩ | ⟨-, hl⟩
        · exact absurd hneg (by decide)
        · have hcl := (haw.trans hq.alike).closed hclosed
          exact hl (hcl.whole j hlink.dir)
      · exact hlink.like j hj
    rw [runs_bind]
    refine hy.iunlockput [] .rfl nofun (fun z hput hz => ?_)
    have hxz := hsame.trans (hput.alike_live hy mem_cons_self ((hsame dp).live hldx))
    exact hu.linkFail (hrx.alike hxz) (by omega) (by omega) hz hkeep
  · obtain ⟨hly, hky⟩ := hu.linked hdir hrx hlink hpos hy
    rw [runs_bind]
    refine hly.iunlockput .rfl (fun z hkz hz => ?_)
    rw [runs_bind]
    refine hz.iput .rfl (fun z' hkz' hz' => ?_)
    rw [runs_bind, runs_endOp]
    exact hz'.settled (hkeep.trans (hky.trans (hkz.trans hkz')))

end Calls

section Unlink

structure Detached (dp ip i : Nat) (s t : State) : Prop where
  like : ∀ j, j ≠ dp → Like s t j
  type : (t.node dp).type = (s.node dp).type
  nlink : (t.node dp).nlink = if (s.node ip).type = .dir then short ((s.node dp).nlink - 1) else (s.node dp).nlink
  whole : Whole16 t dp
  place : entries t dp = place (entries s dp) i noEntry

variable {v w : State}

theorem Hold.detach {r : Int} {Q : Unit → State → Prop} {E : Panic → Prop} (hu : Hold sb base rs ls u) (hdp : dp ∈ ls)
    (hip : ip ∈ ls) (hne : ip ≠ dp) (hc : Cleared dp i s r u) (hr : r = DESIZE)
    (hQ : ∀ w, Detached dp ip i s w → Hold sb base rs ls w → Q () w) :
    Runs (when ((u.ino ip).copy.type = .dir) (dropLink dp)) u Q E := by
  have htype : (u.ino ip).copy.type = (s.node ip).type := by
    rw [← (hu.loaded hip).node]
    exact (hc.like ip hne).type
  obtain ⟨hw, hplace⟩ : Whole16 u dp ∧ entries u dp = Fs.place (entries s dp) i noEntry := by
    rcases hc.result with ⟨-, hres⟩ | ⟨hno, -⟩
    · exact hres
    · exact absurd hr hno
  rw [runs_when]
  refine ⟨fun hd => ?_, fun hd => ?_⟩
  · rw [htype] at hd
    refine hu.setMeta (g := fun d => { d with nlink := short (d.nlink - 1) }) hdp (fun _ => rfl) (fun _ => rfl)
      (fun _ => rfl) (fun w htouch hnode hb hold => ?_)
    obtain ⟨hent, hwh⟩ := entries_of_bytes (by rw [hnode]) hb
    refine hQ w ⟨fun j hj => (hc.like j hj).trans (htouch.like j hj), ?_, ?_, hwh hw, hent.trans hplace⟩ hold
    · rw [hnode]
      exact hc.type
    · rw [hnode, if_pos hd, ← hc.nlink]
  · rw [htype] at hd
    exact hQ u ⟨hc.like, hc.type, by rw [if_neg hd]; exact hc.nlink, hw, hplace⟩ hu

structure Slot (s : State) (dp i ip : Nat) (de : Dirent) : Prop where
  dir : (s.node dp).type = .dir
  entry : (view s dp).ents[i]? = some de
  inum : de.inum = ip
  dot : cut de.name ≠ cut dot
  dotdot : cut de.name ≠ cut dotdot

variable {de : Dirent}

theorem Slot.ne (hs : Slot s dp i ip de) (h : Links sb base rs ls s) : ip ≠ dp := by
  by_cases hip : (s.node ip).type = .dir
  · have hat : num (view s) dp i = ip := (num_of hs.entry).trans hs.inum
    have hge := (h.tree.ok dp hs.dir).other_ge hs.entry hs.dot hs.dotdot
    obtain ⟨-, hne, -⟩ := h.tree.down dp i hge (by rw [hat]; exact hip)
    rwa [hat] at hne
  · rintro rfl
    exact hip hs.dir

theorem Links.drop (h : Links sb base [ip, dp] ls s) (hs : Slot s dp i ip de) (hip : (s.node ip).type ≠ .dir)
    (hdet : Detached dp ip i s t) (hr : Recount ip ((s.node ip).nlink - 1) t u) (hu : Hold sb base [ip] [ip] u) :
    Links sb base [ip] [ip] u ∧ Keeps base s u := by
  have hne := hs.ne h
  have hdir := hs.dir
  have hlike : ∀ j, j ≠ ip → j ≠ dp → Like s u j := fun j h1 h2 => (hdet.like j h2).trans (hr.like j h1)
  have hldp := hr.like dp (Ne.symm hne)
  have hdt : (u.node dp).type = .dir := by
    rw [hldp.type, hdet.type, hdir]
  have hit : (u.node ip).type = (s.node ip).type := hr.type.trans (hdet.like ip hne).type
  have hkeep : ∀ j, (u.node j).type = (s.node j).type := by
    intro j
    by_cases h1 : j = ip
    · rw [h1, hit]
    · by_cases h2 : j = dp
      · rw [h2, hdt, hdir]
      · exact (hlike j h1 h2).type
  refine ⟨h.change ip dp hlike ?_ ?_ (fun j hj => ?_) hu, fun j _ => hkeep j⟩
  · have hnd : (u.node ip).type ≠ .dir := by
      rw [hit]
      exact hip
    refine h.tree.unlink hdir hip (h.kept ip (.inl mem_cons_self)) hs.entry hs.inum hs.dot hs.dotdot hit
      (view_file hnd) hr.nlink hdt ?_ ?_
    · change (u.node dp).nlink = (s.node dp).nlink
      rw [hldp.nlink, hdet.nlink, if_neg hip]
    · rw [view_ents hdt, view_ents hdir, hldp.entries (by rw [hdet.type, hdir]; nofun), hdet.place]
  · rintro d (rfl | rfl) hd'
    · exact absurd (hit ▸ hd') hip
    · exact hldp.whole hdet.whole
  · rw [hkeep]
    refine h.kept j (hj.imp_left (fun hm => ?_))
    rw [mem_singleton] at hm
    exact hm ▸ mem_cons_self

section Empty

variable (hip : (s.node ip).type = .dir) (hemp : ∀ j, 2 ≤ j → num (view s) ip j = 0)

include hip hemp

section

variable (h : Links sb base rs ls s) (hs : Slot s dp i ip de)

include h hs

theorem Links.parent_nlink : 1 < (s.node dp).nlink := by
  have htree := h.tree.rmdir (x := ⟨.free, 0, []⟩)
    (y := ⟨.dir, (s.node dp).nlink - 1, place (view s dp).ents i noEntry⟩) hs.dir hip hemp hs.entry hs.inum hs.dot
    hs.dotdot rfl rfl rfl rfl rfl
  have hpos := htree.dir_linked (d := dp) (by rw [update_self])
  have hcount := htree.count dp (by rw [update_self]; nofun)
  rw [update_self] at hcount
  dsimp only at hcount
  omega

theorem Links.empty_nlink : (s.node ip).nlink = 1 := by
  rw [h.nlink (by rw [hip]; nofun), named, h.tree.links_empty hs.dir hip hemp hs.entry hs.inum hs.dot hs.dotdot]
  rfl

theorem Links.remove (hb : base ip = 0)
    (hdet : Detached dp ip i s t) (hfew : (s.node dp).nlink ≤ 32767) (hlike : ∀ j, j ≠ ip → Like t u j)
    (hf : (u.node ip).type = .free) (hu : Hold sb base [] [] u) : Links sb base [] [] u ∧ Keeps base s u := by
  have hdir := hs.dir
  have hldp := hlike dp (Ne.symm (hs.ne h))
  have hdt : (u.node dp).type = .dir := by
    rw [hldp.type, hdet.type, hdir]
  have hsu : ∀ j, j ≠ ip → j ≠ dp → Like s u j := fun j h1 h2 => (hdet.like j h2).trans (hlike j h1)
  have hkeep : ∀ j, 0 < base j → (u.node j).type = (s.node j).type := by
    intro j hj
    have h1 : j ≠ ip := by
      rintro rfl
      omega
    by_cases h2 : j = dp
    · rw [h2, hdt, hdir]
    · exact (hsu j h1 h2).type
  refine ⟨h.change ip dp hsu ?_ ?_ (fun j hj => ?_) hu, hkeep⟩
  · refine h.tree.rmdir hdir hip hemp hs.entry hs.inum hs.dot hs.dotdot hf (view_file (by rw [hf]; nofun)) hdt ?_ ?_
    · have hpar := h.parent_nlink hip hemp hs
      change (u.node dp).nlink = (s.node dp).nlink - 1
      rw [hldp.nlink, hdet.nlink, if_pos hip, short_eq (by omega) (by omega)]
    · rw [view_ents hdt, view_ents hdir, hldp.entries (by rw [hdet.type, hdir]; nofun), hdet.place]
  · rintro d (rfl | rfl) hd'
    · rw [hf] at hd'
      cases hd'
    · exact hldp.whole hdet.whole
  · have hj := hj.resolve_left not_mem_nil
    rw [hkeep j hj]
    exact h.kept j (.inr hj)

end

end Empty

theorem Links.unlinkFail (h : Links sb base [dp] ls s) (hk : Keeps base v s) :
    Runs (unlinkFail dp) s (fun _ t => Settled sb base v t ∨ Orphan base t) Typed := by
  unfold Fs.unlinkFail
  rw [runs_bind]
  refine h.iunlockput .rfl (fun t hk' ht => ?_)
  rw [runs_bind, runs_endOp]
  exact .inl (ht.settled (hk.trans hk'))

theorem Links.unlinkEnd (h : Links sb base [ip, dp] [ip, dp] s) (hs : Slot s dp i ip de)
    (hemp : (s.node ip).type = .dir → ∀ j, 2 ≤ j → num (view s) ip j = 0) (hfew : ∀ k, named sb s k < 32767)
    (hdet : Detached dp ip i s t) (ht : Hold sb base [ip, dp] [ip, dp] t) (hk : Keeps base v s) :
    Runs (do
      Fs.iunlockput dp
      dropLink ip
      Fs.iunlockput ip
      Fs.endOp
      pure 0 : M Int) t (fun _ w => Settled sb base v w ∨ Orphan base w) Typed := by
  have hne := hs.ne h
  have hdf : (s.node dp).type ≠ .free := by
    rw [hs.dir]
    nofun
  have hdn := h.nlink hdf
  have hdlt := hfew dp
  have hin := h.nlink (h.kept ip (.inl mem_cons_self))
  have hilt := hfew ip
  have hlip := hdet.like ip hne
  rw [runs_bind]
  refine ht.iunlockput [ip] (List.Perm.swap dp ip []) (fun j hj => ?_) (fun u hput hu => ?_)
  · rw [mem_singleton] at hj
    exact ⟨hj ▸ mem_cons_self, .inl (hj ▸ mem_cons_self)⟩
  have htu : Alike t u := by
    refine hput.alike (.inl ?_)
    rw [hdet.nlink]
    split
    · rename_i hip
      have := h.parent_nlink hip (hemp hip) hs
      rw [short_eq (by omega) (by omega)]
      omega
    · have := h.dir_nlink hs.dir
      omega
  rw [runs_bind]
  refine hu.setMeta (g := fun d => { d with nlink := short (d.nlink - 1) }) mem_cons_self (fun _ => rfl)
    (fun _ => rfl) (fun _ => rfl) (fun w htouch hnode hb hw => ?_)
  have hpos : 0 < named sb s ip := by
    have := (h.entry hs.dir (view_ents hs.dir ▸ hs.entry) (by
      rw [hs.inum]
      exact (h.tree.range ip (h.kept ip (.inl mem_cons_self))).1)).2
    rw [hs.inum] at this
    omega
  have hr : Recount ip ((s.node ip).nlink - 1) u w := by
    refine Recount.of_touch htouch (by rw [hnode]) ?_ (by rw [hnode]) hb
    rw [hnode]
    dsimp only
    rw [(htu ip).nlink, hlip.nlink, short_eq (by omega) (by omega)]
  have hdet' : Detached dp ip i s u := by
    have hl := htu dp
    refine ⟨fun j hj => (hdet.like j hj).trans (htu j), hl.type.trans hdet.type, hl.nlink.trans hdet.nlink,
      hl.whole hdet.whole, ?_⟩
    rw [hl.entries (by rw [hdet.type]; exact hdf), hdet.place]
  have htype : (w.node ip).type = (s.node ip).type := hr.type.trans ((htu ip).type.trans hlip.type)
  rw [runs_bind]
  refine hw.iunlockput [] .rfl nofun (fun x hput' hx => ?_)
  rw [runs_bind, runs_endOp]
  by_cases hip : (s.node ip).type = .dir
  · have hzero : (w.node ip).nlink = 0 := by
      rw [hr.nlink, h.empty_nlink hip (hemp hip) hs]
      rfl
    have hrefs := hw.refs ip
    rw [count_singleton_self] at hrefs
    rcases hput'.ends with ⟨hl, hno⟩ | ⟨-, hone, -, hf⟩
    · -- some process has a reference
      refine .inr ⟨ip, ?_, hl.type.trans (htype.trans hip), hl.nlink.trans hzero⟩
      by_contra hb0
      exact hno ⟨hw.loaded mem_cons_self, by omega, hzero⟩
    · obtain ⟨hlx, hkx⟩ := h.remove hip (hemp hip) hs (by omega) hdet' (by omega)
        (fun j hj => (hr.like j hj).trans (hput'.like j hj)) hf hx
      exact .inl (hlx.settled (hk.trans hkx))
  · obtain ⟨hlw, hkw⟩ := h.drop hs hip hdet' hr hw
    obtain ⟨hlx, hkx⟩ := hlw.put .rfl hput' hx
    exact .inl (hlx.settled (hk.trans (hkw.trans hkx)))

theorem Links.unlinkEntry (h : Links sb base [ip, dp] [ip, dp] s) (hs : Slot s dp i ip de)
    (hfew : ∀ k, named sb s k < 32767) (hk : Keeps base v s) :
    Runs (unlinkEntry sb dp ip (DESIZE * i)) s (fun _ t => Settled sb base v t ∨ Orphan base t) Typed := by
  have hmip : ip ∈ [ip, dp] := mem_cons_self
  have hmdp : dp ∈ [ip, dp] := mem_cons_of_mem _ mem_cons_self
  have hnode := (h.hold.loaded hmip).node
  unfold Fs.unlinkEntry
  rw [runs_bind, runs_look, runs_ite]
  refine ⟨fun _ => nofun, fun _ => ?_⟩
  rw [runs_bind]
  refine Runs.mono (Q := fun empty t => t = s ∧ (empty = true → (s.node ip).type = .dir →
    ∀ j, 2 ≤ j → num (view s) ip j = 0)) ?_ ?_ (fun _ he => he)
  · rw [runs_ite]
    refine ⟨fun hd => ?_, fun hd => ⟨rfl, fun _ hd' => absurd (hnode ▸ hd') hd⟩⟩
    rw [← hnode] at hd
    have hwh := h.whole ip hd
    refine h.hold.isdirempty hmip (fun hc => absurd hwh hc) (fun b hb => ⟨rfl, fun ht _ j hj => ?_⟩)
    by_contra hc
    obtain ⟨e, he, hne⟩ := num_some hc
    rw [view_ents hd] at he
    exact hc (hne.symm.trans ((hb hwh).mp ht j e hj he))
  rintro empty t ⟨rfl, hemp⟩
  rw [runs_ite]
  refine ⟨fun _ => ?_, fun hne => ?_⟩
  · rw [runs_bind]
    exact h.iunlockput .rfl (fun u hk' hu => hu.unlinkFail (hk.trans hk'))
  · rw [runs_bind]
    refine h.hold.clear hmdp (h.whole dp hs.dir) (fun r u hclear hu => ?_)
    rw [runs_ite]
    refine ⟨fun _ => nofun, fun hr => ?_⟩
    rw [runs_bind, runs_look, runs_bind]
    refine hu.detach hmdp hmip (hs.ne h) hclear (by simpa using hr) (fun w hdet hw => ?_)
    exact h.unlinkEnd hs (hemp (by simpa using hne)) hfew hdet hw hk

theorem Links.sysUnlink (h : Links sb base [] [] { s with outstanding := 1 }) (hcwd : 0 < base cwd)
    (hfew : ∀ k, named sb s k < 32767) :
    Runs (sysUnlink sb cwd path) s (fun _ t => Settled sb base s t ∨ Orphan base t) Typed := by
  unfold Fs.sysUnlink
  rw [runs_bind, runs_beginOp, runs_bind]
  refine h.beginOp.namex hcwd (fun t ha ht => ?_) (fun dp name t ha ht => ?_)
  · dsimp only
    rw [runs_bind, runs_endOp]
    exact .inl (ht.settled ha.keeps)
  dsimp only
  rw [runs_bind]
  refine ht.ilock (.inl mem_cons_self) (fun u ha' hu => ?_)
  have hsu : Alike { s with outstanding := s.outstanding + 1 } u := ha.trans ha'
  have hkeep : Keeps base s u := hsu.keeps
  rw [runs_ite]
  refine ⟨fun _ => hu.unlinkFail hkeep, fun hname => ?_⟩
  rw [runs_bind]
  refine hu.dirlookup mem_cons_self (fun _ => hu.unlinkFail hkeep) (fun ip j hdir hn hgot => ?_)
  dsimp only
  rw [runs_bind]
  refine hgot.ilock (.inl mem_cons_self) (fun w ha'' hw => ?_)
  have huw : Alike u w := got_quiet.alike.trans ha''
  have hview : view w = view s := (hsu.trans huw).view
  obtain ⟨-, de, hj, hin, hcut⟩ := hn
  have hdw : (w.node dp).type = .dir := by
    rw [(huw dp).type]
    exact hdir
  have hslot : Slot w dp j ip de := by
    refine ⟨hdw, ?_, hin, ?_, ?_⟩
    · rw [view_ents hdw, (huw dp).entries (by rw [hdir]; nofun)]
      exact hj
    · rw [hcut]
      exact fun hc => hname (.inl (namecmp_eq_zero.mpr hc))
    · rw [hcut]
      exact fun hc => hname (.inr (namecmp_eq_zero.mpr hc))
  refine hw.unlinkEntry hslot (fun k => ?_) (hkeep.trans huw.keeps)
  rw [named, hview]
  exact hfew k

end Unlink

end Xv6Rcu.Fs

import Xv6Rcu.FsInode
import Xv6Rcu.FsSys

namespace Xv6Rcu.Fs

open Exec Transition Function List Threads

variable {sb : Super} {s t u : Sys} {f : Fin NFILE} {m : Mem} {va n i j k : Nat} {l : List Byte}

section Calls

variable {α : Type} {Q : α → Sys → Prop} {E : Panic → Prop}

theorem runs_onFs {x : M α} : Runs (onFs x) s Q E ↔ Runs x s.fs (fun a v => Q a { s with fs := v }) E := runs_zoom

end Calls

section Writing

/-- The bytes `l` have been written to the file at the offset of `f`, which has
moved past them. -/
structure Writes (sb : Super) (f : Fin NFILE) (s t : Sys) (l : List Byte) : Prop where
  sound : Sound sb t.fs
  refs : refs t.fs = refs s.fs
  outstanding : t.fs.outstanding = s.fs.outstanding
  like : ∀ j, j ≠ (s.file f).ip → Like s.fs t.fs j
  type : (t.fs.node (s.file f).ip).type = (s.fs.node (s.file f).ip).type
  nlink : (t.fs.node (s.file f).ip).nlink = (s.fs.node (s.file f).ip).nlink
  start : l ≠ [] → (s.file f).off ≤ (s.fs.node (s.file f).ip).size
  size : (t.fs.node (s.file f).ip).size =
    if l = [] then (s.fs.node (s.file f).ip).size
    else max (s.fs.node (s.file f).ip).size ((s.file f).off + l.length)
  bytes : ∀ q < (t.fs.node (s.file f).ip).size,
    fileByte t.fs (s.file f).ip q = patch (fileByte s.fs (s.file f).ip) (s.file f).off l q
  file : t.file = update s.file f { s.file f with off := (s.file f).off + l.length }
  cwd : t.cwd = s.cwd
  ofile : t.ofile = s.ofile

theorem Writes.ip (h : Writes sb f s t l) : (t.file f).ip = (s.file f).ip := by
  rw [h.file, update_self]

theorem Writes.off (h : Writes sb f s t l) : (t.file f).off = (s.file f).off + l.length := by
  rw [h.file, update_self]

theorem Writes.trans {l' : List Byte} (h : Writes sb f s t l) (h' : Writes sb f t u l') :
    Writes sb f s u (l ++ l') := by
  have hip := h.ip
  have hoff := h.off
  have hsize := h.size
  have hsize' := h'.size
  have hbytes' := h'.bytes
  have hstart' := h'.start
  rw [hip] at hsize' hbytes' hstart'
  rw [hoff] at hsize' hbytes' hstart'
  have hlen : ∀ {x : List Byte}, x ≠ [] → 0 < x.length := fun hx => length_pos_iff.mpr hx
  refine ⟨h'.sound, h'.refs.trans h.refs, h'.outstanding.trans h.outstanding, ?_, ?_, ?_, ?_, ?_, ?_, ?_,
    h'.cwd.trans h.cwd, h'.ofile.trans h.ofile⟩
  · intro j hj
    exact (h.like j hj).trans (h'.like j (hip ▸ hj))
  · have := h'.type
    rw [hip] at this
    exact this.trans h.type
  · have := h'.nlink
    rw [hip] at this
    exact this.trans h.nlink
  · intro hne
    by_cases hl : l = []
    · subst hl
      rw [if_pos rfl] at hsize
      have := hstart' hne
      rwa [length_nil, add_zero, hsize] at this
    · exact h.start hl
  · by_cases hl : l = []
    · subst hl
      rw [if_pos rfl] at hsize
      rwa [length_nil, add_zero, hsize] at hsize'
    · rw [if_neg hl] at hsize
      have hne : ¬ l ++ l' = [] := fun hc => hl (append_eq_nil_iff.mp hc).1
      rw [if_neg hne, length_append]
      by_cases hl' : l' = []
      · rw [if_pos hl'] at hsize'
        rw [hsize', hsize, hl', length_nil, add_zero]
      · rw [if_neg hl'] at hsize'
        rw [hsize', hsize]
        omega
  · intro q hq
    rw [hbytes' q hq, ← patch_append]
    unfold patch
    by_cases hin : (s.file f).off + l.length ≤ q ∧ q - ((s.file f).off + l.length) < l'.length
    · rw [if_pos hin, if_pos hin]
    · rw [if_neg hin, if_neg hin]
      refine h.bytes q ?_
      by_cases hl' : l' = []
      · rw [if_pos hl'] at hsize'
        rwa [hsize'] at hq
      · rw [if_neg hl'] at hsize'
        have := hstart' hl'
        omega
  · rw [h'.file, hoff, h.file, update_idem, update_self, length_append, add_assoc]

structure Opened (s : Sys) (f : Fin NFILE) : Prop where
  type : (s.file f).type = .inode
  ref : 0 < refs s.fs (s.file f).ip
  node : (s.fs.node (s.file f).ip).type ≠ .free

theorem Writes.opened (h : Writes sb f s t l) (hf : Opened s f) : Opened t f := by
  refine ⟨?_, ?_, ?_⟩
  · rw [h.file, update_self]
    exact hf.type
  · rw [h.ip, h.refs]
    exact hf.ref
  · rw [h.ip, h.type]
    exact hf.node

theorem transaction_load (hs : Sound sb s.fs) (hf : Opened s f) :
    let v := ({ s.fs with outstanding := s.fs.outstanding + 1 } : State).load (s.file f).ip
    Sound sb v ∧ Loaded v (s.file f).ip ∧ refs v = refs s.fs ∧ v.outstanding = s.fs.outstanding + 1 ∧
      (∀ j, v.node j = s.fs.node j) ∧ fileByte v = fileByte s.fs := by
  intro v
  have hs1 := hs.outstanding (s.fs.outstanding + 1)
  have hr : 0 < (({ s.fs with outstanding := s.fs.outstanding + 1 } : State).ino (s.file f).ip).ref := hf.ref
  have ht : (({ s.fs with outstanding := s.fs.outstanding + 1 } : State).dinode (s.file f).ip).type ≠ .free := by
    rw [← hs1.node]
    exact hf.node
  have hq := load_quiet hs1 hr
  refine ⟨load_sound hs1 hr ht, load_loaded hs1 hr ht, load_refs, hq.outstanding, hq.node, ?_⟩
  exact hq.fileByte

/-- The state after a transaction that has written `l` to state `v`. -/
def Sys.wrote (s : Sys) (f : Fin NFILE) (w : State) (l : List Byte) : Sys :=
  { s with
    fs := { w with outstanding := w.outstanding - 1 }
    file := update s.file f { s.file f with off := (s.file f).off + l.length } }

section Transaction

variable {v w : State} {n1 : Nat} (hk : (s.file f).ip = k) (hvs : Sound sb v) (hvl : Loaded v k)
  (hvr : refs v = refs s.fs) (hvo : v.outstanding = s.fs.outstanding + 1) (hvn : ∀ j, v.node j = s.fs.node j)
  (hvb : fileByte v = fileByte s.fs)

include hvs hvr hvo hvn hvb

omit hvl hk in
theorem nothing_writes : Writes sb f s (s.wrote f v []) [] := by
  refine ⟨hvs.outstanding _, hvr, ?_, fun j _ => ⟨?_, ?_, ?_, fun _ q _ => ?_⟩, ?_, ?_, fun h => absurd rfl h, ?_,
    fun q _ => ?_, rfl, rfl, rfl⟩
  · change v.outstanding - 1 = _
    omega
  · exact congrArg Dinode.type (hvn j)
  · exact congrArg Dinode.nlink (hvn j)
  · exact congrArg Dinode.size (hvn j)
  · exact congrFun (congrFun hvb j) q
  · exact congrArg Dinode.type (hvn _)
  · exact congrArg Dinode.nlink (hvn _)
  · rw [if_pos rfl]
    exact congrArg Dinode.size (hvn _)
  · rw [patch_nil]
    exact congrFun (congrFun hvb _) q

include hk hvl

theorem wrote_writes {src : Src} {tot : Nat} (hw : Wrote sb k src (s.file f).off n1 v tot l w)
    (hlen : l.length = tot) : Writes sb f s (s.wrote f w l) l := by
  have htouch := hw.touch hvs hvl
  have hwl := htouch.loaded k hvl
  obtain ⟨g, hg⟩ := hw.copy
  have hold : v.node k = (v.ino k).copy := hvl.node
  have hnodek : w.node k = { (v.ino k).copy with
      addrs := g, size := max (v.ino k).copy.size ((s.file f).off + tot) } := by rw [hwl.node, hg]
  have hvsize : (v.ino k).copy.size = (s.fs.node k).size := by rw [← hold, hvn]
  have hsize : (w.node k).size = max (s.fs.node k).size ((s.file f).off + tot) := by
    rw [hnodek, ← hvsize]
  have hstart := hw.start
  rw [hvsize] at hstart
  refine ⟨htouch.sound.outstanding _, htouch.refs.trans hvr, ?_, fun j hj => ?_, ?_, ?_, fun _ => ?_, ?_,
    fun q hq => ?_, rfl, rfl, rfl⟩
  · change w.outstanding - 1 = _
    rw [htouch.outstanding]
    omega
  · have h1 := htouch.like j (hk ▸ hj)
    refine ⟨?_, ?_, ?_, fun hf q hq => ?_⟩
    · exact h1.type.trans (congrArg Dinode.type (hvn j))
    · exact h1.nlink.trans (congrArg Dinode.nlink (hvn j))
    · exact h1.size.trans (congrArg Dinode.size (hvn j))
    · rw [← hvn j] at hf hq
      exact (h1.bytes hf q hq).trans (congrFun (congrFun hvb j) q)
  · rw [hk]
    change (w.node k).type = _
    rw [hnodek, ← hvn, hold]
  · rw [hk]
    change (w.node k).nlink = _
    rw [hnodek, ← hvn, hold]
  · rw [hk]
    exact hstart
  · rw [hk]
    change (w.node k).size = _
    rw [hsize]
    split
    · rename_i hl
      rw [hl, length_nil] at hlen
      omega
    · rw [hlen]
  · rw [hk] at hq ⊢
    have hq : q < (w.node k).size := hq
    rw [hsize] at hq
    have hc := hvs.good.content (k := k) (hold ▸ hvl.type)
    have hz : (v.node k).size = (s.fs.node k).size := congrArg Dinode.size (hvn k)
    rw [hz] at hc
    have hb := (hw.content _ _ hc hstart).byte hq
    rw [hvb] at hb
    exact hb

end Transaction

theorem filewrite_chunk {n1 : Nat} {Q : Nat → Sys → Prop} {rest : C Nat} (hs : Sound sb s.fs)
    (hf : Opened s f) (h0 : 0 < n1) (hn : n1 < 2 ^ 32) (hm : m.Has va n1)
    (hQ : ∀ (r : Int) l t, Writes sb f s t l → (∀ q < l.length, (Src.user m va).byte q = some (l.getD q 0)) →
      (r = n1 ∧ l.length = n1 ∨ r ≠ n1 ∧ l.length < n1 ∧
        ((s.fs.node (s.file f).ip).size < (s.file f).off ∨ MAXFILE * BSIZE < (s.file f).off + n1 ∨
          Full sb t.fs)) →
      Runs (if r ≠ n1 then pure i else rest) t Q (fun _ => False)) :
    Runs (do
      onFs beginOp
      onFs (ilock (s.file f).ip)
      let r ← onFs (writei sb (s.file f).ip (.user m va) (s.file f).off n1)
      when (0 < r) (alter (fun s => s.setFile f { s.file f with off := (s.file f).off + r.toNat }))
      onFs (iunlock (s.file f).ip)
      onFs endOp
      if r ≠ n1 then pure i else rest) s Q (fun _ => False) := by
  obtain ⟨hvs, hvl, hvr, hvo, hvn, hvb⟩ := transaction_load hs hf
  have hr0 : 0 < (({ s.fs with outstanding := s.fs.outstanding + 1 } : State).ino (s.file f).ip).ref := hf.ref
  have hfree : (({ s.fs with outstanding := s.fs.outstanding + 1 } : State).dinode (s.file f).ip).type ≠ .free := by
    rw [← (hs.outstanding (s.fs.outstanding + 1)).node]
    exact hf.node
  generalize hk : (s.file f).ip = k at *
  rw [runs_bind, runs_onFs, runs_beginOp, runs_bind, runs_onFs]
  refine ilock_spec hr0 (fun _ => ?_) (fun hno _ => absurd hno hfree)
  dsimp only
  rw [runs_bind, runs_onFs]
  generalize ({ s.fs with outstanding := s.fs.outstanding + 1 } : State).load k = v at *
  refine (writei_spec hvs.good hvl (by omega) hn).safe ?_
  have hsize : (v.ino k).copy.size = (s.fs.node k).size := by rw [← hvl.node, hvn]
  rintro r w (⟨rfl, rfl, hbad⟩ | ⟨tot, l, rfl, hw⟩)
  · -- Nothing was written.
    rw [runs_bind, runs_when]
    refine ⟨fun hc => absurd hc (by decide), fun _ => ?_⟩
    rw [runs_bind, runs_onFs]
    refine iunlock_spec hvl.ref ?_
    rw [runs_bind, runs_onFs, runs_endOp]
    have hwr := nothing_writes (f := f) hvs hvr hvo hvn hvb
    have hsame : s.wrote f w [] = { s with fs := { w with outstanding := w.outstanding - 1 } } := by
      unfold Sys.wrote
      rw [length_nil, add_zero, update_eq_self]
    rw [hsame] at hwr
    refine hQ (-1) [] _ hwr nofun (.inr ⟨by omega, h0, ?_⟩)
    omega
  · have htouch := hw.touch hvs hvl
    have hwl := htouch.loaded k hvl
    have hlen : l.length = tot := by
      rcases hw.ended with ⟨h1, h2⟩ | ⟨-, h2⟩ | ⟨h1, h2, -⟩
      · omega
      · omega
      · have hok := eitherCopyin_mapped (m := m) va
          (fun q (hq : q < tot + min (n1 - tot) (BSIZE - ((s.file f).off + tot) % BSIZE)) => hm q (by omega))
        exact absurd (h2.symm.trans hok) Bool.false_ne_true
    have hwr := wrote_writes hk hvs hvl hvr hvo hvn hvb hw hlen
    have hend : Runs (onFs (iunlock k) >>= fun _ => onFs endOp >>= fun _ =>
        if (tot : Int) ≠ n1 then pure i else rest) { s.wrote f w l with fs := w } Q (fun _ => False) := by
      rw [runs_bind, runs_onFs]
      refine iunlock_spec hwl.ref ?_
      rw [runs_bind, runs_onFs, runs_endOp]
      refine hQ tot l _ hwr hw.bytes ?_
      by_cases ht : tot = n1
      · exact .inl ⟨by omega, by omega⟩
      · refine .inr ⟨by omega, ?_, ?_⟩
        · have := hw.le
          omega
        · rcases hw.ended with ⟨h1, -⟩ | ⟨h1, -⟩ | ⟨-, h2, -⟩
          · exact absurd h1 ht
          · exact .inr (.inr h1)
          · have hok := eitherCopyin_mapped (m := m) va
              (fun q (hq : q < tot + min (n1 - tot) (BSIZE - ((s.file f).off + tot) % BSIZE)) => hm q
                (by have := hw.le; omega))
            exact absurd (h2.symm.trans hok) Bool.false_ne_true
    rw [runs_bind, runs_when]
    constructor
    · intro _
      rw [runs_alter]
      have hsame : ({ s with fs := w } : Sys).setFile f
          { (({ s with fs := w } : Sys).file f) with off := (({ s with fs := w } : Sys).file f).off + (tot : Int).toNat } =
          { s.wrote f w l with fs := w } := by
        rw [Int.toNat_natCast, ← hlen]
        rfl
      rw [hsame]
      exact hend
    · intro hz
      have h0' : l.length = 0 := by omega
      have hsame : ({ s with fs := w } : Sys) = { s.wrote f w l with fs := w } := by
        unfold Sys.wrote
        rw [h0', add_zero, update_eq_self]
      rw [hsame]
      exact hend

theorem Writes.refl (hs : Sound sb s.fs) : Writes sb f s s [] := by
  refine ⟨hs, rfl, rfl, fun j _ => Like.refl _ _, rfl, rfl, fun h => absurd rfl h, (if_pos rfl).symm, fun q _ => ?_,
    ?_, rfl, rfl⟩
  · rw [patch_nil]
  · rw [length_nil, add_zero]
    exact (update_eq_self f s.file).symm

theorem filewriteLoop_spec {fuel : Nat} (hs : Sound sb s.fs) (hf : Opened s f) (hi : i ≤ n) (hfuel : n - i ≤ fuel)
    (hm : m.Has va n) :
    Runs (filewriteLoop sb f (.user m va) n fuel i) s
      (fun j t => ∃ l, Writes sb f s t l ∧ (∀ q < l.length, (Src.user m va).byte (i + q) = some (l.getD q 0)) ∧
        (j = n ∧ l.length = n - i ∨ j < n ∧ l.length < n - i ∧
          ((s.fs.node (s.file f).ip).size < (s.file f).off ∨ MAXFILE * BSIZE < (s.file f).off + (n - i) ∨
            Full sb t.fs)))
      (fun _ => False) := by
  induction fuel generalizing s i with
  | zero =>
    have hin : i = n := by omega
    exact ⟨[], Writes.refl hs, nofun, .inl ⟨hin, by rw [hin, Nat.sub_self]; rfl⟩⟩
  | succ fuel ih =>
    unfold filewriteLoop
    rw [runs_ite]
    constructor
    · intro hlt
      rw [runs_bind, runs_look]
      generalize hn1 : (if n - i > maxWrite then maxWrite else n - i) = n1
      have hM : maxWrite = 3072 := rfl
      have hn1' : 0 < n1 ∧ n1 ≤ 3072 ∧ n1 ≤ n - i := by
        rw [← hn1]
        split <;> omega
      have hshift : ∀ q, (Src.user m (va + i)).byte q = (Src.user m va).byte (i + q) := by
        intro q
        simp only [Src.byte, add_assoc]
      refine filewrite_chunk hs hf hn1'.1 (by omega) (fun q hq => ?_) ?_
      · rw [add_assoc]
        exact hm (i + q) (by omega)
      · intro r l t hw hb hend
        rcases hend with ⟨rfl, hl⟩ | ⟨hne, hlt', hwhy⟩
        · rw [if_neg (by simp)]
          refine (ih hw.sound (hw.opened hf) (by omega) (by omega)).safe ?_
          rintro j u ⟨l', hw', hb', hend'⟩
          refine ⟨l ++ l', hw.trans hw', fun q hq => ?_, ?_⟩
          · by_cases hql : q < l.length
            · rw [getD_append _ _ _ _ hql, ← hshift, hb q hql]
            · rw [length_append] at hq
              have := hb' (q - l.length) (by omega)
              rw [getD_append_right _ _ _ _ (by omega), ← this]
              congr 1
              omega
          · rw [length_append]
            have hoff := hw.off
            have hsize := hw.size
            rw [hw.ip, hoff] at hend'
            have hlne : l ≠ [] := by
              rintro rfl
              rw [length_nil] at hl
              omega
            rw [if_neg hlne] at hsize
            rcases hend' with ⟨h1, h2⟩ | ⟨h1, h2, h3⟩
            · exact .inl ⟨h1, by omega⟩
            · refine .inr ⟨h1, by omega, ?_⟩
              rcases h3 with h3 | h3 | h3
              · omega
              · exact .inr (.inl (by omega))
              · exact .inr (.inr h3)
        · rw [if_pos hne]
          refine ⟨l, hw, fun q hq => ?_, .inr ⟨hlt, by omega, ?_⟩⟩
          · rw [← hshift, hb q hq]
          · rcases hwhy with h3 | h3 | h3
            · exact .inl h3
            · exact .inr (.inl (by omega))
            · exact .inr (.inr h3)
    · intro hge
      have hin : i = n := by omega
      exact ⟨[], Writes.refl hs, nofun,
        .inl ⟨hin, by rw [hin, Nat.sub_self]; rfl⟩⟩

end Writing

section Arrays

structure Arrays where
  data : Nat → List Byte
  off : Fin NFILE → Nat

/-- Part of an array is replaced, and the array extended if need be. -/
def overwrite (d : List Byte) (off : Nat) (l : List Byte) : List Byte := d.take off ++ l ++ d.drop (off + l.length)

def abs (s : Sys) : Arrays where
  data := fun k => if (s.fs.node k).type = .free then [] else slice (fileByte s.fs k) 0 (s.fs.node k).size
  off := fun f => (s.file f).off

def Mem.bytes (m : Mem) (va n : Nat) : List Byte :=
  (List.range n).map (fun i => (m ((va + i) / PGSIZE)).elim 0 (fun page => page ((va + i) % PGSIZE)))

theorem bytes_eq (h : ∀ q < l.length, (Src.user m va).byte q = some (l.getD q 0)) : l = m.bytes va l.length := by
  refine ext_getElem (by simp [Mem.bytes]) (fun q h1 h2 => ?_)
  have hq := h q h1
  rw [getD_eq_getElem _ _ h1] at hq
  simp only [Mem.bytes, getElem_map, getElem_range]
  dsimp only [Src.byte] at hq
  cases hp : m ((va + q) / PGSIZE) with
  | none => simp [hp] at hq
  | some page =>
    rw [hp, Option.map_some, Option.some.injEq] at hq
    exact hq.symm

theorem slice_take (g : Block) (o n k : Nat) (h : k ≤ n) : (slice g o n).take k = slice g o k := by
  rw [slice, slice, ← map_take, take_range, min_eq_left h]

theorem slice_drop (g : Block) (o n k : Nat) (h : k ≤ n) : (slice g o n).drop k = slice g (o + k) (n - k) := by
  have hn : n = k + (n - k) := by omega
  rw [hn, ← slice_append, drop_left' (slice_length g o k), Nat.add_sub_cancel_left]

theorem slice_patch {g : Block} {off z : Nat} (h : off ≤ z) :
    slice (patch g off l) 0 (max z (off + l.length)) = overwrite (slice g 0 z) off l := by
  have hsplit : max z (off + l.length) = off + l.length + (z - (off + l.length)) := by omega
  have h1 : slice (patch g off l) 0 off = slice g 0 off := by
    refine slice_congr (fun i hi => ?_)
    rw [patch, if_neg (by omega)]
  have h2 : slice (patch g off l) (0 + off) l.length = l := by
    refine ext_getElem (by simp [slice]) (fun q hq hq' => ?_)
    simp only [slice, getElem_map, getElem_range, patch]
    have hin : off ≤ 0 + off + q ∧ 0 + off + q - off < l.length := by omega
    have hsub : 0 + off + q - off = q := by omega
    rw [if_pos hin, hsub, getD_eq_getElem _ _ hq']
  have h3 : slice (patch g off l) (0 + (off + l.length)) (z - (off + l.length)) =
      (slice g 0 z).drop (off + l.length) := by
    have hout : ∀ i, patch g off l (0 + (off + l.length) + i) = g (0 + (off + l.length) + i) := by
      intro i
      rw [patch, if_neg (by omega)]
    rw [slice_congr (f := g) (fun i _ => hout i)]
    by_cases hz : off + l.length ≤ z
    · rw [slice_drop _ _ _ _ hz]
    · have h0 : z - (off + l.length) = 0 := by omega
      rw [h0, drop_eq_nil_of_le (by rw [slice_length]; omega)]
      rfl
  rw [hsplit, ← slice_append, ← slice_append, h1, h2, h3, overwrite, slice_take _ _ _ _ h]

theorem slice_window (g : Block) (off n z : Nat) :
    slice g off (min (off + n) z - off) = ((slice g 0 z).drop off).take n := by
  by_cases hoff : off ≤ z
  · rw [slice_drop _ _ _ _ hoff, zero_add]
    by_cases hn : n ≤ z - off
    · have hmin : min (off + n) z - off = n := by omega
      rw [hmin, slice_take _ _ _ _ hn]
    · have hmin : min (off + n) z - off = z - off := by omega
      rw [hmin, take_of_length_le (by rw [slice_length]; omega)]
  · have hmin : min (off + n) z - off = 0 := by omega
    rw [hmin, drop_eq_nil_of_le (by rw [slice_length]; omega), take_nil]
    rfl

end Arrays

section Refinement

/-- A `read` or `write` of `n` bytes of user memory on an open file. -/
inductive Io where
  | read (f : Fin NFILE) (m : Mem) (va : Nat) (n : Int)
  | write (f : Fin NFILE) (m : Mem) (va : Nat) (n : Int)

def ioStep (sb : Super) : Step Sys Io := fun s a =>
  match a with
  | .read f m va n =>
    match fileread sb 0 f (.user m va) n s with
    | .ok (_, t) => some t
    | .error _ => none
  | .write f m va n =>
    match filewrite sb 0 f (.user m va) n s with
    | .ok (_, t) => some t
    | .error _ => none

/-- The file is open for the call, `n` is not negative, and there will be no
fault. -/
def Usable (s : Sys) : Io → Prop
  | .read f m va n => (s.file f).type = .inode ∧ (s.file f).readable = true ∧ 0 ≤ n ∧ n < 2 ^ 31 ∧ m.Has va n.toNat
  | .write f m va n => (s.file f).type = .inode ∧ (s.file f).writable = true ∧ 0 ≤ n ∧ n < 2 ^ 31 ∧ m.Has va n.toNat

/-- The call does to the arrays what it should. A read returns the bytes from
the offset on and moves the offset past them. A write that returns `n` replaces
the `n` bytes from the offset on and moves the offset past them; one that fails
has done so with fewer bytes, and the file would be too large, or does not reach
up to the offset, or the disk is full. -/
def Agrees (sb : Super) (s : Sys) (a : Io) (t : Sys) : Prop :=
  match a with
  | .read f m va n => ∃ r out, fileread sb 0 f (.user m va) n s = .ok ((r, out), t) ∧
      out = (((abs s).data (s.file f).ip).drop ((abs s).off f)).take n.toNat ∧ r = out.length ∧
      abs t = { abs s with off := update (abs s).off f ((abs s).off f + out.length) }
  | .write f m va n => ∃ r c, filewrite sb 0 f (.user m va) n s = .ok (r, t) ∧
      (r = n ∧ c = n.toNat ∨ r = -1 ∧ c < n.toNat ∧
        (((abs s).data (s.file f).ip).length < (abs s).off f ∨ MAXFILE * BSIZE < (abs s).off f + n.toNat ∨
          Full sb t.fs)) ∧
      abs t = ⟨update (abs s).data (s.file f).ip
          (if c = 0 then (abs s).data (s.file f).ip
            else overwrite ((abs s).data (s.file f).ip) ((abs s).off f) (m.bytes va c)),
        update (abs s).off f ((abs s).off f + c)⟩

structure Ready (sb : Super) (s : Sys) : Prop where
  sound : Sound sb s.fs
  opened : ∀ f, (s.file f).type = .inode → Opened s f

theorem abs_data (hf : Opened s f) :
    (abs s).data (s.file f).ip = slice (fileByte s.fs (s.file f).ip) 0 (s.fs.node (s.file f).ip).size := if_neg hf.node

theorem Like.data {s t : Sys} (h : Like s.fs t.fs j) : (abs t).data j = (abs s).data j := by
  unfold abs
  dsimp only
  rw [h.type, h.size]
  split
  · rfl
  · rename_i hf
    exact slice_congr (fun i hi => by rw [zero_add]; exact h.bytes hf i hi)

theorem Ready.frame (h : Ready sb s) (hs : Sound sb t.fs) (hr : refs t.fs = refs s.fs)
    (ht : ∀ k, (t.fs.node k).type = (s.fs.node k).type) {o : Nat}
    (hfile : t.file = update s.file f { s.file f with off := o }) : Ready sb t := by
  refine ⟨hs, fun g hg => ?_⟩
  have hip : (t.file g).ip = (s.file g).ip ∧ (t.file g).type = (s.file g).type := by
    rw [hfile]
    exact update_cases g ⟨rfl, rfl⟩ (fun _ => ⟨rfl, rfl⟩)
  have ho := h.opened g (hip.2 ▸ hg)
  exact ⟨hg, by rw [hr, hip.1]; exact ho.ref, by rw [ht, hip.1]; exact ho.node⟩

theorem abs_off {o : Nat} (hfile : t.file = update s.file f { s.file f with off := o }) :
    (abs t).off = update (abs s).off f o := by
  change File.off ∘ t.file = _
  rw [hfile]
  exact comp_update File.off s.file f _

theorem fileread_spec {n : Int} (h : Ready sb s) (hu : Usable s (.read f m va n)) :
    Runs (fileread sb 0 f (.user m va) n) s
      (fun r t => Ready sb t ∧ r.2 = (((abs s).data (s.file f).ip).drop ((abs s).off f)).take n.toNat ∧
        r.1 = r.2.length ∧ abs t = { abs s with off := update (abs s).off f ((abs s).off f + r.2.length) })
      (fun _ => False) := by
  obtain ⟨htype, hread, hn0, hn, hm⟩ := hu
  have hf := h.opened f htype
  have hs := h.sound
  have hd : (s.fs.dinode (s.file f).ip).type ≠ .free := by
    rw [← hs.node]
    exact hf.node
  have huint : uint n = n.toNat := by
    unfold uint
    rw [Int.emod_eq_of_lt hn0 (by omega)]
  unfold fileread
  rw [runs_bind, runs_look, if_neg (by simp [hread]), htype]
  dsimp only
  rw [runs_bind, runs_onFs]
  refine ilock_spec hf.ref (fun _ => ?_) (fun hno _ => absurd hno hd)
  have hq := load_quiet hs hf.ref
  have hvs := load_sound hs hf.ref hd
  have hvl := load_loaded hs hf.ref hd
  have hvr : refs (s.fs.load (s.file f).ip) = refs s.fs := load_refs
  generalize s.fs.load (s.file f).ip = v at *
  rw [runs_bind, runs_onFs, huint]
  refine (readi_spec hvs.good hvl (by omega)).safe ?_
  have hsize : (v.ino (s.file f).ip).copy.size = (s.fs.node (s.file f).ip).size := by rw [← hvl.node, hq.node]
  rw [hsize, hq.fileByte]
  rintro r w ⟨rfl, hr⟩
  have hlen : min ((s.file f).off + n.toNat) (s.fs.node (s.file f).ip).size - (s.file f).off =
      ((((abs s).data (s.file f).ip).drop ((abs s).off f)).take n.toNat).length := by
    rw [abs_data hf, ← slice_window, slice_length]
    rfl
  have hval : r = ((((((abs s).data (s.file f).ip).drop ((abs s).off f)).take n.toNat).length : Int),
      (((abs s).data (s.file f).ip).drop ((abs s).off f)).take n.toNat) := by
    have hfirst : r = (((min ((s.file f).off + n.toNat) (s.fs.node (s.file f).ip).size - (s.file f).off : Nat) : Int),
        slice (fileByte s.fs (s.file f).ip) (s.file f).off
          (min ((s.file f).off + n.toNat) (s.fs.node (s.file f).ip).size - (s.file f).off)) := by
      rcases hr with hr | ⟨hwrap, hr⟩ | ⟨-, hfault⟩
      · exact hr
      · have hM : MAXFILE * BSIZE = 274432 := rfl
        have hsz := hs.good.size _ hf.node
        have hzero : min ((s.file f).off + n.toNat) (s.fs.node (s.file f).ip).size - (s.file f).off = 0 := by omega
        rw [hr, hzero]
        rfl
      · exact absurd (mapped_user (fun q hq => hm q (by omega))) hfault
    rw [hfirst, ← hlen, slice_window, ← abs_data hf]
    rfl
  subst hval
  generalize (((abs s).data (s.file f).ip).drop ((abs s).off f)).take n.toNat = out at *
  have hdo : ∀ t : Sys, t.fs = w →
      t.file = update s.file f { s.file f with off := (s.file f).off + out.length } →
      Runs (onFs (iunlock (s.file f).ip) >>= fun _ => pure ((out.length : Int), out)) t
        (fun r t => Ready sb t ∧ r.2 = out ∧ r.1 = r.2.length ∧
          abs t = { abs s with off := update (abs s).off f ((abs s).off f + r.2.length) })
        (fun _ => False) := by
    intro t htf hfile
    rw [runs_bind, runs_onFs]
    refine iunlock_spec ?_ ?_
    · rw [htf]
      exact hvl.ref
    · subst htf
      refine ⟨h.frame hvs hvr (fun k => by rw [hq.node]) hfile, rfl, rfl, ?_⟩
      have hdata : (abs t).data = (abs s).data := funext (fun k => (hq.like k).data)
      change abs t = ⟨(abs s).data, _⟩
      rw [← hdata]
      exact congrArg (Arrays.mk (abs t).data) (abs_off hfile)
  rw [runs_bind, runs_when]
  constructor
  · intro _
    rw [runs_alter]
    refine hdo ({ s with fs := w }.setFile f _) rfl ?_
    rw [Int.toNat_natCast]
    rfl
  · intro h0
    refine hdo { s with fs := w } rfl ?_
    have h0' : out.length = 0 := by
      dsimp only at h0
      omega
    rw [h0', add_zero]
    exact (update_eq_self f s.file).symm

theorem filewrite_spec {n : Int} (h : Ready sb s) (hu : Usable s (.write f m va n)) :
    Runs (filewrite sb 0 f (.user m va) n) s
      (fun r t => Ready sb t ∧ ∃ c, (r = n ∧ c = n.toNat ∨ r = -1 ∧ c < n.toNat ∧
        (((abs s).data (s.file f).ip).length < (abs s).off f ∨ MAXFILE * BSIZE < (abs s).off f + n.toNat ∨
          Full sb t.fs)) ∧
        abs t = ⟨update (abs s).data (s.file f).ip
          (if c = 0 then (abs s).data (s.file f).ip
            else overwrite ((abs s).data (s.file f).ip) ((abs s).off f) (m.bytes va c)),
          update (abs s).off f ((abs s).off f + c)⟩)
      (fun _ => False) := by
  obtain ⟨htype, hwrite, hn0, hn, hm⟩ := hu
  have hf := h.opened f htype
  unfold filewrite
  rw [runs_bind, runs_look, if_neg (by simp [hwrite]), htype]
  dsimp only
  rw [runs_bind]
  refine (filewriteLoop_spec h.sound hf (Nat.zero_le _) le_rfl hm).safe ?_
  rintro i t ⟨l, hw, hb, hend⟩
  have hl : l = m.bytes va l.length := bytes_eq (fun q hq => by simpa using hb q hq)
  refine ⟨h.frame hw.sound hw.refs (fun k => ?_) hw.file, l.length, ?_, ?_⟩
  · by_cases hk : k = (s.file f).ip
    · rw [hk, hw.type]
    · exact (hw.like k hk).type
  · rw [abs_data hf, slice_length]
    rcases hend with ⟨rfl, hlen⟩ | ⟨hlt, hlen, hwhy⟩
    · have : ((n.toNat : Nat) : Int) = n := by omega
      rw [if_pos this]
      exact .inl ⟨rfl, by omega⟩
    · have : ¬ (i : Int) = n := by omega
      rw [if_neg this]
      exact .inr ⟨rfl, by omega, hwhy⟩
  · have hdata : (abs t).data = update (abs s).data (s.file f).ip
        (if l.length = 0 then (abs s).data (s.file f).ip
          else overwrite ((abs s).data (s.file f).ip) ((abs s).off f) (m.bytes va l.length)) := by
      funext k
      by_cases hk : k = (s.file f).ip
      · rw [hk, update_self]
        have ht : (t.fs.node (s.file f).ip).type ≠ .free := by
          rw [hw.type]
          exact hf.node
        have hnew : (abs t).data (s.file f).ip =
            slice (fileByte t.fs (s.file f).ip) 0 (t.fs.node (s.file f).ip).size := if_neg ht
        have hbytes : slice (fileByte t.fs (s.file f).ip) 0 (t.fs.node (s.file f).ip).size =
            slice (patch (fileByte s.fs (s.file f).ip) (s.file f).off l) 0 (t.fs.node (s.file f).ip).size :=
          slice_congr (fun q hq => by rw [zero_add]; exact hw.bytes q hq)
        rw [hnew, hbytes, hw.size, abs_data hf, ← hl]
        by_cases hnil : l = []
        · subst hnil
          rw [if_pos rfl, patch_nil, if_pos length_nil]
        · have hpos : ¬ l.length = 0 := fun hc => hnil (eq_nil_of_length_eq_zero hc)
          rw [if_neg hnil, if_neg hpos]
          exact slice_patch (hw.start hnil)
      · rw [update_of_ne hk]
        exact (hw.like k hk).data
    rw [← hdata]
    exact congrArg (Arrays.mk (abs t).data) (abs_off hw.file)

/-- Every call that a run can make returns, and the state after it is ready for
the next one. -/
theorem io_step (h : Ready sb s) {a : Io} (hu : Usable s a) :
    ∃ t, ioStep sb s a = some t ∧ Ready sb t ∧ Agrees sb s a t := by
  cases a with
  | read f m va n =>
    obtain ⟨⟨r, out⟩, t, heq, hr, hout, hlen, habs⟩ := (fileread_spec h hu).exists_ok
    refine ⟨t, ?_, hr, r, out, heq, hout, hlen, habs⟩
    unfold ioStep
    dsimp only
    rw [heq]
  | write f m va n =>
    obtain ⟨r, t, heq, hr, c, hc, habs⟩ := (filewrite_spec h hu).exists_ok
    refine ⟨t, ?_, hr, r, c, heq, hc, habs⟩
    unfold ioStep
    dsimp only
    rw [heq]

/-- Along every run of reads and writes, files behave as byte arrays and open
files as offsets; every call returns. -/
theorem files_are_byte_arrays (r : Run (ioStep sb)) (h0 : Ready sb (r.state 0)) (hr : r.Meets Usable) :
    (∀ i < r.length, Agrees sb (r.state i) (r.act i) (r.state (i + 1))) ∧
      ∀ i ≤ r.length, ∀ a, Usable (r.state i) a → ∃ t, ioStep sb (r.state i) a = some t := by
  have hall : ∀ i ≤ r.length, Ready sb (r.state i) := by
    refine r.invariant hr h0 (fun s a t h hu hs => ?_)
    obtain ⟨t', ht', hready, -⟩ := io_step h hu
    rw [ht', Option.some.injEq] at hs
    exact hs ▸ hready
  refine ⟨fun i hi => ?_, fun i hi a hu => ?_⟩
  · obtain ⟨t, ht, -, hag⟩ := io_step (hall i (le_of_lt hi)) (hr i hi)
    have hnext := r.next i hi
    rw [ht, Option.some.injEq] at hnext
    exact hnext ▸ hag
  · obtain ⟨t, ht, -, -⟩ := io_step (hall i hi) hu
    exact ⟨t, ht⟩

def countUp : Mem := fun _ => some (fun i => UInt8.ofNat i)

def oneFile : Sys where
  fs := image tiny (fun k => if k = 1 then .file else .free) (fun k => if k = 1 then 1 else 0)
  file := fun f => if f = 0 then ⟨1, .inode, true, true, 1, 0, 0⟩ else ⟨0, .none, false, false, 0, 0, 0⟩
  cwd := fun _ => none
  ofile := fun _ _ => none

theorem oneFile_ready : Ready tiny oneFile := by
  refine ⟨image_sound, fun f hf => ?_⟩
  have hf0 : f = 0 := by
    by_contra hne
    simp [oneFile, hne] at hf
  subst hf0
  exact ⟨rfl, by decide, by decide⟩

instance : Inhabited Io := ⟨.read 0 countUp 0 0⟩

def twoWrites : Run (ioStep tiny) :=
  Run.ofExec (ioStep tiny) oneFile [.write 0 countUp 0 5, .write 0 countUp 2 3] (by decide +kernel)

theorem files_are_byte_arrays_twoWrites :
    (abs (twoWrites.state 2)).data 1 = [0, 1, 2, 3, 4, 2, 3, 4] ∧
      Agrees tiny (twoWrites.state 1) (twoWrites.act 1) (twoWrites.state 2) := by
  have hu : twoWrites.Meets Usable := by
    intro i hi
    have hi : i < 2 := hi
    have : i = 0 ∨ i = 1 := by omega
    rcases this with rfl | rfl
    · exact ⟨by decide +kernel, by decide +kernel, by decide, by decide, fun _ _ => nofun⟩
    · exact ⟨by decide +kernel, by decide +kernel, by decide, by decide, fun _ _ => nofun⟩
  exact ⟨by decide +kernel, (files_are_byte_arrays twoWrites oneFile_ready hu).1 1 (by decide)⟩

end Refinement

end Xv6Rcu.Fs

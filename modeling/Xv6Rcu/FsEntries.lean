import Xv6Rcu.FsDir
import Xv6Rcu.FsInode

namespace Xv6Rcu.Fs

open Exec List

variable {sb : Super} {s t : State} {dp k i j off n : Nat} {name : List Byte}

section Names

def cut (name : List Byte) : List Byte := (name.take DIRSIZ).takeWhile (fun c => c != 0)

theorem strncmp_eq_zero (n : Nat) (p q : List Byte) :
    strncmp n p q = 0 ↔ (p.take n).takeWhile (fun c => c != 0) = (q.take n).takeWhile (fun c => c != 0) := by
  induction n generalizing p q with
  | zero => simp [strncmp]
  | succ n ih =>
    cases p with
    | nil =>
      cases q with
      | nil => simp [strncmp]
      | cons b q =>
        by_cases hb : b = 0
        · simp [strncmp, hb]
        · have hb' : ¬ b.toNat = 0 := fun h => hb (UInt8.toNat_inj.mp h)
          simp [strncmp, hb, hb']
    | cons a p =>
      cases q with
      | nil =>
        by_cases ha : a = 0
        · simp [strncmp, ha]
        · have ha' : ¬ a.toNat = 0 := fun h => ha (UInt8.toNat_inj.mp h)
          simp [strncmp, ha, ha']
      | cons b q =>
        by_cases hab : a = b
        · subst hab
          by_cases ha : a = 0
          · simp [strncmp, ha]
          · simp [strncmp, ha, ih]
        · have hne : ¬ (a.toNat : Int) - b.toNat = 0 := fun h => hab (UInt8.toNat_inj.mp (by omega))
          by_cases ha : a = 0
          · have hb : b ≠ 0 := fun hb => hab (ha.trans hb.symm)
            have hb' : ¬ b.toNat = 0 := fun h => hb (UInt8.toNat_inj.mp h)
            simp [strncmp, ha, hb, hb']
          · by_cases hb : b = 0
            · have ha' : ¬ a.toNat = 0 := fun h => ha (UInt8.toNat_inj.mp h)
              simp [strncmp, ha, hb, ha']
            · simp [strncmp, ha, hb, hab, hne]

theorem namecmp_eq_zero {p q : List Byte} : namecmp p q = 0 ↔ cut p = cut q := strncmp_eq_zero DIRSIZ p q

theorem strncpy_length (n : Nat) (p : List Byte) : (strncpy n p).length = n := by
  induction n generalizing p with
  | zero => rfl
  | succ n ih =>
    rw [strncpy]
    split
    · exact length_replicate
    · rw [length_cons, ih]

theorem strncpy_takeWhile (n : Nat) (p : List Byte) :
    (strncpy n p).takeWhile (fun c => c != 0) = (p.take n).takeWhile (fun c => c != 0) := by
  induction n generalizing p with
  | zero => rfl
  | succ n ih =>
    cases p with
    | nil => simp [strncpy, replicate_succ]
    | cons a p =>
      by_cases ha : a = 0
      · simp [strncpy, ha, replicate_succ]
      · simp [strncpy, ha, ih]

theorem cut_strncpy (name : List Byte) : cut (strncpy DIRSIZ name) = cut name := by
  rw [cut, take_of_length_le (Nat.le_of_eq (strncpy_length DIRSIZ name)), strncpy_takeWhile, cut]

end Names

section Slots

theorem DESIZE_pos : 0 < DESIZE := by decide

theorem decode_encode {inum : Nat} (h : inum < 65536) : decode (encode ⟨inum, name⟩) = ⟨inum, name⟩ := by
  have hlow : (UInt8.ofNat inum).toNat = inum % 256 := rfl
  have hhigh : (UInt8.ofNat (inum / 256)).toNat = inum / 256 % 256 := rfl
  have hsum : inum % 256 + 256 * (inum / 256 % 256) = inum := by omega
  simp only [decode, encode, getD_cons_zero, getD_cons_succ, drop_succ_cons, drop_zero, hlow,
    hhigh, hsum]

def dirent (s : State) (k i : Nat) : Dirent := decode (slice (fileByte s k) (DESIZE * i) DESIZE)

def entries (s : State) (k : Nat) : List Dirent := (List.range ((s.node k).size / DESIZE)).map (dirent s k)

theorem entries_getElem? : (entries s k)[i]? = if i < (s.node k).size / DESIZE then some (dirent s k i) else none := by
  unfold entries
  rw [getElem?_map]
  split
  · rename_i hi
    rw [getElem?_range hi, Option.map_some]
  · rename_i hi
    rw [getElem?_eq_none (by rw [length_range]; omega), Option.map_none]

theorem entries_length : (entries s k).length = (s.node k).size / DESIZE := by simp [entries]

theorem slot_le {b : Nat} (hi : i < n / DESIZE) (hb : b < DESIZE) : DESIZE * i + b < n := by
  unfold DESIZE DIRSIZ at *
  omega

theorem Like.entries (h : Like s t k) (hk : (s.node k).type ≠ .free) : entries t k = entries s k := by
  unfold Fs.entries
  rw [h.size]
  refine map_congr_left (fun i hi => ?_)
  have hi := mem_range.mp hi
  unfold dirent
  rw [slice_congr (fun b hb => h.bytes hk _ (slot_le hi hb))]

def place (l : List Dirent) (i : Nat) (de : Dirent) : List Dirent := if i < l.length then l.set i de else l ++ [de]

theorem place_getElem? {l : List Dirent} {de : Dirent} (hi : i ≤ l.length) (j : Nat) :
    (place l i de)[j]? = if j = i then some de else l[j]? := by
  unfold place
  split
  · rename_i hlt
    by_cases hj : j = i
    · subst hj
      simp [hlt]
    · rw [getElem?_set_ne (Ne.symm hj), if_neg hj]
  · have hlen : i = l.length := by omega
    subst hlen
    by_cases hj : j = l.length
    · subst hj
      simp
    · rw [if_neg hj, getElem?_append]
      split
      · rfl
      · rw [getElem?_eq_none (by simp; omega), getElem?_eq_none (by omega)]

end Slots

section Scanning

/-- What a loop over the entries from slot `i` on can end with: an entry that
satisfies `p`, or none if there is no such entry. -/
def Found (p : Dirent → Bool) (l : List Dirent) (i : Nat) : Option (Nat × Dirent) → Prop
  | none => ∀ j de, i ≤ j → l[j]? = some de → p de = false
  | some (off, de) => ∃ j, i ≤ j ∧ off = DESIZE * j ∧ l[j]? = some de ∧ p de = true

theorem scan_spec {p : Dirent → Bool} {e : Panic} (fuel : Nat) (hG : Good sb s) (hl : Loaded s dp)
    (hf : (s.ino dp).copy.size < DESIZE * (i + fuel)) :
    Runs (scan sb dp p e fuel (DESIZE * i)) s
      (fun r t => t = s ∧ (DESIZE ∣ (s.ino dp).copy.size → Found p (entries s dp) i r))
      (fun e' => e' = e ∧ ¬ DESIZE ∣ (s.ino dp).copy.size) := by
  have hnode := hl.node
  have hsz := hG.size dp (hnode ▸ hl.type)
  rw [hnode] at hsz
  have hM : MAXFILE * BSIZE = 274432 := rfl
  have hlen : ∀ j de, (entries s dp)[j]? = some de → DESIZE * j < (s.ino dp).copy.size := by
    intro j de hj
    rw [entries_getElem?, hnode] at hj
    split at hj
    · rename_i hlt
      exact slot_le (b := 0) hlt DESIZE_pos
    · cases hj
  induction fuel generalizing i with
  | zero =>
    refine ⟨rfl, fun _ j de hij hj => ?_⟩
    have := hlen j de hj
    have := Nat.mul_le_mul_left DESIZE hij
    rw [add_zero] at hf
    omega
  | succ fuel ih =>
    unfold scan
    rw [runs_bind, runs_look, runs_ite]
    constructor
    · intro hlt
      rw [runs_bind]
      refine (readi_spec hG hl (by decide)).safe ?_
      rintro r t ⟨rfl, hr⟩
      have hD : DESIZE = 16 := rfl
      have hval : r = (((min (DESIZE * i + DESIZE) (t.ino dp).copy.size - DESIZE * i : Nat) : Int),
          slice (fileByte t dp) (DESIZE * i) (min (DESIZE * i + DESIZE) (t.ino dp).copy.size - DESIZE * i)) := by
        rcases hr with hr | ⟨hbig, -⟩ | ⟨-, hmap⟩
        · exact hr
        · omega
        · exact absurd (fun _ _ _ => rfl) hmap
      rw [runs_ite]
      constructor
      · intro hne
        refine ⟨rfl, fun hdvd => hne ?_⟩
        rw [hval]
        dsimp only
        unfold DESIZE DIRSIZ at *
        omega
      · intro heq
        have heq : r.1 = (DESIZE : Int) := by simpa using heq
        have hmin : min (DESIZE * i + DESIZE) (t.ino dp).copy.size - DESIZE * i = DESIZE := by
          rw [hval] at heq
          dsimp only at heq
          omega
        have hde : decode r.2 = dirent t dp i := by
          rw [hval, hmin]
          rfl
        have hslot : i < (t.ino dp).copy.size / DESIZE := by
          unfold DESIZE DIRSIZ at *
          omega
        have hget : (entries t dp)[i]? = some (dirent t dp i) := by
          rw [entries_getElem?, hnode, if_pos hslot]
        rw [hde, runs_ite]
        constructor
        · intro hp
          exact ⟨rfl, fun _ => ⟨i, Nat.le_refl i, rfl, hget, hp⟩⟩
        · intro hp
          have hnext : DESIZE * i + DESIZE = DESIZE * (i + 1) := by rw [Nat.mul_add, Nat.mul_one]
          rw [hnext]
          refine (ih (by rw [Nat.add_assoc, Nat.add_comm 1]; exact hf)).mono ?_ (fun _ he => he)
          rintro r' u ⟨rfl, hfound⟩
          refine ⟨rfl, fun hdvd => ?_⟩
          have hfound := hfound hdvd
          match r' with
          | none =>
            intro j de hij hj
            by_cases hji : j = i
            · subst hji
              rw [hget, Option.some.injEq] at hj
              rw [← hj]
              simpa using hp
            · exact hfound j de (by omega) hj
          | some (off, de) =>
            obtain ⟨j, hij, hj⟩ := hfound
            exact ⟨j, by omega, hj⟩
    · intro hge
      refine ⟨rfl, fun _ j de hij hj => ?_⟩
      have := hlen j de hj
      have := Nat.mul_le_mul_left DESIZE hij
      omega

end Scanning

section Writing

theorem Touch.refl (hs : Sound sb s) : Touch sb k s s :=
  ⟨hs, fun j _ => Like.refl s j, rfl, fun _ h => h, rfl, fun _ => rfl⟩

theorem slice_patch_self (f : Block) (o : Nat) (l : List Byte) : slice (patch f o l) o l.length = l := by
  refine ext_getElem (slice_length _ _ _) (fun b hb hb' => ?_)
  simp [slice, patch, hb']

theorem writeEntry_spec {l : List Byte} (hs : Sound sb s) (hl : Loaded s dp) (ho : 0 < s.outstanding)
    (hlen : l.length = DESIZE) :
    Runs (writei sb dp (.kernel l) (DESIZE * i) DESIZE) s
      (fun r t => Touch sb dp s t ∧ (t.node dp).type = (s.node dp).type ∧ (t.node dp).nlink = (s.node dp).nlink ∧
        (r = DESIZE ∧ DESIZE * i ≤ (s.node dp).size ∧
          (t.node dp).size = max (s.node dp).size (DESIZE * i + DESIZE) ∧
          (∀ q < (t.node dp).size, fileByte t dp q = patch (fileByte s dp) (DESIZE * i) l q) ∨
        r ≠ DESIZE ∧ Like s t dp))
      (fun _ => False) := by
  refine (writei_spec hs.good hl ho (by decide)).safe ?_
  rintro r t (⟨rfl, rfl, -⟩ | ⟨tot, l', rfl, hw⟩)
  · exact ⟨Touch.refl hs, rfl, rfl, .inr ⟨by decide, Like.refl t dp⟩⟩
  · have htouch := hw.touch hs hl
    have hlt := htouch.loaded dp hl
    obtain ⟨g, hg⟩ := hw.copy
    have htot : tot = l'.length := by
      rcases hw.ended with ⟨h1, h2⟩ | ⟨-, h2⟩ | ⟨-, hfail, -⟩
      · omega
      · exact h2
      · cases hfail
    have hsize : (t.node dp).size = max (s.node dp).size (DESIZE * i + tot) := by rw [hlt.node, hl.node, hg]
    have htype : (t.node dp).type = (s.node dp).type := by rw [hlt.node, hl.node, hg]
    have hnlink : (t.node dp).nlink = (s.node dp).nlink := by rw [hlt.node, hl.node, hg]
    have hstart : DESIZE * i ≤ (s.node dp).size := by
      rw [hl.node]
      exact hw.start
    have hold := hs.good.content (k := dp) (hl.node ▸ hl.type)
    have hnew : ∀ q < (t.node dp).size, fileByte t dp q = patch (fileByte s dp) (DESIZE * i) l' q := by
      intro q hq
      rw [hsize] at hq
      exact (hw.content _ _ hold hstart).byte hq
    refine ⟨htouch, htype, hnlink, ?_⟩
    have hedge : tot = 0 ∨ tot = DESIZE := by
      have hle := hw.le
      have hedge := hw.edge
      unfold DESIZE DIRSIZ BSIZE at *
      omega
    rcases hedge with h0 | hall
    · have hnil : l' = [] := eq_nil_of_length_eq_zero (htot ▸ h0)
      have hsame : (t.node dp).size = (s.node dp).size := by omega
      refine .inr ⟨by rw [h0]; decide, htype, hnlink, hsame, fun _ q hq => ?_⟩
      rw [hnew q (hsame ▸ hq), hnil, patch_nil]
    · have hll : l' = l := by
        refine ext_getElem (by omega) (fun b hb hb' => ?_)
        have := hw.bytes b hb
        simpa [Src.byte, hb, hb'] using this.symm
      rw [← hll]
      exact .inl ⟨by rw [hall], hstart, by rw [hsize, hall], hnew⟩

theorem dirent_patch {l : List Byte} (hlen : l.length = DESIZE)
    (h : ∀ q < DESIZE * j + DESIZE, fileByte t k q = patch (fileByte s k) (DESIZE * i) l q) :
    dirent t k j = if j = i then decode l else dirent s k j := by
  unfold dirent
  rw [slice_congr (f := patch (fileByte s k) (DESIZE * i) l) (fun b hb => h _ (by omega))]
  split
  · rename_i hji
    rw [hji]
    have := slice_patch_self (fileByte s k) (DESIZE * i) l
    rw [hlen] at this
    rw [this]
  · rename_i hji
    refine congrArg decode (slice_congr (fun b hb => ?_))
    refine if_neg ?_
    unfold DESIZE DIRSIZ at *
    omega

theorem entries_place {l : List Byte} (hlen : l.length = DESIZE) (hdvd : DESIZE ∣ (s.node dp).size)
    (hi : DESIZE * i ≤ (s.node dp).size) (hsize : (t.node dp).size = max (s.node dp).size (DESIZE * i + DESIZE))
    (h : ∀ q < (t.node dp).size, fileByte t dp q = patch (fileByte s dp) (DESIZE * i) l q) :
    DESIZE ∣ (t.node dp).size ∧ i ≤ (entries s dp).length ∧
      entries t dp = place (entries s dp) i (decode l) := by
  have hle : i ≤ (entries s dp).length := by
    rw [entries_length]
    unfold DESIZE DIRSIZ at *
    omega
  have hslots : (t.node dp).size / DESIZE = max ((s.node dp).size / DESIZE) (i + 1) := by
    unfold DESIZE DIRSIZ at *
    omega
  refine ⟨?_, hle, ext_getElem? (fun j => ?_)⟩
  · unfold DESIZE DIRSIZ at *
    omega
  · rw [place_getElem? hle, entries_getElem?, entries_getElem?, hslots]
    by_cases hj : j < max ((s.node dp).size / DESIZE) (i + 1)
    · rw [if_pos hj]
      have hq : DESIZE * j + DESIZE ≤ (t.node dp).size := by
        unfold DESIZE DIRSIZ at *
        omega
      rw [dirent_patch hlen (fun q hq' => h q (lt_of_lt_of_le hq' hq))]
      split
      · rfl
      · rw [entries_length] at hle
        rw [if_pos (by omega)]
    · rw [if_neg hj, if_neg (by omega), if_neg (by omega)]

end Writing

end Xv6Rcu.Fs

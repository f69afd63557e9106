import Xv6Rcu.FsFile
import Xv6Rcu.Mkfs
import Xv6Rcu.Threads

namespace Xv6Rcu.Mkfs

open Exec Fs Function List Threads
open Memory (load store storeWords)

variable {img m : Memory.Mem} {a b i j k n x : Nat} {d : Dinode} {s t : St} {data : Memory.Mem}

section Encoding

structure Wide (d : Dinode) : Prop where
  major : -2 ^ 15 ≤ d.major ∧ d.major < 2 ^ 15
  minor : -2 ^ 15 ≤ d.minor ∧ d.minor < 2 ^ 15
  nlink : -2 ^ 15 ≤ d.nlink ∧ d.nlink < 2 ^ 15
  size : d.size < 2 ^ 32
  addrs : ∀ j, d.addrs j < 2 ^ 32
  rest : ∀ j, NDIRECT < j → d.addrs j = 0

theorem typeOf_typeCode (c : Kind) : typeOf (typeCode c) = c := by cases c <;> rfl

theorem typeCode_lt (c : Kind) : typeCode c < 4 := by cases c <;> decide

theorem toShort_lt (x : Int) : toShort x < 2 ^ 16 := by
  unfold toShort
  omega

theorem ofShort_toShort {x : Int} (h : -2 ^ 15 ≤ x ∧ x < 2 ^ 15) : ofShort (toShort x) = x := by
  unfold ofShort toShort
  split <;> omega

theorem inodeOf_congr {m' : Memory.Mem} (h : ∀ x < 64, m' (b + x) = m (a + x)) : inodeOf m' b = inodeOf m a := by
  have hl : ∀ o n, o + n ≤ 64 → load m' (b + o) n = load m (a + o) n := by
    intro o n hle
    induction n generalizing o with
    | zero => rfl
    | succ n ih =>
      have := ih (o + 1) (by omega)
      rw [← add_assoc, ← add_assoc] at this
      rw [load, load, h o (by omega), this]
  have hz : ∀ n, n ≤ 64 → load m' b n = load m a n := fun n hn => by simpa using hl 0 n (by omega)
  unfold inodeOf
  rw [hz 2 (by omega), hl 2 2 (by omega), hl 4 2 (by omega), hl 6 2 (by omega), hl 8 4 (by omega)]
  congr 1
  funext j
  by_cases hj : j ≤ NDIRECT
  · rw [if_pos hj, if_pos hj, add_assoc, add_assoc, hl (8 + 4 * (j + 1)) 4 (by unfold NDIRECT at hj; omega)]
  · rw [if_neg hj, if_neg hj]

theorem load_words {m : Memory.Mem} {l : List Nat} (h : a + n ≤ b) : load (storeWords m b l) a n = load m a n :=
  Memory.load_congr (fun _ _ hx => Memory.storeWords_of_lt (by omega))

theorem inodeOf_inodeBytes (h : Wide d) : inodeOf (inodeBytes d) 0 = d := by
  have hw : ∀ j, j < NDIRECT + 2 → load (inodeBytes d) (8 + 4 * j) 4 =
      (d.size :: (List.range (NDIRECT + 1)).map d.addrs).getD j 0 % 256 ^ 4 := fun j hj =>
    Memory.load_storeWords (by rw [length_cons, length_map, length_range]; exact hj)
  have ht : load (inodeBytes d) 0 2 = typeCode d.type := by
    rw [inodeBytes, load_words (by omega), Memory.load_store_of_disjoint (by omega),
      Memory.load_store_of_disjoint (by omega), Memory.load_store_of_disjoint (by omega), Memory.load_store]
    have := typeCode_lt d.type
    omega
  have hmaj : load (inodeBytes d) 2 2 = toShort d.major := by
    rw [inodeBytes, load_words (by omega), Memory.load_store_of_disjoint (by omega),
      Memory.load_store_of_disjoint (by omega), Memory.load_store]
    have := toShort_lt d.major
    omega
  have hmin : load (inodeBytes d) 4 2 = toShort d.minor := by
    rw [inodeBytes, load_words (by omega), Memory.load_store_of_disjoint (by omega), Memory.load_store]
    have := toShort_lt d.minor
    omega
  have hlink : load (inodeBytes d) 6 2 = toShort d.nlink := by
    rw [inodeBytes, load_words (by omega), Memory.load_store]
    have := toShort_lt d.nlink
    omega
  have hsize : load (inodeBytes d) 8 4 = d.size := by
    have := hw 0 (by decide)
    have hs := h.size
    rw [mul_zero, add_zero, getD_cons_zero] at this
    omega
  have haddr : ∀ j, (if j ≤ NDIRECT then load (inodeBytes d) (8 + 4 * (j + 1)) 4 else 0) = d.addrs j := by
    intro j
    by_cases hj : j ≤ NDIRECT
    · have hj' : j < (List.range (NDIRECT + 1)).length := by simpa using Nat.lt_succ_of_le hj
      have ha := h.addrs j
      rw [if_pos hj, hw (j + 1) (by omega), getD_cons_succ, getD_eq_getElem?_getD, getElem?_map,
        getElem?_range (by omega), Option.map_some, Option.getD_some]
      omega
    · rw [if_neg hj, h.rest j (by omega)]
  unfold inodeOf
  simp only [zero_add, ht, hmaj, hmin, hlink, hsize, haddr, typeOf_typeCode, ofShort_toShort h.major,
    ofShort_toShort h.minor, ofShort_toShort h.nlink]

end Encoding

section Bitmap

theorem bitmap_byte (n j : Nat) : bitmap n j = UInt8.ofNat (2 ^ min (n - 8 * j) 8 - 1) := by
  induction n with
  | zero =>
    rw [Nat.zero_sub]
    rfl
  | succ n ih =>
    rw [bitmap]
    by_cases hj : j = n / 8
    · subst hj
      rw [update_self, ih]
      have h1 : min (n - 8 * (n / 8)) 8 = n % 8 := by omega
      have h2 : min (n + 1 - 8 * (n / 8)) 8 = n % 8 + 1 := by omega
      have hlt : n % 8 < 8 := Nat.mod_lt n (by decide)
      have hor : ∀ r < 8, UInt8.ofNat (2 ^ r - 1) ||| UInt8.ofNat (2 ^ r) = UInt8.ofNat (2 ^ (r + 1) - 1) := by decide
      rw [h1, h2, hor _ hlt]
    · rw [update_of_ne hj, ih]
      have : min (n - 8 * j) 8 = min (n + 1 - 8 * j) 8 := by omega
      rw [this]

theorem bitmap_bit (n b : Nat) : (bitmap n (b / 8) &&& UInt8.ofNat (2 ^ (b % 8)) != 0) = decide (b < n) := by
  rw [bitmap_byte]
  have hb : b % 8 < 8 := Nat.mod_lt b (by decide)
  have hm : min (n - 8 * (b / 8)) 8 ≤ 8 := Nat.min_le_right _ _
  have hiff : b < n ↔ b % 8 < min (n - 8 * (b / 8)) 8 := by omega
  have hand : ∀ q < 9, ∀ r < 8, (UInt8.ofNat (2 ^ q - 1) &&& UInt8.ofNat (2 ^ r) != 0) = decide (r < q) := by decide
  rw [decide_eq_decide.mpr hiff, hand _ (Nat.lt_succ_of_le hm) _ hb]

end Bitmap

section Sectors

theorem overlay_in (h : x < n) : overlay img a n data (a + x) = data x := by
  rw [overlay, if_pos (by omega), Nat.add_sub_cancel_left]

theorem overlay_out (h : x < a ∨ a + n ≤ x) : overlay img a n data x = img x := by
  rw [overlay, if_neg (by omega)]

def Short (f : Block) : Prop := ∀ i, BSIZE ≤ i → f i = 0

theorem blockAt_short : Short (blockAt img a) := fun _ hi => if_neg (Nat.not_lt.mpr hi)

theorem Short.patch {f : Block} {l : List Byte} (h : Short f) (hl : a + l.length ≤ BSIZE) : Short (patch f a l) := by
  intro i hi
  rw [Fs.patch, if_neg (by omega), h i hi]

theorem Short.setWord {f : Block} (h : Short f) (hj : j < NINDIRECT) : Short (setWord f j n) := by
  intro i hi
  have hne : i / 4 ≠ j := by
    unfold NINDIRECT BSIZE at *
    omega
  rw [Fs.setWord, if_neg hne, h i hi]

theorem blockAt_wsect {f : Block} (h : Short f) : blockAt (overlay img (a * BSIZE) BSIZE f) a = f := by
  funext i
  by_cases hi : i < BSIZE
  · rw [blockAt, if_pos hi, overlay_in hi]
  · rw [blockAt, if_neg hi, h i (by omega)]

theorem blockAt_wsect_ne {f : Block} (h : b ≠ a) : blockAt (overlay img (a * BSIZE) BSIZE f) b = blockAt img b := by
  funext i
  unfold blockAt
  by_cases hi : i < BSIZE
  · rw [if_pos hi, if_pos hi, overlay_out]
    unfold BSIZE at *
    omega
  · rw [if_neg hi, if_neg hi]

end Sectors

section Inodes

/-- All sectors are on the image, and no block past the allocated ones is used. -/
structure Base (s : St) : Prop where
  len : s.len = FSSIZE * BSIZE
  lo : nmeta ≤ s.freeblock
  hi : s.freeblock ≤ FSSIZE
  zero : ∀ x, s.freeblock * BSIZE ≤ x → s.img x = 0

def nodes (s : St) : Nat → Dinode := inodeAt inodestart bmapstart s.img

theorem IPB_eq : IPB = 16 := rfl

theorem inodes_eq : ninodeblocks * IPB = 208 := rfl

def inodePos (k : Nat) : Nat := inodestart * BSIZE + 64 * k

theorem inodePos_eq : (k / IPB + inodestart) * BSIZE + 64 * (k % IPB) = inodePos k := by
  have h1 : BSIZE = 64 * 16 := rfl
  rw [inodePos, h1, IPB_eq]
  omega

theorem nodes_eq (hk : k < ninodeblocks * IPB) : nodes s k = inodeOf s.img (inodePos k) := by
  have hlt : k / IPB + inodestart < bmapstart := by
    have h1 : bmapstart = 13 + inodestart := rfl
    rw [inodes_eq] at hk
    rw [h1, IPB_eq]
    omega
  rw [nodes, inodeAt, if_pos hlt, inodePos_eq]

theorem nodes_congr (h : ∀ x, inodestart * BSIZE ≤ x → x < bmapstart * BSIZE → t.img x = s.img x) :
    nodes t = nodes s := by
  funext k
  unfold nodes inodeAt
  by_cases hk : k / IPB + inodestart < bmapstart
  · rw [if_pos hk, if_pos hk, inodePos_eq]
    refine inodeOf_congr (fun x hx => h _ ?_ ?_)
    · unfold inodePos
      omega
    · have h1 : BSIZE = 1024 := rfl
      rw [IPB_eq] at hk
      rw [inodePos, h1]
      omega
  · rw [if_neg hk, if_neg hk]

variable (hb : s.len = FSSIZE * BSIZE) (hk : k < ninodeblocks * IPB)

include hk in
theorem inodePos_range : inodestart * BSIZE ≤ inodePos k ∧ inodePos k + 64 ≤ bmapstart * BSIZE := by
  rw [inodes_eq] at hk
  have h2 : bmapstart * BSIZE = inodestart * BSIZE + 208 * 64 := rfl
  unfold inodePos
  omega

include hb hk

theorem rsect_inode : iblock k * BSIZE + BSIZE ≤ s.len := by
  have h1 : inodestart = 32 := rfl
  rw [inodes_eq] at hk
  rw [hb, iblock, IPB_eq, h1]
  unfold BSIZE FSSIZE
  omega

theorem rinode_eq : rinode k s = .ok (nodes s k, s) := by
  have hr : rsect (iblock k) s = .ok (blockAt s.img (iblock k), s) := by
    change (if _ then _ else _ : P Block) s = _
    rw [if_pos (rsect_inode hb hk)]
    rfl
  have hi : inodeOf (blockAt s.img (iblock k)) (64 * (k % IPB)) = nodes s k := by
    rw [nodes_eq hk, ← inodePos_eq]
    refine inodeOf_congr (fun x hx => ?_)
    have hlt : 64 * (k % IPB) + x < BSIZE := by
      rw [IPB_eq]
      unfold BSIZE
      omega
    rw [blockAt, if_pos hlt, iblock, add_assoc]
  rw [rinode, bind_ok hr, hi]
  rfl

theorem winode_eq : winode k d s = .ok ((), { s with img := overlay s.img (inodePos k) 64 (inodeBytes d) }) := by
  have hr : rsect (iblock k) s = .ok (blockAt s.img (iblock k), s) := by
    change (if _ then _ else _ : P Block) s = _
    rw [if_pos (rsect_inode hb hk)]
    rfl
  have hlen : max s.len (iblock k * BSIZE + BSIZE) = s.len := max_eq_left (rsect_inode hb hk)
  have hpos : inodePos k = iblock k * BSIZE + 64 * (k % IPB) := inodePos_eq.symm
  have hoff : 64 * (k % IPB) + 64 ≤ BSIZE := by
    rw [IPB_eq]
    unfold BSIZE
    omega
  have himg : overlay s.img (iblock k * BSIZE) BSIZE
      (overlay (blockAt s.img (iblock k)) (64 * (k % IPB)) 64 (inodeBytes d)) =
      overlay s.img (inodePos k) 64 (inodeBytes d) := by
    rw [hpos]
    funext x
    unfold overlay
    by_cases hx : iblock k * BSIZE ≤ x ∧ x < iblock k * BSIZE + BSIZE
    · rw [if_pos hx]
      by_cases hy : iblock k * BSIZE + 64 * (k % IPB) ≤ x ∧ x < iblock k * BSIZE + 64 * (k % IPB) + 64
      · rw [if_pos hy, if_pos (by omega), Nat.sub_sub]
      · have hsub : iblock k * BSIZE + (x - iblock k * BSIZE) = x := by omega
        rw [if_neg hy, if_neg (by omega), blockAt, if_pos (by omega), hsub]
    · rw [if_neg hx, if_neg (by omega)]
  rw [winode, bind_ok hr]
  change Except.ok ((), { s with img := overlay _ _ _ _, len := max _ _ }) = _
  rw [himg, hlen]

end Inodes

section Nodes

variable (hk : k < ninodeblocks * IPB)

include hk

theorem nodes_winode (hd : Wide d) :
    nodes { s with img := overlay s.img (inodePos k) 64 (inodeBytes d) } = update (nodes s) k d := by
  funext j
  by_cases hj : j = k
  · subst hj
    rw [update_self, nodes_eq hk]
    have : inodeOf (overlay s.img (inodePos j) 64 (inodeBytes d)) (inodePos j) = inodeOf (inodeBytes d) 0 :=
      inodeOf_congr (fun x hx => by rw [overlay_in hx, zero_add])
    rw [this, inodeOf_inodeBytes hd]
  · rw [update_of_ne hj]
    by_cases hlt : j < ninodeblocks * IPB
    · rw [nodes_eq hlt, nodes_eq hlt]
      refine inodeOf_congr (fun x hx => overlay_out ?_)
      unfold inodePos
      omega
    · have hout : ¬ j / IPB + inodestart < bmapstart := by
        have h1 : bmapstart = 13 + inodestart := rfl
        rw [inodes_eq] at hlt
        rw [h1, IPB_eq]
        omega
      rw [nodes, inodeAt, if_neg hout, nodes, inodeAt, if_neg hout]

end Nodes

section View

def sb : Super := ⟨FSSIZE, FSSIZE - nmeta, NINODES, by decide, by decide, by decide⟩

/-- The image as a state of the kernel that has inodes `D` in its table. -/
def view (D : Nat → Dinode) (s : St) : State where
  bits := fun b => decide (b < s.freeblock)
  dinode := fun _ => blank .free
  buf := fun b => if b < nmeta then fun _ => 0 else blockAt s.img b
  saved := fun b => if b < nmeta then fun _ => 0 else blockAt s.img b
  ino := fun k => ⟨1, true, D k⟩
  live := 0
  outstanding := 1

variable {D : Nat → Dinode}

theorem view_node : (view D s).node k = D k := rfl

theorem view_loaded (h : (D k).type ≠ .free) : Loaded (view D s) k := ⟨one_pos, rfl, h⟩

theorem view_congr (hf : t.freeblock = s.freeblock) (h : ∀ x, nmeta * BSIZE ≤ x → t.img x = s.img x) :
    view D t = view D s := by
  have hb : ∀ b, ¬ b < nmeta → blockAt t.img b = blockAt s.img b := by
    intro b hb
    funext i
    unfold blockAt
    rw [h (b * BSIZE + i) ?_]
    have := Nat.mul_le_mul_right BSIZE (Nat.le_of_not_lt hb)
    omega
  have hbuf : (fun b => if b < nmeta then (fun _ => 0 : Block) else blockAt t.img b) =
      fun b => if b < nmeta then fun _ => 0 else blockAt s.img b := by
    funext b
    by_cases hlt : b < nmeta
    · rw [if_pos hlt, if_pos hlt]
    · rw [if_neg hlt, if_neg hlt, hb b hlt]
  rw [view, view, hbuf, hf]

variable (hs : Base s) (hlt : s.freeblock < FSSIZE)

include hs

theorem Base.blockAt_zero : blockAt s.img s.freeblock = fun _ => 0 := by
  funext i
  by_cases hi : i < BSIZE
  · rw [blockAt, if_pos hi, hs.zero _ (by omega)]
  · rw [blockAt, if_neg hi]

theorem Base.fresh_ne : s.freeblock ≠ 0 := by
  have := hs.lo
  have h2 : nmeta = 46 := rfl
  omega

theorem Base.succ : Base { s with freeblock := s.freeblock + 1 } ∨ s.freeblock = FSSIZE := by
  rcases Nat.lt_or_eq_of_le hs.hi with h | h
  · refine .inl ⟨hs.len, Nat.le_succ_of_le hs.lo, h, fun x hx => hs.zero x ?_⟩
    have := Nat.mul_le_mul_right BSIZE (Nat.le_succ s.freeblock)
    exact le_trans this hx
  · exact .inr h

include hlt

theorem Base.fresh : Fresh sb (view D s) s.freeblock :=
  ⟨by simp [view], hlt, hs.fresh_ne⟩

omit hlt in
theorem view_take : (view D s).take s.freeblock = view D { s with freeblock := s.freeblock + 1 } := by
  have hbits : update (fun b => decide (b < s.freeblock)) s.freeblock true =
      fun b => decide (b < s.freeblock + 1) := by
    funext b
    refine update_cases b ?_ (fun _ => ?_)
    · simp
    · rw [decide_eq_decide]
      omega
  have hbuf : update (fun b => if b < nmeta then (fun _ => 0 : Block) else blockAt s.img b) s.freeblock
      (fun _ => 0) = fun b => if b < nmeta then fun _ => 0 else blockAt s.img b := by
    funext b
    refine update_cases b ?_ (fun _ => ?_)
    · rw [hs.blockAt_zero, ite_self]
    · rfl
  unfold State.take view
  rw [hbits, hbuf]

omit hlt hs in
theorem view_setAddr : (view D s).setAddr k i a =
    view (update D k { D k with addrs := update (D k).addrs i a }) s := by
  have hino : update (fun k => (⟨1, true, D k⟩ : Inode)) k ⟨1, true, { D k with addrs := update (D k).addrs i a }⟩ =
      fun j => ⟨1, true, update D k { D k with addrs := update (D k).addrs i a } j⟩ :=
    (comp_update (Inode.mk 1 true) D k _).symm
  unfold State.setAddr State.setCopy view
  dsimp only
  rw [hino]

omit hlt hs in
theorem view_buf (ha : nmeta ≤ a) : (view D s).buf a = blockAt s.img a := if_neg (Nat.not_lt.mpr ha)

def St.put (s : St) (a : Nat) (f : Block) : St := { s with img := overlay s.img (a * BSIZE) BSIZE f }

omit hlt hs in
theorem view_put_buf {f : Block} (ha : nmeta ≤ a) (hf : Short f) :
    (view D (s.put a f)).buf = update (view D s).buf a f := by
  funext b
  refine update_cases b ?_ (fun hb => ?_)
  · rw [view_buf ha]
    exact blockAt_wsect hf
  · change (if _ then _ else blockAt (overlay s.img (a * BSIZE) BSIZE f) b) = if _ then _ else _
    rw [blockAt_wsect_ne hb]

end View

end Xv6Rcu.Mkfs

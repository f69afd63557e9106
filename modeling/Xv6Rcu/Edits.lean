import Xv6Rcu.Links

namespace Xv6Rcu.Edits

open Links Function

variable {A : Type}

/-- A linked list in memory as its readers see it. `pub` holds of every node
that has been in the list, and not of one that is still private to its
writer. -/
structure View (A : Type) where
  head : Option A
  next : A → Option A
  pub : A → Prop

def View.Listed (v : View A) (a : A) : Prop := Reach v.next v.head a

structure View.Proper (v : View A) : Prop where
  chain : ∃ l, Chain v.next v.head l
  listed_pub : ∀ a, v.Listed a → v.pub a

/-- The node was in the list at a moment between the two times. -/
def Seen (v : Nat → View A) (i j : Nat) (a : A) : Prop := ∃ m, i ≤ m ∧ m ≤ j ∧ (v m).Listed a

def Stays (v : Nat → View A) (i j : Nat) (a : A) : Prop := ∀ m, i ≤ m → m ≤ j → (v m).Listed a

variable {v : Nat → View A} {i j : Nat} {a b : A}

theorem Seen.mono (hs : Seen v i j a) : Seen v i (j + 1) a := by
  obtain ⟨m, hi, hj, hm⟩ := hs
  exact ⟨m, hi, by omega, hm⟩

theorem Stays.of_succ (hs : Stays v i (j + 1) a) : Stays v i j a :=
  fun m hi hj => hs m hi (by omega)

theorem Seen.now (hij : i ≤ j) (ha : (v j).Listed a) : Seen v i j a := ⟨j, hij, Nat.le_refl j, ha⟩

theorem View.Proper.next_ne {v : View A} (hv : v.Proper) (ha : v.Listed a) : v.next a ≠ some a := by
  obtain ⟨l, hl⟩ := hv.chain
  exact hl.next_ne (hl.mem_iff.mpr ha)

theorem View.Proper.chain_of_listed {v : View A} (hv : v.Proper) (ha : v.Listed a) :
    ∃ l, Chain v.next (some a) l := by
  obtain ⟨l, hl⟩ := hv.chain
  obtain ⟨l₁, l₂, rfl⟩ := List.append_of_mem (hl.mem_iff.mpr ha)
  exact ⟨_, hl.suffix⟩

variable [DecidableEq A]

/-- The stores by which one writer changes the list: the link of a private
node, a push of a linked node, the removal of the head and the removal of a
later node. The removed nodes keep their links. -/
inductive Change (v : View A) : Option A → (A → Option A) → Prop
  | same : Change v v.head v.next
  | link (a : A) (x : Option A) : ¬ v.pub a → Change v v.head (update v.next a x)
  | push (a : A) : v.next a = v.head → Change v (some a) v.next
  | pop (a : A) : v.head = some a → Change v (v.next a) v.next
  | unlink (a b : A) : v.Listed a → v.next a = some b →
      Change v v.head (update v.next a (v.next b))

structure Edit (v v' : View A) : Prop where
  pub_mono : ∀ a, v.pub a → v'.pub a
  change : Change v v'.head v'.next

/-- From one time to another the list is proper and changes by edits only. -/
structure Edited (v : Nat → View A) (i j : Nat) : Prop where
  proper : ∀ m, i ≤ m → m ≤ j → (v m).Proper
  edit : ∀ m, i ≤ m → m < j → Edit (v m) (v (m + 1))

theorem Edited.of_succ (hv : Edited v i (j + 1)) : Edited v i j :=
  ⟨fun m hi hj => hv.proper m hi (by omega), fun m hi hj => hv.edit m hi (by omega)⟩

/-- The node after `a` is not met any more once it is unlinked. -/
theorem View.Proper.not_listed_unlink {v : View A} (hv : v.Proper) (ha : v.Listed a)
    (hab : v.next a = some b) : ¬ Reach (update v.next a (v.next b)) v.head b := by
  obtain ⟨l, hl⟩ := hv.chain
  obtain ⟨l₁, l₂, rfl⟩ := hl.split (hl.mem_iff.mpr ha) hab
  rw [← hl.unlink.mem_iff, hl.mem_unlink]
  exact fun hb => hb.2 rfl

theorem Seen.pub (hv : Edited v i j) (hs : Seen v i j a) : (v j).pub a := by
  obtain ⟨m, hi, hj, hm⟩ := hs
  induction j with
  | zero =>
    obtain rfl : m = 0 := by omega
    exact (hv.proper 0 hi hj).listed_pub a hm
  | succ j ih =>
    by_cases he : m = j + 1
    · subst m
      exact (hv.proper (j + 1) hi hj).listed_pub a hm
    · exact (hv.edit j (by omega) (by omega)).pub_mono a (ih hv.of_succ (by omega))

/-- Off the list, the link of a node that was in it is left alone. -/
theorem next_edit (hv : Edited v i (j + 1)) (hs : Seen v i j a) (hl : ¬ (v (j + 1)).Listed a) :
    (v (j + 1)).next a = (v j).next a := by
  have hj : i ≤ j := by
    obtain ⟨m, hi, hj, -⟩ := hs
    omega
  have hchange := (hv.edit j hj (by omega)).change
  rw [View.Listed] at hl
  generalize (v (j + 1)).head = head at hchange hl
  generalize (v (j + 1)).next = nxt at hchange hl ⊢
  cases hchange with
  | same => rfl
  | link d x hd =>
    have had : a ≠ d := fun he => hd (he ▸ hs.pub hv.of_succ)
    rw [update_of_ne had]
  | push d hd => rfl
  | pop d hd => rfl
  | unlink d e hd hde =>
    have had : a ≠ d := by
      rintro rfl
      have hae : a ≠ e := fun he => (hv.proper j hj (by omega)).next_ne hd (he ▸ hde)
      exact hl (hd.unlink hde hae)
    rw [update_of_ne had]

/-- A node that was in the list leads to nodes that were in the list since. -/
theorem Seen.next (hv : Edited v i j) (hs : Seen v i j a) (hn : (v j).next a = some b) :
    Seen v i j b := by
  induction j with
  | zero =>
    obtain ⟨m, hi, hj, hm⟩ := hs
    obtain rfl : m = 0 := by omega
    exact ⟨0, hi, hj, hm.succ hn⟩
  | succ j ih =>
    obtain ⟨m, hi, hj, hm⟩ := hs
    by_cases hl : (v (j + 1)).Listed a
    · exact Seen.now (by omega) (hl.succ hn)
    · have hs' : Seen v i j a := by
        refine ⟨m, hi, ?_, hm⟩
        by_contra hlt
        obtain rfl : m = j + 1 := by omega
        exact hl hm
      rw [next_edit hv hs' hl] at hn
      exact (ih hv.of_succ hs' hn).mono

theorem Seen.reach (hv : Edited v i j) (hs : Seen v i j a) (hr : Reach (v j).next (some a) b) :
    Seen v i j b := by
  generalize hp : some a = p at hr
  induction hr generalizing a with
  | here b =>
    cases hp
    exact hs
  | @step d b hr ih =>
    cases hp
    cases hn : (v j).next d with
    | none =>
      rw [hn] at hr
      exact absurd hr not_reach_none
    | some c => exact ih (hs.next hv hn) hn.symm

theorem Seen.chain (hv : Edited v i j) (hs : Seen v i j a) : ∃ l, Chain (v j).next (some a) l := by
  obtain ⟨m, hi, hj, hm⟩ := hs
  induction j with
  | zero =>
    obtain rfl : m = 0 := by omega
    exact (hv.proper 0 hi hj).chain_of_listed hm
  | succ j ih =>
    by_cases he : m = j + 1
    · subst m
      exact (hv.proper (j + 1) hi hj).chain_of_listed hm
    · have hs' : Seen v i j a := ⟨m, hi, by omega, hm⟩
      obtain ⟨l, hl⟩ := ih hv.of_succ (by omega)
      have hpub : ∀ d ∈ l, (v j).pub d := fun d hd =>
        (hs'.reach hv.of_succ (hl.mem_iff.mp hd)).pub hv.of_succ
      have hchange := (hv.edit j (by omega) (by omega)).change
      generalize (v (j + 1)).head = head at hchange
      generalize (v (j + 1)).next = nxt at hchange ⊢
      cases hchange with
      | same => exact ⟨l, hl⟩
      | link d x hd => exact ⟨l, hl.update_of_notMem (fun hdl => hd (hpub d hdl)) x⟩
      | push d hd => exact ⟨l, hl⟩
      | pop d hd => exact ⟨l, hl⟩
      | unlink d e hd hde =>
        by_cases hdl : d ∈ l
        · obtain ⟨l₁, l₂, rfl⟩ := hl.split hdl hde
          exact ⟨_, hl.unlink⟩
        · exact ⟨l, hl.update_of_notMem hdl _⟩

/-- What a walk still has ahead of it stays ahead of it while it is in the
list, whatever is edited meanwhile. -/
theorem reach_edit (hv : Edited v i (j + 1)) (hs : Seen v i j a) (hb : (v (j + 1)).Listed b)
    (hr : Reach (v j).next (some a) b) : Reach (v (j + 1)).next (some a) b := by
  have hj : i ≤ j := by
    obtain ⟨m, hi, hj, -⟩ := hs
    omega
  have hpub : ∀ d, Reach (v j).next (some a) d → (v j).pub d := fun d hd =>
    (hs.reach hv.of_succ hd).pub hv.of_succ
  have hchange := (hv.edit j hj (by omega)).change
  rw [View.Listed] at hb
  generalize (v (j + 1)).head = head at hchange hb
  generalize (v (j + 1)).next = nxt at hchange hb ⊢
  cases hchange with
  | same => exact hr
  | link d x hd => exact (reach_update_of_not_reach x (fun hrd => hd (hpub d hrd))).mpr hr
  | push d hd => exact hr
  | pop d hd => exact hr
  | unlink d e hd hde =>
    refine hr.unlink hde ?_
    rintro rfl
    exact (hv.proper j hj (by omega)).not_listed_unlink hd hde hb

end Xv6Rcu.Edits

import Mathlib

namespace Xv6Rcu.Ring

open Function List

variable {A : Type} {next prev next' prev' : A → A} {x y head a : A} {l m : List A}

section Paths

/-- From node `x` the links lead through the nodes of `l` to node `y`, and back. -/
def Path (next prev : A → A) (x : A) : List A → A → Prop
  | [], y => next x = y ∧ prev y = x
  | a :: l, y => next x = a ∧ prev a = x ∧ Path next prev a l y

theorem path_append : Path next prev x (l ++ a :: m) y ↔ Path next prev x l a ∧ Path next prev a m y := by
  induction l generalizing x with
  | nil =>
    change next x = a ∧ prev a = x ∧ _ ↔ (next x = a ∧ prev a = x) ∧ _
    rw [and_assoc]
  | cons b l ih =>
    change next x = b ∧ prev b = x ∧ Path next prev b (l ++ a :: m) y ↔
      (next x = b ∧ prev b = x ∧ Path next prev b l a) ∧ _
    rw [ih, and_assoc, and_assoc]

/-- A path depends on the forward links of its nodes but the last, and on the
backward links of its nodes but the first. -/
theorem Path.congr (hp : Path next prev x l y) (hn : ∀ b ∈ x :: l, next' b = next b)
    (hb : ∀ b ∈ l ++ [y], prev' b = prev b) : Path next' prev' x l y := by
  induction l generalizing x with
  | nil =>
    obtain ⟨hx, hy⟩ := hp
    exact ⟨(hn x mem_cons_self).trans hx, (hb y mem_cons_self).trans hy⟩
  | cons a l ih =>
    obtain ⟨hx, ha, hp⟩ := hp
    refine ⟨(hn x mem_cons_self).trans hx, (hb a mem_cons_self).trans ha, ?_⟩
    exact ih hp (fun b hm => hn b (mem_cons_of_mem x hm)) (fun b hm => hb b (mem_cons_of_mem a hm))

theorem Path.reverse (hp : Path next prev x l y) : Path prev next y l.reverse x := by
  induction l generalizing x with
  | nil => exact ⟨hp.2, hp.1⟩
  | cons a l ih =>
    obtain ⟨hx, ha, hp⟩ := hp
    rw [reverse_cons]
    exact path_append.mpr ⟨ih hp, ha, hx⟩

/-- The first node after `x` and the last node before `y`. -/
theorem Path.next_mem (hp : Path next prev x l y) : next x ∈ l ++ [y] := by
  cases l with
  | nil => exact hp.1 ▸ mem_cons_self
  | cons a l => exact hp.1 ▸ mem_cons_self

theorem Path.prev_mem (hp : Path next prev x l y) : prev y ∈ x :: l := by
  have hm := hp.reverse.next_mem
  simpa [or_comm] using hm

variable [DecidableEq A]

theorem Path.unlink (hp : Path next prev x (l ++ a :: m) y) (hd : (x :: (l ++ a :: m)).Nodup)
    (hy : y ∉ l ++ a :: m) :
    Path (update next (prev a) (next a)) (update prev (next a) (prev a)) x (l ++ m) y := by
  induction l generalizing x with
  | nil =>
    obtain ⟨hx, ha, hp⟩ := hp
    have hxm : x ∉ a :: m := (nodup_cons.mp hd).1
    have hnm : (a :: m).Nodup := (nodup_cons.mp hd).2
    rw [nil_append, ha]
    cases m with
    | nil =>
      obtain ⟨hn, -⟩ := hp
      exact ⟨(update_self _ _ _).trans hn, hn ▸ update_self _ _ _⟩
    | cons c m =>
      obtain ⟨hn, -, hp⟩ := hp
      refine ⟨(update_self _ _ _).trans hn, hn ▸ update_self _ _ _, hp.congr ?_ ?_⟩
      · intro b hb
        refine update_of_ne ?_ _ _
        rintro rfl
        exact hxm (mem_cons_of_mem a hb)
      · intro b hb
        refine update_of_ne ?_ _ _
        rintro rfl
        rw [hn] at hb
        rcases mem_append.mp hb with hb | hb
        · exact (nodup_cons.mp (nodup_cons.mp hnm).2).1 hb
        · exact hy (mem_cons_of_mem a (mem_singleton.mp hb ▸ mem_cons_self))
  | cons b l ih =>
    obtain ⟨hx, hb, hp⟩ := hp
    obtain ⟨hxm, hd'⟩ := nodup_cons.mp hd
    obtain ⟨hbm, -⟩ := nodup_cons.mp hd'
    obtain ⟨hpa, hpm⟩ := path_append.mp hp
    refine ⟨?_, ?_, ih hp hd' (fun hm => hy (mem_cons_of_mem b hm))⟩
    · rw [update_of_ne]
      · exact hx
      · rintro rfl
        refine hxm ?_
        have hm := hpa.prev_mem
        rcases mem_cons.mp hm with hm | hm
        · exact hm ▸ mem_cons_self
        · exact mem_cons_of_mem b (mem_append_left _ hm)
    · rw [update_of_ne]
      · exact hb
      · rintro rfl
        have hm := hpm.next_mem
        rcases mem_append.mp hm with hm | hm
        · exact hbm (mem_append_right _ (mem_cons_of_mem a hm))
        · exact hy (mem_singleton.mp hm ▸ mem_cons_self)

theorem Path.push (hp : Path next prev x l y) (hx : a ≠ x) (hy : a ≠ y) (hl : a ∉ l) (hxl : x ∉ l)
    (hd : (l ++ [y]).Nodup) :
    Path (update (update next a (next x)) x a)
      (update (update prev a x) (next x) a) x (a :: l) y := by
  have hna : next x ≠ a := by
    intro he
    rcases mem_append.mp hp.next_mem with hm | hm
    · exact hl (he ▸ hm)
    · exact hy (he ▸ mem_singleton.mp hm)
  refine ⟨update_self _ _ _, ?_, ?_⟩
  · rw [update_of_ne hna.symm, update_self]
  · cases l with
    | nil =>
      refine ⟨?_, ?_⟩
      · rw [update_of_ne hx, update_self]
        exact hp.1
      · rw [hp.1, update_self]
    | cons c l =>
      obtain ⟨hn, -, hp⟩ := hp
      refine ⟨?_, ?_, hp.congr ?_ ?_⟩
      · rw [update_of_ne hx, update_self]
        exact hn
      · rw [hn, update_self]
      · intro b hb
        have hbx : b ≠ x := fun (he : b = x) => hxl (he ▸ hb)
        have hba : b ≠ a := fun (he : b = a) => hl (he ▸ hb)
        rw [update_of_ne hbx, update_of_ne hba]
      · intro b hb
        have hbc : b ≠ c := by
          rintro rfl
          exact (nodup_cons.mp hd).1 hb
        have hba : b ≠ a := by
          rintro rfl
          rcases mem_append.mp hb with hb | hb
          · exact hl (mem_cons_of_mem c hb)
          · exact hy (mem_singleton.mp hb)
        rw [hn, update_of_ne hbc, update_of_ne hba]

end Paths

section Rings

/-- The nodes other than `head` of a circular doubly linked list, in order. -/
structure IsRing (next prev : A → A) (head : A) (l : List A) : Prop where
  path : Path next prev head l head
  nodup : (head :: l).Nodup

theorem IsRing.head_notMem (hr : IsRing next prev head l) : head ∉ l := (nodup_cons.mp hr.nodup).1

theorem isRing_nil (hn : next head = head) (hp : prev head = head) : IsRing next prev head [] :=
  ⟨⟨hn, hp⟩, nodup_singleton head⟩

variable [DecidableEq A]

theorem IsRing.unlink (hr : IsRing next prev head (l ++ a :: m)) :
    IsRing (update next (prev a) (next a)) (update prev (next a) (prev a)) head (l ++ m) where
  path := hr.path.unlink hr.nodup hr.head_notMem
  nodup := by
    refine hr.nodup.sublist ((List.Sublist.append_left (sublist_cons_self a m) l).cons_cons head)

theorem IsRing.push (hr : IsRing next prev head l) (ha : a ∉ head :: l) :
    IsRing (update (update next a (next head)) head a)
      (update (update prev a head) (next head) a) head (a :: l) where
  path := by
    obtain ⟨hne, hl⟩ := not_or.mp (fun h => ha (mem_cons.mpr h))
    refine hr.path.push hne hne hl hr.head_notMem ?_
    refine nodup_append.mpr ⟨(nodup_cons.mp hr.nodup).2, nodup_singleton head, ?_⟩
    intro b hb c hc hbc
    exact hr.head_notMem (mem_singleton.mp hc ▸ hbc ▸ hb)
  nodup := by
    obtain ⟨hne, hl⟩ := not_or.mp (fun h => ha (mem_cons.mpr h))
    refine nodup_cons.mpr ⟨?_, nodup_cons.mpr ⟨hl, (nodup_cons.mp hr.nodup).2⟩⟩
    rw [mem_cons, not_or]
    exact ⟨Ne.symm hne, hr.head_notMem⟩

/-- Follow the links from node `x` to the first node that satisfies `p`. -/
def walk (next : A → A) (head : A) (p : A → Bool) : Nat → A → Option A
  | 0, _ => none
  | n + 1, x => if x = head then none else if p x then some x else walk next head p n (next x)

theorem walk_path {p : A → Bool} {n : Nat} (hp : Path next prev x l head) (hl : head ∉ l) (hn : l.length < n) :
    walk next head p n (next x) = l.find? p := by
  induction l generalizing x n with
  | nil =>
    cases n with
    | zero => exact absurd hn (Nat.not_lt_zero _)
    | succ n => rw [walk, if_pos hp.1, find?_nil]
  | cons a l ih =>
    cases n with
    | zero => exact absurd hn (Nat.not_lt_zero _)
    | succ n =>
      obtain ⟨hx, -, hp⟩ := hp
      obtain ⟨hne, hl⟩ := not_or.mp (fun h => hl (mem_cons.mpr h))
      rw [walk, hx, if_neg (Ne.symm hne), find?_cons]
      cases h : p a with
      | true => rfl
      | false => exact ih hp hl (Nat.lt_of_succ_lt_succ hn)

theorem IsRing.walk_next {p : A → Bool} {n : Nat} (hr : IsRing next prev head l) (hn : l.length < n) :
    walk next head p n (next head) = l.find? p := walk_path hr.path hr.head_notMem hn

theorem IsRing.walk_prev {p : A → Bool} {n : Nat} (hr : IsRing next prev head l) (hn : l.length < n) :
    walk prev head p n (prev head) = l.reverse.find? p :=
  walk_path hr.path.reverse (fun hm => hr.head_notMem (mem_reverse.mp hm)) (by simpa using hn)

end Rings

end Xv6Rcu.Ring

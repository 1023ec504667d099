import Mathlib.Data.List.Perm.Basic

/-!
# Partitioning a list with two pointers

The in-place partition for bidirectional iterators: the first element that
fails the predicate is swapped with the last one that satisfies it, and the
part between them is treated in the same way.  The result is the front that
satisfies the predicate and the back that fails it.
-/

namespace TwoPointer

variable {α β : Type} {p : α → Bool}

/-- Splits a list around the last element that satisfies `p`. -/
def splitLast (p : α → Bool) : List α → Option (List α × α × List α)
  | [] => none
  | x :: xs =>
      match splitLast p xs with
      | some (mid, w, back) => some (x :: mid, w, back)
      | none => if p x then some ([], x, xs) else none

theorem splitLast_eq_none {xs : List α} (h : splitLast p xs = none) :
    ∀ x ∈ xs, p x = false := by
  induction xs with
  | nil => simp
  | cons x xs ih =>
      cases hs : splitLast p xs with
      | some found => simp [splitLast, hs] at h
      | none =>
          have hx : p x = false := by simpa [splitLast, hs] using h
          intro y hy
          rcases List.mem_cons.mp hy with rfl | hy
          · exact hx
          · exact ih hs y hy

theorem splitLast_eq_some {xs mid back : List α} {w : α}
    (h : splitLast p xs = some (mid, w, back)) :
    xs = mid ++ w :: back ∧ p w = true ∧ ∀ x ∈ back, p x = false := by
  induction xs generalizing mid with
  | nil => simp [splitLast] at h
  | cons x xs ih =>
      cases hs : splitLast p xs with
      | some found =>
          obtain ⟨mid', w', back'⟩ := found
          simp only [splitLast, hs, Option.some.injEq, Prod.mk.injEq] at h
          obtain ⟨rfl, rfl, rfl⟩ := h
          obtain ⟨hxs, hw, hback⟩ := ih hs
          exact ⟨by simp [hxs], hw, hback⟩
      | none =>
          have hx : p x = true ∧ [] = mid ∧ x = w ∧ xs = back := by
            simpa [splitLast, hs] using h
          obtain ⟨hx, rfl, rfl, rfl⟩ := hx
          exact ⟨rfl, hx, splitLast_eq_none hs⟩

theorem splitLast_append {mid back : List α} {w : α} (hw : p w = true)
    (hback : ∀ x ∈ back, p x = false) :
    splitLast p (mid ++ w :: back) = some (mid, w, back) := by
  have htail : splitLast p back = none := by
    cases hs : splitLast p back with
    | none => rfl
    | some found =>
        obtain ⟨mid', w', back'⟩ := found
        obtain ⟨rfl, hw', -⟩ := splitLast_eq_some hs
        simp [hback w' (by simp)] at hw'
  induction mid with
  | nil => simp [splitLast, htail, hw]
  | cons x mid ih => simp [splitLast, ih]

/-- The front and the back that the two pointers leave. -/
def partition (p : α → Bool) : List α → List α × List α
  | [] => ([], [])
  | x :: xs =>
      if p x then (x :: (partition p xs).1, (partition p xs).2)
      else
        match _hs : splitLast p xs with
        | none => ([], x :: xs)
        | some (mid, w, back) =>
            (w :: (partition p mid).1, (partition p mid).2 ++ x :: back)
termination_by l => l.length
decreasing_by
  all_goals simp only [List.length_cons]
  · exact Nat.lt_succ_self _
  · rw [(splitLast_eq_some _hs).1]
    simp only [List.length_append, List.length_cons]
    omega

@[simp] theorem partition_nil : partition p ([] : List α) = ([], []) := by
  rw [partition]

theorem partition_cons_pos {x : α} (xs : List α) (hx : p x = true) :
    partition p (x :: xs) = (x :: (partition p xs).1, (partition p xs).2) := by
  rw [partition, if_pos hx]

theorem partition_append {front : List α} (rest : List α) (h : ∀ x ∈ front, p x = true) :
    partition p (front ++ rest) = (front ++ (partition p rest).1, (partition p rest).2) := by
  induction front with
  | nil => simp
  | cons x front ih =>
      have hfront := ih fun y hy ↦ h y (List.mem_cons_of_mem _ hy)
      rw [List.cons_append, partition_cons_pos _ (h x (by simp)), hfront]
      simp

theorem partition_of_forall_neg {back : List α} (h : ∀ x ∈ back, p x = false) :
    partition p back = ([], back) := by
  cases back with
  | nil => simp
  | cons x xs =>
      have hx : ¬ p x = true := by simp [h x (by simp)]
      rw [partition, if_neg hx]
      split
      · rfl
      · rename_i mid w back hs
        obtain ⟨rfl, hw, -⟩ := splitLast_eq_some hs
        simp [h w (by simp)] at hw

theorem partition_swap {x w : α} {mid back : List α} (hx : p x = false) (hw : p w = true)
    (hback : ∀ y ∈ back, p y = false) :
    partition p (x :: (mid ++ w :: back)) =
      (w :: (partition p mid).1, (partition p mid).2 ++ x :: back) := by
  have hx' : ¬ p x = true := by simp [hx]
  have hsplit : splitLast p (mid ++ w :: back) = some (mid, w, back) :=
    splitLast_append hw hback
  rw [partition, if_neg hx']
  split
  · rename_i hs
    simp [hsplit] at hs
  · rename_i hs
    simp only [hsplit, Option.some.injEq, Prod.mk.injEq] at hs
    obtain ⟨rfl, rfl, rfl⟩ := hs
    rfl

/-- The smallest list whose failing elements are reordered. -/
theorem partition_three {x y w : α} (hx : p x = false) (hy : p y = false) (hw : p w = true) :
    partition p [x, y, w] = ([w], [y, x]) := by
  have hswap : partition p (x :: ([y] ++ w :: [])) =
      (w :: (partition p [y]).1, (partition p [y]).2 ++ [x]) := partition_swap hx hw (by simp)
  have hmid : partition p [y] = ([], [y]) := partition_of_forall_neg (by simpa using hy)
  rw [hmid] at hswap
  exact hswap

/-- Either the list is already partitioned, or the pointers stop at a
failing element and at a later satisfying one. -/
theorem settled_or_swap (p : α → Bool) (l : List α) :
    (∃ front back, l = front ++ back ∧ (∀ x ∈ front, p x = true) ∧
      ∀ x ∈ back, p x = false) ∨
    ∃ front x mid w back, l = front ++ x :: (mid ++ w :: back) ∧
      (∀ y ∈ front, p y = true) ∧ p x = false ∧ p w = true ∧ ∀ y ∈ back, p y = false := by
  induction l with
  | nil => exact .inl ⟨[], [], by simp⟩
  | cons x xs ih =>
      cases hx : p x with
      | true =>
          rcases ih with ⟨front, back, rfl, hf, hb⟩ | ⟨front, y, mid, w, back, rfl, hf, h⟩
          · exact .inl ⟨x :: front, back, rfl, by simpa [hx] using hf, hb⟩
          · exact .inr ⟨x :: front, y, mid, w, back, rfl, by simpa [hx] using hf, h⟩
      | false =>
          cases hs : splitLast p xs with
          | none =>
              have hxs := splitLast_eq_none hs
              exact .inl ⟨[], x :: xs, rfl, by simp, by simpa [hx] using hxs⟩
          | some found =>
              obtain ⟨mid, w, back⟩ := found
              obtain ⟨rfl, hw, hback⟩ := splitLast_eq_some hs
              exact .inr ⟨[], x, mid, w, back, rfl, by simp, hx, hw, hback⟩

/-- The induction that follows the pointers inwards. -/
theorem pointer_induction {motive : List α → Prop}
    (settled : ∀ front back, (∀ x ∈ front, p x = true) → (∀ x ∈ back, p x = false) →
      motive (front ++ back))
    (swap : ∀ front x mid w back, (∀ y ∈ front, p y = true) → p x = false → p w = true →
      (∀ y ∈ back, p y = false) → motive mid → motive (front ++ x :: (mid ++ w :: back)))
    (l : List α) : motive l := by
  induction hn : l.length using Nat.strongRecOn generalizing l with
  | _ n ih =>
      rcases settled_or_swap p l with ⟨front, back, rfl, hf, hb⟩ |
        ⟨front, x, mid, w, back, rfl, hf, hx, hw, hb⟩
      · exact settled front back hf hb
      · apply swap front x mid w back hf hx hw hb
        have hlt : mid.length < n := by
          simp only [List.length_append, List.length_cons] at hn
          omega
        exact ih mid.length hlt mid rfl

theorem partition_settled {front back : List α} (hf : ∀ x ∈ front, p x = true)
    (hb : ∀ x ∈ back, p x = false) : partition p (front ++ back) = (front, back) := by
  simp [partition_append back hf, partition_of_forall_neg hb]

theorem partition_swapped {front mid back : List α} {x w : α} (hf : ∀ y ∈ front, p y = true)
    (hx : p x = false) (hw : p w = true) (hb : ∀ y ∈ back, p y = false) :
    partition p (front ++ x :: (mid ++ w :: back)) =
      (front ++ w :: (partition p mid).1, (partition p mid).2 ++ x :: back) := by
  simp [partition_append _ hf, partition_swap hx hw hb]

theorem partition_perm (p : α → Bool) (l : List α) :
    ((partition p l).1 ++ (partition p l).2).Perm l := by
  induction l using pointer_induction (p := p) with
  | settled front back hf hb => simp [partition_settled hf hb]
  | swap front x mid w back hf hx hw hb ih =>
      rw [partition_swapped hf hx hw hb]
      have hmid : ((partition p mid).1 ++ ((partition p mid).2 ++ x :: back)).Perm
          (mid ++ x :: back) := by
        simpa using ih.append_right (x :: back)
      have hswap : (w :: (mid ++ x :: back)).Perm (x :: (mid ++ w :: back)) := by
        have h₁ : (mid ++ x :: back).Perm (x :: (mid ++ back)) := List.perm_middle
        have h₂ : (mid ++ w :: back).Perm (w :: (mid ++ back)) := List.perm_middle
        exact (h₁.cons w).trans ((List.Perm.swap x w _).trans (h₂.symm.cons x))
      simpa using ((hmid.cons w).trans hswap).append_left front

theorem forall_partition_fst (p : α → Bool) (l : List α) :
    ∀ x ∈ (partition p l).1, p x = true := by
  induction l using pointer_induction (p := p) with
  | settled front back hf hb => simpa [partition_settled hf hb] using hf
  | swap front x mid w back hf hx hw hb ih =>
      rw [partition_swapped hf hx hw hb]
      intro y hy
      simp only [List.mem_append, List.mem_cons] at hy
      rcases hy with hy | rfl | hy
      · exact hf y hy
      · exact hw
      · exact ih y hy

theorem forall_partition_snd (p : α → Bool) (l : List α) :
    ∀ x ∈ (partition p l).2, p x = false := by
  induction l using pointer_induction (p := p) with
  | settled front back hf hb => simpa [partition_settled hf hb] using hb
  | swap front x mid w back hf hx hw hb ih =>
      rw [partition_swapped hf hx hw hb]
      intro y hy
      simp only [List.mem_append, List.mem_cons] at hy
      rcases hy with hy | rfl | hy
      · exact ih y hy
      · exact hx
      · exact hb y hy

theorem partition_fst_perm (p : α → Bool) (l : List α) : (partition p l).1.Perm (l.filter p) := by
  have h := (partition_perm p l).filter p
  rw [List.filter_append, List.filter_eq_self.mpr (forall_partition_fst p l)] at h
  rwa [List.filter_eq_nil_iff.mpr (by simpa using forall_partition_snd p l), List.append_nil] at h

theorem partition_snd_perm (p : α → Bool) (l : List α) :
    (partition p l).2.Perm (l.filter fun x ↦ !p x) := by
  have h := (partition_perm p l).filter fun x ↦ !p x
  have hfst : (partition p l).1.filter (fun x ↦ !p x) = [] :=
    List.filter_eq_nil_iff.mpr (by simpa using forall_partition_fst p l)
  rw [List.filter_append, hfst, List.nil_append, List.filter_eq_self.mpr] at h
  · exact h
  · simpa using forall_partition_snd p l

theorem partition_map (p : β → Bool) (f : α → β) (l : List α) :
    partition p (l.map f) =
      ((partition (fun x ↦ p (f x)) l).1.map f, (partition (fun x ↦ p (f x)) l).2.map f) := by
  induction l using pointer_induction (p := fun x ↦ p (f x)) with
  | settled front back hf hb =>
      rw [partition_settled hf hb, List.map_append]
      exact partition_settled (by simpa using hf) (by simpa using hb)
  | swap front x mid w back hf hx hw hb ih =>
      rw [partition_swapped hf hx hw hb]
      simp only [List.map_append, List.map_cons]
      rw [partition_swapped (by simpa using hf) hx hw (by simpa using hb), ih]

/-! ## When nothing is reordered

The elements carry a time and the index at which they were queued; those
whose time has come form the back. -/

section Order

variable {now : ℕ} {time index : α → ℕ}

/-- The elements whose time has come stand behind the others, in the order
of their times; or the last of the others stands behind some of them, and
the first of these has a later time than the rest of them. -/
def Arranged (now : ℕ) (time : α → ℕ) (l : List α) : Prop :=
  (∃ front back, l = front ++ back ∧ (∀ x ∈ front, now < time x) ∧
    (∀ x ∈ back, time x ≤ now) ∧ back.Pairwise fun x y ↦ time x ≤ time y) ∨
  ∃ front x mid w back, l = front ++ x :: (mid ++ w :: back) ∧ (∀ y ∈ front, now < time y) ∧
    now < time w ∧ (∀ y ∈ mid ++ x :: back, time y ≤ now) ∧ (∀ y ∈ mid, time y < time x) ∧
    (mid ++ x :: back).Pairwise fun y z ↦ time y ≤ time z

theorem arranged_map (now : ℕ) (time : α → ℕ) (f : β → α) (l : List β) :
    Arranged now time (l.map f) ↔ Arranged now (fun x ↦ time (f x)) l := by
  constructor
  · rintro (⟨front, back, hl, hf, hb, hs⟩ | ⟨front, x, mid, w, back, hl, hf, hw, hm, hx, hs⟩)
    · obtain ⟨front, back, rfl, rfl, rfl⟩ := List.map_eq_append_iff.mp hl
      refine .inl ⟨front, back, rfl, by simpa using hf, by simpa using hb, ?_⟩
      simpa [List.pairwise_map] using hs
    · obtain ⟨front, rest, rfl, rfl, h₁⟩ := List.map_eq_append_iff.mp hl
      obtain ⟨x, rest', rfl, rfl, h₂⟩ := List.map_eq_cons_iff.mp h₁
      obtain ⟨mid, rest'', rfl, rfl, h₃⟩ := List.map_eq_append_iff.mp h₂
      obtain ⟨w, back, rfl, rfl, rfl⟩ := List.map_eq_cons_iff.mp h₃
      refine .inr ⟨front, x, mid, w, back, rfl, by simpa using hf, hw, ?_, by simpa using hx, ?_⟩
      · intro y hy
        exact hm (f y) (by simpa using List.mem_map_of_mem (f := f) hy)
      · rw [← List.map_cons, ← List.map_append, List.pairwise_map] at hs
        exact hs
  · rintro (⟨front, back, rfl, hf, hb, hs⟩ | ⟨front, x, mid, w, back, rfl, hf, hw, hm, hx, hs⟩)
    · refine .inl ⟨front.map f, back.map f, by simp, by simpa using hf, by simpa using hb, ?_⟩
      simpa [List.pairwise_map] using hs
    · refine .inr ⟨front.map f, f x, mid.map f, f w, back.map f, by simp, by simpa using hf, hw,
        ?_, by simpa using hx, ?_⟩
      · rw [← List.map_cons, ← List.map_append]
        intro y hy
        obtain ⟨z, hz, rfl⟩ := List.mem_map.mp hy
        exact hm z hz
      · rw [← List.map_cons, ← List.map_append, List.pairwise_map]
        exact hs

/-- Sorted by time and, for equal times, by index. -/
def Earlier (time index : α → ℕ) (x y : α) : Prop :=
  time x < time y ∨ time x = time y ∧ index x < index y

theorem pairwise_earlier_iff {l : List α} (hl : l.Pairwise fun x y ↦ index x < index y) :
    l.Pairwise (Earlier time index) ↔ l.Pairwise fun x y ↦ time x ≤ time y := by
  induction l with
  | nil => simp
  | cons x l ih =>
      obtain ⟨hx, hl⟩ := List.pairwise_cons.mp hl
      rw [List.pairwise_cons, List.pairwise_cons, ih hl]
      refine and_congr_left fun _ ↦ forall₂_congr fun y hy ↦ ?_
      have hlt := hx y hy
      unfold Earlier
      omega

/-- The one waiting element that stands behind ready ones is swapped with the
first of these. -/
theorem partition_late {front mid back : List α} {x w : α} (hf : ∀ y ∈ front, now < time y)
    (hw : now < time w) (hready : ∀ y ∈ mid ++ x :: back, time y ≤ now) :
    partition (fun x ↦ decide (now < time x)) (front ++ x :: (mid ++ w :: back)) =
      (front ++ [w], mid ++ x :: back) := by
  have hmid : ∀ y ∈ mid, decide (now < time y) = false := by
    intro y hy
    simpa using hready y (by simp [hy])
  have hback : ∀ y ∈ back, decide (now < time y) = false := by
    intro y hy
    simpa using hready y (by simp [hy])
  rw [partition_swapped (by simpa using hf) (by simpa using hready x (by simp))
    (by simpa using hw) hback, partition_of_forall_neg hmid]

/-- If the waiting elements keep their order, only one of them can stand
behind ready ones. -/
theorem mid_ready {front mid : List α} {w : α} (hmidw : ∀ y ∈ mid, index y < index w)
    (hwaiting : (front ++ w :: (partition (fun x ↦ decide (now < time x)) mid).1).Pairwise
      fun x y ↦ index x < index y) :
    ∀ y ∈ mid, decide (now < time y) = false := by
  have hperm := partition_perm (fun x ↦ decide (now < time x)) mid
  have hnil : (partition (fun x ↦ decide (now < time x)) mid).1 = [] := by
    rw [List.eq_nil_iff_forall_not_mem]
    intro y hy
    have hw := (List.pairwise_cons.mp (List.pairwise_append.mp hwaiting).2.1).1 y hy
    have hy := hmidw y (hperm.subset (List.mem_append_left _ hy))
    omega
  intro y hy
  have hy := hperm.symm.subset hy
  rw [hnil, List.nil_append] at hy
  exact forall_partition_snd _ mid y hy

theorem arranged_of_ordered {l : List α} (hl : l.Pairwise fun x y ↦ index x < index y)
    (hwaiting : (partition (fun x ↦ decide (now < time x)) l).1.Pairwise
      fun x y ↦ index x < index y)
    (hready : (partition (fun x ↦ decide (now < time x)) l).2.Pairwise (Earlier time index)) :
    Arranged now time l := by
  rcases settled_or_swap (fun x ↦ decide (now < time x)) l with
    ⟨front, back, rfl, hf, hb⟩ | ⟨front, x, mid, w, back, rfl, hf, hx, hw, hb⟩
  · rw [partition_settled hf hb] at hready
    have hback := (List.pairwise_append.mp hl).2.1
    exact .inl ⟨front, back, rfl, by simpa using hf, by simpa using hb,
      (pairwise_earlier_iff hback).mp hready⟩
  · rw [partition_swapped hf hx hw hb] at hwaiting hready
    obtain ⟨hxmid, hrest⟩ := List.pairwise_cons.mp (List.pairwise_append.mp hl).2.1
    have hmidw := (List.pairwise_append.mp hrest).2.2
    have hmid := mid_ready (fun y hy ↦ hmidw y hy w (by simp)) hwaiting
    rw [partition_of_forall_neg hmid] at hready
    have hxlt : ∀ y ∈ mid, time y < time x := by
      intro y hy
      have hearlier := (List.pairwise_append.mp hready).2.2 y hy x (by simp)
      have hlt := hxmid y (by simp [hy])
      unfold Earlier at hearlier
      omega
    refine .inr ⟨front, x, mid, w, back, rfl, by simpa using hf, by simpa using hw, ?_, hxlt, ?_⟩
    · intro y hy
      simp only [List.mem_append, List.mem_cons] at hy
      rcases hy with hy | rfl | hy
      · simpa using hmid y hy
      · simpa using hx
      · simpa using hb y hy
    · refine hready.imp fun {y z} h ↦ ?_
      unfold Earlier at h
      omega

theorem ordered_of_arranged {l : List α} (hl : l.Pairwise fun x y ↦ index x < index y)
    (h : Arranged now time l) :
    (partition (fun x ↦ decide (now < time x)) l).1.Pairwise (fun x y ↦ index x < index y) ∧
      (partition (fun x ↦ decide (now < time x)) l).2.Pairwise (Earlier time index) := by
  rcases h with ⟨front, back, rfl, hf, hb, hs⟩ | ⟨front, x, mid, w, back, rfl, hf, hw, hm, hx, hs⟩
  · rw [partition_settled (by simpa using hf) (by simpa using hb)]
    obtain ⟨hfront, hback, -⟩ := List.pairwise_append.mp hl
    exact ⟨hfront, (pairwise_earlier_iff hback).mpr hs⟩
  · rw [partition_late hf hw hm]
    have hindex := (List.pairwise_append.mp hl).2.1
    have hrest := (List.pairwise_cons.mp hindex).2
    constructor
    · have hsub : (front ++ [w]).Sublist (front ++ x :: (mid ++ w :: back)) := by
        refine (List.Sublist.refl front).append ?_
        exact .cons _ (List.sublist_append_of_sublist_right (by simp))
      exact hl.sublist hsub
    · have hxback : (x :: back).Sublist (x :: (mid ++ w :: back)) := by
        refine .cons_cons _ (List.sublist_append_of_sublist_right ?_)
        exact .cons _ (.refl back)
      obtain ⟨hsmid, hsback, hscross⟩ := List.pairwise_append.mp hs
      refine List.pairwise_append.mpr ⟨?_, ?_, ?_⟩
      · exact (pairwise_earlier_iff (List.pairwise_append.mp hrest).1).mpr hsmid
      · exact (pairwise_earlier_iff (hindex.sublist hxback)).mpr hsback
      · intro y hy z hz
        rcases List.mem_cons.mp hz with rfl | hz
        · exact .inl (hx y hy)
        · have hle := hscross y hy z (by simp [hz])
          have hlt := (List.pairwise_append.mp hrest).2.2 y hy z (by simp [hz])
          unfold Earlier
          omega

/-- The parts of a list in queue order are the waiting elements in queue
order and the ready ones by time exactly when the list was arranged so. -/
theorem ordered_iff_arranged (now : ℕ) (time index : α → ℕ) {l : List α}
    (hl : l.Pairwise fun x y ↦ index x < index y) :
    ((partition (fun x ↦ decide (now < time x)) l).1.Pairwise (fun x y ↦ index x < index y) ∧
      (partition (fun x ↦ decide (now < time x)) l).2.Pairwise (Earlier time index)) ↔
    Arranged now time l := by
  constructor
  · rintro ⟨hwaiting, hready⟩
    exact arranged_of_ordered hl hwaiting hready
  · exact ordered_of_arranged hl

/-- Sorted by time; for equal times the order is kept. -/
def byTime (time : α → ℕ) (l : List α) : List α := l.mergeSort fun x y ↦ decide (time x ≤ time y)

theorem byTime_perm (time : α → ℕ) (l : List α) : (byTime time l).Perm l := List.mergeSort_perm _ _

theorem byTime_pairwise (time : α → ℕ) (l : List α) :
    (byTime time l).Pairwise fun x y ↦ time x ≤ time y := by
  have h := @List.pairwise_mergeSort _ (fun x y : α ↦ decide (time x ≤ time y))
    (fun x y z hxy hyz ↦ by simp only [decide_eq_true_eq] at hxy hyz ⊢; omega)
    (fun x y ↦ by simp only [Bool.or_eq_true, decide_eq_true_eq]; omega) l
  exact h.imp fun h ↦ by simpa using h

theorem byTime_map (time : α → ℕ) (f : β → α) (l : List β) :
    byTime time (l.map f) = (byTime (fun x ↦ time (f x)) l).map f :=
  (List.map_mergeSort (f := f) fun _ _ _ _ ↦ rfl).symm

/-- The elements of one time stand in their order. -/
theorem filter_byTime (time : α → ℕ) (l : List α) (t : ℕ) :
    (byTime time l).filter (fun x ↦ time x = t) = l.filter fun x ↦ time x = t := by
  have hsame : (l.filter fun x ↦ time x = t).Pairwise fun x y ↦ decide (time x ≤ time y) = true := by
    apply List.pairwise_of_forall_mem_list
    intro x hx y hy
    simp only [List.mem_filter, decide_eq_true_eq] at hx hy ⊢
    omega
  have hsub := @List.sublist_mergeSort _ (fun x y : α ↦ decide (time x ≤ time y)) _
    (fun x y z hxy hyz ↦ by simp only [decide_eq_true_eq] at hxy hyz ⊢; omega)
    (fun x y ↦ by simp only [Bool.or_eq_true, decide_eq_true_eq]; omega) _ hsame List.filter_sublist
  have hfilter := hsub.filter fun x ↦ time x = t
  rw [List.filter_filter] at hfilter
  simp only [Bool.and_self] at hfilter
  exact (hfilter.eq_of_length ((byTime_perm time l).filter _).length_eq.symm).symm

theorem byTime_earlier {l : List α} (hl : l.Pairwise fun x y ↦ index x < index y) :
    (byTime time l).Pairwise (Earlier time index) := by
  rw [List.pairwise_iff_forall_sublist]
  intro x y hxy
  have hle := List.pairwise_iff_forall_sublist.mp (byTime_pairwise time l) hxy
  rcases Nat.lt_or_eq_of_le hle with hlt | heq
  · exact .inl hlt
  · have hsame := hxy.filter fun z ↦ time z = time x
    rw [filter_byTime, List.filter_cons_of_pos (by simp),
      List.filter_cons_of_pos (by simp [heq])] at hsame
    exact .inr ⟨heq, List.pairwise_iff_forall_sublist.mp hl (hsame.trans List.filter_sublist)⟩

theorem eq_byTime_of_earlier {l l' : List α} (hl : l.Pairwise fun x y ↦ index x < index y)
    (hperm : l'.Perm l) (hl' : l'.Pairwise (Earlier time index)) : l' = byTime time l := by
  refine (hperm.trans (byTime_perm time l).symm).eq_of_pairwise ?_ hl' (byTime_earlier hl)
  intro x y _ _ hxy hyx
  unfold Earlier at hxy hyx
  omega

/-- The waiting elements keep their order and the ready ones are sorted by
time exactly when the list was arranged so. -/
theorem sorted_iff_arranged (now : ℕ) (time index : α → ℕ) {l : List α}
    (hl : l.Pairwise fun x y ↦ index x < index y) :
    ((partition (fun x ↦ decide (now < time x)) l).1 = l.filter (fun x ↦ now < time x) ∧
      (partition (fun x ↦ decide (now < time x)) l).2 =
        byTime time (l.filter fun x ↦ time x ≤ now)) ↔ Arranged now time l := by
  have hready : (fun x ↦ !decide (now < time x)) = fun x ↦ decide (time x ≤ now) := by
    funext x
    by_cases hx : now < time x
    · simp [hx]
    · simp [hx, Nat.le_of_not_lt hx]
  rw [← ordered_iff_arranged now time index hl]
  refine and_congr ⟨fun h ↦ h ▸ hl.filter _, fun h ↦ ?_⟩ ⟨fun h ↦ ?_, fun h ↦ ?_⟩
  · refine (partition_fst_perm _ l).eq_of_pairwise ?_ h (hl.filter _)
    intro x y _ _ hxy hyx
    omega
  · rw [h]
    exact byTime_earlier (hl.filter _)
  · refine eq_byTime_of_earlier (hl.filter _) ?_ h
    rw [← hready]
    exact partition_snd_perm _ l

theorem filter_append_comm {mark : α → Bool} {l l' : List α}
    (h : ∀ x ∈ l, mark x = true → ∀ y ∈ l', mark y = true → False) :
    l.filter mark ++ l'.filter mark = l'.filter mark ++ l.filter mark := by
  cases hl : l.filter mark with
  | nil => simp
  | cons x rest =>
      have hx : x ∈ l.filter mark := by simp [hl]
      have hnil : l'.filter mark = [] := by
        rw [List.filter_eq_nil_iff]
        intro y hy hmark
        obtain ⟨hx, hxmark⟩ := List.mem_filter.mp hx
        exact h x hx hxmark y hy hmark
      simp [hnil]

theorem filter_comm_of_sorted {mark : α → Bool} {l l₁ l₂ : List α}
    (hmark : (l.filter mark).Pairwise fun x y ↦ time x ≤ time y) (hsub : (l₁ ++ l₂).Sublist l)
    (hlt : ∀ x ∈ l₁, ∀ y ∈ l₂, time y < time x) :
    l₁.filter mark ++ l₂.filter mark = l₂.filter mark ++ l₁.filter mark := by
  apply filter_append_comm
  intro x hx hxmark y hy hymark
  have hsorted := hmark.sublist (hsub.filter mark)
  rw [List.filter_append] at hsorted
  have hle := (List.pairwise_append.mp hsorted).2.2 x (List.mem_filter.mpr ⟨hx, hxmark⟩) y
    (List.mem_filter.mpr ⟨hy, hymark⟩)
  have hlt := hlt x hx y hy
  omega

/-- If the marked elements of an arranged list have growing times, then the
ready ones followed by the waiting ones are the marked elements in their
order. -/
theorem filter_of_arranged {mark : α → Bool} {l : List α} (hl : Arranged now time l)
    (hmark : (l.filter mark).Pairwise fun x y ↦ time x ≤ time y) :
    (partition (fun x ↦ decide (now < time x)) l).2.filter mark ++
      (partition (fun x ↦ decide (now < time x)) l).1.filter mark = l.filter mark := by
  rcases hl with ⟨front, back, rfl, hf, hb, -⟩ | ⟨front, x, mid, w, back, rfl, hf, hw, hm, hx, -⟩
  · rw [partition_settled (by simpa using hf) (by simpa using hb), List.filter_append]
    refine (filter_comm_of_sorted hmark (.refl _) ?_).symm
    intro x hx y hy
    have h₁ := hf x hx
    have h₂ := hb y hy
    omega
  · rw [partition_late hf hw hm]
    -- The front is exchanged with the ready elements, the first of these with
    -- those before `w`, and `w` with those behind it.
    have hcommFront : front.filter mark ++ (x :: (mid ++ back)).filter mark =
        (x :: (mid ++ back)).filter mark ++ front.filter mark := by
      have hsub : (front ++ x :: (mid ++ back)).Sublist (front ++ x :: (mid ++ w :: back)) :=
        (List.Sublist.refl front).append (.cons_cons _ ((List.Sublist.refl mid).append
          (.cons _ (.refl back))))
      refine filter_comm_of_sorted hmark hsub ?_
      intro y hy z hz
      have hready : z ∈ mid ++ x :: back := by
        simp only [List.mem_cons, List.mem_append] at hz ⊢
        tauto
      have h₁ := hf y hy
      have h₂ := hm z hready
      omega
    have hcommMid : [x].filter mark ++ mid.filter mark = mid.filter mark ++ [x].filter mark := by
      have hsub : ([x] ++ mid).Sublist (front ++ x :: (mid ++ w :: back)) :=
        List.sublist_append_of_sublist_right (.cons_cons _ (List.sublist_append_left _ _))
      refine filter_comm_of_sorted hmark hsub ?_
      intro y hy z hz
      rw [List.mem_singleton.mp hy]
      exact hx z hz
    have hcommBack : [w].filter mark ++ back.filter mark =
        back.filter mark ++ [w].filter mark := by
      have hsub : ([w] ++ back).Sublist (front ++ x :: (mid ++ w :: back)) :=
        List.sublist_append_of_sublist_right (.cons _ (List.sublist_append_right _ _))
      refine filter_comm_of_sorted hmark hsub ?_
      intro y hy z hz
      rw [List.mem_singleton.mp hy]
      have h₁ := hm z (by simp [hz])
      omega
    have hcons : ∀ (y : α) (ys : List α), (y :: ys).filter mark = [y].filter mark ++ ys.filter mark :=
      fun y ys ↦ List.filter_append [y] ys
    rw [hcons, List.filter_append] at hcommFront
    rw [List.filter_append, List.filter_append, List.filter_append, hcons x back,
      hcons x (mid ++ w :: back), List.filter_append, hcons w back]
    calc mid.filter mark ++ ([x].filter mark ++ back.filter mark) ++
          (front.filter mark ++ [w].filter mark)
        = (mid.filter mark ++ [x].filter mark) ++ back.filter mark ++ front.filter mark ++
            [w].filter mark := by simp only [List.append_assoc]
      _ = ([x].filter mark ++ (mid.filter mark ++ back.filter mark)) ++ front.filter mark ++
            [w].filter mark := by rw [← hcommMid]; simp only [List.append_assoc]
      _ = front.filter mark ++ ([x].filter mark ++ (mid.filter mark ++ back.filter mark)) ++
            [w].filter mark := by rw [hcommFront]
      _ = front.filter mark ++ [x].filter mark ++ mid.filter mark ++
            (back.filter mark ++ [w].filter mark) := by simp only [List.append_assoc]
      _ = front.filter mark ++ ([x].filter mark ++ (mid.filter mark ++
            ([w].filter mark ++ back.filter mark))) := by
          rw [hcommBack]; simp only [List.append_assoc]

end Order

end TwoPointer

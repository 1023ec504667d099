import Mathlib.Algebra.Ring.Nat
import Mathlib.Data.List.Chain

/-!
# Merging neighbours

A partial operation `join` says which neighbours of a list are joined, and
into what.  `merge` joins until no two neighbours are left that can be; the
lists without such neighbours are its fixed points and its values.
-/

namespace Merging

variable {α : Type}

/-- What holds between two neighbours still holds when one of them has been
joined with the neighbour on its other side. -/
structure Keeps (join : α → α → Option α) (R : α → α → Prop) : Prop where
  left : ∀ {a b c : α}, join a b = some c → ∀ {x}, R x a → R x c
  right : ∀ {a b c : α}, join a b = some c → ∀ {x}, R b x → R c x

section

variable (join : α → α → Option α)

/-- No two neighbours can be joined. -/
def Apart (l : List α) : Prop := l.IsChain fun a b ↦ join a b = none

def push (a : α) : List α → List α
  | [] => [a]
  | b :: l =>
      match join a b with
      | some c => c :: l
      | none => a :: b :: l

def merge (l : List α) : List α := l.foldr (push join) []

@[simp] theorem merge_nil : merge join [] = [] := rfl

@[simp] theorem merge_cons (a : α) (l : List α) :
    merge join (a :: l) = push join a (merge join l) := rfl

end

variable {join : α → α → Option α} {a : α} {l r : List α}

theorem push_of_apart (h : ∀ b ∈ l.head?, join a b = none) : push join a l = a :: l := by
  cases l with
  | nil => rfl
  | cons b l =>
      have hab : join a b = none := h b (by simp)
      simp [push, hab]

theorem push_append (hl : l ≠ []) : push join a (l ++ r) = push join a l ++ r := by
  cases l with
  | nil => exact (hl rfl).elim
  | cons b l => cases hab : join a b <;> simp [push, hab]

theorem push_ne_nil : push join a l ≠ [] := by
  cases l with
  | nil => simp [push]
  | cons b l => cases hab : join a b <;> simp [push, hab]

theorem merge_ne_nil (hl : l ≠ []) : merge join l ≠ [] := by
  cases l with
  | nil => exact (hl rfl).elim
  | cons a l => exact push_ne_nil

theorem merge_eq_self (h : Apart join l) : merge join l = l := by
  induction l with
  | nil => rfl
  | cons a l ih =>
      obtain ⟨hhead, hl⟩ := List.isChain_cons.mp h
      rw [merge_cons, ih hl, push_of_apart hhead]

section Keeps

variable {R : α → α → Prop}

/-- What holds between an element and the first of a list holds between it
and the first of the merged list. -/
theorem head_merge (hR : Keeps join R) {x : α} (h : ∀ b ∈ l.head?, R x b) :
    ∀ b ∈ (merge join l).head?, R x b := by
  cases l with
  | nil => exact h
  | cons a l =>
      have ha : R x a := h a (by simp)
      rw [merge_cons]
      cases merge join l with
      | nil => simpa [push] using ha
      | cons b l =>
          cases hab : join a b with
          | none => simpa [push, hab] using ha
          | some c => simpa [push, hab] using hR.left hab ha

theorem isChain_push (hR : Keeps join R) (h : l.IsChain R)
    (ha : ∀ b ∈ l.head?, join a b = none → R a b) : (push join a l).IsChain R := by
  cases l with
  | nil => exact .singleton a
  | cons b l =>
      cases hab : join a b with
      | none =>
          have hpush : push join a (b :: l) = a :: b :: l := by simp [push, hab]
          rw [hpush]
          exact .cons_cons (ha b (by simp) hab) h
      | some c =>
          have hpush : push join a (b :: l) = c :: l := by simp [push, hab]
          rw [hpush]
          exact h.imp_head (hR.right hab)

theorem isChain_merge (hR : Keeps join R) (h : l.IsChain R) : (merge join l).IsChain R := by
  induction l with
  | nil => exact .nil
  | cons a l ih =>
      obtain ⟨hhead, hl⟩ := List.isChain_cons.mp h
      exact isChain_push hR (ih hl) fun b hb _ ↦ head_merge hR hhead b hb

end Keeps

section Joins

variable (hjoin : Keeps join fun a b ↦ join a b = none)

include hjoin

theorem apart_merge (l : List α) : Apart join (merge join l) := by
  induction l with
  | nil => exact .nil
  | cons a l ih => exact isChain_push hjoin ih fun _ _ hab ↦ hab

theorem merge_merge (l : List α) : merge join (merge join l) = merge join l :=
  merge_eq_self (apart_merge hjoin l)

/-- A list is merged on both sides of a border that nothing is joined
across. -/
theorem merge_append (h : ∀ a ∈ l.getLast?, ∀ b ∈ r.head?, join a b = none) :
    merge join (l ++ r) = merge join l ++ merge join r := by
  induction l with
  | nil => rfl
  | cons a l ih =>
      cases l with
      | nil =>
          have hhead := head_merge hjoin (h a (by simp))
          rw [List.singleton_append, merge_cons, push_of_apart hhead]
          rfl
      | cons a' l =>
          have hl := ih fun b hb ↦ h b (by simpa [List.getLast?_cons] using hb)
          have hne : merge join (a' :: l) ≠ [] := merge_ne_nil (by simp)
          rw [List.cons_append, merge_cons, hl, push_append hne, merge_cons join a]

end Joins

theorem filter_merge {keep : α → Bool}
    (hkeep : ∀ {a b c}, join a b = some c → keep a = false ∧ keep b = false ∧ keep c = false)
    (l : List α) : (merge join l).filter keep = l.filter keep := by
  have hpush : ∀ a l, (push join a l).filter keep = (a :: l).filter keep := by
    intro a l
    cases l with
    | nil => rfl
    | cons b l =>
        cases hab : join a b with
        | none => simp [push, hab]
        | some c =>
            obtain ⟨ha, hb, hc⟩ := hkeep hab
            simp [push, hab, ha, hb, hc]
  induction l with
  | nil => rfl
  | cons a l ih => rw [merge_cons, hpush, List.filter_cons, List.filter_cons, ih]

/-- A block of a kind whose elements are joined by adding their amounts. -/
theorem merge_block {wait : ℕ → α} (hwait : ∀ a b, join (wait a) (wait b) = some (wait (a + b)))
    {amounts : List ℕ} (hne : amounts ≠ []) :
    merge join (amounts.map wait) = [wait amounts.sum] := by
  induction amounts with
  | nil => exact (hne rfl).elim
  | cons a amounts ih =>
      cases amounts with
      | nil => simp [push]
      | cons b amounts =>
          rw [List.map_cons, merge_cons, ih (by simp)]
          simp [push, hwait]

end Merging

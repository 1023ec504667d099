import Mathlib.Data.List.Nodup

/-!
# Numbering the entries of a list

A list without duplicates numbers its entries; appending to it keeps the
numbers already given.
-/

namespace Numbering

variable {α : Type} {xs ys : List α} {a b : α} {i j : ℕ}

theorem getElem?_append_of_some (h : xs[i]? = some a) : (xs ++ ys)[i]? = some a := by
  obtain ⟨hi, -⟩ := List.getElem?_eq_some_iff.mp h
  rw [List.getElem?_append_left hi, h]

theorem getElem?_append_singleton (h : (xs ++ [b])[i]? = some a) :
    xs[i]? = some a ∨ i = xs.length ∧ a = b := by
  rcases Nat.lt_or_ge i xs.length with hi | hi
  · rw [List.getElem?_append_left hi] at h
    exact .inl h
  · obtain ⟨hi', -⟩ := List.getElem?_eq_some_iff.mp h
    have hlen : i = xs.length := by
      simp only [List.length_append, List.length_singleton] at hi'
      omega
    subst hlen
    exact .inr ⟨rfl, by simpa using h.symm⟩

theorem inj_of_nodup (hn : xs.Nodup) (hi : xs[i]? = some a) (hj : xs[j]? = some a) : i = j := by
  obtain ⟨hi', hia⟩ := List.getElem?_eq_some_iff.mp hi
  obtain ⟨hj', hja⟩ := List.getElem?_eq_some_iff.mp hj
  exact (hn.getElem_inj_iff).mp (hia.trans hja.symm)

theorem same_or_other (hn : xs.Nodup) (hi : xs[i]? = some a) (hj : xs[j]? = some b) :
    i = j ∧ a = b ∨ i ≠ j ∧ a ≠ b := by
  by_cases hij : i = j
  · subst hij
    rw [hi] at hj
    exact .inl ⟨rfl, Option.some.inj hj⟩
  · refine .inr ⟨hij, ?_⟩
    rintro rfl
    exact hij (inj_of_nodup hn hi hj)

variable [DecidableEq α]

def number (xs : List α) (a : α) : ℕ := xs.idxOf a

theorem getElem?_number (h : a ∈ xs) : xs[number xs a]? = some a := by
  rw [number, List.getElem?_eq_getElem (List.idxOf_lt_length_iff.mpr h), List.getElem_idxOf]

theorem number_eq (hn : xs.Nodup) (h : xs[i]? = some a) : number xs a = i :=
  inj_of_nodup hn (getElem?_number (List.mem_of_getElem? h)) h

theorem number_append_of_mem (h : a ∈ xs) (ys : List α) : number (xs ++ ys) a = number xs a :=
  List.idxOf_append_of_mem h

theorem number_append_self (h : a ∉ xs) : number (xs ++ [a]) a = xs.length := by
  rw [number, List.idxOf_append_of_notMem h]
  simp

end Numbering

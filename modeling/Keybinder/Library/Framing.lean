import Mathlib.Data.List.Basic

/-!
# Streams cut by a delimiter

The pieces of a stream are what a delimiter ends; the remainder is what
follows the last delimiter.  Both are those of `List.splitOn`.  A stream can
be cut anywhere: what was left over is put before what comes next.
-/

namespace Framing

variable {α : Type} [DecidableEq α] (d : α)

def pieces (s : List α) : List (List α) := (s.splitOn d).dropLast

def remainder (s : List α) : List α := (s.splitOn d).getLastD []

variable {d} {s t l : List α}

theorem pieces_of_notMem (h : d ∉ s) : pieces d s = [] := by
  simp [pieces, List.splitOn_eq_singleton h]

theorem remainder_of_notMem (h : d ∉ s) : remainder d s = s := by
  simp [remainder, List.splitOn_eq_singleton h]

theorem pieces_append_cons (h : d ∉ l) (s : List α) :
    pieces d (l ++ d :: s) = l :: pieces d s := by
  rw [pieces, List.splitOn_append_cons_self_of_not_mem h s,
    List.dropLast_cons_of_ne_nil (List.splitOn_ne_nil d s), pieces]

theorem remainder_append_cons (h : d ∉ l) (s : List α) :
    remainder d (l ++ d :: s) = remainder d s := by
  obtain ⟨last, hlast⟩ := Option.ne_none_iff_exists'.mp
    (mt List.getLast?_eq_none_iff.mp (List.splitOn_ne_nil d s))
  rw [remainder, List.splitOn_append_cons_self_of_not_mem h s, remainder]
  simp [List.getLastD_eq_getLast?, List.getLast?_cons, hlast]

theorem stream_cases (d : α) (s : List α) : d ∉ s ∨ ∃ l rest, s = l ++ d :: rest ∧ d ∉ l := by
  by_cases h : d ∈ s
  · obtain ⟨l, rest, hs, hl⟩ := List.eq_append_cons_of_mem h
    exact .inr ⟨l, rest, hs, hl⟩
  · exact .inl h

theorem stream_induction {P : List α → Prop} (d : α) (hnone : ∀ s, d ∉ s → P s)
    (hpiece : ∀ l s, d ∉ l → P s → P (l ++ d :: s)) (s : List α) : P s := by
  induction hn : s.length using Nat.strongRecOn generalizing s with
  | _ n ih =>
      rcases stream_cases d s with h | ⟨l, rest, rfl, hl⟩
      · exact hnone s h
      · apply hpiece l rest hl
        apply ih rest.length _ rest rfl
        rw [← hn, List.length_append, List.length_cons]
        omega

theorem mem_pieces (s : List α) (h : l ∈ pieces d s) : d ∉ l ∧ l ⊆ s := by
  induction s using stream_induction d with
  | hnone s hs => simp [pieces_of_notMem hs] at h
  | hpiece l' s hl ih =>
      rw [pieces_append_cons hl] at h
      rcases List.mem_cons.mp h with rfl | h
      · exact ⟨hl, List.subset_append_left _ _⟩
      · obtain ⟨hd, hsubset⟩ := ih h
        refine ⟨hd, fun a ha ↦ ?_⟩
        simp [hsubset ha]

theorem mem_remainder (d : α) (s : List α) : d ∉ remainder d s ∧ remainder d s ⊆ s := by
  induction s using stream_induction d with
  | hnone s hs =>
      rw [remainder_of_notMem hs]
      exact ⟨hs, List.Subset.refl s⟩
  | hpiece l s hl ih =>
      rw [remainder_append_cons hl]
      refine ⟨ih.1, fun a ha ↦ ?_⟩
      simp [ih.2 ha]

theorem pieces_lines {ls : List (List α)} (hls : ∀ l ∈ ls, d ∉ l) (ht : d ∉ t) :
    pieces d (ls.flatMap (· ++ [d]) ++ t) = ls ∧
      remainder d (ls.flatMap (· ++ [d]) ++ t) = t := by
  induction ls with
  | nil => exact ⟨pieces_of_notMem ht, remainder_of_notMem ht⟩
  | cons l ls ih =>
      obtain ⟨hl, hrest⟩ := List.forall_mem_cons.mp hls
      obtain ⟨hpieces, hremainder⟩ := ih hrest
      have hsplit : (l :: ls).flatMap (· ++ [d]) ++ t = l ++ d :: (ls.flatMap (· ++ [d]) ++ t) := by
        simp
      rw [hsplit, pieces_append_cons hl, remainder_append_cons hl, hpieces, hremainder]
      exact ⟨rfl, rfl⟩

theorem pieces_append (s t : List α) :
    pieces d (s ++ t) = pieces d s ++ pieces d (remainder d s ++ t) := by
  induction s using stream_induction d with
  | hnone s h => simp [pieces_of_notMem h, remainder_of_notMem h]
  | hpiece l s hl ih =>
      rw [List.append_assoc, List.cons_append, pieces_append_cons hl, pieces_append_cons hl,
        remainder_append_cons hl, ih, List.cons_append]

theorem remainder_append (s t : List α) :
    remainder d (s ++ t) = remainder d (remainder d s ++ t) := by
  induction s using stream_induction d with
  | hnone s h => rw [remainder_of_notMem h]
  | hpiece l s hl ih =>
      rw [List.append_assoc, List.cons_append, remainder_append_cons hl, remainder_append_cons hl, ih]

end Framing

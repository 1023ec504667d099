import Mathlib.Data.List.Basic

/-!
# The last writes of a history

A table that is written again and again holds, for every key, the last write
of that key.  A history of writes can be read by two keys at once: the writes
that are last by one of them are those that are last by the other exactly
when no write is overtaken by one key alone.
-/

namespace LastWrites

variable {α β κ κ' : Type}

/-- The write is in the history, and no later one has its key. -/
def LastBy (key : α → κ) (l : List α) (a : α) : Prop :=
  ∃ before after, l = before ++ a :: after ∧ ∀ b ∈ after, key b ≠ key a

/-- What one entry more adds to the entries of a kind. -/
theorem filterMap_concat (f : α → Option β) (l : List α) (a : α) :
    (l ++ [a]).filterMap f = l.filterMap f ++ (f a).toList := by
  rw [List.filterMap_append]
  cases hf : f a <;> simp [hf]

/-- The last write to a cell that only some entries write to, after one entry
more. -/
theorem lastWritten_concat (writes : α → Option β) (l : List α) (a : α) (b : β) :
    ((l ++ [a]).filterMap writes).getLast?.getD b =
      (writes a).getD ((l.filterMap writes).getLast?.getD b) := by
  rw [filterMap_concat]
  cases writes a <;> simp

variable {key : α → κ} {key' : α → κ'} {l before after : List α} {a b : α}

/-- After its last occurrence a write is last if its key does not return. -/
theorem lastBy_split (h : a ∉ after) :
    LastBy key (before ++ a :: after) a ↔ ∀ b ∈ after, key b ≠ key a := by
  constructor
  · rintro ⟨before', after', heq, hlast⟩
    rcases List.append_eq_append_iff.mp heq with ⟨t, -, ht⟩ | ⟨t, -, ht⟩
    · cases t with
      | nil => exact (List.cons.inj ht).2 ▸ hlast
      | cons b t =>
          have hmem : a ∈ after := by simp [(List.cons.inj ht).2]
          exact (h hmem).elim
    · cases t with
      | nil => exact (List.cons.inj ht).2 ▸ hlast
      | cons b t =>
          have hmem : a ∈ after' := by simp [(List.cons.inj ht).2]
          exact (hlast a hmem rfl).elim
  · exact fun hlast ↦ ⟨before, after, rfl, hlast⟩

theorem LastBy.mem (h : LastBy key l a) : a ∈ l := by
  obtain ⟨before, after, rfl, -⟩ := h
  simp

@[simp] theorem not_lastBy_nil : ¬ LastBy key [] a := by
  rintro ⟨before, after, heq, -⟩
  simp at heq

/-- One write more is last, and overtakes those with its key. -/
theorem lastBy_concat :
    LastBy key (l ++ [b]) a ↔ a = b ∨ LastBy key l a ∧ key b ≠ key a := by
  constructor
  · rintro ⟨before, after, heq, hlast⟩
    rcases List.eq_nil_or_concat' after with rfl | ⟨after, c, rfl⟩
    · obtain ⟨-, hab⟩ := List.append_inj' heq rfl
      exact .inl (List.cons.inj hab).1.symm
    · rw [← List.cons_append, ← List.append_assoc] at heq
      obtain ⟨rfl, hbc⟩ := List.append_inj' heq rfl
      obtain rfl := (List.cons.inj hbc).1
      exact .inr ⟨⟨before, after, rfl, fun d hd ↦ hlast d (List.mem_append_left _ hd)⟩,
        hlast b (by simp)⟩
  · rintro (rfl | ⟨⟨before, after, rfl, hlast⟩, hne⟩)
    · exact ⟨l, [], rfl, by simp⟩
    · refine ⟨before, after ++ [b], by simp, fun d hd ↦ ?_⟩
      rcases List.mem_append.mp hd with hd | hd
      · exact hlast d hd
      · rw [List.mem_singleton.mp hd]
        exact hne

theorem LastBy.exists_split (h : LastBy key l a) :
    ∃ before after, l = before ++ a :: after ∧ a ∉ after := by
  obtain ⟨before, after, heq, hlast⟩ := h
  exact ⟨before, after, heq, fun hmem ↦ hlast a hmem rfl⟩

/-- The write is overtaken by one of its keys exactly when it is by the
other. -/
def OvertakenAlike (key : α → κ) (key' : α → κ') (l : List α) : Prop :=
  ∀ before a after, l = before ++ a :: after → a ∉ after →
    ((∃ b ∈ after, key b = key a) ↔ ∃ b ∈ after, key' b = key' a)

theorem lastBy_congr_iff :
    (∀ a, LastBy key l a ↔ LastBy key' l a) ↔ OvertakenAlike key key' l := by
  have hsplit : ∀ {before a after}, l = before ++ a :: after → a ∉ after →
      ((LastBy key l a ↔ LastBy key' l a) ↔
        ((∃ b ∈ after, key b = key a) ↔ ∃ b ∈ after, key' b = key' a)) := by
    rintro before a after rfl hlast
    have hnone : ∀ {γ : Type} (k : α → γ), (∀ b ∈ after, k b ≠ k a) ↔
        ¬ ∃ b ∈ after, k b = k a := by simp
    rw [lastBy_split hlast, lastBy_split hlast, hnone key, hnone key', not_iff_not]
  constructor
  · exact fun h before a after heq hlast ↦ (hsplit heq hlast).mp (h a)
  · intro h a
    by_cases hmem : ∃ before after, l = before ++ a :: after ∧ a ∉ after
    · obtain ⟨before, after, heq, hlast⟩ := hmem
      exact (hsplit heq hlast).mpr (h before a after heq hlast)
    · exact iff_of_false (fun h ↦ hmem h.exists_split) (fun h ↦ hmem h.exists_split)

theorem lastBy_map {f : α → β} (hf : f.Injective) {key : β → κ} :
    LastBy key (l.map f) (f a) ↔ LastBy (fun a ↦ key (f a)) l a := by
  constructor
  · rintro ⟨before, after, heq, hlast⟩
    obtain ⟨before', rest, rfl, -, hrest⟩ := List.map_eq_append_iff.mp heq
    obtain ⟨a', after', rfl, ha, rfl⟩ := List.map_eq_cons_iff.mp hrest
    obtain rfl := hf ha
    exact ⟨before', after', rfl, fun b hb ↦ hlast (f b) (List.mem_map_of_mem hb)⟩
  · rintro ⟨before, after, rfl, hlast⟩
    refine ⟨before.map f, after.map f, by simp, fun b hb ↦ ?_⟩
    obtain ⟨a', ha', rfl⟩ := List.mem_map.mp hb
    exact hlast a' ha'

/-- A table that is written at its front holds the last writes. -/
theorem lookup_reverse [DecidableEq κ] {l : List (κ × β)} {k : κ} {b : β} :
    l.reverse.lookup k = some b ↔ LastBy Prod.fst l (k, b) := by
  rw [List.lookup_eq_some_iff]
  constructor
  · rintro ⟨after, before, heq, hlast⟩
    refine ⟨before.reverse, after.reverse, ?_, fun entry hentry ↦ ?_⟩
    · rw [← List.reverse_reverse l, heq]
      simp
    · have hne := hlast entry (List.mem_reverse.mp hentry)
      exact fun hk ↦ by simp [hk] at hne
  · rintro ⟨before, after, rfl, hlast⟩
    refine ⟨after.reverse, before.reverse, by simp, fun entry hentry ↦ ?_⟩
    have hne := hlast entry (List.mem_reverse.mp hentry)
    simpa using Ne.symm hne

end LastWrites

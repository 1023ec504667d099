import Mathlib.Data.List.Basic

/-!
# Hash tables with a non-structural key equality

A lookup compares the wanted key with the stored ones by `eq` and returns
some stored key that compares equal.  When `eq` is not transitive several
stored keys may qualify, and which of them is found depends on the layout
of the table; `pick` is any such choice.
-/

/-- A choice of stored key for every list of stored keys and every wanted
key.  The choice may only depend on how the wanted key compares with the
stored ones. -/
structure HashLookup (κ : Type) (eq : κ → κ → Bool) where
  pick : List κ → κ → Option κ
  mem_of_pick : ∀ {ks k k'}, pick ks k = some k' → k' ∈ ks
  eq_of_pick : ∀ {ks k k'}, pick ks k = some k' → eq k' k = true
  ne_of_pick_none : ∀ {ks k k'}, pick ks k = none → k' ∈ ks → eq k' k = false
  pick_congr : ∀ {ks k₁ k₂}, (∀ k' ∈ ks, eq k' k₁ = eq k' k₂) → pick ks k₁ = pick ks k₂

namespace HashLookup

variable {κ ν : Type} {eq : κ → κ → Bool}

/-- The table that probes its keys in insertion order. -/
def first (eq : κ → κ → Bool) : HashLookup κ eq where
  pick ks k := ks.find? fun k' ↦ eq k' k
  mem_of_pick h := List.mem_of_find?_eq_some h
  eq_of_pick h := List.find?_some (p := fun k' ↦ eq k' _) h
  ne_of_pick_none h hk := by simpa using List.find?_eq_none.mp h _ hk
  pick_congr h := by
    rename_i ks k₁ k₂
    induction ks with
    | nil => rfl
    | cons k ks ih =>
        simp only [List.find?_cons, h k (by simp)]
        rw [ih fun k' hk' ↦ h k' (List.mem_cons_of_mem _ hk')]

variable [DecidableEq κ] (H : HashLookup κ eq)

/-- The value stored with the key that the table picks. -/
def find (table : List (κ × ν)) (k : κ) : Option ν :=
  (H.pick (table.map Prod.fst) k).bind fun k' ↦
    (table.find? fun entry ↦ entry.1 = k').map Prod.snd

@[simp] theorem find_nil (k : κ) : H.find ([] : List (κ × ν)) k = none := by
  cases hpick : H.pick [] k <;> simp [find, hpick]

theorem find_eq_some {table : List (κ × ν)} {k : κ} {v : ν}
    (h : H.find table k = some v) : ∃ k', (k', v) ∈ table ∧ eq k' k = true := by
  obtain ⟨k', hpick, hv⟩ := Option.bind_eq_some_iff.mp h
  obtain ⟨⟨k'', v'⟩, hfind, rfl⟩ := Option.map_eq_some_iff.mp hv
  have hkey : k'' = k' := by simpa using List.find?_some hfind
  subst hkey
  exact ⟨k'', List.mem_of_find?_eq_some hfind, H.eq_of_pick hpick⟩

theorem find_eq_none {table : List (κ × ν)} {k : κ} (h : H.find table k = none) :
    ∀ entry ∈ table, eq entry.1 k = false := by
  intro entry hentry
  have hmem : entry.1 ∈ table.map Prod.fst := List.mem_map_of_mem hentry
  cases hpick : H.pick (table.map Prod.fst) k with
  | none => exact H.ne_of_pick_none hpick hmem
  | some k' =>
      obtain ⟨⟨k'', v⟩, hk', rfl⟩ := List.mem_map.mp (H.mem_of_pick hpick)
      have hnone : table.find? (fun entry ↦ entry.1 = k'') = none := by
        simpa [find, hpick] using h
      exact (List.find?_eq_none.mp hnone _ hk' (by simp)).elim

theorem isSome_find {table : List (κ × ν)} {k : κ} :
    (H.find table k).isSome = true ↔ ∃ entry ∈ table, eq entry.1 k = true := by
  constructor
  · intro h
    obtain ⟨v, hv⟩ := Option.isSome_iff_exists.mp h
    obtain ⟨k', hk', heq⟩ := H.find_eq_some hv
    exact ⟨(k', v), hk', heq⟩
  · rintro ⟨entry, hentry, heq⟩
    cases hfind : H.find table k with
    | none =>
        rw [H.find_eq_none hfind entry hentry] at heq
        cases heq
    | some v => rfl

theorem find_of_filter {table : List (κ × ν)} {k : κ} {entry : κ × ν}
    (h : (table.filter fun entry ↦ eq entry.1 k) = [entry]) : H.find table k = some entry.2 := by
  have hmem : ∀ {entry'}, entry' ∈ table ∧ eq entry'.1 k = true ↔ entry' = entry := by
    intro entry'
    have hfilter : entry' ∈ [entry] ↔ entry' ∈ table ∧ eq entry'.1 k = true := by
      rw [← h, List.mem_filter]
    rw [← hfilter, List.mem_singleton]
  cases hfind : H.find table k with
  | none =>
      obtain ⟨htable, heq⟩ := hmem.mpr rfl
      simp [H.find_eq_none hfind entry htable] at heq
  | some v =>
      obtain ⟨k', hk', heq⟩ := H.find_eq_some hfind
      rw [← hmem.mp ⟨hk', heq⟩]

theorem find_of_filter_nil {table : List (κ × ν)} {k : κ}
    (h : (table.filter fun entry ↦ eq entry.1 k) = []) : H.find table k = none := by
  cases hfind : H.find table k with
  | none => rfl
  | some v =>
      obtain ⟨k', hk', heq⟩ := H.find_eq_some hfind
      rw [List.filter_eq_nil_iff] at h
      exact (h _ hk' heq).elim

/-- When no two stored keys compare equal to the wanted one, neither the
layout of the table nor the order of insertion matters. -/
theorem find_perm (H' : HashLookup κ eq) {table table' : List (κ × ν)} (hperm : table.Perm table')
    {k : κ} (h : (table.filter fun entry ↦ eq entry.1 k).length ≤ 1) :
    H.find table k = H'.find table' k := by
  have hfilter := hperm.filter fun entry ↦ eq entry.1 k
  cases hmatching : table.filter fun entry ↦ eq entry.1 k with
  | nil =>
      rw [hmatching, List.nil_perm] at hfilter
      rw [H.find_of_filter_nil hmatching, H'.find_of_filter_nil hfilter]
  | cons entry rest =>
      obtain rfl : rest = [] := by simpa [hmatching] using h
      rw [hmatching, List.singleton_perm] at hfilter
      rw [H.find_of_filter hmatching, H'.find_of_filter hfilter.symm]

theorem find_congr {table : List (κ × ν)} {k₁ k₂ : κ}
    (h : ∀ entry ∈ table, eq entry.1 k₁ = eq entry.1 k₂) :
    H.find table k₁ = H.find table k₂ := by
  have hpick : H.pick (table.map Prod.fst) k₁ = H.pick (table.map Prod.fst) k₂ := by
    apply H.pick_congr
    intro k' hk'
    obtain ⟨entry, hentry, rfl⟩ := List.mem_map.mp hk'
    exact h entry hentry
  simp [find, hpick]

theorem find_map {μ : Type} (f : ν → μ) (table : List (κ × ν)) (k : κ) :
    H.find (table.map fun entry ↦ (entry.1, f entry.2)) k = (H.find table k).map f := by
  have hkeys : (table.map fun entry ↦ (entry.1, f entry.2)).map Prod.fst =
      table.map Prod.fst := by simp
  simp only [find, hkeys]
  cases H.pick (table.map Prod.fst) k with
  | none => rfl
  | some k' =>
      simp only [Option.bind_some, List.find?_map, Option.map_map]
      rfl

end HashLookup

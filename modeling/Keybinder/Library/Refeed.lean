import Mathlib.Data.List.Forall2
import Keybinder.Library.Exits

/-!
# Transducers that feed events again

Handling an event may ask for further events to be handled before the next
one of the input.  `run` is the recursive procedure, with a bound on the
depth of its recursion; `Feeds` is the same computation as a list of pending
events that is worked off from the front.
-/

namespace Refeed

variable {σ ε χ : Type}

/-- Handles one event and then, recursively, the events it asks for. -/
def run (step : σ → ε → Except χ (σ × List ε)) (spent : χ) : ℕ → σ → ε → Except χ σ
  | 0, _, _ => .error spent
  | fuel + 1, s, e => do
      let (s, redo) ← step s e
      redo.foldlM (run step spent fuel) s

/-- Working off a list of pending events leads from one state to another. -/
inductive Feeds (step : σ → ε → Except χ (σ × List ε)) : σ → List ε → σ → Prop
  | nil (s : σ) : Feeds step s [] s
  | cons {s s' t : σ} {e : ε} {redo rest : List ε} (hstep : step s e = .ok (s', redo))
      (hrest : Feeds step s' (redo ++ rest) t) : Feeds step s (e :: rest) t

variable {step : σ → ε → Except χ (σ × List ε)} {spent : χ}

theorem run_of_step_eq {fuel : ℕ} {s s' : σ} {e : ε} {redo : List ε}
    (h : step s e = .ok (s', redo)) :
    run step spent (fuel + 1) s e = redo.foldlM (run step spent fuel) s' := by
  rw [run, h]
  rfl

namespace Feeds

theorem append {s t u : σ} {es fs : List ε} (h : Feeds step s es t) (h' : Feeds step t fs u) :
    Feeds step s (es ++ fs) u := by
  induction h with
  | nil => exact h'
  | cons hstep _ ih => exact .cons hstep (by simpa using ih h')

/-- The invariant rule: a property of the state and the pending events that
every step keeps holds with nothing pending at the end. -/
theorem rule {J : σ → List ε → Prop} {s t : σ} {es : List ε}
    (hJ : ∀ {s s' e redo rest}, J s (e :: rest) → step s e = .ok (s', redo) →
      J s' (redo ++ rest))
    (h : Feeds step s es t) (hs : J s es) : J t [] := by
  induction h with
  | nil => exact hs
  | cons hstep _ ih => exact ih (hJ hs hstep)

end Feeds

theorem feeds_of_foldlM {fuel : ℕ}
    (hrun : ∀ {s e t}, run step spent fuel s e = .ok t → Feeds step s [e] t)
    {es : List ε} {s t : σ} (h : es.foldlM (run step spent fuel) s = .ok t) :
    Feeds step s es t := by
  induction es generalizing s with
  | nil =>
      cases h
      exact .nil _
  | cons e es ih =>
      obtain ⟨s', hs', ht⟩ := Exits.bind_eq_ok.mp (by simpa only [List.foldlM_cons] using h)
      exact (hrun hs').append (ih ht)

theorem feeds_of_run {fuel : ℕ} {s t : σ} {e : ε} (h : run step spent fuel s e = .ok t) :
    Feeds step s [e] t := by
  induction fuel generalizing s e t with
  | zero => cases h
  | succ fuel ih =>
      obtain ⟨⟨s', redo⟩, hstep, hredo⟩ := Exits.bind_eq_ok.mp h
      exact .cons hstep (by simpa using feeds_of_foldlM ih hredo)

theorem run_relatedUnless {σ' : Type} {step' : σ' → ε → Except χ (σ' × List ε)} {bad : χ}
    {S : σ → σ' → Prop}
    (hstep : ∀ {s s'} e, S s s' → Exits.RelatedUnless bad
      (fun c c' ↦ S c.1 c'.1 ∧ c.2 = c'.2) (step s e) (step' s' e))
    (fuel : ℕ) {s : σ} {s' : σ'} (h : S s s') (e : ε) :
    Exits.RelatedUnless bad S (run step spent fuel s e) (run step' spent fuel s' e) := by
  induction fuel generalizing s s' e with
  | zero => exact .inr (.error spent)
  | succ fuel ih =>
      refine (hstep e h).bind ?_
      rintro ⟨t, redo⟩ ⟨t', redo'⟩ ⟨ht, rfl⟩
      refine Exits.RelatedUnless.foldlM (R := fun e e' ↦ e = e') ?_
        (List.forall₂_same.mpr fun _ _ ↦ rfl) ht
      rintro u u' e _ hu rfl
      exact ih hu e

theorem run_avoids {bad : χ} {P : σ → Prop} (hspent : spent ≠ bad)
    (hstep : ∀ {s} e, P s → Exits.Avoids bad (fun c ↦ P c.1) (step s e)) (fuel : ℕ) {s : σ}
    (hs : P s) (e : ε) : Exits.Avoids bad P (run step spent fuel s e) := by
  induction fuel generalizing s e with
  | zero => exact hspent
  | succ fuel ih =>
      exact (hstep e hs).bind fun c hc ↦ Exits.Avoids.foldlM (fun t e _ ht ↦ ih ht e) hc

/-! ## Termination -/

/-- With enough fuel the computation ends, and not for want of fuel. -/
def Ends {α : Type} (spent : χ) (f : ℕ → Except χ α) : Prop :=
  ∃ fuel res, res ≠ .error spent ∧ ∀ fuel' ≥ fuel, f fuel' = res

namespace Ends

variable {α β : Type}

theorem const {res : Except χ α} (h : res ≠ .error spent) : Ends spent fun _ ↦ res :=
  ⟨0, res, h, fun _ _ ↦ rfl⟩

theorem bind {f : ℕ → Except χ α} {g : ℕ → α → Except χ β} (hf : Ends spent f)
    (hg : ∀ fuel a, f fuel = .ok a → Ends spent fun fuel ↦ g fuel a) :
    Ends spent fun fuel ↦ f fuel >>= g fuel := by
  obtain ⟨fuel, res, hres, hrun⟩ := hf
  cases res with
  | error x =>
      refine ⟨fuel, .error x, fun h ↦ ?_, ?_⟩
      · cases h
        exact hres rfl
      · intro fuel' hfuel'
        simp only [hrun fuel' hfuel', Exits.error_bind]
  | ok a =>
      obtain ⟨fuel₂, res₂, hres₂, hrun₂⟩ := hg fuel a (hrun fuel (Nat.le_refl fuel))
      refine ⟨max fuel fuel₂, res₂, hres₂, ?_⟩
      intro fuel' hfuel'
      simp only [hrun fuel' (by omega), Exits.ok_bind]
      exact hrun₂ fuel' (by omega)

theorem run_of_step {s : σ} {e : ε} (hspent : step s e ≠ .error spent)
    (h : ∀ s' redo, step s e = .ok (s', redo) →
      Ends spent fun fuel ↦ redo.foldlM (run step spent fuel) s') :
    Ends spent fun fuel ↦ run step spent fuel s e := by
  have hstep : Ends spent fun fuel ↦
      step s e >>= fun c ↦ c.2.foldlM (run step spent fuel) c.1 :=
    (Ends.const hspent).bind fun _ c hc ↦ h c.1 c.2 hc
  obtain ⟨fuel, res, hres, hrun⟩ := hstep
  refine ⟨fuel + 1, res, hres, ?_⟩
  intro fuel' hfuel'
  obtain ⟨k, rfl⟩ : ∃ k, fuel' = k + 1 := ⟨fuel' - 1, by omega⟩
  exact hrun k (by omega)

end Ends

/-- A rank that bounds what may be fed again.  One event may raise the rank
by one; an event that asks for others lowers the rank by at least as much as
it asks for. -/
structure Ranked (step : σ → ε → Except χ (σ × List ε)) (P : σ → Prop) (rank : σ → ℕ) :
    Prop where
  keeps : ∀ {s s' e redo}, P s → step s e = .ok (s', redo) → P s'
  rank_le : ∀ {s s' e redo}, P s → step s e = .ok (s', redo) →
    rank s' + redo.length ≤ rank s + 1
  rank_le_of_redo : ∀ {s s' e redo}, P s → step s e = .ok (s', redo) → redo ≠ [] →
    rank s' + redo.length ≤ rank s

variable {P : σ → Prop} {rank : σ → ℕ}

/-- With a rank, the recursion over any list of events comes to an end: some
fuel gives a result that is not the end of the fuel, and that more fuel does
not change.  Outer induction on the rank and the number of events together,
inner induction on the events. -/
theorem Ranked.foldlM_ends (hr : Ranked step P rank) (hspent : ∀ s e, step s e ≠ .error spent)
    (n : ℕ) : ∀ (es : List ε) (s : σ), P s → rank s + es.length ≤ n →
      ∃ fuel res, res ≠ .error spent ∧
        (∀ fuel' ≥ fuel, es.foldlM (run step spent fuel') s = res) ∧
        ∀ t, res = .ok t → P t ∧ rank t ≤ rank s + es.length := by
  induction n using Nat.strongRecOn with
  | _ n ihn =>
      intro es
      induction es with
      | nil =>
          intro s hs _
          refine ⟨0, .ok s, by simp, fun _ _ ↦ rfl, ?_⟩
          rintro t ht
          cases ht
          exact ⟨hs, by simp⟩
      | cons e es ih =>
          intro s hs hn
          simp only [List.length_cons] at hn ⊢
          cases hstep : step s e with
          | error x =>
              refine ⟨1, .error x, ?_, ?_, by simp⟩
              · rintro h
                cases h
                exact hspent s e hstep
              · intro fuel' hfuel'
                obtain ⟨k, rfl⟩ := Nat.exists_eq_add_of_le' hfuel'
                simp [List.foldlM_cons, run, hstep]
          | ok next =>
              obtain ⟨s', redo⟩ := next
              have hP := hr.keeps hs hstep
              have hle := hr.rank_le hs hstep
              -- The events asked for come to an end at some state of bounded rank.
              obtain ⟨fuel, res, hres, hrun, hbound⟩ : ∃ fuel res, res ≠ .error spent ∧
                  (∀ fuel' ≥ fuel, redo.foldlM (run step spent fuel') s' = res) ∧
                  ∀ t, res = .ok t → P t ∧ rank t ≤ rank s' + redo.length := by
                by_cases hredo : redo = []
                · subst hredo
                  refine ⟨0, .ok s', by simp, fun _ _ ↦ rfl, ?_⟩
                  rintro t ht
                  cases ht
                  exact ⟨hP, by simp⟩
                · have hlt := hr.rank_le_of_redo hs hstep hredo
                  exact ihn (rank s' + redo.length) (by omega) redo s' hP (Nat.le_refl _)
              have hhead : ∀ fuel' ≥ fuel + 1, run step spent fuel' s e = res := by
                intro fuel' hfuel'
                obtain ⟨k, rfl⟩ : ∃ k, fuel' = k + 1 := ⟨fuel' - 1, by omega⟩
                rw [run, hstep]
                exact hrun k (by omega)
              cases hres' : res with
              | error x =>
                  refine ⟨fuel + 1, .error x, hres' ▸ hres, ?_, by simp⟩
                  intro fuel' hfuel'
                  rw [List.foldlM_cons, hhead fuel' hfuel', hres']
                  rfl
              | ok t =>
                  obtain ⟨ht, htle⟩ := hbound t hres'
                  obtain ⟨fuel₂, res₂, hres₂, hrun₂, hbound₂⟩ := ih t ht (by omega)
                  refine ⟨max (fuel + 1) fuel₂, res₂, hres₂, ?_, ?_⟩
                  · intro fuel' hfuel'
                    rw [List.foldlM_cons, hhead fuel' (by omega), hres']
                    exact hrun₂ fuel' (by omega)
                  · intro u hu
                    obtain ⟨hPu, hule⟩ := hbound₂ u hu
                    exact ⟨hPu, by omega⟩

theorem Ranked.ends (hr : Ranked step P rank) (hspent : ∀ s e, step s e ≠ .error spent)
    (es : List ε) {s : σ} (hs : P s) :
    Ends spent fun fuel ↦ es.foldlM (run step spent fuel) s := by
  obtain ⟨fuel, res, hres, hrun, -⟩ := hr.foldlM_ends hspent _ es s hs (Nat.le_refl _)
  exact ⟨fuel, res, hres, hrun⟩

end Refeed

import Keybinder.ListingOrder
import Keybinder.MapperLife

/-!
# Which profiles are accepted

Compiling a layer fails for the reasons that its text shows: two basic
triggers that compare equal, a wait that no trigger precedes, a trigger that
does not agree with the first one at its place.  Neither the layout of the
tables nor what was compiled before matters.
-/

namespace Keybinder

instance (s : SequenceTrigger) : Decidable s.Readable :=
  inferInstanceAs (Decidable (∀ pass ∈ loopPasses [] s.sequence,
    pass.trigger.triggerToInput.isSome = true))

instance decidableCoherent : (O rest : List Occurrence) → Decidable (Coherent O rest)
  | _, [] => isTrue trivial
  | O, o :: rest =>
      have : Decidable (Coherent (O ++ [o]) rest) := decidableCoherent (O ++ [o]) rest
      inferInstanceAs (Decidable ((∀ c ∈ firstAt O o.dest, Agrees c o) ∧
        Coherent (O ++ [o]) rest))

/-- The layer can be read: no two basic triggers compare equal, waits follow
triggers, and triggers that lead to one place agree with the first of them. -/
structure Layer.WellFormed (layer : Layer) : Prop where
  triggersDiffer : layer.basicRemappings.Pairwise fun a b ↦
    a.1.triggerToInput.eq b.1.triggerToInput = false
  readable : ∀ s ∈ layer.sequenceRemappings, s.Readable
  coherent : Coherent [] layer.occurrences

instance (layer : Layer) : Decidable layer.WellFormed :=
  decidable_of_iff
    ((layer.basicRemappings.Pairwise fun a b ↦
        a.1.triggerToInput.eq b.1.triggerToInput = false) ∧
      (∀ s ∈ layer.sequenceRemappings, s.Readable) ∧ Coherent [] layer.occurrences)
    ⟨fun ⟨h₁, h₂, h₃⟩ ↦ ⟨h₁, h₂, h₃⟩, fun ⟨h₁, h₂, h₃⟩ ↦ ⟨h₁, h₂, h₃⟩⟩

namespace Mapper

variable {H : QHash} {layer : Layer}

theorem exists_buildBasicMap_iff : (∃ basicMap, buildBasicMap H layer = .ok basicMap) ↔
    layer.basicRemappings.Pairwise fun a b ↦
      a.1.triggerToInput.eq b.1.triggerToInput = false := by
  have hfold : ∀ {f : List (InputEvent × List Bind) → BasicTrigger × List Bind →
        Except Exit (List (InputEvent × List Bind))},
      (∀ basicMap r, f basicMap r =
        if (H.find basicMap r.1.triggerToInput).isSome then .error .nullopt
        else .ok (basicMap ++ [(r.1.triggerToInput, r.2)])) →
      ∀ (rs : List (BasicTrigger × List Bind)) (basicMap : List (InputEvent × List Bind)),
        (∃ basicMap', rs.foldlM f basicMap = .ok basicMap') ↔
          (∀ entry ∈ basicMap, ∀ r ∈ rs, entry.1.eq r.1.triggerToInput = false) ∧
            rs.Pairwise fun a b ↦ a.1.triggerToInput.eq b.1.triggerToInput = false := by
    intro f hf rs
    induction rs with
    | nil => simp
    | cons r rs ih =>
        intro basicMap
        simp only [Exits.foldlM_cons_eq_ok, hf]
        by_cases hfound : (H.find basicMap r.1.triggerToInput).isSome = true
        · obtain ⟨entry, hentry, heq⟩ := H.isSome_find.mp hfound
          rw [if_pos hfound]
          refine iff_of_false (by simp) ?_
          rintro ⟨hapart, -⟩
          rw [hapart entry hentry r (by simp)] at heq
          cases heq
        · have hapart : ∀ entry ∈ basicMap, entry.1.eq r.1.triggerToInput = false := by
            intro entry hentry
            by_contra heq
            exact hfound (H.isSome_find.mpr ⟨entry, hentry, by simpa using heq⟩)
          simp only [if_neg hfound, Except.ok.injEq, exists_eq_left', ih, List.mem_append,
            List.mem_cons, List.not_mem_nil, or_false, List.pairwise_cons]
          constructor
          · rintro ⟨hrest, hpairwise⟩
            refine ⟨?_, fun r' hr' ↦ hrest _ (.inr rfl) r' hr', hpairwise⟩
            rintro entry hentry r' (rfl | hr')
            · exact hapart entry hentry
            · exact hrest entry (.inl hentry) r' hr'
          · rintro ⟨hall, hhead, hpairwise⟩
            refine ⟨?_, hpairwise⟩
            rintro entry (hentry | rfl) r' hr'
            · exact hall entry hentry r' (.inr hr')
            · exact hhead r' hr'
  rw [buildBasicMap]
  refine (hfold ?_ layer.basicRemappings []).trans (by simp)
  intro basicMap r
  rfl

theorem exists_compileLayer_iff (hsep : KeptApart layer.occurrences) :
    (∃ compiled, compileLayer H layer = .ok compiled) ↔ layer.WellFormed := by
  constructor
  · rintro ⟨⟨basicMap, states⟩, h⟩
    obtain ⟨hmap, hstates⟩ := compileLayer_eq_ok h
    obtain ⟨hreadable, hcoherent⟩ := (exists_generateStates_iff hsep).mp ⟨states, hstates⟩
    exact ⟨exists_buildBasicMap_iff.mp ⟨basicMap, hmap⟩, hreadable, hcoherent⟩
  · rintro ⟨hdiffer, hreadable, hcoherent⟩
    obtain ⟨basicMap, hmap⟩ := (exists_buildBasicMap_iff (H := H)).mpr hdiffer
    obtain ⟨states, hstates⟩ := (exists_generateStates_iff (H := H) hsep).mpr ⟨hreadable, hcoherent⟩
    exact ⟨(basicMap, states), by rw [compileLayer_eq, hmap, Exits.ok_bind, hstates]; rfl⟩

end Mapper

/-- A profile whose layers keep their triggers apart is accepted exactly when
each of its layers is well formed. -/
theorem Profile.accepted_iff (H : QHash) (p : Profile)
    (hsep : ∀ layer ∈ p.layers, KeptApart layer.occurrences) :
    p.Accepted H ↔ ∀ layer ∈ p.layers, layer.WellFormed := by
  rw [Accepted, Exits.exists_mapM_iff]
  exact forall₂_congr fun layer hlayer ↦ Mapper.exists_compileLayer_iff (hsep layer hlayer)

end Keybinder

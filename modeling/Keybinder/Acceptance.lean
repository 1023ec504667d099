import Mathlib.Data.List.Nodup
import Mathlib.Data.List.Pairwise
import Keybinder.Separation

/-!
# Which layers are accepted

A layer whose triggers are kept apart is accepted when every trigger agrees
with the first one that leads to the same place.
-/

namespace Keybinder

/-- After the occurrences of the first list, each one of the second agrees
with the first that leads to its place. -/
def Coherent : List Occurrence → List Occurrence → Prop
  | _, [] => True
  | O, o :: rest => (∀ c ∈ firstAt O o.dest, Agrees c o) ∧ Coherent (O ++ [o]) rest

/-- Every pass over the sequence is at a key or app trigger. -/
def SequenceTrigger.Readable (s : SequenceTrigger) : Prop :=
  ∀ pass ∈ loopPasses [] s.sequence, pass.trigger.triggerToInput.isSome = true

theorem coherent_append {O A B : List Occurrence} :
    Coherent O (A ++ B) ↔ Coherent O A ∧ Coherent (O ++ A) B := by
  induction A generalizing O with
  | nil => simp [Coherent]
  | cons o A ih => simp [Coherent, ih, and_assoc]

namespace Straight

variable {H : QHash} {O All : List Occurrence} {T : Trie} {s : SequenceTrigger} {owner : ℕ}
  {p : Place} {pass : LoopPass} {input : InputEvent}

/-- A trigger can be put exactly when it agrees with the first one at its
place. -/
theorem exists_put_iff (hsep : KeptApart All) (h : Straight O T)
    (hinput : pass.trigger.triggerToInput = some input)
    (hpre : O ++ [⟨owner, s, pass, input, p⟩] <+: All) :
    (∃ x, T.put H s owner p pass = .ok x) ↔
      ∀ c ∈ firstAt O (Occurrence.dest ⟨owner, s, pass, input, p⟩),
        Agrees c ⟨owner, s, pass, input, p⟩ := by
  have happs : ∀ y ∈ T, y.src = p → y.input.eq input = true → y.input.symbol = input.symbol :=
    fun y hy hsrc heq ↦ hsep.appsApart _ (hpre.subset (List.mem_append_left _ (h.mem hy)))
      ⟨owner, s, pass, input, p⟩ (hpre.subset (by simp)) hsrc heq
  have hpairwise := hsep.endsApart.sublist hpre.sublist
  have hends : ∀ y ∈ T, y.dest = Occurrence.dest ⟨owner, s, pass, input, p⟩ →
      y.pass.isLast = true → pass.isLast = false → s.behavior ≠ .default :=
    fun y hy hdest hlast ↦ (List.pairwise_append.mp hpairwise).2.2 _ (h.mem hy) _
      (List.mem_singleton.mpr rfl) hdest hlast
  constructor
  · rintro ⟨x, hx⟩
    have hputs := Trie.puts_of_put hx
    have hxo : x.toOccurrence = ⟨owner, s, pass, input, p⟩ := hputs.toOccurrence_eq hinput
    rw [← hxo]
    exact h.agrees_of_puts hputs (by rwa [hxo]) (by rwa [hxo])
  · intro hagrees
    rw [Trie.put, hinput, optionalValue, Exits.ok_bind]
    cases hfind : H.find ((T.edgesAt p).map fun y ↦ (y.stored, y)) input with
    | none => exact ⟨_, rfl⟩
    | some y =>
        obtain ⟨k, hk, heq⟩ := H.find_eq_some hfind
        obtain ⟨y', hedge, hpair⟩ := List.mem_map.mp hk
        obtain ⟨rfl, rfl⟩ := Prod.mk.inj hpair
        have hdest := (h.dest_of_shared happs hedge heq).2
        obtain ⟨hy, hfresh, -⟩ := Trie.mem_edgesAt.mp hedge
        have hfirst := h.firstAt_of_fresh hy hfresh
        rw [hdest] at hfirst
        obtain ⟨hylast, hlast, hbehavior, htimer⟩ := hagrees _ hfirst
        have htimers : ¬ (y'.pass.timer.isSome = true ∧ pass.timer.isSome = true ∧
            y'.pass.timer ≠ pass.timer) := by
          rintro ⟨h₁, h₂, hne⟩
          exact hne (htimer h₁ h₂)
        refine ⟨⟨⟨owner, s, pass, input, p⟩, y'.stored, false, y'.tgt⟩, ?_⟩
        simp only [Placement.metadata_of_notLast hylast, ne_eq] at htimers ⊢
        rw [if_neg (by simp [hlast]), if_neg (by simpa using hbehavior)]
        simp [htimers]

end Straight

section Trie

variable {H : QHash} {O All : List Occurrence} {T : Trie} {s : SequenceTrigger} {owner : ℕ}
  {p : Place}

/-- The triggers of a sequence can be put exactly when it has triggers only
where the loop expects them and these agree with the first ones. -/
theorem exists_putPasses_iff (hsep : KeptApart All) {passes : List LoopPass}
    (hfinal : passes.Pairwise fun pass _ ↦ pass.final = false) (hstraight : Straight O T)
    (hpre : O ++ occurrencesFrom owner s p passes <+: All) :
    (∃ c, passes.foldlM (Trie.putPass H s owner) (T, p) = .ok c) ↔
      (∀ pass ∈ passes, pass.trigger.triggerToInput.isSome = true) ∧
        Coherent O (occurrencesFrom owner s p passes) := by
  induction passes generalizing O T p with
  | nil => simp [occurrencesFrom, Coherent]
  | cons pass passes ih =>
      simp only [Exits.foldlM_cons_eq_ok, List.forall_mem_cons]
      cases hinput : pass.trigger.triggerToInput with
      | none =>
          refine iff_of_false ?_ (by simp)
          rintro ⟨c, ⟨T₁, p₁⟩, hput, -⟩
          simp [Trie.putPass, Trie.put, hinput, optionalValue] at hput
      | some input =>
          rw [occurrencesFrom_cons hinput] at hpre ⊢
          have hpre₁ : (O ++ [⟨owner, s, pass, input, p⟩]) ++ occurrencesFrom owner s
              (Occurrence.next ⟨owner, s, pass, input, p⟩) passes <+: All := by simpa using hpre
          have hput := hstraight.exists_put_iff (H := H) hsep hinput
            ((List.prefix_append _ _).trans hpre₁)
          -- The rest of the sequence goes on from a straight list.
          have hrest : ∀ T₁ p₁, Trie.putPass H s owner (T, p) pass = .ok (T₁, p₁) →
              ((∃ c, passes.foldlM (Trie.putPass H s owner) (T₁, p₁) = .ok c) ↔
                (∀ pass ∈ passes, pass.trigger.triggerToInput.isSome = true) ∧
                  Coherent (O ++ [⟨owner, s, pass, input, p⟩]) (occurrencesFrom owner s
                    (Occurrence.next ⟨owner, s, pass, input, p⟩) passes)) := by
            intro T₁ p₁ hstep
            obtain ⟨happend, hnext⟩ :=
              hstraight.putPass hsep hinput ((List.prefix_append _ _).trans hpre₁) hstep
            cases passes with
            | nil => simp [occurrencesFrom, Coherent]
            | cons pass' passes =>
                obtain rfl := hnext ((List.pairwise_cons.mp hfinal).1 pass' (by simp))
                exact ih (List.pairwise_cons.mp hfinal).2 happend hpre₁
          constructor
          · rintro ⟨c, ⟨T₁, p₁⟩, hstep, hc⟩
            obtain ⟨x, hx, -⟩ := Exits.bind_eq_ok.mp hstep
            obtain ⟨hreadable, hcoherent⟩ := (hrest T₁ p₁ hstep).mp ⟨c, hc⟩
            exact ⟨⟨rfl, hreadable⟩, hput.mp ⟨x, hx⟩, hcoherent⟩
          · rintro ⟨⟨-, hreadable⟩, hagrees, hcoherent⟩
            obtain ⟨x, hx⟩ := hput.mpr hagrees
            have hstep : Trie.putPass H s owner (T, p) pass = .ok (T ++ [x], Trie.next T x) := by
              rw [Trie.putPass, hx]
              rfl
            obtain ⟨c, hc⟩ := (hrest _ _ hstep).mpr ⟨hreadable, hcoherent⟩
            exact ⟨c, _, hstep, hc⟩

theorem exists_trie_iff {layer : Layer} (hsep : KeptApart layer.occurrences) :
    (∃ T, layer.trie H = .ok T) ↔
      (∀ s ∈ layer.sequenceRemappings, s.Readable) ∧ Coherent [] layer.occurrences := by
  have hfold : ∀ (ss : List (SequenceTrigger × ℕ)) (O : List Occurrence) (T : Trie),
      Straight O T → O ++ ss.flatMap (fun c ↦ c.1.occurrences c.2) <+: layer.occurrences →
      ((∃ T', ss.foldlM (Trie.putSequence H) T = .ok T') ↔ (∀ c ∈ ss, c.1.Readable) ∧
        Coherent O (ss.flatMap fun c ↦ c.1.occurrences c.2)) := by
    intro ss
    induction ss with
    | nil => simp [Coherent]
    | cons owned ss ih =>
        intro O T hT hpre
        obtain ⟨s, owner⟩ := owned
        simp only [List.flatMap_cons, ← List.append_assoc] at hpre ⊢
        have hpre₁ := (List.prefix_append _ _).trans hpre
        have hpasses := exists_putPasses_iff (H := H) hsep (pairwise_loopPasses [] s.sequence) hT
          hpre₁
        simp only [Exits.foldlM_cons_eq_ok, List.forall_mem_cons, coherent_append]
        constructor
        · rintro ⟨T', T₁, hs, hrest⟩
          obtain ⟨⟨T₂, p₂⟩, hc, hT₂⟩ := Exits.bind_eq_ok.mp hs
          cases hT₂
          have hT₁ := straight_of_putPasses hsep (pairwise_loopPasses [] s.sequence) hT hpre₁ hc
          obtain ⟨hreadable, hcoherent⟩ := hpasses.mp ⟨_, hc⟩
          obtain ⟨hreadables, hcoherents⟩ := (ih _ T₁ hT₁ hpre).mp ⟨T', hrest⟩
          exact ⟨⟨hreadable, hreadables⟩, hcoherent, hcoherents⟩
        · rintro ⟨⟨hreadable, hreadables⟩, hcoherent, hcoherents⟩
          obtain ⟨⟨T₁, p₁⟩, hc⟩ := hpasses.mpr ⟨hreadable, hcoherent⟩
          have hT₁ := straight_of_putPasses hsep (pairwise_loopPasses [] s.sequence) hT hpre₁ hc
          obtain ⟨T', hrest⟩ := (ih _ T₁ hT₁ hpre).mpr ⟨hreadables, hcoherents⟩
          refine ⟨T', T₁, ?_, hrest⟩
          rw [Trie.putSequence, hc]
          rfl
  have hlayer := hfold layer.sequenceRemappings.zipIdx [] [] .nil (List.prefix_refl _)
  have hreadable : (∀ c ∈ layer.sequenceRemappings.zipIdx, c.1.Readable) ↔
      ∀ s ∈ layer.sequenceRemappings, s.Readable := by
    constructor
    · intro h s hs
      obtain ⟨j, hj⟩ := List.mem_iff_getElem?.mp hs
      exact h (s, j) (List.mem_zipIdx_iff_getElem?.mpr hj)
    · rintro h ⟨s, j⟩ hc
      exact h s (List.mem_of_getElem? (List.mem_zipIdx_iff_getElem?.mp hc))
  rw [hreadable] at hlayer
  exact hlayer

theorem exists_generateStates_iff {layer : Layer} (hsep : KeptApart layer.occurrences) :
    (∃ states, generateStates H layer = .ok states) ↔
      (∀ s ∈ layer.sequenceRemappings, s.Readable) ∧ Coherent [] layer.occurrences := by
  rw [← exists_trie_iff (H := H) hsep]
  have hrelated := generateStates_related H layer
  constructor
  · rintro ⟨states, hstates⟩
    rw [hstates] at hrelated
    obtain ⟨T, hT, -⟩ := hrelated.ok_right
    exact ⟨T, hT⟩
  · rintro ⟨T, hT⟩
    rw [hT] at hrelated
    obtain ⟨states, hstates, -⟩ := hrelated.ok_left
    exact ⟨states, hstates⟩

theorem eq_nullopt_of_readable {layer : Layer} {x : Exit}
    (hreadable : ∀ s ∈ layer.sequenceRemappings, s.Readable)
    (h : generateStates H layer = .error x) : x = .nullopt := by
  by_contra hx
  have havoids := generateStates_avoids (Ne.symm hx) H layer fun s hs pass hpass hnone ↦ by
    simpa [hnone] using hreadable s hs pass hpass
  rw [h] at havoids
  exact havoids rfl

theorem coherent_iff_pairwise {O : List Occurrence}
    (htimers : ∀ o ∈ O, ∀ o' ∈ O, o.dest = o'.dest → Agrees o o' →
      o.pass.timer.isSome = o'.pass.timer.isSome) :
    Coherent [] O ↔ O.Pairwise fun c o ↦ c.dest = o.dest → Agrees c o := by
  induction O using List.reverseRecOn with
  | nil => simp [Coherent]
  | append_singleton O o ih =>
      have htimersO := fun c hc c' hc' ↦
        htimers c (List.mem_append_left _ hc) c' (List.mem_append_left _ hc')
      rw [coherent_append, ih htimersO, List.pairwise_append]
      simp only [Coherent, and_true, List.nil_append, List.pairwise_singleton, List.mem_singleton,
        forall_eq, true_and]
      refine and_congr_right fun hpairwise ↦ ?_
      constructor
      · intro hfirst c hc hdest
        obtain ⟨c₀, hc₀⟩ : ∃ c₀, firstAt O o.dest = some c₀ := by
          rw [← Option.isSome_iff_exists, firstAt, List.find?_isSome]
          exact ⟨c, hc, decide_eq_true hdest⟩
        have hagrees := hfirst c₀ hc₀
        obtain ⟨hdest₀, pre, suf, hsplit, hpre⟩ := List.find?_eq_some_iff_append.mp hc₀
        have hdest₀ : c₀.dest = o.dest := by simpa using hdest₀
        -- The occurrence is the first one, or it agrees with it in turn.
        have hc₀c : c₀ = c ∨ Agrees c₀ c := by
          rw [hsplit] at hc hpairwise
          rcases List.mem_append.mp hc with hc | hc
          · exact absurd (decide_eq_true hdest) (by simpa using hpre c hc)
          · rcases List.mem_cons.mp hc with rfl | hc
            · exact .inl rfl
            · exact .inr ((List.pairwise_cons.mp (List.pairwise_append.mp hpairwise).2.1).1 c hc
                (hdest₀.trans hdest.symm))
        rcases hc₀c with rfl | hc₀c
        · exact hagrees
        · refine ⟨hc₀c.shares_on, hagrees.shares_on,
            hc₀c.behavior_eq.symm.trans hagrees.behavior_eq, ?_⟩
          intro hctimer hotimer
          have hc₀timer := htimers c₀ (List.mem_append_left _ (List.mem_of_find?_eq_some hc₀)) c
            (List.mem_append_left _ hc) (hdest₀.trans hdest.symm) hc₀c
          rw [hctimer] at hc₀timer
          exact (hc₀c.timer_eq hc₀timer hctimer).symm.trans (hagrees.timer_eq hc₀timer hotimer)
      · intro hall c hc
        have hdest : c.dest = o.dest := by simpa using List.find?_some hc
        exact hall c (List.mem_of_find?_eq_some hc) hdest

end Trie

/-! ## Agreement in any order -/

theorem pairwise_loopPasses_read (read rest : List AdvancedTrigger) :
    (loopPasses read rest).Pairwise fun pass pass' ↦ pass.read.length < pass'.read.length := by
  have hlater : ∀ (read rest : List AdvancedTrigger),
      ∀ pass ∈ loopPasses read rest, read.length < pass.read.length := by
    have hcons : ∀ {read read' : List AdvancedTrigger} {first : LoopPass} {passes : List LoopPass},
        read.length < read'.length → first.read = read' →
        (∀ pass ∈ passes, read'.length < pass.read.length) →
        ∀ pass ∈ first :: passes, read.length < pass.read.length := by
      rintro read read' first passes hlt rfl hpasses pass hpass
      rcases List.mem_cons.mp hpass with rfl | hpass
      · exact hlt
      · exact Nat.lt_trans hlt (hpasses pass hpass)
    intro read rest
    fun_induction loopPasses read rest with
    | case1 => simp
    | case2 read trigger ms rest read' ih => exact hcons (by simp [read']) rfl ih
    | case3 read trigger ms rest read' ih => exact hcons (by simp [read']) rfl ih
    | case4 read trigger rest hmin hmax read' ih => exact hcons (by simp [read']) rfl ih
  fun_induction loopPasses read rest with
  | case1 => exact .nil
  | case2 read trigger ms rest read' ih => exact .cons (hlater read' rest) ih
  | case3 read trigger ms rest read' ih => exact .cons (hlater read' rest) ih
  | case4 read trigger rest hmin hmax read' ih => exact .cons (hlater read' rest) ih

theorem Layer.nodup_occurrences (layer : Layer) : layer.occurrences.Nodup := by
  rw [List.Nodup, occurrences, List.pairwise_flatMap]
  constructor
  · rintro ⟨s, owner⟩ -
    have hpasses := (pairwise_loopPasses_read [] s.sequence).sublist
      (occurrencesFrom_map_pass owner s [] (loopPasses [] s.sequence)).sublist
    rw [List.pairwise_map] at hpasses
    refine hpasses.imp fun {o o'} hlt ↦ ?_
    rintro rfl
    exact Nat.lt_irrefl _ hlt
  · have howners : layer.sequenceRemappings.zipIdx.Pairwise fun c c' ↦ c.2 ≠ c'.2 := by
      rw [← List.pairwise_map, List.zipIdx_map_snd]
      exact List.nodup_range'
    refine howners.imp fun {c c'} hne o ho o' ho' ↦ ?_
    rintro rfl
    exact hne ((SequenceTrigger.of_mem_occurrences ho).owner_eq.symm.trans
      (SequenceTrigger.of_mem_occurrences ho').owner_eq)

/-- Agreement is symmetric, so the order of the occurrences does not matter. -/
theorem Layer.coherent_iff {layer : Layer} (htimers : ∀ o ∈ layer.occurrences,
      ∀ o' ∈ layer.occurrences, o.dest = o'.dest → Agrees o o' →
        o.pass.timer.isSome = o'.pass.timer.isSome) :
    Coherent [] layer.occurrences ↔ ∀ o ∈ layer.occurrences, ∀ o' ∈ layer.occurrences,
      o ≠ o' → o.dest = o'.dest → Agrees o o' := by
  have hsymm : Std.Symm fun c o : Occurrence ↦ c.dest = o.dest → Agrees c o := by
    refine ⟨fun c o hagrees hdest ↦ ?_⟩
    obtain ⟨h₁, h₂, h₃, h₄⟩ := hagrees hdest.symm
    exact ⟨h₂, h₁, h₃.symm, fun ho hc ↦ (h₄ hc ho).symm⟩
  rw [coherent_iff_pairwise htimers]
  constructor
  · intro hpairwise o ho o' ho' hne
    exact hpairwise.forall ho ho' hne
  · intro hall
    exact layer.nodup_occurrences.pairwise_of_forall_ne hall

end Keybinder

import Keybinder.Acceptance
import Keybinder.UnassignedReads

/-!
# Which layers are generated without an error

The passes of `generate_states` that are reached, and what each of them
relies on: vectors of equal length, indices that were assigned and lie
within them, and a key or app trigger at the head of the loop.  The indices
are in range in every pass.  What goes wrong is a wait at the head of the
loop, and the use of `next_state_idx` after a pass that ends its sequence
on a new edge and never assigned it.
-/

namespace Keybinder

/-- One pass of the loop, in which `next_state_idx` has to be assigned when
it is used. -/
def insertTriggerChecked (H : QHash) (s : SequenceTrigger) (owner : ℕ) :
    Builder × ℕ → LoopPass → Except Exit (Builder × ℕ) :=
  insertTriggerReading .checked H s owner

def insertSequenceChecked (H : QHash) : Builder → SequenceTrigger × ℕ → Except Exit Builder :=
  insertSequenceReading .checked H

/-- `generateStates`, with the use of an unassigned `next_state_idx` as an
exit of its own. -/
def generateStatesChecked (H : QHash) (layer : Layer) : Except Exit (List State) :=
  generateStatesReading .checked H layer

/-- A pass that the loops reach, with the vectors and `current_state_idx` at
its beginning. -/
structure ReachedPass (H : QHash) (layer : Layer) where
  s : SequenceTrigger
  owner : ℕ
  pass : LoopPass
  b : Builder
  currentStateIdx : ℕ
  reached : ∃ ss done rest b₀ before after,
    normailzeSequences layer.sequenceRemappings = some ss ∧
    ss.zipIdx = done ++ (s, owner) :: rest ∧
    done.foldlM (insertSequenceChecked H) .init = .ok b₀ ∧
    loopPasses [] s.sequence = before ++ pass :: after ∧
    before.foldlM (insertTriggerChecked H s owner) (b₀, homeStateIdx) = .ok (b, currentStateIdx)

namespace ReachedPass

variable {H : QHash} {layer : Layer}

/-- What the pass needs wherever it uses an index or a value. -/
structure Safe (r : ReachedPass H layer) : Prop where
  lengths : r.b.states.length = r.b.stateMetadata.length
  current : r.currentStateIdx < r.b.states.length
  trigger : r.pass.trigger.triggerToInput ≠ none
  shared : ∀ inputEvent state existingTransition,
    r.pass.trigger.triggerToInput = some inputEvent →
    r.b.states[r.currentStateIdx]? = some state →
    H.find state.edges inputEvent = some existingTransition →
    ∃ newState, existingTransition.newState = some newState ∧
      newState < r.b.stateMetadata.length
  next : ∀ inputEvent b nextStateIdx,
    r.pass.trigger.triggerToInput = some inputEvent →
    connectTrigger H r.s r.owner r.b r.currentStateIdx r.pass inputEvent =
      .ok (b, nextStateIdx) →
    b.states.length = b.stateMetadata.length ∧
      ∃ idx, nextStateIdx = some idx ∧ idx < b.states.length

/-- The trigger at the head is a key or app trigger; when it is the last of
its sequence, the state has an edge for it already, and the layer is about
to be rejected. -/
def Connects (r : ReachedPass H layer) : Prop :=
  ∃ inputEvent, r.pass.trigger.triggerToInput = some inputEvent ∧
    (r.pass.isLast = true → ∃ state, r.b.states[r.currentStateIdx]? = some state ∧
      (H.find state.edges inputEvent).isSome = true)

end ReachedPass

/-- The triggers listed before a pass have been put at their places, and the
pass is next, at the place `p`. -/
def Layer.ComesTo (H : QHash) (layer : Layer) (T : Trie) (p : Place) (pass : LoopPass) : Prop :=
  ∃ s owner done rest T₀ before after,
    layer.sequenceRemappings.zipIdx = done ++ (s, owner) :: rest ∧
    done.foldlM (Trie.putSequence H) [] = .ok T₀ ∧
    loopPasses [] s.sequence = before ++ pass :: after ∧
    before.foldlM (Trie.putPass H s owner) (T₀, []) = .ok (T, p)

/-- The trigger of the pass is a key or app trigger; when it is the last of
its sequence, a trigger before it that compares equal is read at its place. -/
def Trie.Fits (T : Trie) (p : Place) (pass : LoopPass) : Prop :=
  ∃ inputEvent, pass.trigger.triggerToInput = some inputEvent ∧
    (pass.isLast = true → ∃ y ∈ T.edgesAt p, y.stored.eq inputEvent = true)

/-- The layer is rejected or gets its states, and no pass on the way uses an
index or a value that is not there. -/
structure GenerationSafe (H : QHash) (layer : Layer) : Prop where
  ends : ∀ e, generateStatesChecked H layer = .error e → e = .nullopt
  uses : ∀ r : ReachedPass H layer, r.Safe

/-! ## The checked loops compute what the loops of the model compute -/

section Checked

variable (H : QHash) (s : SequenceTrigger) (owner : ℕ)

theorem insertTriggerChecked_eq_or (b : Builder) (currentStateIdx : ℕ) (pass : LoopPass) :
    (∃ inputEvent b', pass.trigger.triggerToInput = some inputEvent ∧
        connectTrigger H s owner b currentStateIdx pass inputEvent = .ok (b', none) ∧
        insertTriggerChecked H s owner (b, currentStateIdx) pass = .error .unassigned) ∨
      insertTriggerChecked H s owner (b, currentStateIdx) pass =
        insertTrigger H s owner (b, currentStateIdx) pass :=
  insertTriggerReading_eq_or .checked H s owner b currentStateIdx pass

theorem insertTriggerChecked_eq (c : Builder × ℕ) (pass : LoopPass) :
    Exits.EqUnless (· = .unassigned) (insertTriggerChecked H s owner c pass)
      (insertTrigger H s owner c pass) := by
  rcases insertTriggerChecked_eq_or H s owner c.1 c.2 pass with ⟨_, _, -, -, h⟩ | h
  · exact .inl ⟨_, rfl, h⟩
  · exact .inr h

theorem insertTriggersChecked_eq (passes : List LoopPass) (c : Builder × ℕ) :
    Exits.EqUnless (· = .unassigned) (passes.foldlM (insertTriggerChecked H s owner) c)
      (passes.foldlM (insertTrigger H s owner) c) :=
  .foldlM (fun c pass _ ↦ insertTriggerChecked_eq H s owner c pass) c

theorem insertSequenceChecked_eq_fold (b : Builder) : insertSequenceChecked H b (s, owner) =
    ((loopPasses [] s.sequence).foldlM (insertTriggerChecked H s owner) (b, homeStateIdx) >>=
      fun c ↦ pure c.1) := rfl

theorem insertSequenceChecked_eq (b : Builder) (owned : SequenceTrigger × ℕ) :
    Exits.EqUnless (· = .unassigned) (insertSequenceChecked H b owned)
      (insertSequence H b owned) :=
  (insertSequenceReading_eqUnless .checked H b owned).mono fun _ he ↦ he.1.of_checked

theorem insertSequencesChecked_eq (ss : List (SequenceTrigger × ℕ)) (b : Builder) :
    Exits.EqUnless (· = .unassigned) (ss.foldlM (insertSequenceChecked H) b)
      (ss.foldlM (insertSequence H) b) :=
  .foldlM (fun b owned _ ↦ insertSequenceChecked_eq H b owned) b

theorem generateStatesChecked_eq (layer : Layer) :
    Exits.EqUnless (· = .unassigned) (generateStatesChecked H layer) (generateStates H layer) :=
  (generateStatesReading_eqUnless .checked H layer).mono fun _ he ↦ he.1.of_checked

theorem generateStatesChecked_eq_fold (layer : Layer) : generateStatesChecked H layer =
    (layer.sequenceRemappings.zipIdx.foldlM (insertSequenceChecked H) .init >>= fun b ↦
      pure b.states) :=
  generateStatesReading_eq .checked H layer

theorem generateStatesChecked_eq_error_iff {layer : Layer} {e : Exit} :
    generateStatesChecked H layer = .error e ↔ ∃ r : ReachedPass H layer,
      insertTriggerChecked H r.s r.owner (r.b, r.currentStateIdx) r.pass = .error e := by
  have hfold : generateStatesChecked H layer = .error e ↔
      layer.sequenceRemappings.zipIdx.foldlM (insertSequenceChecked H) .init = .error e := by
    rw [generateStatesChecked_eq_fold]
    simp only [Exits.bind_eq_error, Exits.pure_eq_ok, reduceCtorEq, and_false, exists_false,
      or_false]
  rw [hfold, Exits.foldlM_eq_error]
  constructor
  · rintro ⟨done, ⟨s, owner⟩, rest, b₀, hss, hdone, he⟩
    rw [insertSequenceChecked_eq_fold, Exits.bind_eq_error] at he
    rcases he with he | ⟨_, _, he⟩
    · obtain ⟨before, pass, after, ⟨b, q⟩, hpasses, hbefore, he⟩ := Exits.foldlM_eq_error.mp he
      exact ⟨⟨s, owner, pass, b, q, _, done, rest, b₀, before, after, normailzeSequences_eq _,
        hss, hdone, hpasses, hbefore⟩, he⟩
    · cases he
  · rintro ⟨⟨s, owner, pass, b, q, ss, done, rest, b₀, before, after, hnormal, hss, hdone,
      hpasses, hbefore⟩, he⟩
    rw [normailzeSequences_eq] at hnormal
    cases hnormal
    refine ⟨done, (s, owner), rest, b₀, hss, hdone, ?_⟩
    rw [insertSequenceChecked_eq_fold, Exits.bind_eq_error]
    exact .inl (Exits.foldlM_eq_error.mpr ⟨before, pass, after, (b, q), hpasses, hbefore, he⟩)

end Checked

/-! ## What a pass finds -/

section Pass

variable {H : QHash} {s : SequenceTrigger} {owner : ℕ} {b b' : Builder} {currentStateIdx : ℕ}
  {pass : LoopPass} {inputEvent : InputEvent} {c : Trie × Place}

/-- An index of a place is an index of both vectors. -/
theorem Represents.lengths {E W : Trie} {places : List Place} {p : Place} {q : ℕ}
    (hb : Represents b E W places) (hq : places[q]? = some p) :
    b.states.length = b.stateMetadata.length ∧ q < b.states.length := by
  obtain ⟨hlt, -⟩ := List.getElem?_eq_some_iff.mp hq
  exact ⟨hb.length_states.trans hb.length_metadata.symm, hb.length_states ▸ hlt⟩

theorem Linked.lengths (h : Linked H c (b, currentStateIdx)) :
    b.states.length = b.stateMetadata.length ∧ currentStateIdx < b.states.length := by
  obtain ⟨-, places, hb, hq⟩ := h
  exact hb.lengths hq

theorem Linked.find_isSome (h : Linked H c (b, currentStateIdx)) {state : State}
    (hstate : b.states[currentStateIdx]? = some state) :
    (H.find state.edges inputEvent).isSome = true ↔
      ∃ y ∈ c.1.edgesAt c.2, y.stored.eq inputEvent = true := by
  obtain ⟨-, places, hb, hq⟩ := h
  rw [hb.state hq] at hstate
  cases hstate
  rw [Trie.find_state_edges, Option.isSome_map]
  constructor
  · intro hfind
    obtain ⟨x, hx⟩ := Option.isSome_iff_exists.mp hfind
    obtain ⟨k, hk, heq⟩ := H.find_eq_some hx
    obtain ⟨y, hy, hpair⟩ := List.mem_map.mp hk
    obtain ⟨rfl, rfl⟩ := Prod.mk.inj hpair
    exact ⟨y, hy, heq⟩
  · rintro ⟨y, hy, heq⟩
    have hentry : (y.stored, y) ∈ (c.1.edgesAt c.2).map fun y ↦ (y.stored, y) :=
      List.mem_map_of_mem (f := fun y ↦ (y.stored, y)) hy
    by_contra hfind
    have hne := H.find_eq_none (Option.not_isSome_iff_eq_none.mp hfind) _ hentry
    rw [heq] at hne
    cases hne

/-- The edges of the states lead to states. -/
theorem Linked.edge_target (h : Linked H c (b, currentStateIdx)) {state : State}
    {transition : Transition} (hstate : b.states[currentStateIdx]? = some state)
    (hfind : H.find state.edges inputEvent = some transition) :
    ∃ newState, transition.newState = some newState ∧ newState < b.stateMetadata.length := by
  obtain ⟨-, places, hb, hq⟩ := h
  rw [hb.state hq] at hstate
  cases hstate
  rw [Trie.find_state_edges] at hfind
  obtain ⟨x, hx, rfl⟩ := Option.map_eq_some_iff.mp hfind
  obtain ⟨k, hk, -⟩ := H.find_eq_some hx
  obtain ⟨y, hy, hpair⟩ := List.mem_map.mp hk
  obtain ⟨rfl, rfl⟩ := Prod.mk.inj hpair
  have hmem := hb.tgt_mem y (Trie.mem_edgesAt.mp hy).1
  obtain ⟨hlengths, hlt⟩ := hb.lengths (Numbering.getElem?_number hmem)
  exact ⟨_, rfl, hlengths ▸ hlt⟩

theorem Linked.connected (h : Linked H c (b, currentStateIdx))
    (hinput : pass.trigger.triggerToInput = some inputEvent) {nextStateIdx : ℕ}
    (hconnect : connectTrigger H s owner b currentStateIdx pass inputEvent =
      .ok (b', some nextStateIdx)) :
    b'.states.length = b'.stateMetadata.length ∧ nextStateIdx < b'.states.length := by
  obtain ⟨-, places, hb, hq⟩ := h
  have hrelated : Exits.Related _ (Trie.put H c.1 s owner c.2 pass)
      (optionalValue pass.trigger.triggerToInput >>= fun inputEvent ↦
        connectTrigger H s owner b currentStateIdx pass inputEvent) :=
    hb.connect hq
  rw [hinput, optionalValue, Exits.ok_bind, hconnect] at hrelated
  obtain ⟨x, -, places', hb', hq'⟩ := hrelated.ok_right
  exact hb'.lengths hq'

/-- The pass of the model ends early only to reject the layer. -/
theorem Linked.insertTrigger_error (h : Linked H c (b, currentStateIdx))
    (hinput : pass.trigger.triggerToInput = some inputEvent) {e : Exit}
    (he : insertTrigger H s owner (b, currentStateIdx) pass = .error e) : e = .nullopt := by
  by_contra hne
  have hput : Trie.putPass H s owner c pass = .error e :=
    (insertTrigger_related h).error_iff.mpr he
  have havoids : Exits.Avoids e (fun _ ↦ True) (Trie.putPass H s owner c pass) :=
    (Trie.put_avoids (Ne.symm hne) H c.1 s owner c.2 fun hnone ↦ by simp [hinput] at hnone).bind
      fun _ _ ↦ trivial
  rw [hput] at havoids
  exact havoids rfl

end Pass

namespace ReachedPass

variable {H : QHash} {layer : Layer}

/-- The vectors and `current_state_idx` of a reached pass stand for the place
that the triggers before it lead to. -/
theorem comesTo (r : ReachedPass H layer) : ∃ T p, layer.ComesTo H T p r.pass ∧
    Linked H (T, p) (r.b, r.currentStateIdx) := by
  obtain ⟨s, owner, pass, b, q, ss, done, rest, b₀, before, after, hnormal, hss, hdone, hpasses,
    hbefore⟩ := r
  rw [normailzeSequences_eq] at hnormal
  cases hnormal
  have hdone' : done.foldlM (insertSequence H) .init = .ok b₀ :=
    (insertSequencesChecked_eq H done .init).ok hdone
  have hbefore' : before.foldlM (insertTrigger H s owner) (b₀, homeStateIdx) = .ok (b, q) :=
    (insertTriggersChecked_eq H s owner before (b₀, homeStateIdx)).ok hbefore
  have hsequences := insertSequences_related H done
  rw [hdone'] at hsequences
  obtain ⟨T₀, hT₀, hlinked₀⟩ := hsequences.ok_right
  have htriggers := insertTriggers_related s owner before hlinked₀
  rw [hbefore'] at htriggers
  obtain ⟨⟨T, p⟩, hT, hlinked⟩ := htriggers.ok_right
  exact ⟨T, p, ⟨s, owner, done, rest, T₀, before, after, hss, hT₀, hpasses, hT⟩, hlinked⟩

theorem safe_iff_connects (r : ReachedPass H layer) : r.Safe ↔ r.Connects := by
  obtain ⟨T, p, -, hc⟩ := r.comesTo
  obtain ⟨hlengths, hcurrent⟩ := hc.lengths
  obtain ⟨state, hstate⟩ : ∃ state, r.b.states[r.currentStateIdx]? = some state :=
    ⟨_, List.getElem?_eq_getElem hcurrent⟩
  constructor
  · intro h
    obtain ⟨inputEvent, hinput⟩ := Option.ne_none_iff_exists'.mp h.trigger
    refine ⟨inputEvent, hinput, fun hlast ↦ ⟨state, hstate, ?_⟩⟩
    by_contra hfind
    have hnone : H.find state.edges inputEvent = none := by simpa using hfind
    have hconnect : connectTrigger H r.s r.owner r.b r.currentStateIdx r.pass inputEvent =
        .ok (r.b.setEdge r.currentStateIdx inputEvent
          (newTransition r.s r.owner r.pass inputEvent homeStateIdx), none) := by
      simp [connectTrigger, vectorAt, hstate, hnone, hlast]
    obtain ⟨-, idx, hidx, -⟩ := h.next _ _ _ hinput hconnect
    cases hidx
  · rintro ⟨inputEvent, hinput, hedge⟩
    exact {
      lengths := hlengths
      current := hcurrent
      trigger := by simp [hinput]
      shared := fun _ _ _ _ hstate hfind ↦ hc.edge_target hstate hfind
      next := by
        intro inputEvent' b' nextStateIdx hinput' hconnect
        rw [hinput] at hinput'
        cases hinput'
        cases nextStateIdx with
        | none =>
            obtain ⟨hlast, -, -, hnone⟩ := connectTrigger_unassigned hconnect
            obtain ⟨state', hstate', hsome⟩ := hedge hlast
            simp [hnone state' hstate'] at hsome
        | some idx =>
            obtain ⟨hlengths', hidx⟩ := hc.connected hinput hconnect
            exact ⟨hlengths', idx, rfl, hidx⟩ }

theorem error_of_connects (r : ReachedPass H layer) (h : r.Connects) {e : Exit}
    (he : insertTriggerChecked H r.s r.owner (r.b, r.currentStateIdx) r.pass = .error e) :
    e = .nullopt := by
  obtain ⟨T, p, -, hc⟩ := r.comesTo
  obtain ⟨inputEvent, hinput, hedge⟩ := h
  rcases insertTriggerChecked_eq_or H r.s r.owner r.b r.currentStateIdx r.pass with
    ⟨inputEvent', b', hinput', hconnect, -⟩ | hsame
  · rw [hinput] at hinput'
    cases hinput'
    obtain ⟨hlast, -, -, hnone⟩ := connectTrigger_unassigned hconnect
    obtain ⟨state, hstate, hsome⟩ := hedge hlast
    simp [hnone state hstate] at hsome
  · rw [hsame] at he
    exact hc.insertTrigger_error hinput he

theorem connects_iff_fits {T : Trie} {p : Place} (r : ReachedPass H layer)
    (h : Linked H (T, p) (r.b, r.currentStateIdx)) : r.Connects ↔ T.Fits p r.pass := by
  obtain ⟨-, hcurrent⟩ := h.lengths
  obtain ⟨state, hstate⟩ : ∃ state, r.b.states[r.currentStateIdx]? = some state :=
    ⟨_, List.getElem?_eq_getElem hcurrent⟩
  refine exists_congr fun inputEvent ↦ and_congr_right fun _ ↦ imp_congr_right fun _ ↦ ?_
  rw [← h.find_isSome hstate]
  simp [hstate]

end ReachedPass

/-- Where no pass uses an unassigned index, the loops reach every pass that
the placement of the triggers comes to. -/
theorem Layer.ComesTo.reached {H : QHash} {layer : Layer} {T : Trie} {p : Place} {pass : LoopPass}
    (h : layer.ComesTo H T p pass) (hends : generateStatesChecked H layer ≠ .error .unassigned) :
    ∃ r : ReachedPass H layer, r.pass = pass ∧ Linked H (T, p) (r.b, r.currentStateIdx) := by
  obtain ⟨s, owner, done, rest, T₀, before, after, hss, hT₀, hpasses, hT⟩ := h
  have hsequences := insertSequences_related H done
  rw [hT₀] at hsequences
  obtain ⟨b₀, hb₀, hlinked₀⟩ := hsequences.ok_left
  have htriggers := insertTriggers_related s owner before hlinked₀
  rw [hT] at htriggers
  obtain ⟨⟨b, q⟩, hb, hlinked⟩ := htriggers.ok_left
  have hdone : done.foldlM (insertSequenceChecked H) .init = .ok b₀ := by
    rcases insertSequencesChecked_eq H done .init with ⟨_, rfl, h⟩ | h
    · refine (hends ?_).elim
      simp [generateStatesChecked_eq_fold, hss, h]
    · rw [h, hb₀]
  have hbefore : before.foldlM (insertTriggerChecked H s owner) (b₀, homeStateIdx) =
      .ok (b, q) := by
    rcases insertTriggersChecked_eq H s owner before (b₀, homeStateIdx) with ⟨_, rfl, h⟩ | h
    · refine (hends ?_).elim
      simp [generateStatesChecked_eq_fold, hss, hdone, insertSequenceChecked_eq_fold, hpasses, h]
    · rw [h, hb]
  exact ⟨⟨s, owner, pass, b, q, _, done, rest, b₀, before, after, normailzeSequences_eq _, hss,
    hdone, hpasses, hbefore⟩, rfl, hlinked⟩

theorem generationSafe_of_connects {H : QHash} {layer : Layer}
    (h : ∀ r : ReachedPass H layer, r.Connects) : GenerationSafe H layer where
  ends := by
    intro e he
    obtain ⟨r, hr⟩ := (generateStatesChecked_eq_error_iff H).mp he
    exact r.error_of_connects (h r) hr
  uses r := r.safe_iff_connects.mpr (h r)

/-- The sequence has only key and app triggers at the heads of its passes,
and ends with a wait if it is not empty. -/
def SequenceTrigger.EndsInWait (s : SequenceTrigger) : Prop :=
  s.Readable ∧ ∀ pass ∈ loopPasses [] s.sequence, pass.isLast = false

theorem ReachedPass.connects_of_endsInWait {H : QHash} {layer : Layer}
    (h : ∀ s ∈ layer.sequenceRemappings, s.EndsInWait) (r : ReachedPass H layer) : r.Connects := by
  obtain ⟨s, owner, pass, b, q, ss, done, rest, b₀, before, after, hnormal, hss, -, hpasses, -⟩ := r
  rw [normailzeSequences_eq] at hnormal
  cases hnormal
  have hzip : (s, owner) ∈ layer.sequenceRemappings.zipIdx := by simp [hss]
  have hs := List.mem_of_getElem? (List.mem_zipIdx_iff_getElem?.mp hzip)
  have hpass : pass ∈ loopPasses [] s.sequence := by simp [hpasses]
  obtain ⟨hreadable, hlast⟩ := h s hs
  obtain ⟨inputEvent, hinput⟩ := Option.isSome_iff_exists.mp (hreadable pass hpass)
  exact ⟨inputEvent, hinput, fun hlast' ↦ by simp [hlast pass hpass] at hlast'⟩

/-- Among the accepted layers, those without a sequence that ends with a
trigger are generated safely. -/
theorem generationSafe_accepted {H : QHash} {layer : Layer} {states : List State}
    (haccepted : generateStates H layer = .ok states) :
    GenerationSafe H layer ↔ ∀ s ∈ layer.sequenceRemappings, s.EndsInWait := by
  constructor
  · intro h s hs
    have hchecked : generateStatesChecked H layer = .ok states := by
      rcases generateStatesChecked_eq H layer with ⟨_, rfl, hunassigned⟩ | hsame
      · cases h.ends _ hunassigned
      · rw [hsame, haccepted]
    rw [generateStatesChecked_eq_fold] at hchecked
    obtain ⟨b, hfold, -⟩ := Exits.bind_eq_ok.mp hchecked
    obtain ⟨owner, howner⟩ := List.getElem?_of_mem hs
    have hzip : (s, owner) ∈ layer.sequenceRemappings.zipIdx :=
      List.mem_zipIdx_iff_getElem?.mpr howner
    obtain ⟨done, rest, hss⟩ := List.append_of_mem hzip
    rw [hss, List.foldlM_append] at hfold
    obtain ⟨b₀, hdone, hfold⟩ := Exits.bind_eq_ok.mp hfold
    obtain ⟨b₁, hsequence, -⟩ := Exits.foldlM_cons_eq_ok.mp hfold
    obtain ⟨d, hpasses, -⟩ := Exits.bind_eq_ok.mp hsequence
    have hone : ∀ pass ∈ loopPasses [] s.sequence,
        pass.trigger.triggerToInput.isSome = true ∧ pass.isLast = false := by
      intro pass hpass
      obtain ⟨before, after, hsplit⟩ := List.append_of_mem hpass
      rw [hsplit, List.foldlM_append] at hpasses
      obtain ⟨⟨b₂, q⟩, hbefore, hafter⟩ := Exits.bind_eq_ok.mp hpasses
      obtain ⟨d', hinsert, -⟩ := Exits.foldlM_cons_eq_ok.mp hafter
      let r : ReachedPass H layer := ⟨s, owner, pass, b₂, q, _, done, rest, b₀, before, after,
        normailzeSequences_eq _, hss, hdone, hsplit, hbefore⟩
      obtain ⟨inputEvent, hinput, hedge⟩ := r.safe_iff_connects.mp (h.uses r)
      have hinput : pass.trigger.triggerToInput = some inputEvent := hinput
      refine ⟨by simp [hinput], ?_⟩
      -- A last trigger whose edge exists would have rejected the layer.
      by_contra hlast
      have hlast : pass.isLast = true := by simpa using hlast
      obtain ⟨state, hstate, hsome⟩ := hedge hlast
      obtain ⟨existingTransition, hfind⟩ := Option.isSome_iff_exists.mp hsome
      have hstate : b₂.states[q]? = some state := hstate
      simp [insertTriggerReading, hinput, optionalValue, connectTrigger, vectorAt, hstate, hfind,
        hlast] at hinsert
    exact ⟨fun pass hpass ↦ (hone pass hpass).1, fun pass hpass ↦ (hone pass hpass).2⟩
  · exact fun h ↦ generationSafe_of_connects fun r ↦ r.connects_of_endsInWait h

/-- A layer is generated safely exactly when every pass that comes up before
the layer is rejected has a key or app trigger at its head, and is the last
of its sequence only where a trigger that compares equal was read before. -/
theorem generationSafe_iff (H : QHash) (layer : Layer) :
    GenerationSafe H layer ↔ ∀ T p pass, layer.ComesTo H T p pass → T.Fits p pass := by
  constructor
  · intro h T p pass hcomes
    have hends : generateStatesChecked H layer ≠ .error .unassigned := by
      intro hunassigned
      cases h.ends _ hunassigned
    obtain ⟨r, rfl, hlinked⟩ := hcomes.reached hends
    exact (r.connects_iff_fits hlinked).mp (r.safe_iff_connects.mp (h.uses r))
  · intro h
    refine generationSafe_of_connects fun r ↦ ?_
    obtain ⟨T, p, hcomes, hlinked⟩ := r.comesTo
    exact (r.connects_iff_fits hlinked).mpr (h T p r.pass hcomes)

/-- One sequence of one key. -/
def singleKey : Layer := ⟨"Base", [], [⟨.capture, [.keyPress .a], [.pressKey .b]⟩]⟩

theorem singleKey_unassigned : ¬ GenerationSafe (.first InputEvent.eq) singleKey := by
  intro h
  have hend : generateStatesChecked (.first InputEvent.eq) singleKey = .error .unassigned := rfl
  cases h.ends _ hend

end Keybinder

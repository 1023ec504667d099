import Keybinder.BasicLayers

/-!
# Release sequences do not swallow input

In a machine of Release sequences every transition that an event takes
translates one event and then executes binds.  A run is annotated with the
works it performs, those of its transitions; without the binds they are the
translations of its input events, in order.
-/

namespace Keybinder

def Layer.Releases (layer : Layer) : Prop :=
  ∀ s ∈ layer.sequenceRemappings, s.behavior = .release

/-! ## The transitions of a Release machine -/

namespace Represents

variable {H : QHash} {states : List State} {metadata : List StateMetadata} {T : Trie}
  {places : List Place} {p : Place} {idx : ℕ} {state : State} {e : InputEvent}
  {transition : Transition}

theorem fallback_of_release (hrelease : ∀ x ∈ T, x.sequence.behavior = .release) (p : Place) :
    T.fallback p = {} ∨ (T.fallback p).outputs = [.basicTranlation none] := by
  unfold Trie.fallback
  split
  · exact .inr rfl
  · split
    · rename_i x hx
      have hbehavior := hrelease x (Trie.creatorAt_eq_some hx).1
      simp [newFallback, hbehavior]
    · exact .inl rfl

theorem transitionFor_of_release (hb : Represents ⟨states, metadata⟩ T T places)
    (hrelease : ∀ x ∈ T, x.sequence.behavior = .release) (hstate : states[idx]? = some state) :
    Mapper.transitionFor H state e = {} ∨ ∃ (event : Option InputEvent) (binds : List Bind),
      (Mapper.transitionFor H state e).outputs = .basicTranlation event :: binds.map .bind ∧
        ∀ stored, event = some stored → stored.eq e = true := by
  obtain ⟨p, hp⟩ := hb.place_of_state hstate
  rcases hb.transitionFor_cases (H := H) (e := e) hp hstate with ⟨y, hy, heq, h⟩ | ⟨-, h⟩
  · right
    have hbehavior := hrelease y (Trie.mem_edgesAt.mp hy).1
    refine ⟨some y.stored, if y.pass.isLast then y.sequence.binds else [], ?_, ?_⟩
    · rw [h, Placement.transition, newTransition, hbehavior]
      cases y.pass.isLast <;> rfl
    · rintro stored hstored
      cases hstored
      exact heq
  · rcases fallback_of_release hrelease p with hempty | houtputs
    · exact .inl (h.trans hempty)
    · refine .inr ⟨none, [], ?_, by simp⟩
      rw [h, houtputs]
      rfl

theorem timerTransition_of_release (hb : Represents ⟨states, metadata⟩ T T places)
    (hrelease : ∀ x ∈ T, x.sequence.behavior = .release) (hstate : states[idx]? = some state)
    (ht : state.timerTransition = some transition) :
    transition.outputs = [.basicTranlation none] ∨
      ∃ binds : List Bind, transition.outputs = binds.map .bind := by
  obtain ⟨p, hp⟩ := hb.place_of_state hstate
  obtain ⟨x, -, rfl⟩ := hb.timerTransition_cases hp hstate ht
  unfold Placement.timerTransition
  split
  · right
    split
    · exact ⟨_, rfl⟩
    · exact ⟨[], rfl⟩
  · rcases fallback_of_release hrelease p with hempty | houtputs
    · rw [hempty]
      exact .inr ⟨[], rfl⟩
    · exact .inl houtputs

end Represents

/-! ## The works of a run -/

def StateMachineOutputEvent.bind? : StateMachineOutputEvent → Option Bind
  | .bind b => some b
  | .basicTranlation _ => none
  | .proccessInput _ => none

/-- The binds among the outputs. -/
def Transition.binds (transition : Transition) : List Bind :=
  transition.outputs.filterMap StateMachineOutputEvent.bind?

theorem Transition.binds_eq {transition : Transition} (translated : List (Option InputEvent))
    {binds : List Bind} (h : transition.outputs =
      translated.map .basicTranlation ++ binds.map .bind) : transition.binds = binds := by
  rw [Transition.binds, h, List.filterMap_append, List.filterMap_map, List.filterMap_map]
  simp [Function.comp_def, StateMachineOutputEvent.bind?]

/-- The basic translation of an event in a layer, or a single bind. -/
inductive Work where
  | translate (layer : ℕ) (e : InputEvent)
  | bind (b : Bind)
  deriving DecidableEq

namespace Work

/-- The basic translation of an event in a layer. -/
def outputs (H : QHash) (basicMaps : List (List (InputEvent × List Bind))) :
    Work → List OutputEvent
  | translate layer e =>
      match basicMaps[layer]?.bind fun basicMap ↦ H.find basicMap e with
      | some binds => binds.filterMap Bind.output
      | none => passedOn e
  | bind b => b.output.toList

def event : Work → Option InputEvent
  | translate _ e => some e
  | bind _ => none

end Work

/-- The works of an iteration. -/
inductive Turn where
  | poll (timerBinds : List Bind)
  | event (timerBinds : List Bind) (layer : ℕ) (e : InputEvent) (binds : List Bind)
  deriving DecidableEq

namespace Turn

def keyOpt : Turn → Option InputEvent
  | poll _ => none
  | event _ _ e _ => some e

/-- The translation of the event stands before the binds it triggers. -/
def works : Turn → List Work
  | poll timerBinds => timerBinds.map .bind
  | event timerBinds layer e binds =>
      timerBinds.map .bind ++ .translate layer e :: binds.map .bind

theorem event_works (turn : Turn) : turn.works.filterMap Work.event = turn.keyOpt.toList := by
  cases turn <;> simp [works, keyOpt, Work.event, Function.comp_def]

end Turn

def Moment.output : Moment → Option OutputEvent
  | .queued _ e => some e
  | _ => none

/-- A transition translates the event it was taken on, if any, and executes
its binds. -/
def Moment.works : Moment → List Work
  | .taken layer _ event _ transition =>
      (event.map (Work.translate layer)).toList ++ transition.binds.map .bind
  | _ => []

/-- The transition that an event has taken had a target, and where it
translates a trigger for an app, the two are remapped alike. -/
def Moment.Own (H : QHash) (basicMaps : List (List (InputEvent × List Bind))) : Moment → Prop
  | .taken _ _ (some (.key _)) _ transition => transition.newState ≠ none
  | .taken layer _ (some (.app appName)) _ transition => transition.newState ≠ none ∧
      ∀ stored, .basicTranlation (some stored) ∈ transition.outputs →
        ∀ basicMap, basicMaps[layer]? = some basicMap →
          H.find basicMap stored = H.find basicMap (.app appName)
  | _ => True

namespace Mapper

/-- The events ever passed to `queue_output`. -/
def queuedOutputs (m : Mapper) : List OutputEvent := m.history.filterMap Moment.output

/-- The works of all transitions ever taken. -/
def takenWorks (m : Mapper) : List Work := m.history.flatMap Moment.works

/-- What a run does between its works. -/
inductive Interlude (env : Env) : Mapper → Mapper → Prop
  | enter (m : Mapper) (transition : Transition) (prevEvent : Option InputEvent) :
      Interlude env m (m.enter env transition prevEvent)
  | check (m : Mapper) : Interlude env m (m.checked env)
  | count (m : Mapper) (e : InputEvent) : Interlude env m (m.countKey env e)
  | processed (m : Mapper) :
      Interlude env m { m with processedEventsCount := m.processedEventsCount + 1 }
  | emit (m : Mapper) : Interlude env m (m.checkQueuedEvents env)

/-- Performs works in their order. -/
inductive Performs (env : Env) (H : QHash) : Mapper → List Work → Mapper → Prop
  | nil (m : Mapper) : Performs env H m [] m
  | interlude {m m₁ m' : Mapper} {works : List Work} (h : Interlude env m m₁)
      (hrest : Performs env H m₁ works m') : Performs env H m works m'
  | translate {m m₁ m' : Mapper} {works : List Work} {e : InputEvent}
      (h : runOutput env H none (m, []) (.basicTranlation (some e)) = .ok (m₁, []))
      (hrest : Performs env H m₁ works m') :
      Performs env H m (.translate m.curLayerIdx e :: works) m'
  | bind {m m₁ m' : Mapper} {works : List Work} {b : Bind} (h : m.queueBinds env [b] = .ok m₁)
      (hrest : Performs env H m₁ works m') : Performs env H m (.bind b :: works) m'

variable {env : Env} {H : QHash} {fuel : ℕ} {m m₁ m' : Mapper} {works works' : List Work}

theorem queuedOutputs_queueBinds {binds : List Bind} (h : m.queueBinds env binds = .ok m') :
    m'.basicMaps = m.basicMaps ∧
      m'.queuedOutputs = m.queuedOutputs ++ binds.filterMap Bind.output := by
  obtain ⟨⟨m₁, delay⟩, hfold, hm⟩ := Exits.bind_eq_ok.mp h
  cases hm
  clear h
  generalize (0 : ℕ) = delay₀ at hfold
  induction binds generalizing m delay₀ with
  | nil =>
      cases hfold
      simp
  | cons b binds ih =>
      obtain ⟨⟨m₁, delay₁⟩, hb, hrest⟩ := Exits.foldlM_cons_eq_ok.mp hfold
      obtain ⟨hmaps, houtputs⟩ := ih _ hrest
      have hstep : m₁.basicMaps = m.basicMaps ∧
          m₁.queuedOutputs = m.queuedOutputs ++ b.output.toList := by
        cases b with
        | pressKey keyCode =>
            cases hb
            simp [queuedOutputs, queueOutput, Moment.output, Bind.output]
        | releaseKey keyCode =>
            cases hb
            simp [queuedOutputs, queueOutput, Moment.output, Bind.output]
        | swapLayer newLayer =>
            obtain ⟨m₂, hset, hb⟩ := Exits.bind_eq_ok.mp hb
            cases hb
            obtain ⟨announced, rfl⟩ := setLayerInner_spec hset
            simp [queuedOutputs, Moment.output, Bind.output]
        | wait ms =>
            cases hb
            simp [Bind.output]
        | runScript s =>
            cases hb
            simp [queuedOutputs, queueOutput, Moment.output, Bind.output]
      refine ⟨hmaps.trans hstep.1, ?_⟩
      rw [houtputs, hstep.2, List.append_assoc]
      cases hb' : b.output <;> simp [hb']

theorem queuedOutputs_translate {e : InputEvent}
    (h : runOutput env H none (m, []) (.basicTranlation (some e)) = .ok (m', [])) :
    m'.basicMaps = m.basicMaps ∧ m'.queuedOutputs =
      m.queuedOutputs ++ (Work.translate m.curLayerIdx e).outputs H m.basicMaps := by
  simp only [runOutput, Option.orElse_eq_orElse, Option.orElse_eq_or, Option.some_or] at h
  obtain ⟨basicMap, hmap, h⟩ := Exits.bind_eq_ok.mp h
  have hlayer : m.basicMaps[m.curLayerIdx]? = some basicMap := by
    unfold vectorAt at hmap
    split at hmap
    · rename_i hlayer
      cases hmap
      exact hlayer
    · cases hmap
  rw [Work.outputs, hlayer, Option.bind_some]
  cases hfind : H.find basicMap e with
  | some binds =>
      simp only [hfind] at h
      obtain ⟨m₁, hbinds, h⟩ := Exits.bind_eq_ok.mp h
      cases h
      exact queuedOutputs_queueBinds hbinds
  | none =>
      cases e with
      | key e =>
          simp only [hfind] at h
          cases h
          simp [queuedOutputs, queueOutput, Moment.output, passedOn]
      | app appName =>
          simp only [hfind] at h
          cases h
          simp [passedOn]

theorem Interlude.queuedOutputs (h : Interlude env m m') :
    m'.basicMaps = m.basicMaps ∧ m'.queuedOutputs = m.queuedOutputs := by
  cases h with
  | enter => simp [Mapper.queuedOutputs, Mapper.enter, Moment.output]
  | check => simp [Mapper.queuedOutputs, checked, Moment.output]
  | count e =>
      have hsame := sameStage_countKey env m e
      exact ⟨hsame.basicMaps_eq, by rw [Mapper.queuedOutputs, hsame.history_eq, Mapper.queuedOutputs]⟩
  | processed => exact ⟨rfl, rfl⟩
  | emit =>
      have hsame := sameStage_checkQueuedEvents env m
      exact ⟨hsame.basicMaps_eq, by rw [Mapper.queuedOutputs, hsame.history_eq, Mapper.queuedOutputs]⟩

namespace Performs

theorem append (h : Performs env H m works m₁) (h' : Performs env H m₁ works' m') :
    Performs env H m (works ++ works') m' := by
  induction h with
  | nil => exact h'
  | interlude h _ ih => exact .interlude h (ih h')
  | translate h _ ih => exact .translate h (ih h')
  | bind h _ ih => exact .bind h (ih h')

/-- Nothing is queued but the outputs of the works. -/
theorem queuedOutputs (h : Performs env H m works m') : m'.basicMaps = m.basicMaps ∧
    m'.queuedOutputs = m.queuedOutputs ++ works.flatMap (Work.outputs H m.basicMaps) := by
  induction h with
  | nil => simp
  | interlude h _ ih =>
      obtain ⟨hmaps, houtputs⟩ := h.queuedOutputs
      rw [hmaps, houtputs] at ih
      exact ih
  | translate h _ ih =>
      obtain ⟨hmaps, houtputs⟩ := queuedOutputs_translate h
      rw [hmaps, houtputs, List.append_assoc] at ih
      exact ih
  | @bind _ _ _ _ b h _ ih =>
      obtain ⟨hmaps, houtputs⟩ := queuedOutputs_queueBinds h
      rw [hmaps, houtputs, List.append_assoc] at ih
      refine ⟨ih.1, ih.2.trans ?_⟩
      cases hb : b.output <;> simp [Work.outputs, hb]

end Performs

theorem takenWorks_of_history_eq (h : m'.history = m.history) : m'.takenWorks = m.takenWorks := by
  rw [takenWorks, h, takenWorks]

theorem takenWorks_of_outputs (h : Outputs env m m') : m'.takenWorks = m.takenWorks := by
  induction h with
  | refl => rfl
  | tail _ hact ih =>
      rw [← ih]
      cases hact with
      | queue e delay => simp [takenWorks, queueOutput, Moment.works]
      | swap hset =>
          obtain ⟨announced, rfl⟩ := setLayerInner_spec hset
          simp [takenWorks, Moment.works]

/-- Performs works in their order, which are those of the transitions it
takes. -/
structure CarriesOut (env : Env) (H : QHash) (m : Mapper) (works : List Work) (m' : Mapper) :
    Prop where
  performs : Performs env H m works m'
  takenWorks_eq : m'.takenWorks = m.takenWorks ++ works

namespace CarriesOut

theorem nil (m : Mapper) : CarriesOut env H m [] m := ⟨.nil m, (List.append_nil _).symm⟩

theorem append (h : CarriesOut env H m works m₁) (h' : CarriesOut env H m₁ works' m') :
    CarriesOut env H m (works ++ works') m' := by
  refine ⟨h.performs.append h'.performs, ?_⟩
  rw [h'.takenWorks_eq, h.takenWorks_eq, List.append_assoc]

theorem check (m : Mapper) : CarriesOut env H m [] (m.checked env) :=
  ⟨.interlude (.check m) (.nil _), by simp [takenWorks, checked, Moment.works]⟩

theorem count (m : Mapper) (e : InputEvent) : CarriesOut env H m [] (m.countKey env e) := by
  refine ⟨.interlude (.count m e) (.nil _), ?_⟩
  rw [takenWorks_of_history_eq (sameStage_countKey env m e).history_eq, List.append_nil]

theorem emit (m : Mapper) : CarriesOut env H m [] (m.checkQueuedEvents env) := by
  refine ⟨.interlude (.emit m) (.nil _), ?_⟩
  rw [takenWorks_of_history_eq (history_checkQueuedEvents env m), List.append_nil]

theorem processed (m : Mapper) :
    CarriesOut env H m [] { m with processedEventsCount := m.processedEventsCount + 1 } :=
  ⟨.interlude (.processed m) (.nil _), (List.append_nil _).symm⟩

end CarriesOut

/-! ## The works of a transition -/

section

variable {transition : Transition} {e : InputEvent} {redo : List InputEvent}
  {prevEvent : Option InputEvent}

theorem performs_binds {binds : List Bind}
    (h : (binds.map StateMachineOutputEvent.bind).foldlM (runOutput env H prevEvent) (m, []) =
      .ok (m', redo)) : redo = [] ∧ Performs env H m (binds.map .bind) m' := by
  induction binds generalizing m with
  | nil =>
      cases h
      exact ⟨rfl, .nil _⟩
  | cons b binds ih =>
      obtain ⟨⟨m₁, redo₁⟩, hb, hrest⟩ := Exits.foldlM_cons_eq_ok.mp h
      obtain ⟨m₂, hbinds, hb⟩ := Exits.bind_eq_ok.mp hb
      cases hb
      obtain ⟨hredo, hperforms⟩ := ih hrest
      exact ⟨hredo, .bind hbinds hperforms⟩

theorem runOutput_stored {stored : InputEvent} (heq : stored.eq e = true)
    (hfind : ∀ basicMap, m.basicMaps[m.curLayerIdx]? = some basicMap →
      H.find basicMap stored = H.find basicMap e) :
    runOutput env H prevEvent (m, []) (.basicTranlation (some stored)) =
      runOutput env H none (m, []) (.basicTranlation (some e)) := by
  simp only [runOutput, Option.orElse_eq_orElse, Option.orElse_eq_or, Option.some_or, vectorAt]
  cases hmap : m.basicMaps[m.curLayerIdx]? with
  | none => rfl
  | some basicMap =>
      simp only [Exits.ok_bind, hfind basicMap hmap]
      cases H.find basicMap e with
      | some binds => rfl
      | none =>
          cases e with
          | key e =>
              obtain rfl := InputEvent.eq_key_iff.mp heq
              rfl
          | app appName =>
              cases stored with
              | key e =>
                  rw [InputEvent.eq_swap, InputEvent.eq_key_iff] at heq
                  cases heq
              | app stored => rfl

/-- The transition whose outputs were run. -/
theorem takenWorks_fire (h : m.fire env H transition prevEvent = .ok (m', redo)) :
    m'.takenWorks = m.takenWorks ++
      ((prevEvent.map (Work.translate m.curLayerIdx)).toList ++
        transition.binds.map .bind) := by
  rw [takenWorks_of_outputs (fire_spec h).1]
  simp [takenWorks, enter, Moment.works]

theorem carriesOut_fire {event : Option InputEvent} {binds : List Bind}
    (houtputs : transition.outputs = .basicTranlation event :: binds.map .bind)
    (hevent : ∀ stored, event = some stored → stored.eq e = true ∧
      ∀ basicMap, m.basicMaps[m.curLayerIdx]? = some basicMap →
        H.find basicMap stored = H.find basicMap e)
    (h : m.fire env H transition (some e) = .ok (m', redo)) :
    redo = [] ∧ CarriesOut env H m (.translate m.curLayerIdx e :: binds.map .bind) m' := by
  have htaken := takenWorks_fire h
  rw [Transition.binds_eq [event] houtputs] at htaken
  rw [fire, houtputs] at h
  obtain ⟨⟨m₁, redo₁⟩, htranslate, hbinds⟩ := Exits.foldlM_cons_eq_ok.mp h
  have hown : runOutput env H none (m.enter env transition (some e), [])
      (.basicTranlation (some e)) = .ok (m₁, redo₁) := by
    cases event with
    | none => exact htranslate
    | some stored =>
        obtain ⟨heq, hfind⟩ := hevent stored rfl
        rw [← htranslate]
        exact (runOutput_stored (m := m.enter env transition (some e)) heq hfind).symm
  obtain rfl : redo₁ = [] := (runOutput_spec hown).2
  obtain ⟨hredo, hperforms⟩ := performs_binds hbinds
  exact ⟨hredo, .interlude (.enter m transition (some e)) (.translate hown hperforms), htaken⟩

theorem carriesOut_expire (houtputs : transition.outputs = [.basicTranlation none] ∨
      ∃ binds : List Bind, transition.outputs = binds.map .bind)
    (h : m.fire env H transition none = .ok (m', redo)) :
    redo = [] ∧ ∃ binds : List Bind, CarriesOut env H m (binds.map .bind) m' := by
  have htaken := takenWorks_fire h
  rcases houtputs with houtputs | ⟨binds, houtputs⟩
  · rw [show transition.binds = [] from Transition.binds_eq [none] houtputs] at htaken
    rw [fire, houtputs] at h
    cases h
    exact ⟨rfl, [], .interlude (.enter m transition none) (.nil _), htaken⟩
  · rw [Transition.binds_eq [] houtputs] at htaken
    rw [fire, houtputs] at h
    obtain ⟨hredo, hperforms⟩ := performs_binds h
    exact ⟨hredo, binds, .interlude (.enter m transition none) hperforms, htaken⟩

end

/-! ## Iterations -/

/-- The machines were generated for layers of Release sequences. -/
def Releasing (H : QHash) (m : Mapper) : Prop :=
  ∀ states ∈ m.states, ∃ layer : Layer, layer.Releases ∧ generateStates H layer = .ok states

theorem Releasing.represents (h : m.Releasing H) {states : List State}
    (hstates : m.states[m.curLayerIdx]? = some states) : ∃ metadata T places,
      Represents ⟨states, metadata⟩ T T places ∧ ∀ x ∈ T, x.sequence.behavior = .release := by
  obtain ⟨layer, hrelease, hgenerate⟩ := h states (List.mem_of_getElem? hstates)
  obtain ⟨T, metadata, places, htrie, -, hb⟩ := trie_of_generateStates hgenerate
  refine ⟨metadata, T, places, hb, fun x hx ↦ hrelease _ ?_⟩
  exact List.mem_of_getElem? (List.mem_zipIdx_iff_getElem?.mp (Trie.sequence_mem htrie x hx))

theorem carriesOut_checkTimer (hm : m.Releasing H) (h : m.checkTimer env H fuel = .ok m') :
    ∃ binds : List Bind, CarriesOut env H m (binds.map .bind) m' := by
  obtain ⟨state, hstate, ⟨-, rfl⟩ | ⟨transition, m₁, redo, -, ht, hfire, hredo⟩⟩ :=
    checkTimer_cases h
  · exact ⟨[], .check m⟩
  · obtain ⟨states, hstates, hidx⟩ := curState_eq_ok hstate
    obtain ⟨metadata, T, places, hb, hrelease⟩ := hm.represents hstates
    obtain ⟨rfl, binds, hcarries⟩ :=
      carriesOut_expire (hb.timerTransition_of_release hrelease hidx ht) hfire
    cases hredo
    exact ⟨binds, (CarriesOut.check m).append hcarries⟩

/-- A key is translated as itself. -/
theorem own_taken {basicMaps : List (List (InputEvent × List Bind))} {layer state now : ℕ}
    {e : InputEvent} {transition : Transition}
    (h : Moment.Own H basicMaps (.taken layer state (some e) now transition)) :
    transition.newState ≠ none ∧ ∀ stored, stored.eq e = true →
      .basicTranlation (some stored) ∈ transition.outputs →
        ∀ basicMap, basicMaps[layer]? = some basicMap →
          H.find basicMap stored = H.find basicMap e := by
  cases e with
  | key e =>
      refine ⟨h, fun stored heq _ _ _ ↦ ?_⟩
      rw [InputEvent.eq_key_iff.mp heq]
  | app appName => exact ⟨h.1, fun stored _ ↦ h.2 stored⟩

theorem carriesOut_processInput (hm : m.Releasing H) (hpaused : m.paused = false) {e : InputEvent}
    (h : m.processInput env H fuel e = .ok m')
    (hown : ∀ moment ∈ m.since m', moment.Own H m.basicMaps) :
    ∃ binds : List Bind, CarriesOut env H m (.translate m.curLayerIdx e :: binds.map .bind) m' := by
  cases fuel with
  | zero => cases h
  | succ fuel =>
      simp only [processInput, hpaused, Bool.false_eq_true, if_false] at h
      obtain ⟨state, hstate, h⟩ := Exits.bind_eq_ok.mp h
      obtain ⟨⟨m₁, redo⟩, hfire, hredo⟩ := Exits.bind_eq_ok.mp h
      obtain ⟨states, hstates, hidx⟩ := curState_eq_ok hstate
      obtain ⟨metadata, T, places, hb, hrelease⟩ := hm.represents hstates
      have hacts : Acts env H m₁ m' := acts_of_feeds (feeds_of_foldlM_processInput hredo)
      have htaken : Moment.taken m.curLayerIdx m.curStateIdx (some e) (env.clock m.instant)
          (transitionFor H state e) ∈ m.since m' := by
        have hentered : (m.enter env (transitionFor H state e) (some e)).history <+:
            m'.history :=
          Acts.history_le ((acts_of_fire hfire).trans hacts)
        apply mem_since_left (List.prefix_append _ _) hentered
        simp [since, enter]
      obtain ⟨hassigned, hlike⟩ := own_taken (hown _ htaken)
      rcases hb.transitionFor_of_release (H := H) (e := e) hrelease hidx with
        hempty | ⟨event, binds, houtputs, hstored⟩
      · rw [hempty] at hassigned
        exact (hassigned rfl).elim
      · have hevent : ∀ stored, event = some stored → stored.eq e = true ∧
            ∀ basicMap, m.basicMaps[m.curLayerIdx]? = some basicMap →
              H.find basicMap stored = H.find basicMap e := by
          rintro stored rfl
          refine ⟨hstored stored rfl, hlike stored (hstored stored rfl) ?_⟩
          rw [houtputs]
          exact List.mem_cons_self
        obtain ⟨rfl, hcarries⟩ := carriesOut_fire houtputs hevent hfire
        cases hredo
        exact ⟨binds, hcarries⟩

theorem carriesOut_loopBody (hm : m.Releasing H) (hpaused : m.paused = false)
    {keyOpt : Option InputEvent} (h : m.loopBody env H fuel keyOpt = .ok m')
    (hown : ∀ moment ∈ m.since m', moment.Own H m.basicMaps) :
    ∃ turn : Turn, turn.keyOpt = keyOpt ∧ CarriesOut env H m turn.works m' := by
  obtain ⟨m₁, htimer, hrest⟩ := Exits.bind_eq_ok.mp h
  obtain ⟨timerBinds, hbinds⟩ := carriesOut_checkTimer hm htimer
  cases keyOpt with
  | none =>
      cases hrest
      refine ⟨.poll timerBinds, rfl, ?_⟩
      simpa [Turn.works] using hbinds.append (.emit m₁)
  | some e =>
      obtain ⟨m₂, hinput, hrest⟩ := Exits.bind_eq_ok.mp hrest
      cases hrest
      have hcounted := (acts_of_checkTimer htimer).tail (.count m₁ e)
      have hinputs : Acts env H (m₁.countKey env e) m₂ :=
        acts_of_feeds (feeds_of_processInput hinput)
      have hends : Acts env H m₂ (checkQueuedEvents env
          { m₂ with processedEventsCount := m₂.processedEventsCount + 1 }) :=
        (Relation.ReflTransGen.single (.processed m₂)).tail (.emit _)
      have hsame := Acts.sameMachines hcounted
      have hreleasing : (m₁.countKey env e).Releasing H := by
        rw [Releasing, hsame.states_eq]
        exact hm
      obtain ⟨binds, hcarries⟩ : ∃ binds : List Bind, CarriesOut env H (m₁.countKey env e)
          (.translate (m₁.countKey env e).curLayerIdx e :: binds.map .bind) m₂ := by
        apply carriesOut_processInput hreleasing (hsame.paused_eq.trans hpaused) hinput
        intro moment hmoment
        rw [hsame.basicMaps_eq]
        apply hown
        apply mem_since_right (Acts.history_le hcounted) (Acts.history_le (hinputs.trans hends))
        exact mem_since_left (Acts.history_le hinputs) (Acts.history_le hends) hmoment
      have hevent := (hcarries.append (.processed m₂)).append (.emit _)
      rw [List.append_nil, List.append_nil] at hevent
      exact ⟨.event timerBinds (m₁.countKey env e).curLayerIdx e binds, rfl,
        hbinds.append ((CarriesOut.count m₁ e).append hevent)⟩

/-! ## Runs -/

/-- Each iteration translates the event it was given, if any, once and
before the binds that the event triggers; nothing else is translated.  These
are the works of the transitions that were taken, what is queued are their
outputs, and without the binds they are the translations of the events in
their order. -/
def ReleasesInput (env : Env) (H : QHash) (m : Mapper) (keys : List (Option InputEvent))
    (m' : Mapper) : Prop :=
  ∃ turns : List Turn, turns.map Turn.keyOpt = keys ∧
    Performs env H m (turns.flatMap Turn.works) m' ∧
    (m.since m').flatMap Moment.works = turns.flatMap Turn.works ∧
    m'.queuedOutputs = m.queuedOutputs ++
      (turns.flatMap Turn.works).flatMap (Work.outputs H m.basicMaps) ∧
    (turns.flatMap Turn.works).filterMap Work.event = keys.filterMap id

theorem carriesOut_iterate (hm : m.Releasing H) (hpaused : m.paused = false)
    {keys : List (Option InputEvent)} (h : m.iterate env H fuel keys = .ok m')
    (hown : ∀ moment ∈ m.since m', moment.Own H m.basicMaps) :
    ∃ turns : List Turn, turns.map Turn.keyOpt = keys ∧
      CarriesOut env H m (turns.flatMap Turn.works) m' := by
  induction keys generalizing m with
  | nil =>
      cases h
      exact ⟨[], rfl, .nil _⟩
  | cons keyOpt keys ih =>
      obtain ⟨m₁, hbody, hrest⟩ := Exits.foldlM_cons_eq_ok.mp h
      have hfirst := acts_of_loopBody hbody
      have hlater := acts_of_iterate (H := H) hrest
      have hsame := Acts.sameMachines hfirst
      obtain ⟨turn, hkey, hturn⟩ := carriesOut_loopBody hm hpaused hbody fun moment hmoment ↦
        hown moment (mem_since_left (Acts.history_le hfirst) (Acts.history_le hlater) hmoment)
      obtain ⟨turns, hkeys, hturns⟩ : ∃ turns : List Turn, turns.map Turn.keyOpt = keys ∧
          CarriesOut env H m₁ (turns.flatMap Turn.works) m' := by
        apply ih _ (hsame.paused_eq.trans hpaused) hrest
        · intro moment hmoment
          rw [hsame.basicMaps_eq]
          exact hown moment
            (mem_since_right (Acts.history_le hfirst) (Acts.history_le hlater) hmoment)
        · rw [Releasing, hsame.states_eq]
          exact hm
      exact ⟨turn :: turns, by simp [hkey, hkeys], hturn.append hturns⟩

theorem releasesInput_of_carriesOut {turns : List Turn} (hhistory : m.history <+: m'.history)
    (h : CarriesOut env H m (turns.flatMap Turn.works) m') :
    m.ReleasesInput env H (turns.map Turn.keyOpt) m' := by
  refine ⟨turns, rfl, h.performs, ?_, h.performs.queuedOutputs.2, ?_⟩
  · obtain ⟨later, hlater⟩ := hhistory
    have htaken := h.takenWorks_eq
    simp only [takenWorks, ← hlater, List.flatMap_append] at htaken
    rw [since, ← hlater, List.drop_left]
    exact List.append_cancel_left htaken
  clear hhistory h
  induction turns with
  | nil => rfl
  | cons turn turns ih =>
      rw [List.flatMap_cons, List.filterMap_append, Turn.event_works, ih, List.map_cons]
      cases turn.keyOpt <;> simp

/-- An event that is not remapped anywhere cannot be missing. -/
theorem ReleasesInput.passedOn_subset {keys : List (Option InputEvent)}
    (h : m.ReleasesInput env H keys m') {e : InputEvent} (he : some e ∈ keys)
    (hnone : ∀ basicMap ∈ m.basicMaps, H.find basicMap e = none) :
    passedOn e ⊆ m'.queuedOutputs := by
  obtain ⟨turns, -, -, -, houtputs, hevents⟩ := h
  have hmem : e ∈ (turns.flatMap Turn.works).filterMap Work.event := by
    rw [hevents]
    exact List.mem_filterMap.mpr ⟨some e, he, rfl⟩
  obtain ⟨work, hwork, hevent⟩ := List.mem_filterMap.mp hmem
  cases work with
  | bind b => cases hevent
  | translate layer e' =>
      obtain rfl : e' = e := Option.some.inj hevent
      intro output houtput
      rw [houtputs]
      apply List.mem_append_right
      refine List.mem_flatMap.mpr ⟨_, hwork, ?_⟩
      have hfind : (m.basicMaps[layer]?.bind fun basicMap ↦ H.find basicMap e') = none := by
        apply Option.bind_eq_none_iff.mpr
        exact fun basicMap hmap ↦ hnone basicMap (List.mem_of_getElem? hmap)
      rw [Work.outputs, hfind]
      exact houtput

/-- Release A, half a second, B; A itself is remapped to nothing. -/
def releaseHoldLayer : Layer :=
  ⟨"hold", [(.keyPress .a, [])],
    [⟨.release, [.keyPress .a, .minimumWait 500, .keyPress .b], [.pressKey .x]⟩]⟩

/-- The half second is over when the clock is read for the third time. -/
def holdEnv : Env := .jump 0 500 (by decide) (by decide) 2

/-- A key that is not B is swallowed after the wait. -/
theorem releaseHoldLayer_swallows : releaseHoldLayer.Releases ∧
    Profile.Accepted (.first _) ⟨"hold", [releaseHoldLayer], 0⟩ ∧ ∃ m m',
    Mapper.new (.first _) ⟨"hold", [releaseHoldLayer], 0⟩ false = .ok m ∧
      m.iterate holdEnv (.first _) 2 [some (.key ⟨.a, .press⟩), none, some (.key ⟨.c, .press⟩)] =
        .ok m' ∧
      ¬ m.ReleasesInput holdEnv (.first _)
        [some (.key ⟨.a, .press⟩), none, some (.key ⟨.c, .press⟩)] m' := by
  refine ⟨by simp [releaseHoldLayer, Layer.Releases], ⟨_, rfl⟩, _, _, rfl, rfl, ?_⟩
  intro h
  have hswallowed := h.passedOn_subset (e := .key ⟨.c, .press⟩) (by simp) (by
    intro basicMap hmap
    obtain rfl := List.mem_singleton.mp hmap
    rfl) (List.mem_singleton_self _)
  cases hswallowed

/-- In a mapper that any operations led to, whose accepted profiles have
Release sequences only: no input is swallowed by a run in which every event
takes a transition that was given a target, and every app that takes an edge
is remapped like the app of its trigger. -/
theorem life_releasesInput (env : Env) (H : QHash) (fuel : ℕ) {profile : Profile}
    {layerChangedCallback : Bool} {operations : List Operation} {m m' : Mapper}
    (hlife : Mapper.life env H fuel profile layerChangedCallback operations = .ok m)
    (hrelease : ∀ p ∈ profile :: operations.filterMap Operation.profile?, p.Accepted H →
      ∀ layer ∈ p.layers, layer.Releases)
    (hpaused : m.paused = false) {keys : List (Option InputEvent)}
    (hrun : m.iterate env H fuel keys = .ok m')
    (hown : ∀ moment ∈ m.since m', moment.Own H m.basicMaps) :
    m.ReleasesInput env H keys m' := by
  obtain ⟨turns, rfl, hcarries⟩ :=
    carriesOut_iterate (layers_of_life hrelease hlife) hpaused hrun hown
  exact releasesInput_of_carriesOut (Acts.history_le (acts_of_iterate (H := H) hrun)) hcarries

theorem life_releasesInput_tap : ∃ m m',
    Mapper.life holdEnv (.first _) 2 ⟨"hold", [releaseHoldLayer], 0⟩ false [] = .ok m ∧
      m.iterate holdEnv (.first _) 2 [some (.key ⟨.a, .press⟩), none, some (.key ⟨.b, .press⟩)] =
        .ok m' ∧
      m.ReleasesInput holdEnv (.first _)
        [some (.key ⟨.a, .press⟩), none, some (.key ⟨.b, .press⟩)] m' := by
  refine ⟨_, _, rfl, rfl, ?_⟩
  have hlife : Mapper.life holdEnv (.first _) 2 ⟨"hold", [releaseHoldLayer], 0⟩ false [] = .ok _ :=
    rfl
  have hreleases : ∀ layer ∈ [releaseHoldLayer], layer.Releases := by
    simp [releaseHoldLayer, Layer.Releases]
  apply life_releasesInput holdEnv (.first _) 2 hlife _ rfl rfl
  · intro moment hmoment
    change moment ∈ [.poll _, .taken _ _ _ _ _, .poll _, .taken _ _ _ _ _, .poll _,
      .taken _ _ _ _ _, .queued _ _, .queued _ _] at hmoment
    simp only [List.mem_cons, List.not_mem_nil, or_false] at hmoment
    rcases hmoment with rfl | rfl | rfl | rfl | rfl | rfl | rfl | rfl
    all_goals first | trivial | (intro hnone; cases hnone)
  · simpa [Operation.profile?] using fun _ ↦ hreleases

end Mapper

end Keybinder

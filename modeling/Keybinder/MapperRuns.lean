import Mathlib.Logic.Relation
import Keybinder.Library.Refeed
import Keybinder.Runs

/-!
# Runs of the mapper

Whatever the mapper does is a sequence of acts: a moment of the machine of
its layer, a change of layer, an output that is queued or emitted.  The
history between two changes of layer is a run of the machine of the layer.
-/

namespace Keybinder

namespace Mapper

section

variable (env : Env) (H : QHash)

/-- `process_input` without the events to redo, which it returns. -/
def react (m : Mapper) (e : InputEvent) : Except Exit (Mapper × List InputEvent) :=
  if m.paused then
    return (m.bypass e, [])
  else do
    let curState ← m.curState
    m.fire env H (transitionFor H curState e) (some e)

theorem curState_eq_ok {m : Mapper} {state : State} (h : m.curState = .ok state) :
    ∃ states, m.states[m.curLayerIdx]? = some states ∧ states[m.curStateIdx]? = some state := by
  unfold curState vectorAt at h
  cases hstates : m.states[m.curLayerIdx]? with
  | none => simp [hstates] at h
  | some states =>
      simp only [hstates, Exits.ok_bind] at h
      cases hstate : states[m.curStateIdx]? with
      | none => simp [hstate] at h
      | some state' =>
          simp only [hstate, Except.ok.injEq] at h
          exact ⟨states, rfl, h ▸ hstate⟩

theorem processInput_eq_run (fuel : ℕ) :
    processInput env H fuel = Refeed.run (react env H) .outOfFuel fuel := by
  induction fuel with
  | zero => rfl
  | succ fuel ih =>
      funext m e
      rw [processInput, Refeed.run, react, ih]
      cases m.paused with
      | true => rfl
      | false =>
          cases hstate : m.curState with
          | error x => rfl
          | ok state => rfl

/-- The check of the timer, before its transition is taken. -/
def checked (m : Mapper) : Mapper :=
  { m with instant := m.instant + 1, history := m.history ++ [.poll (env.clock m.instant)] }

/-- The timer has run out at an instant. -/
def Expired (m : Mapper) : Prop := ∃ d, m.currentTimer = some d ∧ d ≤ env.clock m.instant

/-- One thing that the outputs of a transition do. -/
inductive OutputAct : Mapper → Mapper → Prop
  | queue (m : Mapper) (e : OutputEvent) (delay : ℕ) : OutputAct m (m.queueOutput env e delay)
  | swap {m m' : Mapper} {newLayer : ℕ} (h : m.setLayerInner newLayer = .ok m') : OutputAct m m'

abbrev Outputs : Mapper → Mapper → Prop := Relation.ReflTransGen (OutputAct env)

/-- One thing the mapper does. -/
inductive Act : Mapper → Mapper → Prop
  | output {m m' : Mapper} (h : OutputAct env m m') : Act m m'
  | input {m : Mapper} {state : State} (hstate : m.curState = .ok state) (e : InputEvent) :
      Act m (m.enter env (transitionFor H state e) (some e))
  | expire {m : Mapper} {state : State} {transition : Transition}
      (hstate : m.curState = .ok state) (ht : state.timerTransition = some transition)
      (hd : m.Expired env) : Act m ((m.checked env).enter env transition none)
  | quiet {m : Mapper} {state : State} (hstate : m.curState = .ok state)
      (hquiet : m.Expired env → state.timerTransition = none) : Act m (m.checked env)
  | emit (m : Mapper) : Act m (m.checkQueuedEvents env)
  | bypass (m : Mapper) (e : InputEvent) : Act m (m.bypass e)
  | count (m : Mapper) (e : InputEvent) : Act m (m.countKey env e)
  | processed (m : Mapper) :
      Act m { m with processedEventsCount := m.processedEventsCount + 1 }

abbrev Acts : Mapper → Mapper → Prop := Relation.ReflTransGen (Act env H)

variable {env H} {m m' : Mapper} {e : InputEvent} {redo : List InputEvent} {fuel : ℕ}
  {prevEvent : Option InputEvent} {transition : Transition}

theorem Outputs.acts (h : Outputs env m m') : Acts env H m m' :=
  Relation.ReflTransGen.mono (fun _ _ hact ↦ Act.output hact) _ _ h

theorem outputs_of_queueBinds {binds : List Bind} (h : m.queueBinds env binds = .ok m') :
    Outputs env m m' := by
  obtain ⟨⟨m₁, delay⟩, hfold, hm⟩ := Exits.bind_eq_ok.mp h
  cases hm
  have houtputs : Outputs env m (m', delay).1 := by
    refine Exits.foldlM_keeps (P := fun c ↦ Outputs env m c.1) ?_ hfold .refl
    rintro ⟨m₂, delay₂⟩ ⟨m₃, delay₃⟩ b - hm₂ hb
    cases b with
    | pressKey keyCode =>
        cases hb
        exact hm₂.tail (.queue _ _ _)
    | releaseKey keyCode =>
        cases hb
        exact hm₂.tail (.queue _ _ _)
    | swapLayer newLayer =>
        obtain ⟨m₄, hswap, hm₄⟩ := Exits.bind_eq_ok.mp hb
        cases hm₄
        exact hm₂.tail (.swap hswap)
    | wait ms =>
        cases hb
        exact hm₂
    | runScript s =>
        cases hb
        exact hm₂.tail (.queue _ _ _)
  exact houtputs

/-- The event that an output asks to redo. -/
def redoOf (prevEvent : Option InputEvent) : StateMachineOutputEvent → Option InputEvent
  | .proccessInput event => event <|> prevEvent
  | _ => none

theorem runOutput_spec {output : StateMachineOutputEvent} {done : List InputEvent}
    (h : runOutput env H prevEvent (m, done) output = .ok (m', redo)) :
    Outputs env m m' ∧ redo = done ++ (redoOf prevEvent output).toList := by
  cases output with
  | proccessInput event =>
      cases h
      exact ⟨.refl, rfl⟩
  | basicTranlation event =>
      simp only [runOutput] at h
      split at h
      · cases h
        exact ⟨.refl, by simp [redoOf]⟩
      · obtain ⟨basicMap, -, h⟩ := Exits.bind_eq_ok.mp h
        split at h
        · obtain ⟨m₁, hbinds, hm₁⟩ := Exits.bind_eq_ok.mp h
          cases hm₁
          exact ⟨outputs_of_queueBinds hbinds, by simp [redoOf]⟩
        · cases h
          exact ⟨.single (.queue _ _ _), by simp [redoOf]⟩
        · cases h
          exact ⟨.refl, by simp [redoOf]⟩
  | bind b =>
      obtain ⟨m₁, hbinds, hm₁⟩ := Exits.bind_eq_ok.mp h
      cases hm₁
      exact ⟨outputs_of_queueBinds hbinds, by simp [redoOf]⟩

theorem runOutputs_spec {outputs : List StateMachineOutputEvent} {done : List InputEvent}
    (h : outputs.foldlM (runOutput env H prevEvent) (m, done) = .ok (m', redo)) :
    Outputs env m m' ∧ redo = done ++ outputs.filterMap (redoOf prevEvent) := by
  induction outputs generalizing m done with
  | nil =>
      cases h
      exact ⟨.refl, by simp⟩
  | cons output outputs ih =>
      obtain ⟨⟨m₁, done₁⟩, houtput, hrest⟩ := Exits.foldlM_cons_eq_ok.mp h
      obtain ⟨hm₁, rfl⟩ := runOutput_spec houtput
      obtain ⟨hm', rfl⟩ := ih hrest
      refine ⟨hm₁.trans hm', ?_⟩
      cases hredo : redoOf prevEvent output <;> simp [hredo]

theorem fire_spec (h : m.fire env H transition prevEvent = .ok (m', redo)) :
    Outputs env (m.enter env transition prevEvent) m' ∧
      redo = transition.outputs.filterMap (redoOf prevEvent) := by
  simpa using runOutputs_spec h

theorem acts_of_fire (h : m.fire env H transition prevEvent = .ok (m', redo)) :
    Acts env H (m.enter env transition prevEvent) m' :=
  (fire_spec h).1.acts

theorem acts_of_react (h : m.react env H e = .ok (m', redo)) : Acts env H m m' := by
  unfold react at h
  split at h
  · cases h
    exact .single (.bypass m e)
  · obtain ⟨state, hstate, h⟩ := Exits.bind_eq_ok.mp h
    exact (acts_of_fire h).head (.input hstate e)

theorem acts_of_feeds {es : List InputEvent} (h : Refeed.Feeds (react env H) m es m') :
    Acts env H m m' := by
  induction h with
  | nil => exact .refl
  | cons hstep _ ih => exact (acts_of_react hstep).trans ih

theorem feeds_of_processInput (h : m.processInput env H fuel e = .ok m') :
    Refeed.Feeds (react env H) m [e] m' := by
  rw [processInput_eq_run] at h
  exact Refeed.feeds_of_run h

theorem feeds_of_foldlM_processInput {es : List InputEvent}
    (h : es.foldlM (processInput env H fuel) m = .ok m') :
    Refeed.Feeds (react env H) m es m' := by
  rw [processInput_eq_run] at h
  exact Refeed.feeds_of_foldlM Refeed.feeds_of_run h

theorem not_expired_of_none (h : m.currentTimer = none) : ¬ m.Expired env := by
  rintro ⟨d, hd, -⟩
  rw [h] at hd
  cases hd

theorem checkTimer_of_not_expired {state : State} (hstate : m.curState = .ok state)
    (h : ¬ m.Expired env) : m.checkTimer env H fuel = .ok (m.checked env) := by
  have hany : m.currentTimer.any (· ≤ env.clock m.instant) = false := by
    rw [Bool.eq_false_iff]
    simpa [Expired, Option.any_eq_true] using h
  simp only [checkTimer, hstate, Exits.ok_bind, hany]
  cases state.timerTransition <;> rfl

theorem checkTimer_of_expired {state : State} (hstate : m.curState = .ok state)
    (ht : state.timerTransition = some transition) (h : m.Expired env)
    (hfire : (m.checked env).fire env H transition none = .ok (m', [])) :
    m.checkTimer env H fuel = .ok m' := by
  have hany : m.currentTimer.any (· ≤ env.clock m.instant) = true := by
    simpa [Expired, Option.any_eq_true] using h
  rw [checked] at hfire
  simp [checkTimer, hstate, ht, hany, applyTransition, hfire]

theorem processInput_of_fire {state : State} (hpaused : m.paused = false)
    (hstate : m.curState = .ok state)
    (hfire : m.fire env H (transitionFor H state e) (some e) = .ok (m', [])) :
    m.processInput env H (fuel + 1) e = .ok m' := by
  simp [processInput, hpaused, hstate, applyTransition, hfire]

/-- What a check of the timer does: nothing, or the transition of the timer
and the events it asks for. -/
theorem checkTimer_cases (h : m.checkTimer env H fuel = .ok m') :
    ∃ state, m.curState = .ok state ∧
      ((m.Expired env → state.timerTransition = none) ∧ m' = m.checked env ∨
        ∃ transition m₁ redo, m.Expired env ∧ state.timerTransition = some transition ∧
          (m.checked env).fire env H transition none = .ok (m₁, redo) ∧
          redo.foldlM (processInput env H fuel) m₁ = .ok m') := by
  obtain ⟨state, hstate, h⟩ := Exits.bind_eq_ok.mp h
  refine ⟨state, hstate, ?_⟩
  have hexpired : m.currentTimer.any (· ≤ env.clock m.instant) = true ↔ m.Expired env := by
    simp [Expired, Option.any_eq_true]
  cases ht : state.timerTransition with
  | none =>
      simp only [ht] at h
      cases h
      exact .inl ⟨fun _ ↦ rfl, rfl⟩
  | some transition =>
      simp only [ht] at h
      split at h
      · rename_i hany
        obtain ⟨⟨m₁, redo⟩, hfire, hredo⟩ := Exits.bind_eq_ok.mp h
        exact .inr ⟨transition, m₁, redo, hexpired.mp hany, rfl, hfire, hredo⟩
      · rename_i hany
        cases h
        exact .inl ⟨fun hexp ↦ (hany (hexpired.mpr hexp)).elim, rfl⟩

theorem acts_of_checkTimer (h : m.checkTimer env H fuel = .ok m') : Acts env H m m' := by
  obtain ⟨state, hstate, ⟨hquiet, rfl⟩ | ⟨transition, m₁, redo, hexpired, ht, hfire, hredo⟩⟩ :=
    checkTimer_cases h
  · exact .single (.quiet hstate hquiet)
  · have hfired := (acts_of_fire hfire).head (.expire hstate ht hexpired)
    exact hfired.trans (acts_of_feeds (feeds_of_foldlM_processInput hredo))

theorem loopBody_cases {keyOpt : Option InputEvent}
    (h : m.loopBody env H fuel keyOpt = .ok m') :
    ∃ m₁, m.checkTimer env H fuel = .ok m₁ ∧ Acts env H m₁ m' := by
  obtain ⟨m₁, htimer, h⟩ := Exits.bind_eq_ok.mp h
  refine ⟨m₁, htimer, ?_⟩
  cases keyOpt with
  | none =>
      cases h
      exact .single (.emit m₁)
  | some e =>
      obtain ⟨m₂, hinput, h⟩ := Exits.bind_eq_ok.mp h
      cases h
      have hm₂ := (acts_of_feeds (feeds_of_processInput hinput)).head (.count m₁ e)
      exact (hm₂.tail (.processed m₂)).tail (.emit _)

theorem acts_of_loopBody {keyOpt : Option InputEvent}
    (h : m.loopBody env H fuel keyOpt = .ok m') : Acts env H m m' := by
  obtain ⟨m₁, htimer, hrest⟩ := loopBody_cases h
  exact (acts_of_checkTimer htimer).trans hrest

end

/-! ## Whole runs -/

/-- The iterations of the loop on the given results of `wait_key`. -/
def iterate (env : Env) (H : QHash) (fuel : ℕ) (m : Mapper)
    (keys : List (Option InputEvent)) : Except Exit Mapper :=
  keys.foldlM (loopBody env H fuel) m

/-- What outputs leave as it was, unless they change the layer. -/
structure Kept (m m' : Mapper) : Prop where
  profile_eq : m'.profile = m.profile
  states_eq : m'.states = m.states
  basicMaps_eq : m'.basicMaps = m.basicMaps
  paused_eq : m'.paused = m.paused
  callback_eq : m'.layerChangedCallback = m.layerChangedCallback
  sent_eq : m'.sent = m.sent
  position : m'.curLayerIdx = m.curLayerIdx ∧ m'.curStateIdx = m.curStateIdx ∧
      m'.currentTimer = m.currentTimer ∨
    m'.curStateIdx = homeStateIdx ∧ m'.currentTimer = none

theorem Kept.refl (m : Mapper) : Kept m m :=
  ⟨rfl, rfl, rfl, rfl, rfl, rfl, .inl ⟨rfl, rfl, rfl⟩⟩

theorem Kept.trans {m m' m'' : Mapper} (h : Kept m m') (h' : Kept m' m'') : Kept m m'' where
  profile_eq := h'.profile_eq.trans h.profile_eq
  states_eq := h'.states_eq.trans h.states_eq
  basicMaps_eq := h'.basicMaps_eq.trans h.basicMaps_eq
  paused_eq := h'.paused_eq.trans h.paused_eq
  callback_eq := h'.callback_eq.trans h.callback_eq
  sent_eq := h'.sent_eq.trans h.sent_eq
  position := by
    rcases h'.position with ⟨hlayer, hstate, htimer⟩ | hhome
    · rw [hlayer, hstate, htimer]
      exact h.position
    · exact .inr hhome

/-- Everything `set_layer_inner` changes. -/
theorem setLayerInner_spec {m m' : Mapper} {newLayer : ℕ} (h : m.setLayerInner newLayer = .ok m') :
    ∃ announced, m' = { m with
      curLayerIdx := newLayer
      curStateIdx := homeStateIdx
      currentTimer := none
      announced
      history := m.history ++ [.layerSet newLayer] } := by
  unfold setLayerInner at h
  simp only at h
  split at h
  · obtain ⟨layer, -, h⟩ := Exits.bind_eq_ok.mp h
    cases h
    exact ⟨_, rfl⟩
  · cases h
    exact ⟨_, rfl⟩

theorem setLayerInner_of_lt {m : Mapper} {newLayer : ℕ} (h : newLayer < m.profile.layers.length) :
    ∃ m', m.setLayerInner newLayer = .ok m' := by
  unfold setLayerInner
  simp only [vectorAt, List.getElem?_eq_getElem h, Exits.ok_bind]
  split <;> exact ⟨_, rfl⟩

theorem kept_of_setLayerInner {m m' : Mapper} {newLayer : ℕ}
    (h : m.setLayerInner newLayer = .ok m') : Kept m m' := by
  obtain ⟨announced, rfl⟩ := setLayerInner_spec h
  exact ⟨rfl, rfl, rfl, rfl, rfl, rfl, .inr ⟨rfl, rfl⟩⟩

theorem Outputs.kept {env : Env} {m m' : Mapper} (h : Outputs env m m') : Kept m m' := by
  induction h with
  | refl => exact .refl m
  | tail _ hact ih =>
      refine ih.trans ?_
      cases hact with
      | queue => exact ⟨rfl, rfl, rfl, rfl, rfl, rfl, .inl ⟨rfl, rfl, rfl⟩⟩
      | swap hswap => exact kept_of_setLayerInner hswap

/-- What the loop never changes. -/
structure SameMachines (m m' : Mapper) : Prop where
  profile_eq : m'.profile = m.profile
  states_eq : m'.states = m.states
  basicMaps_eq : m'.basicMaps = m.basicMaps
  paused_eq : m'.paused = m.paused

theorem Kept.sameMachines {m m' : Mapper} (h : Kept m m') : SameMachines m m' :=
  ⟨h.profile_eq, h.states_eq, h.basicMaps_eq, h.paused_eq⟩

@[simp] theorem history_checkQueuedEvents (env : Env) (m : Mapper) :
    (m.checkQueuedEvents env).history = m.history := by
  unfold checkQueuedEvents
  split <;> rfl

/-- Only what a machine does not depend on has changed. -/
structure SameStage (m m' : Mapper) : Prop extends SameMachines m m' where
  layer_eq : m'.curLayerIdx = m.curLayerIdx
  state_eq : m'.curStateIdx = m.curStateIdx
  timer_eq : m'.currentTimer = m.currentTimer
  history_eq : m'.history = m.history

theorem sameStage_checkQueuedEvents (env : Env) (m : Mapper) :
    m.SameStage (m.checkQueuedEvents env) := by
  unfold checkQueuedEvents
  split <;> exact ⟨⟨rfl, rfl, rfl, rfl⟩, rfl, rfl, rfl, rfl⟩

theorem sameStage_countKey (env : Env) (m : Mapper) (e : InputEvent) :
    m.SameStage (m.countKey env e) := by
  unfold countKey
  split
  · split <;> exact ⟨⟨rfl, rfl, rfl, rfl⟩, rfl, rfl, rfl, rfl⟩
  · exact ⟨⟨rfl, rfl, rfl, rfl⟩, rfl, rfl, rfl, rfl⟩

theorem Act.sameMachines {env : Env} {H : QHash} {m m' : Mapper} (h : Act env H m m') :
    SameMachines m m' := by
  cases h with
  | output hact => exact (Outputs.kept (.single hact)).sameMachines
  | input => exact ⟨rfl, rfl, rfl, rfl⟩
  | expire => exact ⟨rfl, rfl, rfl, rfl⟩
  | quiet => exact ⟨rfl, rfl, rfl, rfl⟩
  | emit => exact (sameStage_checkQueuedEvents env m).toSameMachines
  | bypass e => cases e <;> exact ⟨rfl, rfl, rfl, rfl⟩
  | count e => exact (sameStage_countKey env m e).toSameMachines
  | processed => exact ⟨rfl, rfl, rfl, rfl⟩

theorem Acts.sameMachines {env : Env} {H : QHash} {m m' : Mapper} (h : Acts env H m m') :
    SameMachines m m' := by
  induction h with
  | refl => exact ⟨rfl, rfl, rfl, rfl⟩
  | tail _ hact ih =>
      have h := hact.sameMachines
      exact ⟨h.profile_eq.trans ih.profile_eq, h.states_eq.trans ih.states_eq,
        h.basicMaps_eq.trans ih.basicMaps_eq, h.paused_eq.trans ih.paused_eq⟩

theorem Act.history_le {env : Env} {H : QHash} {m m' : Mapper} (h : Act env H m m') :
    m.history <+: m'.history := by
  cases h with
  | output hact =>
      cases hact with
      | queue => exact List.prefix_append _ _
      | swap hset =>
          obtain ⟨announced, rfl⟩ := setLayerInner_spec hset
          exact List.prefix_append _ _
  | input => exact List.prefix_append _ _
  | expire => exact (List.prefix_append _ _).trans (List.prefix_append _ _)
  | quiet => exact List.prefix_append _ _
  | emit => rw [history_checkQueuedEvents]
  | bypass e => cases e <;> exact List.prefix_rfl
  | count e => rw [(sameStage_countKey env m e).history_eq]
  | processed => exact List.prefix_rfl

theorem Acts.history_le {env : Env} {H : QHash} {m m' : Mapper} (h : Acts env H m m') :
    m.history <+: m'.history := by
  induction h with
  | refl => exact List.prefix_rfl
  | tail _ hact ih => exact ih.trans hact.history_le

theorem acts_of_iterate {env : Env} {H : QHash} {fuel : ℕ} {m m' : Mapper}
    {keys : List (Option InputEvent)} (h : m.iterate env H fuel keys = .ok m') :
    Acts env H m m' :=
  Exits.foldlM_keeps (P := fun m₁ ↦ Acts env H m m₁)
    (fun _ hm₁ hstep ↦ hm₁.trans (acts_of_loopBody hstep)) h .refl

/-- What has happened between two states of a run. -/
def since (m m' : Mapper) : List Moment := m'.history.drop m.history.length

theorem mem_since_left {m m₁ m' : Mapper} {moment : Moment} (h : m.history <+: m₁.history)
    (h' : m₁.history <+: m'.history) (hmoment : moment ∈ m.since m₁) : moment ∈ m.since m' := by
  obtain ⟨first, hfirst⟩ := h
  obtain ⟨second, hsecond⟩ := h'
  simp only [since, ← hsecond, ← hfirst, List.append_assoc, List.drop_left'] at hmoment ⊢
  exact List.mem_append_left _ hmoment

theorem mem_since_right {m m₁ m' : Mapper} {moment : Moment} (h : m.history <+: m₁.history)
    (h' : m₁.history <+: m'.history) (hmoment : moment ∈ m₁.since m') : moment ∈ m.since m' := by
  obtain ⟨first, hfirst⟩ := h
  obtain ⟨second, hsecond⟩ := h'
  simp only [since, ← hsecond, List.drop_left'] at hmoment
  simp only [since, ← hsecond, ← hfirst, List.append_assoc, List.drop_left']
  exact List.mem_append_right _ hmoment

/-! ## The events a transition asks for -/

section

variable {prevEvent : Option InputEvent}

/-- The events that `apply_transition` collects. -/
def redos (prevEvent : Option InputEvent) (transition : Transition) : List InputEvent :=
  transition.outputs.filterMap (redoOf prevEvent)

theorem redos_edge (idx : Place → ℕ) (x : Placement) : redos prevEvent (x.transition idx) = [] := by
  rw [redos, List.filterMap_eq_nil_iff]
  intro output houtput
  simp only [Placement.transition, newTransition, List.mem_append] at houtput
  rcases houtput with h | h
  · split at h
    · rw [List.mem_singleton.mp h]
      rfl
    · simp at h
  · split at h
    · obtain ⟨b, -, rfl⟩ := List.mem_map.mp h
      rfl
    · simp at h

theorem redos_heldOutputs (read : List AdvancedTrigger) :
    (heldOutputs read).filterMap (redoOf prevEvent) = inputsOf read.tail := by
  cases read with
  | nil => rfl
  | cons trigger rest =>
      rw [heldOutputs_cons, List.filterMap_append, List.filterMap_map]
      cases trigger.triggerToInput <;> simp [redoOf, Function.comp_def]

theorem redos_newFallback (behavior : SequenceBehavior) (read : List AdvancedTrigger) :
    redos prevEvent (newFallback behavior read) =
      if behavior = .default then inputsOf read.tail else [] := by
  rw [redos, newFallback, List.filterMap_append]
  split
  · rw [redos_heldOutputs]
    simp [redoOf]
  · simp [redoOf]

end

end Mapper

end Keybinder

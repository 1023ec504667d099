import Keybinder.BasicLayers
import Keybinder.Responses
import Keybinder.WellFormed

/-!
# Interpreting a profile

The interpreter follows a profile as it is written.  Its state is the place
that has been reached in the current layer, and what an event or a timer does
is read off the sequences every time; nothing is compiled.  The mapper, which
follows the machines that were generated from the profile, shows the same to
its surroundings.
-/

namespace Keybinder

/-- The place is lost when a transition left the next state open. -/
structure Interpreter where
  layers : List Layer := []
  curLayerIdx : ℕ := 0
  place : Option Place := some []
  currentTimer : Option ℕ := none
  queuedEvents : List (ℕ × OutputEvent) := []
  stopped : Bool := false
  paused : Bool := false
  layerChangedCallback : Bool
  instant : ℕ := 0
  sent : List (List OutputEvent) := []
  counted : List KeyCode := []
  announced : List String := []
  deriving DecidableEq

namespace Interpreter

def setLayerInner (i : Interpreter) (newLayer : ℕ) : Except Exit Interpreter :=
  let i : Interpreter := { i with curLayerIdx := newLayer, place := some [], currentTimer := none }
  if i.layerChangedCallback then do
    let layer ← vectorAt i.layers newLayer
    return { i with announced := i.announced ++ [layer.layerName] }
  else
    return i

def setLayer (i : Interpreter) (newLayer : ℕ) : Except Exit Interpreter :=
  if i.layers.length ≤ newLayer then return i else i.setLayerInner newLayer

/-- A profile with a layer that is not well formed is ignored. -/
def setProfile (i : Interpreter) (p : Profile) : Except Exit Interpreter :=
  if ∀ layer ∈ p.layers, layer.WellFormed then
    setLayerInner { i with layers := p.layers } p.defaultLayer
  else return i

def new (p : Profile) (layerChangedCallback : Bool) : Except Exit Interpreter :=
  setProfile { layerChangedCallback } p

section

variable (env : Env) (H : QHash)

def queueOutput (i : Interpreter) (e : OutputEvent) (delay : ℕ) : Interpreter :=
  { i with
    queuedEvents := i.queuedEvents ++ [(addU64 (env.clock i.instant) delay, e)]
    instant := i.instant + 1 }

def queueBind : Interpreter × ℕ → Bind → Except Exit (Interpreter × ℕ)
  | (i, delayMs), .pressKey keyCode =>
      return (i.queueOutput env (.key ⟨keyCode, .press⟩) delayMs, delayMs)
  | (i, delayMs), .releaseKey keyCode =>
      return (i.queueOutput env (.key ⟨keyCode, .release⟩) delayMs, delayMs)
  | (i, delayMs), .swapLayer newLayer => do
      let i ← i.setLayerInner newLayer
      return (i, delayMs)
  | (i, delayMs), .wait ms => return (i, addU64 delayMs ms)
  | (i, delayMs), .runScript s => return (i.queueOutput env (.script s) delayMs, delayMs)

def queueBinds (i : Interpreter) (binds : List Bind) : Except Exit Interpreter := do
  let (i, _) ← binds.foldlM (queueBind env) (i, 0)
  return i

/-- An event is translated by the basic triggers of the layer. -/
def translate (i : Interpreter) (e : InputEvent) : Except Exit Interpreter := do
  let layer ← vectorAt i.layers i.curLayerIdx
  match H.find layer.basicMap e, e with
  | some binds, _ => i.queueBinds env binds
  | none, .key keyEvent => return i.queueOutput env (.key keyEvent) 0
  | none, .app _ => return i

def runOutput (prevEvent : Option InputEvent) :
    Interpreter × List InputEvent → StateMachineOutputEvent →
      Except Exit (Interpreter × List InputEvent)
  | (i, redo), .proccessInput event => return (i, redo ++ (event <|> prevEvent).toList)
  | (i, redo), .basicTranlation event =>
      match event <|> prevEvent with
      | none => return (i, redo)
      | some e => do
          let i ← i.translate env H e
          return (i, redo)
  | (i, redo), .bind b => do
      let i ← i.queueBinds env [b]
      return (i, redo)

def respond (i : Interpreter) (response : Response) (prevEvent : Option InputEvent) :
    Except Exit (Interpreter × List InputEvent) :=
  let i : Interpreter := { i with
    place := response.place
    currentTimer := response.timerMs.map fun ms ↦ addU64 ms (env.clock i.instant)
    instant := i.instant + 1 }
  response.outputs.foldlM (runOutput env H prevEvent) (i, [])

/-- Where a lost place is asked for, the interpretation ends. -/
def position (i : Interpreter) : Except Exit (Layer × Place) := do
  let layer ← vectorAt i.layers i.curLayerIdx
  match i.place with
  | some p => return (layer, p)
  | none => throw .unassigned

def bypass (i : Interpreter) : InputEvent → Interpreter
  | .key e => { i with sent := i.sent ++ [[.key e]] }
  | .app _ => i

def react (i : Interpreter) (e : InputEvent) : Except Exit (Interpreter × List InputEvent) :=
  if i.paused then
    return (i.bypass e, [])
  else do
    let (layer, p) ← i.position
    i.respond env H (layer.reactTo p H e) (some e)

def processInput (fuel : ℕ) : Interpreter → InputEvent → Except Exit Interpreter :=
  Refeed.run (react env H) .outOfFuel fuel

def checkTimer (fuel : ℕ) (i : Interpreter) : Except Exit Interpreter := do
  let (layer, p) ← i.position
  let expired := i.currentTimer.any (· ≤ env.clock i.instant)
  let i : Interpreter := { i with instant := i.instant + 1 }
  match layer.timeout p with
  | some response =>
      if expired then do
        let (i, redo) ← i.respond env H response none
        redo.foldlM (processInput env H fuel) i
      else return i
  | none => return i

def countKey (i : Interpreter) : InputEvent → Interpreter
  | .key ⟨keycode, .press⟩ =>
      if env.logKeyFrequency i.instant then { i with counted := i.counted ++ [keycode] } else i
  | _ => i

def checkQueuedEvents (i : Interpreter) : Interpreter :=
  if i.queuedEvents.isEmpty then i
  else
    let curTime := env.clock i.instant
    let (waiting, ready) := TwoPointer.partition (fun p ↦ curTime < p.1) i.queuedEvents
    { i with
      queuedEvents := waiting
      sent := if ready.isEmpty then i.sent else i.sent ++ [ready.map Prod.snd]
      instant := i.instant + 1 }

def loopBody (fuel : ℕ) (i : Interpreter) (keyOpt : Option InputEvent) :
    Except Exit Interpreter := do
  let i ← i.checkTimer env H fuel
  match keyOpt with
  | none => return i.checkQueuedEvents env
  | some e => do
      let i ← processInput env H fuel (i.countKey env e) e
      return i.checkQueuedEvents env

def operate (fuel : ℕ) (i : Interpreter) : Operation → Except Exit Interpreter
  | .setProfile p => i.setProfile p
  | .setLayer newLayer => i.setLayer newLayer
  | .pause => return { i with paused := true, queuedEvents := [], currentTimer := none }
  | .resume => return { i with paused := false }
  | .stop => return { i with stopped := true }
  | .iteration keyOpt => i.loopBody env H fuel keyOpt

end

/-- The interpreter that shows what the mapper shows. -/
def of (layers : List Layer) (place : Option Place) (m : Mapper) : Interpreter where
  layers := layers
  curLayerIdx := m.curLayerIdx
  place := place
  currentTimer := m.currentTimer
  queuedEvents := m.queuedEvents
  stopped := m.stopped
  paused := m.paused
  layerChangedCallback := m.layerChangedCallback
  instant := m.instant
  sent := m.sent
  counted := m.counted
  announced := m.announced

/-- The interpreter shows to its surroundings what the mapper shows: they
agree in everything but the layers and the place. -/
def Shows (i : Interpreter) (m : Mapper) : Prop := i = .of i.layers i.place m

end Interpreter

/-! ## The mapper interprets -/

namespace Mapper

/-- The machine of a layer was generated for it, and the layer keeps its
triggers apart. -/
structure Generated (H : QHash) (layer : Layer) (states : List State) : Prop where
  generated : generateStates H layer = .ok states
  separated : layer.Separated

/-- The mapper is where the interpreter is: the current state is the state
of the place, if there is one. -/
inductive Interprets (H : QHash) (m : Mapper) : Interpreter → Prop
  | mk {place : Option Place}
      (machines : ∀ L : ℕ, Option.Rel (Generated H) m.profile.layers[L]? m.states[L]?)
      (maps : m.basicMaps = m.profile.layers.map Layer.basicMap)
      (position : ∀ p, place = some p → ∀ layer states,
        m.profile.layers[m.curLayerIdx]? = some layer → m.states[m.curLayerIdx]? = some states →
        ∀ M : StraightMachine H layer states, M.places[m.curStateIdx]? = some p) :
      Interprets H m (.of m.profile.layers place m)

namespace Interprets

variable {env : Env} {H : QHash} {i : Interpreter} {m : Mapper} {fuel : ℕ}

theorem ok (h : m.Interprets H i) :
    Exits.RelatedUnless Exit.unassigned (fun i m ↦ m.Interprets H i) (Except.ok i)
      (Except.ok m) :=
  .inr (.ok h)

theorem queueOutput (h : m.Interprets H i) (e : OutputEvent) (delay : ℕ) :
    (m.queueOutput env e delay).Interprets H (i.queueOutput env e delay) := by
  obtain ⟨machines, maps, position⟩ := h
  exact .mk machines maps position

/-- A change of layer starts at HOME, wherever the mapper was. -/
theorem setLayerInner_of_machines (place : Option Place)
    (machines : ∀ L : ℕ, Option.Rel (Generated H) m.profile.layers[L]? m.states[L]?)
    (maps : m.basicMaps = m.profile.layers.map Layer.basicMap) (newLayer : ℕ) :
    Exits.Related (fun i m ↦ m.Interprets H i)
      ((Interpreter.of m.profile.layers place m).setLayerInner newLayer)
      (m.setLayerInner newLayer) := by
  have hhome : ∀ p, some ([] : Place) = some p → ∀ layer states,
      m.profile.layers[newLayer]? = some layer → m.states[newLayer]? = some states →
      ∀ M : StraightMachine H layer states, M.places[homeStateIdx]? = some p := by
    rintro p hp layer states - - M
    rw [← Option.some.inj hp]
    exact M.home_place
  unfold Mapper.setLayerInner Interpreter.setLayerInner Interpreter.of
  dsimp only
  cases m.layerChangedCallback with
  | false => exact .ok (.mk machines maps hhome)
  | true =>
      simp only [if_true]
      cases vectorAt m.profile.layers newLayer with
      | error x => exact .error x
      | ok layer => exact .ok (.mk machines maps hhome)

theorem setLayerInner (h : m.Interprets H i) (newLayer : ℕ) :
    Exits.Related (fun i m ↦ m.Interprets H i) (i.setLayerInner newLayer)
      (m.setLayerInner newLayer) := by
  obtain ⟨machines, maps, -⟩ := h
  exact setLayerInner_of_machines _ machines maps newLayer

theorem queueBinds (h : m.Interprets H i) (binds : List Bind) :
    Exits.Related (fun i m ↦ m.Interprets H i) (i.queueBinds env binds) (m.queueBinds env binds) := by
  have hfold : Exits.Related (fun c c' ↦ c'.1.Interprets H c.1 ∧ c.2 = c'.2)
      (binds.foldlM (Interpreter.queueBind env) (i, 0)) (binds.foldlM (queueBind env) (m, 0)) := by
    refine Exits.Related.foldlM (R := fun b b' : Bind ↦ b = b') ?_
      (List.forall₂_same.mpr fun _ _ ↦ rfl) ⟨h, rfl⟩
    rintro ⟨i₁, delay⟩ ⟨m₁, delay'⟩ b _ ⟨hm₁, rfl⟩ rfl
    cases b with
    | pressKey keyCode => exact .ok ⟨hm₁.queueOutput _ _, rfl⟩
    | releaseKey keyCode => exact .ok ⟨hm₁.queueOutput _ _, rfl⟩
    | swapLayer newLayer => exact (hm₁.setLayerInner newLayer).bind fun _ _ hm₂ ↦ .ok ⟨hm₂, rfl⟩
    | wait ms => exact .ok ⟨hm₁, rfl⟩
    | runScript s => exact .ok ⟨hm₁.queueOutput _ _, rfl⟩
  exact hfold.bind fun _ _ hc ↦ .ok hc.1

theorem runOutput (h : m.Interprets H i) (prevEvent : Option InputEvent) (redo : List InputEvent)
    (output : StateMachineOutputEvent) :
    Exits.Related (fun c c' ↦ c'.1.Interprets H c.1 ∧ c.2 = c'.2)
      (Interpreter.runOutput env H prevEvent (i, redo) output)
      (Mapper.runOutput env H prevEvent (m, redo) output) := by
  cases output with
  | proccessInput event => exact .ok ⟨h, rfl⟩
  | basicTranlation event =>
      simp only [Mapper.runOutput, Interpreter.runOutput]
      cases event <|> prevEvent with
      | none => exact .ok ⟨h, rfl⟩
      | some e =>
          have hmap : Exits.Related (fun layer basicMap ↦ basicMap = layer.basicMap)
              (vectorAt i.layers i.curLayerIdx) (vectorAt m.basicMaps m.curLayerIdx) := by
            obtain ⟨-, maps, -⟩ := h
            rw [maps]
            simp only [vectorAt, Interpreter.of, List.getElem?_map]
            cases m.profile.layers[m.curLayerIdx]? with
            | none => exact .error _
            | some layer => exact .ok rfl
          simp only [Interpreter.translate, bind_assoc]
          refine hmap.bind ?_
          rintro layer _ rfl
          cases H.find layer.basicMap e with
          | some binds => exact (h.queueBinds binds).bind fun _ _ hm ↦ .ok ⟨hm, rfl⟩
          | none =>
              cases e with
              | key keyEvent => exact .ok ⟨h.queueOutput _ _, rfl⟩
              | app appName => exact .ok ⟨h, rfl⟩
  | bind b => exact (h.queueBinds [b]).bind fun _ _ hm ↦ .ok ⟨hm, rfl⟩

/-- A transition that renders a response does what the interpreter does. -/
theorem respond (h : m.Interprets H i) {layer : Layer} {states : List State}
    (hlayer : m.profile.layers[m.curLayerIdx]? = some layer)
    (hstates : m.states[m.curLayerIdx]? = some states) {response : Response}
    {transition : Transition}
    (ht : ∀ M : StraightMachine H layer states, response.Renders M.places transition)
    (prevEvent : Option InputEvent) :
    Exits.Related (fun c c' ↦ c'.1.Interprets H c.1 ∧ c.2 = c'.2)
      (i.respond env H response prevEvent) (m.fire env H transition prevEvent) := by
  obtain ⟨machines, maps, position⟩ := h
  have hgenerated := machines m.curLayerIdx
  rw [hlayer, hstates, Option.rel_some_some] at hgenerated
  obtain ⟨M⟩ := exists_straightMachine hgenerated.generated hgenerated.separated.keptApart
  unfold Interpreter.respond Mapper.fire
  rw [(ht M).outputs_eq]
  refine Exits.Related.foldlM (R := fun o o' : StateMachineOutputEvent ↦ o = o') ?_
    (List.forall₂_same.mpr fun _ _ ↦ rfl) ?_
  · rintro ⟨i₁, redo⟩ ⟨m₁, redo'⟩ output _ ⟨hm₁, rfl⟩ rfl
    exact hm₁.runOutput prevEvent redo output
  · refine ⟨?_, rfl⟩
    have hposition : ∀ p, response.place = some p → ∀ layer' states',
        m.profile.layers[m.curLayerIdx]? = some layer' →
        m.states[m.curLayerIdx]? = some states' → ∀ M : StraightMachine H layer' states',
          M.places[transition.newState.getD (env.unassigned m.instant)]? = some p := by
      intro p hp layer' states' hlayer' hstates' M
      obtain rfl : layer = layer' := Option.some.inj (hlayer.symm.trans hlayer')
      obtain rfl : states = states' := Option.some.inj (hstates.symm.trans hstates')
      have hplace := (ht M).place_rel
      rw [hp] at hplace
      generalize transition.newState = newState at hplace
      cases hplace with
      | some hn => exact hn
    simp only [enter, (ht M).timerMs_eq]
    exact .mk machines maps hposition

/-- The current state is the state of the place in the current layer. -/
def At (H : QHash) (m : Mapper) (c : Layer × Place) (state : State) : Prop :=
  ∃ states, m.profile.layers[m.curLayerIdx]? = some c.1 ∧
    m.states[m.curLayerIdx]? = some states ∧ states[m.curStateIdx]? = some state ∧
    ∀ M : StraightMachine H c.1 states, M.places[m.curStateIdx]? = some c.2

theorem position (h : m.Interprets H i) :
    Exits.RelatedUnless .unassigned (At H m) i.position m.curState := by
  obtain @⟨place, machines, maps, position⟩ := h
  unfold Interpreter.position Mapper.curState vectorAt Interpreter.of
  dsimp only
  have hmachine := machines m.curLayerIdx
  generalize hlayer : m.profile.layers[m.curLayerIdx]? = layer,
    hstates : m.states[m.curLayerIdx]? = states at hmachine ⊢
  cases hmachine with
  | none => exact .inr (.error _)
  | @some layer states hgenerated =>
      cases place with
      | none => exact .inl rfl
      | some p =>
          obtain ⟨M⟩ := exists_straightMachine hgenerated.generated hgenerated.separated.keptApart
          have hplaces := position p rfl layer states hlayer hstates
          have hstate := M.represents.state (hplaces M)
          simp only [Exits.ok_bind, hstate]
          exact .inr (.ok ⟨states, hlayer, hstates, hstate, hplaces⟩)

theorem react (h : m.Interprets H i) (e : InputEvent) :
    Exits.RelatedUnless .unassigned (fun c c' ↦ c'.1.Interprets H c.1 ∧ c.2 = c'.2)
      (i.react env H e) (m.react env H e) := by
  have hpaused : i.paused = m.paused := by
    obtain ⟨-, -, -⟩ := h
    rfl
  unfold Interpreter.react Mapper.react
  rw [hpaused]
  split
  · refine .inr (.ok ⟨?_, rfl⟩)
    obtain ⟨machines, maps, position⟩ := h
    cases e with
    | key e => exact .mk machines maps position
    | app appName => exact .mk machines maps position
  · refine h.position.bind ?_
    rintro ⟨layer, p⟩ state ⟨states, hlayer, hstates, hstate, hplaces⟩
    exact (h.respond hlayer hstates (fun M ↦ M.input_renders (hplaces M) hstate e) (some e)).unless _

theorem processInput (h : m.Interprets H i) (e : InputEvent) :
    Exits.RelatedUnless .unassigned (fun i m ↦ m.Interprets H i)
      (i.processInput env H fuel e) (m.processInput env H fuel e) := by
  rw [processInput_eq_run, Interpreter.processInput]
  exact Refeed.run_relatedUnless (S := fun (i : Interpreter) (m : Mapper) ↦ m.Interprets H i)
    (fun e hs ↦ hs.react e) fuel h e

theorem processInputs (h : m.Interprets H i) (es : List InputEvent) :
    Exits.RelatedUnless .unassigned (fun i m ↦ m.Interprets H i)
      (es.foldlM (Interpreter.processInput env H fuel) i)
      (es.foldlM (Mapper.processInput env H fuel) m) := by
  refine Exits.RelatedUnless.foldlM (R := fun e e' : InputEvent ↦ e = e') ?_
    (List.forall₂_same.mpr fun _ _ ↦ rfl) h
  rintro i₁ m₁ e _ hm₁ rfl
  exact hm₁.processInput e

theorem checkTimer (h : m.Interprets H i) :
    Exits.RelatedUnless .unassigned (fun i m ↦ m.Interprets H i)
      (i.checkTimer env H fuel) (m.checkTimer env H fuel) := by
  refine h.position.bind ?_
  rintro ⟨layer, p⟩ state ⟨states, hlayer, hstates, hstate, hplaces⟩
  have hgenerated : Generated H layer states := by
    obtain ⟨machines, -, -⟩ := h
    have hmachine := machines m.curLayerIdx
    rwa [hlayer, hstates, Option.rel_some_some] at hmachine
  obtain ⟨M⟩ := exists_straightMachine hgenerated.generated hgenerated.separated.keptApart
  have hchecked : (m.checked env).Interprets H { i with instant := i.instant + 1 } := by
    obtain ⟨machines, maps, position⟩ := h
    exact .mk machines maps position
  have hexpired : i.currentTimer.any (· ≤ env.clock i.instant) =
      m.currentTimer.any (· ≤ env.clock m.instant) := by
    obtain ⟨-, -, -⟩ := h
    rfl
  have hrenders := fun M : StraightMachine H layer states ↦ M.timer_renders (hplaces M) hstate
  have hrel := hrenders M
  simp only [hexpired]
  generalize htimeout : layer.timeout p = response,
    htimer : state.timerTransition = transition at hrel hrenders ⊢
  cases hrel with
  | none => exact hchecked.ok
  | @some response transition =>
      cases m.currentTimer.any (· ≤ env.clock m.instant) with
      | false => exact hchecked.ok
      | true =>
          refine Exits.RelatedUnless.bind ((hchecked.respond hlayer hstates
            (fun M ↦ by simpa using hrenders M) none).unless _) ?_
          rintro ⟨i₁, redo⟩ ⟨m₁, redo'⟩ ⟨hm₁, rfl⟩
          exact hm₁.processInputs redo

theorem checkQueuedEvents (h : m.Interprets H i) :
    (m.checkQueuedEvents env).Interprets H (i.checkQueuedEvents env) := by
  obtain ⟨machines, maps, position⟩ := h
  unfold Mapper.checkQueuedEvents Interpreter.checkQueuedEvents Interpreter.of
  dsimp only
  split
  · exact .mk machines maps position
  · exact .mk machines maps position

theorem countKey (h : m.Interprets H i) (e : InputEvent) :
    (m.countKey env e).Interprets H (i.countKey env e) := by
  obtain ⟨machines, maps, position⟩ := h
  cases e with
  | app appName => exact .mk machines maps position
  | key e =>
      obtain ⟨keycode, type⟩ := e
      cases type with
      | release => exact .mk machines maps position
      | press =>
          unfold Mapper.countKey Interpreter.countKey Interpreter.of
          dsimp only
          split
          · exact .mk machines maps position
          · exact .mk machines maps position

theorem loopBody (h : m.Interprets H i) (keyOpt : Option InputEvent) :
    Exits.RelatedUnless .unassigned (fun i m ↦ m.Interprets H i)
      (i.loopBody env H fuel keyOpt) (m.loopBody env H fuel keyOpt) := by
  refine h.checkTimer.bind fun i₁ m₁ hm₁ ↦ ?_
  cases keyOpt with
  | none => exact hm₁.checkQueuedEvents.ok
  | some e =>
      refine ((hm₁.countKey e).processInput e).bind fun i₂ m₂ hm₂ ↦ ?_
      have hprocessed : { m₂ with processedEventsCount := m₂.processedEventsCount + 1 }.Interprets
          H i₂ := by
        obtain ⟨machines, maps, position⟩ := hm₂
        exact .mk machines maps position
      exact hprocessed.checkQueuedEvents.ok

end Interprets

/-- The interpreter and the mapper between two operations: they follow the
same profile, or neither has been given one. -/
def Follows (H : QHash) (i : Interpreter) (m : Mapper) : Prop :=
  m.Interprets H i ∨ m.states = [] ∧ m.basicMaps = [] ∧ i = .of [] i.place m

theorem error_of_setLayerInner {m : Mapper} {newLayer : ℕ} {e : Exit}
    (h : m.setLayerInner newLayer = .error e) : e = .outOfRange := by
  unfold setLayerInner at h
  simp only at h
  split at h
  · rw [Exits.bind_eq_error] at h
    rcases h with h | ⟨layer, -, h⟩
    · unfold vectorAt at h
      split at h
      · cases h
      · exact (Except.error.inj h).symm
    · cases h
  · cases h

namespace Follows

variable {env : Env} {H : QHash} {i : Interpreter} {m : Mapper} {fuel : ℕ}

theorem of_interprets {x : Except Exit Interpreter} {y : Except Exit Mapper}
    (h : Exits.RelatedUnless .unassigned (fun i m ↦ m.Interprets H i) x y) :
    Exits.RelatedUnless .unassigned (Follows H) x y :=
  h.mono fun _ _ hm ↦ .inl hm

theorem shows (h : Follows H i m) : i.Shows m := by
  rcases h with h | ⟨-, -, h⟩
  · obtain ⟨-, -, -⟩ := h
    rfl
  · rw [h]
    rfl

/-- Both take over an accepted profile, and both ignore a rejected one. -/
theorem setProfile (h : Follows H i m) (env : Env) (fuel : ℕ) {p : Profile}
    (hsep : ∀ layer ∈ p.layers, layer.Separated) :
    Exits.Related (Follows H) (i.setProfile p) (m.operate env H fuel (.setProfile p)) := by
  have haccepted := p.accepted_iff H fun layer hlayer ↦ (hsep layer hlayer).keptApart
  unfold Interpreter.setProfile
  split
  · rename_i hwell
    obtain ⟨compiled, hcompiled⟩ := haccepted.mpr hwell
    have hset := Interprets.setLayerInner_of_machines (H := H) (m := { m with
        profile := p
        states := compiled.map Prod.snd
        basicMaps := compiled.map Prod.fst }) i.place ?_ ?_ p.defaultLayer
    · rw [h.shows]
      simp only [operate, Mapper.setProfile_eq, hcompiled]
      cases hresult : Mapper.setLayerInner { m with
        profile := p
        states := compiled.map Prod.snd
        basicMaps := compiled.map Prod.fst } p.defaultLayer with
      | ok m' =>
          rw [hresult] at hset
          exact hset.mono fun _ _ hm ↦ .inl hm
      | error e =>
          obtain rfl := error_of_setLayerInner hresult
          rw [hresult] at hset
          exact hset.mono fun _ _ hm ↦ .inl hm
    · intro L
      have hmachine := Exits.getElem?_of_mapM hcompiled L
      simp only [List.getElem?_map]
      generalize hlayer : p.layers[L]? = layer, compiled[L]? = c at hmachine
      cases hmachine with
      | none => exact .none
      | @some layer c hc =>
          exact .some ⟨(compileLayer_eq_ok hc).2, hsep layer (List.mem_of_getElem? hlayer)⟩
    · exact Exits.map_eq_map_of_mapM
        (fun layer c hc ↦ buildBasicMap_eq (compileLayer_eq_ok hc).1) hcompiled
  · rename_i hwell
    have hm : m.operate env H fuel (.setProfile p) = .ok m := by
      rcases setProfile_of_rejected (m := m) (mt haccepted.mp hwell) with hset | hset
      · simp [operate, hset]
      · simp [operate, hset]
    rw [hm]
    exact .ok h

theorem length_eq (h : Follows H i m) : i.layers.length = m.states.length := by
  rcases h with h | ⟨hstates, -, h⟩
  · obtain ⟨machines, -, -⟩ := h
    have hlt : ∀ L, L < m.profile.layers.length ↔ L < m.states.length := by
      intro L
      have hmachine := machines L
      rw [← not_iff_not, not_lt, not_lt, ← List.getElem?_eq_none_iff, ← List.getElem?_eq_none_iff]
      generalize m.profile.layers[L]? = layer, m.states[L]? = states at hmachine
      cases hmachine <;> simp
    have hlayers := hlt m.profile.layers.length
    have hstates := hlt m.states.length
    simp only [Interpreter.of]
    omega
  · rw [h, hstates]
    rfl

theorem operate (h : Follows H i m) {operation : Operation}
    (hsep : ∀ p, operation.profile? = some p → ∀ layer ∈ p.layers, layer.Separated) :
    Exits.RelatedUnless .unassigned (Follows H) (i.operate env H fuel operation)
      (m.operate env H fuel operation) := by
  cases operation with
  | setProfile p => exact (h.setProfile env fuel (hsep p rfl)).unless _
  | setLayer newLayer =>
      simp only [Interpreter.operate, Interpreter.setLayer, Mapper.operate, Mapper.setLayer,
        h.length_eq]
      split
      · exact (Exits.Related.ok h).unless _
      · rename_i hlt
        rcases h with h | ⟨hstates, -, -⟩
        · have hset := h.setLayerInner newLayer
          cases hresult : m.setLayerInner newLayer with
          | ok m' =>
              rw [hresult] at hset
              exact of_interprets (hset.unless _)
          | error e =>
              rw [hresult] at hset
              exact of_interprets (hset.unless _)
        · simp [hstates] at hlt
  | pause =>
      rcases h with ⟨machines, maps, position⟩ | ⟨hstates, hmaps, h⟩
      · exact (Exits.Related.ok (.inl (.mk machines maps position))).unless _
      · refine (Exits.Related.ok (.inr ⟨hstates, hmaps, ?_⟩)).unless _
        rw [h]
        rfl
  | resume =>
      rcases h with ⟨machines, maps, position⟩ | ⟨hstates, hmaps, h⟩
      · exact (Exits.Related.ok (.inl (.mk machines maps position))).unless _
      · refine (Exits.Related.ok (.inr ⟨hstates, hmaps, ?_⟩)).unless _
        rw [h]
        rfl
  | stop =>
      rcases h with ⟨machines, maps, position⟩ | ⟨hstates, hmaps, h⟩
      · exact (Exits.Related.ok (.inl (.mk machines maps position))).unless _
      · refine (Exits.Related.ok (.inr ⟨hstates, hmaps, ?_⟩)).unless _
        rw [h]
        rfl
  | iteration keyOpt =>
      rcases h with h | ⟨hstates, -, h⟩
      · exact of_interprets (h.loopBody keyOpt)
      · refine .inr ?_
        rw [h]
        simp only [Interpreter.operate, Mapper.operate, Interpreter.loopBody, Mapper.loopBody,
          Interpreter.checkTimer, Mapper.checkTimer, Interpreter.position, Mapper.curState, hstates]
        exact .error _

theorem operates (h : Follows H i m) {operations : List Operation}
    (hsep : ∀ p ∈ operations.filterMap Operation.profile?, ∀ layer ∈ p.layers, layer.Separated) :
    Exits.RelatedUnless .unassigned (Follows H)
      (operations.foldlM (Interpreter.operate env H fuel) i)
      (operations.foldlM (Mapper.operate env H fuel) m) := by
  have hall : ∀ operation ∈ operations, ∀ p, operation.profile? = some p →
      ∀ layer ∈ p.layers, layer.Separated :=
    fun operation hmem p hp ↦ hsep p (List.mem_filterMap.mpr ⟨operation, hmem, hp⟩)
  refine Exits.RelatedUnless.foldlM (R := fun o o' : Operation ↦ o = o' ∧ o ∈ operations) ?_
    (List.forall₂_same.mpr fun o ho ↦ ⟨rfl, ho⟩) h
  rintro i₁ m₁ operation _ hm₁ ⟨rfl, hmem⟩
  exact hm₁.operate (hall operation hmem)

theorem of_new {profile : Profile} {layerChangedCallback : Bool}
    (hsep : ∀ layer ∈ profile.layers, layer.Separated)
    (hnew : Mapper.new H profile layerChangedCallback = .ok m) :
    ∃ i, Interpreter.new profile layerChangedCallback = .ok i ∧ Follows H i m := by
  have hstart : Follows H { layerChangedCallback } { profile, layerChangedCallback } :=
    .inr ⟨rfl, rfl, rfl⟩
  have hset := hstart.setProfile .still 0 hsep
  rw [Mapper.new_eq] at hnew
  obtain ⟨⟨accepted, m'⟩, hresult, hm⟩ := Exits.bind_eq_ok.mp hnew
  cases hm
  rw [Mapper.operate, hresult] at hset
  exact hset.ok_right

end Follows

/-- A mapper whose profiles keep their triggers apart does, over any
operations, what an interpreter of the profiles does, until the interpreter
asks for a place that the source leaves open. -/
theorem life_interpreted (env : Env) (H : QHash) (fuel : ℕ) (profile : Profile)
    (layerChangedCallback : Bool) (operations : List Operation)
    (hsep : ∀ p ∈ profile :: operations.filterMap Operation.profile?,
      ∀ layer ∈ p.layers, layer.Separated)
    {m₀ : Mapper} (hnew : Mapper.new H profile layerChangedCallback = .ok m₀) :
    ∃ i₀, Interpreter.new profile layerChangedCallback = .ok i₀ ∧
      Exits.RelatedUnless .unassigned Interpreter.Shows
        (operations.foldlM (Interpreter.operate env H fuel) i₀)
        (operations.foldlM (Mapper.operate env H fuel) m₀) := by
  rw [List.forall_mem_cons] at hsep
  obtain ⟨i₀, hi₀, hfollows⟩ := Follows.of_new hsep.1 hnew
  exact ⟨i₀, hi₀, (hfollows.operates hsep.2).mono fun _ _ h ↦ h.shows⟩

/-- A is held before B. -/
def heldProfile : Profile :=
  ⟨"held", [⟨"held", [(.keyPress .x, [.pressKey .z])],
    [⟨.capture, [.keyPress .a, .minimumWait 100, .keyPress .b], [.pressKey .y]⟩]⟩], 0⟩

def heldEnv : Env := .jump 0 300 (by decide) (by decide) 2

def heldKeys : List Operation := [.iteration (some (.key ⟨.a, .press⟩)), .iteration none]

/-- Once A has been held the two wait for B. -/
theorem life_interpreted_held : ∃ (m₀ m : Mapper) (i : Interpreter),
    Mapper.new (.first _) heldProfile false = .ok m₀ ∧
    heldKeys.foldlM (Mapper.operate heldEnv (.first _) 2) m₀ = .ok m ∧
    i.place = some [.sym (.key ⟨.a, .press⟩), .wait] ∧ i.Shows m := by
  obtain ⟨i₀, hi₀, hrel⟩ := life_interpreted heldEnv (.first _) 2 heldProfile false heldKeys
    (by decide) rfl
  cases hi₀
  obtain ⟨m, hm, hshows⟩ := (hrel.resolve_left (by decide)).ok_left
  exact ⟨_, m, _, rfl, hm, rfl, hshows⟩

end Mapper

end Keybinder

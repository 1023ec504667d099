import Mathlib.Order.Monotone.Defs
import Keybinder.Library.TwoPointer
import Keybinder.StateMachine

/-!
# The mapper

The state of the mapper, its operations, and one iteration of its loop.
Everything the mapper does to its surroundings is recorded in the state:
the lists given to the daemon, the counted keys, the announced layers.
The `history` is bookkeeping that no operation reads.
-/

namespace Keybinder

/-- What the mapper reads from outside: the steady clock in milliseconds and
the key-logging flag, both at successive instants, and the value that an
unassigned index happens to have at an instant. -/
structure Env where
  clock : ℕ → ℕ
  clock_mono : Monotone clock
  clock_lt : ∀ n, clock n < uint64Size
  logKeyFrequency : ℕ → Bool
  unassigned : ℕ → ℕ

/-- A clock that stands still. -/
def Env.still : Env where
  clock _ := 0
  clock_mono := fun _ _ _ ↦ Nat.le_refl 0
  clock_lt _ := by decide
  logKeyFrequency _ := false
  unassigned _ := 0

/-- A clock that jumps once. -/
def Env.jump (before later : ℕ) (hle : before ≤ later) (hlt : later < uint64Size) (n : ℕ) : Env where
  clock k := if k < n then before else later
  clock_mono := by
    intro a b hab
    dsimp only
    split <;> split <;> omega
  clock_lt k := by
    split <;> omega
  logKeyFrequency _ := false
  unassigned _ := 0

/-- An entry of the history: a check of the timer, a transition taken from a
state of a layer on an event or (without event) on the timer, a call of
`set_layer_inner`, an event passed to `queue_output`. -/
inductive Moment where
  | poll (now : ℕ)
  | taken (layer state : ℕ) (event : Option InputEvent) (now : ℕ) (transition : Transition)
  | layerSet (newLayer : ℕ)
  | queued (timeToEmit : ℕ) (e : OutputEvent)
  deriving DecidableEq

structure Mapper where
  profile : Profile
  states : List (List State) := []
  curLayerIdx : ℕ := 0
  curStateIdx : ℕ := homeStateIdx
  processedEventsCount : ℕ := 0
  basicMaps : List (List (InputEvent × List Bind)) := []
  currentTimer : Option ℕ := none
  queuedEvents : List (ℕ × OutputEvent) := []
  stopped : Bool := false
  paused : Bool := false
  layerChangedCallback : Bool
  instant : ℕ := 0
  sent : List (List OutputEvent) := []
  counted : List KeyCode := []
  announced : List String := []
  history : List Moment := []

/-- The event that fires a basic trigger. -/
def BasicTrigger.triggerToInput : BasicTrigger → InputEvent
  | .keyPress keyCode => .key ⟨keyCode, .press⟩
  | .keyRelease keyCode => .key ⟨keyCode, .release⟩
  | .appFocused appName => .app appName

/-- Arithmetic on `uint64_t`. -/
def addU64 (a b : ℕ) : ℕ := (a + b) % uint64Size

theorem addU64_eq {a b : ℕ} (h : a + b < uint64Size) : addU64 a b = a + b := Nat.mod_eq_of_lt h

namespace Mapper

/-- Must be called with the lock held. -/
def setLayerInner (m : Mapper) (newLayer : ℕ) : Except Exit Mapper :=
  let m : Mapper := { m with
    curLayerIdx := newLayer
    curStateIdx := homeStateIdx
    currentTimer := none
    history := m.history ++ [.layerSet newLayer] }
  if m.layerChangedCallback then do
    let layer ← vectorAt m.profile.layers newLayer
    return { m with announced := m.announced ++ [layer.layerName] }
  else
    return m

def setLayer (m : Mapper) (newLayer : ℕ) : Except Exit (Bool × Mapper) :=
  if m.states.length ≤ newLayer then
    return (false, m)
  else do
    let m ← m.setLayerInner newLayer
    return (true, m)

/-- The basic map of a layer; a repeated trigger rejects the profile. -/
def buildBasicMap (H : QHash) (layer : Layer) : Except Exit (List (InputEvent × List Bind)) :=
  layer.basicRemappings.foldlM (fun basicMap (trigger, binds) ↦
    let inputEvent := trigger.triggerToInput
    if (H.find basicMap inputEvent).isSome then throw .nullopt
    else return basicMap ++ [(inputEvent, binds)]) []

section

variable (unassigned : UnassignedRead) (H : QHash)

def compileLayerReading (layer : Layer) :
    Except Exit (List (InputEvent × List Bind) × List State) := do
  let basicMap ← buildBasicMap H layer
  let states ← generateStatesReading unassigned H layer
  return (basicMap, states)

/-- Returns false, with the mapper as it was, for a rejected profile; an
exception from compiling a layer leaves the call. -/
def setProfileReading (m : Mapper) (p : Profile) : Except Exit (Bool × Mapper) :=
  match p.layers.mapM (compileLayerReading unassigned H) with
  | .error .nullopt => .ok (false, m)
  | .error e => .error e
  | .ok compiled => do
      let m : Mapper := { m with
        profile := p
        states := compiled.map Prod.snd
        basicMaps := compiled.map Prod.fst }
      let m ← m.setLayerInner p.defaultLayer
      return (true, m)

/-- The constructor; it ignores what `set_profile` returns. -/
def newReading (profile : Profile) (layerChangedCallback : Bool) : Except Exit Mapper := do
  let (_, m) ← setProfileReading unassigned H { profile, layerChangedCallback } profile
  return m

end

section

variable (H : QHash) (m : Mapper) (p : Profile) (layer : Layer)

def compileLayer : Except Exit (List (InputEvent × List Bind) × List State) :=
  compileLayerReading .home H layer

def setProfile : Except Exit (Bool × Mapper) := setProfileReading .home H m p

def new (layerChangedCallback : Bool) : Except Exit Mapper :=
  newReading .home H p layerChangedCallback

theorem compileLayer_eq : compileLayer H layer =
    (buildBasicMap H layer >>= fun basicMap ↦ generateStates H layer >>= fun states ↦
      pure (basicMap, states)) := rfl

theorem setProfile_eq : setProfile H m p =
    match p.layers.mapM (compileLayer H) with
    | .error .nullopt => .ok (false, m)
    | .error e => .error e
    | .ok compiled =>
        { m with
          profile := p
          states := compiled.map Prod.snd
          basicMaps := compiled.map Prod.fst }.setLayerInner p.defaultLayer >>= fun m ↦
            pure (true, m) := rfl

theorem new_eq (layerChangedCallback : Bool) : new H p layerChangedCallback =
    (setProfile H { profile := p, layerChangedCallback } p >>= fun c ↦ pure c.2) := rfl

end

section

variable (env : Env) (H : QHash)

def queueOutput (m : Mapper) (e : OutputEvent) (delay : ℕ) : Mapper :=
  let timeToEmit := addU64 (env.clock m.instant) delay
  { m with
    queuedEvents := m.queuedEvents ++ [(timeToEmit, e)]
    instant := m.instant + 1
    history := m.history ++ [.queued timeToEmit e] }

/-- One bind of a list, with the delay accumulated so far. -/
def queueBind : Mapper × ℕ → Bind → Except Exit (Mapper × ℕ)
  | (m, delayMs), .pressKey keyCode =>
      return (m.queueOutput env (.key ⟨keyCode, .press⟩) delayMs, delayMs)
  | (m, delayMs), .releaseKey keyCode =>
      return (m.queueOutput env (.key ⟨keyCode, .release⟩) delayMs, delayMs)
  | (m, delayMs), .swapLayer newLayer => do
      let m ← m.setLayerInner newLayer
      return (m, delayMs)
  | (m, delayMs), .wait ms => return (m, addU64 delayMs ms)
  | (m, delayMs), .runScript s => return (m.queueOutput env (.script s) delayMs, delayMs)

def queueBinds (m : Mapper) (binds : List Bind) : Except Exit Mapper := do
  let (m, _) ← binds.foldlM (queueBind env) (m, 0)
  return m

/-- Executes one output of a transition and collects the events to redo. -/
def runOutput (prevEvent : Option InputEvent) :
    Mapper × List InputEvent → StateMachineOutputEvent → Except Exit (Mapper × List InputEvent)
  | (m, eventsToRedo), .proccessInput event =>
      return (m, eventsToRedo ++ (event <|> prevEvent).toList)
  | (m, eventsToRedo), .basicTranlation event =>
      match event <|> prevEvent with
      | none => return (m, eventsToRedo)
      | some e => do
          let basicMap ← vectorAt m.basicMaps m.curLayerIdx
          match H.find basicMap e, e with
          | some binds, _ => do
              let m ← m.queueBinds env binds
              return (m, eventsToRedo)
          | none, .key keyEvent => return (m.queueOutput env (.key keyEvent) 0, eventsToRedo)
          | none, .app _ => return (m, eventsToRedo)
  | (m, eventsToRedo), .bind b => do
      let m ← m.queueBinds env [b]
      return (m, eventsToRedo)

/-- The assignments at the head of `apply_transition`.  A target that was
never assigned is read as whatever value it happens to have. -/
def enter (m : Mapper) (transition : Transition) (prevEvent : Option InputEvent) : Mapper :=
  let now := env.clock m.instant
  { m with
    curStateIdx := transition.newState.getD (env.unassigned m.instant)
    currentTimer := transition.timerMs.map fun ms ↦ addU64 ms now
    instant := m.instant + 1
    history := m.history ++
      [.taken m.curLayerIdx m.curStateIdx prevEvent now transition] }

/-- `apply_transition` up to the loop over `events_to_redo`. -/
def fire (m : Mapper) (transition : Transition) (prevEvent : Option InputEvent) :
    Except Exit (Mapper × List InputEvent) :=
  transition.outputs.foldlM (runOutput env H prevEvent) (m.enter env transition prevEvent, [])

def applyTransition (processInput : Mapper → InputEvent → Except Exit Mapper) (m : Mapper)
    (transition : Transition) (prevEvent : Option InputEvent) : Except Exit Mapper := do
  let (m, eventsToRedo) ← m.fire env H transition prevEvent
  eventsToRedo.foldlM processInput m

/-- `states.at(cur_layer_idx).at(cur_state_idx)`. -/
def curState (m : Mapper) : Except Exit State := do
  let states ← vectorAt m.states m.curLayerIdx
  vectorAt states m.curStateIdx

/-- The edge for the event if there is one, else the fallback. -/
def transitionFor (state : State) (e : InputEvent) : Transition :=
  (H.find state.edges e).getD state.fallbackTransition

/-- While paused a key event goes straight to the daemon. -/
def bypass (m : Mapper) : InputEvent → Mapper
  | .key e => { m with sent := m.sent ++ [[.key e]] }
  | .app _ => m

/-- `process_input`, calling itself through `apply_transition` to a depth
that the first argument bounds. -/
def processInput : ℕ → Mapper → InputEvent → Except Exit Mapper
  | 0, _, _ => throw .outOfFuel
  | fuel + 1, m, e =>
      if m.paused then
        return m.bypass e
      else do
        let curState ← m.curState
        m.applyTransition env H (processInput fuel) (transitionFor H curState e) (some e)

def checkQueuedEvents (m : Mapper) : Mapper :=
  if m.queuedEvents.isEmpty then m
  else
    let curTime := env.clock m.instant
    let (waiting, ready) := TwoPointer.partition (fun p ↦ curTime < p.1) m.queuedEvents
    { m with
      queuedEvents := waiting
      sent := if ready.isEmpty then m.sent else m.sent ++ [ready.map Prod.snd]
      instant := m.instant + 1 }

/-- The first part of an iteration: the timer transition of the current
state is taken when the timer has run out. -/
def checkTimer (fuel : ℕ) (m : Mapper) : Except Exit Mapper := do
  let curState ← m.curState
  let now := env.clock m.instant
  let expired := m.currentTimer.any (· ≤ now)
  let m : Mapper := { m with instant := m.instant + 1, history := m.history ++ [.poll now] }
  match curState.timerTransition with
  | some timerTransition =>
      if expired then m.applyTransition env H (processInput env H fuel) timerTransition none
      else return m
  | none => return m

def countKey (m : Mapper) : InputEvent → Mapper
  | .key ⟨keycode, .press⟩ =>
      if env.logKeyFrequency m.instant then { m with counted := m.counted ++ [keycode] } else m
  | _ => m

/-- One iteration of the loop of `start`, with the event that `wait_key`
returned. -/
def loopBody (fuel : ℕ) (m : Mapper) (keyOpt : Option InputEvent) : Except Exit Mapper := do
  let m ← m.checkTimer env H fuel
  match keyOpt with
  | none => return m.checkQueuedEvents env
  | some e => do
      let m ← (m.countKey env e).processInput env H fuel e
      return { m with processedEventsCount := m.processedEventsCount + 1 }.checkQueuedEvents env

end

def pause (m : Mapper) : Mapper :=
  { m with paused := true, queuedEvents := [], currentTimer := none }

def resume (m : Mapper) : Mapper := { m with paused := false }

def stop (m : Mapper) : Mapper := { m with stopped := true }

end Mapper

end Keybinder

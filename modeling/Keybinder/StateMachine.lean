import Mathlib.Data.List.Basic
import Keybinder.Event
import Keybinder.Library.Exits

/-!
# Generating the states of a layer

The state machine of a layer is a vector of states that refer to each other
by index.  `generateStates` inserts the sequences of the layer one after the
other, sharing the states of common prefixes when they are compatible.

A `size_t` that is read before it was assigned has no determined value;
such a field is `none` here.
-/

namespace Keybinder

/-- The ways a call can end without a result: `return std::nullopt`, an
exception, the use of a variable that was never assigned, or the end of the
recursion budget of the model. -/
inductive Exit where
  | nullopt
  | badOptionalAccess
  | outOfRange
  | unassigned
  | outOfFuel
  deriving DecidableEq, Inhabited

/-- `std::optional::value`. -/
def optionalValue {α : Type} : Option α → Except Exit α
  | some a => .ok a
  | none => .error .badOptionalAccess

/-- `std::vector::at`. -/
def vectorAt {α : Type} (v : List α) (i : ℕ) : Except Exit α :=
  match v[i]? with
  | some a => .ok a
  | none => .error .outOfRange

/-- Reading a `size_t` that has to have been assigned. -/
def assigned : Option ℕ → Except Exit ℕ
  | some n => .ok n
  | none => .error .unassigned

def homeStateIdx : ℕ := 0

inductive StateMachineOutputEvent where
  | proccessInput (event : Option InputEvent)
  | basicTranlation (event : Option InputEvent)
  | bind (b : Bind)
  deriving DecidableEq

/-- `owner` is bookkeeping that no function reads: the position in the layer
of the sequence whose binds were appended to `outputs`. -/
structure Transition where
  timerMs : Option ℕ := none
  outputs : List StateMachineOutputEvent := []
  newState : Option ℕ := none
  owner : Option ℕ := none
  deriving DecidableEq

structure State where
  edges : List (InputEvent × Transition)
  fallbackTransition : Transition
  timerTransition : Option Transition
  deriving DecidableEq

structure StateMetadata where
  timer : Option Timer
  behavior : SequenceBehavior
  deriving DecidableEq

def generateHomeState : State × StateMetadata :=
  (⟨[], { outputs := [.basicTranlation none], newState := some homeStateIdx }, none⟩,
    ⟨none, .default⟩)

/-! ## Normalization

The loop visits `const` elements, so of the three visitors only the generic
one is viable: every trigger, wait or not, is appended as it is. -/

def visitConstTrigger : AdvancedTrigger → Option AdvancedTrigger := some

def normailzeSequence (sequenceTrigger : SequenceTrigger) : Option SequenceTrigger :=
  (sequenceTrigger.sequence.mapM visitConstTrigger).map fun sequence ↦
    { sequenceTrigger with sequence }

def normailzeSequences (sequences : List SequenceTrigger) : Option (List SequenceTrigger) :=
  sequences.mapM normailzeSequence

theorem normailzeSequences_eq (ss : List SequenceTrigger) : normailzeSequences ss = some ss := by
  have hsome : ∀ (α : Type) (l : List α), l.mapM (some : α → Option α) = some l := by
    intro α l
    induction l with
    | nil => rfl
    | cons a l ih => simp [ih]
  have hone : normailzeSequence = (some : SequenceTrigger → Option SequenceTrigger) := by
    funext s
    have hvisit : visitConstTrigger = (some : AdvancedTrigger → Option AdvancedTrigger) := rfl
    simp [normailzeSequence, hvisit, hsome]
  rw [normailzeSequences, hone, hsome]

/-- The event that fires a key or app trigger; waits have none. -/
def AdvancedTrigger.triggerToInput : AdvancedTrigger → Option InputEvent
  | .keyPress keyCode => some (.key ⟨keyCode, .press⟩)
  | .keyRelease keyCode => some (.key ⟨keyCode, .release⟩)
  | .appFocused appName => some (.app appName)
  | .minimumWait _ => none
  | .maximumWait _ => none

/-! ## Inserting one sequence -/

/-- One pass of the loop over a sequence: the trigger at the loop head, the
wait that the look-ahead consumed with it, the triggers `sequence[0..i]`
read by then, and whether the sequence ends here. -/
structure LoopPass where
  trigger : AdvancedTrigger
  timer : Option Timer
  read : List AdvancedTrigger
  final : Bool
  deriving DecidableEq

/-- `is_last`: the trigger is the last element of its sequence.  The other
flag, `is_second_to_last`, is only consulted after a wait was consumed, and
is `final` then. -/
def LoopPass.isLast (pass : LoopPass) : Bool := pass.final && pass.timer.isNone

/-- A minimum wait that further triggers follow. -/
def LoopPass.midWait (pass : LoopPass) : Bool :=
  match pass.timer with
  | some (.minimumWait _) => !pass.final
  | _ => false

theorem LoopPass.timer_of_midWait {pass : LoopPass} (h : pass.midWait = true) :
    (∃ ms, pass.timer = some (.minimumWait ms)) ∧ pass.final = false := by
  unfold midWait at h
  split at h
  · rename_i ms hms
    exact ⟨⟨ms, hms⟩, by simpa using h⟩
  · simp at h

theorem LoopPass.timer_of_isLast {pass : LoopPass} (h : pass.isLast = true) :
    pass.timer = none ∧ pass.final = true := by
  simpa [isLast, and_comm] using h

/-- The passes of the loop over the rest of a sequence. -/
def loopPasses (read : List AdvancedTrigger) : List AdvancedTrigger → List LoopPass
  | [] => []
  | trigger :: .minimumWait ms :: rest =>
      let read := read ++ [trigger, .minimumWait ms]
      ⟨trigger, some (.minimumWait ms), read, rest.isEmpty⟩ :: loopPasses read rest
  | trigger :: .maximumWait ms :: rest =>
      let read := read ++ [trigger, .maximumWait ms]
      ⟨trigger, some (.maximumWait ms), read, rest.isEmpty⟩ :: loopPasses read rest
  | trigger :: rest =>
      let read := read ++ [trigger]
      ⟨trigger, none, read, rest.isEmpty⟩ :: loopPasses read rest

theorem pairwise_loopPasses (read rest : List AdvancedTrigger) :
    (loopPasses read rest).Pairwise fun pass _ ↦ pass.final = false := by
  have hhead : ∀ (read rest : List AdvancedTrigger),
      ∀ pass ∈ loopPasses read rest, rest.isEmpty = false := by
    intro read rest pass hpass
    cases rest with
    | nil => simp [loopPasses] at hpass
    | cons trigger rest => rfl
  fun_induction loopPasses read rest with
  | case1 => exact .nil
  | case2 read trigger ms rest read' ih => exact .cons (hhead read' rest) ih
  | case3 read trigger ms rest read' ih => exact .cons (hhead read' rest) ih
  | case4 read trigger rest hmin hmax read' ih => exact .cons (hhead read' rest) ih

theorem loopPasses_eq_nil_iff {read rest : List AdvancedTrigger} :
    loopPasses read rest = [] ↔ rest = [] := by
  fun_cases loopPasses read rest <;> simp

theorem final_of_getLast?_loopPasses {read rest : List AdvancedTrigger} {pass : LoopPass}
    (h : (loopPasses read rest).getLast? = some pass) : pass.final = true := by
  have hcons : ∀ {read rest : List AdvancedTrigger} {first : LoopPass},
      ((loopPasses read rest).getLast? = some pass → pass.final = true) →
      first.final = rest.isEmpty → (first :: loopPasses read rest).getLast? = some pass →
      pass.final = true := by
    intro read rest first ih hfirst h
    cases rest with
    | nil =>
        obtain rfl : first = pass := by simpa [loopPasses] using h
        exact hfirst
    | cons trigger rest =>
        apply ih
        rw [List.getLast?_cons] at h
        cases hlast : (loopPasses read (trigger :: rest)).getLast? with
        | none =>
            rw [List.getLast?_eq_none_iff, loopPasses_eq_nil_iff] at hlast
            cases hlast
        | some pass' => simpa [hlast] using h
  fun_induction loopPasses read rest with
  | case1 => simp at h
  | case2 read trigger ms rest read' ih => exact hcons ih rfl h
  | case3 read trigger ms rest read' ih => exact hcons ih rfl h
  | case4 read trigger rest hmin hmax read' ih => exact hcons ih rfl h

/-- The vectors under construction. -/
structure Builder where
  states : List State
  stateMetadata : List StateMetadata
  deriving DecidableEq

namespace Builder

def init : Builder := ⟨[generateHomeState.1], [generateHomeState.2]⟩

def pushBack (b : Builder) (state : State) (metadata : StateMetadata) : Builder :=
  ⟨b.states ++ [state], b.stateMetadata ++ [metadata]⟩

def setEdge (b : Builder) (idx : ℕ) (inputEvent : InputEvent) (transition : Transition) :
    Builder :=
  { b with states := b.states.modify idx fun state ↦
      { state with edges := state.edges ++ [(inputEvent, transition)] } }

def setTimerTransition (b : Builder) (idx : ℕ) (transition : Transition) : Builder :=
  { b with states := b.states.modify idx fun state ↦
      { state with timerTransition := some transition } }

section

variable (b : Builder) (idx j : ℕ) (inputEvent : InputEvent) (transition : Transition)

theorem getElem?_setEdge : (b.setEdge idx inputEvent transition).states[j]? =
    b.states[j]?.map fun state ↦
      if idx = j then { state with edges := state.edges ++ [(inputEvent, transition)] }
      else state := by
  simp [setEdge, List.getElem?_modify]

theorem getElem?_setTimerTransition : (b.setTimerTransition idx transition).states[j]? =
    b.states[j]?.map fun state ↦
      if idx = j then { state with timerTransition := some transition } else state := by
  simp [setTimerTransition, List.getElem?_modify]

@[simp] theorem length_setEdge :
    (b.setEdge idx inputEvent transition).states.length = b.states.length := by
  simp [setEdge]

@[simp] theorem length_setTimerTransition :
    (b.setTimerTransition idx transition).states.length = b.states.length := by
  simp [setTimerTransition]

@[simp] theorem stateMetadata_setEdge :
    (b.setEdge idx inputEvent transition).stateMetadata = b.stateMetadata := rfl

@[simp] theorem stateMetadata_setTimerTransition :
    (b.setTimerTransition idx transition).stateMetadata = b.stateMetadata := rfl

end

end Builder

/-- What a Default sequence gives back on a mismatch: the first trigger is
translated, the later ones are fed again. -/
def heldOutputs (read : List AdvancedTrigger) : List StateMachineOutputEvent :=
  read.zipIdx.filterMap fun (trigger, j) ↦
    trigger.triggerToInput.map fun input ↦
      if j = 0 then .basicTranlation (some input) else .proccessInput (some input)

/-- The fallback of a state that is created for `read`. -/
def newFallback (behavior : SequenceBehavior) (read : List AdvancedTrigger) : Transition where
  outputs := (if behavior = .default then heldOutputs read else []) ++ [.basicTranlation none]
  newState := some homeStateIdx

/-- The edge that a pass adds when there is none for its trigger yet; it
leads to `target`. -/
def newTransition (s : SequenceTrigger) (owner : ℕ) (pass : LoopPass) (inputEvent : InputEvent)
    (target : ℕ) : Transition where
  timerMs := pass.timer.map Timer.ms
  outputs := (if s.behavior = .release then [.basicTranlation (some inputEvent)] else []) ++
    if pass.isLast then s.binds.map .bind else []
  newState := some target
  owner := if pass.isLast then some owner else none

/-- The first half of a pass: find or create the edge for the trigger.
Returns `next_state_idx`, which a final trigger leaves unassigned. -/
def connectTrigger (H : QHash) (s : SequenceTrigger) (owner : ℕ) (b : Builder)
    (currentStateIdx : ℕ) (pass : LoopPass) (inputEvent : InputEvent) :
    Except Exit (Builder × Option ℕ) := do
  let state ← vectorAt b.states currentStateIdx
  match H.find state.edges inputEvent with
  | some existingTransition =>
      if pass.isLast then throw .nullopt
      let newState ← assigned existingTransition.newState
      let metadata ← vectorAt b.stateMetadata newState
      if metadata.behavior ≠ s.behavior then throw .nullopt
      if metadata.timer.isSome ∧ pass.timer.isSome ∧ metadata.timer ≠ pass.timer then
        throw .nullopt
      return (b, some newState)
  | none =>
      if pass.isLast then
        return (b.setEdge currentStateIdx inputEvent
          (newTransition s owner pass inputEvent homeStateIdx), none)
      let newStateIdx := b.states.length
      let b := b.pushBack ⟨[], newFallback s.behavior pass.read, none⟩ ⟨pass.timer, s.behavior⟩
      return (b.setEdge currentStateIdx inputEvent
        (newTransition s owner pass inputEvent newStateIdx), some newStateIdx)

/-- The second half of a pass: the reaction of the next state to its timer.
Returns `final_state_idx`.  The state that a minimum wait leads to gets no
fallback of its own: the source assigns the waiting state's to itself. -/
def attachTimer (s : SequenceTrigger) (owner : ℕ) (b : Builder) (nextStateIdx : ℕ)
    (pass : LoopPass) : Except Exit (Builder × ℕ) := do
  let nextState ← vectorAt b.states nextStateIdx
  match pass.timer, nextState.timerTransition with
  | none, _ => return (b, nextStateIdx)
  | some (.maximumWait _), some _ => return (b, nextStateIdx)
  | some (.maximumWait _), none =>
      return (b.setTimerTransition nextStateIdx nextState.fallbackTransition, nextStateIdx)
  | some (.minimumWait _), some timerTransition =>
      let finalStateIdx ← assigned timerTransition.newState
      return (b, finalStateIdx)
  | some (.minimumWait _), none =>
      if pass.final then
        return (b.setTimerTransition nextStateIdx
          { outputs := s.binds.map .bind, newState := some homeStateIdx, owner := some owner },
          nextStateIdx)
      let finalStateIdx := b.states.length
      let b := b.setTimerTransition nextStateIdx { newState := some finalStateIdx }
      return (b.pushBack ⟨[], {}, none⟩ ⟨none, s.behavior⟩, finalStateIdx)

/-- What a `next_state_idx` that was never assigned happens to be read as,
with the vectors as they are then; where it is `none`, the read is an exit
of its own. -/
abbrev UnassignedRead := Builder → Option ℕ

namespace UnassignedRead

/-- Some index of a state; the value is not used otherwise. -/
def home : UnassignedRead := fun _ ↦ some homeStateIdx

/-- No read goes unnoticed. -/
def checked : UnassignedRead := fun _ ↦ none

/-- What is read is the index of a state. -/
def Valid (unassigned : UnassignedRead) : Prop :=
  ∀ b : Builder, homeStateIdx < b.states.length →
    ∃ idx, unassigned b = some idx ∧ idx < b.states.length

theorem home_valid : home.Valid := fun _ h ↦ ⟨homeStateIdx, rfl, h⟩

end UnassignedRead

/-- One pass of the loop over the triggers.  Returns the next
`current_state_idx`. -/
def insertTriggerReading (unassigned : UnassignedRead) (H : QHash) (s : SequenceTrigger)
    (owner : ℕ) : Builder × ℕ → LoopPass → Except Exit (Builder × ℕ)
  | (b, currentStateIdx), pass => do
      let inputEvent ← optionalValue pass.trigger.triggerToInput
      let (b, nextStateIdx) ← connectTrigger H s owner b currentStateIdx pass inputEvent
      attachTimer s owner b (← assigned (nextStateIdx.or (unassigned b))) pass

def insertSequenceReading (unassigned : UnassignedRead) (H : QHash) (b : Builder) :
    SequenceTrigger × ℕ → Except Exit Builder
  | (s, owner) => do
      let (b, _) ← (loopPasses [] s.sequence).foldlM (insertTriggerReading unassigned H s owner)
        (b, homeStateIdx)
      return b

/-- Generates the states of a layer; `nullopt` and exceptions are exits. -/
def generateStatesReading (unassigned : UnassignedRead) (H : QHash) (layer : Layer) :
    Except Exit (List State) := do
  match normailzeSequences layer.sequenceRemappings with
  | none => throw .nullopt
  | some normalizedSequences =>
      let b ← normalizedSequences.zipIdx.foldlM (insertSequenceReading unassigned H) .init
      return b.states

/-! An unassigned `next_state_idx` that is read as the index of a state does
no harm: it ends its sequence. -/

def insertTrigger (H : QHash) (s : SequenceTrigger) (owner : ℕ) :
    Builder × ℕ → LoopPass → Except Exit (Builder × ℕ) :=
  insertTriggerReading .home H s owner

def insertSequence (H : QHash) : Builder → SequenceTrigger × ℕ → Except Exit Builder :=
  insertSequenceReading .home H

def generateStates (H : QHash) (layer : Layer) : Except Exit (List State) :=
  generateStatesReading .home H layer

theorem generateStatesReading_eq (unassigned : UnassignedRead) (H : QHash) (layer : Layer) :
    generateStatesReading unassigned H layer =
      (layer.sequenceRemappings.zipIdx.foldlM (insertSequenceReading unassigned H) .init >>=
        fun b ↦ pure b.states) := by
  rw [generateStatesReading, normailzeSequences_eq]

theorem generateStates_eq (H : QHash) (layer : Layer) : generateStates H layer =
    (layer.sequenceRemappings.zipIdx.foldlM (insertSequence H) .init >>= fun b ↦
      pure b.states) :=
  generateStatesReading_eq .home H layer

theorem insertTrigger_eq (H : QHash) (s : SequenceTrigger) (owner : ℕ) (b : Builder)
    (currentStateIdx : ℕ) (pass : LoopPass) :
    insertTrigger H s owner (b, currentStateIdx) pass =
      (optionalValue pass.trigger.triggerToInput >>= fun inputEvent ↦
        connectTrigger H s owner b currentStateIdx pass inputEvent) >>= fun c ↦
          attachTimer s owner c.1 (c.2.getD homeStateIdx) pass := by
  have hread : ∀ (b : Builder) (nextStateIdx : Option ℕ),
      assigned (nextStateIdx.or (UnassignedRead.home b)) =
        .ok (nextStateIdx.getD homeStateIdx) := by
    rintro b (_ | _) <;> rfl
  simp [insertTrigger, insertTriggerReading, hread, bind_assoc]

end Keybinder

import Keybinder.BasicLayers

/-!
# The thread of the mapper

The loop of `start` with its wait for a key, next to the threads that send
keys, call the mapper and shut it down.  Each step below is one critical
section, or a wait that is over.
-/

namespace Keybinder

/-- `KeyQueueState`. -/
structure Channel where
  queue : KeyQueue := []
  closed : Bool := false
  deriving DecidableEq

namespace Channel

def sendKey (c : Channel) (e : InputEvent) : Channel := { c with queue := c.queue.sendKey e }

def close (c : Channel) : Channel := { c with closed := true }

/-- What `wait_key` waits for, besides the timeout. -/
def ready (c : Channel) : Bool := c.closed || !c.queue.isEmpty

/-- The rest of `wait_key`, when the wait is over. -/
def takeKey (c : Channel) : Option InputEvent × Channel :=
  if c.closed then (none, c)
  else
    let (keyOpt, queue) := c.queue.waitKey
    (keyOpt, { c with queue })

theorem takeKey_of_closed {c : Channel} (h : c.closed = true) : c.takeKey = (none, c) := if_pos h

@[simp] theorem closed_takeKey (c : Channel) : c.takeKey.2.closed = c.closed := by
  unfold takeKey
  split <;> rfl

theorem queue_takeKey (c : Channel) : c.takeKey.1.toList ++ c.takeKey.2.queue = c.queue := by
  unfold takeKey
  split
  · rfl
  · cases c.queue <;> rfl

theorem takeKey_of_ne_nil {c : Channel} (hopen : c.closed = false) (h : c.queue ≠ []) :
    ∃ e, c.takeKey.1 = some e := by
  obtain ⟨e, queue, hqueue⟩ := List.exists_cons_of_ne_nil h
  exact ⟨e, by simp [takeKey, hopen, hqueue, KeyQueue.waitKey]⟩

end Channel

section

variable {env : Env} {H : QHash} {fuel : ℕ} {m m' : Mapper} {profile : Profile}
  {layerChangedCallback : Bool} {operations : List Operation}

namespace Mapper

/-- The timer is set or an output is queued. -/
def Busy (m : Mapper) : Prop := m.currentTimer ≠ none ∨ m.queuedEvents ≠ []

instance (m : Mapper) : Decidable m.Busy := inferInstanceAs (Decidable (_ ∨ _))

/-- What an iteration waits for in the next one: timers and queued outputs
are checked every 10 ms. -/
def nextTimeout (m : Mapper) : ℕ :=
  if m.currentTimer.isSome || !m.queuedEvents.isEmpty then 10 else 1000

theorem nextTimeout_of_busy {m : Mapper} (h : m.Busy) : m.nextTimeout = 10 := by
  apply if_pos
  rw [Bool.or_eq_true]
  refine h.imp Option.isSome_iff_ne_none.mpr fun hqueue ↦ ?_
  cases hevents : m.queuedEvents with
  | nil => exact absurd hevents hqueue
  | cons => rfl

theorem Act.stopped_eq (h : Act env H m m') : m'.stopped = m.stopped := by
  cases h with
  | output hact =>
      cases hact with
      | queue => rfl
      | swap hset =>
          obtain ⟨announced, rfl⟩ := setLayerInner_spec hset
          rfl
  | input => rfl
  | expire => rfl
  | quiet => rfl
  | emit =>
      unfold checkQueuedEvents
      split <;> rfl
  | bypass e => cases e <;> rfl
  | count e =>
      obtain ⟨counted, hcount⟩ := countKey_spec env m e
      rw [hcount]
  | processed => rfl

theorem Acts.stopped_eq (h : Acts env H m m') : m'.stopped = m.stopped := by
  induction h with
  | refl => rfl
  | tail _ hact ih => rw [hact.stopped_eq, ih]

/-- Only `stop` stops the loop, and nothing lets it go on. -/
theorem stopped_of_operate {operation : Operation}
    (h : m.operate env H fuel operation = .ok m') :
    m'.stopped = (m.stopped || decide (operation = .stop)) := by
  cases happens_of_operate h with
  | rejected => simp
  | installed hset =>
      obtain ⟨compiled, -, hset⟩ := setProfile_true hset
      obtain ⟨announced, rfl⟩ := setLayerInner_spec hset
      simp
  | ignored => simp
  | moved _ hset =>
      obtain ⟨announced, rfl⟩ := setLayerInner_spec hset
      simp
  | pause => simp [pause]
  | resume => simp [resume]
  | stop => simp [stop]
  | iteration hbody => simp [(acts_of_loopBody hbody).stopped_eq]

/-! ## What was sent stays sent -/

theorem Act.sent_le (h : Act env H m m') : m.sent <+: m'.sent := by
  cases h with
  | output hact => rw [(Outputs.kept (.single hact)).sent_eq]
  | input => exact List.prefix_rfl
  | expire => exact List.prefix_rfl
  | quiet => exact List.prefix_rfl
  | emit =>
      unfold checkQueuedEvents
      split
      · exact List.prefix_rfl
      · dsimp only
        split
        · exact List.prefix_rfl
        · exact List.prefix_append _ _
  | bypass e =>
      cases e with
      | key e => exact List.prefix_append _ _
      | app appName => exact List.prefix_rfl
  | count e =>
      obtain ⟨counted, hcount⟩ := countKey_spec env m e
      rw [hcount]
  | processed => exact List.prefix_rfl

theorem Acts.sent_le (h : Acts env H m m') : m.sent <+: m'.sent := by
  induction h with
  | refl => exact List.prefix_rfl
  | tail _ hact ih => exact ih.trans hact.sent_le

theorem sent_of_operate {operation : Operation} (h : m.operate env H fuel operation = .ok m') :
    m.sent <+: m'.sent := by
  cases happens_of_operate h with
  | rejected => exact List.prefix_rfl
  | installed hset =>
      obtain ⟨compiled, -, hset⟩ := setProfile_true hset
      rw [(kept_of_setLayerInner hset).sent_eq]
  | ignored => exact List.prefix_rfl
  | moved _ hset => rw [(kept_of_setLayerInner hset).sent_eq]
  | pause => exact List.prefix_rfl
  | resume => exact List.prefix_rfl
  | stop => exact List.prefix_rfl
  | iteration hbody => exact (acts_of_loopBody hbody).sent_le

/-! ## The count of processed events -/

theorem processed_of_outputs (h : Outputs env m m') :
    m'.processedEventsCount = m.processedEventsCount := by
  induction h with
  | refl => rfl
  | tail _ hact ih =>
      rw [← ih]
      cases hact with
      | queue => rfl
      | swap hset =>
          obtain ⟨announced, rfl⟩ := setLayerInner_spec hset
          rfl

theorem processed_of_react {e : InputEvent} {redo : List InputEvent}
    (h : m.react env H e = .ok (m', redo)) :
    m'.processedEventsCount = m.processedEventsCount := by
  unfold react at h
  split at h
  · cases h
    cases e <;> rfl
  · obtain ⟨state, -, h⟩ := Exits.bind_eq_ok.mp h
    have houtputs := processed_of_outputs (fire_spec h).1
    exact houtputs

theorem processed_of_feeds {es : List InputEvent} (h : Refeed.Feeds (react env H) m es m') :
    m'.processedEventsCount = m.processedEventsCount := by
  induction h with
  | nil => rfl
  | cons hstep _ ih => rw [ih, processed_of_react hstep]

theorem processed_of_checkTimer (h : m.checkTimer env H fuel = .ok m') :
    m'.processedEventsCount = m.processedEventsCount := by
  obtain ⟨state, -, ⟨-, rfl⟩ | ⟨transition, m₁, redo, -, -, hfire, hredo⟩⟩ := checkTimer_cases h
  · rfl
  · rw [processed_of_feeds (feeds_of_foldlM_processInput hredo)]
    have houtputs := processed_of_outputs (fire_spec hfire).1
    exact houtputs

/-- A new mapper has processed nothing and is not stopped. -/
theorem started_of_new {profile : Profile} {layerChangedCallback : Bool}
    (h : Mapper.new H profile layerChangedCallback = .ok m) :
    m.processedEventsCount = 0 ∧ m.stopped = false := by
  obtain ⟨⟨accepted, m₁⟩, hset, h⟩ := Exits.bind_eq_ok.mp h
  cases h
  cases accepted with
  | true =>
      obtain ⟨compiled, -, hset⟩ := setProfile_true hset
      obtain ⟨announced, rfl⟩ := setLayerInner_spec hset
      exact ⟨rfl, rfl⟩
  | false =>
      obtain ⟨-, rfl⟩ := setProfile_false hset
      exact ⟨rfl, rfl⟩

theorem processed_checkQueuedEvents (m : Mapper) :
    (m.checkQueuedEvents env).processedEventsCount = m.processedEventsCount := by
  unfold checkQueuedEvents
  split <;> rfl

theorem processed_of_loopBody {keyOpt : Option InputEvent}
    (h : m.loopBody env H fuel keyOpt = .ok m') :
    m'.processedEventsCount = m.processedEventsCount + keyOpt.toList.length := by
  obtain ⟨m₁, htimer, h⟩ := Exits.bind_eq_ok.mp h
  have hm₁ := processed_of_checkTimer htimer
  cases keyOpt with
  | none =>
      cases h
      rw [processed_checkQueuedEvents, hm₁]
      rfl
  | some e =>
      obtain ⟨m₂, hinput, h⟩ := Exits.bind_eq_ok.mp h
      cases h
      obtain ⟨counted, hcount⟩ := countKey_spec env m₁ e
      have hm₂ := processed_of_feeds (feeds_of_processInput hinput)
      rw [hcount] at hm₂
      rw [processed_checkQueuedEvents]
      exact congrArg (· + 1) (hm₂.trans hm₁)

end Mapper

/-- The event that an iteration handles. -/
def Operation.handled : Operation → Option InputEvent
  | iteration keyOpt => keyOpt
  | _ => none

theorem Mapper.processed_of_operate {operation : Operation}
    (h : m.operate env H fuel operation = .ok m') :
    m'.processedEventsCount = m.processedEventsCount + operation.handled.toList.length := by
  cases happens_of_operate h with
  | rejected => rfl
  | installed hset =>
      obtain ⟨compiled, -, hset⟩ := setProfile_true hset
      obtain ⟨announced, rfl⟩ := setLayerInner_spec hset
      rfl
  | ignored => rfl
  | moved _ hset =>
      obtain ⟨announced, rfl⟩ := setLayerInner_spec hset
      rfl
  | pause => rfl
  | resume => rfl
  | stop => rfl
  | iteration hbody => exact processed_of_loopBody hbody

/-- The mapper has processed as many events as its iterations handled. -/
theorem Mapper.processed_of_life
    (h : Mapper.life env H fuel profile layerChangedCallback operations = .ok m) :
    m.processedEventsCount = (operations.filterMap Operation.handled).length := by
  refine life_induction (P := fun operations m ↦
    m.processedEventsCount = (operations.filterMap Operation.handled).length)
    (fun _ hnew ↦ (started_of_new hnew).1) ?_ h
  intro operations operation m m' _ hm hoperate
  rw [processed_of_operate hoperate, hm, List.filterMap_append, List.length_append]
  cases hhandled : operation.handled <;> simp [hhandled]

end

/-- How far the loop is: at its condition, in `wait_key`, after it, or over. -/
inductive MapperPhase where
  | head
  | waiting
  | awake (keyOpt : Option InputEvent)
  | ended
  deriving DecidableEq

/-- The key that was taken and is not handled yet. -/
def MapperPhase.inFlight : MapperPhase → Option InputEvent
  | awake keyOpt => keyOpt
  | _ => none

/-- How often the loop still advances when it is stopped and the channel is
closed. -/
def MapperPhase.remaining : MapperPhase → ℕ
  | head => 1
  | waiting => 3
  | awake _ => 2
  | ended => 0

theorem MapperPhase.ended_of_remaining {phase : MapperPhase} (h : phase.remaining = 0) :
    phase = .ended := by
  cases phase with
  | ended => rfl
  | _ => cases h

/-- How far the loop is since it handled the last event. -/
def MapperPhase.progress : MapperPhase → ℕ
  | head => 1
  | waiting => 2
  | awake (some _) => 3
  | _ => 0

theorem MapperPhase.progress_le (phase : MapperPhase) : phase.progress ≤ 3 := by
  cases phase with
  | awake keyOpt => cases keyOpt <;> simp [progress]
  | _ => simp [progress]

/-- `timeout` is in milliseconds; without one `wait_key` waits indefinitely. -/
structure MapperThread where
  channel : Channel := {}
  phase : MapperPhase := .head
  timeout : Option ℕ := none
  interrupted : Bool := false
  mapper : Mapper

/-- The calls that other threads make. -/
inductive MapperCall where
  | setProfile (p : Profile)
  | setLayer (newLayer : ℕ)
  | pause
  | resume
  | stop
  deriving DecidableEq

/-- `stop` is the assignment; the channel is closed afterwards. -/
def MapperCall.operation : MapperCall → Operation
  | setProfile p => .setProfile p
  | setLayer newLayer => .setLayer newLayer
  | pause => .pause
  | resume => .resume
  | stop => .stop

def MapperCall.profile? : MapperCall → Option Profile
  | setProfile p => some p
  | _ => none

/-- No call sets the timer or queues an output. -/
theorem Mapper.busy_of_call {env : Env} {H : QHash} {fuel : ℕ} {m m' : Mapper} {c : MapperCall}
    (h : m.operate env H fuel c.operation = .ok m') (hbusy : m'.Busy) : m.Busy := by
  have hset : ∀ {m : Mapper} {newLayer : ℕ}, m.setLayerInner newLayer = .ok m' →
      m.queuedEvents ≠ [] := by
    intro m newLayer hset
    obtain ⟨announced, rfl⟩ := setLayerInner_spec hset
    exact hbusy.resolve_left (fun htimer ↦ htimer rfl)
  generalize hoperation : c.operation = operation at h
  cases happens_of_operate h with
  | rejected => exact hbusy
  | installed hm' =>
      obtain ⟨compiled, -, hm'⟩ := setProfile_true hm'
      have hqueue := hset hm'
      exact .inr hqueue
  | ignored => exact hbusy
  | moved _ hm' => exact .inr (hset hm')
  | pause => rcases hbusy with hbusy | hbusy <;> exact absurd rfl hbusy
  | resume => exact hbusy
  | stop => exact hbusy
  | iteration => cases c <;> cases hoperation

inductive ThreadStep where
  | sendKey (e : InputEvent)
  | call (c : MapperCall)
  | close
  | requestInterruption
  | advance
  | timeOut
  deriving DecidableEq

/-- The event that a step sends. -/
def ThreadStep.key? : ThreadStep → Option InputEvent
  | sendKey e => some e
  | _ => none

def ThreadStep.call? : ThreadStep → Option MapperCall
  | call c => some c
  | _ => none

@[simp] theorem ThreadStep.key?_call (c : MapperCall) : (call c).key? = none := rfl

@[simp] theorem ThreadStep.key?_advance : advance.key? = none := rfl

namespace MapperThread

/-- A step that is not due does nothing. -/
def step (env : Env) (H : QHash) (fuel : ℕ) (s : MapperThread) :
    ThreadStep → Except Exit MapperThread
  | .sendKey e => return { s with channel := s.channel.sendKey e }
  | .call c => do
      let mapper ← s.mapper.operate env H fuel c.operation
      return { s with mapper }
  | .close => return { s with channel := s.channel.close }
  | .requestInterruption => return { s with interrupted := true }
  | .advance =>
      match s.phase with
      | .head =>
          return { s with
            phase := if s.mapper.stopped || s.interrupted then .ended else .waiting }
      | .waiting =>
          if s.channel.ready then
            let (keyOpt, channel) := s.channel.takeKey
            return { s with channel, phase := .awake keyOpt }
          else return s
      | .awake keyOpt => do
          let mapper ← s.mapper.loopBody env H fuel keyOpt
          return { s with mapper, timeout := some mapper.nextTimeout, phase := .head }
      | .ended => return s
  | .timeOut =>
      if s.phase = .waiting ∧ s.timeout.isSome then
        let (keyOpt, channel) := s.channel.takeKey
        return { s with channel, phase := .awake keyOpt }
      else return s

def run (env : Env) (H : QHash) (fuel : ℕ) (s : MapperThread) (steps : List ThreadStep) :
    Except Exit MapperThread :=
  steps.foldlM (step env H fuel) s

/-- What a step that returns has done. -/
inductive Does (env : Env) (H : QHash) (fuel : ℕ) (s : MapperThread) :
    ThreadStep → MapperThread → Prop
  | idle (x : ThreadStep) (h : x = .advance ∧ (s.phase = .waiting ∧ s.channel.ready = false ∨
        s.phase = .ended) ∨ x = .timeOut) : Does env H fuel s x s
  | sendKey (e : InputEvent) :
      Does env H fuel s (.sendKey e) { s with channel := s.channel.sendKey e }
  | call {c : MapperCall} {mapper : Mapper}
      (h : s.mapper.operate env H fuel c.operation = .ok mapper) :
      Does env H fuel s (.call c) { s with mapper }
  | close : Does env H fuel s .close { s with channel := s.channel.close }
  | interrupt : Does env H fuel s .requestInterruption { s with interrupted := true }
  | leave (hhead : s.phase = .head) (hstop : (s.mapper.stopped || s.interrupted) = true) :
      Does env H fuel s .advance { s with phase := .ended }
  | wait (hhead : s.phase = .head) (hgo : (s.mapper.stopped || s.interrupted) = false) :
      Does env H fuel s .advance { s with phase := .waiting }
  | take (x : ThreadStep) (hx : x = .advance ∨ x = .timeOut) (hwaiting : s.phase = .waiting) :
      Does env H fuel s x
        { s with channel := s.channel.takeKey.2, phase := .awake s.channel.takeKey.1 }
  | iterate {keyOpt : Option InputEvent} {mapper : Mapper} (hawake : s.phase = .awake keyOpt)
      (h : s.mapper.loopBody env H fuel keyOpt = .ok mapper) :
      Does env H fuel s .advance
        { s with mapper, timeout := some mapper.nextTimeout, phase := .head }

variable {env : Env} {H : QHash} {fuel : ℕ} {s s' : MapperThread} {x : ThreadStep}
  {steps : List ThreadStep}

theorem does_of_step (h : s.step env H fuel x = .ok s') : Does env H fuel s x s' := by
  cases x with
  | sendKey e =>
      cases h
      exact .sendKey e
  | call c =>
      obtain ⟨mapper, hmapper, h⟩ := Exits.bind_eq_ok.mp h
      cases h
      exact .call hmapper
  | close =>
      cases h
      exact .close
  | requestInterruption =>
      cases h
      exact .interrupt
  | advance =>
      simp only [step] at h
      split at h
      · rename_i hhead
        cases h
        split
        · rename_i hstop
          exact .leave hhead hstop
        · rename_i hgo
          exact .wait hhead (by simpa using hgo)
      · rename_i hwaiting
        split at h
        · cases h
          exact .take _ (.inl rfl) hwaiting
        · rename_i hready
          cases h
          exact .idle _ (.inl ⟨rfl, .inl ⟨hwaiting, by simpa using hready⟩⟩)
      · rename_i keyOpt hawake
        obtain ⟨mapper, hmapper, h⟩ := Exits.bind_eq_ok.mp h
        cases h
        exact .iterate hawake hmapper
      · rename_i hended
        cases h
        exact .idle _ (.inl ⟨rfl, .inr hended⟩)
  | timeOut =>
      simp only [step] at h
      split at h
      · rename_i hdue
        cases h
        exact .take _ (.inr rfl) hdue.1
      · cases h
        exact .idle _ (.inr rfl)

/-- What holds at first and is kept by every step holds throughout a run. -/
theorem run_induction {P : List ThreadStep → MapperThread → Prop} (hstart : P [] s)
    (hstep : ∀ steps x s₁ s₂, P steps s₁ → Does env H fuel s₁ x s₂ → P (steps ++ [x]) s₂)
    (h : s.run env H fuel steps = .ok s') : P steps s' := by
  refine Exits.foldlM_induction hstart ?_ h
  intro steps x s₁ s₂ hs₁ hstep₁
  exact hstep steps x s₁ s₂ hs₁ (does_of_step hstep₁)

theorem run_snoc {s₁ s₂ : MapperThread} (h : s.run env H fuel steps = .ok s₁)
    (hstep : s₁.step env H fuel x = .ok s₂) : s.run env H fuel (steps ++ [x]) = .ok s₂ := by
  rw [run, List.foldlM_append, Exits.bind_eq_ok]
  exact ⟨s₁, h, Exits.foldlM_cons_eq_ok.mpr ⟨s₂, hstep, rfl⟩⟩

/-! ## One life of the mapper -/

/-- The events sent in a run. -/
def sends (steps : List ThreadStep) : List InputEvent := steps.filterMap ThreadStep.key?

def calls (steps : List ThreadStep) : List MapperCall := steps.filterMap ThreadStep.call?

def called : Operation → Option Operation
  | .iteration _ => none
  | operation => some operation

/-- What was sent and is not handled yet. -/
def pending (s : MapperThread) : List InputEvent := s.phase.inFlight.toList ++ s.channel.queue

@[simp] theorem sends_nil : sends [] = [] := rfl

@[simp] theorem sends_singleton (x : ThreadStep) : sends [x] = x.key?.toList := by
  cases x <;> rfl

@[simp] theorem calls_singleton (x : ThreadStep) : calls [x] = x.call?.toList := by
  cases x <;> rfl

@[simp] theorem sends_append (steps more : List ThreadStep) :
    sends (steps ++ more) = sends steps ++ sends more :=
  List.filterMap_append ..

@[simp] theorem calls_append (steps more : List ThreadStep) :
    calls (steps ++ more) = calls steps ++ calls more :=
  List.filterMap_append ..

theorem called_operation (c : MapperCall) : called c.operation = some c.operation := by
  cases c <;> rfl

theorem profiles_of_called {operations : List Operation} {made : List MapperCall}
    (h : operations.filterMap called = made.map MapperCall.operation) :
    operations.filterMap Operation.profile? = made.filterMap MapperCall.profile? := by
  have hcalled : ∀ operation : Operation, operation.profile? =
      (called operation).bind Operation.profile? := by
    intro operation
    cases operation <;> rfl
  have hmade : ∀ c : MapperCall, c.profile? = c.operation.profile? := by
    intro c
    cases c <;> rfl
  rw [funext hcalled, ← List.filterMap_filterMap, h, List.filterMap_map]
  exact List.filterMap_congr fun c _ ↦ (hmade c).symm

theorem handled_operation (c : MapperCall) : c.operation.handled = none := by
  cases c <;> rfl

/-- Taking a key leaves it pending. -/
theorem pending_take (hwaiting : s.phase = .waiting) :
    pending { s with channel := s.channel.takeKey.2, phase := .awake s.channel.takeKey.1 } =
      s.pending := by
  simpa [pending, MapperPhase.inFlight, hwaiting] using s.channel.queue_takeKey

/-- However the threads are interleaved, the mapper lives one life: its
operations are the calls in their order and iterations, which handle what was
sent in the order it was sent; the rest of it is pending. -/
theorem lives_of_run {profile : Profile} {layerChangedCallback : Bool} {m₀ : Mapper}
    (hnew : Mapper.new H profile layerChangedCallback = .ok m₀)
    (h : run env H fuel { mapper := m₀ } steps = .ok s) :
    ∃ operations, Mapper.life env H fuel profile layerChangedCallback operations = .ok s.mapper ∧
      operations.filterMap called = (calls steps).map MapperCall.operation ∧
      operations.filterMap Operation.handled ++ s.pending = sends steps := by
  refine run_induction (P := fun steps s ↦ ∃ operations,
    Mapper.life env H fuel profile layerChangedCallback operations = .ok s.mapper ∧
    operations.filterMap called = (calls steps).map MapperCall.operation ∧
    operations.filterMap Operation.handled ++ s.pending = sends steps) ?_ ?_ h
  · exact ⟨[], by rw [Mapper.life, hnew]; rfl, rfl, rfl⟩
  · rintro steps x s₁ s₂ ⟨operations, hlife, hcalls, hsends⟩ hdoes
    have hsame : calls [x] = [] → sends [x] = [] → s₂.mapper = s₁.mapper →
        s₂.pending = s₁.pending → ∃ operations,
          Mapper.life env H fuel profile layerChangedCallback operations = .ok s₂.mapper ∧
          operations.filterMap called = (calls (steps ++ [x])).map MapperCall.operation ∧
          operations.filterMap Operation.handled ++ s₂.pending = sends (steps ++ [x]) := by
      intro hx hx' hmapper hpending
      refine ⟨operations, hmapper ▸ hlife, ?_, ?_⟩
      · rw [calls_append, hx, List.append_nil, hcalls]
      · rw [sends_append, hx', List.append_nil, hpending, hsends]
    cases hdoes with
    | idle x hx => rcases hx with ⟨rfl, -⟩ | rfl <;> exact hsame rfl rfl rfl rfl
    | sendKey e =>
        refine ⟨operations, hlife, by simpa [ThreadStep.call?] using hcalls, ?_⟩
        rw [sends_append, ← hsends, List.append_assoc]
        simp [pending, Channel.sendKey, KeyQueue.sendKey, ThreadStep.key?]
    | @call c mapper hcall =>
        refine ⟨operations ++ [c.operation], Mapper.life_snoc hlife hcall, ?_, ?_⟩
        · simp [hcalls, called_operation, ThreadStep.call?]
        · have hpending : pending { s₁ with mapper } = s₁.pending := rfl
          rw [hpending]
          simpa [handled_operation, ThreadStep.key?] using hsends
    | close => exact hsame rfl rfl rfl rfl
    | interrupt => exact hsame rfl rfl rfl rfl
    | leave hhead => exact hsame rfl rfl rfl (by simp [pending, MapperPhase.inFlight, hhead])
    | wait hhead => exact hsame rfl rfl rfl (by simp [pending, MapperPhase.inFlight, hhead])
    | take x hx hwaiting =>
        rcases hx with rfl | rfl <;> exact hsame rfl rfl rfl (pending_take hwaiting)
    | @iterate keyOpt mapper hawake hbody =>
        have hoperate : s₁.mapper.operate env H fuel (.iteration keyOpt) = .ok mapper := hbody
        refine ⟨operations ++ [.iteration keyOpt], Mapper.life_snoc hlife hoperate, ?_, ?_⟩
        · rw [List.filterMap_append, hcalls, calls_append]
          simp [called, ThreadStep.call?]
        · rw [sends_append, ← hsends]
          cases keyOpt <;>
            simp [pending, MapperPhase.inFlight, hawake, Operation.handled, ThreadStep.key?]

/-- However the threads are interleaved, the mapper lives one life, in which
it handles what was sent in the order it was sent; once it has processed as
many events as were sent, nothing is pending. -/
theorem run_lives (env : Env) (H : QHash) (fuel : ℕ) (profile : Profile)
    (layerChangedCallback : Bool) (steps : List ThreadStep) {m₀ : Mapper} {s : MapperThread}
    (hnew : Mapper.new H profile layerChangedCallback = .ok m₀)
    (h : run env H fuel { mapper := m₀ } steps = .ok s) :
    ∃ operations, Mapper.life env H fuel profile layerChangedCallback operations = .ok s.mapper ∧
      operations.filterMap called = (calls steps).map MapperCall.operation ∧
      operations.filterMap Operation.handled ++ s.pending = sends steps ∧
      s.mapper.processedEventsCount + s.pending.length = (sends steps).length := by
  obtain ⟨operations, hlife, hcalls, hsends⟩ := lives_of_run hnew h
  refine ⟨operations, hlife, hcalls, hsends, ?_⟩
  rw [Mapper.processed_of_life hlife, ← hsends, List.length_append]

/-- A pauses the wait and is handled late; the pause comes in between. -/
theorem run_lives_paused : ∃ (m₀ : Mapper) (s : MapperThread) (operations : List Operation),
    Mapper.new (.first _) Mapper.swapProfile false = .ok m₀ ∧
    run .still (.first _) 1 { mapper := m₀ }
      [.advance, .sendKey (.key ⟨.a, .press⟩), .advance, .call .pause, .advance,
        .sendKey (.key ⟨.b, .press⟩)] = .ok s ∧
    Mapper.life .still (.first _) 1 Mapper.swapProfile false operations = .ok s.mapper ∧
    operations.filterMap called = [.pause] ∧
    operations.filterMap Operation.handled ++ s.pending =
      [.key ⟨.a, .press⟩, .key ⟨.b, .press⟩] ∧
    s.mapper.processedEventsCount + s.pending.length = 2 := by
  obtain ⟨operations, hlife, hcalls, hsends⟩ := run_lives .still (.first _) 1
    Mapper.swapProfile false [.advance, .sendKey (.key ⟨.a, .press⟩), .advance, .call .pause,
      .advance, .sendKey (.key ⟨.b, .press⟩)] rfl rfl
  exact ⟨_, _, operations, rfl, rfl, hlife, hcalls, hsends⟩

/-! ## The timeout -/

/-- Whatever the other threads have called, a thread that waits while the
timer is set or an output is queued looks at them after 10 ms. -/
theorem run_waitsBriefly (env : Env) (H : QHash) (fuel : ℕ) (profile : Profile)
    (layerChangedCallback : Bool) (steps : List ThreadStep) {m₀ : Mapper} {s : MapperThread}
    (hnew : Mapper.new H profile layerChangedCallback = .ok m₀)
    (h : run env H fuel { mapper := m₀ } steps = .ok s) (hwaiting : s.phase = .waiting)
    (hbusy : s.mapper.Busy) : s.timeout = some 10 := by
  have hkept : s.phase = .head ∨ s.phase = .waiting → s.mapper.Busy → s.timeout = some 10 := by
    refine run_induction (P := fun _ s ↦ s.phase = .head ∨ s.phase = .waiting → s.mapper.Busy →
      s.timeout = some 10) ?_ ?_ h
    · have hfresh := Mapper.fresh_of_new hnew
      intro _ hbusy
      rcases hbusy with hbusy | hbusy
      · exact absurd hfresh.timer hbusy
      · exact absurd hfresh.queue hbusy
    · intro _ x s₁ s₂ hs₁ hdoes hphase hbusy
      cases hdoes with
      | idle => exact hs₁ hphase hbusy
      | sendKey => exact hs₁ hphase hbusy
      | call hcall => exact hs₁ hphase (Mapper.busy_of_call hcall hbusy)
      | close => exact hs₁ hphase hbusy
      | interrupt => exact hs₁ hphase hbusy
      | leave => simp at hphase
      | wait hhead => exact hs₁ (.inl hhead) hbusy
      | take => simp at hphase
      | iterate => exact congrArg some (Mapper.nextTimeout_of_busy hbusy)
  exact hkept (.inr hwaiting) hbusy

/-- A is to be held. -/
def holdProfile : Profile :=
  ⟨"hold", [⟨"hold", [], [⟨.capture, [.keyPress .a, .minimumWait 100], [.pressKey .y]⟩]⟩], 0⟩

/-- The mapper waits for A to be held, and has a look after 10 ms. -/
theorem run_waitsBriefly_hold : ∃ m₀ s,
    Mapper.new (.first _) holdProfile false = .ok m₀ ∧
    run .still (.first _) 1 { mapper := m₀ }
      [.sendKey (.key ⟨.a, .press⟩), .advance, .advance, .advance, .advance] = .ok s ∧
    s.mapper.currentTimer = some 100 ∧ s.timeout = some 10 := by
  have h := run_waitsBriefly .still (.first _) 1 holdProfile false
    [.sendKey (.key ⟨.a, .press⟩), .advance, .advance, .advance, .advance] rfl rfl rfl
    (.inl (by decide))
  exact ⟨_, _, rfl, rfl, rfl, h⟩

/-! ## The end of the loop -/

theorem Does.operates (h : Does env H fuel s x s') :
    s'.mapper = s.mapper ∧ x ≠ .call .stop ∨ ∃ operation,
      s.mapper.operate env H fuel operation = .ok s'.mapper ∧
        (operation = .stop ↔ x = .call .stop) := by
  cases h with
  | idle x h => exact .inl ⟨rfl, by rcases h with ⟨rfl, -⟩ | rfl <;> simp⟩
  | sendKey => exact .inl ⟨rfl, by simp⟩
  | @call c mapper h => exact .inr ⟨_, h, by cases c <;> simp [MapperCall.operation]⟩
  | close => exact .inl ⟨rfl, by simp⟩
  | interrupt => exact .inl ⟨rfl, by simp⟩
  | leave => exact .inl ⟨rfl, by simp⟩
  | wait => exact .inl ⟨rfl, by simp⟩
  | take x hx => exact .inl ⟨rfl, by rcases hx with rfl | rfl <;> simp⟩
  | @iterate keyOpt mapper _ h => exact .inr ⟨.iteration keyOpt, h, by simp⟩

theorem Does.sent_le (h : Does env H fuel s x s') : s.mapper.sent <+: s'.mapper.sent := by
  rcases h.operates with ⟨hmapper, -⟩ | ⟨operation, hoperate, -⟩
  · rw [hmapper]
  · exact Mapper.sent_of_operate hoperate

theorem Does.stopped (h : Does env H fuel s x s') :
    s'.mapper.stopped = (s.mapper.stopped || decide (x = .call .stop)) := by
  rcases h.operates with ⟨hmapper, hx⟩ | ⟨operation, hoperate, hiff⟩
  · simp [hmapper, hx]
  · simp [Mapper.stopped_of_operate hoperate, hiff]

theorem Does.closed (h : Does env H fuel s x s') :
    s'.channel.closed = (s.channel.closed || decide (x = .close)) := by
  cases h with
  | idle x h => rcases h with ⟨rfl, -⟩ | rfl <;> simp
  | take x hx => rcases hx with rfl | rfl <;> simp
  | _ => simp [Channel.sendKey, Channel.close]

theorem Does.interrupted (h : Does env H fuel s x s') :
    s'.interrupted = (s.interrupted || decide (x = .requestInterruption)) := by
  cases h with
  | idle x h => rcases h with ⟨rfl, -⟩ | rfl <;> simp
  | take x hx => rcases hx with rfl | rfl <;> simp
  | _ => simp

/-- A flag that one kind of step sets and no step clears. -/
theorem flag_of_run (flag : MapperThread → Bool) (sets : ThreadStep)
    (hstep : ∀ {s s' x}, Does env H fuel s x s' → flag s' = (flag s || decide (x = sets)))
    (h : s.run env H fuel steps = .ok s') : flag s' = (flag s || decide (sets ∈ steps)) := by
  refine run_induction (P := fun steps s' ↦ flag s' = (flag s || decide (sets ∈ steps))) ?_ ?_ h
  · simp
  · intro steps x s₁ s₂ hs₁ hdoes
    rw [hstep hdoes, hs₁, Bool.or_assoc]
    simp [List.mem_append, eq_comm]

theorem stopped_of_run (h : s.run env H fuel steps = .ok s') :
    s'.mapper.stopped = (s.mapper.stopped || decide (.call .stop ∈ steps)) :=
  flag_of_run (fun s ↦ s.mapper.stopped) _ Does.stopped h

theorem closed_of_run (h : s.run env H fuel steps = .ok s') :
    s'.channel.closed = (s.channel.closed || decide (.close ∈ steps)) :=
  flag_of_run (fun s ↦ s.channel.closed) _ Does.closed h

/-- A stopped mapper behind a closed channel. -/
structure Stopped (s : MapperThread) : Prop where
  stopped : s.mapper.stopped = true
  closed : s.channel.closed = true

theorem Stopped.does (h : s.Stopped) (hdoes : Does env H fuel s x s') :
    s'.Stopped ∧ s'.channel.queue = s.channel.queue ++ sends [x] ∧
      s'.phase.remaining ≤ s.phase.remaining - [x].count .advance := by
  refine ⟨⟨by simp [hdoes.stopped, h.stopped], by simp [hdoes.closed, h.closed]⟩, ?_⟩
  cases hdoes with
  | idle x hx =>
      rcases hx with ⟨rfl, ⟨-, hready⟩ | hended⟩ | rfl
      · simp [Channel.ready, h.closed] at hready
      · simp [ThreadStep.key?, hended, MapperPhase.remaining]
      · simp [ThreadStep.key?]
  | sendKey e => simp [ThreadStep.key?, Channel.sendKey, KeyQueue.sendKey]
  | call => simp [ThreadStep.key?]
  | close => simp [ThreadStep.key?, Channel.close]
  | interrupt => simp [ThreadStep.key?]
  | leave hhead => simp [ThreadStep.key?, hhead, MapperPhase.remaining]
  | wait hhead hgo => simp [h.stopped] at hgo
  | take x hx hwaiting =>
      rw [Channel.takeKey_of_closed h.closed]
      rcases hx with rfl | rfl <;> simp [ThreadStep.key?, hwaiting, MapperPhase.remaining]
  | iterate hawake => simp [ThreadStep.key?, hawake, MapperPhase.remaining]

/-- Once the mapper is stopped and the channel is closed the loop ends: it
advances at most three times, and takes no event any more. -/
theorem run_ends (env : Env) (H : QHash) (fuel : ℕ) (before after : List ThreadStep)
    {s s₁ s' : MapperThread} (hbefore : run env H fuel s before = .ok s₁)
    (hstop : .call .stop ∈ before) (hclose : .close ∈ before)
    (hafter : run env H fuel s₁ after = .ok s') (hcount : 3 ≤ after.count .advance) :
    s'.phase = .ended ∧ s'.channel.queue = s₁.channel.queue ++ sends after := by
  have hs₁ : s₁.Stopped :=
    ⟨by simp [stopped_of_run hbefore, hstop], by simp [closed_of_run hbefore, hclose]⟩
  have hkept : s'.Stopped ∧ s'.channel.queue = s₁.channel.queue ++ sends after ∧
      s'.phase.remaining ≤ 3 - after.count .advance := by
    refine run_induction (P := fun steps s ↦ s.Stopped ∧
      s.channel.queue = s₁.channel.queue ++ sends steps ∧
      s.phase.remaining ≤ 3 - steps.count .advance) ?_ ?_ hafter
    · refine ⟨hs₁, (List.append_nil _).symm, ?_⟩
      cases s₁.phase <;> simp [MapperPhase.remaining]
    · rintro steps x s₂ s₃ ⟨hs₂, hqueue, hremaining⟩ hdoes
      obtain ⟨hs₃, hqueue', hremaining'⟩ := hs₂.does hdoes
      refine ⟨hs₃, ?_, ?_⟩
      · rw [hqueue', hqueue, sends_append, List.append_assoc]
      · rw [List.count_append]
        omega
  obtain ⟨-, hqueue, hremaining⟩ := hkept
  exact ⟨MapperPhase.ended_of_remaining (by omega), hqueue⟩

/-- A thread at its start, where A swaps to a layer without remappings. -/
def swapThread : MapperThread where
  mapper :=
    { profile := Mapper.swapProfile
      states := Mapper.swapProfile.layers.map fun _ ↦ [generateHomeState.1]
      basicMaps := Mapper.swapProfile.layers.map Layer.basicMap
      layerChangedCallback := false
      history := [.layerSet 0] }

/-- B is sent too late. -/
theorem run_ends_dropped : ∃ s₁ s',
    run .still (.first _) 1 swapThread
      [.advance, .sendKey (.key ⟨.a, .press⟩), .advance, .call .stop, .close] = .ok s₁ ∧
    run .still (.first _) 1 s₁
      [.advance, .sendKey (.key ⟨.b, .press⟩), .advance, .timeOut, .advance] = .ok s' ∧
    s'.phase = .ended ∧ s'.channel.queue = [.key ⟨.b, .press⟩] := by
  obtain ⟨s₁, hs₁⟩ : ∃ s₁, run .still (.first _) 1 swapThread
      [.advance, .sendKey (.key ⟨.a, .press⟩), .advance, .call .stop, .close] = .ok s₁ :=
    ⟨_, rfl⟩
  have hs := hs₁
  cases hs
  have h := run_ends .still (.first _) 1
    [.advance, .sendKey (.key ⟨.a, .press⟩), .advance, .call .stop, .close]
    [.advance, .sendKey (.key ⟨.b, .press⟩), .advance, .timeOut, .advance]
    hs₁ (by decide) (by decide) rfl (by decide)
  exact ⟨_, _, rfl, rfl, h⟩

/-! ## Progress -/

/-- The loop runs, and nobody has asked it to end. -/
structure Running (s : MapperThread) : Prop where
  phase : s.phase ≠ .ended
  stopped : s.mapper.stopped = false
  interrupted : s.interrupted = false
  closed : s.channel.closed = false

theorem Running.does (h : s.Running) (hdoes : Does env H fuel s x s') (hstop : x ≠ .call .stop)
    (hinterrupt : x ≠ .requestInterruption) (hclose : x ≠ .close) : s'.Running := by
  refine ⟨?_, by simp [hdoes.stopped, h.stopped, hstop],
    by simp [hdoes.interrupted, h.interrupted, hinterrupt],
    by simp [hdoes.closed, h.closed, hclose]⟩
  cases hdoes with
  | leave _ hleave => simp [h.stopped, h.interrupted] at hleave
  | wait => simp
  | take => simp
  | iterate => simp
  | _ => exact h.phase

/-- A step of a running thread keeps what is pending and is one nearer to the
next event, or it handles that event. -/
theorem Does.progresses (hdoes : Does env H fuel s x s') (h : s.Running) :
    s'.pending = s.pending ++ sends [x] ∧
        (s.pending ≠ [] → s.phase.progress + [x].count .advance ≤ s'.phase.progress) ∨
      ∃ e, x = .advance ∧ s.phase = .awake (some e) ∧ s'.phase = .head ∧
        s.pending = e :: s'.pending := by
  cases hdoes with
  | idle x hx =>
      left
      rcases hx with ⟨rfl, ⟨hwaiting, hready⟩ | hended⟩ | rfl
      · refine ⟨(List.append_nil _).symm, fun hpending ↦ ?_⟩
        simp only [Channel.ready, h.closed, Bool.false_or, Bool.not_eq_false',
          List.isEmpty_iff] at hready
        simp [pending, hwaiting, MapperPhase.inFlight, hready] at hpending
      · exact absurd hended h.phase
      · exact ⟨(List.append_nil _).symm, fun _ ↦ Nat.le_refl _⟩
  | sendKey e =>
      left
      simp [pending, Channel.sendKey, KeyQueue.sendKey, ThreadStep.key?]
  | call =>
      left
      simp [pending, ThreadStep.key?]
  | close =>
      left
      simp [pending, ThreadStep.key?, Channel.close]
  | interrupt =>
      left
      simp [pending, ThreadStep.key?]
  | leave _ hstop => simp [h.stopped, h.interrupted] at hstop
  | wait hhead =>
      left
      simp [pending, hhead, MapperPhase.inFlight, MapperPhase.progress, ThreadStep.key?]
  | take x hx hwaiting =>
      left
      have hsends : sends [x] = [] := by rcases hx with rfl | rfl <;> rfl
      refine ⟨by rw [pending_take hwaiting, hsends, List.append_nil], fun hpending ↦ ?_⟩
      have hqueue : s.channel.queue ≠ [] := by
        simpa [pending, hwaiting, MapperPhase.inFlight] using hpending
      obtain ⟨e, he⟩ := Channel.takeKey_of_ne_nil h.closed hqueue
      simp only [he, hwaiting, MapperPhase.progress]
      have hcount : [x].count ThreadStep.advance ≤ 1 := List.count_le_length
      omega
  | @iterate keyOpt mapper hawake =>
      cases keyOpt with
      | none =>
          left
          simp [pending, hawake, MapperPhase.inFlight, MapperPhase.progress, ThreadStep.key?]
      | some e => exact .inr ⟨e, rfl, hawake, rfl, by simp [pending, hawake, MapperPhase.inFlight]⟩

/-- Nothing of the old events is pending, or `d` of them are handled, and
each has taken three steps of the loop. -/
def Catching (old : List InputEvent) (steps : List ThreadStep) (s : MapperThread) : Prop :=
  s.pending <:+ sends steps ∨ ∃ d, d < old.length ∧ s.pending = old.drop d ++ sends steps ∧
    steps.count .advance ≤ 3 * d + s.phase.progress

theorem Catching.does {old : List InputEvent} (h : Catching old steps s) (hrunning : s.Running)
    (hdoes : Does env H fuel s x s') : Catching old (steps ++ [x]) s' := by
  rcases h with hsuffix | ⟨d, hd, hpending, hcount⟩
  · left
    rw [sends_append]
    rcases hdoes.progresses hrunning with ⟨heq, -⟩ | ⟨e, rfl, -, -, heq⟩
    · rw [heq]
      obtain ⟨done, hdone⟩ := hsuffix
      exact ⟨done, by rw [← hdone, List.append_assoc]⟩
    · have hsends : sends [.advance] = [] := rfl
      rw [hsends, List.append_nil]
      exact ((List.suffix_cons e _).trans (heq ▸ List.suffix_rfl)).trans hsuffix
  · have hne : s.pending ≠ [] := by
      rw [hpending]
      exact List.append_ne_nil_of_left_ne_nil (by simpa using hd) _
    rcases hdoes.progresses hrunning with ⟨heq, hle⟩ | ⟨e, rfl, hawake, hhead, heq⟩
    · right
      refine ⟨d, hd, by rw [heq, hpending, sends_append, List.append_assoc], ?_⟩
      have hle' := hle hne
      rw [List.count_append]
      omega
    · have hsends : sends (steps ++ [.advance]) = sends steps := by
        rw [sends_append]
        exact List.append_nil _
      rw [heq, List.drop_eq_getElem_cons hd, List.cons_append, List.cons.injEq] at hpending
      rw [Catching, hsends]
      rcases Nat.lt_or_ge (d + 1) old.length with hlt | hge
      · refine .inr ⟨d + 1, hlt, hpending.2, ?_⟩
        rw [hawake] at hcount
        simp only [hhead, List.count_append, List.count_singleton_self, MapperPhase.progress]
          at hcount ⊢
        omega
      · left
        rw [hpending.2, List.drop_eq_nil_of_le hge, List.nil_append]

theorem running_of_new {profile : Profile} {layerChangedCallback : Bool} {m : Mapper}
    (hnew : Mapper.new H profile layerChangedCallback = .ok m) :
    ({ mapper := m } : MapperThread).Running :=
  ⟨by simp, (Mapper.started_of_new hnew).2, rfl, rfl⟩

/-- Nobody asks the loop to end: it goes on running, and catches up with what
was pending. -/
theorem Running.run (h : s.Running) (hrun : run env H fuel s steps = .ok s')
    (hstop : .call .stop ∉ steps) (hinterrupt : .requestInterruption ∉ steps)
    (hclose : .close ∉ steps) : s'.Running ∧ Catching s.pending steps s' := by
  refine run_induction (P := fun steps s₁ ↦ .call .stop ∉ steps →
    .requestInterruption ∉ steps → .close ∉ steps → s₁.Running ∧
      Catching s.pending steps s₁) ?_ ?_ hrun hstop hinterrupt hclose
  · intro _ _ _
    refine ⟨h, ?_⟩
    cases hpending : s.pending with
    | nil => exact .inl (by rw [hpending]; exact List.nil_suffix)
    | cons e es => exact .inr ⟨0, Nat.succ_pos _, by simp [hpending], by simp⟩
  · intro steps x s₁ s₂ hs₁ hdoes hstop hinterrupt hclose
    simp only [List.mem_append, List.mem_singleton, not_or] at hstop hinterrupt hclose
    obtain ⟨hrunning₁, hcatching⟩ := hs₁ hstop.1 hinterrupt.1 hclose.1
    exact ⟨hrunning₁.does hdoes (Ne.symm hstop.2) (Ne.symm hinterrupt.2) (Ne.symm hclose.2),
      hcatching.does hrunning₁ hdoes⟩

/-- With three steps of the loop for each of them the old events are
handled. -/
theorem Catching.suffix {old : List InputEvent} (h : Catching old steps s)
    (hcount : 3 * old.length < steps.count .advance) : s.pending <:+ sends steps := by
  rcases h with hsuffix | ⟨d, hd, -, hle⟩
  · exact hsuffix
  · have hprogress := s.phase.progress_le
    omega

/-- While nobody asks the loop to end it handles every pending event, one
within three of its steps. -/
theorem run_progresses (env : Env) (H : QHash) (fuel : ℕ) (steps : List ThreadStep)
    {s s' : MapperThread} (hrunning : s.Running) (hrun : run env H fuel s steps = .ok s')
    (hstop : .call .stop ∉ steps) (hinterrupt : .requestInterruption ∉ steps)
    (hclose : .close ∉ steps) (hcount : 3 * s.pending.length < steps.count .advance) :
    s'.pending <:+ sends steps :=
  (hrunning.run hrun hstop hinterrupt hclose).2.suffix hcount

/-- A is handled within the first four steps; B may still be pending. -/
theorem run_progresses_swap : ∃ s',
    run .still (.first _) 1 { swapThread with channel := { queue := [.key ⟨.a, .press⟩] } }
      [.advance, .sendKey (.key ⟨.b, .press⟩), .advance, .advance, .advance] = .ok s' ∧
    s'.mapper.curLayerIdx = 1 ∧ s'.pending <:+ [.key ⟨.b, .press⟩] := by
  have h := run_progresses .still (.first _) 1
    [.advance, .sendKey (.key ⟨.b, .press⟩), .advance, .advance, .advance]
    (s := { swapThread with channel := { queue := [.key ⟨.a, .press⟩] } })
    ⟨by decide, rfl, rfl, rfl⟩ rfl (by decide) (by decide) (by decide) (by decide)
  exact ⟨_, rfl, rfl, h⟩

/-! ## The thread within a system -/

/-- The thread has run from a mapper on, with some calls and some events that
were sent to it. -/
def Ran (env : Env) (H : QHash) (fuel : ℕ) (m₀ : Mapper) (made : List MapperCall)
    (received : List InputEvent) (s : MapperThread) : Prop :=
  ∃ steps, run env H fuel { mapper := m₀ } steps = .ok s ∧ calls steps = made ∧
    sends steps = received

/-- What a step has sent to the daemon. -/
theorem sent_append_drop (h : s.step env H fuel x = .ok s') :
    s.mapper.sent ++ s'.mapper.sent.drop s.mapper.sent.length = s'.mapper.sent := by
  obtain ⟨new, hnew⟩ := (does_of_step h).sent_le
  rw [← hnew, List.drop_left]

namespace Ran

variable {m₀ : Mapper} {made : List MapperCall} {received : List InputEvent}

theorem start : Ran env H fuel m₀ [] [] { mapper := m₀ } := ⟨[], rfl, rfl, rfl⟩

/-- An event may be sent to the thread. -/
theorem receive (h : Ran env H fuel m₀ made received s) (e : Option InputEvent) :
    Ran env H fuel m₀ made (received ++ e.toList) { s with
      channel := { s.channel with queue := s.channel.queue ++ e.toList } } := by
  obtain ⟨steps, hrun, rfl, rfl⟩ := h
  cases e with
  | none => exact ⟨steps, by simpa using hrun, rfl, (List.append_nil _).symm⟩
  | some e =>
      refine ⟨steps ++ [.sendKey e], run_snoc hrun rfl, ?_, ?_⟩
      · rw [calls_append]
        exact List.append_nil _
      · rw [sends_append]
        rfl

theorem step (h : Ran env H fuel m₀ made received s) (hx : x.key? = none)
    (hstep : s.step env H fuel x = .ok s') :
    Ran env H fuel m₀ (made ++ x.call?.toList) received s' := by
  obtain ⟨steps, hrun, rfl, rfl⟩ := h
  refine ⟨steps ++ [x], run_snoc hrun hstep, ?_, ?_⟩
  · rw [calls_append, calls_singleton]
  · rw [sends_append, sends_singleton, hx]
    exact List.append_nil _

theorem lives (h : Ran env H fuel m₀ made received s) {profile : Profile}
    {layerChangedCallback : Bool} (hnew : Mapper.new H profile layerChangedCallback = .ok m₀) :
    ∃ operations, Mapper.life env H fuel profile layerChangedCallback operations = .ok s.mapper ∧
      operations.filterMap called = made.map MapperCall.operation ∧
      operations.filterMap Operation.handled ++ s.pending = received := by
  obtain ⟨steps, hrun, rfl, rfl⟩ := h
  exact lives_of_run hnew hrun

end Ran

end MapperThread

end Keybinder

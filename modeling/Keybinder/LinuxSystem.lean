import Keybinder.Daemons
import Keybinder.KnownPlaces
import Keybinder.Library.Outbox
import Keybinder.MapperThread

/-!
# The system on Linux

The thread of the daemon reads the keyboard: mapped keys go to the mapper,
the rest goes on to the virtual device, to which the thread of the mapper
writes as well.  Every `write` is a step of its own, so that the writes of
the two threads can be interleaved in any way.
-/

namespace Keybinder

namespace Linux

/-- The types of device events that the daemon tells apart. -/
inductive EventType where
  | key
  | syn
  | other
  deriving DecidableEq

/-- `struct input_event`; its time is left blank. -/
structure DeviceEvent where
  type : EventType
  code : ℕ
  value : ℤ
  deriving DecidableEq

/-- `SYN_REPORT`, which ends a packet of events. -/
def synReport : DeviceEvent := ⟨.syn, 0, 0⟩

/-- A device event that is written, or a script that is started. -/
inductive Write where
  | event (e : DeviceEvent)
  | script (s : RunScript)
  deriving DecidableEq

def Write.event? : Write → Option DeviceEvent
  | event e => some e
  | script _ => none

/-- The writes of `send_key`. -/
def keyWrites (keyCode : ℕ) (state : ℤ) : List Write :=
  [.event ⟨.key, keyCode, state⟩, .event synReport]

/-- The writes of an effect; this daemon injects no mouse input. -/
def effectWrites : DaemonEffect → List Write
  | .key code type => keyWrites code (if type = .press then 1 else 0)
  | .mouse => []
  | .script s => [.script s]

/-- What the loop of `start` does with an event of the keyboard. -/
def handleEvent (keyMap : KeyMap) (channel : Channel) (e : DeviceEvent) :
    Channel × List Write :=
  match e.type with
  | .key =>
      match keyMap.findForward e.code with
      | some keycode =>
          let type := if e.value = 1 then .press else if e.value = 2 then .press else .release
          (channel.sendKey (.key ⟨keycode, type⟩), [])
      | none => (channel, keyWrites e.code e.value)
  | .syn => (channel, [.event synReport])
  | .other => (channel, [])

/-- The two threads that write to the virtual device. -/
inductive Writer where
  | daemon
  | mapper
  deriving DecidableEq

/-- `device` holds the events of the keyboard that are not read yet. -/
structure System where
  thread : MapperThread
  device : List DeviceEvent := []
  outbox : Outbox Writer Write := {}
  interruptionRequested : Bool := false
  terminationCondition : Bool := false
  ended : Bool := false

/-- Only the daemon sends keys to the mapper. -/
inductive SystemStep where
  | arrive (e : DeviceEvent)
  | requestInterruption
  | read
  | write (writer : Writer)
  | thread (x : ThreadStep) (h : x.key? = none)

namespace System

/-- The daemon reads on when it has written everything; where nothing is to be
read its outer loop goes round.  The mapper's loop goes on when it has written
everything. -/
def step (keyMap : KeyMap) (env : Env) (H : QHash) (fuel : ℕ) (s : System) :
    SystemStep → Except Exit System
  | .arrive e => return { s with device := s.device ++ [e] }
  | .requestInterruption => return { s with interruptionRequested := true }
  | .read =>
      if s.ended ∨ s.outbox.pending .daemon ≠ [] then return s
      else
        match s.device with
        | [] =>
            return { s with
              ended := s.terminationCondition
              terminationCondition := s.interruptionRequested }
        | e :: device =>
            let (channel, writes) := handleEvent keyMap s.thread.channel e
            return { s with
              thread := { s.thread with channel }
              device
              outbox := s.outbox.enqueue .daemon writes }
  | .write writer => return { s with outbox := s.outbox.write writer }
  | .thread x _ =>
      if x = .advance ∧ s.outbox.pending .mapper ≠ [] then return s
      else do
        let thread ← s.thread.step env H fuel x
        let sent := thread.mapper.sent.drop s.thread.mapper.sent.length
        let effects ← sent.mapM (sendOutputs keyMap)
        return { s with
          thread
          outbox := s.outbox.enqueue .mapper (effects.flatten.flatMap effectWrites) }

def run (keyMap : KeyMap) (env : Env) (H : QHash) (fuel : ℕ) (s : System)
    (steps : List SystemStep) : Except Exit System :=
  steps.foldlM (step keyMap env H fuel) s

end System

/-! ## What a step does -/

namespace DeviceEvent

/-- The key event of a mapped key; a repetition counts as a press. -/
def keyEvent? (keyMap : KeyMap) (e : DeviceEvent) : Option KeyEvent :=
  match e.type with
  | .key => (keyMap.findForward e.code).map fun keycode ↦
      ⟨keycode, if e.value = 1 ∨ e.value = 2 then .press else .release⟩
  | _ => none

/-- What goes on to the virtual device. -/
def forwarded (keyMap : KeyMap) (e : DeviceEvent) : List Write :=
  match e.type with
  | .key => if (keyMap.findForward e.code).isSome then [] else keyWrites e.code e.value
  | .syn => [.event synReport]
  | .other => []

end DeviceEvent

theorem handleEvent_eq (keyMap : KeyMap) (channel : Channel) (e : DeviceEvent) :
    handleEvent keyMap channel e =
      ({ channel with queue := channel.queue ++ ((e.keyEvent? keyMap).map InputEvent.key).toList },
        e.forwarded keyMap) := by
  unfold handleEvent DeviceEvent.keyEvent? DeviceEvent.forwarded
  cases e.type with
  | key =>
      cases keyMap.findForward e.code with
      | none => simp
      | some keycode =>
          by_cases h₁ : e.value = 1
          · simp [h₁, Channel.sendKey, KeyQueue.sendKey]
          · simp [h₁, Channel.sendKey, KeyQueue.sendKey]
  | syn => simp
  | other => simp

theorem performs_of_sendOutputs {keyMap : KeyMap} {outputs : List OutputEvent}
    {effects : List DaemonEffect} (h : sendOutputs keyMap outputs = .ok effects) :
    List.Forall₂ (Performs keyMap) outputs effects := by
  have hstep : ∀ {before effects : List DaemonEffect} {output : OutputEvent} {effects'},
      before = effects → visitOutput keyMap effects output = .ok effects' →
      ∃ effect, Performs keyMap output effect ∧ before ++ [effect] = effects' := by
    rintro before effects output effects' rfl hvisit
    cases output with
    | script s =>
        cases hvisit
        exact ⟨_, .script s, rfl⟩
    | key e =>
        obtain ⟨code, hcode, hvisit⟩ := Exits.bind_eq_ok.mp hvisit
        cases hvisit
        refine ⟨_, .key (KeyMap.findBackward_of_code hcode), ?_⟩
        cases htype : e.type <;> simp [sendKey]
  obtain ⟨added, hperforms, rfl⟩ := Exits.exists_forall₂_of_foldlM hstep h rfl
  exact hperforms

namespace SystemStep

def arrival? : SystemStep → Option DeviceEvent
  | arrive e => some e
  | _ => none

def call? : SystemStep → Option MapperCall
  | thread x _ => x.call?
  | _ => none

end SystemStep

namespace System

/-- What a step that returns has done. -/
inductive Does (keyMap : KeyMap) (env : Env) (H : QHash) (fuel : ℕ) (s : System) :
    SystemStep → System → Prop
  | idle (x : SystemStep) (h : x = .read ∨ ∃ h, x = .thread .advance h) :
      Does keyMap env H fuel s x s
  | arrive (e : DeviceEvent) :
      Does keyMap env H fuel s (.arrive e) { s with device := s.device ++ [e] }
  | requestInterruption :
      Does keyMap env H fuel s .requestInterruption { s with interruptionRequested := true }
  | turn :
      Does keyMap env H fuel s .read { s with
        ended := s.terminationCondition
        terminationCondition := s.interruptionRequested }
  | handle {e : DeviceEvent} {device : List DeviceEvent} (hdevice : s.device = e :: device) :
      Does keyMap env H fuel s .read { s with
        thread := { s.thread with channel := { s.thread.channel with
          queue := s.thread.channel.queue ++ ((e.keyEvent? keyMap).map InputEvent.key).toList } }
        device
        outbox := s.outbox.enqueue .daemon (e.forwarded keyMap) }
  | write (writer : Writer) :
      Does keyMap env H fuel s (.write writer) { s with outbox := s.outbox.write writer }
  | thread {x : ThreadStep} (hx : x.key? = none) {thread : MapperThread}
      {effects : List DaemonEffect} (hstep : s.thread.step env H fuel x = .ok thread)
      (heffects : List.Forall₂ (Performs keyMap)
        (thread.mapper.sent.drop s.thread.mapper.sent.length).flatten effects) :
      Does keyMap env H fuel s (.thread x hx) { s with
        thread
        outbox := s.outbox.enqueue .mapper (effects.flatMap effectWrites) }

variable {keyMap : KeyMap} {env : Env} {H : QHash} {fuel : ℕ} {s s' : System} {x : SystemStep}
  {steps : List SystemStep}

theorem does_of_step (h : s.step keyMap env H fuel x = .ok s') :
    Does keyMap env H fuel s x s' := by
  cases x with
  | arrive e =>
      cases h
      exact .arrive e
  | requestInterruption =>
      cases h
      exact .requestInterruption
  | read =>
      simp only [step] at h
      split at h
      · cases h
        exact .idle _ (.inl rfl)
      · split at h
        · cases h
          exact .turn
        · rename_i e device hdevice
          rw [handleEvent_eq] at h
          cases h
          exact .handle hdevice
  | write writer =>
      cases h
      exact .write writer
  | thread x hx =>
      simp only [step] at h
      split at h
      · rename_i hblocked
        cases h
        obtain ⟨rfl, -⟩ := hblocked
        exact .idle _ (.inr ⟨hx, rfl⟩)
      · obtain ⟨thread, hthread, h⟩ := Exits.bind_eq_ok.mp h
        obtain ⟨effects, heffects, h⟩ := Exits.bind_eq_ok.mp h
        cases h
        refine .thread hx hthread ?_
        have hlists := Exits.forall₂_of_mapM heffects
        exact List.rel_flatten (hlists.imp fun _ _ hsend ↦ performs_of_sendOutputs hsend)

/-! ## Nothing is lost -/

def keyEvents (keyMap : KeyMap) (events : List DeviceEvent) : List InputEvent :=
  (events.filterMap (DeviceEvent.keyEvent? keyMap)).map InputEvent.key

theorem keyEvents_append (keyMap : KeyMap) (events more : List DeviceEvent) :
    keyEvents keyMap (events ++ more) = keyEvents keyMap events ++ keyEvents keyMap more := by
  simp [keyEvents]

theorem keyEvents_cons (keyMap : KeyMap) (e : DeviceEvent) (events : List DeviceEvent) :
    keyEvents keyMap (e :: events) =
      ((e.keyEvent? keyMap).map InputEvent.key).toList ++ keyEvents keyMap events := by
  cases h : e.keyEvent? keyMap <;> simp [keyEvents, h]

/-- After the arrival of some events and some calls the thread of the mapper
has run on the key events that were read, and everything that was to be
written for it and for the daemon was queued. -/
structure Accounts (keyMap : KeyMap) (env : Env) (H : QHash) (fuel : ℕ) (m₀ : Mapper)
    (arrived : List DeviceEvent) (made : List MapperCall) (s : System) : Prop where
  thread : ∃ received, MapperThread.Ran env H fuel m₀ made received s.thread ∧
    received ++ keyEvents keyMap s.device = keyEvents keyMap arrived
  mapper : ∃ effects, List.Forall₂ (Performs keyMap) s.thread.mapper.sent.flatten effects ∧
    s.outbox.queuedBy .mapper = effects.flatMap effectWrites
  daemon : s.outbox.queuedBy .daemon ++ s.device.flatMap (DeviceEvent.forwarded keyMap) =
    arrived.flatMap (DeviceEvent.forwarded keyMap)

namespace Accounts

variable {m₀ : Mapper} {arrived : List DeviceEvent} {made : List MapperCall}

theorem start (hsent : m₀.sent = []) :
    Accounts keyMap env H fuel m₀ [] [] { thread := { mapper := m₀ } } := by
  refine ⟨⟨[], .start, rfl⟩, ⟨[], ?_, rfl⟩, rfl⟩
  rw [hsent]
  exact .nil

theorem frame (h : Accounts keyMap env H fuel m₀ arrived made s) (hthread : s'.thread = s.thread)
    (hdevice : s'.device = s.device) (hqueued : ∀ w, s'.outbox.queuedBy w = s.outbox.queuedBy w) :
    Accounts keyMap env H fuel m₀ arrived made s' := by
  refine ⟨?_, ?_, ?_⟩
  · rw [hthread, hdevice]
    exact h.thread
  · rw [hthread, hqueued]
    exact h.mapper
  · rw [hdevice, hqueued]
    exact h.daemon

theorem handle (h : Accounts keyMap env H fuel m₀ arrived made s) {e : DeviceEvent}
    {device : List DeviceEvent} (hdevice : s.device = e :: device) :
    Accounts keyMap env H fuel m₀ arrived made { s with
      thread := { s.thread with channel := { s.thread.channel with
        queue := s.thread.channel.queue ++ ((e.keyEvent? keyMap).map InputEvent.key).toList } }
      device
      outbox := s.outbox.enqueue .daemon (e.forwarded keyMap) } := by
  obtain ⟨⟨received, hran, hreceived⟩, ⟨effects, hperforms, hmapper⟩, hdaemon⟩ := h
  rw [hdevice] at hreceived hdaemon
  refine ⟨⟨_, hran.receive ((e.keyEvent? keyMap).map InputEvent.key), ?_⟩,
    ⟨effects, hperforms, ?_⟩, ?_⟩
  · rw [List.append_assoc, ← keyEvents_cons, hreceived]
  · simpa using hmapper
  · simpa [List.append_assoc] using hdaemon

theorem threadStep (h : Accounts keyMap env H fuel m₀ arrived made s) {x : ThreadStep}
    (hx : x.key? = none) {thread : MapperThread} {effects : List DaemonEffect}
    (hstep : s.thread.step env H fuel x = .ok thread)
    (heffects : List.Forall₂ (Performs keyMap)
      (thread.mapper.sent.drop s.thread.mapper.sent.length).flatten effects) :
    Accounts keyMap env H fuel m₀ arrived (made ++ x.call?.toList) { s with
      thread
      outbox := s.outbox.enqueue .mapper (effects.flatMap effectWrites) } := by
  obtain ⟨⟨received, hran, hreceived⟩, ⟨before, hbefore, hmapper⟩, hdaemon⟩ := h
  refine ⟨⟨received, hran.step hx hstep, hreceived⟩, ⟨before ++ effects, ?_, ?_⟩, ?_⟩
  · rw [← MapperThread.sent_append_drop hstep, List.flatten_append]
    exact List.rel_append hbefore heffects
  · simp [hmapper]
  · simpa using hdaemon

theorem does (h : Accounts keyMap env H fuel m₀ arrived made s)
    (hdoes : Does keyMap env H fuel s x s') :
    Accounts keyMap env H fuel m₀ (arrived ++ x.arrival?.toList) (made ++ x.call?.toList) s' := by
  have hsilent : x.arrival? = none → x.call? = none →
      Accounts keyMap env H fuel m₀ arrived made s' → Accounts keyMap env H fuel m₀
        (arrived ++ x.arrival?.toList) (made ++ x.call?.toList) s' := by
    intro harrival hcall hs'
    simpa [harrival, hcall] using hs'
  cases hdoes with
  | idle x hx => rcases hx with rfl | ⟨_, rfl⟩ <;> exact hsilent rfl rfl h
  | arrive e =>
      obtain ⟨⟨received, hran, hreceived⟩, hmapper, hdaemon⟩ := h
      refine ⟨⟨received, ?_, ?_⟩, hmapper, ?_⟩
      · exact (List.append_nil made).symm ▸ hran
      · simp [SystemStep.arrival?, keyEvents_append, ← hreceived]
      · simp [SystemStep.arrival?, ← hdaemon]
  | requestInterruption => exact hsilent rfl rfl (h.frame rfl rfl fun _ ↦ rfl)
  | turn => exact hsilent rfl rfl (h.frame rfl rfl fun _ ↦ rfl)
  | handle hdevice => exact hsilent rfl rfl (h.handle hdevice)
  | write writer => exact hsilent rfl rfl (h.frame rfl rfl fun _ ↦ Outbox.queuedBy_write)
  | thread hx hstep heffects =>
      have hs' := h.threadStep hx hstep heffects
      simpa [SystemStep.arrival?, SystemStep.call?] using hs'

theorem of_run (hsent : m₀.sent = [])
    (h : run keyMap env H fuel { thread := { mapper := m₀ } } steps = .ok s) :
    Accounts keyMap env H fuel m₀ (steps.filterMap SystemStep.arrival?)
      (steps.filterMap SystemStep.call?) s := by
  refine Exits.foldlM_induction (P := fun steps s ↦ Accounts keyMap env H fuel m₀
    (steps.filterMap SystemStep.arrival?) (steps.filterMap SystemStep.call?) s) (start hsent) ?_ h
  intro steps x s₁ s₂ hs₁ hstep
  have hs₂ := hs₁.does (does_of_step hstep)
  cases harrival : x.arrival? <;> cases hcall : x.call? <;>
    simpa [List.filterMap_append, harrival, hcall] using hs₂

end Accounts

/-- However the threads and their writes are interleaved, the mapper lives one
life, and handles the key events of mapped keys in the order of the keyboard;
in what is written by its thread and by the daemon, its outputs and the other
events of the keyboard stand in their order, and nothing is missing but what
is still to be read, handled or written. -/
theorem run_delivers (keyMap : KeyMap) (env : Env) (H : QHash) (fuel : ℕ) (profile : Profile)
    (layerChangedCallback : Bool) (steps : List SystemStep) {m₀ : Mapper} {s : System}
    (hnew : Mapper.new H profile layerChangedCallback = .ok m₀)
    (h : run keyMap env H fuel { thread := { mapper := m₀ } } steps = .ok s) :
    ∃ operations effects,
      Mapper.life env H fuel profile layerChangedCallback operations = .ok s.thread.mapper ∧
      operations.filterMap MapperThread.called =
        (steps.filterMap SystemStep.call?).map MapperCall.operation ∧
      operations.filterMap Operation.handled ++ s.thread.pending ++ keyEvents keyMap s.device =
        keyEvents keyMap (steps.filterMap SystemStep.arrival?) ∧
      List.Forall₂ (Performs keyMap) s.thread.mapper.sent.flatten effects ∧
      s.outbox.writtenBy .mapper ++ s.outbox.pending .mapper = effects.flatMap effectWrites ∧
      s.outbox.writtenBy .daemon ++ s.outbox.pending .daemon ++
          s.device.flatMap (DeviceEvent.forwarded keyMap) =
        (steps.filterMap SystemStep.arrival?).flatMap (DeviceEvent.forwarded keyMap) := by
  obtain ⟨⟨received, hran, hreceived⟩, ⟨effects, hperforms, hmapper⟩, hdaemon⟩ :=
    Accounts.of_run (Mapper.fresh_of_new hnew).sent h
  obtain ⟨operations, hlife, hcalled, hhandled⟩ := hran.lives hnew
  refine ⟨operations, effects, hlife, hcalled, ?_, hperforms, hmapper, hdaemon⟩
  rw [hhandled, hreceived]

/-- A is mapped and the mapper is paused; key 240 is not mapped. -/
def pausedSteps : List SystemStep :=
  [.thread (.call .pause) rfl, .arrive ⟨.key, 30, 1⟩, .arrive ⟨.key, 240, 1⟩, .read, .read,
    .thread .advance rfl, .thread .advance rfl, .thread .advance rfl, .write .daemon,
    .write .mapper, .write .daemon, .write .mapper]

def mapA : KeyMap := .ofList [(30, .a)]

/-- Both keys end up in one packet. -/
example : ∃ s,
    run mapA .still (.first _) 1 { thread := MapperThread.swapThread } pausedSteps = .ok s ∧
    s.outbox.written = [(.daemon, .event ⟨.key, 240, 1⟩), (.mapper, .event ⟨.key, 30, 1⟩),
      (.daemon, .event synReport), (.mapper, .event synReport)] :=
  ⟨_, rfl, rfl⟩

theorem run_delivers_paused : ∃ (m₀ : Mapper) (s : System) (operations : List Operation)
    (effects : List DaemonEffect),
    Mapper.new (.first _) Mapper.swapProfile false = .ok m₀ ∧
    run mapA .still (.first _) 1 { thread := { mapper := m₀ } } pausedSteps = .ok s ∧
    Mapper.life .still (.first _) 1 Mapper.swapProfile false operations = .ok s.thread.mapper ∧
    operations.filterMap MapperThread.called = [.pause] ∧
    operations.filterMap Operation.handled = [.key ⟨.a, .press⟩] ∧
    s.outbox.writtenBy .mapper = effects.flatMap effectWrites ∧
    s.outbox.writtenBy .daemon = keyWrites 240 1 := by
  obtain ⟨operations, effects, hlife, hcalls, hhandled, -, hmapper, hdaemon⟩ :=
    run_delivers mapA .still (.first _) 1 Mapper.swapProfile false pausedSteps rfl rfl
  refine ⟨_, _, operations, effects, rfl, rfl, hlife, hcalls, ?_, ?_, ?_⟩
  · exact (List.append_nil _).symm.trans ((List.append_nil _).symm.trans hhandled)
  · exact (List.append_nil _).symm.trans hmapper
  · exact (List.append_nil _).symm.trans ((List.append_nil _).symm.trans hdaemon)

/-! ## Reports -/

/-- Everything that is queued in one step ends with a report. -/
theorem ended_keyWrites (keyCode : ℕ) (state : ℤ) :
    Outbox.Ended Write.event? synReport (keyWrites keyCode state) := by
  simp [Outbox.Ended, keyWrites, Write.event?]

theorem ended_forwarded (keyMap : KeyMap) (e : DeviceEvent) :
    Outbox.Ended Write.event? synReport (e.forwarded keyMap) := by
  unfold DeviceEvent.forwarded
  split
  · split
    · exact Outbox.ended_nil
    · exact ended_keyWrites _ _
  · simp [Outbox.Ended, Write.event?]
  · exact Outbox.ended_nil

theorem ended_effectWrites (effects : List DaemonEffect) :
    Outbox.Ended Write.event? synReport (effects.flatMap effectWrites) := by
  induction effects with
  | nil => exact Outbox.ended_nil
  | cons effect effects ih =>
      rw [List.flatMap_cons]
      refine Outbox.Ended.append ?_ ih
      cases effect with
      | key code type => exact ended_keyWrites _ _
      | mouse => exact Outbox.ended_nil
      | script s => simp [effectWrites, Outbox.Ended, Write.event?]

theorem blocks_of_run {m₀ : Mapper}
    (h : run keyMap env H fuel { thread := { mapper := m₀ } } steps = .ok s) :
    s.outbox.Blocks Write.event? synReport := by
  refine Exits.foldlM_keeps (P := fun s : System ↦ s.outbox.Blocks Write.event? synReport) ?_ h
    Outbox.Blocks.start
  intro s₁ s₂ x _ hs₁ hstep
  cases does_of_step hstep with
  | idle => exact hs₁
  | arrive => exact hs₁
  | requestInterruption => exact hs₁
  | turn => exact hs₁
  | handle => exact hs₁.enqueue _ (ended_forwarded keyMap _)
  | write writer => exact hs₁.write writer
  | thread => exact hs₁.enqueue _ (ended_effectWrites _)

/-- Whenever both threads have written what they had to write, the last event
written is a report: no event waits in the virtual device. -/
theorem run_reports (keyMap : KeyMap) (env : Env) (H : QHash) (fuel : ℕ) (m₀ : Mapper)
    (steps : List SystemStep) {s : System}
    (h : run keyMap env H fuel { thread := { mapper := m₀ } } steps = .ok s)
    (hquiet : ∀ w, s.outbox.pending w = []) :
    ∀ e ∈ ((s.outbox.written.map Prod.snd).filterMap Write.event?).getLast?, e = synReport :=
  (blocks_of_run h).ended hquiet

theorem run_reports_paused : ∃ s,
    run mapA .still (.first _) 1 { thread := MapperThread.swapThread } pausedSteps = .ok s ∧
    ∀ e ∈ ((s.outbox.written.map Prod.snd).filterMap Write.event?).getLast?, e = synReport :=
  ⟨_, rfl, run_reports mapA .still (.first _) 1 MapperThread.swapThread.mapper pausedSteps rfl
    (by rintro (_ | _) <;> rfl)⟩

/-- Every key event is followed by a report at once. -/
def Reported : List Write → Prop
  | [] => True
  | .event e :: rest =>
      (e.type = .key → rest.head? = some (.event synReport)) ∧ Reported rest
  | .script _ :: rest => Reported rest

theorem Reported.append {xs ys : List Write} (hxs : Reported xs) (hys : Reported ys) :
    Reported (xs ++ ys) := by
  induction xs with
  | nil => exact hys
  | cons x xs ih =>
      cases x with
      | script s => exact ih hxs
      | event e =>
          have hhead : e.type = .key → (xs ++ ys).head? = some (.event synReport) := by
            intro hkey
            rw [List.head?_append, hxs.1 hkey]
            rfl
          exact ⟨hhead, ih hxs.2⟩

theorem Reported.after {before after : List Write} {e : DeviceEvent}
    (h : Reported (before ++ .event e :: after)) (hkey : e.type = .key) :
    after.head? = some (.event synReport) := by
  induction before with
  | nil => exact h.1 hkey
  | cons x before ih =>
      cases x with
      | script s => exact ih h
      | event e => exact ih h.2

theorem reported_keyWrites (keyCode : ℕ) (state : ℤ) : Reported (keyWrites keyCode state) :=
  ⟨fun _ ↦ rfl, by simp [synReport], trivial⟩

theorem reported_forwarded (keyMap : KeyMap) (e : DeviceEvent) : Reported (e.forwarded keyMap) := by
  unfold DeviceEvent.forwarded
  split
  · split
    · trivial
    · exact reported_keyWrites _ _
  · simp [Reported, synReport]
  · trivial

theorem reported_effectWrites (effects : List DaemonEffect) :
    Reported (effects.flatMap effectWrites) := by
  induction effects with
  | nil => trivial
  | cons effect effects ih =>
      rw [List.flatMap_cons]
      refine Reported.append ?_ ih
      cases effect with
      | key code type => exact reported_keyWrites _ _
      | mouse => trivial
      | script s => trivial

/-- What a writer has queued since the start is reported event by event. -/
theorem reported_of_run {m₀ : Mapper}
    (h : run keyMap env H fuel { thread := { mapper := m₀ } } steps = .ok s) (w : Writer) :
    Reported (s.outbox.queuedBy w) := by
  have henqueue : ∀ {o : Outbox Writer Write} {w' : Writer} {xs : List Write},
      Reported (o.queuedBy w) → Reported xs → Reported ((o.enqueue w' xs).queuedBy w) := by
    intro o w' xs ho hxs
    by_cases hw : w = w'
    · subst hw
      rw [Outbox.queuedBy_enqueue_self]
      exact ho.append hxs
    · rwa [Outbox.queuedBy_enqueue_of_ne hw]
  refine Exits.foldlM_keeps (P := fun s : System ↦ Reported (s.outbox.queuedBy w)) ?_ h trivial
  intro s₁ s₂ x _ hs₁ hstep
  cases does_of_step hstep with
  | idle => exact hs₁
  | arrive => exact hs₁
  | requestInterruption => exact hs₁
  | turn => exact hs₁
  | handle => exact henqueue hs₁ (reported_forwarded keyMap _)
  | write writer => rwa [Outbox.queuedBy_write]
  | thread => exact henqueue hs₁ (reported_effectWrites _)

/-- Between two key events of one thread a report is written, so that however
the writes are interleaved a packet holds at most one key event of each. -/
theorem run_packets (keyMap : KeyMap) (env : Env) (H : QHash) (fuel : ℕ) (m₀ : Mapper)
    (steps : List SystemStep) {s : System}
    (h : run keyMap env H fuel { thread := { mapper := m₀ } } steps = .ok s)
    {w : Writer} {e e' : DeviceEvent} {before between after : List (Writer × Write)}
    (hwritten : s.outbox.written =
      before ++ (w, .event e) :: between ++ (w, .event e') :: after)
    (hkey : e.type = .key) (hkey' : e'.type = .key) : (w, .event synReport) ∈ between := by
  have hreported := reported_of_run h w
  rw [Outbox.queuedBy, Outbox.writtenBy, hwritten] at hreported
  simp only [List.filterMap_append, List.filterMap_cons, if_true, List.append_assoc,
    List.cons_append] at hreported
  have hhead := hreported.after hkey
  rw [List.head?_append, Option.or_eq_some_iff] at hhead
  rcases hhead with hhead | ⟨-, hhead⟩
  · obtain ⟨⟨w', x⟩, hx, hshown⟩ := List.mem_filterMap.mp (List.mem_of_head? hhead)
    split at hshown
    · rename_i hw
      obtain rfl : w' = w := hw
      obtain rfl : x = .event synReport := Option.some.inj hshown
      exact hx
    · cases hshown
  · cases hhead
    cases hkey'

/-- A is pressed and released while the mapper is paused. -/
def tapSteps : List SystemStep :=
  [.thread (.call .pause) rfl, .arrive ⟨.key, 30, 1⟩, .arrive ⟨.key, 30, 0⟩, .read, .read,
    .thread .advance rfl, .thread .advance rfl, .thread .advance rfl, .write .mapper,
    .write .mapper, .thread .advance rfl, .thread .advance rfl, .thread .advance rfl,
    .write .mapper, .write .mapper]

theorem run_packets_tap : ∃ s,
    run mapA .still (.first _) 1 { thread := MapperThread.swapThread } tapSteps = .ok s ∧
    s.outbox.written = [] ++ (.mapper, .event ⟨.key, 30, 1⟩) :: [(.mapper, .event synReport)] ++
      (.mapper, .event ⟨.key, 30, 0⟩) :: [(.mapper, .event synReport)] ∧
    (Writer.mapper, Write.event synReport) ∈ [(Writer.mapper, Write.event synReport)] := by
  obtain ⟨s, hs, hwritten⟩ : ∃ s,
      run mapA .still (.first _) 1 { thread := MapperThread.swapThread } tapSteps = .ok s ∧
      s.outbox.written = [] ++ (.mapper, .event ⟨.key, 30, 1⟩) ::
        [(.mapper, .event synReport)] ++ (.mapper, .event ⟨.key, 30, 0⟩) ::
          [(.mapper, .event synReport)] := ⟨_, rfl, rfl⟩
  exact ⟨s, hs, hwritten, run_packets mapA .still (.first _) 1 _ tapSteps hs hwritten rfl rfl⟩

/-! ## The mapper's part -/

/-- When the profiles keep their triggers apart and no sequence goes on after
a minimum wait, what the thread of the mapper writes is what an interpreter of
the profiles sends on the calls and the key events of the keyboard. -/
theorem run_interprets (keyMap : KeyMap) (env : Env) (H : QHash) (fuel : ℕ) (profile : Profile)
    (layerChangedCallback : Bool) (steps : List SystemStep)
    (hsep : ∀ p ∈ profile :: (steps.filterMap SystemStep.call?).filterMap MapperCall.profile?,
      ∀ layer ∈ p.layers, layer.Separated)
    (hwaits : ∀ p ∈ profile :: (steps.filterMap SystemStep.call?).filterMap MapperCall.profile?,
      ∀ layer ∈ p.layers, layer.WaitsLast)
    {m₀ : Mapper} {s : System} (hnew : Mapper.new H profile layerChangedCallback = .ok m₀)
    (h : run keyMap env H fuel { thread := { mapper := m₀ } } steps = .ok s) :
    ∃ (operations : List Operation) (i₀ i : Interpreter) (effects : List DaemonEffect),
      Interpreter.new profile layerChangedCallback = .ok i₀ ∧
      operations.foldlM (Interpreter.operate env H fuel) i₀ = .ok i ∧
      operations.filterMap MapperThread.called =
        (steps.filterMap SystemStep.call?).map MapperCall.operation ∧
      operations.filterMap Operation.handled ++ s.thread.pending ++ keyEvents keyMap s.device =
        keyEvents keyMap (steps.filterMap SystemStep.arrival?) ∧
      List.Forall₂ (Performs keyMap) i.sent.flatten effects ∧
      s.outbox.writtenBy .mapper ++ s.outbox.pending .mapper = effects.flatMap effectWrites := by
  obtain ⟨⟨received, hran, hreceived⟩, ⟨effects, hperforms, hmapper⟩, -⟩ :=
    Accounts.of_run (Mapper.fresh_of_new hnew).sent h
  obtain ⟨operations, hlife, hcalled, hhandled⟩ := hran.lives hnew
  rw [List.forall_mem_cons, ← MapperThread.profiles_of_called hcalled] at hsep hwaits
  rw [Mapper.life, hnew, Exits.ok_bind] at hlife
  obtain ⟨i₀, hi₀, hfollows⟩ := Mapper.Follows.of_new hsep.1 hnew
  have hlocated := Interpreter.Located.of_new hwaits.1 hi₀
  have hfollowed : Exits.RelatedUnless .unassigned (Mapper.Follows H)
      (operations.foldlM (Interpreter.operate env H fuel) i₀)
      (operations.foldlM (Mapper.operate env H fuel) m₀) := hfollows.operates hsep.2
  have hrelated := hfollowed.related (hlocated.operates hwaits.2)
  rw [hlife] at hrelated
  obtain ⟨i, hi, hshows⟩ := hrelated.ok_right
  have hsent : i.sent = s.thread.mapper.sent := by
    rw [show i = _ from hshows.shows]
    rfl
  refine ⟨operations, i₀, i, effects, hi₀, hi, hcalled, ?_, hsent ▸ hperforms, hmapper⟩
  rw [hhandled, hreceived]

def mapABY : KeyMap := .ofList [(30, .a), (48, .b), (21, .y)]

/-- A and B are pressed, while nobody has paused the mapper. -/
def pairSteps : List SystemStep :=
  [.arrive ⟨.key, 30, 1⟩, .read, .arrive ⟨.key, 48, 1⟩, .thread .advance rfl,
    .thread .advance rfl, .read, .thread .advance rfl, .thread .advance rfl,
    .thread .advance rfl, .thread .advance rfl, .write .mapper, .write .mapper]

def pairMapper : Mapper where
  profile := Mapper.pairProfile
  states := Mapper.pairProfile.layers.map fun layer ↦
    (generateStates (.first _) layer).toOption.getD []
  basicMaps := [[]]
  layerChangedCallback := false
  history := [.layerSet 0]

/-- The interpreter recognizes the pair, and what it is bound to is written. -/
theorem run_interprets_pair : ∃ (s : System) (operations : List Operation) (i₀ i : Interpreter)
    (effects : List DaemonEffect),
    Mapper.new (.first _) Mapper.pairProfile false = .ok pairMapper ∧
    run mapABY .still (.first _) 2 { thread := { mapper := pairMapper } } pairSteps = .ok s ∧
    Interpreter.new Mapper.pairProfile false = .ok i₀ ∧
    operations.foldlM (Interpreter.operate .still (.first _) 2) i₀ = .ok i ∧
    operations.filterMap MapperThread.called = [] ∧
    operations.filterMap Operation.handled = [.key ⟨.a, .press⟩, .key ⟨.b, .press⟩] ∧
    List.Forall₂ (Performs mapABY) i.sent.flatten effects ∧
    effects.flatMap effectWrites = [.event ⟨.key, 21, 1⟩, .event synReport] ∧
    s.outbox.writtenBy .mapper = [.event ⟨.key, 21, 1⟩, .event synReport] := by
  obtain ⟨s, hrun, hpending, hdevice, hwritten, hwaiting⟩ := Exits.exists_ok
    (x := run mapABY .still (.first _) 2 { thread := { mapper := pairMapper } } pairSteps)
    (fun s ↦ s.thread.pending = [] ∧ s.device = [] ∧
      s.outbox.writtenBy .mapper = [.event ⟨.key, 21, 1⟩, .event synReport] ∧
      s.outbox.pending .mapper = []) (by decide +kernel)
  obtain ⟨operations, i₀, i, effects, hi₀, hi, hcalls, hhandled, hperforms, hmapper⟩ :=
    run_interprets mapABY .still (.first _) 2 Mapper.pairProfile false pairSteps (by decide)
      (by decide) rfl hrun
  rw [hpending, hdevice, List.append_nil] at hhandled
  rw [hwaiting, List.append_nil] at hmapper
  have hkeys : operations.filterMap Operation.handled =
      [.key ⟨.a, .press⟩, .key ⟨.b, .press⟩] :=
    (List.append_nil _).symm.trans hhandled
  exact ⟨s, operations, i₀, i, effects, rfl, hrun, hi₀, hi, hcalls, hkeys, hperforms,
    hmapper ▸ hwritten, hwritten⟩

end System

end Linux

end Keybinder

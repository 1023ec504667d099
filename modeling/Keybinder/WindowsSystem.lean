import Keybinder.Daemons
import Keybinder.Library.LastWrites
import Keybinder.MapperThread

/-!
# The system on Windows

The hook is called for what the keyboard and other programs send, and also
for what the daemon itself has injected, in any interleaving with the thread
of the mapper.  It tells its own inputs by their number: they never come back
to the mapper, and everything else comes to it once.
-/

namespace Keybinder

namespace Windows

/-- The arguments of `WinEventProc`: whether the event is
`EVENT_SYSTEM_FOREGROUND`, whether the object is a window and the child is
`CHILDID_SELF`, and what the title and the class name are. -/
structure WinEvent where
  foreground : Bool
  window : Bool
  self : Bool
  windowTitle : String
  className : String
  deriving DecidableEq

def WinEvent.appName (e : WinEvent) : String :=
  if e.windowTitle.isEmpty then e.className else e.windowTitle

def winEventProc (channel : Channel) (e : WinEvent) : Channel :=
  if !e.foreground then channel
  else if !e.window || !e.self then channel
  else channel.sendKey (.app e.appName)

/-- The call of the hook for an injected key. -/
def Input.hookCall (input : Input) (wParam : KeyMessage) : HookCall :=
  ⟨0, wParam, input.wVk, true, input.dwExtraInfo⟩

def HookCall.Own (call : HookCall) : Prop :=
  call.injected = true ∧ call.dwExtraInfo = infoIdentifier

instance (call : HookCall) : Decidable call.Own := inferInstanceAs (Decidable (_ ∧ _))

/-- `inputs` are given to `SendInput` and have not reached the hook; `injected`
have passed it, as have the calls in `passed`, for the applications. -/
structure System where
  thread : MapperThread
  inputs : List Input := []
  injected : List Input := []
  passed : List HookCall := []
  scripts : List DaemonEffect := []

/-- The keyboard or another program sends; the window in front changes; an own
input reaches the hook, with a message that depends on the keys held; or the
thread of the mapper executes a step. -/
inductive SystemStep where
  | hook (call : HookCall) (h : ¬ call.Own)
  | winEvent (e : WinEvent)
  | inject (wParam : KeyMessage)
  | thread (x : ThreadStep) (h : x.key? = none)

/-- Whether a call goes on to the applications. -/
def HookResult.goesOn (result : HookResult) : Bool := result ≠ .suppressed

namespace System

/-- A call of the hook on the channel of the mapper. -/
def callHook (keyMap : KeyMap) (s : System) (call : HookCall) : HookResult × System :=
  let (result, queue) := hookProc keyMap s.thread.channel.queue call
  (result, { s with thread := { s.thread with channel := { s.thread.channel with queue } } })

def step (keyMap : KeyMap) (env : Env) (H : QHash) (fuel : ℕ) (s : System) :
    SystemStep → Except Exit System
  | .hook call _ =>
      let (result, s) := s.callHook keyMap call
      return if result.goesOn then { s with passed := s.passed ++ [call] } else s
  | .winEvent e =>
      return { s with thread := { s.thread with channel := winEventProc s.thread.channel e } }
  | .inject wParam =>
      match s.inputs with
      | [] => return s
      | input :: inputs =>
          if input.type = inputKeyboard then
            let (result, s) := s.callHook keyMap (input.hookCall wParam)
            return { s with
              inputs
              injected := if result.goesOn then s.injected ++ [input] else s.injected }
          else return { s with inputs, injected := s.injected ++ [input] }
  | .thread x _ => do
      let thread ← s.thread.step env H fuel x
      let sent := thread.mapper.sent.drop s.thread.mapper.sent.length
      let collected ← sent.mapM (collectInputs keyMap)
      return { s with
        thread
        inputs := s.inputs ++ collected.flatMap Prod.fst
        scripts := s.scripts ++ collected.flatMap Prod.snd }

def run (keyMap : KeyMap) (env : Env) (H : QHash) (fuel : ℕ) (s : System)
    (steps : List SystemStep) : Except Exit System :=
  steps.foldlM (step keyMap env H fuel) s

end System

/-! ## The hook -/

/-- The key event that the hook gives the mapper for a call that is not its
own. -/
def HookCall.routed? (keyMap : KeyMap) (call : HookCall) : Option KeyEvent :=
  if call.wParam = .sysKeyUp then none else call.keyEvent? keyMap

theorem hookProc_of_own (keyMap : KeyMap) (queue : KeyQueue) {call : HookCall} (h : call.Own) :
    hookProc keyMap queue call = (.nextHook, queue) := by
  have hown : call.injected = true ∧ call.dwExtraInfo = infoIdentifier := h
  rw [hookProc, if_pos hown, ite_self]

theorem hookProc_of_not_own (keyMap : KeyMap) (queue : KeyQueue) {call : HookCall}
    (h : ¬ call.Own) :
    (hookProc keyMap queue call).2 =
        queue ++ ((call.routed? keyMap).map InputEvent.key).toList ∧
      (hookProc keyMap queue call).1.goesOn = (call.routed? keyMap).isNone := by
  have hforeign : ¬ (call.injected = true ∧ call.dwExtraInfo = infoIdentifier) := h
  unfold hookProc HookCall.routed? HookCall.keyEvent?
  by_cases hcode : call.nCode < 0
  · simp [hcode, HookResult.goesOn]
  · rw [if_neg hcode, if_neg hforeign, if_neg hcode]
    cases hkey : keyMap.findForward call.vkCode with
    | none => simp [HookResult.goesOn]
    | some keycode =>
        cases hmessage : call.wParam <;>
          simp [KeyMessage.type?, HookResult.goesOn, KeyQueue.sendKey]

theorem queue_winEventProc (channel : Channel) (e : WinEvent) :
    winEventProc channel e = { channel with queue := channel.queue ++
      if e.foreground ∧ e.window ∧ e.self then [.app e.appName] else [] } := by
  unfold winEventProc
  cases e.foreground <;> cases e.window <;> cases e.self <;>
    simp [Channel.sendKey, KeyQueue.sendKey]

/-! ## What is injected -/

/-- The keys among some inputs. -/
def keyEffects (inputs : List Input) : List DaemonEffect :=
  (inputs.filter (·.type = inputKeyboard)).map Input.effect

@[simp] theorem keyEffects_append (inputs more : List Input) :
    keyEffects (inputs ++ more) = keyEffects inputs ++ keyEffects more := by
  simp [keyEffects]

/-- Every key has the number of the own inputs. -/
def Numbered (inputs : List Input) : Prop :=
  ∀ input ∈ inputs, input.type = inputKeyboard → input.dwExtraInfo = infoIdentifier

/-- The keys that are injected for some outputs, and the scripts. -/
structure Collects (keyMap : KeyMap) (outputs : List OutputEvent) (inputs : List Input)
    (effects : List DaemonEffect) : Prop where
  keys : List.Forall₂ (Performs keyMap) (outputs.filter fun e ↦ e.script?.isNone)
    (keyEffects inputs)
  scripts : effects = (outputs.filterMap OutputEvent.script?).map .script
  numbered : Numbered inputs

namespace Collects

variable {keyMap : KeyMap} {outputs more : List OutputEvent} {inputs inputs' : List Input}
  {effects effects' : List DaemonEffect}

theorem nil : Collects keyMap [] [] [] := ⟨.nil, rfl, fun _ h ↦ (List.not_mem_nil h).elim⟩

theorem append (h : Collects keyMap outputs inputs effects)
    (h' : Collects keyMap more inputs' effects') :
    Collects keyMap (outputs ++ more) (inputs ++ inputs') (effects ++ effects') := by
  refine ⟨?_, ?_, ?_⟩
  · rw [List.filter_append, keyEffects_append]
    exact List.rel_append h.keys h'.keys
  · rw [h.scripts, h'.scripts, List.filterMap_append, List.map_append]
  · intro input hinput
    exact (List.mem_append.mp hinput).elim (h.numbered input) (h'.numbered input)

theorem visit {inputs₁ : List Input} {effects₁ : List DaemonEffect} {output : OutputEvent}
    (h : visitOutput keyMap (inputs, effects) output = .ok (inputs₁, effects₁)) :
    ∃ added started, inputs₁ = inputs ++ added ∧ effects₁ = effects ++ started ∧
      Collects keyMap [output] added started := by
  cases output with
  | script script =>
      cases h
      exact ⟨[], [.script script], (List.append_nil _).symm, rfl, .nil, rfl,
        fun _ h ↦ (List.not_mem_nil h).elim⟩
  | key e =>
      obtain ⟨wVk, hcode, h⟩ := Exits.bind_eq_ok.mp h
      cases h
      refine ⟨_, [], rfl, (List.append_nil _).symm, ?_, rfl, by simp [Numbered]⟩
      have heffect : Input.effect ⟨inputKeyboard, wVk,
          if e.type = .press then 0 else keyeventfKeyup, infoIdentifier⟩ = .key wVk e.type := by
        cases htype : e.type <;> simp [Input.effect, keyeventfKeyup]
      simpa [keyEffects, heffect, OutputEvent.script?] using
        List.Forall₂.cons (Performs.key (KeyMap.findBackward_of_code hcode)) .nil

theorem of_foldlM (h : outputs.foldlM (visitOutput keyMap) (inputs, effects) =
      .ok (inputs', effects')) :
    ∃ added started, inputs' = inputs ++ added ∧ effects' = effects ++ started ∧
      Collects keyMap outputs added started := by
  induction outputs generalizing inputs effects with
  | nil =>
      cases h
      exact ⟨[], [], (List.append_nil _).symm, (List.append_nil _).symm, nil⟩
  | cons output outputs ih =>
      obtain ⟨⟨inputs₁, effects₁⟩, hvisit, hrest⟩ := Exits.foldlM_cons_eq_ok.mp h
      obtain ⟨added₁, started₁, rfl, rfl, hfirst⟩ := visit hvisit
      obtain ⟨added, started, rfl, rfl, hcollects⟩ := ih hrest
      refine ⟨added₁ ++ added, started₁ ++ started, List.append_assoc .., List.append_assoc .., ?_⟩
      exact hfirst.append hcollects

/-- The blank inputs are no keys. -/
theorem of_collectInputs (h : collectInputs keyMap outputs = .ok (inputs, effects)) :
    Collects keyMap outputs inputs effects := by
  obtain ⟨added, started, rfl, rfl, hcollects⟩ := of_foldlM h
  have hblank : ∀ n, Collects keyMap [] (List.replicate n Input.blank) [] := by
    intro n
    refine ⟨?_, rfl, ?_⟩
    · simp [keyEffects, Input.blank, inputKeyboard]
    · intro input hinput htype
      rw [List.eq_of_mem_replicate hinput] at htype
      cases htype
  exact (hblank _).append hcollects

theorem of_mapM {lists : List (List OutputEvent)} {collected : List (List Input × List DaemonEffect)}
    (h : lists.mapM (collectInputs keyMap) = .ok collected) :
    Collects keyMap lists.flatten (collected.flatMap Prod.fst) (collected.flatMap Prod.snd) := by
  have hrel := Exits.forall₂_of_mapM h
  clear h
  induction hrel with
  | nil => exact nil
  | cons hfirst _ ih => exact (of_collectInputs hfirst).append ih

end Collects

/-! ## Runs of the system -/

namespace SystemStep

/-- What a step gives the mapper. -/
def received? (keyMap : KeyMap) : SystemStep → Option InputEvent
  | hook call _ => (call.routed? keyMap).map .key
  | winEvent e => if e.foreground ∧ e.window ∧ e.self then some (.app e.appName) else none
  | _ => none

/-- A call that the mapper is not given. -/
def skipped? (keyMap : KeyMap) : SystemStep → Option HookCall
  | hook call _ => if (call.routed? keyMap).isNone then some call else none
  | _ => none

def call? : SystemStep → Option MapperCall
  | thread x _ => x.call?
  | _ => none

end SystemStep

namespace System

variable {keyMap : KeyMap} {env : Env} {H : QHash} {fuel : ℕ} {s s' : System} {x : SystemStep}
  {steps : List SystemStep} {m₀ : Mapper}

theorem step_hook (s : System) {call : HookCall} (hforeign : ¬ call.Own) :
    s.step keyMap env H fuel (.hook call hforeign) = .ok { s with
      thread := { s.thread with channel := { s.thread.channel with
        queue := s.thread.channel.queue ++ ((call.routed? keyMap).map InputEvent.key).toList } }
      passed := s.passed ++ (SystemStep.skipped? keyMap (.hook call hforeign)).toList } := by
  obtain ⟨hqueue, hresult⟩ := hookProc_of_not_own keyMap s.thread.channel.queue hforeign
  cases hproc : hookProc keyMap s.thread.channel.queue call with
  | mk result queue =>
      rw [hproc] at hqueue hresult
      subst hqueue
      simp only [step, callHook, hproc, SystemStep.skipped?]
      rw [hresult]
      cases call.routed? keyMap <;> simp

/-- After some steps the thread of the mapper has run on what they gave it, and
what it has sent was given to the system. -/
structure Accounts (keyMap : KeyMap) (env : Env) (H : QHash) (fuel : ℕ) (m₀ : Mapper)
    (steps : List SystemStep) (s : System) : Prop where
  thread : MapperThread.Ran env H fuel m₀ (steps.filterMap SystemStep.call?)
    (steps.filterMap (SystemStep.received? keyMap)) s.thread
  passed : s.passed = steps.filterMap (SystemStep.skipped? keyMap)
  collects : Collects keyMap s.thread.mapper.sent.flatten (s.injected ++ s.inputs) s.scripts

namespace Accounts

theorem start (hsent : m₀.sent = []) :
    Accounts keyMap env H fuel m₀ [] { thread := { mapper := m₀ } } := by
  refine ⟨.start, rfl, ?_⟩
  rw [hsent]
  exact .nil

/-- Something comes to the channel, or nothing does. -/
theorem receive (h : Accounts keyMap env H fuel m₀ steps s) {e : Option InputEvent}
    (hcall : x.call? = none) (hreceived : x.received? keyMap = e)
    (hthread : s'.thread = { s.thread with
      channel := { s.thread.channel with queue := s.thread.channel.queue ++ e.toList } })
    (hpassed : s'.passed = s.passed ++ (x.skipped? keyMap).toList)
    (hinputs : s'.injected ++ s'.inputs = s.injected ++ s.inputs)
    (hscripts : s'.scripts = s.scripts) : Accounts keyMap env H fuel m₀ (steps ++ [x]) s' := by
  refine ⟨?_, ?_, ?_⟩
  · rw [LastWrites.filterMap_concat, hcall, LastWrites.filterMap_concat, hreceived, hthread]
    exact (List.append_nil _).symm ▸ h.thread.receive e
  · rw [hpassed, h.passed, LastWrites.filterMap_concat]
  · rw [hthread, hinputs, hscripts]
    exact h.collects

theorem inject (h : Accounts keyMap env H fuel m₀ steps s) {wParam : KeyMessage}
    (hstep : s.step keyMap env H fuel (.inject wParam) = .ok s') :
    Accounts keyMap env H fuel m₀ (steps ++ [.inject wParam]) s' := by
  simp only [step] at hstep
  split at hstep
  · cases hstep
    exact h.receive (e := none) rfl rfl (by simp) (List.append_nil _).symm rfl rfl
  · rename_i input inputs hinputs
    have hnumbered := h.collects.numbered input (by simp [hinputs])
    split at hstep
    · rename_i hkey
      -- The input has the number of the own ones, and the hook asks the next.
      have hown : (input.hookCall wParam).Own := ⟨rfl, hnumbered hkey⟩
      have hcall := hookProc_of_own keyMap s.thread.channel.queue hown
      simp only [callHook, hcall] at hstep
      cases hstep
      refine h.receive (e := none) rfl rfl (by simp) (List.append_nil _).symm ?_ rfl
      simp [HookResult.goesOn, hinputs]
    · cases hstep
      exact h.receive (e := none) rfl rfl (by simp) (List.append_nil _).symm (by simp [hinputs]) rfl

theorem threadStep (h : Accounts keyMap env H fuel m₀ steps s) {x : ThreadStep} {hx : x.key? = none}
    (hstep : s.step keyMap env H fuel (.thread x hx) = .ok s') :
    Accounts keyMap env H fuel m₀ (steps ++ [.thread x hx]) s' := by
  obtain ⟨thread, hthread, hstep⟩ := Exits.bind_eq_ok.mp hstep
  obtain ⟨collected, hcollected, hstep⟩ := Exits.bind_eq_ok.mp hstep
  cases hstep
  refine ⟨?_, ?_, ?_⟩
  · rw [LastWrites.filterMap_concat, LastWrites.filterMap_concat]
    exact (List.append_nil _).symm ▸ h.thread.step hx hthread
  · rw [LastWrites.filterMap_concat]
    exact h.passed.trans (List.append_nil _).symm
  · rw [← MapperThread.sent_append_drop hthread, List.flatten_append, ← List.append_assoc]
    exact h.collects.append (.of_mapM hcollected)

theorem step (h : Accounts keyMap env H fuel m₀ steps s)
    (hstep : s.step keyMap env H fuel x = .ok s') :
    Accounts keyMap env H fuel m₀ (steps ++ [x]) s' := by
  cases x with
  | hook call hforeign =>
      rw [step_hook] at hstep
      cases hstep
      exact h.receive rfl rfl rfl rfl rfl rfl
  | winEvent e =>
      cases hstep
      refine h.receive rfl rfl ?_ (List.append_nil _).symm rfl rfl
      rw [queue_winEventProc, SystemStep.received?]
      split <;> rfl
  | inject wParam => exact h.inject hstep
  | thread x hx => exact h.threadStep hstep

theorem of_run (hsent : m₀.sent = [])
    (h : run keyMap env H fuel { thread := { mapper := m₀ } } steps = .ok s) :
    Accounts keyMap env H fuel m₀ steps s :=
  Exits.foldlM_induction (start hsent) (fun _ _ _ _ hs hstep ↦ hs.step hstep) h

end Accounts

/-- However the calls of the hook, the switches of windows, what comes back of
the own inputs and the thread of the mapper are interleaved: the mapper lives
one life, in which it handles the keys of the keyboard and the windows in
their order, and nothing that it has sent itself.  The other calls go on to
the applications, and so do its keys and scripts. -/
theorem run_withoutFeedback (keyMap : KeyMap) (env : Env) (H : QHash) (fuel : ℕ) (profile : Profile)
    (layerChangedCallback : Bool) (steps : List SystemStep) {m₀ : Mapper} {s : System}
    (hnew : Mapper.new H profile layerChangedCallback = .ok m₀)
    (h : run keyMap env H fuel { thread := { mapper := m₀ } } steps = .ok s) :
    ∃ operations,
      Mapper.life env H fuel profile layerChangedCallback operations = .ok s.thread.mapper ∧
      operations.filterMap MapperThread.called =
        (steps.filterMap SystemStep.call?).map MapperCall.operation ∧
      operations.filterMap Operation.handled ++ s.thread.pending =
        steps.filterMap (SystemStep.received? keyMap) ∧
      s.passed = steps.filterMap (SystemStep.skipped? keyMap) ∧
      List.Forall₂ (Performs keyMap)
        (s.thread.mapper.sent.flatten.filter fun e ↦ e.script?.isNone)
        (keyEffects (s.injected ++ s.inputs)) ∧
      s.scripts = (s.thread.mapper.sent.flatten.filterMap OutputEvent.script?).map .script := by
  obtain ⟨hran, hpassed, hcollects⟩ := Accounts.of_run (Mapper.fresh_of_new hnew).sent h
  obtain ⟨operations, hlife, hcalled, hhandled⟩ := hran.lives hnew
  exact ⟨operations, hlife, hcalled, hhandled, hpassed, hcollects.keys, hcollects.scripts⟩

/-- While the mapper is paused A is pressed, and comes back as an own input. -/
def injectSteps : List SystemStep :=
  let advance := .thread .advance ThreadStep.key?_advance
  [.thread (.call .pause) (ThreadStep.key?_call _), .hook ⟨0, .keyDown, 65, false, 0⟩ (by decide),
    .winEvent ⟨true, true, true, "", "terminal"⟩, .hook ⟨0, .sysKeyUp, 65, false, 0⟩ (by decide),
    advance, advance, advance, .inject .other, .inject .other, .inject .keyDown, advance, advance,
    advance]

theorem run_withoutFeedback_inject : ∃ (m₀ : Mapper) (s : System) (operations : List Operation),
    Mapper.new (.first _) Mapper.swapProfile false = .ok m₀ ∧
    run (.ofList [(65, .a)]) .still (.first _) 1 { thread := { mapper := m₀ } } injectSteps =
      .ok s ∧
    operations.filterMap Operation.handled = [.key ⟨.a, .press⟩, .app "terminal"] ∧
    s.passed = [⟨0, .sysKeyUp, 65, false, 0⟩] ∧
    List.Forall₂ (Performs (.ofList [(65, .a)]))
      (s.thread.mapper.sent.flatten.filter fun e ↦ e.script?.isNone) [.key 65 .press] := by
  obtain ⟨operations, -, -, hhandled, hpassed, hkeys, -⟩ :=
    run_withoutFeedback (.ofList [(65, .a)]) .still (.first _) 1 Mapper.swapProfile false
      injectSteps rfl rfl
  exact ⟨_, _, operations, rfl, rfl, (List.append_nil _).symm.trans hhandled, hpassed, hkeys⟩

end System

end Windows

end Keybinder

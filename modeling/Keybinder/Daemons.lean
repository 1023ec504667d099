import Keybinder.BasicLayers
import Keybinder.KeyNames

/-!
# The daemons

What the daemons of Windows and Linux inject for a list of outputs, and what
the keyboard hook of Windows makes of the messages it is given.  The key map
of a platform names a key by a number of the platform.
-/

namespace Keybinder

abbrev KeyMap := BiMap ℕ KeyCode

/-- `find_backward`, which throws for a key that is not in the map. -/
def KeyMap.code (keyMap : KeyMap) (keyCode : KeyCode) : Except Exit ℕ :=
  match keyMap.findBackward keyCode with
  | some code => .ok code
  | none => .error .outOfRange

theorem KeyMap.findBackward_of_code {keyMap : KeyMap} {keyCode : KeyCode} {code : ℕ}
    (h : keyMap.code keyCode = .ok code) : keyMap.findBackward keyCode = some code := by
  unfold KeyMap.code at h
  cases hfind : keyMap.findBackward keyCode with
  | none => simp [hfind] at h
  | some code' =>
      rw [hfind, Except.ok.injEq] at h
      rw [h]

/-- A daemon injects a key event, injects an input that is no key event, or
starts a script. -/
inductive DaemonEffect where
  | key (code : ℕ) (type : KeyEventType)
  | mouse
  | script (s : RunScript)
  deriving DecidableEq

/-! ## Sending outputs -/

namespace Windows

def inputKeyboard : ℕ := 1

def keyeventfKeyup : ℕ := 2

/-- The number that tells the own inputs. -/
def infoIdentifier : ℕ := 0x1234ABCD

/-- `INPUT`.  What the source leaves unassigned in a key input, the scan code
and the time, is left out. -/
structure Input where
  type : ℕ
  wVk : ℕ
  dwFlags : ℕ
  dwExtraInfo : ℕ
  deriving DecidableEq

/-- What `resize` adds: all bits are zero, which is a mouse input. -/
def Input.blank : Input := ⟨0, 0, 0, 0⟩

def Input.effect (input : Input) : DaemonEffect :=
  if input.type = inputKeyboard then
    .key input.wVk (if input.dwFlags = keyeventfKeyup then .release else .press)
  else .mouse

/-- One pass of the loop: a key is collected, a script is started. -/
def visitOutput (keyMap : KeyMap) : List Input × List DaemonEffect → OutputEvent →
    Except Exit (List Input × List DaemonEffect)
  | (inputs, effects), .key keyEvent => do
      let wVk ← keyMap.code keyEvent.keycode
      let dwFlags := if keyEvent.type = .press then 0 else keyeventfKeyup
      return (inputs ++ [⟨inputKeyboard, wVk, dwFlags, infoIdentifier⟩], effects)
  | (inputs, effects), .script script => return (inputs, effects ++ [.script script])

/-- `send_outputs` up to the call of `SendInput`: the inputs that it collects
and the scripts that it starts. -/
def collectInputs (keyMap : KeyMap) (vk : List OutputEvent) :
    Except Exit (List Input × List DaemonEffect) :=
  vk.foldlM (visitOutput keyMap) (List.replicate (vk.length * 2) Input.blank, [])

def sendOutputs (keyMap : KeyMap) (vk : List OutputEvent) : Except Exit (List DaemonEffect) := do
  let (inputs, effects) ← collectInputs keyMap vk
  -- `SendInput`
  return effects ++ inputs.map Input.effect

end Windows

namespace Linux

/-- The key event with its report. -/
def sendKey (keyCode : ℕ) (state : Bool) : DaemonEffect :=
  .key keyCode (if state then .press else .release)

def visitOutput (keyMap : KeyMap) (effects : List DaemonEffect) :
    OutputEvent → Except Exit (List DaemonEffect)
  | .key keyEvent => do
      let type := keyEvent.type = .press
      let keyCode ← keyMap.code keyEvent.keycode
      return effects ++ [sendKey keyCode type]
  | .script script => return effects ++ [.script script]

def sendOutputs (keyMap : KeyMap) (outputs : List OutputEvent) :
    Except Exit (List DaemonEffect) :=
  outputs.foldlM (visitOutput keyMap) []

end Linux

def OutputEvent.script? : OutputEvent → Option RunScript
  | .key _ => none
  | .script s => some s

/-- What an output asks for on a platform. -/
inductive Performs (keyMap : KeyMap) : OutputEvent → DaemonEffect → Prop
  | key {e : KeyEvent} {code : ℕ} (h : keyMap.findBackward e.keycode = some code) :
      Performs keyMap (.key e) (.key code e.type)
  | script (s : RunScript) : Performs keyMap (.script s) (.script s)

/-- The effects are those of the outputs, in their order, and nothing else. -/
def PerformsAll (keyMap : KeyMap) (outputs : List OutputEvent)
    (result : Except Exit (List DaemonEffect)) : Prop :=
  ∃ effects, result = .ok effects ∧ List.Forall₂ (Performs keyMap) outputs effects

/-- The two daemons do the same with the outputs: what they ask for. -/
def DaemonsAgree (windowsMap linuxMap : KeyMap) (outputs : List OutputEvent) : Prop :=
  PerformsAll windowsMap outputs (Windows.sendOutputs windowsMap outputs) ∧
    PerformsAll linuxMap outputs (Linux.sendOutputs linuxMap outputs)

def KeyMap.Covers (keyMap : KeyMap) (outputs : List OutputEvent) : Prop :=
  ∀ e, .key e ∈ outputs → (keyMap.findBackward e.keycode).isSome = true

section

variable {keyMap : KeyMap} {outputs : List OutputEvent} {e : KeyEvent}

theorem KeyMap.Covers.head (h : keyMap.Covers (.key e :: outputs)) :
    ∃ code, keyMap.findBackward e.keycode = some code ∧ keyMap.code e.keycode = .ok code := by
  obtain ⟨code, hcode⟩ := Option.isSome_iff_exists.mp (h e (by simp))
  exact ⟨code, hcode, by rw [KeyMap.code, hcode]⟩

theorem KeyMap.Covers.tail {output : OutputEvent} (h : keyMap.Covers (output :: outputs)) :
    keyMap.Covers outputs := fun e he ↦ h e (List.mem_cons_of_mem _ he)

theorem linux_performsAll (h : keyMap.Covers outputs) :
    PerformsAll keyMap outputs (Linux.sendOutputs keyMap outputs) := by
  have hloop : ∀ before : List DaemonEffect, ∃ effects,
      outputs.foldlM (Linux.visitOutput keyMap) before = .ok (before ++ effects) ∧
        List.Forall₂ (Performs keyMap) outputs effects := by
    induction outputs with
    | nil => exact fun before ↦ ⟨[], by simp, .nil⟩
    | cons output outputs ih =>
        intro before
        cases output with
        | script s =>
            obtain ⟨effects, hrest, hperforms⟩ := ih h.tail (before ++ [.script s])
            refine ⟨.script s :: effects, ?_, .cons (.script s) hperforms⟩
            rw [List.foldlM_cons, Linux.visitOutput, Exits.pure_eq_ok, Exits.ok_bind, hrest]
            simp
        | key e =>
            obtain ⟨code, hcode, hok⟩ := h.head
            have hvisit : Linux.visitOutput keyMap before (.key e) =
                .ok (before ++ [.key code e.type]) := by
              rw [Linux.visitOutput, hok]
              cases htype : e.type <;> simp [Linux.sendKey]
            obtain ⟨effects, hrest, hperforms⟩ := ih h.tail (before ++ [.key code e.type])
            refine ⟨.key code e.type :: effects, ?_, .cons (.key hcode) hperforms⟩
            rw [List.foldlM_cons, hvisit, Exits.ok_bind, hrest]
            simp
  obtain ⟨effects, heffects, hperforms⟩ := hloop []
  exact ⟨effects, heffects, hperforms⟩

/-- Windows starts the scripts first, then injects two blank inputs for each
output, and then the keys. -/
theorem windows_sendOutputs (h : keyMap.Covers outputs) : ∃ keys,
    Windows.sendOutputs keyMap outputs = .ok ((outputs.filterMap OutputEvent.script?).map .script ++
      List.replicate (outputs.length * 2) .mouse ++ keys) ∧
    List.Forall₂ (Performs keyMap) (outputs.filter fun e ↦ e.script?.isNone) keys := by
  have hloop : ∀ (inputs : List Windows.Input) (effects : List DaemonEffect), ∃ added,
      outputs.foldlM (Windows.visitOutput keyMap) (inputs, effects) = .ok (inputs ++ added,
        effects ++ (outputs.filterMap OutputEvent.script?).map .script) ∧
      List.Forall₂ (Performs keyMap) (outputs.filter fun e ↦ e.script?.isNone)
        (added.map Windows.Input.effect) := by
    induction outputs with
    | nil => exact fun inputs effects ↦ ⟨[], by simp, .nil⟩
    | cons output outputs ih =>
        intro inputs effects
        cases output with
        | script s =>
            obtain ⟨added, hrest, hperforms⟩ := ih h.tail inputs (effects ++ [.script s])
            refine ⟨added, ?_, by simpa [OutputEvent.script?] using hperforms⟩
            rw [List.foldlM_cons, Windows.visitOutput, Exits.pure_eq_ok, Exits.ok_bind, hrest]
            simp [OutputEvent.script?]
        | key e =>
            obtain ⟨code, hcode, hok⟩ := h.head
            let input : Windows.Input := ⟨Windows.inputKeyboard, code,
              if e.type = .press then 0 else Windows.keyeventfKeyup, Windows.infoIdentifier⟩
            have hvisit : Windows.visitOutput keyMap (inputs, effects) (.key e) =
                .ok (inputs ++ [input], effects) := by
              rw [Windows.visitOutput, hok]
              rfl
            have hinput : input.effect = .key code e.type := by
              cases htype : e.type <;> simp [input, htype, Windows.Input.effect,
                Windows.keyeventfKeyup]
            obtain ⟨added, hrest, hperforms⟩ := ih h.tail (inputs ++ [input]) effects
            refine ⟨input :: added, ?_, ?_⟩
            · rw [List.foldlM_cons, hvisit, Exits.ok_bind, hrest, List.filterMap_cons_none rfl]
              simp
            · rw [List.filter_cons_of_pos rfl, List.map_cons, hinput]
              exact .cons (.key hcode) hperforms
  obtain ⟨added, hadded, hperforms⟩ :=
    hloop (List.replicate (outputs.length * 2) Windows.Input.blank) []
  refine ⟨added.map Windows.Input.effect, ?_, hperforms⟩
  rw [Windows.sendOutputs, Windows.collectInputs, hadded]
  simp [Windows.Input.blank, Windows.Input.effect, Windows.inputKeyboard]

theorem eq_nil_of_windows_performsAll (hcovers : keyMap.Covers outputs)
    (h : PerformsAll keyMap outputs (Windows.sendOutputs keyMap outputs)) : outputs = [] := by
  obtain ⟨effects, heffects, hperforms⟩ := h
  obtain ⟨keys, hkeys, -⟩ := windows_sendOutputs hcovers
  rw [hkeys, Except.ok.injEq] at heffects
  have hlength := hperforms.length_eq
  rw [← heffects, List.length_append, List.length_append, List.length_replicate] at hlength
  rw [← List.length_eq_zero_iff]
  omega

end

/-- One key is sent with two blank inputs. -/
theorem pressA_blanks : ¬ ∀ (windowsMap linuxMap : KeyMap) (outputs : List OutputEvent),
    windowsMap.Covers outputs → linuxMap.Covers outputs →
      DaemonsAgree windowsMap linuxMap outputs := by
  intro h
  have hcovers : ∀ code, KeyMap.Covers (.ofList [(code, .a)])
      [.key ⟨.a, .press⟩] := by
    intro code e he
    cases List.mem_singleton.mp he
    rfl
  have hnil := eq_nil_of_windows_performsAll (hcovers 65)
    (h _ _ [.key ⟨.a, .press⟩] (hcovers 65) (hcovers 30)).1
  cases hnil

/-- The daemons do the same exactly when there is nothing to do. -/
theorem daemonsAgree_iff (windowsMap linuxMap : KeyMap) (outputs : List OutputEvent)
    (hwindows : windowsMap.Covers outputs) (hlinux : linuxMap.Covers outputs) :
    DaemonsAgree windowsMap linuxMap outputs ↔ outputs = [] := by
  constructor
  · intro h
    exact eq_nil_of_windows_performsAll hwindows h.1
  · rintro rfl
    exact ⟨⟨[], rfl, .nil⟩, linux_performsAll hlinux⟩

theorem daemonsAgree_iff_tap : ¬ DaemonsAgree (BiMap.ofList [(65, .a)]) (BiMap.ofList [(30, .a)])
    [.key ⟨.a, .press⟩, .key ⟨.a, .release⟩] := by
  have hcovers : ∀ code, KeyMap.Covers (.ofList [(code, .a)])
      [.key ⟨.a, .press⟩, .key ⟨.a, .release⟩] := by
    intro code e he
    have he : e = ⟨.a, .press⟩ ∨ e = ⟨.a, .release⟩ := by simpa using he
    rcases he with rfl | rfl <;> rfl
  intro h
  have hnil := (daemonsAgree_iff _ _ _ (hcovers 65) (hcovers 30)).mp h
  cases hnil

/-! ## The keyboard hook of Windows -/

namespace Windows

/-- The `wParam` of a call of the hook. -/
inductive KeyMessage where
  | keyDown
  | keyUp
  | sysKeyDown
  | sysKeyUp
  | other
  deriving DecidableEq

/-- The arguments of a call of the hook; `injected` is the flag
`LLKHF_INJECTED`. -/
structure HookCall where
  nCode : ℤ
  wParam : KeyMessage
  vkCode : ℕ
  injected : Bool
  dwExtraInfo : ℕ
  deriving DecidableEq

/-- The hook keeps the message (it returns 1), returns 0, or asks the next
hook. -/
inductive HookResult where
  | suppressed
  | zero
  | nextHook
  deriving DecidableEq

/-- `HookProc`, with the queue of the channel; `send_key` always succeeds. -/
def hookProc (keyMap : KeyMap) (queue : KeyQueue) (call : HookCall) : HookResult × KeyQueue :=
  if call.nCode < 0 then (.nextHook, queue)
  else if call.injected = true ∧ call.dwExtraInfo = infoIdentifier then (.nextHook, queue)
  else
    match keyMap.findForward call.vkCode with
    | none => (.zero, queue)
    | some keycode =>
        match call.wParam with
        | .keyDown => (.suppressed, queue.sendKey (.key ⟨keycode, .press⟩))
        | .sysKeyDown => (.suppressed, queue.sendKey (.key ⟨keycode, .press⟩))
        | .keyUp => (.suppressed, queue.sendKey (.key ⟨keycode, .release⟩))
        | .sysKeyUp => (.nextHook, queue)
        | .other => (.nextHook, queue)

/-- The results of a trace of calls, and the queue after it. -/
def hookTrace (keyMap : KeyMap) : KeyQueue → List HookCall → List HookResult × KeyQueue
  | queue, [] => ([], queue)
  | queue, call :: calls =>
      let (result, queue) := hookProc keyMap queue call
      let (results, queue) := hookTrace keyMap queue calls
      (result :: results, queue)

/-- Whether a message tells of a press or of a release. -/
def KeyMessage.type? : KeyMessage → Option KeyEventType
  | .keyDown => some .press
  | .sysKeyDown => some .press
  | .keyUp => some .release
  | .sysKeyUp => some .release
  | .other => none

/-- The key event of a mapped key that a call tells of; a call with a
negative code has no message. -/
def HookCall.keyEvent? (keyMap : KeyMap) (call : HookCall) : Option KeyEvent :=
  if call.nCode < 0 then none
  else do
    let keycode ← keyMap.findForward call.vkCode
    let type ← call.wParam.type?
    return ⟨keycode, type⟩

/-- A press of the key that no release follows. -/
def LeftPressed (key : KeyCode) (queue : KeyQueue) : Prop :=
  ∃ before rest, queue = before ++ .key ⟨key, .press⟩ :: rest ∧ .key ⟨key, .release⟩ ∉ rest

/-- The mapper gets the press or release of each call, in the order of the
trace, the calls are suppressed, and no key is left pressed. -/
structure RoutesKeys (keyMap : KeyMap) (calls : List HookCall) : Prop where
  sent : (hookTrace keyMap [] calls).2 =
    (calls.filterMap (HookCall.keyEvent? keyMap)).map InputEvent.key
  suppressed : List.Forall₂
    (fun call result ↦ (call.keyEvent? keyMap).isSome = true → result = .suppressed)
    calls (hookTrace keyMap [] calls).1
  released : ∀ key, ¬ LeftPressed key (hookTrace keyMap [] calls).2

/-- Every press of a mapped key is followed by a release of the same key of
the keyboard. -/
def Released (keyMap : KeyMap) (calls : List HookCall) : Prop :=
  ∀ before call rest key, calls = before ++ call :: rest →
    call.keyEvent? keyMap = some ⟨key, .press⟩ →
      ∃ call' ∈ rest, call'.vkCode = call.vkCode ∧
        call'.keyEvent? keyMap = some ⟨key, .release⟩

section

variable {keyMap : KeyMap} {queue : KeyQueue} {call : HookCall} {calls : List HookCall}

/-- A call for a mapped key is routed unless its message is the release of a
system key. -/
theorem hookProc_eq (hinjected : call.injected = false)
    (hsys : (call.keyEvent? keyMap).isSome = true → call.wParam ≠ .sysKeyUp) :
    (hookProc keyMap queue call).2 =
        queue ++ ((call.keyEvent? keyMap).map InputEvent.key).toList ∧
      ((call.keyEvent? keyMap).isSome = true → (hookProc keyMap queue call).1 = .suppressed) := by
  unfold hookProc HookCall.keyEvent? at *
  by_cases hcode : call.nCode < 0
  · simp [hcode]
  · rw [if_neg hcode] at hsys ⊢
    rw [if_neg hcode, if_neg (by simp [hinjected])]
    cases hkey : keyMap.findForward call.vkCode with
    | none => simp
    | some keycode =>
        rw [hkey] at hsys
        cases hmessage : call.wParam with
        | sysKeyUp =>
            rw [hmessage] at hsys
            exact (hsys rfl rfl).elim
        | other => exact ⟨(List.append_nil queue).symm, by simp [KeyMessage.type?]⟩
        | keyDown => exact ⟨rfl, fun _ ↦ rfl⟩
        | sysKeyDown => exact ⟨rfl, fun _ ↦ rfl⟩
        | keyUp => exact ⟨rfl, fun _ ↦ rfl⟩

theorem hookProc_sysKeyUp (hinjected : call.injected = false) (hsys : call.wParam = .sysKeyUp)
    (hmapped : (call.keyEvent? keyMap).isSome = true) :
    (hookProc keyMap queue call).1 = .nextHook := by
  unfold hookProc HookCall.keyEvent? at *
  by_cases hcode : call.nCode < 0
  · simp [hcode]
  · rw [if_neg hcode] at hmapped ⊢
    rw [if_neg (by simp [hinjected])]
    cases hkey : keyMap.findForward call.vkCode with
    | none => simp [hkey] at hmapped
    | some keycode => rw [hsys]

theorem hookTrace_eq (hinjected : ∀ call ∈ calls, call.injected = false)
    (hsys : ∀ call ∈ calls, (call.keyEvent? keyMap).isSome = true → call.wParam ≠ .sysKeyUp) :
    (hookTrace keyMap queue calls).2 =
        queue ++ (calls.filterMap (HookCall.keyEvent? keyMap)).map InputEvent.key ∧
      List.Forall₂
        (fun call result ↦ (call.keyEvent? keyMap).isSome = true → result = .suppressed)
        calls (hookTrace keyMap queue calls).1 := by
  induction calls generalizing queue with
  | nil => exact ⟨(List.append_nil queue).symm, .nil⟩
  | cons call calls ih =>
      obtain ⟨hqueue, hresult⟩ := @hookProc_eq keyMap queue call (hinjected call (by simp))
        (hsys call (by simp))
      obtain ⟨hrest, hresults⟩ := @ih (hookProc keyMap queue call).2
        (fun call hcall ↦ hinjected call (List.mem_cons_of_mem _ hcall))
        (fun call hcall ↦ hsys call (List.mem_cons_of_mem _ hcall))
      refine ⟨hrest.trans ?_, .cons hresult hresults⟩
      rw [hqueue, List.append_assoc]
      cases hevent : call.keyEvent? keyMap <;> simp [hevent]

/-- The release that follows a press in the trace follows it in the queue. -/
theorem not_leftPressed (hreleased : Released keyMap calls) (key : KeyCode) :
    ¬ LeftPressed key ((calls.filterMap (HookCall.keyEvent? keyMap)).map InputEvent.key) := by
  rintro ⟨before, rest, hqueue, hrest⟩
  obtain ⟨events, events', hevents, -, hevents'⟩ := List.map_eq_append_iff.mp hqueue
  obtain ⟨e, later, rfl, he, rfl⟩ := List.map_eq_cons_iff.mp hevents'
  obtain rfl : e = ⟨key, .press⟩ := InputEvent.key.inj he
  obtain ⟨calls₁, calls₂, rfl, -, hcalls₂⟩ := List.filterMap_eq_append_iff.mp hevents
  obtain ⟨skipped, call, calls₃, rfl, -, hcall, rfl⟩ := List.filterMap_eq_cons_iff.mp hcalls₂
  obtain ⟨call', hcall', -, hevent'⟩ :=
    hreleased (calls₁ ++ skipped) call calls₃ key (by simp) hcall
  apply hrest
  exact List.mem_map_of_mem (List.mem_filterMap.mpr ⟨call', hcall', hevent'⟩)

theorem ne_sysKeyUp_of_suppressed (hinjected : ∀ call ∈ calls, call.injected = false)
    (h : List.Forall₂
      (fun call result ↦ (call.keyEvent? keyMap).isSome = true → result = .suppressed)
      calls (hookTrace keyMap queue calls).1) :
    ∀ call ∈ calls, (call.keyEvent? keyMap).isSome = true → call.wParam ≠ .sysKeyUp := by
  induction calls generalizing queue with
  | nil => simp
  | cons call calls ih =>
      obtain ⟨hfirst, hrest⟩ := List.forall₂_cons.mp h
      intro call' hcall' hmapped hsys
      rcases List.mem_cons.mp hcall' with rfl | hcall'
      · have hresult : (hookProc keyMap queue call').1 = .nextHook :=
          hookProc_sysKeyUp (hinjected call' (by simp)) hsys hmapped
        cases hresult.symm.trans (hfirst hmapped)
      · exact ih (fun call hcall ↦ hinjected call (List.mem_cons_of_mem _ hcall)) hrest call' hcall'
          hmapped hsys

end

/-- A key pressed and released, with the given messages. -/
def keyTap (down up : KeyMessage) : List HookCall := [⟨0, down, 65, false, 0⟩, ⟨0, up, 65, false, 0⟩]

theorem keyTap_released {down up : KeyMessage} (hdown : down.type? = some .press)
    (hup : up.type? = some .release) : Released (.ofList [(65, .a)]) (keyTap down up) := by
  have hevent : ∀ {message : KeyMessage} {type : KeyEventType}, message.type? = some type →
      (⟨0, message, 65, false, 0⟩ : HookCall).keyEvent? (.ofList [(65, .a)]) = some ⟨.a, type⟩ := by
    intro message type htype
    simp only [HookCall.keyEvent?, htype]
    rfl
  intro before call rest key hsplit hpress
  rcases before with _ | ⟨first, _ | ⟨second, before⟩⟩
  · obtain ⟨rfl, rfl⟩ := List.cons_eq_cons.mp hsplit
    rw [hevent hdown] at hpress
    cases hpress
    exact ⟨_, List.mem_singleton.mpr rfl, rfl, hevent hup⟩
  · obtain ⟨-, hsplit⟩ := List.cons_eq_cons.mp hsplit
    obtain ⟨rfl, -⟩ := List.cons_eq_cons.mp hsplit
    rw [hevent hup] at hpress
    cases hpress
  · simp [keyTap] at hsplit

/-- While Alt is held the release does not reach the mapper. -/
theorem altTap_stuck : ¬ ∀ (keyMap : KeyMap) (calls : List HookCall),
    (∀ call ∈ calls, call.injected = false) → Released keyMap calls →
      RoutesKeys keyMap calls := by
  intro h
  have hroutes := h _ (keyTap .sysKeyDown .sysKeyUp) (by decide) (keyTap_released rfl rfl)
  exact hroutes.released .a ⟨[], [], rfl, List.not_mem_nil⟩

/-- Presses and releases are routed alike exactly when no key is released
by the message for a key that is held with Alt. -/
theorem routesKeys_iff (keyMap : KeyMap) (calls : List HookCall)
    (hinjected : ∀ call ∈ calls, call.injected = false) (hreleased : Released keyMap calls) :
    RoutesKeys keyMap calls ↔
      ∀ call ∈ calls, (call.keyEvent? keyMap).isSome = true → call.wParam ≠ .sysKeyUp := by
  constructor
  · exact fun h ↦ ne_sysKeyUp_of_suppressed hinjected h.suppressed
  · intro hsys
    obtain ⟨hqueue, hresults⟩ := @hookTrace_eq keyMap [] calls hinjected hsys
    rw [List.nil_append] at hqueue
    refine ⟨hqueue, hresults, fun key ↦ ?_⟩
    rw [hqueue]
    exact not_leftPressed hreleased key

theorem routesKeys_iff_tap : RoutesKeys (.ofList [(65, .a)]) (keyTap .keyDown .keyUp) :=
  (routesKeys_iff _ _ (by decide) (keyTap_released rfl rfl)).mpr (by decide)

end Windows

end Keybinder

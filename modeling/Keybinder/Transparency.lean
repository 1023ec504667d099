import Keybinder.LinuxSystem
import Keybinder.ReadProfile

/-!
# Profiles that remap nothing

Under profiles without remappings, such as the default one, the mapper passes
every key event on, paused or not, and whichever calls are made in between:
nothing waits in its queue, so that a pause has nothing to discard.  On Linux
the virtual device then gets what the keyboard sent.
-/

namespace Keybinder

/-- No layer remaps anything, and the default layer exists. -/
structure Profile.Plain (p : Profile) : Prop where
  basic : ∀ layer ∈ p.layers, layer.basicRemappings = []
  sequences : ∀ layer ∈ p.layers, layer.sequenceRemappings = []
  default_lt : p.defaultLayer < p.layers.length

theorem Profile.plain_defaultProfile : Plain .defaultProfile :=
  ⟨by simp [defaultProfile], by simp [defaultProfile], by decide⟩

namespace Profile.Plain

variable {p : Profile}

theorem binds_eq (h : p.Plain) {layer : Layer} (hlayer : layer ∈ p.layers) : layer.binds = [] := by
  simp [Layer.binds, h.basic layer hlayer, h.sequences layer hlayer]

theorem toBasic (h : p.Plain) : p.Basic :=
  ⟨h.sequences, fun layer hlayer b hb ↦ by simp [h.binds_eq hlayer] at hb⟩

theorem layersExist (h : p.Plain) : p.LayersExist :=
  ⟨h.default_lt, fun layer hlayer b hb ↦ by simp [h.binds_eq hlayer] at hb⟩

theorem compileLayer (h : p.Plain) (H : QHash) {layer : Layer} (hlayer : layer ∈ p.layers) :
    Mapper.compileLayer H layer = .ok ([], [generateHomeState.1]) := by
  rw [Mapper.compileLayer_eq, Mapper.buildBasicMap, generateStates_eq, h.basic layer hlayer,
    h.sequences layer hlayer]
  rfl

theorem accepted (h : p.Plain) (H : QHash) : p.Accepted H :=
  Exits.exists_mapM_iff.mpr fun _ hlayer ↦ ⟨_, h.compileLayer H hlayer⟩

theorem interpret_eq (h : p.Plain) (H : QHash) (r : ℕ × List OutputEvent) (e : InputEvent) :
    interpret H p r e = (r.1, r.2 ++ passedOn e) := by
  have hfind : (p.layers[r.1]?.bind fun layer ↦ H.find layer.basicMap e) = none := by
    cases hlayer : p.layers[r.1]? with
    | none => rfl
    | some layer =>
        have hbasic := h.basic layer (List.mem_of_getElem? hlayer)
        cases hfind : H.find layer.basicMap e with
        | none => simp [hfind]
        | some binds =>
            obtain ⟨k, hk, -⟩ := H.find_eq_some hfind
            simp [Layer.basicMap, hbasic] at hk
  rw [interpret, hfind]

end Profile.Plain

namespace Mapper

/-- The mapper runs a profile that remaps nothing, and nothing waits. -/
structure PassesOn (m : Mapper) : Prop extends Serves m.profile m where
  plain : m.profile.Plain
  layer_lt : m.curLayerIdx < m.profile.layers.length
  home : m.curStateIdx = homeStateIdx
  timer : m.currentTimer = none
  queue : m.queuedEvents = []

variable {env : Env} {H : QHash} {fuel : ℕ} {m m' : Mapper} {profile : Profile}
  {layerChangedCallback : Bool} {operations : List Operation}

namespace PassesOn

theorem followsTo (h : m.PassesOn) (env : Env) (hpaused : m.paused = false) :
    m.FollowsTo env m.profile (m.curLayerIdx, m.sent.flatten) :=
  ⟨h.toServes, hpaused, rfl, h.layer_lt, h.home, h.timer, by simp [h.queue], by simp [h.queue]⟩

theorem of_followsTo {p : Profile} {r : ℕ × List OutputEvent} (h : m.FollowsTo env p r)
    (hplain : p.Plain) (hqueue : m.queuedEvents = []) : m.PassesOn := by
  obtain rfl := h.profile_eq
  exact ⟨h.toServes, hplain, h.layer_eq ▸ h.layer_lt, h.home, h.timer, hqueue⟩

theorem curState (h : m.PassesOn) : m.curState = .ok generateHomeState.1 :=
  (PassesOn.followsTo (m := { m with paused := false })
    ⟨⟨h.profile_eq, h.states_eq, h.basicMaps_eq⟩, h.plain, h.layer_lt, h.home, h.timer, h.queue⟩
    .still rfl).curState

/-- A change of layer does not send anything. -/
theorem setLayerInner (hserves : m.Serves m.profile) (hplain : m.profile.Plain)
    (hqueue : m.queuedEvents = []) {newLayer : ℕ} (hlt : newLayer < m.profile.layers.length) :
    ∃ m', m.setLayerInner newLayer = .ok m' ∧ m'.PassesOn ∧ m'.sent = m.sent := by
  obtain ⟨m', hset⟩ := setLayerInner_of_lt hlt
  obtain ⟨announced, rfl⟩ := setLayerInner_spec hset
  exact ⟨_, hset, ⟨⟨rfl, hserves.states_eq, hserves.basicMaps_eq⟩, hplain, hlt, rfl, rfl, hqueue⟩,
    rfl⟩

theorem setProfile (h : m.PassesOn) (H : QHash) {p : Profile} (hp : p.Plain) :
    ∃ m', m.setProfile H p = .ok (true, m') ∧ m'.PassesOn ∧ m'.sent = m.sent := by
  obtain ⟨compiled, hcompiled⟩ := hp.accepted H
  have heq := compiled_of_basic hp.toBasic hcompiled
  obtain ⟨m', hset, hm', hsent⟩ := setLayerInner (m := { m with
    profile := p
    states := compiled.map Prod.snd
    basicMaps := compiled.map Prod.fst })
    ⟨rfl, by simp [heq, Function.comp_def], by simp [heq, Function.comp_def]⟩ hp h.queue
    hp.default_lt
  refine ⟨m', ?_, hm', hsent⟩
  simp [Mapper.setProfile_eq, hcompiled, hset]

theorem setLayer (h : m.PassesOn) (newLayer : ℕ) :
    ∃ moved m', m.setLayer newLayer = .ok (moved, m') ∧ m'.PassesOn ∧ m'.sent = m.sent := by
  unfold Mapper.setLayer
  split
  · exact ⟨false, m, rfl, h, rfl⟩
  · rename_i hlt
    have hlength : m.states.length = m.profile.layers.length := by simp [h.states_eq]
    obtain ⟨m', hset, hm', hsent⟩ :=
      setLayerInner h.toServes h.plain h.queue (show newLayer < _ by omega)
    exact ⟨true, m', by simp [hset], hm', hsent⟩

theorem loopBody_paused (h : m.PassesOn) (hpaused : m.paused = true) (fuel : ℕ)
    (keyOpt : Option InputEvent) : ∃ m', m.loopBody env H (fuel + 1) keyOpt = .ok m' ∧
      m'.PassesOn ∧ m'.sent.flatten = m.sent.flatten ++ keyOpt.toList.flatMap passedOn := by
  have hinert : m.Inert := ⟨hpaused, h.queue, h.timer⟩
  obtain ⟨m', hm', hbody⟩ :
      ∃ m', m.Forwards keyOpt m' ∧ m.loopBody env H (fuel + 1) keyOpt = .ok m' :=
    hinert.loopBody_eq h.curState (.inr fuel.succ_ne_zero)
  have hprofile : m'.profile = m.profile := hm'.profile_eq
  refine ⟨m', hbody, ⟨⟨rfl, ?_, ?_⟩, ?_, ?_, ?_, ?_, ?_⟩, ?_⟩
  · rw [hprofile]
    exact hm'.states_eq.trans h.states_eq
  · rw [hprofile]
    exact hm'.basicMaps_eq.trans h.basicMaps_eq
  · exact hprofile ▸ h.plain
  · rw [hprofile, hm'.layer_eq]
    exact h.layer_lt
  · exact hm'.state_eq.trans h.home
  · exact hm'.timer_eq.trans h.timer
  · exact hm'.queue_eq.trans h.queue
  · rw [hm'.sent_eq]
    rcases keyOpt with _ | (e | appName) <;> simp [forwarded, passedOn]

theorem loopBody (h : m.PassesOn) (env : Env) (H : QHash) (fuel : ℕ) (keyOpt : Option InputEvent) :
    ∃ m', m.loopBody env H (fuel + 1) keyOpt = .ok m' ∧
      m'.PassesOn ∧ m'.sent.flatten = m.sent.flatten ++ keyOpt.toList.flatMap passedOn := by
  cases hpaused : m.paused with
  | true => exact h.loopBody_paused hpaused fuel keyOpt
  | false =>
      obtain ⟨m', hbody, hm', hqueue⟩ := (h.followsTo env hpaused).loopBody (H := H) fuel
        h.plain.toBasic h.plain.layersExist keyOpt
      refine ⟨m', hbody, of_followsTo hm' h.plain hqueue, ?_⟩
      have hout := hm'.out
      rw [hqueue, List.map_nil, List.append_nil] at hout
      rw [hout]
      cases keyOpt with
      | none => simp
      | some e => simp [h.plain.interpret_eq]

/-- No call of another thread sends anything either. -/
theorem operate (h : m.PassesOn) (env : Env) (H : QHash) (fuel : ℕ) (operation : Operation)
    (hplain : ∀ p ∈ operation.profile?, p.Plain) :
    ∃ m', m.operate env H (fuel + 1) operation = .ok m' ∧ m'.PassesOn ∧
      m'.sent.flatten = m.sent.flatten ++ operation.handled.toList.flatMap passedOn := by
  have hquiet : ∀ {m' : Mapper}, m'.sent = m.sent →
      m'.sent.flatten = m.sent.flatten ++ List.flatMap passedOn [] := by
    intro m' hsent
    rw [hsent, List.flatMap_nil, List.append_nil]
  cases operation with
  | setProfile p =>
      obtain ⟨m', hset, hm', hsent⟩ := h.setProfile H (hplain p rfl)
      exact ⟨m', by simp [Mapper.operate, hset], hm', hquiet hsent⟩
  | setLayer newLayer =>
      obtain ⟨moved, m', hset, hm', hsent⟩ := h.setLayer newLayer
      exact ⟨m', by simp [Mapper.operate, hset], hm', hquiet hsent⟩
  | pause =>
      exact ⟨m.pause, rfl, ⟨⟨rfl, h.states_eq, h.basicMaps_eq⟩, h.plain, h.layer_lt, h.home, rfl,
        rfl⟩, hquiet rfl⟩
  | resume =>
      exact ⟨m.resume, rfl, ⟨⟨rfl, h.states_eq, h.basicMaps_eq⟩, h.plain, h.layer_lt, h.home, h.timer,
        h.queue⟩, hquiet rfl⟩
  | stop =>
      exact ⟨m.stop, rfl, ⟨⟨rfl, h.states_eq, h.basicMaps_eq⟩, h.plain, h.layer_lt, h.home, h.timer,
        h.queue⟩, hquiet rfl⟩
  | iteration keyOpt => exact h.loopBody env H fuel keyOpt

theorem operates (h : m.PassesOn) (env : Env) (H : QHash) (fuel : ℕ) (operations : List Operation)
    (hplain : ∀ p ∈ operations.filterMap Operation.profile?, p.Plain) :
    ∃ m', operations.foldlM (Mapper.operate env H (fuel + 1)) m = .ok m' ∧ m'.PassesOn ∧
      m'.sent.flatten =
        m.sent.flatten ++ (operations.filterMap Operation.handled).flatMap passedOn := by
  induction operations generalizing m with
  | nil => exact ⟨m, rfl, h, (List.append_nil _).symm⟩
  | cons operation operations ih =>
      obtain ⟨m₁, hoperate, hm₁, hsent₁⟩ := h.operate env H fuel operation fun p hp ↦
        hplain p (List.mem_filterMap.mpr ⟨operation, List.mem_cons_self, hp⟩)
      obtain ⟨m', hrest, hm', hsent⟩ := ih hm₁ fun p hp ↦ by
        obtain ⟨operation', hmem, hp⟩ := List.mem_filterMap.mp hp
        exact hplain p (List.mem_filterMap.mpr ⟨operation', List.mem_cons_of_mem _ hmem, hp⟩)
      refine ⟨m', Exits.foldlM_cons_eq_ok.mpr ⟨m₁, hoperate, hrest⟩, hm', ?_⟩
      rw [hsent, hsent₁]
      cases hhandled : operation.handled <;> simp [hhandled]

theorem of_new (H : QHash) (hplain : profile.Plain) (layerChangedCallback : Bool) :
    ∃ m, Mapper.new H profile layerChangedCallback = .ok m ∧ m.PassesOn := by
  obtain ⟨m, hnew, hm, hqueue⟩ := followsTo_of_new .still hplain.toBasic hplain.layersExist
    (hplain.accepted H) layerChangedCallback
  exact ⟨m, hnew, of_followsTo hm hplain hqueue⟩

end PassesOn

/-- Under profiles that remap nothing no operation fails, and the daemon is
given the key events that the mapper has received, all of them, in their
order and unchanged, however the mapper is paused and resumed and its layer
is set in between. -/
theorem life_transparent (env : Env) (H : QHash) (fuel : ℕ) (profile : Profile)
    (layerChangedCallback : Bool) (operations : List Operation)
    (hplain : ∀ p ∈ profile :: operations.filterMap Operation.profile?, p.Plain) :
    ∃ m, Mapper.life env H (fuel + 1) profile layerChangedCallback operations = .ok m ∧
      m.sent.flatten = (operations.filterMap Operation.handled).flatMap passedOn ∧
      m.queuedEvents = [] := by
  rw [List.forall_mem_cons] at hplain
  obtain ⟨m₀, hnew, hm₀⟩ := PassesOn.of_new H hplain.1 layerChangedCallback
  obtain ⟨m, hm, hpasses, hsent⟩ := hm₀.operates env H fuel operations hplain.2
  rw [(fresh_of_new hnew).sent, List.flatten_nil, List.nil_append] at hsent
  exact ⟨m, Exits.bind_eq_ok.mpr ⟨m₀, hnew, hm⟩, hsent, hpasses.queue⟩

/-- A key is held while the mapper is paused and resumed. -/
theorem life_transparent_held : ∃ m,
    Mapper.life .still (.first _) 1 .defaultProfile true
      [.iteration (some (.key ⟨.a, .press⟩)), .pause, .iteration (some (.app "terminal")),
        .iteration (some (.key ⟨.a, .release⟩)), .resume, .iteration none] = .ok m ∧
    m.sent.flatten = [.key ⟨.a, .press⟩, .key ⟨.a, .release⟩] ∧ m.queuedEvents = [] :=
  life_transparent .still (.first _) 0 .defaultProfile true _
    (by simpa [Operation.profile?] using Profile.plain_defaultProfile)

end Mapper

/-! ## The thread of the mapper -/

theorem MapperCall.profile?_operation (c : MapperCall) : c.operation.profile? = c.profile? := by
  cases c <;> rfl

namespace MapperThread

variable {s s' : MapperThread} {x : ThreadStep}

theorem step_of_passesOn (h : s.mapper.PassesOn) (env : Env) (H : QHash) (fuel : ℕ)
    (hplain : ∀ p ∈ x.call?.bind MapperCall.profile?, p.Plain) :
    ∃ s', s.step env H (fuel + 1) x = .ok s' := by
  cases x with
  | sendKey e => exact ⟨_, rfl⟩
  | call c =>
      obtain ⟨m, hm, -⟩ := h.operate env H fuel c.operation (c.profile?_operation ▸ hplain)
      exact ⟨{ s with mapper := m }, by simp [step, hm]⟩
  | close => exact ⟨_, rfl⟩
  | requestInterruption => exact ⟨_, rfl⟩
  | advance =>
      simp only [step]
      split
      · exact ⟨_, rfl⟩
      · split <;> exact ⟨_, rfl⟩
      · rename_i keyOpt hawake
        obtain ⟨m, hm, -⟩ := h.loopBody env H fuel keyOpt
        exact ⟨{ s with mapper := m, timeout := some m.nextTimeout, phase := .head }, by simp [hm]⟩
      · exact ⟨_, rfl⟩
  | timeOut =>
      simp only [step]
      split <;> exact ⟨_, rfl⟩

/-- What a step has handled was pending, and was passed on. -/
theorem Does.passesOn {env : Env} {H : QHash} {fuel : ℕ} (hdoes : Does env H (fuel + 1) s x s')
    (h : s.mapper.PassesOn) (hplain : ∀ p ∈ x.call?.bind MapperCall.profile?, p.Plain) :
    s'.mapper.PassesOn ∧ ∃ handled,
      s'.mapper.sent.flatten = s.mapper.sent.flatten ++ handled.flatMap passedOn ∧
      handled ++ s'.pending = s.pending ++ x.key?.toList := by
  have hsame : s'.mapper = s.mapper → s'.pending = s.pending ++ x.key?.toList →
      s'.mapper.PassesOn ∧ ∃ handled,
        s'.mapper.sent.flatten = s.mapper.sent.flatten ++ handled.flatMap passedOn ∧
        handled ++ s'.pending = s.pending ++ x.key?.toList := by
    intro hmapper hpending
    rw [hmapper]
    exact ⟨h, [], (List.append_nil _).symm, hpending⟩
  cases hdoes with
  | idle x hx => rcases hx with ⟨rfl, -⟩ | rfl <;> exact hsame rfl (List.append_nil _).symm
  | sendKey e =>
      exact hsame rfl (by simp [pending, Channel.sendKey, KeyQueue.sendKey, ThreadStep.key?])
  | @call c mapper hcall =>
      obtain ⟨m, hm, hpasses, hsent⟩ :=
        h.operate env H fuel c.operation (c.profile?_operation ▸ hplain)
      rw [hcall, Except.ok.injEq] at hm
      subst hm
      exact ⟨hpasses, [], by simpa [handled_operation] using hsent, (List.append_nil _).symm⟩
  | close => exact hsame rfl (List.append_nil _).symm
  | interrupt => exact hsame rfl (List.append_nil _).symm
  | leave hhead => exact hsame rfl (by simp [pending, MapperPhase.inFlight, hhead, ThreadStep.key?])
  | wait hhead => exact hsame rfl (by simp [pending, MapperPhase.inFlight, hhead, ThreadStep.key?])
  | take x hx hwaiting =>
      refine hsame rfl ((pending_take hwaiting).trans ?_)
      rcases hx with rfl | rfl <;> exact (List.append_nil _).symm
  | @iterate keyOpt mapper hawake hbody =>
      obtain ⟨m, hm, hpasses, hsent⟩ := h.loopBody env H fuel keyOpt
      rw [hbody, Except.ok.injEq] at hm
      subst hm
      refine ⟨hpasses, keyOpt.toList, hsent, ?_⟩
      simp [pending, MapperPhase.inFlight, hawake, ThreadStep.key?]

end MapperThread

/-! ## The system on Linux -/

namespace Linux

/-- The mapped key has this code on the way back. -/
def DeviceEvent.Own (keyMap : KeyMap) (e : DeviceEvent) : Prop :=
  ∀ k ∈ e.keyEvent? keyMap, keyMap.findBackward k.keycode = some e.code

instance (keyMap : KeyMap) (e : DeviceEvent) : Decidable (e.Own keyMap) :=
  inferInstanceAs (Decidable (∀ k ∈ e.keyEvent? keyMap, keyMap.findBackward k.keycode = some e.code))

/-- A mapped key event as the daemon writes it: a repetition is a press. -/
def DeviceEvent.echo (keyMap : KeyMap) (e : DeviceEvent) : List Write :=
  match e.keyEvent? keyMap with
  | some k => effectWrites (.key e.code k.type)
  | none => []

/-- What is written for an event that is passed on. -/
def echo (keyMap : KeyMap) : InputEvent → List Write
  | .key k =>
      match keyMap.findBackward k.keycode with
      | some code => effectWrites (.key code k.type)
      | none => []
  | .app _ => []

namespace System

/-- The mapper passes on what it gets, and the keys on the way to it have
codes. -/
structure Passes (keyMap : KeyMap) (s : System) : Prop where
  mapper : s.thread.mapper.PassesOn
  covers : keyMap.Covers ((s.thread.pending ++ keyEvents keyMap s.device).flatMap passedOn)

variable {keyMap : KeyMap} {env : Env} {H : QHash} {fuel : ℕ} {s s' : System} {x : SystemStep}
  {steps : List SystemStep}

theorem sendOutputs_of_covers (lists : List (List OutputEvent))
    (h : keyMap.Covers lists.flatten) :
    ∃ effects, lists.mapM (sendOutputs keyMap) = .ok effects := by
  refine Exits.exists_mapM_iff.mpr fun outputs houtputs ↦ ?_
  have hcovers : keyMap.Covers outputs :=
    fun e he ↦ h e (List.mem_flatten.mpr ⟨outputs, houtputs, he⟩)
  obtain ⟨effects, heffects, -⟩ := linux_performsAll hcovers
  exact ⟨effects, heffects⟩

theorem Passes.thread (h : Passes keyMap s) {x : ThreadStep} (hx : x.key? = none)
    (hplain : ∀ p ∈ x.call?.bind MapperCall.profile?, p.Plain) (env : Env) (H : QHash) (fuel : ℕ) :
    ∃ s', s.step keyMap env H (fuel + 1) (.thread x hx) = .ok s' ∧ Passes keyMap s' := by
  simp only [step]
  split
  · exact ⟨s, rfl, h⟩
  · obtain ⟨thread, hstep⟩ := MapperThread.step_of_passesOn h.mapper env H fuel hplain
    have hdoes := MapperThread.does_of_step hstep
    obtain ⟨hmapper, handled, hsent, hpending⟩ := hdoes.passesOn h.mapper hplain
    rw [hx, Option.toList_none, List.append_nil] at hpending
    have hcovers : keyMap.Covers ((handled ++ thread.pending ++
        keyEvents keyMap s.device).flatMap passedOn) := hpending ▸ h.covers
    obtain ⟨new, hnew⟩ := hdoes.sent_le
    have hdrop : thread.mapper.sent.drop s.thread.mapper.sent.length = new := by
      rw [← hnew, List.drop_left]
    rw [← hnew, List.flatten_append, List.append_cancel_left_eq] at hsent
    obtain ⟨effects, heffects⟩ := sendOutputs_of_covers new (by
      rw [hsent]
      exact fun e he ↦ hcovers e (by simp [List.flatMap_append, he]))
    refine ⟨_, by simp only [hstep, Exits.ok_bind, hdrop, heffects]; rfl, ?_, ?_⟩
    · exact hmapper
    · exact fun e he ↦ hcovers e (by
        rw [List.append_assoc, List.flatMap_append]
        exact List.mem_append_right _ he)

theorem Passes.step (h : Passes keyMap s) (env : Env) (H : QHash) (fuel : ℕ) (x : SystemStep)
    (hown : ∀ e ∈ x.arrival?, e.Own keyMap)
    (hplain : ∀ p ∈ x.call?.bind MapperCall.profile?, p.Plain) :
    ∃ s', s.step keyMap env H (fuel + 1) x = .ok s' ∧ Passes keyMap s' := by
  cases x with
  | arrive e =>
      refine ⟨_, rfl, h.mapper, ?_⟩
      intro k hk
      simp only [keyEvents_append, List.flatMap_append, ← List.append_assoc] at hk
      rcases List.mem_append.mp hk with hk | hk
      · exact h.covers k (by simpa [List.flatMap_append] using hk)
      · rw [keyEvents_cons] at hk
        cases hkey : e.keyEvent? keyMap with
        | none => simp [hkey, keyEvents] at hk
        | some k' =>
            obtain rfl : k = k' := by simpa [hkey, keyEvents, passedOn] using hk
            rw [hown e rfl k hkey]
            rfl
  | requestInterruption => exact ⟨_, rfl, h.mapper, h.covers⟩
  | read =>
      simp only [System.step]
      split
      · exact ⟨s, rfl, h⟩
      · split
        · rename_i hdevice
          exact ⟨_, rfl, h.mapper, h.covers⟩
        · rename_i e device hdevice
          refine ⟨_, rfl, ?_, ?_⟩
          · rw [handleEvent_eq]
            exact h.mapper
          · have hcovers := h.covers
            rw [hdevice, keyEvents_cons] at hcovers
            rw [handleEvent_eq]
            simpa [MapperThread.pending, List.append_assoc] using hcovers
  | write writer => exact ⟨_, rfl, h.mapper, h.covers⟩
  | thread x hx => exact h.thread hx hplain env H fuel

theorem Passes.run (h : Passes keyMap s) (env : Env) (H : QHash) (fuel : ℕ)
    (hown : ∀ e ∈ steps.filterMap SystemStep.arrival?, e.Own keyMap)
    (hplain : ∀ p ∈ (steps.filterMap SystemStep.call?).filterMap MapperCall.profile?, p.Plain) :
    ∃ s', s.run keyMap env H (fuel + 1) steps = .ok s' ∧ Passes keyMap s' := by
  rw [List.filterMap_filterMap] at hplain
  refine Exits.exists_foldlM (fun x hx s hs ↦ ?_) h
  exact hs.step env H fuel x (fun e he ↦ hown e (List.mem_filterMap.mpr ⟨x, hx, he⟩))
    fun p hp ↦ hplain p (List.mem_filterMap.mpr ⟨x, hx, hp⟩)

theorem effectWrites_eq_echo {inputs : List InputEvent} {effects : List DaemonEffect}
    (h : List.Forall₂ (Performs keyMap) (inputs.flatMap passedOn) effects) :
    effects.flatMap effectWrites = inputs.flatMap (echo keyMap) := by
  induction inputs generalizing effects with
  | nil =>
      cases h
      rfl
  | cons e inputs ih =>
      cases e with
      | app appName => exact ih h
      | key k =>
          cases h with
          | cons hperforms hrest =>
              cases hperforms with
              | key hcode => simp [echo, hcode, ih hrest]

theorem echo_keyEvents {events : List DeviceEvent} (hown : ∀ e ∈ events, e.Own keyMap) :
    (keyEvents keyMap events).flatMap (echo keyMap) =
      events.flatMap (DeviceEvent.echo keyMap) := by
  induction events with
  | nil => rfl
  | cons e events ih =>
      rw [List.forall_mem_cons] at hown
      rw [keyEvents_cons, List.flatMap_append, List.flatMap_cons, ih hown.2]
      congr 1
      cases hkey : e.keyEvent? keyMap with
      | none => simp [DeviceEvent.echo, hkey]
      | some k => simp [DeviceEvent.echo, echo, hkey, hown.1 k hkey]

/-- Under profiles that remap nothing no interleaving fails, and the two
threads write what the keyboard has sent: the mapped key events with their
codes, the other key events as they were, and a report for each event that
synchronizes, each in its order and all of it but what is still on its way.
Events of other types are dropped. -/
theorem run_transparent (keyMap : KeyMap) (env : Env) (H : QHash) (fuel : ℕ) (profile : Profile)
    (layerChangedCallback : Bool) (steps : List SystemStep)
    (hplain : ∀ p ∈ profile :: (steps.filterMap SystemStep.call?).filterMap MapperCall.profile?,
      p.Plain)
    (hown : ∀ e ∈ steps.filterMap SystemStep.arrival?, e.Own keyMap) :
    ∃ m₀ s, Mapper.new H profile layerChangedCallback = .ok m₀ ∧
      run keyMap env H (fuel + 1) { thread := { mapper := m₀ } } steps = .ok s ∧
      s.outbox.writtenBy .mapper ++ s.outbox.pending .mapper ++
          (s.thread.pending ++ keyEvents keyMap s.device).flatMap (echo keyMap) =
        (steps.filterMap SystemStep.arrival?).flatMap (DeviceEvent.echo keyMap) ∧
      s.outbox.writtenBy .daemon ++ s.outbox.pending .daemon ++
          s.device.flatMap (DeviceEvent.forwarded keyMap) =
        (steps.filterMap SystemStep.arrival?).flatMap (DeviceEvent.forwarded keyMap) := by
  rw [List.forall_mem_cons] at hplain
  obtain ⟨m₀, hnew, hm₀⟩ := Mapper.PassesOn.of_new H hplain.1 layerChangedCallback
  have hstart : Passes keyMap { thread := { mapper := m₀ } } :=
    ⟨hm₀, fun _ he ↦ (List.not_mem_nil he).elim⟩
  obtain ⟨s, hrun, -⟩ := hstart.run env H fuel hown hplain.2
  obtain ⟨⟨received, hran, hreceived⟩, ⟨effects, hperforms, hmapper⟩, hdaemon⟩ :=
    Accounts.of_run (Mapper.fresh_of_new hnew).sent hrun
  obtain ⟨operations, hlife, hcalled, hhandled⟩ := hran.lives hnew
  rw [Mapper.life, hnew, Exits.ok_bind] at hlife
  obtain ⟨m, hm, -, hsent⟩ := hm₀.operates env H fuel operations
    (MapperThread.profiles_of_called hcalled ▸ hplain.2)
  rw [hlife, Except.ok.injEq] at hm
  subst hm
  rw [(Mapper.fresh_of_new hnew).sent, List.flatten_nil, List.nil_append] at hsent
  rw [hsent] at hperforms
  refine ⟨m₀, s, hnew, hrun, ?_, hdaemon⟩
  have hwritten : s.outbox.writtenBy .mapper ++ s.outbox.pending .mapper =
      (operations.filterMap Operation.handled).flatMap (echo keyMap) :=
    hmapper.trans (effectWrites_eq_echo hperforms)
  rw [hwritten, ← List.flatMap_append, ← List.append_assoc, hhandled, hreceived,
    echo_keyEvents hown]

/-- A key is held until it repeats, and another one is not mapped. -/
def heldSteps : List SystemStep :=
  let advance := .thread .advance ThreadStep.key?_advance
  [.arrive ⟨.key, 30, 1⟩, .arrive synReport, .read, .thread (.call .resume) (ThreadStep.key?_call _),
    .arrive ⟨.key, 240, 1⟩, .arrive ⟨.other, 4, 30⟩, .arrive ⟨.key, 30, 2⟩, advance, advance,
    advance, .read, .write .daemon, .read, .write .mapper, .write .daemon, .write .mapper,
    .write .daemon, .read, .read, advance, advance, advance, .write .mapper, .write .mapper]

def defaultMapper : Mapper where
  profile := .defaultProfile
  states := [[generateHomeState.1]]
  basicMaps := [[]]
  layerChangedCallback := true
  announced := ["default"]
  history := [.layerSet 0]

/-- Under the default profile all of it is written. -/
theorem run_transparent_held : ∃ s,
    Mapper.new (.first _) .defaultProfile true = .ok defaultMapper ∧
    run mapA .still (.first _) 1 { thread := { mapper := defaultMapper } } heldSteps = .ok s ∧
    s.outbox.writtenBy .mapper = keyWrites 30 1 ++ keyWrites 30 1 ∧
    s.outbox.writtenBy .daemon = [.event synReport] ++ keyWrites 240 1 := by
  obtain ⟨m₀, s, hnew, hrun, hmapper, hdaemon⟩ :=
    run_transparent mapA .still (.first _) 0 .defaultProfile true heldSteps
      (by simpa [heldSteps, SystemStep.call?, ThreadStep.call?, MapperCall.profile?] using
        Profile.plain_defaultProfile) (by decide)
  obtain rfl : defaultMapper = m₀ := Except.ok.inj hnew
  obtain ⟨s', hrun', hpending, hdevice, hqueued, hqueued'⟩ := Exits.exists_ok
    (x := run mapA .still (.first _) 1 { thread := { mapper := defaultMapper } } heldSteps)
    (fun s ↦ s.thread.pending = [] ∧ s.device = [] ∧ s.outbox.pending .mapper = [] ∧
      s.outbox.pending .daemon = []) (by decide +kernel)
  obtain rfl : s' = s := Except.ok.inj (hrun'.symm.trans hrun)
  rw [hpending, hdevice, hqueued, List.append_nil] at hmapper
  rw [hdevice, hqueued', List.append_nil] at hdaemon
  exact ⟨s', hnew, hrun, (List.append_nil _).symm.trans hmapper,
    (List.append_nil _).symm.trans hdaemon⟩

end System

end Linux

end Keybinder

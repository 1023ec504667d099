import Keybinder.MapperLife

/-!
# Pausing

Between `pause` and `resume` the mapper hands every key event to the daemon
as it came and does nothing else, however events, polls and changes of the
layer follow each other.
-/

namespace Keybinder

namespace Operation

/-- What can happen between `pause` and `resume`. -/
def WhilePaused : Operation → Prop
  | .iteration _ => True
  | .setLayer _ => True
  | _ => False

/-- The key event that the operation took from the channel. -/
def forwarded : Operation → List (List OutputEvent)
  | .iteration keyOpt => Mapper.forwarded keyOpt
  | _ => []

end Operation

namespace Mapper

/-- An operation of a paused mapper: it returns, only a key event from the
channel is sent, and the place of the mapper changes with the layer only. -/
structure PausedStep (env : Env) (H : QHash) (fuel : ℕ) (m : Mapper) (operation : Operation)
    (m' : Mapper) : Prop where
  returns : m.operate env H fuel operation = .ok m'
  sent_eq : m'.sent = m.sent ++ operation.forwarded
  queue : m'.queuedEvents = []
  timer : m'.currentTimer = none
  place : ∀ keyOpt, operation = .iteration keyOpt →
    m'.curLayerIdx = m.curLayerIdx ∧ m'.curStateIdx = m.curStateIdx

inductive PausedRun (env : Env) (H : QHash) (fuel : ℕ) : Mapper → List Operation → Mapper → Prop
  | nil (m : Mapper) : PausedRun env H fuel m [] m
  | cons {m m₁ m' : Mapper} {operation : Operation} {operations : List Operation}
      (hstep : PausedStep env H fuel m operation m₁) (hrun : PausedRun env H fuel m₁ operations m') :
      PausedRun env H fuel m (operation :: operations) m'

variable {env : Env} {H : QHash} {fuel : ℕ} {m m' : Mapper}

/-- A paused mapper that has a current state. -/
structure Dormant (H : QHash) (m : Mapper) : Prop extends Inert m where
  installed : m.Installed H
  curState_ok : ∃ state, m.curState = .ok state

theorem curState_of_home (h : m.Installed H) (hlayer : m.curLayerIdx < m.states.length)
    (hhome : m.curStateIdx = homeStateIdx) : ∃ state, m.curState = .ok state := by
  have hstates := List.getElem?_eq_getElem hlayer
  obtain ⟨layer, -, hgenerate⟩ := h.generated (List.mem_of_getElem? hstates)
  have hlt := home_lt_of_generateStates hgenerate
  have hstate := List.getElem?_eq_getElem hlt
  refine ⟨m.states[m.curLayerIdx][homeStateIdx], ?_⟩
  rw [curState, hhome]
  simp only [vectorAt, hstates, Exits.ok_bind, hstate]

namespace Dormant

theorem iteration (h : m.Dormant H) (hfuel : fuel ≠ 0) (keyOpt : Option InputEvent) :
    ∃ m', PausedStep env H fuel m (.iteration keyOpt) m' ∧ m'.Dormant H := by
  obtain ⟨state, hstate⟩ := h.curState_ok
  obtain ⟨m', hm', hbody⟩ : ∃ m', m.Forwards keyOpt m' ∧ m.loopBody env H fuel keyOpt = .ok m' :=
    h.toInert.loopBody_eq hstate (.inr hfuel)
  have hinert := h.toInert.frame hm'
  refine ⟨m', ⟨hbody, hm'.sent_eq, hinert.queue, hinert.timer, ?_⟩, hinert,
    h.installed.frame hm'.toSameMachines, state, ?_⟩
  · exact fun _ _ ↦ ⟨hm'.layer_eq, hm'.state_eq⟩
  · rw [← hstate]
    simp only [curState, hm'.states_eq, hm'.layer_eq, hm'.state_eq]

theorem setLayer (h : m.Dormant H) (newLayer : ℕ) :
    ∃ m', PausedStep env H fuel m (.setLayer newLayer) m' ∧ m'.Dormant H := by
  have hplace : ∀ keyOpt, Operation.setLayer newLayer ≠ .iteration keyOpt := by simp
  have hsent : m.sent = m.sent ++ Operation.forwarded (.setLayer newLayer) :=
    (List.append_nil _).symm
  by_cases hlt : newLayer < m.states.length
  · obtain ⟨m', hset⟩ := setLayerInner_of_lt (h.installed.layers_length hlt)
    have hinstalled := h.installed.frame (kept_of_setLayerInner hset).sameMachines
    have hreturns : m.operate env H fuel (.setLayer newLayer) = .ok m' := by
      simp [operate, Mapper.setLayer, Nat.not_le.mpr hlt, hset]
    obtain ⟨announced, rfl⟩ := setLayerInner_spec hset
    exact ⟨_, ⟨hreturns, hsent, h.queue, rfl, fun keyOpt hop ↦ (hplace keyOpt hop).elim⟩,
      ⟨h.paused, h.queue, rfl⟩, hinstalled, curState_of_home hinstalled hlt rfl⟩
  · have hreturns : m.operate env H fuel (.setLayer newLayer) = .ok m := by
      simp [operate, Mapper.setLayer, Nat.le_of_not_lt hlt]
    exact ⟨m, ⟨hreturns, hsent, h.queue, h.timer, fun keyOpt hop ↦ (hplace keyOpt hop).elim⟩, h⟩

theorem run (h : m.Dormant H) (hfuel : fuel ≠ 0) {operations : List Operation}
    (hoperations : ∀ operation ∈ operations, operation.WhilePaused) :
    ∃ m', PausedRun env H fuel m operations m' ∧
      m'.sent = m.sent ++ operations.flatMap Operation.forwarded := by
  induction operations generalizing m with
  | nil => exact ⟨m, .nil m, (List.append_nil _).symm⟩
  | cons operation operations ih =>
      have hstep : ∃ m₁, PausedStep env H fuel m operation m₁ ∧ m₁.Dormant H := by
        have hop := hoperations operation (by simp)
        cases operation with
        | iteration keyOpt => exact h.iteration hfuel keyOpt
        | setLayer newLayer => exact h.setLayer newLayer
        | setProfile p => exact hop.elim
        | pause => exact hop.elim
        | resume => exact hop.elim
        | stop => exact hop.elim
      obtain ⟨m₁, hm₁, hdormant⟩ := hstep
      obtain ⟨m', hrun, hsent⟩ :=
        ih hdormant fun operation hop ↦ hoperations operation (List.mem_cons_of_mem _ hop)
      refine ⟨m', .cons hm₁ hrun, ?_⟩
      rw [hsent, hm₁.sent_eq, List.flatMap_cons, List.append_assoc]

end Dormant

/-! ## Pausing is transparent -/

/-- A mapper that any operations led to is paused, and its current state
exists: events, polls and changes of the layer follow in any order.  Every
step returns, leaves queue and timer empty, and sends the key event it took,
if it took one; a received event or a poll keeps the place. -/
theorem life_pauseTransparent (env : Env) (H : QHash) {fuel : ℕ} (hfuel : fuel ≠ 0)
    {profile : Profile} {layerChangedCallback : Bool} {operations : List Operation} {m : Mapper}
    (hlife : Mapper.life env H fuel profile layerChangedCallback operations = .ok m)
    {state : State} (hstate : m.curState = .ok state) {paused : List Operation}
    (hpaused : ∀ operation ∈ paused, operation.WhilePaused) :
    ∃ m', PausedRun env H fuel m.pause paused m' ∧
      m'.sent = m.sent ++ paused.flatMap Operation.forwarded := by
  have hinstalled : m.Installed H := Installed.of_life hlife
  have hdormant : m.pause.Dormant H := ⟨⟨rfl, rfl, rfl⟩, hinstalled, state, hstate⟩
  exact hdormant.run hfuel hpaused

/-- A tap that waits is dropped, and the next key passes. -/
theorem life_pauseTransparent_tap : ∃ m state,
    Mapper.life .still (.first _) 2 ⟨"tap", [tapLayer], 0⟩ true
      [.iteration (some (.key ⟨.a, .press⟩))] = .ok m ∧ m.curState = .ok state ∧
    m.currentTimer = some 200 ∧
    ∃ m', PausedRun .still (.first _) 2 m.pause
        [.iteration none, .setLayer 3, .iteration (some (.key ⟨.b, .press⟩))] m' ∧
      m'.sent = m.sent ++ [[.key ⟨.b, .press⟩]] := by
  obtain ⟨m, state, hlife, hstate, htimer⟩ : ∃ m state,
      Mapper.life .still (.first _) 2 ⟨"tap", [tapLayer], 0⟩ true
        [.iteration (some (.key ⟨.a, .press⟩))] = .ok m ∧ m.curState = .ok state ∧
      m.currentTimer = some 200 :=
    ⟨_, _, rfl, rfl, rfl⟩
  refine ⟨m, state, hlife, hstate, htimer, ?_⟩
  refine life_pauseTransparent .still (.first _) (by decide) hlife hstate ?_
  simp [Operation.WhilePaused]

end Mapper

end Keybinder

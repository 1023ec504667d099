import Keybinder.Construction

/-!
# Closed machines

A machine is closed when every transition it stores leads to one of its
states.  The state that a minimum wait opens has a fallback whose target
was never assigned, so a generated machine is closed exactly when no wait of
its layer opens such a state.
-/

namespace Keybinder

def State.transitions (state : State) : List Transition :=
  state.edges.map Prod.snd ++ state.fallbackTransition :: state.timerTransition.toList

/-- Every stored transition has a target, and the target is a state. -/
def Closed (states : List State) : Prop :=
  ∀ state ∈ states, ∀ transition ∈ state.transitions,
    ∃ idx, transition.newState = some idx ∧ idx < states.length

instance (states : List State) : Decidable (Closed states) :=
  inferInstanceAs (Decidable (∀ state ∈ states, ∀ transition ∈ state.transitions,
    ∃ idx, transition.newState = some idx ∧ idx < states.length))

/-- After the same triggers, the first sequence with a wait ends with it or
has a maximum wait.  Later minimum waits there lead home. -/
def Layer.WaitsLeadHome (H : QHash) (layer : Layer) : Prop :=
  ∀ T, layer.trie H = .ok T → ∀ p x, T.timedAt p = some x → x.pass.midWait = false

variable {H : QHash} {layer : Layer} {states : List State} {T : Trie} {places : List Place}
  {metadata : List StateMetadata} {p : Place} {q : ℕ} {x : Placement}

theorem Trie.mem_transitions_state {idx : Place → ℕ} {E W : Trie} {transition : Transition} :
    transition ∈ (Trie.state idx E W p).transitions ↔
      (∃ x ∈ E.edgesAt p, transition = x.transition idx) ∨ transition = E.fallback p ∨
        ∃ x, W.timedAt p = some x ∧ transition = x.timerTransition idx (E.fallback p) := by
  simp only [State.transitions, Trie.state, List.mem_append, List.mem_cons, List.map_map,
    List.mem_map, Function.comp_apply, Option.mem_toList, Option.map_eq_some_iff,
    eq_comm (a := transition)]

namespace Represents

theorem lt_of_mem (hb : Represents ⟨states, metadata⟩ T T places) (hp : p ∈ places) :
    Numbering.number places p < states.length := by
  obtain ⟨hlt, -⟩ := List.getElem?_eq_some_iff.mp (Numbering.getElem?_number hp)
  simpa [← hb.length_states] using hlt

/-- What a stored transition can be. -/
theorem transition_cases (hb : Represents ⟨states, metadata⟩ T T places) {state : State}
    (hstate : state ∈ states) {transition : Transition} (ht : transition ∈ state.transitions) :
    ∃ p ∈ places, (∃ x ∈ T.edgesAt p, transition = x.transition (Numbering.number places)) ∨
      transition = T.fallback p ∨ ∃ x, T.timedAt p = some x ∧
        transition = x.timerTransition (Numbering.number places) (T.fallback p) := by
  obtain ⟨q, hq⟩ := List.mem_iff_getElem?.mp hstate
  have hlen : q < places.length := by
    obtain ⟨hlt, -⟩ := List.getElem?_eq_some_iff.mp hq
    rw [← hb.length_states]
    exact hlt
  have hplace : places[q]? = some places[q] := List.getElem?_eq_getElem hlen
  have hstate' := hb.state hplace
  rw [hq, Option.some.injEq] at hstate'
  subst hstate'
  exact ⟨places[q], List.mem_of_getElem? hplace, Trie.mem_transitions_state.mp ht⟩

variable (hT : T.Grows H) (hb : Represents ⟨states, metadata⟩ T T places)

include hT hb

theorem not_closed_of_midWait (hx : T.timedAt p = some x) (hmid : x.pass.midWait = true) :
    ¬ Closed states := by
  intro hclosed
  have htgt := (Trie.timedAt_eq_some hx).2.2
  have hmem := hb.timer_mem x p hx
  rw [Placement.timerPlace_of_midWait hmid] at hmem
  have hstate := List.mem_of_getElem? (hb.state (Numbering.getElem?_number hmem))
  obtain ⟨idx, hidx, -⟩ := hclosed _ hstate (T.fallback (x.tgt ++ [.wait]))
    (by simp [State.transitions, Trie.state])
  simp [hT.fallback_wait] at hidx

theorem fallback_newState (hwaits : ∀ p x, T.timedAt p = some x → x.pass.midWait = false)
    (hp : p ∈ places) : (T.fallback p).newState = some homeStateIdx := by
  rcases hb.origin p hp with rfl | ⟨x, hx, -, rfl, -⟩ | ⟨x, p', hx, hmid, -⟩
  · rfl
  · exact hT.fallback_newState hx
  · rw [hwaits p' x hx] at hmid
    cases hmid

theorem closed (hwaits : ∀ p x, T.timedAt p = some x → x.pass.midWait = false) :
    Closed states := by
  intro state hstate transition ht
  have hhome : homeStateIdx < states.length := by
    rw [← hb.number_home]
    exact hb.lt_of_mem hb.home_mem
  obtain ⟨p, hp, ⟨x, hx, rfl⟩ | rfl | ⟨x, hx, rfl⟩⟩ := hb.transition_cases hstate ht
  · exact ⟨_, rfl, hb.lt_of_mem (hb.tgt_mem x (Trie.mem_edgesAt.mp hx).1)⟩
  · exact ⟨_, hb.fallback_newState hT hwaits hp, hhome⟩
  · have hfallback := hb.fallback_newState hT hwaits hp
    exact ⟨_, Placement.timerTransition_newState hb.number_home hfallback,
      hb.lt_of_mem (hb.timer_mem x _ hx)⟩

end Represents

/-! ## When the generated machine is closed -/

/-- Holding A for half a second and letting it go. -/
def holdLayer : Layer where
  layerName := "hold"
  basicRemappings := []
  sequenceRemappings :=
    [⟨.default, [.keyPress .a, .minimumWait 500, .keyRelease .a], [.pressKey .x]⟩]

/-- The machine of the hold is open. -/
theorem holdLayer_open : ∃ states, generateStates (.first _) holdLayer = .ok states ∧
    ¬ Closed states :=
  ⟨_, rfl, by decide⟩

/-- A generated machine is closed if and only if the waits of its layer lead
home. -/
theorem generateStates_closed_iff (H : QHash) (layer : Layer) (states : List State)
    (h : generateStates H layer = .ok states) : Closed states ↔ layer.WaitsLeadHome H := by
  obtain ⟨T, metadata, places, htrie, hT, hb⟩ := trie_of_generateStates h
  constructor
  · intro hclosed T' hT' p x hx
    rw [htrie, Except.ok.injEq] at hT'
    subst hT'
    cases hmid : x.pass.midWait with
    | false => rfl
    | true => exact (hb.not_closed_of_midWait hT hx hmid hclosed).elim
  · intro hwaits
    exact hb.closed hT (hwaits T htrie)

/-- A maximum wait ahead of a final trigger. -/
def tapLayer : Layer where
  layerName := "tap"
  basicRemappings := []
  sequenceRemappings :=
    [⟨.default, [.keyPress .a, .maximumWait 200, .keyRelease .a], [.pressKey .x]⟩]

theorem generateStates_closed_iff_tap : ∃ states, generateStates (.first _) tapLayer = .ok states ∧
    (Closed states ↔ tapLayer.WaitsLeadHome (.first _)) :=
  ⟨_, rfl, generateStates_closed_iff _ _ _ rfl⟩

end Keybinder

import Keybinder.TimerFreshness

/-!
# States that wait

A state with a timer transition is left by time only if the timer of the
mapper is set.  The edge sets the timer, the state has the transition: the
two agree when the sequence that made the edge has a wait there, and when no
pause cancels the timer of a waiting state.
-/

namespace Keybinder

/-- Wherever a sequence waits, the edge was made for a wait, and it does not
lead home. -/
def Layer.WaitsArmed (H : QHash) (layer : Layer) : Prop :=
  ∀ T, layer.trie H = .ok T → ∀ p x, T.timedAt p = some x →
    p ≠ [] ∧ ∀ y ∈ T, y.fresh = true → y.tgt = p → y.pass.timer.isSome = true

/-- A state that waits is entered by transitions that carry a time. -/
structure TimersAgree (states : List State) : Prop where
  home : ∀ state, states[homeStateIdx]? = some state → state.timerTransition = none
  entered : ∀ (idx : ℕ) (state : State) (transition : Transition) (n : ℕ) (target : State),
    states[idx]? = some state →
    transition ∈ state.transitions → transition.newState = some n → states[n]? = some target →
    target.timerTransition ≠ none → transition.timerMs ≠ none

namespace Trie

variable {H : QHash} {T : Trie}

theorem Grows.timedAt_wait (hT : T.Grows H) (p : Place) : T.timedAt (p ++ [.wait]) = none := by
  apply timedAt_eq_none
  intro x hx htgt
  obtain ⟨y, hy, hfresh, -, -, hytgt⟩ := hT.creator hx
  have hplace := (hT.fresh hy hfresh).2
  rw [hytgt, htgt] at hplace
  split at hplace
  · simp at hplace
  · have hlast := (List.append_inj' hplace rfl).2
    simp at hlast

end Trie

theorem timersAgree_of_waitsArmed {H : QHash} {layer : Layer} {states : List State}
    (hgenerate : generateStates H layer = .ok states) (hwaits : layer.WaitsArmed H) :
    TimersAgree states := by
  obtain ⟨T, metadata, places, htrie, hT, hb⟩ := trie_of_generateStates hgenerate
  have hhome : T.timedAt [] = none := by
    by_contra h
    obtain ⟨x, hx⟩ := Option.ne_none_iff_exists'.mp h
    exact (hwaits T htrie [] x hx).1 rfl
  have htimer : ∀ (n : ℕ) (target : State), states[n]? = some target → target.timerTransition ≠ none →
      ∃ p x, places[n]? = some p ∧ T.timedAt p = some x := by
    intro n target htarget hne
    obtain ⟨transition, ht⟩ := Option.ne_none_iff_exists'.mp hne
    obtain ⟨p, hp⟩ := hb.place_of_state htarget
    obtain ⟨x, hx, -⟩ := hb.timerTransition_cases hp htarget ht
    exact ⟨p, x, hp, hx⟩
  constructor
  · intro state hstate
    by_contra hne
    obtain ⟨p, x, hp, hx⟩ := htimer _ _ hstate hne
    obtain rfl : p = [] := Option.some.inj (hp.symm.trans hb.home)
    rw [hhome] at hx
    cases hx
  · intro idx state transition n target hstate ht hn htarget hne
    obtain ⟨q, x, hq, hx⟩ := htimer _ _ htarget hne
    have hnot : ∀ p, Numbering.number places p = n → p ∈ places → q = p := by
      rintro p rfl hp
      exact Option.some.inj (hq.symm.trans (Numbering.getElem?_number hp))
    obtain ⟨p, hp, ⟨y, hy, rfl⟩ | rfl | ⟨y, hy, rfl⟩⟩ :=
      hb.transition_cases (List.mem_of_getElem? hstate) ht
    · obtain ⟨hmem, hfresh, -⟩ := Trie.mem_edgesAt.mp hy
      obtain rfl := hnot y.tgt (Option.some.inj hn) (hb.tgt_mem y hmem)
      have hsome := (hwaits T htrie y.tgt x hx).2 y hmem hfresh rfl
      simpa [Placement.transition, newTransition, Option.isSome_iff_ne_none] using hsome
    · have hleads : n = homeStateIdx := by
        rcases hb.fallback_cases hT hp with h | ⟨p', -, h⟩
        · rw [h] at hn
          exact (Option.some.inj hn).symm
        · rw [h] at hn
          cases hn
      obtain rfl : q = [] := Option.some.inj (hq.symm.trans (hleads ▸ hb.home))
      rw [hhome] at hx
      cases hx
    · have hmem := (Trie.timedAt_eq_some hy).1
      have htgt := (Trie.timedAt_eq_some hy).2.2
      subst htgt
      have hnew := y.timerTransition_newState hb.number_home (hT.fallback_newState hmem)
      rw [hnew] at hn
      obtain rfl := hnot y.timerPlace (Option.some.inj hn) (hb.timer_mem y _ hy)
      unfold Placement.timerPlace at hx
      split at hx
      · rw [hT.timedAt_wait] at hx
        cases hx
      · rw [hhome] at hx
        cases hx

namespace Mapper

def Waiting (m : Mapper) : Prop :=
  ∃ state, m.curState = .ok state ∧ state.timerTransition ≠ none

def TimerRuns (m : Mapper) : Prop := m.Waiting → m.currentTimer ≠ none

variable {env : Env} {H : QHash} {fuel : ℕ} {m m' : Mapper}

theorem TimerRuns.frame (h : m.TimerRuns) (hstates : m'.states = m.states)
    (hlayer : m'.curLayerIdx = m.curLayerIdx) (hstate : m'.curStateIdx = m.curStateIdx)
    (htimer : m'.currentTimer = m.currentTimer) : m'.TimerRuns := by
  rintro ⟨state, hcur, hne⟩
  rw [htimer]
  apply h
  refine ⟨state, ?_, hne⟩
  rw [← hcur]
  simp only [curState, hstates, hlayer, hstate]

theorem timerRuns_of_home (hagree : ∀ states ∈ m.states, TimersAgree states)
    (hhome : m.curStateIdx = homeStateIdx) : m.TimerRuns := by
  rintro ⟨state, hcur, hne⟩
  obtain ⟨states, hstates, hstate⟩ := curState_eq_ok hcur
  rw [hhome] at hstate
  exact (hne ((hagree states (List.mem_of_getElem? hstates)).home state hstate)).elim

/-- An assigned transition sets the timer of the state that it leads to. -/
theorem timerRuns_enter (hagree : ∀ states ∈ m.states, TimersAgree states) {state : State}
    (hstate : m.curState = .ok state) {transition : Transition}
    (ht : transition ∈ state.transitions) (hassigned : transition.newState ≠ none)
    (prevEvent : Option InputEvent) : (m.enter env transition prevEvent).TimerRuns := by
  rintro ⟨target, hcur, hne⟩
  obtain ⟨states, hstates, hidx⟩ := curState_eq_ok hstate
  obtain ⟨states', hstates', htarget⟩ := curState_eq_ok hcur
  obtain rfl : states = states' := Option.some.inj (hstates.symm.trans hstates')
  obtain ⟨n, hn⟩ := Option.ne_none_iff_exists'.mp hassigned
  have hn' : (m.enter env transition prevEvent).curStateIdx = n := by simp [enter, hn]
  rw [hn'] at htarget
  have hms := (hagree states (List.mem_of_getElem? hstates)).entered _ state transition n target
    hidx ht hn htarget hne
  simpa [enter] using hms

theorem Act.timerRuns (h : Act env H m m') (hagree : ∀ states ∈ m.states, TimersAgree states)
    (hassigned : ∀ moment ∈ m'.history, moment.Assigned) (hm : m.TimerRuns) : m'.TimerRuns := by
  have hstage : SameStage m m' → m'.TimerRuns := fun hsame ↦
    hm.frame hsame.states_eq hsame.layer_eq hsame.state_eq hsame.timer_eq
  cases h with
  | output hact =>
      cases hact with
      | queue => exact hm.frame rfl rfl rfl rfl
      | swap hset =>
          obtain ⟨announced, rfl⟩ := setLayerInner_spec hset
          exact timerRuns_of_home hagree rfl
  | input hstate e =>
      exact timerRuns_enter hagree hstate (transitionFor_mem H _ e)
        (hassigned (.taken _ _ _ _ _) (List.mem_append_right _ List.mem_cons_self)) (some e)
  | @expire state transition hstate ht hd =>
      have hmem : transition ∈ state.transitions := by simp [State.transitions, ht]
      have hchecked : (m.checked env).curState = .ok state := hstate
      exact timerRuns_enter (m := m.checked env) hagree hchecked hmem
        (hassigned (.taken _ _ _ _ _) (List.mem_append_right _ List.mem_cons_self)) none
  | quiet => exact hm.frame rfl rfl rfl rfl
  | emit => exact hstage (sameStage_checkQueuedEvents env m)
  | bypass e => cases e <;> exact hm.frame rfl rfl rfl rfl
  | count e => exact hstage (sameStage_countKey env m e)
  | processed => exact hm.frame rfl rfl rfl rfl

theorem Acts.timerRuns (h : Acts env H m m') (hagree : ∀ states ∈ m.states, TimersAgree states)
    (hassigned : ∀ moment ∈ m'.history, moment.Assigned) (hm : m.TimerRuns) : m'.TimerRuns := by
  induction h with
  | refl => exact hm
  | tail hacts hact ih =>
      have hm₁ := ih fun moment hmoment ↦ hassigned moment (hact.history_le.subset hmoment)
      exact hact.timerRuns ((Acts.sameMachines hacts).states_eq ▸ hagree) hassigned hm₁

/-! ## Whole lives -/

theorem Happens.history_le {operation : Operation} (h : Happens env H fuel m operation m') :
    m.history <+: m'.history := by
  cases h with
  | rejected => exact List.prefix_rfl
  | installed hset =>
      obtain ⟨compiled, -, hset⟩ := setProfile_true hset
      obtain ⟨announced, rfl⟩ := setLayerInner_spec hset
      exact List.prefix_append _ _
  | ignored => exact List.prefix_rfl
  | moved _ hset =>
      obtain ⟨announced, rfl⟩ := setLayerInner_spec hset
      exact List.prefix_append _ _
  | pause => exact List.prefix_rfl
  | resume => exact List.prefix_rfl
  | stop => exact List.prefix_rfl
  | iteration hbody => exact Acts.history_le (acts_of_loopBody hbody)

theorem Happens.timerRuns {operation : Operation} (h : Happens env H fuel m operation m')
    (hagree : ∀ states ∈ m.states, TimersAgree states)
    (hagree' : ∀ states ∈ m'.states, TimersAgree states)
    (hassigned : ∀ moment ∈ m'.history, moment.Assigned)
    (hresume : operation = .resume → m.paused = true → ¬ m.Waiting)
    (hm : m.paused = false → m.TimerRuns) (hpaused : m'.paused = false) : m'.TimerRuns := by
  cases h with
  | rejected => exact hm hpaused
  | installed hset =>
      obtain ⟨compiled, -, hset⟩ := setProfile_true hset
      obtain ⟨announced, rfl⟩ := setLayerInner_spec hset
      exact timerRuns_of_home hagree' rfl
  | ignored => exact hm hpaused
  | moved _ hset =>
      obtain ⟨announced, rfl⟩ := setLayerInner_spec hset
      exact timerRuns_of_home hagree' rfl
  | pause => cases hpaused
  | resume =>
      cases hold : m.paused with
      | true => exact fun hwaiting ↦ (hresume rfl hold hwaiting).elim
      | false => exact (hm hold).frame rfl rfl rfl rfl
  | stop => exact (hm hpaused).frame rfl rfl rfl rfl
  | iteration hbody =>
      have hacts := acts_of_loopBody hbody
      rw [hacts.sameMachines.paused_eq] at hpaused
      exact Acts.timerRuns hacts hagree hassigned (hm hpaused)

/-- Holding A is made for two sequences, and only the second one waits. -/
def sharedLayer : Layer where
  layerName := "shared"
  basicRemappings := []
  sequenceRemappings :=
    [⟨.default, [.keyPress .a, .keyPress .b], [.pressKey .x]⟩,
      ⟨.default, [.keyPress .a, .maximumWait 100, .keyPress .c], [.pressKey .y]⟩]

/-- After A the state waits, and no timer is set. -/
theorem sharedLayer_stuck : ∃ m, Mapper.life .still (.first _) 1 ⟨"shared", [sharedLayer], 0⟩ true
      [.iteration (some (.key ⟨.a, .press⟩))] = .ok m ∧
    m.paused = false ∧ m.Waiting ∧ m.currentTimer = none :=
  ⟨_, rfl, rfl, ⟨_, rfl, by decide⟩, rfl⟩

/-- If the waits of every accepted profile are armed, a transition that was
never assigned is not taken and no pause ends in a state that waits, then the
timer is set in every waiting state of an unpaused mapper. -/
theorem life_timerRuns (env : Env) (H : QHash) (fuel : ℕ) (profile : Profile)
    (layerChangedCallback : Bool) (operations : List Operation) (m : Mapper)
    (hwaits : ∀ p ∈ profile :: operations.filterMap Operation.profile?, p.Accepted H →
      ∀ layer ∈ p.layers, layer.WaitsArmed H)
    (hassigned : ∀ moment ∈ m.history, moment.Assigned)
    (hresume : ∀ before after m₀, operations = before ++ .resume :: after →
      Mapper.life env H fuel profile layerChangedCallback before = .ok m₀ →
      m₀.paused = true → ¬ m₀.Waiting)
    (hlife : Mapper.life env H fuel profile layerChangedCallback operations = .ok m)
    (hpaused : m.paused = false) (hwaiting : m.Waiting) : m.currentTimer ≠ none := by
  have hagree : ∀ {ops : List Operation} {m₀ : Mapper}, ops <+: operations →
      Mapper.life env H fuel profile layerChangedCallback ops = .ok m₀ →
      ∀ states ∈ m₀.states, TimersAgree states := by
    intro ops m₀ hbefore hm₀ states hstates
    obtain ⟨layer, hlayer, hgenerate⟩ := layers_of_life (Q := Layer.WaitsArmed H)
      (fun p hp ↦ hwaits p (by
        rcases List.mem_cons.mp hp with rfl | hp
        · exact List.mem_cons_self
        · exact List.mem_cons_of_mem _ ((hbefore.filterMap _).subset hp))) hm₀ states hstates
    exact timersAgree_of_waitsArmed hgenerate hlayer
  have hall : operations <+: operations → (∀ moment ∈ m.history, moment.Assigned) →
      m.paused = false → m.TimerRuns := by
    refine life_induction (P := fun ops m₀ ↦ ops <+: operations →
      (∀ moment ∈ m₀.history, moment.Assigned) → m₀.paused = false → m₀.TimerRuns) ?_ ?_ hlife
    · intro m₀ hnew hbefore _ _
      have hempty : Mapper.life env H fuel profile layerChangedCallback [] = .ok m₀ :=
        Exits.bind_eq_ok.mpr ⟨m₀, hnew, rfl⟩
      exact timerRuns_of_home (hagree hbefore hempty) (fresh_of_new hnew).home
    · intro ops operation m₁ m₂ hm₁ ih hoperate hbefore hassigned₂ hpaused₂
      have hhappens := happens_of_operate hoperate
      have hold := (List.prefix_append ops [operation]).trans hbefore
      refine hhappens.timerRuns (hagree hold hm₁) (hagree hbefore (life_snoc hm₁ hoperate))
        hassigned₂ ?_ (ih hold fun moment hmoment ↦
          hassigned₂ moment (hhappens.history_le.subset hmoment)) hpaused₂
      rintro rfl
      obtain ⟨after, hafter⟩ := hbefore
      exact hresume ops after m₁ (by simpa using hafter.symm) hm₁
  exact hall List.prefix_rfl hassigned hpaused hwaiting

theorem tapLayer_waitsArmed : tapLayer.WaitsArmed (.first _) := by
  intro T hT p x hx
  obtain ⟨hmem, htimer, rfl⟩ := Trie.timedAt_eq_some hx
  have hall : ∀ x ∈ T, x.pass.timer.isSome = true → x.tgt ≠ [] ∧
      ∀ y ∈ T, y.fresh = true → y.tgt = x.tgt → y.pass.timer.isSome = true := by
    cases hT
    decide
  exact hall x hmem htimer

theorem life_timerRuns_tap : ∃ m, Mapper.life .still (.first _) 1 ⟨"tap", [tapLayer], 0⟩ true
      [.pause, .resume, .iteration (some (.key ⟨.a, .press⟩))] = .ok m ∧
    m.Waiting ∧ m.currentTimer ≠ none := by
  obtain ⟨m, hlife, hhistory, hpaused, hwaiting⟩ : ∃ m,
      Mapper.life .still (.first _) 1 ⟨"tap", [tapLayer], 0⟩ true
        [.pause, .resume, .iteration (some (.key ⟨.a, .press⟩))] = .ok m ∧
      m.history = [.layerSet 0, .poll 0,
        .taken 0 0 (some (.key ⟨.a, .press⟩)) 0 { timerMs := some 200, newState := some 1 }] ∧
      m.paused = false ∧ m.Waiting :=
    ⟨_, rfl, rfl, rfl, _, rfl, by decide⟩
  refine ⟨m, hlife, hwaiting, life_timerRuns .still (.first _) 1 _ true _ m ?_ ?_ ?_ hlife
    hpaused hwaiting⟩
  · simp [Operation.profile?, tapLayer_waitsArmed]
  · simp [hhistory, Moment.Assigned]
  · intro before after m₀ hsplit hm₀ _
    obtain rfl : before = [.pause] := by
      rcases before with _ | ⟨first, _ | ⟨second, _ | ⟨third, before⟩⟩⟩ <;>
        simp_all
    cases hm₀
    rintro ⟨state, hstate, hne⟩
    cases hstate
    exact hne rfl

end Mapper

end Keybinder

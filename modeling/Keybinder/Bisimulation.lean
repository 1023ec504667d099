import Mathlib.Data.List.Forall2
import Keybinder.MapperRuns

/-!
# Machines that behave alike

Two machines behave alike when their states can be related such that related
states react to events of one symbol in the same way.  A mapper in which a
machine is replaced by one that behaves alike does the same to its
surroundings, as long as no target is read that was never assigned.
-/

namespace Keybinder

/-- Outputs that differ in the spelling of application names only. -/
inductive StateMachineOutputEvent.Alike :
    StateMachineOutputEvent → StateMachineOutputEvent → Prop
  | proccessInput {event event' : Option InputEvent}
      (h : event.map InputEvent.symbol = event'.map InputEvent.symbol) :
      Alike (.proccessInput event) (.proccessInput event')
  | basicTranlation {event event' : Option InputEvent}
      (h : event.map InputEvent.symbol = event'.map InputEvent.symbol) :
      Alike (.basicTranlation event) (.basicTranlation event')
  | bind (b : Bind) : Alike (.bind b) (.bind b)

structure Transition.Alike (R : ℕ → ℕ → Prop) (transition transition' : Transition) : Prop where
  timerMs_eq : transition.timerMs = transition'.timerMs
  outputs : List.Forall₂ StateMachineOutputEvent.Alike transition.outputs transition'.outputs
  newState : Option.Rel R transition.newState transition'.newState

structure State.Alike (H : QHash) (R : ℕ → ℕ → Prop) (state state' : State) : Prop where
  input : ∀ e e' : InputEvent, e.symbol = e'.symbol →
    (Mapper.transitionFor H state e).Alike R (Mapper.transitionFor H state' e')
  timer : Option.Rel (Transition.Alike R) state.timerTransition state'.timerTransition

structure Bisimulation (H : QHash) (states states' : List State) (R : ℕ → ℕ → Prop) : Prop where
  home : R homeStateIdx homeStateIdx
  state : ∀ {i j : ℕ}, R i j → Option.Rel (State.Alike H R) states[i]? states'[j]?

theorem StateMachineOutputEvent.Alike.refl (output : StateMachineOutputEvent) :
    output.Alike output := by
  cases output with
  | proccessInput event => exact .proccessInput rfl
  | basicTranlation event => exact .basicTranlation rfl
  | bind b => exact .bind b

theorem Transition.Alike.refl (transition : Transition) :
    transition.Alike (fun i j ↦ i = j) transition where
  timerMs_eq := rfl
  outputs := List.forall₂_same.mpr fun output _ ↦ .refl output
  newState := by
    cases transition.newState with
    | none => exact .none
    | some idx => exact .some rfl

theorem Bisimulation.refl (H : QHash) (states : List State) :
    Bisimulation H states states fun i j ↦ i = j where
  home := rfl
  state := by
    rintro i j rfl
    cases states[i]? with
    | none => exact .none
    | some state =>
        refine .some ⟨?_, ?_⟩
        · intro e e' h
          have hfind : H.find state.edges e = H.find state.edges e' :=
            H.find_congr fun _ _ ↦ InputEvent.eq_congr rfl h
          rw [Mapper.transitionFor, Mapper.transitionFor, hfind]
          exact .refl _
        · cases state.timerTransition with
          | none => exact .none
          | some transition => exact .some (.refl transition)

/-- Where no target was assigned, any value leads to states that are related. -/
def Moment.Harmless (R : ℕ → ℕ → ℕ → Prop) : Moment → Prop
  | .taken layer _ _ _ transition => transition.newState = none → ∀ n, R layer n n
  | _ => True

namespace Mapper

section

variable (H : QHash) (R : ℕ → ℕ → ℕ → Prop)

/-- A mapper and one with other machines, each of which behaves alike; `R` relates
their states, layer by layer. -/
inductive Alike (m : Mapper) : Mapper → Prop
  | mk {states : List (List State)} {idx : ℕ} {history : List Moment}
      (home : ∀ L, R L homeStateIdx homeStateIdx)
      (machines : ∀ L : ℕ, Option.Rel (fun machine machine' ↦ Bisimulation H machine machine' (R L))
        m.states[L]? states[L]?)
      (position : R m.curLayerIdx m.curStateIdx idx) :
      Alike m { m with states, curStateIdx := idx, history }

end

variable {H : QHash} {R : ℕ → ℕ → ℕ → Prop} {env : Env} {m m' : Mapper}

theorem Alike.queueOutput (h : Alike H R m m') (e : OutputEvent) (delay : ℕ) :
    Alike H R (m.queueOutput env e delay) (m'.queueOutput env e delay) := by
  obtain ⟨home, machines, position⟩ := h
  exact .mk home machines position

theorem Alike.setLayerInner (h : Alike H R m m') (newLayer : ℕ) :
    Exits.Related (Alike H R) (m.setLayerInner newLayer) (m'.setLayerInner newLayer) := by
  obtain ⟨home, machines, position⟩ := h
  unfold Mapper.setLayerInner
  dsimp only
  cases m.layerChangedCallback with
  | false => exact .ok (.mk home machines (home newLayer))
  | true =>
      simp only [if_true]
      cases vectorAt m.profile.layers newLayer with
      | error x => exact .error x
      | ok layer => exact .ok (.mk home machines (home newLayer))

theorem Alike.queueBinds (h : Alike H R m m') (binds : List Bind) :
    Exits.Related (Alike H R) (m.queueBinds env binds) (m'.queueBinds env binds) := by
  have hfold : Exits.Related (fun c c' ↦ Alike H R c.1 c'.1 ∧ c.2 = c'.2)
      (binds.foldlM (queueBind env) (m, 0)) (binds.foldlM (queueBind env) (m', 0)) := by
    refine Exits.Related.foldlM (R := fun b b' : Bind ↦ b = b') ?_
      (List.forall₂_same.mpr fun _ _ ↦ rfl) ⟨h, rfl⟩
    rintro ⟨m₁, delay⟩ ⟨m₁', delay'⟩ b _ ⟨hm₁, rfl⟩ rfl
    cases b with
    | pressKey keyCode => exact .ok ⟨hm₁.queueOutput _ _, rfl⟩
    | releaseKey keyCode => exact .ok ⟨hm₁.queueOutput _ _, rfl⟩
    | swapLayer newLayer => exact (hm₁.setLayerInner newLayer).bind fun _ _ hm₂ ↦ .ok ⟨hm₂, rfl⟩
    | wait ms => exact .ok ⟨hm₁, rfl⟩
    | runScript s => exact .ok ⟨hm₁.queueOutput _ _, rfl⟩
  exact hfold.bind fun _ _ hc ↦ .ok hc.1

/-- Events to redo, of the same symbols. -/
abbrev SameSymbols : List InputEvent → List InputEvent → Prop :=
  List.Forall₂ fun e e' ↦ e.symbol = e'.symbol

theorem symbol_orElse {event event' prev prev' : Option InputEvent}
    (h : event.map InputEvent.symbol = event'.map InputEvent.symbol)
    (hprev : prev.map InputEvent.symbol = prev'.map InputEvent.symbol) :
    (event <|> prev).map InputEvent.symbol = (event' <|> prev').map InputEvent.symbol := by
  cases event <;> cases event' <;> simp_all

theorem sameSymbols_toList {event event' : Option InputEvent}
    (h : event.map InputEvent.symbol = event'.map InputEvent.symbol) :
    SameSymbols event.toList event'.toList := by
  cases event <;> cases event' <;> simp_all

theorem Alike.runOutput (h : Alike H R m m') {prev prev' : Option InputEvent}
    (hprev : prev.map InputEvent.symbol = prev'.map InputEvent.symbol)
    {redo redo' : List InputEvent} (hredo : SameSymbols redo redo')
    {output output' : StateMachineOutputEvent} (houtput : output.Alike output') :
    Exits.Related (fun c c' ↦ Alike H R c.1 c'.1 ∧ SameSymbols c.2 c'.2)
      (runOutput env H prev (m, redo) output) (runOutput env H prev' (m', redo') output') := by
  cases houtput with
  | proccessInput hevent =>
      exact .ok ⟨h, List.rel_append hredo (sameSymbols_toList (symbol_orElse hevent hprev))⟩
  | @basicTranlation event event' hevent =>
      have hsymbol := symbol_orElse hevent hprev
      simp only [Mapper.runOutput]
      cases he : event <|> prev with
      | none =>
          cases he' : event' <|> prev' with
          | none => exact .ok ⟨h, hredo⟩
          | some e' => simp [he, he'] at hsymbol
      | some e =>
          cases he' : event' <|> prev' with
          | none => simp [he, he'] at hsymbol
          | some e' =>
              have hsymbol : e.symbol = e'.symbol := by simpa [he, he'] using hsymbol
              obtain ⟨basicMaps_eq, layer_eq⟩ :
                  m'.basicMaps = m.basicMaps ∧ m'.curLayerIdx = m.curLayerIdx := by
                cases h
                exact ⟨rfl, rfl⟩
              simp only [basicMaps_eq, layer_eq]
              cases vectorAt m.basicMaps m.curLayerIdx with
              | error x => exact .error x
              | ok basicMap =>
                  have hfind : H.find basicMap e = H.find basicMap e' :=
                    H.find_congr fun _ _ ↦ InputEvent.eq_congr rfl hsymbol
                  simp only [Exits.ok_bind, ← hfind]
                  cases hbinds : H.find basicMap e with
                  | some binds =>
                      exact (h.queueBinds binds).bind fun _ _ hm ↦ .ok ⟨hm, hredo⟩
                  | none =>
                      cases e with
                      | key keyEvent =>
                          obtain rfl : e' = .key keyEvent :=
                            InputEvent.symbol_eq_key_iff.mp hsymbol.symm
                          exact .ok ⟨h.queueOutput _ _, hredo⟩
                      | app appName =>
                          cases e' with
                          | key keyEvent => cases hsymbol
                          | app appName' => exact .ok ⟨h, hredo⟩
  | bind b => exact (h.queueBinds [b]).bind fun _ _ hm ↦ .ok ⟨hm, hredo⟩

theorem Alike.curState (h : Alike H R m m') :
    Exits.Related (State.Alike H (R m.curLayerIdx)) m.curState m'.curState := by
  obtain @⟨states, idx, history, home, machines, position⟩ := h
  unfold Mapper.curState vectorAt
  dsimp only
  have hmachine := machines m.curLayerIdx
  generalize m.states[m.curLayerIdx]? = machine, states[m.curLayerIdx]? = machine' at hmachine ⊢
  cases hmachine with
  | none => exact .error _
  | @some machine machine' hmachine =>
      have hstate := hmachine.state position
      simp only [Exits.ok_bind]
      generalize machine[m.curStateIdx]? = state, machine'[idx]? = state' at hstate ⊢
      cases hstate with
      | none => exact .error _
      | some hstate => exact .ok hstate

/-- Everything from the `n`-th moment on was harmless. -/
def Harmless (R : ℕ → ℕ → ℕ → Prop) (n : ℕ) (m : Mapper) : Prop :=
  ∀ moment ∈ m.history.drop n, moment.Harmless R

theorem Harmless.of_le {n : ℕ} (hle : m.history <+: m'.history) (h : Harmless R n m') :
    Harmless R n m :=
  fun moment hmoment ↦ h moment ((hle.drop n).subset hmoment)

/-- Alike, with at least `n` moments behind them. -/
def AlikeFrom (H : QHash) (R : ℕ → ℕ → ℕ → Prop) (n : ℕ) (m m' : Mapper) : Prop :=
  n ≤ m.history.length ∧ Alike H R m m'

variable {n fuel : ℕ}

theorem AlikeFrom.fire (h : AlikeFrom H R n m m') {transition transition' : Transition}
    (ht : transition.Alike (R m.curLayerIdx) transition') {prev prev' : Option InputEvent}
    (hprev : prev.map InputEvent.symbol = prev'.map InputEvent.symbol) :
    Exits.Follows (fun c ↦ Harmless R n c.1)
      (fun c c' ↦ AlikeFrom H R n c.1 c'.1 ∧ SameSymbols c.2 c'.2)
      (m.fire env H transition prev) (m'.fire env H transition' prev') := by
  rintro ⟨m₁, redo⟩ hfire hkept
  obtain ⟨hn, halike⟩ := h
  have hle := Acts.history_le (acts_of_fire hfire)
  have hn₁ : n ≤ m₁.history.length := by
    have hlength := hle.length_le
    simp only [enter, List.length_append] at hlength
    omega
  -- The moment of the transition tells whether its target may be unassigned.
  have hmoment : Moment.Harmless R (.taken m.curLayerIdx m.curStateIdx prev
      (env.clock m.instant) transition) := by
    apply hkept
    apply (hle.drop n).subset
    rw [enter, List.drop_append_of_le_length hn]
    simp
  have henter : Alike H R (m.enter env transition prev) (m'.enter env transition' prev') := by
    obtain ⟨home, machines, position⟩ := halike
    have htarget : R m.curLayerIdx (transition.newState.getD (env.unassigned m.instant))
        (transition'.newState.getD (env.unassigned m.instant)) := by
      have hnew := ht.newState
      generalize hnewState : transition.newState = newState,
        transition'.newState = newState' at hnew ⊢
      cases hnew with
      | none => exact hmoment hnewState _
      | some hidx => exact hidx
    have htimer := ht.timerMs_eq
    simp only [enter, ← htimer]
    exact .mk home machines htarget
  have hrelated : Exits.Related (fun c c' ↦ Alike H R c.1 c'.1 ∧ SameSymbols c.2 c'.2)
      (m.fire env H transition prev) (m'.fire env H transition' prev') :=
    Exits.Related.foldlM (fun hc houtput ↦ hc.1.runOutput hprev hc.2 houtput) ht.outputs
      ⟨henter, .nil⟩
  rw [hfire] at hrelated
  obtain ⟨c', hc', halike₁, hredo⟩ := hrelated.ok_left
  exact ⟨c', hc', ⟨hn₁, halike₁⟩, hredo⟩

theorem acts_of_redo {redo : List InputEvent}
    (h : redo.foldlM (processInput env H fuel) m = .ok m') : Acts env H m m' :=
  acts_of_feeds (feeds_of_foldlM_processInput h)

/-- One transition, when the events it asks for are handled alike. -/
theorem AlikeFrom.applyTransition (h : AlikeFrom H R n m m') {transition transition' : Transition}
    (ht : transition.Alike (R m.curLayerIdx) transition') {prev prev' : Option InputEvent}
    (hprev : prev.map InputEvent.symbol = prev'.map InputEvent.symbol)
    (hinput : ∀ (m m' : Mapper) (e e' : InputEvent), AlikeFrom H R n m m' →
      e.symbol = e'.symbol → Exits.Follows (Harmless R n) (AlikeFrom H R n)
        (m.processInput env H fuel e) (m'.processInput env H fuel e')) :
    Exits.Follows (Harmless R n) (AlikeFrom H R n)
      (m.applyTransition env H (processInput env H fuel) transition prev)
      (m'.applyTransition env H (processInput env H fuel) transition' prev') := by
  refine (h.fire ht hprev).bind ?_ ?_
  · intro c m₂ _ hredo hkept
    exact hkept.of_le (acts_of_redo hredo).history_le
  · rintro ⟨m₁, redo⟩ ⟨m₁', redo'⟩ ⟨hm₁, hredo⟩
    refine Exits.Follows.foldlM (P := fun e e' : InputEvent ↦ e.symbol = e'.symbol) ?_
      (hinput _ _ _ _) hredo hm₁
    intro m₂ e m₃ he hkept
    exact hkept.of_le (Acts.history_le (acts_of_feeds (feeds_of_processInput he)))

theorem AlikeFrom.processInput (h : AlikeFrom H R n m m') {e e' : InputEvent}
    (he : e.symbol = e'.symbol) : Exits.Follows (Harmless R n) (AlikeFrom H R n)
      (m.processInput env H fuel e) (m'.processInput env H fuel e') := by
  induction fuel generalizing m m' e e' with
  | zero =>
      intro m₁ hm₁
      cases hm₁
  | succ fuel ih =>
      have hcurState := h.2.curState
      have hpaused : m'.paused = m.paused := by
        obtain ⟨-, -⟩ := h.2
        rfl
      simp only [Mapper.processInput, hpaused]
      split
      · have hbypass : Alike H R (m.bypass e) (m'.bypass e') := by
          obtain ⟨home, machines, position⟩ := h.2
          cases e with
          | key keyEvent =>
              obtain rfl : e' = .key keyEvent := InputEvent.symbol_eq_key_iff.mp he.symm
              exact .mk home machines position
          | app appName =>
              cases e' with
              | key keyEvent => cases he
              | app appName' => exact .mk home machines position
        have hn : n ≤ (m.bypass e).history.length := by
          cases e <;> exact h.1
        exact Exits.Related.follows (.ok ⟨hn, hbypass⟩)
      · refine hcurState.follows.bind (G := fun _ ↦ True) (fun _ _ _ _ _ ↦ trivial) ?_
        intro state state' hstate
        exact h.applyTransition (hstate.input e e' he) (by simpa using he)
          fun _ _ _ _ hm he ↦ ih hm he

theorem AlikeFrom.checkTimer (h : AlikeFrom H R n m m') :
    Exits.Follows (Harmless R n) (AlikeFrom H R n) (m.checkTimer env H fuel)
      (m'.checkTimer env H fuel) := by
  refine h.2.curState.follows.bind (G := fun _ ↦ True) (fun _ _ _ _ _ ↦ trivial) ?_
  intro state state' hstate
  have hchecked : AlikeFrom H R n (m.checked env) (m'.checked env) := by
    obtain ⟨hn, home, machines, position⟩ := h
    exact ⟨by simpa [checked] using Nat.le_succ_of_le hn, .mk home machines position⟩
  have hexpired : m'.currentTimer.any (· ≤ env.clock m'.instant) =
      m.currentTimer.any (· ≤ env.clock m.instant) := by
    obtain ⟨-, -⟩ := h.2
    rfl
  have htimer := hstate.timer
  simp only [hexpired]
  generalize state.timerTransition = timerTransition,
    state'.timerTransition = timerTransition' at htimer ⊢
  cases htimer with
  | none => exact Exits.Related.follows (.ok hchecked)
  | some ht =>
      dsimp only
      split
      · exact hchecked.applyTransition ht rfl fun _ _ _ _ hm he ↦ hm.processInput he
      · exact Exits.Related.follows (.ok hchecked)

theorem Alike.checkQueuedEvents (h : Alike H R m m') :
    Alike H R (m.checkQueuedEvents env) (m'.checkQueuedEvents env) := by
  obtain ⟨home, machines, position⟩ := h
  unfold Mapper.checkQueuedEvents
  dsimp only
  split
  · exact .mk home machines position
  · exact .mk home machines position

theorem Alike.countKey (h : Alike H R m m') (e : InputEvent) :
    Alike H R (m.countKey env e) (m'.countKey env e) := by
  obtain ⟨home, machines, position⟩ := h
  unfold Mapper.countKey
  split
  · dsimp only
    split
    · exact .mk home machines position
    · exact .mk home machines position
  · exact .mk home machines position

theorem AlikeFrom.loopBody (h : AlikeFrom H R n m m') (keyOpt : Option InputEvent) :
    Exits.Follows (Harmless R n) (AlikeFrom H R n) (m.loopBody env H fuel keyOpt)
      (m'.loopBody env H fuel keyOpt) := by
  have hemit : ∀ {m m' : Mapper}, AlikeFrom H R n m m' →
      AlikeFrom H R n (m.checkQueuedEvents env) (m'.checkQueuedEvents env) := fun hm ↦
    ⟨by simpa using hm.1, hm.2.checkQueuedEvents⟩
  have hcount : ∀ {m m' : Mapper} (e : InputEvent), AlikeFrom H R n m m' →
      AlikeFrom H R n (m.countKey env e) (m'.countKey env e) := fun {m _} e hm ↦
    ⟨by simpa [(sameStage_countKey env m e).history_eq] using hm.1, hm.2.countKey e⟩
  refine h.checkTimer.bind ?_ ?_
  · intro m₁ m₂ htimer hrest hkept
    obtain ⟨m₁', htimer', hacts⟩ := loopBody_cases (Exits.bind_eq_ok.mpr ⟨m₁, htimer, hrest⟩)
    rw [htimer] at htimer'
    cases htimer'
    exact hkept.of_le hacts.history_le
  · intro m₁ m₁' hm₁
    cases keyOpt with
    | none => exact Exits.Related.follows (.ok (hemit hm₁))
    | some e =>
        refine ((hcount e hm₁).processInput rfl).bind ?_ ?_
        · intro m₂ m₃ _ hm₃ hkept
          cases hm₃
          exact hkept.of_le (by simp)
        · intro m₂ m₂' hm₂
          have hprocessed : AlikeFrom H R n
              { m₂ with processedEventsCount := m₂.processedEventsCount + 1 }
              { m₂' with processedEventsCount := m₂'.processedEventsCount + 1 } := by
            obtain ⟨hn, home, machines, position⟩ := hm₂
            exact ⟨hn, .mk home machines position⟩
          exact Exits.Related.follows (.ok (hemit hprocessed))

theorem AlikeFrom.iterate (h : AlikeFrom H R n m m') (keys : List (Option InputEvent)) :
    Exits.Follows (Harmless R n) (AlikeFrom H R n) (m.iterate env H fuel keys)
      (m'.iterate env H fuel keys) := by
  refine Exits.Follows.foldlM (P := fun key key' ↦ key = key') ?_ ?_
    (List.forall₂_same.mpr fun _ _ ↦ rfl) h
  · intro m₁ keyOpt m₂ hbody hkept
    exact hkept.of_le (acts_of_loopBody hbody).history_le
  · rintro m₁ m₁' keyOpt _ hm₁ rfl
    exact hm₁.loopBody keyOpt

/-- What the mapper has done to its surroundings, and what is queued. -/
structure SameOutputs (m m' : Mapper) : Prop where
  sent_eq : m.sent = m'.sent
  queuedEvents_eq : m.queuedEvents = m'.queuedEvents
  counted_eq : m.counted = m'.counted
  announced_eq : m.announced = m'.announced

theorem Alike.sameOutputs (h : Alike H R m m') : m.SameOutputs m' := by
  cases h
  exact ⟨rfl, rfl, rfl, rfl⟩

end Mapper

/-- A transition of the layer that was taken had a target. -/
def Moment.AssignedIn (L : ℕ) : Moment → Prop
  | .taken layer _ _ _ transition => layer = L → transition.newState ≠ none
  | _ => True

/-- On every run of a mapper from HOME whose moments are of a kind, the machine
of a layer can be replaced by the other one without a difference outside. -/
def SameRuns (H : QHash) (kind : ℕ → Moment → Prop) (states states' : List State) : Prop :=
  ∀ (env : Env) (fuel : ℕ) (m m₁ : Mapper) (L : ℕ) (keys : List (Option InputEvent)),
    m.states[L]? = some states → (m.curLayerIdx = L → m.curStateIdx = homeStateIdx) →
    m.iterate env H fuel keys = .ok m₁ → (∀ moment ∈ m.since m₁, kind L moment) →
    ∃ m₂, { m with states := m.states.set L states' }.iterate env H fuel keys = .ok m₂ ∧
      m₁.SameOutputs m₂

theorem Bisimulation.sameRuns {H : QHash} {states states' : List State} {R : ℕ → ℕ → Prop}
    (h : Bisimulation H states states' R) : SameRuns H Moment.AssignedIn states states' := by
  intro env fuel m m₁ L keys hstates hhome hrun hassigned
  let R' : ℕ → ℕ → ℕ → Prop := fun layer ↦ if layer = L then R else fun i j ↦ i = j
  have hself : R' L = R := if_pos rfl
  have hother : ∀ {layer : ℕ}, layer ≠ L → R' layer = fun i j ↦ i = j := fun hne ↦ if_neg hne
  have halike : m.AlikeFrom H R' m.history.length
      { m with states := m.states.set L states' } := by
    refine ⟨Nat.le_refl _, .mk ?_ ?_ ?_⟩
    · intro layer
      by_cases hlayer : layer = L
      · rw [hlayer, hself]
        exact h.home
      · rw [hother hlayer]
    · intro layer
      by_cases hlayer : layer = L
      · subst hlayer
        obtain ⟨hlt, -⟩ := List.getElem?_eq_some_iff.mp hstates
        rw [hstates, List.getElem?_set_self hlt, hself]
        exact .some h
      · rw [List.getElem?_set_ne (Ne.symm hlayer), hother hlayer]
        cases m.states[layer]? with
        | none => exact .none
        | some machine => exact .some (.refl H machine)
    · by_cases hlayer : m.curLayerIdx = L
      · rw [hhome hlayer, hlayer, hself]
        exact h.home
      · rw [hother hlayer]
  have hharmless : m₁.Harmless R' m.history.length := by
    intro moment hmoment
    have hassigned := hassigned moment hmoment
    cases moment with
    | taken layer idx event now transition =>
        intro hnone n
        rw [hother fun hlayer ↦ hassigned hlayer hnone]
    | poll now => trivial
    | layerSet newLayer => trivial
    | queued timeToEmit e => trivial
  obtain ⟨m₂, hm₂, -, hsame⟩ := halike.iterate keys m₁ hrun hharmless
  exact ⟨m₂, hm₂, hsame.sameOutputs⟩

end Keybinder

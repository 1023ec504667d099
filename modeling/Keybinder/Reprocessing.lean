import Keybinder.MapperLife

/-!
# Re-processing comes to an end

The fallback of a Default state feeds again every held trigger but the
first.  As long as it feeds no more than the triggers on the way to its
state, the number of these triggers is a rank that bounds the recursion.  A
sequence that was led through HOME has a fallback for a longer way, and one
event can then be fed again forever.
-/

namespace Keybinder

/-- The fallback that a Default trigger creates feeds no more triggers again
than there are on the way to its state. -/
def Layer.FallbacksFit (H : QHash) (layer : Layer) : Prop :=
  ∀ T, layer.trie H = .ok T → ∀ x ∈ T, x.fresh = true → x.pass.isLast = false →
    x.sequence.behavior = .default →
    (inputsOf x.pass.read.tail).length ≤ (Place.syms x.tgt).length

/-- In a separated layer the way to a state is what was read for it. -/
theorem Layer.Separated.fallbacksFit {H : QHash} {layer : Layer} (hsep : layer.Separated) :
    layer.FallbacksFit H := by
  intro T htrie x hx _ hlast _
  have hstraight := straight_of_trie hsep.keptApart htrie
  have hof := (Layer.of_mem_occurrences (hstraight.mem hx)).2
  have htgt : x.tgt = x.dest := by simpa [hlast] using hstraight.tgt x hx
  have hlength : (Place.syms x.tgt).length = (inputsOf x.pass.read).length := by
    rw [htgt, hof.syms_eq, List.length_map]
  rw [hlength]
  exact ((List.tail_sublist _).filterMap _).length_le

/-! ## The rank of a state -/

/-- The states of a machine whose fallback leads home, and the number of
triggers on the way to them, as far as re-processing is concerned. -/
structure Tame (H : QHash) (states : List State) (settled : ℕ → Prop) (rank : ℕ → ℕ) : Prop where
  home_settled : settled homeStateIdx
  home_rank : rank homeStateIdx = 0
  unsettled : ∀ {idx : ℕ} {state : State} {e : InputEvent}, states[idx]? = some state →
    Mapper.redos (some e) (Mapper.transitionFor H state e) ≠ [] →
      (Mapper.transitionFor H state e).newState = some homeStateIdx
  timer : ∀ {idx : ℕ} {state : State} {transition : Transition}, states[idx]? = some state →
    state.timerTransition = some transition → Mapper.redos none transition ≠ [] →
      transition.newState = some homeStateIdx
  step : ∀ {idx : ℕ} {state : State} {e : InputEvent}, states[idx]? = some state → settled idx →
    (∃ n, (Mapper.transitionFor H state e).newState = some n ∧ settled n ∧ rank n ≤ rank idx + 1 ∧
      Mapper.redos (some e) (Mapper.transitionFor H state e) = []) ∨
    (Mapper.transitionFor H state e).newState = some homeStateIdx ∧
      (Mapper.redos (some e) (Mapper.transitionFor H state e)).length ≤ rank idx

namespace Trie

variable {H : QHash} {layer : Layer} {T : Trie} {p : Place} {prevEvent : Option InputEvent}

/-- What a fallback feeds again is no longer than the way to its place. -/
theorem redos_fallback_le (hfit : layer.FallbacksFit H) (htrie : layer.trie H = .ok T)
    (p : Place) : (Mapper.redos prevEvent (T.fallback p)).length ≤ (Place.syms p).length := by
  unfold Trie.fallback
  split
  · exact Nat.zero_le _
  · rename_i hp
    cases hx : T.creatorAt p with
    | none => exact Nat.zero_le _
    | some x =>
        obtain ⟨hmem, hfresh, rfl⟩ := creatorAt_eq_some hx
        have hlast : x.pass.isLast = false := by
          by_contra hlast
          have htgt := ((grows_of_trie htrie).fresh hmem hfresh).2
          rw [if_pos (by simpa using hlast)] at htgt
          exact hp htgt
        simp only [Mapper.redos_newFallback]
        split
        · rename_i hbehavior
          exact hfit T htrie x hmem hfresh hlast hbehavior
        · exact Nat.zero_le _

end Trie

theorem exists_tame {H : QHash} {layer : Layer} {states : List State}
    (hgenerate : generateStates H layer = .ok states) (hfit : layer.FallbacksFit H) :
    ∃ settled rank, Tame H states settled rank := by
  obtain ⟨T, metadata, places, htrie, hT, hb⟩ := trie_of_generateStates hgenerate
  refine ⟨fun n ↦ ∃ p, places[n]? = some p ∧ (T.fallback p).newState = some homeStateIdx,
    fun n ↦ (places[n]?.map fun p ↦ (Place.syms p).length).getD 0, ?_⟩
  have hfallback : ∀ {idx : ℕ} {p : Place} {prevEvent : Option InputEvent},
      places[idx]? = some p →
      Mapper.redos prevEvent (T.fallback p) ≠ [] →
      (T.fallback p).newState = some homeStateIdx := by
    intro idx p prevEvent hp hredos
    rcases hb.fallback_cases hT (List.mem_of_getElem? hp) with h | ⟨p', -, h⟩
    · exact h
    · rw [h] at hredos
      exact (hredos rfl).elim
  refine ⟨⟨[], hb.home, rfl⟩, by simp [hb.home], ?_, ?_, ?_⟩
  · intro idx state e hstate hredos
    obtain ⟨p, hp⟩ := hb.place_of_state hstate
    rcases hb.transitionFor_cases (H := H) (e := e) hp hstate with ⟨y, -, -, h⟩ | ⟨-, h⟩
    · rw [h, Mapper.redos_edge] at hredos
      exact (hredos rfl).elim
    · rw [h] at hredos ⊢
      exact hfallback hp hredos
  · intro idx state transition hstate ht hredos
    obtain ⟨p, hp⟩ := hb.place_of_state hstate
    obtain ⟨x, -, rfl⟩ := hb.timerTransition_cases hp hstate ht
    revert hredos
    unfold Placement.timerTransition
    split
    · split
      · intro _
        rfl
      · intro hredos
        exact (hredos rfl).elim
    · exact hfallback hp
  · rintro idx state e hstate ⟨p, hp, hsettled⟩
    rcases hb.transitionFor_cases (H := H) (e := e) hp hstate with ⟨y, hy, -, h⟩ | ⟨-, h⟩
    · left
      obtain ⟨hmem, hfresh, rfl⟩ := Trie.mem_edgesAt.mp hy
      have htgt := Numbering.getElem?_number (hb.tgt_mem y hmem)
      refine ⟨Numbering.number places y.tgt, by rw [h]; rfl,
        ⟨y.tgt, htgt, hT.fallback_newState hmem⟩, ?_, by rw [h, Mapper.redos_edge]⟩
      have hlength : (Place.syms y.tgt).length ≤ (Place.syms y.src).length + 1 := by
        rw [(hT.fresh hmem hfresh).2]
        split <;> simp
      simpa [htgt, hp] using hlength
    · right
      rw [h]
      refine ⟨hsettled, ?_⟩
      simpa [hp] using Trie.redos_fallback_le hfit htrie p

/-! ## The rank of the mapper -/

namespace Mapper

variable {env : Env} {H : QHash} {m m' : Mapper} {e : InputEvent} {redo : List InputEvent}
  {transition : Transition} {prevEvent : Option InputEvent} {machines : List (List State)}
  {settled : List State → ℕ → Prop} {rank : List State → ℕ → ℕ}

theorem vectorAt_avoids {α : Type} (v : List α) (i : ℕ) :
    Exits.Avoids .outOfFuel (fun _ ↦ True) (vectorAt v i) := by
  unfold vectorAt
  cases v[i]? <;> simp

theorem setLayerInner_avoids (m : Mapper) (newLayer : ℕ) :
    Exits.Avoids .outOfFuel (fun _ ↦ True) (m.setLayerInner newLayer) := by
  unfold setLayerInner
  dsimp only
  split
  · exact (vectorAt_avoids _ _).bind fun _ _ ↦ trivial
  · trivial

theorem queueBinds_avoids (m : Mapper) (binds : List Bind) :
    Exits.Avoids .outOfFuel (fun _ ↦ True) (m.queueBinds env binds) := by
  refine Exits.Avoids.bind (P := fun _ ↦ True) ?_ fun _ _ ↦ trivial
  refine Exits.Avoids.foldlM ?_ trivial
  rintro ⟨m, delay⟩ b - -
  cases b with
  | swapLayer newLayer => exact (setLayerInner_avoids m newLayer).bind fun _ _ ↦ trivial
  | _ => trivial

theorem fire_avoids (m : Mapper) (transition : Transition) (prevEvent : Option InputEvent) :
    Exits.Avoids .outOfFuel (fun _ ↦ True) (m.fire env H transition prevEvent) := by
  refine Exits.Avoids.foldlM ?_ trivial
  rintro ⟨m, redo⟩ output - -
  cases output with
  | proccessInput event => trivial
  | basicTranlation event =>
      simp only [runOutput]
      split
      · trivial
      · refine (vectorAt_avoids _ _).bind fun basicMap _ ↦ ?_
        split
        · exact (queueBinds_avoids m _).bind fun _ _ ↦ trivial
        · trivial
        · trivial
  | bind b => exact (queueBinds_avoids m [b]).bind fun _ _ ↦ trivial

theorem curState_avoids (m : Mapper) : Exits.Avoids .outOfFuel (fun _ ↦ True) m.curState :=
  (vectorAt_avoids _ _).bind fun _ _ ↦ vectorAt_avoids _ _

theorem react_ne_outOfFuel (m : Mapper) (e : InputEvent) :
    m.react env H e ≠ .error .outOfFuel := by
  have havoids : Exits.Avoids .outOfFuel (fun _ ↦ True) (m.react env H e) := by
    unfold react
    split
    · trivial
    · exact (curState_avoids m).bind fun state _ ↦ fire_avoids m _ _
  intro h
  rw [h] at havoids
  exact havoids rfl

/-- The mapper has the given machines and is in a settled state. -/
structure Poised (machines : List (List State)) (settled : List State → ℕ → Prop)
    (m : Mapper) : Prop where
  states_eq : m.states = machines
  settled : ∀ states, machines[m.curLayerIdx]? = some states → settled states m.curStateIdx

/-- The number of triggers on the way to the current state. -/
def held (machines : List (List State)) (rank : List State → ℕ → ℕ) (m : Mapper) : ℕ :=
  match machines[m.curLayerIdx]? with
  | some states => rank states m.curStateIdx
  | none => 0

theorem held_eq_zero (h : ∀ states, machines[m.curLayerIdx]? = some states →
    rank states m.curStateIdx = 0) : m.held machines rank = 0 := by
  unfold held
  split
  · rename_i states hstates
    exact h states hstates
  · rfl

section

variable (htame : ∀ states ∈ machines, Tame H states (settled states) (rank states))

include htame

theorem poised_of_home (hstates : m.states = machines) (hhome : m.curStateIdx = homeStateIdx) :
    m.Poised machines settled ∧ m.held machines rank = 0 := by
  constructor
  · refine ⟨hstates, fun states h ↦ ?_⟩
    rw [hhome]
    exact (htame states (List.mem_of_getElem? h)).home_settled
  · apply held_eq_zero
    intro states h
    rw [hhome]
    exact (htame states (List.mem_of_getElem? h)).home_rank

theorem Poised.kept (hm : m.Poised machines settled) (h : Kept m m') :
    m'.Poised machines settled ∧ m'.held machines rank ≤ m.held machines rank := by
  have hstates : m'.states = machines := h.states_eq.trans hm.states_eq
  rcases h.position with ⟨hlayer, hstate, -⟩ | ⟨hhome, -⟩
  · refine ⟨⟨hstates, ?_⟩, by simp [held, hlayer, hstate]⟩
    rw [hlayer, hstate]
    exact hm.settled
  · obtain ⟨hpoised, hzero⟩ := poised_of_home htame hstates hhome
    exact ⟨hpoised, hzero ▸ Nat.zero_le _⟩

theorem poised_of_fire_home (hstates : m.states = machines)
    (hhome : transition.newState = some homeStateIdx)
    (h : m.fire env H transition prevEvent = .ok (m', redo)) :
    m'.Poised machines settled ∧ m'.held machines rank = 0 := by
  obtain ⟨hpoised, hzero⟩ := poised_of_home (m := m.enter env transition prevEvent) htame hstates
    (by simp [enter, hhome])
  obtain ⟨hpoised', hle⟩ := hpoised.kept htame (fire_spec h).1.kept
  exact ⟨hpoised', by omega⟩

/-- From any state the events asked for, if any, are fed to a settled one. -/
theorem poised_of_react (hstates : m.states = machines)
    (h : m.react env H e = .ok (m', redo)) : redo = [] ∨ m'.Poised machines settled := by
  unfold react at h
  split at h
  · cases h
    exact .inl rfl
  · obtain ⟨state, hcur, hfire⟩ := Exits.bind_eq_ok.mp h
    obtain ⟨states, hlayer, hstate⟩ := curState_eq_ok hcur
    have hmem : states ∈ machines := hstates ▸ List.mem_of_getElem? hlayer
    by_cases hredo : redo = []
    · exact .inl hredo
    · obtain ⟨-, rfl⟩ := fire_spec hfire
      have hhome := (htame states hmem).unsettled hstate hredo
      exact .inr (poised_of_fire_home htame hstates hhome hfire).1

theorem Poised.react (hm : m.Poised machines settled)
    (h : m.react env H e = .ok (m', redo)) :
    m'.Poised machines settled ∧
      (redo = [] ∧ m'.held machines rank ≤ m.held machines rank + 1 ∨
        m'.held machines rank = 0 ∧ redo.length ≤ m.held machines rank) := by
  unfold Mapper.react at h
  split at h
  · cases h
    cases e with
    | app appName => exact ⟨hm, .inl ⟨rfl, Nat.le_succ _⟩⟩
    | key e => exact ⟨⟨hm.states_eq, hm.settled⟩, .inl ⟨rfl, Nat.le_succ _⟩⟩
  · obtain ⟨state, hcur, hfire⟩ := Exits.bind_eq_ok.mp h
    obtain ⟨states, hlayer, hstate⟩ := curState_eq_ok hcur
    rw [hm.states_eq] at hlayer
    have htame' := htame states (List.mem_of_getElem? hlayer)
    have hheld : m.held machines rank = rank states m.curStateIdx := by
      simp [held, hlayer]
    obtain ⟨houtputs, hredo⟩ := fire_spec hfire
    rcases htame'.step (e := e) hstate (hm.settled states hlayer) with
      ⟨n, hn, hsettled, hrank, hnone⟩ | ⟨hhome, hle⟩
    · have henter : (m.enter env (transitionFor H state e) (some e)).Poised machines settled := by
        refine ⟨hm.states_eq, fun states' h' ↦ ?_⟩
        rw [show (m.enter env (transitionFor H state e) (some e)).curLayerIdx = m.curLayerIdx
          from rfl, hlayer] at h'
        cases h'
        simpa [enter, hn] using hsettled
      have hn' : (m.enter env (transitionFor H state e) (some e)).held machines rank =
          rank states n := by
        simp [held, enter, hlayer, hn]
      obtain ⟨hpoised, hheld'⟩ := henter.kept htame houtputs.kept
      exact ⟨hpoised, .inl ⟨hredo.trans hnone, by omega⟩⟩
    · obtain ⟨hpoised, hzero⟩ := poised_of_fire_home htame hm.states_eq hhome hfire
      refine ⟨hpoised, .inr ⟨hzero, ?_⟩⟩
      rw [hredo, hheld]
      exact hle

theorem ranked : Refeed.Ranked (Mapper.react env H) (Poised machines settled)
    (held machines rank) where
  keeps hm h := (hm.react htame h).1
  rank_le hm h := by
    rcases (hm.react htame h).2 with ⟨rfl, hle⟩ | ⟨hzero, hle⟩
    · simpa using hle
    · omega
  rank_le_of_redo hm h hredo := by
    rcases (hm.react htame h).2 with ⟨rfl, -⟩ | ⟨hzero, hle⟩
    · exact (hredo rfl).elim
    · omega

theorem redo_ends (h : redo = [] ∨ m.Poised machines settled) :
    Refeed.Ends .outOfFuel fun fuel ↦ redo.foldlM (processInput env H fuel) m := by
  simp only [processInput_eq_run]
  rcases h with rfl | hm
  · exact Refeed.Ends.const (by simp)
  · exact (ranked htame).ends react_ne_outOfFuel redo hm

theorem processInput_ends (hstates : m.states = machines) (e : InputEvent) :
    Refeed.Ends .outOfFuel fun fuel ↦ m.processInput env H fuel e := by
  simp only [processInput_eq_run]
  refine Refeed.Ends.run_of_step (react_ne_outOfFuel m e) fun m' redo h ↦ ?_
  have hends : Refeed.Ends .outOfFuel fun fuel ↦ redo.foldlM (processInput env H fuel) m' :=
    redo_ends htame (poised_of_react htame hstates h)
  simpa only [processInput_eq_run] using hends

theorem checkTimer_ends (hstates : m.states = machines) :
    Refeed.Ends .outOfFuel fun fuel ↦ m.checkTimer env H fuel := by
  unfold checkTimer
  refine Refeed.Ends.bind (Refeed.Ends.const ?_) fun _ state hcur ↦ ?_
  · intro h
    have havoids := curState_avoids m
    rw [h] at havoids
    exact havoids rfl
  · obtain ⟨states, hlayer, hstate⟩ := curState_eq_ok hcur
    have hmem : states ∈ machines := hstates ▸ List.mem_of_getElem? hlayer
    cases ht : state.timerTransition with
    | none => exact Refeed.Ends.const (by simp)
    | some transition =>
        dsimp only
        split
        · refine Refeed.Ends.bind (Refeed.Ends.const ?_) fun _ c hfire ↦ ?_
          · intro h
            have havoids : Exits.Avoids .outOfFuel (fun _ ↦ True)
                ((m.checked env).fire env H transition none) := fire_avoids _ transition none
            rw [checked, h] at havoids
            exact havoids rfl
          · obtain ⟨m₁, redo⟩ := c
            refine redo_ends htame ?_
            by_cases hredo : redo = []
            · exact .inl hredo
            · obtain ⟨-, rfl⟩ := fire_spec hfire
              have hhome := (htame states hmem).timer hstate ht hredo
              exact .inr (poised_of_fire_home (m := m.checked env) htame hstates hhome hfire).1
        · exact Refeed.Ends.const (by simp)

end

/-- From here on every event, every expiration of the timer and every
iteration of the loop is processed in finitely many calls. -/
def ReprocessingEnds (env : Env) (H : QHash) (m : Mapper) : Prop :=
  (∀ e, Refeed.Ends .outOfFuel fun fuel ↦ m.processInput env H fuel e) ∧
    (Refeed.Ends .outOfFuel fun fuel ↦ m.checkTimer env H fuel) ∧
    ∀ keyOpt, Refeed.Ends .outOfFuel fun fuel ↦ m.loopBody env H fuel keyOpt

/-- The machines of the mapper come from layers whose fallbacks fit. -/
def Fitting (H : QHash) (m : Mapper) : Prop :=
  ∀ states ∈ m.states, ∃ layer, generateStates H layer = .ok states ∧ layer.FallbacksFit H

theorem Fitting.reprocessingEnds (hm : m.Fitting H) : m.ReprocessingEnds env H := by
  have hexists : ∀ states, ∃ settled rank, states ∈ m.states → Tame H states settled rank := by
    intro states
    by_cases hmem : states ∈ m.states
    · obtain ⟨layer, hgenerate, hfit⟩ := hm states hmem
      obtain ⟨settled, rank, htame⟩ := exists_tame hgenerate hfit
      exact ⟨settled, rank, fun _ ↦ htame⟩
    · exact ⟨fun _ ↦ True, fun _ ↦ 0, fun h ↦ (hmem h).elim⟩
  choose settled rank htame using hexists
  refine ⟨processInput_ends htame rfl, checkTimer_ends htame rfl, fun keyOpt ↦ ?_⟩
  refine (checkTimer_ends htame rfl).bind fun fuel m₁ h ↦ ?_
  have hstates := (acts_of_checkTimer h).sameMachines.states_eq
  cases keyOpt with
  | none => exact Refeed.Ends.const (by simp)
  | some e =>
      have hcount : (m₁.countKey env e).states = m.states := by
        rw [(sameStage_countKey env m₁ e).states_eq, hstates]
      exact (processInput_ends htame hcount e).bind fun _ _ _ ↦ Refeed.Ends.const (by simp)

/-! ## When re-processing ends -/

/-- If the fallbacks of every accepted profile fit, re-processing ends in
every state that any operations lead to. -/
theorem life_reprocessingEnds (env : Env) (H : QHash) (fuel : ℕ) (profile : Profile)
    (layerChangedCallback : Bool) (operations : List Operation) (m : Mapper)
    (hfit : ∀ p ∈ profile :: operations.filterMap Operation.profile?, p.Accepted H →
      ∀ layer ∈ p.layers, layer.FallbacksFit H)
    (hlife : Mapper.life env H fuel profile layerChangedCallback operations = .ok m) :
    m.ReprocessingEnds env H := by
  apply Fitting.reprocessingEnds
  intro states hstates
  obtain ⟨layer, hlayer, hgenerate⟩ := layers_of_life hfit hlife states hstates
  exact ⟨layer, hgenerate, hlayer⟩

/-- The second sequence goes on from HOME after X. -/
def loopLayer : Layer where
  layerName := "loop"
  basicRemappings := []
  sequenceRemappings :=
    [⟨.default, [.keyPress .a, .keyPress .c, .keyPress .x], []⟩,
     ⟨.default, [.keyPress .a, .keyPress .c, .keyPress .x, .keyPress .c, .keyPress .z], []⟩]

def loopProfile : Profile := ⟨"loop", [loopLayer], 0⟩

def loopStates : List State := (generateStates (.first _) loopLayer).toOption.getD []

/-- The mapper is where C led the second sequence from HOME. -/
structure Looping (m : Mapper) : Prop where
  states_eq : m.states = [loopStates]
  basicMaps_eq : m.basicMaps = [[]]
  layer_eq : m.curLayerIdx = 0
  state_eq : m.curStateIdx = 3
  paused_eq : m.paused = false

/-- X asks for C, X and C there, and the first C leads back. -/
theorem Looping.react (env : Env) (hm : m.Looping) : ∃ m₁ m₂,
    m.react env (.first _) (.key ⟨.x, .press⟩) =
      .ok (m₁, [.key ⟨.c, .press⟩, .key ⟨.x, .press⟩, .key ⟨.c, .press⟩]) ∧
    m₁.react env (.first _) (.key ⟨.c, .press⟩) = .ok (m₂, []) ∧ m₂.Looping := by
  obtain ⟨hstates, hmaps, hlayer, hstate, hpaused⟩ := hm
  cases m
  subst hstates hmaps hlayer hstate hpaused
  exact ⟨_, _, rfl, rfl, rfl, rfl, rfl, rfl, rfl⟩

theorem Looping.processInput_error (hm : m.Looping) (fuel : ℕ) :
    m.processInput env (.first _) fuel (.key ⟨.x, .press⟩) = .error .outOfFuel := by
  rw [processInput_eq_run]
  induction fuel generalizing m with
  | zero => rfl
  | succ fuel ih =>
      obtain ⟨m₁, m₂, hfirst, hsecond, hm₂⟩ := hm.react env
      rw [Refeed.run_of_step_eq hfirst, List.foldlM_cons]
      cases fuel with
      | zero => rfl
      | succ fuel =>
          -- C leads back to the same state, with less fuel for the X that follows it.
          rw [Refeed.run_of_step_eq hsecond, List.foldlM_nil, Exits.pure_eq_ok, Exits.ok_bind,
            List.foldlM_cons, ih hm₂]
          rfl

/-- After C the event X is fed again forever. -/
theorem loopProfile_diverges : loopProfile.Accepted (.first _) ∧ ∃ m,
    Mapper.life .still (.first _) 1 loopProfile false [.iteration (some (.key ⟨.c, .press⟩))] =
      .ok m ∧
    (∀ fuel, m.processInput .still (.first _) fuel (.key ⟨.x, .press⟩) = .error .outOfFuel) ∧
    ¬ m.ReprocessingEnds .still (.first _) := by
  refine ⟨⟨_, rfl⟩, _, rfl, ?_⟩
  refine and_iff_left_of_imp (fun hloop hends ↦ ?_) |>.mpr fun fuel ↦
    Looping.processInput_error ⟨rfl, rfl, rfl, rfl, rfl⟩ fuel
  obtain ⟨fuel, res, hres, hrun⟩ := hends.1 (.key ⟨.x, .press⟩)
  exact hres ((hrun fuel (Nat.le_refl fuel)).symm.trans (hloop fuel))

def tripleLayer : Layer where
  layerName := "triple"
  basicRemappings := []
  sequenceRemappings :=
    [⟨.default, [.keyPress .a, .keyPress .b, .keyPress .c], [.pressKey .x]⟩]

def tripleProfile : Profile := ⟨"triple", [tripleLayer], 0⟩

/-- After A and B the event X ends, and so does the B that it feeds again. -/
theorem life_reprocessingEnds_triple : ∃ m,
    Mapper.life .still (.first _) 1 tripleProfile false
      [.iteration (some (.key ⟨.a, .press⟩)), .iteration (some (.key ⟨.b, .press⟩))] = .ok m ∧
    m.curStateIdx = 2 ∧ m.ReprocessingEnds .still (.first _) := by
  refine ⟨_, rfl, rfl, life_reprocessingEnds .still (.first _) 1 tripleProfile false
    [.iteration (some (.key ⟨.a, .press⟩)), .iteration (some (.key ⟨.b, .press⟩))] _ ?_ rfl⟩
  have hseparated : tripleLayer.Separated := by decide
  have hfit := hseparated.fallbacksFit (H := .first _)
  simpa [Operation.profile?, tripleProfile] using fun _ ↦ hfit

end Mapper

end Keybinder

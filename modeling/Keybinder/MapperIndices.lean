import Keybinder.ClosedMachines
import Keybinder.MapperRuns

/-!
# The indices of the mapper

The current layer and the current state should name entries of the vectors
of the mapper whenever its loop can run.  Nothing checks the default layer
of a profile or the target of a layer swap, and the constructor goes on
after a rejected profile; with these in order, every operation keeps the
indices in range.
-/

namespace Keybinder

/-- The operations on a constructed mapper: the calls of other threads, and
an iteration of the loop with the result of `wait_key`. -/
inductive Operation where
  | setProfile (p : Profile)
  | setLayer (newLayer : ℕ)
  | pause
  | resume
  | stop
  | iteration (keyOpt : Option InputEvent)
  deriving DecidableEq

/-- Runs an operation.  An exception from compiling a profile leaves the
mapper as it was. -/
def Mapper.operate (env : Env) (H : QHash) (fuel : ℕ) (m : Mapper) :
    Operation → Except Exit Mapper
  | .setProfile p =>
      match m.setProfile H p with
      | .ok (_, m) => .ok m
      | .error .badOptionalAccess => .ok m
      | .error e => .error e
  | .setLayer newLayer => do
      let (_, m) ← m.setLayer newLayer
      return m
  | .pause => return m.pause
  | .resume => return m.resume
  | .stop => return m.stop
  | .iteration keyOpt => m.loopBody env H fuel keyOpt

/-- A mapper from its construction on. -/
def Mapper.life (env : Env) (H : QHash) (fuel : ℕ) (profile : Profile)
    (layerChangedCallback : Bool) (operations : List Operation) : Except Exit Mapper := do
  let m ← Mapper.new H profile layerChangedCallback
  operations.foldlM (Mapper.operate env H fuel) m

/-- The vectors have an entry for every layer, and the current layer and
state name entries of theirs. -/
structure Mapper.IndicesInRange (m : Mapper) : Prop where
  states_length : m.states.length = m.profile.layers.length
  basicMaps_length : m.basicMaps.length = m.profile.layers.length
  layer_lt : m.curLayerIdx < m.states.length
  state_lt : ∀ states, m.states[m.curLayerIdx]? = some states → m.curStateIdx < states.length

def Bind.InRange (n : ℕ) : Bind → Prop
  | .swapLayer newLayer => newLayer < n
  | _ => True

def Layer.binds (layer : Layer) : List Bind :=
  layer.basicRemappings.flatMap Prod.snd ++
    layer.sequenceRemappings.flatMap SequenceTrigger.binds

/-- The default layer of a profile and the layers its binds name exist. -/
structure Profile.LayersExist (p : Profile) : Prop where
  default_lt : p.defaultLayer < p.layers.length
  bind_inRange : ∀ layer ∈ p.layers, ∀ b ∈ layer.binds, b.InRange p.layers.length

def Profile.Accepted (H : QHash) (p : Profile) : Prop :=
  ∃ compiled, p.layers.mapM (Mapper.compileLayer H) = .ok compiled

/-- The machines generated for the layers of a profile are closed. -/
def Profile.MachinesClosed (H : QHash) (p : Profile) : Prop :=
  ∀ layer ∈ p.layers, ∀ states, generateStates H layer = .ok states → Closed states

def Operation.profile? : Operation → Option Profile
  | .setProfile p => some p
  | _ => none

/-! ## Where the binds of a machine come from -/

theorem bind_notMem_heldOutputs {b : Bind} {read : List AdvancedTrigger} :
    .bind b ∉ heldOutputs read := by
  intro hb
  obtain ⟨⟨trigger, j⟩, -, hb⟩ := List.mem_filterMap.mp hb
  obtain ⟨input, -, hb⟩ := Option.map_eq_some_iff.mp hb
  split at hb <;> cases hb

theorem bind_notMem_fallback {b : Bind} {T : Trie} {p : Place} :
    .bind b ∉ (T.fallback p).outputs := by
  unfold Trie.fallback
  split
  · simp [generateHomeState]
  · split
    · rename_i x hx
      simp only [newFallback, List.mem_append, List.mem_singleton, reduceCtorEq, or_false]
      split
      · exact bind_notMem_heldOutputs
      · simp
    · simp

theorem bind_mem_edge {b : Bind} {idx : Place → ℕ} {x : Placement}
    (hb : .bind b ∈ (x.transition idx).outputs) : b ∈ x.sequence.binds := by
  simp only [Placement.transition, newTransition, List.mem_append] at hb
  rcases hb with hb | hb
  · split at hb <;> simp at hb
  · split at hb
    · simpa using hb
    · simp at hb

theorem bind_mem_timer {b : Bind} {idx : Place → ℕ} {T : Trie} {p : Place} {x : Placement}
    (hb : .bind b ∈ (x.timerTransition idx (T.fallback p)).outputs) : b ∈ x.sequence.binds := by
  unfold Placement.timerTransition at hb
  split at hb
  · split at hb
    · simpa using hb
    · simp at hb
  · exact (bind_notMem_fallback hb).elim

theorem bind_mem_of_generateStates {H : QHash} {layer : Layer} {states : List State}
    (h : generateStates H layer = .ok states) {state : State} (hstate : state ∈ states)
    {transition : Transition} (ht : transition ∈ state.transitions) {b : Bind}
    (hb : .bind b ∈ transition.outputs) : b ∈ layer.binds := by
  obtain ⟨T, metadata, places, htrie, hT, hrep⟩ := trie_of_generateStates h
  have hmem : ∀ x ∈ T, b ∈ x.sequence.binds → b ∈ layer.binds := by
    intro x hx hbx
    have hsequence := Trie.sequence_mem htrie x hx
    have hlayer : x.sequence ∈ layer.sequenceRemappings :=
      (List.mem_zipIdx_iff_getElem?.mp hsequence) |> List.mem_of_getElem?
    exact List.mem_append_right _ (List.mem_flatMap.mpr ⟨_, hlayer, hbx⟩)
  obtain ⟨p, -, ⟨x, hx, rfl⟩ | rfl | ⟨x, hx, rfl⟩⟩ := hrep.transition_cases hstate ht
  · exact hmem x (Trie.mem_edgesAt.mp hx).1 (bind_mem_edge hb)
  · exact (bind_notMem_fallback hb).elim
  · exact hmem x (Trie.timedAt_eq_some hx).1 (bind_mem_timer hb)

/-! ## The invariant -/

namespace Mapper

/-- The vectors fit the profile, and the binds in the machines and in the
basic maps name existing layers. -/
structure Compiled (m : Mapper) : Prop where
  states_length : m.states.length = m.profile.layers.length
  basicMaps_length : m.basicMaps.length = m.profile.layers.length
  nonempty : ∀ states ∈ m.states, homeStateIdx < states.length
  mapBinds : ∀ basicMap ∈ m.basicMaps, ∀ entry ∈ basicMap, ∀ b ∈ entry.2,
    b.InRange m.states.length
  stateBinds : ∀ states ∈ m.states, ∀ state ∈ states, ∀ transition ∈ state.transitions,
    ∀ b, .bind b ∈ transition.outputs → b.InRange m.states.length

/-- The mapper has the given machines, and its layer is one of theirs. -/
structure Seated (machines : List (List State)) (m : Mapper) : Prop where
  compiled : m.Compiled
  states_eq : m.states = machines
  layer_lt : m.curLayerIdx < machines.length

/-- The invariant of the operations. -/
structure Indexed (m : Mapper) : Prop where
  seated : m.Seated m.states
  closed : ∀ states ∈ m.states, Closed states
  state_lt : ∀ states, m.states[m.curLayerIdx]? = some states → m.curStateIdx < states.length

theorem Indexed.indicesInRange {m : Mapper} (h : m.Indexed) : m.IndicesInRange :=
  ⟨h.seated.compiled.states_length, h.seated.compiled.basicMaps_length, h.seated.layer_lt, h.state_lt⟩

variable {env : Env} {H : QHash} {m m' : Mapper} {n : ℕ} {machines : List (List State)}
  {fuel : ℕ} {bad : Exit}

theorem Compiled.setLayerInner (h : m.Compiled) (hn : n < m.states.length) :
    Exits.Avoids bad (fun m' ↦ m'.Seated m.states ∧ m'.curStateIdx = homeStateIdx)
      (m.setLayerInner n) := by
  obtain ⟨h₁, h₂, h₃, h₄, h₅⟩ := h
  unfold Mapper.setLayerInner
  simp only
  split
  · have hlen : n < m.profile.layers.length := by
      rw [← h₁]
      exact hn
    simp only [vectorAt, List.getElem?_eq_getElem hlen, Exits.ok_bind, Exits.pure_eq_ok]
    exact ⟨⟨⟨h₁, h₂, h₃, h₄, h₅⟩, rfl, hn⟩, rfl⟩
  · exact ⟨⟨⟨h₁, h₂, h₃, h₄, h₅⟩, rfl, hn⟩, rfl⟩

namespace Seated

/-- Operations that leave the vectors alone keep the mapper seated: what it
says of the result is what it says of the mapper. -/
theorem frame (h : m.Seated machines) (hprofile : m'.profile = m.profile)
    (hstates : m'.states = m.states) (hmaps : m'.basicMaps = m.basicMaps)
    (hlayer : m'.curLayerIdx = m.curLayerIdx) : m'.Seated machines := by
  obtain ⟨⟨h₁, h₂, h₃, h₄, h₅⟩, h₆, h₇⟩ := h
  refine ⟨⟨?_, ?_, ?_, ?_, ?_⟩, hstates.trans h₆, ?_⟩ <;>
    simpa only [hprofile, hstates, hmaps, hlayer]

theorem queueOutput (h : m.Seated machines) (e : OutputEvent) (delay : ℕ) :
    (m.queueOutput env e delay).Seated machines :=
  h.frame rfl rfl rfl rfl

theorem queueBinds (h : m.Seated machines) {binds : List Bind}
    (hbinds : ∀ b ∈ binds, b.InRange machines.length) :
    Exits.Avoids bad (Seated machines) (m.queueBinds env binds) := by
  refine Exits.Avoids.bind (P := fun c ↦ c.1.Seated machines) ?_ fun c hc ↦ hc
  refine Exits.Avoids.foldlM (Q := fun c : Mapper × ℕ ↦ c.1.Seated machines) ?_ h
  rintro ⟨m, delay⟩ b hb hm
  cases b with
  | pressKey keyCode => exact hm.queueOutput _ _
  | releaseKey keyCode => exact hm.queueOutput _ _
  | swapLayer newLayer =>
      have hlt : newLayer < m.states.length := hm.states_eq ▸ hbinds _ hb
      exact (hm.compiled.setLayerInner hlt).bind fun m' hm' ↦ hm.states_eq ▸ hm'.1
  | wait ms => exact hm
  | runScript s => exact hm.queueOutput _ _

theorem runOutput (h : m.Seated machines) {prevEvent : Option InputEvent}
    {output : StateMachineOutputEvent} {redo : List InputEvent}
    (hbind : ∀ b, output = .bind b → b.InRange machines.length) :
    Exits.Avoids bad (fun c ↦ c.1.Seated machines)
      (Mapper.runOutput env H prevEvent (m, redo) output) := by
  cases output with
  | proccessInput event => exact h
  | basicTranlation event =>
      simp only [Mapper.runOutput]
      split
      · exact h
      · have hlen : m.curLayerIdx < m.basicMaps.length := by
          rw [h.compiled.basicMaps_length, ← h.compiled.states_length, h.states_eq]
          exact h.layer_lt
        simp only [vectorAt, List.getElem?_eq_getElem hlen, Exits.ok_bind]
        split
        · rename_i binds _ hfind
          obtain ⟨k, hk, -⟩ := H.find_eq_some hfind
          have hbinds : ∀ b ∈ binds, b.InRange machines.length := by
            rw [← h.states_eq]
            exact h.compiled.mapBinds _ (List.getElem_mem hlen) _ hk
          exact (h.queueBinds hbinds).bind fun m' hm' ↦ hm'
        · exact h.queueOutput _ _
        · exact h
  | bind b =>
      have hbinds : ∀ b' ∈ [b], b'.InRange machines.length := by
        simpa using hbind b rfl
      exact (h.queueBinds hbinds).bind fun m' hm' ↦ hm'

theorem fire (h : m.Seated machines) {states : List State}
    (hstates : machines[m.curLayerIdx]? = some states) {state : State} (hstate : state ∈ states)
    {transition : Transition} (ht : transition ∈ state.transitions)
    (prevEvent : Option InputEvent) :
    Exits.Avoids bad (fun c ↦ c.1.Seated machines) (m.fire env H transition prevEvent) := by
  have henter : (m.enter env transition prevEvent).Seated machines := h.frame rfl rfl rfl rfl
  refine Exits.Avoids.foldlM (Q := fun c : Mapper × List InputEvent ↦ c.1.Seated machines) ?_ henter
  rintro ⟨m', redo⟩ output houtput hm'
  refine hm'.runOutput ?_
  rintro b rfl
  rw [← h.states_eq]
  exact h.compiled.stateBinds states (h.states_eq ▸ List.mem_of_getElem? hstates) state hstate
    transition ht b houtput

end Seated

/-- The invariant for a mapper with the given machines. -/
def IndexedWith (machines : List (List State)) (m : Mapper) : Prop :=
  m.Indexed ∧ m.states = machines

theorem IndexedWith.of_seated (h : m.Seated machines) (hclosed : ∀ states ∈ machines, Closed states)
    (hlt : ∀ states, machines[m.curLayerIdx]? = some states → m.curStateIdx < states.length) :
    m.IndexedWith machines := by
  obtain rfl := h.states_eq
  exact ⟨⟨h, hclosed, hlt⟩, rfl⟩

theorem Indexed.of_home (h : m.Seated machines) (hclosed : ∀ states ∈ machines, Closed states)
    (hhome : m.curStateIdx = homeStateIdx) : m.IndexedWith machines := by
  refine .of_seated h hclosed fun states hstates ↦ ?_
  rw [hhome]
  exact h.compiled.nonempty states (h.states_eq ▸ List.mem_of_getElem? hstates)

namespace IndexedWith

theorem seated (h : m.IndexedWith machines) : m.Seated machines := by
  obtain ⟨h, rfl⟩ := h
  exact h.seated

theorem frame (h : m.IndexedWith machines) (hprofile : m'.profile = m.profile)
    (hstates : m'.states = m.states) (hmaps : m'.basicMaps = m.basicMaps)
    (hlayer : m'.curLayerIdx = m.curLayerIdx) (hstate : m'.curStateIdx = m.curStateIdx) :
    m'.IndexedWith machines := by
  obtain ⟨h, rfl⟩ := h
  refine .of_seated (h.seated.frame hprofile hstates hmaps hlayer) h.closed ?_
  rw [hlayer, hstate]
  exact h.state_lt

theorem curState (h : m.IndexedWith machines) : ∃ states ∈ machines, ∃ state ∈ states,
    machines[m.curLayerIdx]? = some states ∧ m.curState = .ok state := by
  obtain ⟨h, rfl⟩ := h
  have hstates := List.getElem?_eq_getElem h.seated.layer_lt
  have hstate := List.getElem?_eq_getElem (h.state_lt _ hstates)
  refine ⟨_, List.mem_of_getElem? hstates, _, List.mem_of_getElem? hstate, hstates, ?_⟩
  simp [Mapper.curState, vectorAt, hstates, hstate]

theorem fire (h : m.IndexedWith machines) {states : List State}
    (hstates : machines[m.curLayerIdx]? = some states) {state : State} (hstate : state ∈ states)
    {transition : Transition} (ht : transition ∈ state.transitions)
    (prevEvent : Option InputEvent) :
    Exits.Avoids .outOfRange (fun c ↦ c.1.IndexedWith machines)
      (m.fire env H transition prevEvent) := by
  have hclosed : ∀ states ∈ machines, Closed states := h.2 ▸ h.1.closed
  have hseated : Exits.Avoids .outOfRange (fun c ↦ c.1.Seated machines)
      (m.fire env H transition prevEvent) := h.seated.fire hstates hstate ht prevEvent
  cases hfire : m.fire env H transition prevEvent with
  | error e =>
      rw [hfire] at hseated
      exact hseated
  | ok c =>
      obtain ⟨m', redo⟩ := c
      rw [hfire] at hseated
      rcases (fire_spec hfire).1.kept.position with ⟨hlayer, hidx, -⟩ | ⟨hhome, -⟩
      · refine .of_seated hseated hclosed fun states' hstates' ↦ ?_
        obtain rfl : states = states' := by
          rw [hlayer] at hstates'
          exact Option.some.inj (hstates.symm.trans hstates')
        obtain ⟨idx, hnew, hlt⟩ := hclosed states (List.mem_of_getElem? hstates) state hstate
          transition ht
        simpa [hidx, Mapper.enter, hnew] using hlt
      · exact Indexed.of_home hseated hclosed hhome

end IndexedWith

theorem transitionFor_mem (H : QHash) (state : State) (e : InputEvent) :
    transitionFor H state e ∈ state.transitions := by
  unfold transitionFor State.transitions
  cases hfind : H.find state.edges e with
  | none => simp
  | some transition =>
      obtain ⟨k, hk, -⟩ := H.find_eq_some hfind
      exact List.mem_append_left _ (List.mem_map_of_mem (f := Prod.snd) hk)

namespace IndexedWith

theorem processInput (h : m.IndexedWith machines) (e : InputEvent) :
    Exits.Avoids .outOfRange (IndexedWith machines) (m.processInput env H fuel e) := by
  induction fuel generalizing m e with
  | zero => exact fun hexit ↦ by cases hexit
  | succ fuel ih =>
      rw [Mapper.processInput]
      split
      · cases e with
        | app appName => exact h
        | key e => exact h.frame rfl rfl rfl rfl rfl
      · obtain ⟨states, -, state, hstate, hstates, hcur⟩ := h.curState
        rw [hcur, Exits.ok_bind]
        refine (h.fire hstates hstate (transitionFor_mem H state e) (some e)).bind ?_
        rintro ⟨m', redo⟩ hm'
        exact Exits.Avoids.foldlM (fun m e _ hm ↦ ih hm e) hm'

theorem checkTimer (h : m.IndexedWith machines) :
    Exits.Avoids .outOfRange (IndexedWith machines) (m.checkTimer env H fuel) := by
  obtain ⟨states, -, state, hstate, hstates, hcur⟩ := h.curState
  rw [Mapper.checkTimer, hcur, Exits.ok_bind]
  have hpoll : IndexedWith machines { m with
      instant := m.instant + 1
      history := m.history ++ [.poll (env.clock m.instant)] } :=
    h.frame rfl rfl rfl rfl rfl
  cases ht : state.timerTransition with
  | none => exact hpoll
  | some transition =>
      simp only
      split
      · have hmem : transition ∈ state.transitions := by simp [State.transitions, ht]
        refine (hpoll.fire hstates hstate hmem none).bind ?_
        rintro ⟨m', redo⟩ hm'
        exact Exits.Avoids.foldlM (fun m e _ hm ↦ hm.processInput e) hm'
      · exact hpoll

theorem checkQueuedEvents (h : m.IndexedWith machines) :
    (m.checkQueuedEvents env).IndexedWith machines := by
  unfold Mapper.checkQueuedEvents
  split
  · exact h
  · exact h.frame rfl rfl rfl rfl rfl

theorem countKey (h : m.IndexedWith machines) (e : InputEvent) :
    (m.countKey env e).IndexedWith machines := by
  unfold Mapper.countKey
  split
  · split
    · exact h.frame rfl rfl rfl rfl rfl
    · exact h
  · exact h

theorem loopBody (h : m.IndexedWith machines) (keyOpt : Option InputEvent) :
    Exits.Avoids .outOfRange (IndexedWith machines) (m.loopBody env H fuel keyOpt) := by
  refine h.checkTimer.bind ?_
  intro m' hm'
  cases keyOpt with
  | none => exact hm'.checkQueuedEvents
  | some e =>
      refine ((hm'.countKey e).processInput e).bind ?_
      intro m'' hm''
      have hcount : IndexedWith machines
          { m'' with processedEventsCount := m''.processedEventsCount + 1 } :=
        hm''.frame rfl rfl rfl rfl rfl
      exact hcount.checkQueuedEvents

end IndexedWith

/-! ## Operations -/

theorem buildBasicMap_eq {layer : Layer} {basicMap : List (InputEvent × List Bind)}
    (h : buildBasicMap H layer = .ok basicMap) :
    basicMap = layer.basicRemappings.map fun (trigger, binds) ↦ (trigger.triggerToInput, binds) := by
  have hmap := Exits.foldlM_eq_map (g := fun (trigger, binds) ↦
    (BasicTrigger.triggerToInput trigger, binds)) ?_ h
  · simpa using hmap
  · rintro basicMap₀ basicMap₁ ⟨trigger, binds⟩ hstep
    simp only at hstep
    split at hstep
    · cases hstep
    · cases hstep
      rfl

theorem mem_buildBasicMap {layer : Layer} {basicMap : List (InputEvent × List Bind)}
    (h : buildBasicMap H layer = .ok basicMap) :
    ∀ entry ∈ basicMap, ∀ b ∈ entry.2, b ∈ layer.binds := by
  obtain rfl := buildBasicMap_eq h
  intro entry hentry b hb
  obtain ⟨remapping, hmem, rfl⟩ := List.mem_map.mp hentry
  exact List.mem_append_left _ (List.mem_flatMap.mpr ⟨remapping, hmem, hb⟩)

theorem home_lt_of_generateStates {layer : Layer} {states : List State}
    (h : generateStates H layer = .ok states) : homeStateIdx < states.length := by
  obtain ⟨T, metadata, places, -, -, hb⟩ := trie_of_generateStates h
  rw [← hb.number_home]
  exact hb.lt_of_mem hb.home_mem

theorem compileLayer_eq_ok {layer : Layer} {basicMap : List (InputEvent × List Bind)}
    {states : List State} (h : compileLayer H layer = .ok (basicMap, states)) :
    buildBasicMap H layer = .ok basicMap ∧ generateStates H layer = .ok states := by
  obtain ⟨basicMap', hmap, h⟩ := Exits.bind_eq_ok.mp h
  obtain ⟨states', hstates, h⟩ := Exits.bind_eq_ok.mp h
  cases h
  exact ⟨hmap, hstates⟩

theorem compiled_of_mapM {p : Profile} (hexist : p.LayersExist)
    {compiled : List (List (InputEvent × List Bind) × List State)}
    (hcompiled : p.layers.mapM (compileLayer H) = .ok compiled) (hprofile : m.profile = p)
    (hstates : m.states = compiled.map Prod.snd) (hmaps : m.basicMaps = compiled.map Prod.fst) :
    m.Compiled := by
  have hlength : compiled.length = p.layers.length :=
    (Exits.forall₂_of_mapM hcompiled).length_eq.symm
  have hsource : ∀ c ∈ compiled, ∃ layer ∈ p.layers,
      buildBasicMap H layer = .ok c.1 ∧ generateStates H layer = .ok c.2 := by
    intro c hc
    obtain ⟨layer, hlayer, h⟩ := Exits.exists_of_mem_mapM hcompiled hc
    exact ⟨layer, hlayer, compileLayer_eq_ok h⟩
  refine ⟨by simp [hstates, hprofile, hlength], by simp [hmaps, hprofile, hlength], ?_, ?_, ?_⟩
  · intro states hmem
    obtain ⟨c, hc, rfl⟩ := List.mem_map.mp (hstates ▸ hmem)
    obtain ⟨layer, -, -, hgenerate⟩ := hsource c hc
    exact home_lt_of_generateStates hgenerate
  · intro basicMap hmem entry hentry b hb
    obtain ⟨c, hc, rfl⟩ := List.mem_map.mp (hmaps ▸ hmem)
    obtain ⟨layer, hlayer, hmap, -⟩ := hsource c hc
    have hbind := hexist.bind_inRange layer hlayer b (mem_buildBasicMap hmap entry hentry b hb)
    simpa [hstates, hlength] using hbind
  · intro states hmem state hstate transition ht b hb
    obtain ⟨c, hc, rfl⟩ := List.mem_map.mp (hstates ▸ hmem)
    obtain ⟨layer, hlayer, -, hgenerate⟩ := hsource c hc
    have hbind := hexist.bind_inRange layer hlayer b
      (bind_mem_of_generateStates hgenerate hstate ht hb)
    simpa [hstates, hlength] using hbind

/-- An accepted profile whose layers exist establishes the invariant. -/
theorem indexed_of_setProfile {p : Profile} (hexist : p.LayersExist)
    (hclosed : p.MachinesClosed H) (haccepted : p.Accepted H) :
    Exits.Avoids .outOfRange (fun c ↦ c.2.Indexed) (m.setProfile H p) := by
  obtain ⟨compiled, hcompiled⟩ := haccepted
  rw [Mapper.setProfile_eq, hcompiled]
  have hm := compiled_of_mapM (m := { m with
    profile := p
    states := compiled.map Prod.snd
    basicMaps := compiled.map Prod.fst }) hexist hcompiled rfl rfl rfl
  have hdefault : p.defaultLayer < (compiled.map Prod.snd).length := by
    rw [List.length_map, ← (Exits.forall₂_of_mapM hcompiled).length_eq]
    exact hexist.default_lt
  refine (hm.setLayerInner hdefault).bind fun m' ⟨hseated, hhome⟩ ↦ ?_
  refine (Indexed.of_home hseated (fun states hmem ↦ ?_) hhome).1
  obtain ⟨c, hc, rfl⟩ := List.mem_map.mp hmem
  obtain ⟨layer, hlayer, hcompile⟩ := Exits.exists_of_mem_mapM hcompiled hc
  exact hclosed layer hlayer c.2 (compileLayer_eq_ok hcompile).2

theorem compileLayer_avoids {bad : Exit} (hnull : .nullopt ≠ bad)
    (haccess : .badOptionalAccess ≠ bad) (layer : Layer) :
    Exits.Avoids bad (fun _ ↦ True) (compileLayer H layer) := by
  have hmap : Exits.Avoids bad (fun _ ↦ True) (buildBasicMap H layer) := by
    refine Exits.Avoids.foldlM ?_ trivial
    rintro basicMap ⟨trigger, binds⟩ - -
    simp only
    split
    · exact hnull
    · trivial
  exact hmap.bind fun _ _ ↦ (generateStates_avoids hnull H layer
    fun _ _ _ _ _ ↦ haccess).bind fun _ _ ↦ trivial

theorem setProfile_of_rejected {p : Profile} (h : ¬ p.Accepted H) :
    m.setProfile H p = .ok (false, m) ∨ m.setProfile H p = .error .badOptionalAccess := by
  rw [Mapper.setProfile_eq]
  cases hcompiled : p.layers.mapM (compileLayer H) with
  | ok compiled => exact (h ⟨compiled, hcompiled⟩).elim
  | error e =>
      by_cases hnull : .nullopt = e
      · subst hnull
        exact .inl rfl
      · by_cases haccess : .badOptionalAccess = e
        · subst haccess
          exact .inr rfl
        · have havoids : Exits.Avoids e (fun _ ↦ True) (p.layers.mapM (compileLayer H)) :=
            Exits.Avoids.mapM fun layer _ ↦ compileLayer_avoids hnull haccess layer
          rw [hcompiled] at havoids
          exact (havoids rfl).elim

theorem Indexed.operate (h : m.Indexed) (operation : Operation)
    (hprofile : ∀ p, operation.profile? = some p → p.Accepted H →
      p.LayersExist ∧ p.MachinesClosed H) :
    Exits.Avoids .outOfRange Indexed (m.operate env H fuel operation) := by
  have hm : m.IndexedWith m.states := ⟨h, rfl⟩
  cases operation with
  | setProfile p =>
      by_cases haccepted : p.Accepted H
      · obtain ⟨hexist, hclosed⟩ := hprofile p rfl haccepted
        have hset := indexed_of_setProfile (m := m) hexist hclosed haccepted
        cases hresult : m.setProfile H p with
        | ok c => simpa [Mapper.operate, hresult] using hset.of_ok hresult
        | error e =>
            rw [hresult] at hset
            cases e with
            | badOptionalAccess => simpa [Mapper.operate, hresult] using h
            | outOfRange => exact (hset rfl).elim
            | _ => simp [Mapper.operate, hresult]
      · rcases setProfile_of_rejected (m := m) haccepted with hresult | hresult
        · simpa [Mapper.operate, hresult] using h
        · simpa [Mapper.operate, hresult] using h
  | setLayer newLayer =>
      simp only [Mapper.operate, Mapper.setLayer]
      split
      · exact h
      · rename_i hlt
        refine Exits.Avoids.bind (P := fun c ↦ c.2.Indexed) ?_ fun c hc ↦ hc
        exact (h.seated.compiled.setLayerInner (Nat.lt_of_not_le hlt)).bind
          fun m' ⟨hseated, hhome⟩ ↦ (Indexed.of_home hseated h.closed hhome).1
  | pause =>
      have hpause : m.pause.IndexedWith m.states := hm.frame rfl rfl rfl rfl rfl
      exact hpause.1
  | resume =>
      have hresume : m.resume.IndexedWith m.states := hm.frame rfl rfl rfl rfl rfl
      exact hresume.1
  | stop =>
      have hstop : m.stop.IndexedWith m.states := hm.frame rfl rfl rfl rfl rfl
      exact hstop.1
  | iteration keyOpt => exact (hm.loopBody keyOpt).mono fun m' hm' ↦ hm'.1

/-! ## When the indices stay in range -/

def emptyLayer : Layer := ⟨"default", [], []⟩

/-- A profile with one layer that starts in a second one. -/
def strayProfile : Profile := ⟨"stray", [emptyLayer], 1⟩

/-- The mapper constructed for it has no current layer. -/
theorem strayProfile_outOfRange : strayProfile.MachinesClosed (.first _) ∧
    ∃ m, Mapper.new (.first _) strayProfile false = .ok m ∧ ¬ m.IndicesInRange := by
  constructor
  · intro layer hlayer states hstates
    obtain rfl := List.mem_singleton.mp hlayer
    cases hstates
    decide
  · refine ⟨_, rfl, ?_⟩
    intro h
    exact Nat.lt_irrefl 1 h.layer_lt

/-- If the constructor is given an accepted profile, and the default layer
and the swapped layers of every accepted profile exist, then the indices are
in range after any operations, and no access was out of range. -/
theorem life_indicesInRange (env : Env) (H : QHash) (fuel : ℕ) (profile : Profile)
    (layerChangedCallback : Bool) (operations : List Operation)
    (hclosed : ∀ p ∈ profile :: operations.filterMap Operation.profile?, p.Accepted H →
      p.MachinesClosed H)
    (haccepted : profile.Accepted H)
    (hexist : ∀ p ∈ profile :: operations.filterMap Operation.profile?, p.Accepted H →
      p.LayersExist) :
    Exits.Avoids .outOfRange IndicesInRange
      (Mapper.life env H fuel profile layerChangedCallback operations) := by
  have hnew : Exits.Avoids .outOfRange Indexed (Mapper.new H profile layerChangedCallback) :=
    (indexed_of_setProfile (hexist profile (by simp) haccepted)
      (hclosed profile (by simp) haccepted) haccepted).bind fun c hc ↦ hc
  refine hnew.bind fun m hm ↦ ?_
  refine Exits.Avoids.mono (P := Indexed) ?_ fun m hm ↦ hm.indicesInRange
  refine Exits.Avoids.foldlM ?_ hm
  intro m operation hmem hm
  refine hm.operate operation fun p hp haccepted ↦ ?_
  have hprofile : p ∈ profile :: operations.filterMap Operation.profile? :=
    List.mem_cons_of_mem _ (List.mem_filterMap.mpr ⟨operation, hmem, hp⟩)
  exact ⟨hexist p hprofile haccepted, hclosed p hprofile haccepted⟩

/-- Two layers, where A swaps to the second. -/
def swapProfile : Profile :=
  ⟨"swap", [⟨"first", [(.keyPress .a, [.swapLayer 1])], []⟩, emptyLayer], 0⟩

theorem life_indicesInRange_swap : ∃ m,
    Mapper.life .still (.first _) 2 swapProfile true [.iteration (some (.key ⟨.a, .press⟩))] = .ok m ∧
      m.curLayerIdx = 1 ∧ m.IndicesInRange := by
  have haccepted : swapProfile.Accepted (.first _) := ⟨_, rfl⟩
  have hclosed : swapProfile.MachinesClosed (.first _) := by
    intro layer hlayer states hstates
    simp only [swapProfile, List.mem_cons, List.not_mem_nil, or_false] at hlayer
    rcases hlayer with rfl | rfl <;> cases hstates <;> decide
  have hexist : swapProfile.LayersExist := by
    refine ⟨by decide, ?_⟩
    simp [swapProfile, emptyLayer, Layer.binds, Bind.InRange]
  refine ⟨_, rfl, rfl, Exits.Avoids.of_ok (life_indicesInRange .still (.first _) 2 swapProfile true
    [.iteration (some (.key ⟨.a, .press⟩))] ?_ haccepted ?_) rfl⟩
  · simpa [Operation.profile?] using fun _ ↦ hclosed
  · simpa [Operation.profile?] using fun _ ↦ hexist

end Mapper

end Keybinder

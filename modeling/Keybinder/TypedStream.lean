import Mathlib.Data.List.ReduceOption
import Keybinder.MapperIndices
import Keybinder.Tracking

/-!
# The typed stream of Default sequences

A Default sequence holds the keys that it has matched so far, and a mismatch
should give them back.  The first held key and the mismatching one are
emitted at once, the others are fed again after them: the stream is only
preserved when that order does not matter.
-/

namespace Keybinder

def InputEvent.key? : InputEvent → Option KeyEvent
  | .key e => some e
  | .app _ => none

/-- The key events that were passed to `queue_output`. -/
def queuedKeys (ms : List Moment) : List KeyEvent :=
  ms.filterMap fun
    | .queued _ (.key e) => some e
    | _ => none

@[simp] theorem queuedKeys_append (ms ms' : List Moment) :
    queuedKeys (ms ++ ms') = queuedKeys ms ++ queuedKeys ms' := by
  simp [queuedKeys]

namespace Mapper

/-- The events matched on the way to the current state. -/
def heldBack (m : Mapper) : List InputEvent :=
  if m.curStateIdx = homeStateIdx then [] else consumed m.history

theorem heldBack_of_sameStage {m m' : Mapper} (h : m.SameStage m') : m'.heldBack = m.heldBack := by
  rw [heldBack, heldBack, h.state_eq, h.history_eq]

/-- The key that an output emits when there are no basic remappings. -/
def translationOf (prevEvent : Option InputEvent) : StateMachineOutputEvent → Option KeyEvent
  | .basicTranlation event => (event <|> prevEvent).bind InputEvent.key?
  | _ => none

/-- The keys that a transition emits when there are no basic remappings. -/
def translated (prevEvent : Option InputEvent) (transition : Transition) : List KeyEvent :=
  transition.outputs.filterMap (translationOf prevEvent)

def queueKeys (env : Env) (m : Mapper) (keys : List KeyEvent) : Mapper :=
  keys.foldl (fun m e ↦ m.queueOutput env (.key e) 0) m

section

variable {env : Env} {H : QHash} {m m' : Mapper} {transition : Transition}
  {prevEvent : Option InputEvent} {redo done : List InputEvent}

/-- What queueing keys changes. -/
structure Queued (keys : List KeyEvent) (m m' : Mapper) : Prop extends SameMachines m m' where
  layer_eq : m'.curLayerIdx = m.curLayerIdx
  state_eq : m'.curStateIdx = m.curStateIdx
  consumed_eq : consumed m'.history = consumed m.history
  exists_ext : ∃ ext, m'.history = m.history ++ ext ∧ queuedKeys ext = keys

theorem queued_queueKeys (env : Env) (m : Mapper) (keys : List KeyEvent) :
    Queued keys m (m.queueKeys env keys) := by
  induction keys generalizing m with
  | nil => exact ⟨⟨rfl, rfl, rfl, rfl⟩, rfl, rfl, rfl, [], by simp [queueKeys], rfl⟩
  | cons e keys ih =>
      obtain ⟨⟨h₁, h₂, h₃, h₄⟩, hlayer, hstate, hconsumed, ext, hext, hkeys⟩ :=
        ih (m.queueOutput env (.key e) 0)
      refine ⟨⟨h₁, h₂, h₃, h₄⟩, hlayer, hstate, hconsumed.trans ?_, _,
        hext.trans (List.append_assoc _ _ _), ?_⟩
      · rw [← consumed_recent, queueOutput, recent_append_queued, consumed_recent]
      · rw [queuedKeys_append, hkeys]
        rfl

theorem runOutputs_plain {outputs : List StateMachineOutputEvent}
    (hmap : m.basicMaps[m.curLayerIdx]? = some []) (hbinds : ∀ b, .bind b ∉ outputs)
    (h : outputs.foldlM (runOutput env H prevEvent) (m, done) = .ok (m', redo)) :
    m' = m.queueKeys env (outputs.filterMap (translationOf prevEvent)) := by
  induction outputs generalizing m done with
  | nil =>
      cases h
      rfl
  | cons output outputs ih =>
      obtain ⟨⟨m₁, done₁⟩, houtput, hrest⟩ := Exits.foldlM_cons_eq_ok.mp h
      have hfind (e : InputEvent) : H.find ([] : List (InputEvent × List Bind)) e = none := by
        cases hfind : H.find ([] : List (InputEvent × List Bind)) e with
        | none => rfl
        | some binds =>
            obtain ⟨k, hk, -⟩ := H.find_eq_some hfind
            simp at hk
      have hm₁ : m₁ = m.queueKeys env (translationOf prevEvent output).toList := by
        cases output with
        | proccessInput event =>
            cases houtput
            rfl
        | bind b => exact (hbinds b (by simp)).elim
        | basicTranlation event =>
            simp only [runOutput, vectorAt, hmap, Exits.ok_bind, hfind] at houtput
            simp only [translationOf]
            cases hevent : event <|> prevEvent with
            | none =>
                simp only [hevent] at houtput
                cases houtput
                rfl
            | some e =>
                simp only [hevent] at houtput
                cases e <;>
                  · cases houtput
                    rfl
      have hqueued := queued_queueKeys env m (translationOf prevEvent output).toList
      rw [← hm₁] at hqueued
      rw [ih (by rw [hqueued.basicMaps_eq, hqueued.layer_eq, hmap])
        (fun b hb ↦ hbinds b (List.mem_cons_of_mem _ hb)) hrest, hm₁]
      cases htranslation : translationOf prevEvent output <;>
        simp [queueKeys, htranslation]

/-- Without basic remappings a transition without binds only emits keys. -/
theorem fire_plain (hmap : m.basicMaps[m.curLayerIdx]? = some [])
    (hbinds : ∀ b, .bind b ∉ transition.outputs)
    (h : m.fire env H transition prevEvent = .ok (m', redo)) :
    Queued (translated prevEvent transition) (m.enter env transition prevEvent) m' ∧
      redo = redos prevEvent transition := by
  obtain rfl := runOutputs_plain (m := m.enter env transition prevEvent) hmap hbinds h
  exact ⟨queued_queueKeys _ _ _, (fire_spec h).2⟩

theorem heldBack_of_fire {n : ℕ} (hmap : m.basicMaps[m.curLayerIdx]? = some [])
    (hbinds : ∀ b, .bind b ∉ transition.outputs) (hn : transition.newState = some n)
    (h : m.fire env H transition prevEvent = .ok (m', redo)) :
    m'.heldBack = if n = homeStateIdx then [] else consumed (m.history ++
      [.taken m.curLayerIdx m.curStateIdx prevEvent (env.clock m.instant) transition]) := by
  have hqueued := (fire_plain hmap hbinds h).1
  rw [heldBack, hqueued.state_eq, hqueued.consumed_eq, enter, hn]
  rfl

end

end Mapper

/-! ## What a transition gives back -/

/-- The first held key is emitted at once, the others are fed again. -/
theorem heldOutputs_keys {read : List AdvancedTrigger} {held : List KeyEvent}
    (h : inputsOf read = held.map .key) (prevEvent : Option InputEvent) :
    ∃ first later, held = first ++ later ∧
      (heldOutputs read).filterMap (Mapper.translationOf prevEvent) = first ∧
      inputsOf read.tail = later.map .key := by
  cases read with
  | nil =>
      obtain rfl : held = [] := by simpa [inputsOf] using h.symm
      exact ⟨[], [], rfl, rfl, rfl⟩
  | cons trigger rest =>
      have hrest : ((inputsOf rest).map fun input ↦
          StateMachineOutputEvent.proccessInput (some input)).filterMap
            (Mapper.translationOf prevEvent) = [] := by
        simp [Mapper.translationOf]
      rw [heldOutputs_cons, List.filterMap_append, hrest, List.append_nil, List.tail_cons]
      cases hinput : trigger.triggerToInput with
      | none =>
          refine ⟨[], held, rfl, rfl, ?_⟩
          rw [← h]
          simp [inputsOf, hinput]
      | some input =>
          have hcons : inputsOf (trigger :: rest) = input :: inputsOf rest := by
            simp [inputsOf, hinput]
          rw [hcons] at h
          cases held with
          | nil => cases h
          | cons e held =>
              obtain ⟨rfl, hlater⟩ := List.cons.inj h
              exact ⟨[e], held, rfl, rfl, hlater⟩

theorem eq_keys_of_symbols {inputs : List InputEvent} {keys : List KeyEvent}
    (h : inputs.map InputEvent.symbol = keys.map .key) : inputs = keys.map .key := by
  rw [← List.forall₂_eq_eq_eq, List.forall₂_map_right_iff] at h ⊢
  rw [List.forall₂_map_left_iff] at h
  exact h.imp fun input e hinput ↦ InputEvent.symbol_eq_key_iff.mp hinput

theorem Spelled.keys {p : Place} {keys : List KeyEvent} (h : Spelled (keys.map .key) p) :
    Place.syms p = keys.map .key := by
  rw [Spelled, List.forall₂_map_right_iff] at h
  have heq : List.Forall₂ (fun s e ↦ s = Symbol.key e) (Place.syms p) keys :=
    h.imp fun s e hse ↦ Symbol.key_eq_iff.mp hse
  rw [← List.forall₂_eq_eq_eq, List.forall₂_map_right_iff]
  exact heq

namespace StraightMachine

variable {H : QHash} {layer : Layer} {states : List State} (M : StraightMachine H layer states)
  {p : Place} {y : Placement}

/-- A fallback gives back what is held: part of it at once, the rest after the
mismatching key. -/
theorem fallback_gives_back (hdefault : ∀ s ∈ layer.sequenceRemappings, s.behavior = .default)
    (hnew : (M.trie.fallback p).newState ≠ none) {held : List KeyEvent}
    (hhome : p = [] → held = []) (hheld : p ≠ [] → Spelled (held.map .key) p)
    (prevEvent : Option KeyEvent) :
    ∃ first later, held = first ++ later ∧
      Mapper.translated (prevEvent.map .key) (M.trie.fallback p) = first ++ prevEvent.toList ∧
      Mapper.redos (prevEvent.map .key) (M.trie.fallback p) = later.map .key := by
  have hprev : [StateMachineOutputEvent.basicTranlation none].filterMap
      (Mapper.translationOf (prevEvent.map .key)) = prevEvent.toList := by
    cases prevEvent <;> rfl
  by_cases hp : p = []
  · subst hp
    refine ⟨[], [], hhome rfl, ?_, ?_⟩
    · rw [Mapper.translated, Trie.fallback, if_pos rfl, List.nil_append]
      exact hprev
    · simp [Mapper.redos, Mapper.redoOf, Trie.fallback, generateHomeState]
  · cases hx : M.trie.creatorAt p with
    | none => simp [Trie.fallback, hp, hx] at hnew
    | some x =>
        obtain ⟨hmem, hfresh, rfl⟩ := Trie.creatorAt_eq_some hx
        have hfallback : M.trie.fallback x.tgt = newFallback x.sequence.behavior x.pass.read := by
          simp [Trie.fallback, hp, hx]
        have hof := Layer.of_mem_occurrences (M.straight.mem hmem)
        have hbehavior : x.sequence.behavior = .default :=
          hdefault _ (List.mem_of_getElem? hof.1)
        have htgt : x.tgt = x.dest := by
          have h := M.straight.tgt x hmem
          split at h
          · exact (hp h).elim
          · exact h
        have hinputs : inputsOf x.pass.read = held.map .key :=
          eq_keys_of_symbols (hof.2.syms_eq.symm.trans (htgt ▸ (hheld hp).keys))
        obtain ⟨first, later, hsplit, hfirst, hlater⟩ :=
          heldOutputs_keys hinputs (prevEvent.map .key)
        refine ⟨first, later, hsplit, ?_, ?_⟩
        · rw [hfallback, Mapper.translated, newFallback, hbehavior, if_pos rfl,
            List.filterMap_append, hfirst, hprev]
        · rw [hfallback, Mapper.redos_newFallback, hbehavior, if_pos rfl, hlater]

theorem bind_notMem_fallback (b : Bind) : .bind b ∉ (M.trie.fallback p).outputs := by
  intro hb
  unfold Trie.fallback at hb
  split at hb
  · simp [generateHomeState] at hb
  · split at hb
    · rename_i x hx
      simp only [newFallback, List.mem_append, List.mem_singleton, reduceCtorEq, or_false] at hb
      split at hb
      · obtain ⟨⟨trigger, k⟩, -, hb⟩ := List.mem_filterMap.mp hb
        obtain ⟨input, -, hb⟩ := Option.map_eq_some_iff.mp hb
        split at hb <;> cases hb
      · simp at hb
    · simp at hb

theorem outputs_of_edge (hdefault : ∀ s ∈ layer.sequenceRemappings, s.behavior = .default)
    (hy : y ∈ M.trie) (howner : (M.edge y).owner = none) :
    (M.edge y).outputs = [] ∧ y.pass.isLast = false := by
  have hlast : y.pass.isLast = false := by
    by_contra hlast
    simp [edge, Placement.transition, newTransition, hlast] at howner
  have hbehavior : y.sequence.behavior = .default :=
    hdefault _ (List.mem_of_getElem? (Layer.of_mem_occurrences (M.straight.mem hy)).1)
  exact ⟨by simp [edge, Placement.transition, newTransition, hlast, hbehavior], hlast⟩

/-- On the timer a match goes on or ends, or the fallback is taken. -/
theorem reaction_cases (x : Placement) :
    x.pass.midWait = true ∧
        M.reaction x = { newState := some (Numbering.number M.places x.timerPlace) } ∨
      M.reaction x = M.trie.fallback x.tgt ∨ (M.reaction x).owner ≠ none := by
  unfold reaction Placement.timerTransition
  split
  · rename_i ms hms
    split
    · exact .inr (.inr (by simp))
    · rename_i hfinal
      exact .inl ⟨by simpa [LoopPass.midWait, hms] using hfinal, rfl⟩
  · exact .inr (.inl rfl)

end StraightMachine

/-! ## The stream along a run -/

/-- The transition was assigned a target and completes no sequence, and every
event that it feeds again is the one that was processed. -/
def Moment.KeepsOrder : Moment → Prop
  | .taken _ _ event _ transition => transition.newState ≠ none ∧ transition.owner = none ∧
      ∀ e ∈ event, ∀ k ∈ Mapper.redos event transition, k = e
  | _ => True

instance : DecidablePred Moment.KeepsOrder
  | .taken _ _ event _ transition => inferInstanceAs (Decidable (transition.newState ≠ none ∧
      transition.owner = none ∧ ∀ e ∈ event, ∀ k ∈ Mapper.redos event transition, k = e))
  | .poll _ => isTrue trivial
  | .layerSet _ => isTrue trivial
  | .queued _ _ => isTrue trivial

/-- All moments since `start` keep the order. -/
def Orderly (start : List Moment) (m : Mapper) : Prop :=
  ∀ ext, m.history = start ++ ext → ∀ moment ∈ ext, moment.KeepsOrder

theorem Orderly.taken {env : Env} {start : List Moment} {m m' : Mapper} {transition : Transition}
    {prevEvent : Option InputEvent} (h : Orderly start m') (hstart : start <+: m.history)
    (hpre : (m.enter env transition prevEvent).history <+: m'.history) :
    transition.newState ≠ none ∧ transition.owner = none ∧
      ∀ e ∈ prevEvent, ∀ k ∈ Mapper.redos prevEvent transition, k = e := by
  obtain ⟨ext, hext⟩ := hstart
  obtain ⟨rest, hrest⟩ := hpre
  rw [Mapper.enter, ← hext] at hrest
  exact h _ (by rw [← hrest, List.append_assoc, List.append_assoc])
    (.taken m.curLayerIdx m.curStateIdx prevEvent (env.clock m.instant) transition) (by simp)

/-- What was queued since `start`, then what is held and what is still to be
processed, is the input. -/
structure Streaming (env : Env) (H : QHash) (start : List Moment) (states : List State) (L : ℕ)
    (input : List KeyEvent) (m : Mapper) (pending : List KeyEvent) : Prop where
  tracked : m.Tracked env H
  states_eq : m.states[L]? = some states
  layer_eq : m.curLayerIdx = L
  map_eq : m.basicMaps[L]? = some []
  paused_eq : m.paused = false
  stream : ∃ ext held, m.history = start ++ ext ∧ (∀ moment ∈ ext, moment.KeepsOrder) ∧
    m.heldBack = held.map .key ∧ queuedKeys ext ++ held ++ pending = input

namespace Streaming

variable {env : Env} {H : QHash} {start : List Moment} {layer : Layer} {states : List State} {L : ℕ}
  {input pending : List KeyEvent} {m m' : Mapper} {e : KeyEvent} {redo : List InputEvent}

theorem frame (h : Streaming env H start states L input m pending) (hsame : m.SameStage m')
    (htracked : m'.Tracked env H) : Streaming env H start states L input m' pending where
  tracked := htracked
  states_eq := by rw [hsame.states_eq, h.states_eq]
  layer_eq := hsame.layer_eq.trans h.layer_eq
  map_eq := by rw [hsame.basicMaps_eq, h.map_eq]
  paused_eq := hsame.paused_eq.trans h.paused_eq
  stream := by
    obtain ⟨ext, held, hstart, hkeeps, hheld, hinput⟩ := h.stream
    refine ⟨ext, held, hsame.history_eq.trans hstart, hkeeps, ?_, hinput⟩
    rw [← hheld, Mapper.heldBack_of_sameStage hsame]

theorem assigned (h : Streaming env H start states L input m pending)
    (hstart : recent start = []) : ∀ moment ∈ recent m.history, moment.Assigned := by
  obtain ⟨ext, held, hhistory, hkeeps, -⟩ := h.stream
  intro moment hmoment
  have hrecent : recent m.history = recent ext := by
    rw [hhistory, recent, List.foldl_append, ← recent, hstart, ← recent]
  have hkept := hkeeps moment (recent_subset ext moment (hrecent ▸ hmoment))
  cases moment with
  | taken => exact hkept.1
  | _ => trivial

theorem spelled (h : Streaming env H start states L input m pending) (hstart : recent start = [])
    (M : StraightMachine H layer states) : ∃ p held, M.places[m.curStateIdx]? = some p ∧
      m.heldBack = held.map .key ∧ (p = [] → held = []) ∧
      (p ≠ [] → Spelled (held.map .key) p ∧ m.heldBack = consumed m.history) := by
  obtain ⟨ext, held, -, -, hheld, -⟩ := h.stream
  have hrun := h.tracked.run states (by rw [h.layer_eq, h.states_eq])
  obtain ⟨p, hp, hwalk⟩ := M.walk_of_run hrun (h.assigned hstart)
  refine ⟨p, held, hp, hheld, fun hhome ↦ ?_, fun hne ↦ ?_⟩
  · rw [Mapper.heldBack, if_pos ((M.idx_eq_home_iff hp).mpr hhome)] at hheld
    simpa using hheld.symm
  · have hconsumed : m.heldBack = consumed m.history := by
      rw [Mapper.heldBack, if_neg (M.idx_ne_home hp hne)]
    refine ⟨?_, hconsumed⟩
    rw [← hheld, hconsumed, ← consumed_recent]
    exact M.spelled_of_walk hwalk hne

/-- Firing a transition without binds keeps the stream, when what it emits,
what is then held and what is then pending make up what was held and
pending. -/
theorem fired {m₁ : Mapper} {polls : List Moment} {prevEvent : Option InputEvent}
    {transition : Transition} {held held' pending' : List KeyEvent}
    (h : Streaming env H start states L input m pending) (hsame : m.SameMachines m₁)
    (hlayer : m₁.curLayerIdx = m.curLayerIdx) (hhistory : m₁.history = m.history ++ polls)
    (hpolls : queuedKeys polls = []) (hbinds : ∀ b, .bind b ∉ transition.outputs)
    (hfire : m₁.fire env H transition prevEvent = .ok (m', redo)) (htracked : m'.Tracked env H)
    (hkeeps : Orderly start m') (hheld : m.heldBack = held.map .key)
    (hheld' : m'.heldBack = held'.map .key)
    (hstream : Mapper.translated prevEvent transition ++ held' ++ pending' = held ++ pending) :
    Streaming env H start states L input m' pending' := by
  obtain ⟨ext, held₀, hstart, -, hheld₀, hinput⟩ := h.stream
  obtain rfl : held₀ = held := by
    rw [hheld] at hheld₀
    exact (List.map_injective_iff.mpr (fun e e' he ↦ InputEvent.key.inj he) hheld₀).symm
  have hmap : m₁.basicMaps[m₁.curLayerIdx]? = some [] := by
    rw [hsame.basicMaps_eq, hlayer, h.layer_eq, h.map_eq]
  obtain ⟨hqueued, -⟩ := Mapper.fire_plain hmap hbinds hfire
  obtain ⟨queued, hqueue, hkeys⟩ := hqueued.exists_ext
  have hext : m'.history = start ++ (ext ++ polls ++
      .taken m₁.curLayerIdx m₁.curStateIdx prevEvent (env.clock m₁.instant) transition :: queued) := by
    rw [hqueue, Mapper.enter]
    simp [hhistory, hstart]
  refine ⟨htracked, ?_, hqueued.layer_eq.trans (hlayer.trans h.layer_eq), ?_,
    hqueued.paused_eq.trans (hsame.paused_eq.trans h.paused_eq), _, held', hext, hkeeps _ hext,
    hheld', ?_⟩
  · rw [hqueued.states_eq, ← h.states_eq, ← hsame.states_eq]
    rfl
  · rw [hqueued.basicMaps_eq, ← h.map_eq, ← hsame.basicMaps_eq]
    rfl
  · have htaken : queuedKeys (.taken m₁.curLayerIdx m₁.curStateIdx prevEvent
        (env.clock m₁.instant) transition :: queued) = queuedKeys queued := rfl
    rw [queuedKeys_append, queuedKeys_append, hpolls, htaken, hkeys, List.append_nil,
      ← hinput]
    simp only [List.append_assoc] at hstream ⊢
    rw [hstream]

theorem react (hstart : recent start = []) (M : StraightMachine H layer states)
    (hdefault : ∀ s ∈ layer.sequenceRemappings, s.behavior = .default)
    (h : Streaming env H start states L input m (e :: pending))
    (hreact : m.react env H (.key e) = .ok (m', redo)) (hkeeps : Orderly start m') :
    ∃ later, redo = later.map .key ∧
      Streaming env H start states L input m' (later ++ pending) := by
  obtain ⟨p, held, hp, hheld, hhome, hne⟩ := h.spelled hstart M
  have htracked := h.tracked.acts (Mapper.acts_of_react hreact)
  have hmap : m.basicMaps[m.curLayerIdx]? = some [] := by rw [h.layer_eq, h.map_eq]
  rw [Mapper.react, h.paused_eq] at hreact
  obtain ⟨state, hstate, hfire⟩ := Exits.bind_eq_ok.mp hreact
  obtain ⟨states', hstates', hidx⟩ := Mapper.curState_eq_ok hstate
  obtain rfl : states' = states := by
    rw [h.layer_eq, h.states_eq] at hstates'
    exact (Option.some.inj hstates').symm
  have hpre := ((h.tracked.input hstate (.key e)).traced (Mapper.acts_of_fire hfire)).1
  obtain ⟨hnew, howner, hredo⟩ := hkeeps.taken
    (by obtain ⟨ext, held, hext, -⟩ := h.stream; exact hext ▸ List.prefix_append _ _) hpre
  have hsame : m.SameMachines m := ⟨rfl, rfl, rfl, rfl⟩
  rcases M.input_cases hp hidx (.key e) with ⟨y, hy, -, hedge⟩ | ⟨-, hfallback⟩
  · rw [hedge] at hfire howner
    obtain ⟨houtputs, hlast⟩ := M.outputs_of_edge hdefault (Trie.mem_edgesAt.mp hy).1 howner
    have hbinds : ∀ b, .bind b ∉ (M.edge y).outputs := by simp [houtputs]
    have hn : (M.edge y).newState = some (Numbering.number M.places y.tgt) := rfl
    have htgt : y.tgt = y.dest := by simpa [hlast] using M.straight.tgt y (Trie.mem_edgesAt.mp hy).1
    have hnumber := M.place_of_edge (Trie.mem_edgesAt.mp hy).1 hn
    have hheld' : m'.heldBack = (held ++ [e]).map .key := by
      rw [Mapper.heldBack_of_fire hmap hbinds hn hfire,
        if_neg (M.idx_ne_home hnumber (htgt ▸ y.dest_ne_nil)), consumed_taken, List.map_append]
      split
      · rename_i hidx
        rw [hhome ((M.idx_eq_home_iff hp).mp hidx)]
        rfl
      · rename_i hidx
        rw [← hheld, (hne fun hp' ↦ hidx ((M.idx_eq_home_iff hp).mpr hp')).2]
        rfl
    refine ⟨[], (Mapper.fire_plain hmap hbinds hfire).2.trans (Mapper.redos_edge _ y), ?_⟩
    refine h.fired hsame rfl (List.append_nil _).symm rfl hbinds hfire htracked hkeeps hheld hheld' ?_
    simp [Mapper.translated, houtputs]
  · rw [hfallback] at hfire hnew hredo
    obtain ⟨n, hn⟩ := Option.ne_none_iff_exists'.mp hnew
    obtain rfl := (M.idx_eq_home_iff (M.place_of_fallback (List.mem_of_getElem? hp) hn)).mpr rfl
    have hbinds := M.bind_notMem_fallback (p := p)
    have hheld' : m'.heldBack = ([] : List KeyEvent).map .key := by
      rw [Mapper.heldBack_of_fire hmap hbinds hn hfire, if_pos rfl]
      rfl
    obtain ⟨first, later, rfl, hfirst, hlater⟩ :=
      M.fallback_gives_back hdefault hnew hhome (fun hp' ↦ (hne hp').1) (some e)
    rw [Option.map_some] at hfirst hlater
    refine ⟨later, (Mapper.fire_plain hmap hbinds hfire).2.trans hlater, ?_⟩
    refine h.fired hsame rfl (List.append_nil _).symm rfl hbinds hfire htracked hkeeps hheld hheld' ?_
    -- All that is fed again is the mismatching key itself.
    have hall : later = List.replicate later.length e := by
      refine List.eq_replicate_of_mem fun k hk ↦ ?_
      exact InputEvent.key.inj (hredo _ rfl (.key k) (hlater ▸ List.mem_map_of_mem hk))
    have hcommute : e :: later = later ++ [e] := by
      rw [hall, ← List.replicate_succ, ← List.replicate_succ']
    rw [hfirst, List.append_nil, Option.toList_some]
    calc first ++ [e] ++ (later ++ pending) = first ++ (e :: later) ++ pending := by simp
      _ = first ++ later ++ e :: pending := by rw [hcommute]; simp

theorem expire (hstart : recent start = []) (M : StraightMachine H layer states)
    (hdefault : ∀ s ∈ layer.sequenceRemappings, s.behavior = .default)
    (h : Streaming env H start states L input m []) {state : State} {transition : Transition}
    (hstate : m.curState = .ok state) (ht : state.timerTransition = some transition)
    (hexpired : m.Expired env) (hfire : (m.checked env).fire env H transition none = .ok (m', redo))
    (hkeeps : Orderly start m') :
    ∃ later, redo = later.map .key ∧ Streaming env H start states L input m' later := by
  obtain ⟨p, held, hp, hheld, hhome, hne⟩ := h.spelled hstart M
  have hentered := h.tracked.expire hstate ht hexpired
  have htracked := hentered.acts (Mapper.acts_of_fire hfire)
  have hmap : (m.checked env).basicMaps[(m.checked env).curLayerIdx]? = some [] := by
    rw [← h.map_eq, ← h.layer_eq]
    rfl
  obtain ⟨states', hstates', hidx⟩ := Mapper.curState_eq_ok hstate
  obtain rfl : states' = states := by
    rw [h.layer_eq, h.states_eq] at hstates'
    exact (Option.some.inj hstates').symm
  have hpre := (hentered.traced (Mapper.acts_of_fire hfire)).1
  obtain ⟨hnew, howner, -⟩ := hkeeps.taken (by
    obtain ⟨ext, held, hext, -⟩ := h.stream
    rw [Mapper.checked, hext, List.append_assoc]
    exact List.prefix_append _ _) hpre
  have hsame : m.SameMachines (m.checked env) := ⟨rfl, rfl, rfl, rfl⟩
  obtain ⟨x, hx, hmem, rfl, hdest, rfl⟩ := M.timer_cases hp hidx ht
  have hne' : x.tgt ≠ [] := hdest ▸ x.dest_ne_nil
  rcases M.reaction_cases x with ⟨hmid, hreaction⟩ | hreaction | hsome
  · have hbinds : ∀ b, .bind b ∉ (M.reaction x).outputs := by simp [hreaction]
    have hn : (M.reaction x).newState = some (Numbering.number M.places x.timerPlace) := by
      rw [hreaction]
    have hnumber := M.place_of_reaction hx hn
    have hheld' : m'.heldBack = held.map .key := by
      rw [Mapper.heldBack_of_fire hmap hbinds hn hfire, if_neg (M.idx_ne_home hnumber (by
        simp [Placement.timerPlace_of_midWait hmid])), consumed_taken]
      have hidx' : (m.checked env).curStateIdx ≠ homeStateIdx := M.idx_ne_home hp hne'
      rw [if_neg hidx', Mapper.checked, consumed_poll, ← (hne hne').2, hheld]
      simp
    refine ⟨[], (Mapper.fire_plain hmap hbinds hfire).2.trans (by simp [Mapper.redos, hreaction]), ?_⟩
    refine h.fired hsame rfl rfl rfl hbinds hfire htracked hkeeps hheld hheld' ?_
    simp [Mapper.translated, hreaction]
  · rw [hreaction] at hfire hnew
    obtain ⟨n, hn⟩ := Option.ne_none_iff_exists'.mp hnew
    obtain rfl := (M.idx_eq_home_iff (M.place_of_fallback (List.mem_of_getElem? hp) hn)).mpr rfl
    have hbinds := M.bind_notMem_fallback (p := x.tgt)
    have hheld' : m'.heldBack = ([] : List KeyEvent).map .key := by
      rw [Mapper.heldBack_of_fire hmap hbinds hn hfire, if_pos rfl]
      rfl
    obtain ⟨first, later, rfl, hfirst, hlater⟩ :=
      M.fallback_gives_back hdefault hnew hhome (fun hp' ↦ (hne hp').1) none
    rw [Option.map_none] at hfirst hlater
    refine ⟨later, (Mapper.fire_plain hmap hbinds hfire).2.trans hlater, ?_⟩
    refine h.fired hsame rfl rfl rfl hbinds hfire htracked hkeeps hheld hheld' ?_
    simp [hfirst]
  · exact (hsome howner).elim

theorem checked (h : Streaming env H start states L input m pending) {state : State}
    (hstate : m.curState = .ok state) (hquiet : m.Expired env → state.timerTransition = none) :
    Streaming env H start states L input (m.checked env) pending where
  tracked := h.tracked.quiet hstate hquiet
  states_eq := h.states_eq
  layer_eq := h.layer_eq
  map_eq := h.map_eq
  paused_eq := h.paused_eq
  stream := by
    obtain ⟨ext, held, hhistory, hkeeps, hheld, hinput⟩ := h.stream
    refine ⟨ext ++ [.poll (env.clock m.instant)], held, ?_, ?_, ?_, ?_⟩
    · rw [Mapper.checked, hhistory, List.append_assoc]
    · intro moment hmoment
      rcases List.mem_append.mp hmoment with hmoment | hmoment
      · exact hkeeps moment hmoment
      · obtain rfl := List.mem_singleton.mp hmoment
        trivial
    · rw [← hheld, Mapper.heldBack, Mapper.heldBack, Mapper.checked, consumed_poll]
    · rw [queuedKeys_append, ← hinput]
      simp [queuedKeys]

theorem read (h : Streaming env H start states L input m []) (e : KeyEvent) :
    Streaming env H start states L (input ++ [e]) m [e] where
  tracked := h.tracked
  states_eq := h.states_eq
  layer_eq := h.layer_eq
  map_eq := h.map_eq
  paused_eq := h.paused_eq
  stream := by
    obtain ⟨ext, held, hhistory, hkeeps, hheld, hinput⟩ := h.stream
    exact ⟨ext, held, hhistory, hkeeps, hheld, by rw [← hinput, List.append_nil]⟩

end Streaming

section Iterations

variable {env : Env} {H : QHash} {start : List Moment} {layer : Layer} {states : List State} {L : ℕ}
  {input : List KeyEvent} {m m' : Mapper} {fuel : ℕ}

theorem Orderly.of_acts (h : Orderly start m') (hm : m.Tracked env H)
    (hacts : Mapper.Acts env H m m') : Orderly start m := by
  obtain ⟨rest, hrest⟩ := (hm.traced hacts).1
  intro ext hext moment hmoment
  refine h (ext ++ rest) ?_ moment (List.mem_append_left _ hmoment)
  rw [← hrest, hext, List.append_assoc]

/-- The mapper has processed the input up to the pending events, and if it
kept the order its stream is kept. -/
structure Processing (env : Env) (H : QHash) (start : List Moment) (states : List State) (L : ℕ)
    (input : List KeyEvent) (m : Mapper) (pending : List InputEvent) : Prop where
  tracked : m.Tracked env H
  start_prefix : start <+: m.history
  streaming : Orderly start m → ∃ keys, pending = keys.map .key ∧
    Streaming env H start states L input m keys

namespace Processing

variable {pending : List InputEvent}

/-- What an act does to the stream is shown for orderly histories only. -/
theorem of_acts (h : Processing env H start states L input m pending)
    (hacts : Mapper.Acts env H m m') {pending' : List InputEvent} {input' : List KeyEvent}
    (hstep : ∀ keys, pending = keys.map .key → Orderly start m' →
      Streaming env H start states L input m keys → ∃ keys', pending' = keys'.map .key ∧
        Streaming env H start states L input' m' keys') :
    Processing env H start states L input' m' pending' where
  tracked := h.tracked.acts hacts
  start_prefix := h.start_prefix.trans (h.tracked.traced hacts).1
  streaming hkeeps := by
    obtain ⟨keys, hkeys, hstreaming⟩ :=
      h.streaming (hkeeps.of_acts h.tracked hacts)
    exact hstep keys hkeys hkeeps hstreaming

theorem frame (h : Processing env H start states L input m pending)
    (hact : Mapper.Act env H m m') (hsame : m.SameStage m') :
    Processing env H start states L input m' pending :=
  h.of_acts (.single hact) fun keys hkeys _ hstreaming ↦
    ⟨keys, hkeys, hstreaming.frame hsame (hstreaming.tracked.act hact)⟩

variable (hstart : recent start = []) (M : StraightMachine H layer states)
  (hdefault : ∀ s ∈ layer.sequenceRemappings, s.behavior = .default)

include hstart M hdefault

theorem feeds (h : Processing env H start states L input m pending)
    (hfeeds : Refeed.Feeds (Mapper.react env H) m pending m') :
    Processing env H start states L input m' [] := by
  refine hfeeds.rule (J := Processing env H start states L input) ?_ h
  intro m₁ m₂ e redo rest h₁ hreact
  refine h₁.of_acts (Mapper.acts_of_react hreact) fun keys hkeys hkeeps hstreaming ↦ ?_
  cases keys with
  | nil => cases hkeys
  | cons k keys =>
      obtain ⟨rfl, rfl⟩ := List.cons.inj hkeys
      obtain ⟨later, rfl, hlater⟩ := hstreaming.react hstart M hdefault hreact hkeeps
      exact ⟨later ++ keys, by simp, hlater⟩

theorem checkTimer (h : Processing env H start states L input m [])
    (hcheck : m.checkTimer env H fuel = .ok m') :
    Processing env H start states L input m' [] := by
  obtain ⟨state, hstate, ⟨hquiet, rfl⟩ | ⟨transition, m₁, redo, hexpired, ht, hfire, hredo⟩⟩ :=
    Mapper.checkTimer_cases hcheck
  · refine h.of_acts (.single (.quiet hstate hquiet)) fun keys hkeys _ hstreaming ↦ ?_
    exact ⟨keys, hkeys, hstreaming.checked hstate hquiet⟩
  · have hacts := (Mapper.acts_of_fire hfire).head (Mapper.Act.expire hstate ht hexpired)
    have hfired : Processing env H start states L input m₁ redo := by
      refine h.of_acts hacts fun keys hkeys hkeeps hstreaming ↦ ?_
      obtain rfl : keys = [] := by simpa using hkeys.symm
      exact hstreaming.expire hstart M hdefault hstate ht hexpired hfire hkeeps
    exact hfired.feeds hstart M hdefault (Mapper.feeds_of_foldlM_processInput hredo)

theorem loopBody (h : Processing env H start states L input m []) {key : Option KeyEvent}
    (hbody : m.loopBody env H fuel (key.map .key) = .ok m') :
    Processing env H start states L (input ++ key.toList) m' [] := by
  obtain ⟨m₁, hcheck, hbody⟩ := Exits.bind_eq_ok.mp hbody
  have h₁ := h.checkTimer hstart M hdefault hcheck
  cases key with
  | none =>
      cases hbody
      simpa using h₁.frame (.emit m₁) (Mapper.sameStage_checkQueuedEvents env m₁)
  | some e =>
      obtain ⟨m₂, hinput, hm'⟩ := Exits.bind_eq_ok.mp hbody
      cases hm'
      have hcount := h₁.frame (.count m₁ (.key e)) (Mapper.sameStage_countKey env m₁ (.key e))
      have hread : Processing env H start states L (input ++ [e]) (m₁.countKey env (.key e))
          [.key e] := by
        refine hcount.of_acts .refl fun keys hkeys _ hstreaming ↦ ⟨[e], rfl, ?_⟩
        obtain rfl : keys = [] := by simpa using hkeys.symm
        exact hstreaming.read e
      have hfed := hread.feeds hstart M hdefault (Mapper.feeds_of_processInput hinput)
      have hprocessed := hfed.frame (.processed m₂) ⟨⟨rfl, rfl, rfl, rfl⟩, rfl, rfl, rfl, rfl⟩
      exact hprocessed.frame (.emit _) (Mapper.sameStage_checkQueuedEvents env _)

theorem iterate (h : Processing env H start states L input m []) {keys : List (Option KeyEvent)}
    (hiterate : m.iterate env H fuel (keys.map (Option.map .key)) = .ok m') :
    Processing env H start states L (input ++ keys.reduceOption) m' [] := by
  induction keys generalizing m input with
  | nil =>
      cases hiterate
      simpa using h
  | cons key keys ih =>
      rw [List.map_cons, Mapper.iterate] at hiterate
      obtain ⟨m₁, hbody, hrest⟩ := Exits.foldlM_cons_eq_ok.mp hiterate
      have hnext := ih (h.loopBody hstart M hdefault hbody) hrest
      cases key <;> simpa using hnext

end Processing

end Iterations

/-- The keys queued since `start`, followed by the events held back, are the
input. -/
def StreamKept (start : List Moment) (m : Mapper) (input : List KeyEvent) : Prop :=
  ∃ ext, m.history = start ++ ext ∧ (queuedKeys ext).map .key ++ m.heldBack = input.map .key

/-- In a run that keeps the order at every step the typed stream is
preserved. -/
theorem Mapper.iterate_streamKept (env : Env) (H : QHash) (fuel : ℕ) {layer : Layer}
    {basicMap : List (InputEvent × List Bind)} {states : List State} {m m' : Mapper}
    {keys : List (Option KeyEvent)} (hcompile : compileLayer H layer = .ok (basicMap, states))
    (hplain : layer.basicRemappings = [])
    (hdefault : ∀ s ∈ layer.sequenceRemappings, s.behavior = .default) (hsep : layer.Separated)
    (hmap : m.basicMaps[m.curLayerIdx]? = some basicMap)
    (hstates : m.states[m.curLayerIdx]? = some states) (hhome : m.AtHome)
    (hiterate : m.iterate env H fuel (keys.map (Option.map .key)) = .ok m')
    (hkeeps : Orderly m.history m') : StreamKept m.history m' keys.reduceOption := by
  obtain ⟨hbuild, hgenerate⟩ := compileLayer_eq_ok hcompile
  obtain rfl : basicMap = [] := by simpa [hplain] using buildBasicMap_eq hbuild
  obtain ⟨M⟩ := exists_straightMachine hgenerate hsep.keptApart
  have hstreaming : Streaming env H m.history states m.curLayerIdx [] m [] := by
    refine ⟨hhome.tracked, hstates, rfl, hmap, hhome.paused_eq, [], [], by simp, by simp, ?_, rfl⟩
    rw [heldBack, if_pos hhome.state_eq]
    rfl
  have hprocessing : Processing env H m.history states m.curLayerIdx [] m [] :=
    ⟨hhome.tracked, List.prefix_refl _, fun _ ↦ ⟨[], rfl, hstreaming⟩⟩
  obtain ⟨keys', hkeys', hfinal⟩ :=
    (hprocessing.iterate hhome.recent_eq M hdefault hiterate).streaming hkeeps
  obtain rfl : keys' = [] := by simpa using hkeys'.symm
  obtain ⟨ext, held, hhistory, -, hheld, hinput⟩ := hfinal.stream
  refine ⟨ext, hhistory, ?_⟩
  rw [hheld, ← List.map_append, ← List.append_nil (queuedKeys ext ++ held), hinput,
    List.nil_append]

/-- Three keys in a row. -/
def chordLayer : Layer where
  layerName := "chord"
  basicRemappings := []
  sequenceRemappings :=
    [⟨.default, [.keyPress .a, .keyPress .b, .keyPress .c], [.pressKey .y]⟩]

/-- The third of three keys overtakes the second. -/
theorem chordLayer_reordered : ∃ m m',
    Mapper.new (.first _) ⟨"chord", [chordLayer], 0⟩ false = .ok m ∧ m.AtHome ∧
    m.iterate .still (.first _) 2 [some (.key ⟨.a, .press⟩), some (.key ⟨.b, .press⟩),
      some (.key ⟨.x, .press⟩)] = .ok m' ∧
    (∀ moment ∈ m'.history, moment.owner = none) ∧
    ¬ StreamKept m.history m' [⟨.a, .press⟩, ⟨.b, .press⟩, ⟨.x, .press⟩] := by
  obtain ⟨m, m', hnew, hhome, hiterate, howner, hold, hqueued, hheld⟩ : ∃ m m',
      Mapper.new (.first _) ⟨"chord", [chordLayer], 0⟩ false = .ok m ∧ m.AtHome ∧
      m.iterate .still (.first _) 2 [some (.key ⟨.a, .press⟩), some (.key ⟨.b, .press⟩),
        some (.key ⟨.x, .press⟩)] = .ok m' ∧
      (∀ moment ∈ m'.history, moment.owner = none) ∧ queuedKeys m.history = [] ∧
      queuedKeys m'.history = [⟨.a, .press⟩, ⟨.x, .press⟩, ⟨.b, .press⟩] ∧ m'.heldBack = [] := by
    refine ⟨_, _, rfl, ⟨rfl, rfl, rfl, rfl⟩, rfl, ?_, rfl, ?_, ?_⟩
    · rw [Mapper.history_checkQueuedEvents]
      decide
    · rw [Mapper.history_checkQueuedEvents]
      decide
    · rw [Mapper.heldBack_of_sameStage (Mapper.sameStage_checkQueuedEvents _ _)]
      decide
  refine ⟨m, m', hnew, hhome, hiterate, howner, ?_⟩
  rintro ⟨ext, hhistory, hstream⟩
  rw [hhistory, queuedKeys_append, hold, List.nil_append] at hqueued
  rw [hqueued, hheld] at hstream
  exact absurd hstream (by decide)

/-- When the third key is the second again, the order does not matter. -/
theorem iterate_streamKept_repeated : ∃ m m',
    Mapper.new (.first _) ⟨"chord", [chordLayer], 0⟩ false = .ok m ∧
    m.iterate .still (.first _) 2 [some (.key ⟨.a, .press⟩), some (.key ⟨.b, .press⟩),
      some (.key ⟨.b, .press⟩)] = .ok m' ∧
    StreamKept m.history m' [⟨.a, .press⟩, ⟨.b, .press⟩, ⟨.b, .press⟩] := by
  obtain ⟨m, m', basicMap, states, hnew, hcompile, hmap, hstates, hhome, hiterate, hkeeps⟩ :
      ∃ m m' basicMap states, Mapper.new (.first _) ⟨"chord", [chordLayer], 0⟩ false = .ok m ∧
        Mapper.compileLayer (.first _) chordLayer = .ok (basicMap, states) ∧
        m.basicMaps[m.curLayerIdx]? = some basicMap ∧ m.states[m.curLayerIdx]? = some states ∧
        m.AtHome ∧ m.iterate .still (.first _) 2 [some (.key ⟨.a, .press⟩),
          some (.key ⟨.b, .press⟩), some (.key ⟨.b, .press⟩)] = .ok m' ∧
        ∀ moment ∈ m'.history, moment.KeepsOrder := by
    refine ⟨_, _, _, _, rfl, rfl, rfl, rfl, ⟨rfl, rfl, rfl, rfl⟩, rfl, ?_⟩
    rw [Mapper.history_checkQueuedEvents]
    decide
  have hkept := @Mapper.iterate_streamKept .still (.first _) 2 chordLayer basicMap states m m'
    [some ⟨.a, .press⟩, some ⟨.b, .press⟩, some ⟨.b, .press⟩] hcompile rfl (by decide) (by decide)
    hmap hstates hhome hiterate
    fun ext hext moment hmoment ↦ hkeeps moment (hext ▸ List.mem_append_right _ hmoment)
  exact ⟨m, m', hnew, hiterate, hkept⟩

end Keybinder

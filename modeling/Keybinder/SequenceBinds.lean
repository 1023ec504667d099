import Mathlib.Data.Nat.ModEq
import Keybinder.MapperIndices
import Keybinder.OutputOrder

/-!
# The binds of sequences and of basic remappings

A basic remapping hands all its binds to `queue_binds`, which adds up the
delays of the waits on its way.  The transition that completes a sequence
hands over its binds one by one, each time with a delay that starts from
zero.  So the two queue the same outputs at the same times only when no
delay has come up before an output.
-/

namespace Keybinder

namespace Bind

def delayAfter : Bind → ℕ → ℕ
  | .wait ms, delayMs => addU64 delayMs ms
  | _, delayMs => delayMs

def layerAfter : Bind → ℕ → ℕ
  | .swapLayer newLayer, _ => newLayer
  | _, layer => layer

/-- What a bind adds to the queue at a time, after a delay. -/
def queuedAt (t delayMs : ℕ) (b : Bind) : List (ℕ × OutputEvent) :=
  b.output.toList.map fun e ↦ (addU64 t delayMs, e)

end Bind

/-- What a list of binds adds to the queue at a time, after a delay. -/
def scheduled (t : ℕ) : ℕ → List Bind → List (ℕ × OutputEvent)
  | _, [] => []
  | delayMs, b :: binds => b.queuedAt t delayMs ++ scheduled t (b.delayAfter delayMs) binds

/-- Whenever a bind of the list has an output, the waits before it are as
long as none. -/
def WaitsLast (binds : List Bind) : Prop :=
  ∀ before b after, binds = before ++ b :: after → b.output.isSome = true →
    totalDelay before % uint64Size = 0

theorem queuedAt_eq_iff {t delayMs : ℕ} {b : Bind} : b.queuedAt t 0 = b.queuedAt t delayMs ↔
    (b.output.isSome = true → delayMs % uint64Size = 0) := by
  have hsum : addU64 t 0 = addU64 t delayMs ↔ delayMs % uint64Size = 0 := by
    have hcancel : t + 0 ≡ t + delayMs [MOD uint64Size] ↔ 0 ≡ delayMs [MOD uint64Size] :=
      ⟨Nat.ModEq.add_left_cancel' t, Nat.ModEq.add_left t⟩
    have hzero : 0 ≡ delayMs [MOD uint64Size] ↔ delayMs % uint64Size = 0 := by
      rw [Nat.ModEq, Nat.zero_mod, eq_comm]
    exact hcancel.trans hzero
  cases houtput : b.output with
  | none => simp [Bind.queuedAt, houtput]
  | some e => simp [Bind.queuedAt, houtput, hsum]

theorem delayAfter_mod (b : Bind) (delayMs : ℕ) :
    b.delayAfter delayMs ≡ delayMs + b.delay [MOD uint64Size] := by
  cases b with
  | wait ms => exact Nat.mod_modEq _ _
  | pressKey keyCode => rfl
  | releaseKey keyCode => rfl
  | swapLayer newLayer => rfl
  | runScript s => rfl

theorem scheduled_eq_iff (t delayMs : ℕ) (binds : List Bind) :
    binds.flatMap (Bind.queuedAt t 0) = scheduled t delayMs binds ↔
      ∀ before b after, binds = before ++ b :: after → b.output.isSome = true →
        (delayMs + totalDelay before) % uint64Size = 0 := by
  induction binds generalizing delayMs with
  | nil => simp [scheduled]
  | cons b binds ih =>
      have hlength : (b.queuedAt t 0).length = (b.queuedAt t delayMs).length := by
        simp [Bind.queuedAt]
      have hmod : ∀ before, (b.delayAfter delayMs + totalDelay before) % uint64Size =
          (delayMs + totalDelay (b :: before)) % uint64Size := by
        intro before
        have hadd := (delayAfter_mod b delayMs).add_right (totalDelay before)
        have htotal : totalDelay (b :: before) = b.delay + totalDelay before := by
          simp [totalDelay]
        rw [htotal, ← Nat.add_assoc]
        exact hadd
      have hsplit : b.queuedAt t 0 ++ binds.flatMap (Bind.queuedAt t 0) =
          b.queuedAt t delayMs ++ scheduled t (b.delayAfter delayMs) binds ↔
            b.queuedAt t 0 = b.queuedAt t delayMs ∧
              binds.flatMap (Bind.queuedAt t 0) = scheduled t (b.delayAfter delayMs) binds := by
        constructor
        · exact fun h ↦ List.append_inj h hlength
        · rintro ⟨hb, hrest⟩
          rw [hb, hrest]
      rw [List.flatMap_cons, scheduled, hsplit, queuedAt_eq_iff, ih]
      simp only [hmod]
      constructor
      · rintro ⟨hb, hrest⟩ before b' after heq houtput
        cases before with
        | nil =>
            obtain ⟨rfl, -⟩ := List.cons.inj heq
            simpa [totalDelay] using hb houtput
        | cons b'' before =>
            obtain ⟨rfl, hrest'⟩ := List.cons.inj heq
            exact hrest before b' after hrest' houtput
      · intro h
        refine ⟨fun houtput ↦ ?_, fun before b' after heq houtput ↦ ?_⟩
        · simpa [totalDelay] using h [] b binds rfl houtput
        · exact h (b :: before) b' after (by rw [heq, List.cons_append]) houtput

/-! ## The two ways to execute a list of binds -/

namespace Mapper

/-- The mapper has queued some outputs and is in a layer. -/
structure HasQueued (m : Mapper) (queued : List (ℕ × OutputEvent)) (layer : ℕ) (m' : Mapper) :
    Prop where
  queue : m'.queuedEvents = m.queuedEvents ++ queued
  layer_eq : m'.curLayerIdx = layer
  profile_eq : m'.profile = m.profile

theorem HasQueued.trans {m m₁ m' : Mapper} {queued queued' : List (ℕ × OutputEvent)}
    {layer layer' : ℕ} (h : m.HasQueued queued layer m₁) (h' : m₁.HasQueued queued' layer' m') :
    m.HasQueued (queued ++ queued') layer' m' :=
  ⟨by rw [h'.queue, h.queue, List.append_assoc], h'.layer_eq, h'.profile_eq.trans h.profile_eq⟩

section

variable {env : Env} {t : ℕ} (hclock : ∀ n, env.clock n = t)

include hclock

theorem queueBind_hasQueued {m : Mapper} {b : Bind} (hrange : b.InRange m.profile.layers.length)
    (delayMs : ℕ) : ∃ m', queueBind env (m, delayMs) b = .ok (m', b.delayAfter delayMs) ∧
      m.HasQueued (b.queuedAt t delayMs) (b.layerAfter m.curLayerIdx) m' := by
  have houtput : ∀ e, m.HasQueued [(addU64 t delayMs, e)] m.curLayerIdx
      (m.queueOutput env e delayMs) := by
    intro e
    exact ⟨by rw [queueOutput, hclock], rfl, rfl⟩
  cases b with
  | pressKey keyCode => exact ⟨_, rfl, houtput _⟩
  | releaseKey keyCode => exact ⟨_, rfl, houtput _⟩
  | swapLayer newLayer =>
      obtain ⟨m', hset⟩ := setLayerInner_of_lt (m := m) hrange
      refine ⟨m', by simp [queueBind, hset, Bind.delayAfter], ?_⟩
      obtain ⟨announced, rfl⟩ := setLayerInner_spec hset
      exact ⟨by simp [Bind.queuedAt, Bind.output], rfl, rfl⟩
  | wait ms => exact ⟨m, rfl, by simp [Bind.queuedAt, Bind.output], rfl, rfl⟩
  | runScript s => exact ⟨_, rfl, houtput _⟩

theorem queueBinds_hasQueued {m : Mapper} {binds : List Bind}
    (hrange : ∀ b ∈ binds, b.InRange m.profile.layers.length) :
    ∃ m', m.queueBinds env binds = .ok m' ∧
      m.HasQueued (scheduled t 0 binds) (binds.foldl (fun l b ↦ b.layerAfter l) m.curLayerIdx)
        m' := by
  have hfold : ∀ delayMs, ∃ m' delayMs', binds.foldlM (queueBind env) (m, delayMs) =
      .ok (m', delayMs') ∧ m.HasQueued (scheduled t delayMs binds)
        (binds.foldl (fun l b ↦ b.layerAfter l) m.curLayerIdx) m' := by
    induction binds generalizing m with
    | nil => exact fun delayMs ↦ ⟨m, delayMs, rfl, by simp [scheduled], rfl, rfl⟩
    | cons b binds ih =>
        intro delayMs
        obtain ⟨m₁, hb, hm₁⟩ := queueBind_hasQueued hclock (hrange b (by simp)) delayMs
        obtain ⟨m', delayMs', hrest, hm'⟩ := ih (m := m₁)
          (fun b' hb' ↦ by
            rw [hm₁.profile_eq]
            exact hrange b' (List.mem_cons_of_mem _ hb')) (b.delayAfter delayMs)
        rw [hm₁.layer_eq] at hm'
        exact ⟨m', delayMs', Exits.foldlM_cons_eq_ok.mpr ⟨_, hb, hrest⟩, hm₁.trans hm'⟩
  obtain ⟨m', delayMs', hfold, hm'⟩ := hfold 0
  exact ⟨m', by simp [queueBinds, hfold], hm'⟩

theorem runOutput_binds {H : QHash} {m : Mapper} {binds : List Bind}
    (hrange : ∀ b ∈ binds, b.InRange m.profile.layers.length) (prevEvent : Option InputEvent)
    (eventsToRedo : List InputEvent) :
    ∃ m', (binds.map .bind).foldlM (runOutput env H prevEvent) (m, eventsToRedo) =
        .ok (m', eventsToRedo) ∧
      m.HasQueued (binds.flatMap (Bind.queuedAt t 0))
        (binds.foldl (fun l b ↦ b.layerAfter l) m.curLayerIdx) m' := by
  induction binds generalizing m with
  | nil => exact ⟨m, rfl, by simp, rfl, rfl⟩
  | cons b binds ih =>
      obtain ⟨m₁, hb, hm₁⟩ := @queueBinds_hasQueued env t hclock m [b]
        (by simpa using hrange b (by simp))
      obtain ⟨m', hrest, hm'⟩ := ih (m := m₁) fun b' hb' ↦ by
        rw [hm₁.profile_eq]
        exact hrange b' (List.mem_cons_of_mem _ hb')
      have hstep : runOutput env H prevEvent (m, eventsToRedo) (.bind b) =
          .ok (m₁, eventsToRedo) := by
        simp [runOutput, hb]
      rw [hm₁.layer_eq] at hm'
      refine ⟨m', ?_, by simpa [scheduled] using hm₁.trans hm'⟩
      rw [List.map_cons, List.foldlM_cons, hstep, Exits.ok_bind, hrest]

end

/-- The mapper takes a transition next: on an event, or because the timer
has run out. -/
def Takes (env : Env) (H : QHash) (m : Mapper) (state : State) (transition : Transition) :
    Option InputEvent → Prop
  | some e => transitionFor H state e = transition
  | none => state.timerTransition = some transition ∧ m.Expired env

/-- What the mapper does with an event, or with the timer. -/
def proceed (env : Env) (H : QHash) (fuel : ℕ) (m : Mapper) :
    Option InputEvent → Except Exit Mapper
  | some e => m.processInput env H fuel e
  | none => m.checkTimer env H fuel

/-- The mapper is about to complete a Capture sequence of its layer. -/
structure AtSequenceEnd (env : Env) (H : QHash) (binds : List Bind) (cause : Option InputEvent)
    (m : Mapper) : Prop where
  paused : m.paused = false
  ends : ∃ layer states state transition owner s, m.states[m.curLayerIdx]? = some states ∧
    generateStates H layer = .ok states ∧ states[m.curStateIdx]? = some state ∧
    m.Takes env H state transition cause ∧ transition.owner = some owner ∧
    layer.sequenceRemappings[owner]? = some s ∧ s.behavior = .capture ∧ s.binds = binds

/-- The mapper is at HOME, and the event, which no sequence of the layer
begins with, triggers a basic remapping. -/
structure AtBasicTrigger (H : QHash) (binds : List Bind) (e : InputEvent) (m : Mapper) : Prop where
  paused : m.paused = false
  home : m.curStateIdx = homeStateIdx
  free : ∃ layer states state, m.states[m.curLayerIdx]? = some states ∧
    generateStates H layer = .ok states ∧ states[homeStateIdx]? = some state ∧
    H.find state.edges e = none
  remapped : ∃ basicMap, m.basicMaps[m.curLayerIdx]? = some basicMap ∧
    H.find basicMap e = some binds

/-- The two calls add the same outputs with the same times to the queue, and
leave the mappers in the same layer. -/
def SameEffect (env : Env) (H : QHash) (fuel : ℕ) (m m' : Mapper) (cause : Option InputEvent)
    (e : InputEvent) : Prop :=
  ∃ m₁ m₁' queued layer, m.proceed env H fuel cause = .ok m₁ ∧
    m'.processInput env H fuel e = .ok m₁' ∧ m₁.queuedEvents = m.queuedEvents ++ queued ∧
    m₁'.queuedEvents = m'.queuedEvents ++ queued ∧ m₁.curLayerIdx = layer ∧ m₁'.curLayerIdx = layer

/-- The transition that completes a Capture sequence has its binds as
outputs. -/
theorem outputs_of_owner {H : QHash} {layer : Layer} {states : List State} {state : State}
    {transition : Transition} {owner : ℕ} {s : SequenceTrigger}
    (h : generateStates H layer = .ok states) (hstate : state ∈ states)
    (ht : transition ∈ state.transitions) (howner : transition.owner = some owner)
    (hs : layer.sequenceRemappings[owner]? = some s) (hcapture : s.behavior = .capture) :
    transition.outputs = s.binds.map .bind := by
  obtain ⟨T, metadata, places, htrie, hT, hb⟩ := trie_of_generateStates h
  have hsequence : ∀ x ∈ T, x.owner = owner → x.sequence = s := by
    intro x hx hxowner
    have hmem := List.mem_zipIdx_iff_getElem?.mp (Trie.sequence_mem htrie x hx)
    rw [hxowner, hs, Option.some.injEq] at hmem
    exact hmem.symm
  have hfallback : ∀ p, (T.fallback p).owner = none := by
    intro p
    unfold Trie.fallback
    split
    · rfl
    · split <;> rfl
  obtain ⟨p, hp, ⟨x, hx, rfl⟩ | rfl | ⟨x, hx, rfl⟩⟩ := hb.transition_cases hstate ht
  · cases hlast : x.pass.isLast with
    | false => simp [Placement.transition, newTransition, hlast] at howner
    | true =>
        have hxs := hsequence x (Trie.mem_edgesAt.mp hx).1
          (by simpa [Placement.transition, newTransition, hlast] using howner)
        simp [Placement.transition, newTransition, hlast, hxs, hcapture]
  · rw [hfallback] at howner
    cases howner
  · have hxT := (Trie.timedAt_eq_some hx).1
    unfold Placement.timerTransition at howner ⊢
    split at howner
    · rename_i ms hms
      split at howner
      · rename_i hfinal
        have hxs := hsequence x hxT (by simpa using howner)
        simp [hfinal, hxs]
      · cases howner
    · rw [hfallback] at howner
      cases howner

section

variable {env : Env} {t : ℕ} {H : QHash} {m : Mapper} {binds : List Bind}

theorem AtSequenceEnd.fire (hclock : ∀ n, env.clock n = t) {cause : Option InputEvent}
    (h : m.AtSequenceEnd env H binds cause)
    (hrange : ∀ b ∈ binds, b.InRange m.profile.layers.length) :
    ∃ state transition, m.curState = .ok state ∧ m.Takes env H state transition cause ∧
      ∀ m₀ : Mapper, m₀.queuedEvents = m.queuedEvents → m₀.curLayerIdx = m.curLayerIdx →
        m₀.profile = m.profile → ∃ m', m₀.fire env H transition cause = .ok (m', []) ∧
          m.HasQueued (binds.flatMap (Bind.queuedAt t 0))
            (binds.foldl (fun l b ↦ b.layerAfter l) m.curLayerIdx) m' := by
  obtain ⟨layer, states, state, transition, owner, s, hstates, hgenerate, hstate, htakes, howner,
    hs, hcapture, rfl⟩ := h.ends
  refine ⟨state, transition, by simp [curState, vectorAt, hstates, hstate], htakes, ?_⟩
  intro m₀ hqueue hlayer hprofile
  have hmem : transition ∈ state.transitions := by
    cases cause with
    | some e =>
        have heq : transitionFor H state e = transition := htakes
        rw [← heq]
        exact transitionFor_mem H state e
    | none =>
        have ht : state.timerTransition = some transition := htakes.1
        simp [State.transitions, ht]
  have houtputs := outputs_of_owner hgenerate (List.mem_of_getElem? hstate) hmem howner hs hcapture
  obtain ⟨m', hrun, hm'⟩ := @runOutput_binds env t hclock H (m₀.enter env transition cause)
    s.binds (by simpa [enter, hprofile] using hrange) cause []
  refine ⟨m', by rw [Mapper.fire, houtputs, hrun], ?_, ?_, ?_⟩
  · rw [hm'.queue, enter, hqueue]
  · rw [hm'.layer_eq, enter, hlayer]
  · rw [hm'.profile_eq, enter, hprofile]

theorem AtSequenceEnd.proceed (hclock : ∀ n, env.clock n = t) {cause : Option InputEvent}
    (h : m.AtSequenceEnd env H binds cause)
    (hrange : ∀ b ∈ binds, b.InRange m.profile.layers.length) (fuel : ℕ) :
    ∃ m', m.proceed env H (fuel + 1) cause = .ok m' ∧
      m.HasQueued (binds.flatMap (Bind.queuedAt t 0))
        (binds.foldl (fun l b ↦ b.layerAfter l) m.curLayerIdx) m' := by
  obtain ⟨state, transition, hstate, htakes, hfire⟩ := h.fire hclock hrange
  cases cause with
  | some e =>
      obtain ⟨m', hm, hm'⟩ := hfire m rfl rfl rfl
      have heq : transitionFor H state e = transition := htakes
      exact ⟨m', processInput_of_fire h.paused hstate (heq ▸ hm), hm'⟩
  | none =>
      obtain ⟨m', hm, hm'⟩ := hfire (m.checked env) rfl rfl rfl
      exact ⟨m', checkTimer_of_expired hstate htakes.1 htakes.2 hm, hm'⟩

theorem AtBasicTrigger.processInput (hclock : ∀ n, env.clock n = t) {e : InputEvent}
    (h : m.AtBasicTrigger H binds e)
    (hrange : ∀ b ∈ binds, b.InRange m.profile.layers.length) (fuel : ℕ) :
    ∃ m', m.processInput env H (fuel + 1) e = .ok m' ∧
      m.HasQueued (scheduled t 0 binds)
        (binds.foldl (fun l b ↦ b.layerAfter l) m.curLayerIdx) m' := by
  obtain ⟨layer, states, state, hstates, hgenerate, hstate, hnone⟩ := h.free
  obtain ⟨basicMap, hmap, hfind⟩ := h.remapped
  have hcur : m.curState = .ok state := by simp [curState, vectorAt, hstates, h.home, hstate]
  have hfallback : state.fallbackTransition = generateHomeState.1.fallbackTransition := by
    obtain ⟨T, metadata, places, -, -, hb⟩ := trie_of_generateStates hgenerate
    have hhome := hb.state hb.home
    rw [hstate, Option.some.injEq] at hhome
    rw [hhome]
    rfl
  have ht : transitionFor H state e = generateHomeState.1.fallbackTransition := by
    simp [transitionFor, hnone, hfallback]
  obtain ⟨m', hbinds, hm'⟩ := queueBinds_hasQueued hclock
    (m := m.enter env generateHomeState.1.fallbackTransition (some e)) hrange
  refine ⟨m', processInput_of_fire h.paused hcur ?_, hm'.queue, hm'.layer_eq, hm'.profile_eq⟩
  have hmap' : (m.enter env generateHomeState.1.fallbackTransition (some e)).basicMaps[
      (m.enter env generateHomeState.1.fallbackTransition (some e)).curLayerIdx]? =
        some basicMap := hmap
  have houtput : runOutput env H (some e)
      (m.enter env generateHomeState.1.fallbackTransition (some e), []) (.basicTranlation none) =
        .ok (m', []) := by
    simp [runOutput, vectorAt, hmap', hfind, hbinds]
  have hsingle : generateHomeState.1.fallbackTransition.outputs = [.basicTranlation none] := rfl
  rw [ht, Mapper.fire, hsingle, List.foldlM_cons, houtput]
  rfl

/-- A sequence and a basic remapping with the same binds do the same exactly
when no output of the binds stands behind a wait. -/
theorem sameEffect_iff (hclock : ∀ n, env.clock n = t) {m' : Mapper} {cause : Option InputEvent}
    {e : InputEvent} (hm : m.AtSequenceEnd env H binds cause) (hm' : m'.AtBasicTrigger H binds e)
    (hlayer : m.curLayerIdx = m'.curLayerIdx)
    (hrange : ∀ b ∈ binds, b.InRange m.profile.layers.length)
    (hrange' : ∀ b ∈ binds, b.InRange m'.profile.layers.length) (fuel : ℕ) :
    SameEffect env H (fuel + 1) m m' cause e ↔ WaitsLast binds := by
  obtain ⟨m₁, hm₁, hqueued⟩ := hm.proceed hclock hrange fuel
  obtain ⟨m₁', hm₁', hqueued'⟩ := hm'.processInput hclock hrange' fuel
  have hiff := scheduled_eq_iff t 0 binds
  simp only [Nat.zero_add] at hiff
  rw [WaitsLast, ← hiff]
  constructor
  · rintro ⟨n, n', queued, layer, hn, hn', hqueue, hqueue', -, -⟩
    rw [hm₁, Except.ok.injEq] at hn
    rw [hm₁', Except.ok.injEq] at hn'
    subst hn hn'
    rw [hqueued.queue] at hqueue
    rw [hqueued'.queue] at hqueue'
    rw [List.append_cancel_left hqueue, List.append_cancel_left hqueue']
  · intro heq
    refine ⟨m₁, m₁', _, _, hm₁, hm₁', hqueued.queue, ?_, hqueued.layer_eq, ?_⟩
    · rw [hqueued'.queue, heq]
    · rw [hqueued'.layer_eq, hlayer]

end

def waitingBinds : List Bind := [.wait 100, .pressKey .b]

/-- A wait and a key, for a basic remapping and for a sequence. -/
def waitingLayer : Layer :=
  ⟨"Base", [(.keyPress .c, waitingBinds)], [⟨.capture, [.keyPress .a], waitingBinds⟩]⟩

def waitingMapper : Mapper :=
  match Mapper.new (.first _) ⟨"Waiting", [waitingLayer], 0⟩ false with
  | .ok m => m
  | .error _ => { profile := ⟨"Waiting", [waitingLayer], 0⟩, layerChangedCallback := false }

theorem waitingMapper_atSequenceEnd : waitingMapper.AtSequenceEnd .still (.first _) waitingBinds
    (some (.key ⟨.a, .press⟩)) :=
  ⟨rfl, waitingLayer, _, _, _, 0, ⟨.capture, [.keyPress .a], waitingBinds⟩, rfl, rfl, rfl, rfl, rfl,
    rfl, rfl, rfl⟩

theorem waitingMapper_atBasicTrigger : waitingMapper.AtBasicTrigger (.first _) waitingBinds
    (.key ⟨.c, .press⟩) :=
  ⟨rfl, rfl, ⟨waitingLayer, _, _, rfl, rfl, rfl, rfl⟩, ⟨_, rfl, rfl⟩⟩

theorem sameEffect_iff_waiting : SameEffect .still (.first _) 1 waitingMapper waitingMapper
    (some (.key ⟨.a, .press⟩)) (.key ⟨.c, .press⟩) ↔ WaitsLast waitingBinds := by
  have hrange : ∀ b ∈ waitingBinds, b.InRange waitingMapper.profile.layers.length := by
    simp [waitingBinds, Bind.InRange]
  exact sameEffect_iff (fun _ ↦ rfl) waitingMapper_atSequenceEnd waitingMapper_atBasicTrigger rfl
    hrange hrange 0

theorem waitingMapper_differs : ¬ SameEffect .still (.first _) 1 waitingMapper waitingMapper
    (some (.key ⟨.a, .press⟩)) (.key ⟨.c, .press⟩) := by
  rintro ⟨m₁, m₁', queued, layer, hm₁, hm₁', hqueue, hqueue', -, -⟩
  cases hm₁
  cases hm₁'
  rw [← List.append_cancel_left hqueue] at hqueue'
  revert hqueue'
  decide

end Mapper

end Keybinder

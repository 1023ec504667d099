import Keybinder.MapperLife
import Keybinder.OutputOrder

/-!
# Basic remappings and layers

Without sequences and waits the mapper and its queue are an interpreter of
the basic maps: it holds the current layer and executes the binds of each
event.
-/

namespace Keybinder

/-! ## The channel -/

/-- The queue between the senders and the mapper. -/
abbrev KeyQueue := List InputEvent

def KeyQueue.sendKey (queue : KeyQueue) (e : InputEvent) : KeyQueue := queue ++ [e]

/-- The first event, if there is one before the timeout. -/
def KeyQueue.waitKey : KeyQueue → Option InputEvent × KeyQueue
  | [] => (none, [])
  | e :: queue => (some e, queue)

/-! ## The reference interpreter -/

def Layer.basicMap (layer : Layer) : List (InputEvent × List Bind) :=
  layer.basicRemappings.map fun (trigger, binds) ↦ (trigger.triggerToInput, binds)

/-- What an event that is not remapped gives. -/
def passedOn : InputEvent → List OutputEvent
  | .key e => [.key e]
  | .app _ => []

/-- Executes a bind on the current layer and the output so far. -/
def executeBind : ℕ × List OutputEvent → Bind → ℕ × List OutputEvent
  | (_, out), .swapLayer newLayer => (newLayer, out)
  | (layer, out), b => (layer, out ++ b.output.toList)

/-- Executes an event on the current layer and the output so far. -/
def interpret (H : QHash) (p : Profile) (r : ℕ × List OutputEvent) (e : InputEvent) :
    ℕ × List OutputEvent :=
  match p.layers[r.1]?.bind fun layer ↦ H.find layer.basicMap e with
  | some binds => binds.foldl executeBind r
  | none => (r.1, r.2 ++ passedOn e)

/-- No sequences, and no bind waits. -/
structure Profile.Basic (p : Profile) : Prop where
  sequences : ∀ layer ∈ p.layers, layer.sequenceRemappings = []
  waits : ∀ layer ∈ p.layers, ∀ b ∈ layer.binds, ∀ ms, b ≠ .wait ms

namespace Mapper

/-- The mapper has the machines and the maps of a profile without
sequences. -/
structure Serves (p : Profile) (m : Mapper) : Prop where
  profile_eq : m.profile = p
  states_eq : m.states = p.layers.map fun _ ↦ [generateHomeState.1]
  basicMaps_eq : m.basicMaps = p.layers.map Layer.basicMap

/-- The mapper is in the layer of the interpreter, and has emitted or is
about to emit its output. -/
structure FollowsTo (env : Env) (p : Profile) (r : ℕ × List OutputEvent) (m : Mapper) : Prop
    extends Serves p m where
  paused : m.paused = false
  layer_eq : m.curLayerIdx = r.1
  layer_lt : r.1 < p.layers.length
  home : m.curStateIdx = homeStateIdx
  timer : m.currentTimer = none
  out : m.sent.flatten ++ m.queuedEvents.map Prod.snd = r.2
  due : ∀ x ∈ m.queuedEvents, x.1 ≤ env.clock m.instant

variable {env : Env} {H : QHash} {p : Profile} {r : ℕ × List OutputEvent} {m m' : Mapper}

theorem transitionFor_home (H : QHash) (e : InputEvent) :
    transitionFor H generateHomeState.1 e = generateHomeState.1.fallbackTransition := by
  simp [transitionFor, generateHomeState, HashLookup.find]

namespace FollowsTo

theorem curState (h : m.FollowsTo env p r) : m.curState = .ok generateHomeState.1 := by
  have hlayer : (p.layers.map fun _ ↦ [generateHomeState.1])[r.1]? =
      some [generateHomeState.1] := by
    rw [List.getElem?_map, List.getElem?_eq_getElem h.layer_lt]
    rfl
  simp only [Mapper.curState, vectorAt, h.states_eq, h.layer_eq, hlayer, Exits.ok_bind, h.home]
  rfl

theorem frame (h : m.FollowsTo env p r) (hsame : SameMachines m m')
    (hlayer : m'.curLayerIdx = m.curLayerIdx) (hstate : m'.curStateIdx = homeStateIdx)
    (htimer : m'.currentTimer = none) (hsent : m'.sent = m.sent)
    (hqueue : m'.queuedEvents = m.queuedEvents) (hinstant : m.instant ≤ m'.instant) :
    m'.FollowsTo env p r := by
  refine ⟨⟨hsame.profile_eq.trans h.profile_eq, hsame.states_eq.trans h.states_eq,
    hsame.basicMaps_eq.trans h.basicMaps_eq⟩, hsame.paused_eq.trans h.paused,
    hlayer.trans h.layer_eq, h.layer_lt, hstate, htimer, ?_, ?_⟩
  · rw [hsent, hqueue]
    exact h.out
  · rw [hqueue]
    exact fun x hx ↦ (h.due x hx).trans (env.clock_mono hinstant)

theorem queueOutput (h : m.FollowsTo env p r) (e : OutputEvent) :
    (m.queueOutput env e 0).FollowsTo env p (r.1, r.2 ++ [e]) := by
  have htime : addU64 (env.clock m.instant) 0 = env.clock m.instant := addU64_eq (env.clock_lt _)
  have hclock := env.clock_mono (Nat.le_succ m.instant)
  refine ⟨⟨h.profile_eq, h.states_eq, h.basicMaps_eq⟩, h.paused, h.layer_eq, h.layer_lt, h.home,
    h.timer, ?_, ?_⟩
  · simp [Mapper.queueOutput, ← h.out]
  · intro x hx
    rcases List.mem_append.mp hx with hx | hx
    · exact (h.due x hx).trans hclock
    · rw [List.mem_singleton.mp hx, htime]
      exact hclock

theorem queueBind (h : m.FollowsTo env p r) {b : Bind} (hwait : ∀ ms, b ≠ .wait ms)
    (hrange : b.InRange p.layers.length) : ∃ m', queueBind env (m, 0) b = .ok (m', 0) ∧
      m'.FollowsTo env p (executeBind r b) := by
  cases b with
  | pressKey keyCode => exact ⟨_, rfl, h.queueOutput _⟩
  | releaseKey keyCode => exact ⟨_, rfl, h.queueOutput _⟩
  | swapLayer newLayer =>
      obtain ⟨m', hset⟩ : ∃ m', m.setLayerInner newLayer = .ok m' := by
        apply setLayerInner_of_lt
        rw [h.profile_eq]
        exact hrange
      refine ⟨m', by simp [Mapper.queueBind, hset], ?_⟩
      obtain ⟨announced, rfl⟩ := setLayerInner_spec hset
      exact ⟨⟨h.profile_eq, h.states_eq, h.basicMaps_eq⟩, h.paused, rfl, hrange, rfl, rfl, h.out,
        h.due⟩
  | wait ms => exact (hwait ms rfl).elim
  | runScript s => exact ⟨_, rfl, h.queueOutput _⟩

theorem queueBinds (h : m.FollowsTo env p r) {binds : List Bind}
    (hwaits : ∀ b ∈ binds, ∀ ms, b ≠ .wait ms)
    (hrange : ∀ b ∈ binds, b.InRange p.layers.length) : ∃ m', m.queueBinds env binds = .ok m' ∧
      m'.FollowsTo env p (binds.foldl executeBind r) := by
  have hfold : ∃ m', binds.foldlM (Mapper.queueBind env) (m, 0) = .ok (m', 0) ∧
      m'.FollowsTo env p (binds.foldl executeBind r) := by
    induction binds generalizing m r with
    | nil => exact ⟨m, rfl, h⟩
    | cons b binds ih =>
        obtain ⟨m₁, hb, hm₁⟩ := h.queueBind (hwaits b (by simp)) (hrange b (by simp))
        obtain ⟨m', hbinds, hm'⟩ := ih hm₁ (fun b hb ↦ hwaits b (List.mem_cons_of_mem _ hb))
          fun b hb ↦ hrange b (List.mem_cons_of_mem _ hb)
        exact ⟨m', Exits.foldlM_cons_eq_ok.mpr ⟨_, hb, hbinds⟩, hm'⟩
  obtain ⟨m', hfold, hm'⟩ := hfold
  exact ⟨m', by simp [Mapper.queueBinds, hfold], hm'⟩

theorem fire (h : m.FollowsTo env p r) (hbasic : p.Basic) (hexist : p.LayersExist)
    (e : InputEvent) : ∃ m',
      m.fire env H generateHomeState.1.fallbackTransition (some e) = .ok (m', []) ∧
      m'.FollowsTo env p (interpret H p r e) := by
  have henter : (m.enter env generateHomeState.1.fallbackTransition (some e)).FollowsTo env p r :=
    h.frame ⟨rfl, rfl, rfl, rfl⟩ rfl rfl rfl rfl rfl (Nat.le_succ _)
  generalize hm₀ : m.enter env generateHomeState.1.fallbackTransition (some e) = m₀ at henter
  obtain ⟨layer, hlayer, hmem⟩ : ∃ layer, p.layers[r.1]? = some layer ∧ layer ∈ p.layers :=
    ⟨_, List.getElem?_eq_getElem henter.layer_lt, List.getElem_mem _⟩
  have hmap : vectorAt m₀.basicMaps m₀.curLayerIdx = .ok layer.basicMap := by
    simp [vectorAt, henter.basicMaps_eq, henter.layer_eq, hlayer]
  have hfire : ∀ m', runOutput env H (some e) (m₀, []) (.basicTranlation none) = .ok (m', []) →
      m.fire env H generateHomeState.1.fallbackTransition (some e) = .ok (m', []) := by
    intro m' hrun
    rw [← hm₀] at hrun
    exact Exits.foldlM_cons_eq_ok.mpr ⟨_, hrun, rfl⟩
  have hinterpret : interpret H p r e = match H.find layer.basicMap e with
      | some binds => binds.foldl executeBind r
      | none => (r.1, r.2 ++ passedOn e) := by
    simp [interpret, hlayer]
  rw [hinterpret]
  cases hfind : H.find layer.basicMap e with
  | some binds =>
      obtain ⟨k, hk, -⟩ := H.find_eq_some hfind
      obtain ⟨remapping, hremapping, hentry⟩ := List.mem_map.mp hk
      have hbinds : ∀ b ∈ binds, b ∈ layer.binds := by
        intro b hb
        apply List.mem_append_left
        refine List.mem_flatMap.mpr ⟨remapping, hremapping, ?_⟩
        rw [Prod.mk.injEq] at hentry
        exact hentry.2 ▸ hb
      obtain ⟨m', hm', hfollows⟩ := henter.queueBinds
        (fun b hb ↦ hbasic.waits layer hmem b (hbinds b hb))
        fun b hb ↦ hexist.bind_inRange layer hmem b (hbinds b hb)
      refine ⟨m', hfire m' ?_, hfollows⟩
      simp [runOutput, hmap, hfind, hm']
  | none =>
      cases e with
      | key e =>
          refine ⟨_, hfire _ ?_, henter.queueOutput (.key e)⟩
          simp [runOutput, hmap, hfind]
      | app appName =>
          refine ⟨m₀, hfire m₀ ?_, ?_⟩
          · simp [runOutput, hmap, hfind]
          · simpa [passedOn] using henter

theorem checkQueuedEvents (h : m.FollowsTo env p r) :
    (m.checkQueuedEvents env).FollowsTo env p r ∧ (m.checkQueuedEvents env).queuedEvents = [] := by
  unfold Mapper.checkQueuedEvents
  split
  · rename_i hempty
    exact ⟨h, List.isEmpty_iff.mp hempty⟩
  · rename_i hempty
    have hready : TwoPointer.partition (fun x ↦ decide (env.clock m.instant < x.1))
        m.queuedEvents = ([], m.queuedEvents) := by
      apply TwoPointer.partition_of_forall_neg
      intro x hx
      exact decide_eq_false (Nat.not_lt.mpr (h.due x hx))
    simp only [hready, hempty]
    refine ⟨⟨⟨h.profile_eq, h.states_eq, h.basicMaps_eq⟩, h.paused, h.layer_eq, h.layer_lt, h.home,
      h.timer, ?_, by simp⟩, trivial⟩
    simpa using h.out

theorem loopBody (h : m.FollowsTo env p r) (fuel : ℕ) (hbasic : p.Basic) (hexist : p.LayersExist)
    (keyOpt : Option InputEvent) : ∃ m', m.loopBody env H (fuel + 1) keyOpt = .ok m' ∧
      m'.FollowsTo env p (keyOpt.toList.foldl (interpret H p) r) ∧ m'.queuedEvents = [] := by
  have htimer : m.checkTimer env H (fuel + 1) = .ok (m.checked env) :=
    checkTimer_of_not_expired h.curState (not_expired_of_none h.timer)
  have hchecked : (m.checked env).FollowsTo env p r :=
    h.frame ⟨rfl, rfl, rfl, rfl⟩ rfl h.home h.timer rfl rfl (Nat.le_succ _)
  rw [Mapper.loopBody, htimer, Exits.ok_bind]
  cases keyOpt with
  | none => exact ⟨_, rfl, hchecked.checkQueuedEvents⟩
  | some e =>
      obtain ⟨counted, hcount⟩ := countKey_spec env (m.checked env) e
      have hcounted : (Mapper.countKey env (m.checked env) e).FollowsTo env p r := by
        rw [hcount]
        exact hchecked.frame ⟨rfl, rfl, rfl, rfl⟩ rfl hchecked.home hchecked.timer rfl rfl
          (Nat.le_refl _)
      obtain ⟨m₁, hfire, hm₁⟩ := hcounted.fire (H := H) hbasic hexist e
      rw [← transitionFor_home H e] at hfire
      have hinput : (countKey env (m.checked env) e).processInput env H (fuel + 1) e = .ok m₁ :=
        processInput_of_fire hcounted.paused hcounted.curState hfire
      simp only [hinput, Exits.ok_bind, Exits.pure_eq_ok]
      have hprocessed : FollowsTo env p (interpret H p r e)
          { m₁ with processedEventsCount := m₁.processedEventsCount + 1 } :=
        hm₁.frame ⟨rfl, rfl, rfl, rfl⟩ rfl hm₁.home hm₁.timer rfl rfl (Nat.le_refl _)
      exact ⟨_, rfl, hprocessed.checkQueuedEvents⟩

end FollowsTo

/-! ## New mappers -/

theorem compiled_of_basic (hbasic : p.Basic)
    {compiled : List (List (InputEvent × List Bind) × List State)}
    (h : p.layers.mapM (compileLayer H) = .ok compiled) :
    compiled = p.layers.map fun layer ↦ (layer.basicMap, [generateHomeState.1]) := by
  refine Exits.mapM_eq_map ?_ h
  rintro layer hlayer ⟨basicMap, states⟩ hcompile
  obtain ⟨hmap, hstates⟩ := compileLayer_eq_ok hcompile
  rw [generateStates_eq, hbasic.sequences layer hlayer] at hstates
  cases hstates
  rw [buildBasicMap_eq hmap, Layer.basicMap]
  rfl

theorem followsTo_of_new (env : Env) (hbasic : p.Basic) (hexist : p.LayersExist)
    (haccepted : p.Accepted H) (layerChangedCallback : Bool) :
    ∃ m, Mapper.new H p layerChangedCallback = .ok m ∧
      m.FollowsTo env p (p.defaultLayer, []) ∧ m.queuedEvents = [] := by
  obtain ⟨compiled, hcompiled⟩ := haccepted
  have heq := compiled_of_basic hbasic hcompiled
  obtain ⟨m, hset⟩ : ∃ m, setLayerInner
      { profile := p, layerChangedCallback, states := compiled.map Prod.snd,
        basicMaps := compiled.map Prod.fst } p.defaultLayer = .ok m :=
    setLayerInner_of_lt hexist.default_lt
  refine ⟨m, ?_, ?_⟩
  · simp [Mapper.new_eq, setProfile_eq, hcompiled, hset]
  · obtain ⟨announced, rfl⟩ := setLayerInner_spec hset
    refine ⟨⟨⟨rfl, ?_, ?_⟩, rfl, rfl, hexist.default_lt, rfl, rfl, rfl, by simp⟩, rfl⟩
    · simp [heq, Function.comp_def]
    · simp [heq, Function.comp_def]

end Mapper

theorem interpret_of_noRemapping {H : QHash} {p : Profile}
    (hnone : ∀ layer ∈ p.layers, layer.basicRemappings = []) (es : List InputEvent)
    (r : ℕ × List OutputEvent) :
    (es.foldl (interpret H p) r).2 = r.2 ++ es.flatMap passedOn := by
  have hstep : ∀ (r : ℕ × List OutputEvent) (e : InputEvent),
      interpret H p r e = (r.1, r.2 ++ passedOn e) := by
    intro r e
    have hfind : (p.layers[r.1]?.bind fun layer ↦ H.find layer.basicMap e) = none := by
      apply Option.bind_eq_none_iff.mpr
      intro layer hlayer
      rw [Layer.basicMap, hnone layer (List.mem_of_getElem? hlayer), List.map_nil]
      exact H.find_nil e
    rw [interpret, hfind]
  induction es generalizing r with
  | nil => simp
  | cons e es ih => rw [List.foldl_cons, ih, hstep, List.flatMap_cons, List.append_assoc]

end Keybinder

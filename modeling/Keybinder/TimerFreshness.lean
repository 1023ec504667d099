import Keybinder.MapperLife

/-!
# Timers that fire

The deadline of the mapper is one field that every transition overwrites.
When the loop takes the transition of a timer, the deadline is the one that
the edge to the current state set, and the mapper has not moved since.
-/

namespace Keybinder

/-- A moment that leaves the mapper where it is. -/
def Moment.Resting : Moment → Prop
  | .taken _ _ _ _ _ => False
  | .layerSet _ => False
  | _ => True

/-- The transition of a timer was taken. -/
def Moment.IsTimer : Moment → Prop
  | .taken _ _ none _ _ => True
  | _ => False

theorem Moment.Resting.not_isTimer {moment : Moment} (h : moment.Resting) :
    ¬ moment.IsTimer := by
  cases moment with
  | taken => exact h.elim
  | poll => exact id
  | layerSet => exact id
  | queued => exact id

/-! ## Which transitions carry a time -/

namespace Represents

variable {H : QHash} {states : List State} {metadata : List StateMetadata} {T : Trie}
  {places : List Place} {p : Place} {idx ms : ℕ} {state : State} {e : InputEvent}
  {transition : Transition}

theorem timerMs_timer (hb : Represents ⟨states, metadata⟩ T T places)
    (hstate : states[idx]? = some state) (ht : state.timerTransition = some transition) :
    transition.timerMs = none := by
  obtain ⟨p, hp⟩ := hb.place_of_state hstate
  obtain ⟨x, -, rfl⟩ := hb.timerTransition_cases hp hstate ht
  unfold Placement.timerTransition
  split
  · split <;> rfl
  · exact timerMs_fallback T p

/-- A transition that carries a time is an edge, and it leads to a state. -/
theorem edge_of_timerMs (hb : Represents ⟨states, metadata⟩ T T places)
    (hstate : states[idx]? = some state)
    (hms : (Mapper.transitionFor H state e).timerMs = some ms) :
    H.find state.edges e = some (Mapper.transitionFor H state e) ∧
      ∃ n, (Mapper.transitionFor H state e).newState = some n := by
  obtain ⟨p, hp⟩ := hb.place_of_state hstate
  constructor
  · obtain rfl := hb.state_eq hp hstate
    rw [Mapper.transitionFor] at hms ⊢
    cases hfind : H.find (T.state (Numbering.number places) T p).edges e with
    | none =>
        have hnone := timerMs_fallback T p
        rw [hfind] at hms
        cases hnone.symm.trans hms
    | some transition => rfl
  · rcases hb.transitionFor_cases (H := H) (e := e) hp hstate with ⟨y, -, -, h⟩ | ⟨-, h⟩
    · rw [h]
      exact ⟨_, rfl⟩
    · rw [h, timerMs_fallback] at hms
      cases hms

end Represents

namespace Mapper

variable {env : Env} {H : QHash} {fuel : ℕ} {m₀ m m' : Mapper}

theorem Installed.represents (h : m.Installed H) {states : List State}
    (hstates : m.states[m.curLayerIdx]? = some states) :
    ∃ metadata T places, Represents ⟨states, metadata⟩ T T places := by
  obtain ⟨layer, -, hgenerate⟩ := h.generated (List.mem_of_getElem? hstates)
  obtain ⟨T, metadata, places, -, -, hb⟩ := trie_of_generateStates hgenerate
  exact ⟨metadata, T, places, hb⟩

/-- The mapper has its machines, its layer, its state and its timer as
before. -/
structure Unmoved (m m' : Mapper) : Prop extends SameMachines m m' where
  layer_eq : m'.curLayerIdx = m.curLayerIdx
  state_eq : m'.curStateIdx = m.curStateIdx
  timer_eq : m'.currentTimer = m.currentTimer

theorem Unmoved.refl (m : Mapper) : Unmoved m m := ⟨⟨rfl, rfl, rfl, rfl⟩, rfl, rfl, rfl⟩

theorem Unmoved.trans {m m' m'' : Mapper} (h : Unmoved m m') (h' : Unmoved m' m'') :
    Unmoved m m'' :=
  ⟨⟨h'.profile_eq.trans h.profile_eq, h'.states_eq.trans h.states_eq,
    h'.basicMaps_eq.trans h.basicMaps_eq, h'.paused_eq.trans h.paused_eq⟩,
    h'.layer_eq.trans h.layer_eq, h'.state_eq.trans h.state_eq, h'.timer_eq.trans h.timer_eq⟩

/-- Later than `m₀` an edge was taken on an event.  It led to the current
state of the current layer and carried the time of the timer, and the mapper
has not moved since. -/
def Armed (H : QHash) (m₀ m : Mapper) : Prop :=
  ∃ earlier since prev e now transition ms states state,
    m.history = m₀.history ++ earlier ++ .taken m.curLayerIdx prev (some e) now transition :: since ∧
    (∀ moment ∈ since, moment.Resting) ∧
    m.states[m.curLayerIdx]? = some states ∧ states[prev]? = some state ∧
    H.find state.edges e = some transition ∧ transition.newState = some m.curStateIdx ∧
    transition.timerMs = some ms ∧ m.currentTimer = some (addU64 ms now)

/-- Later than `m₀` the timer was cancelled or armed. -/
structure Settled (H : QHash) (m₀ m : Mapper) : Prop where
  past : m₀.history <+: m.history
  timer : m.currentTimer = none ∨ Armed H m₀ m

/-- The mapper has not moved, and its history says so. -/
structure Stays (m m' : Mapper) : Prop extends Unmoved m m' where
  history : ∃ since, m'.history = m.history ++ since ∧ ∀ moment ∈ since, moment.Resting

theorem Stays.refl (m : Mapper) : Stays m m := ⟨.refl m, [], by simp, by simp⟩

theorem Stays.trans {m m' m'' : Mapper} (h : Stays m m') (h' : Stays m' m'') : Stays m m'' := by
  obtain ⟨since, hhistory, hsince⟩ := h.history
  obtain ⟨since', hhistory', hsince'⟩ := h'.history
  refine ⟨h.toUnmoved.trans h'.toUnmoved, since ++ since', ?_, ?_⟩
  · rw [hhistory', hhistory, List.append_assoc]
  · exact List.forall_mem_append.mpr ⟨hsince, hsince'⟩

theorem Stays.resting (h : Stays m m') : ∀ moment ∈ m.since m', moment.Resting := by
  obtain ⟨since, hhistory, hsince⟩ := h.history
  rw [Mapper.since, hhistory, List.drop_left]
  exact hsince

theorem Armed.frame (h : Armed H m₀ m) (hm' : Stays m m') : Armed H m₀ m' := by
  obtain ⟨earlier, since₀, prev, e, now, transition, ms, states, state, hpast, hresting, hstates,
    hstate, hfind, hnew, hms, htimer⟩ := h
  obtain ⟨since, hhistory, hsince⟩ := hm'.history
  refine ⟨earlier, since₀ ++ since, prev, e, now, transition, ms, states, state, ?_, ?_, ?_, hstate,
    hfind, ?_, hms, hm'.timer_eq.trans htimer⟩
  · rw [hhistory, hpast, hm'.layer_eq]
    simp
  · exact List.forall_mem_append.mpr ⟨hresting, hsince⟩
  · rw [hm'.states_eq, hm'.layer_eq]
    exact hstates
  · rw [hm'.state_eq]
    exact hnew

theorem Settled.frame (h : Settled H m₀ m) (hm' : Stays m m') : Settled H m₀ m' := by
  obtain ⟨since, hhistory, -⟩ := hm'.history
  refine ⟨h.past.trans ⟨since, hhistory.symm⟩, ?_⟩
  rcases h.timer with hnone | harmed
  · exact .inl (hm'.timer_eq.trans hnone)
  · exact .inr (harmed.frame hm')

theorem SameStage.stays (h : SameStage m m') : Stays m m' :=
  ⟨⟨h.toSameMachines, h.layer_eq, h.state_eq, h.timer_eq⟩, [], by simp [h.history_eq], by simp⟩

theorem settled_expire (hinstalled : m.Installed H) (hpast : m₀.history <+: m.history)
    {state : State} {transition : Transition} (hstate : m.curState = .ok state)
    (ht : state.timerTransition = some transition) :
    Settled H m₀ ((m.checked env).enter env transition none) := by
  obtain ⟨states, hstates, hidx⟩ := curState_eq_ok hstate
  obtain ⟨metadata, T, places, hb⟩ := hinstalled.represents hstates
  have hnone := hb.timerMs_timer hidx ht
  refine ⟨?_, .inl (by simp [enter, hnone])⟩
  exact (hpast.trans (List.prefix_append _ _)).trans (List.prefix_append _ _)

/-- What an act does to the place of the mapper. -/
theorem Act.settled (h : Act env H m m') (hinstalled : m.Installed H)
    (hpast : m₀.history <+: m.history) : Stays m m' ∨ Settled H m₀ m' := by
  cases h with
  | output hact =>
      cases hact with
      | queue e delay =>
          exact .inl ⟨⟨⟨rfl, rfl, rfl, rfl⟩, rfl, rfl, rfl⟩, [_], rfl, by simp [Moment.Resting]⟩
      | swap hset =>
          obtain ⟨announced, rfl⟩ := setLayerInner_spec hset
          exact .inr ⟨hpast.trans (List.prefix_append _ _), .inl rfl⟩
  | @input state hstate e =>
      refine .inr ⟨hpast.trans (List.prefix_append _ _), ?_⟩
      cases hms : (transitionFor H state e).timerMs with
      | none => exact .inl (by simp [enter, hms])
      | some ms =>
          obtain ⟨states, hstates, hidx⟩ := curState_eq_ok hstate
          obtain ⟨metadata, T, places, hb⟩ := hinstalled.represents hstates
          obtain ⟨hfind, n, hn⟩ := hb.edge_of_timerMs hidx hms
          obtain ⟨earlier, hearlier⟩ := hpast
          refine .inr ⟨earlier, [], m.curStateIdx, e, env.clock m.instant, _, ms, states, state, ?_,
            by simp, hstates, hidx, hfind, ?_, hms, ?_⟩
          · simp [enter, hearlier]
          · simp [enter, hn]
          · simp [enter, hms]
  | expire hstate ht hd => exact .inr (settled_expire hinstalled hpast hstate ht)
  | quiet => exact .inl ⟨⟨⟨rfl, rfl, rfl, rfl⟩, rfl, rfl, rfl⟩, [_], rfl, by simp [Moment.Resting]⟩
  | emit => exact .inl (sameStage_checkQueuedEvents env m).stays
  | bypass e =>
      have hsame : SameStage m (m.bypass e) := by
        cases e <;> exact ⟨⟨rfl, rfl, rfl, rfl⟩, rfl, rfl, rfl, rfl⟩
      exact .inl hsame.stays
  | count e => exact .inl (sameStage_countKey env m e).stays
  | processed =>
      exact .inl (SameStage.stays ⟨⟨rfl, rfl, rfl, rfl⟩, rfl, rfl, rfl, rfl⟩)

theorem Settled.acts (h : Settled H m₀ m) (hinstalled : m.Installed H) (hacts : Acts env H m m') :
    Settled H m₀ m' := by
  induction hacts with
  | refl => exact h
  | @tail m₁ m₂ hacts hact ih =>
      have hm₁ := hinstalled.frame (Acts.sameMachines hacts)
      rcases hact.settled hm₁ ih.past with hstays | hsettled
      · exact ih.frame hstays
      · exact hsettled

/-- The acts leave the place of the mapper, or the timer was cancelled or
armed among them. -/
theorem settled_of_acts (hinstalled : m.Installed H) (hacts : Acts env H m m') :
    Stays m m' ∨ Settled H m m' := by
  induction hacts with
  | refl => exact .inl (.refl m)
  | @tail m₁ m₂ hacts hact ih =>
      have hm₁ := hinstalled.frame (Acts.sameMachines hacts)
      have hpast : m.history <+: m₁.history := by
        rcases ih with hstays | hsettled
        · obtain ⟨since, hhistory, -⟩ := hstays.history
          exact ⟨since, hhistory.symm⟩
        · exact hsettled.past
      rcases hact.settled hm₁ hpast with hstays | hsettled
      · exact ih.imp (·.trans hstays) (·.frame hstays)
      · exact .inr hsettled

/-! ## Iterations -/

/-- An iteration leaves the mapper where it is, or it cancels or arms the
timer. -/
theorem settled_of_loopBody (hinstalled : m.Installed H) {keyOpt : Option InputEvent}
    (h : m.loopBody env H fuel keyOpt = .ok m') : Stays m m' ∨ Settled H m m' :=
  settled_of_acts hinstalled (acts_of_loopBody h)

/-- No transition of a timer is taken. -/
def Untimed (m m' : Mapper) : Prop :=
  ∃ later, m'.history = m.history ++ later ∧ ∀ moment ∈ later, ¬ moment.IsTimer

namespace Untimed

variable {redo : List InputEvent} {m'' : Mapper}

theorem of_history_eq (h : m'.history = m.history) : Untimed m m' :=
  ⟨[], by simp [h], by simp⟩

theorem trans (h : Untimed m m') (h' : Untimed m' m'') : Untimed m m'' := by
  obtain ⟨later, hhistory, hlater⟩ := h
  obtain ⟨later', hhistory', hlater'⟩ := h'
  refine ⟨later ++ later', ?_, List.forall_mem_append.mpr ⟨hlater, hlater'⟩⟩
  rw [hhistory', hhistory, List.append_assoc]

theorem of_outputs (h : Outputs env m m') : Untimed m m' := by
  induction h with
  | refl => exact of_history_eq rfl
  | tail _ hact ih =>
      refine ih.trans ?_
      cases hact with
      | queue e delay => exact ⟨[_], rfl, by simp [Moment.IsTimer]⟩
      | swap hset =>
          obtain ⟨announced, rfl⟩ := setLayerInner_spec hset
          exact ⟨[_], rfl, by simp [Moment.IsTimer]⟩

theorem of_react {e : InputEvent} (h : m.react env H e = .ok (m', redo)) : Untimed m m' := by
  unfold react at h
  split at h
  · cases h
    cases e <;> exact of_history_eq rfl
  · obtain ⟨state, -, hfire⟩ := Exits.bind_eq_ok.mp h
    have henter : Untimed m (m.enter env (transitionFor H state e) (some e)) :=
      ⟨[_], rfl, by simp [Moment.IsTimer]⟩
    exact henter.trans (of_outputs (fire_spec hfire).1)

theorem of_feeds {es : List InputEvent} (h : Refeed.Feeds (react env H) m es m') :
    Untimed m m' := by
  induction h with
  | nil => exact of_history_eq rfl
  | cons hstep _ ih => exact (of_react hstep).trans ih

end Untimed

/-- What an iteration enters into the history: its reading of the clock, and
the transition of the timer of the current state, if the timer has run out
by then; what follows takes no transition of a timer. -/
theorem history_loopBody {keyOpt : Option InputEvent} (h : m.loopBody env H fuel keyOpt = .ok m') :
    ∃ fired later, m.since m' = .poll (env.clock m.instant) :: fired ++ later ∧
      (∀ moment ∈ later, ¬ moment.IsTimer) ∧
      (fired = [] ∨ m.Expired env ∧
        ∃ now transition, fired = [.taken m.curLayerIdx m.curStateIdx none now transition]) := by
  obtain ⟨m₁, htimer, hrest⟩ := Exits.bind_eq_ok.mp h
  have hbody : Untimed m₁ m' := by
    cases keyOpt with
    | none =>
        cases hrest
        exact .of_history_eq (history_checkQueuedEvents env m₁)
    | some e =>
        obtain ⟨m₂, hinput, hrest⟩ := Exits.bind_eq_ok.mp hrest
        cases hrest
        have hcount : Untimed m₁ (m₁.countKey env e) :=
          .of_history_eq (sameStage_countKey env m₁ e).history_eq
        refine (hcount.trans (.of_feeds (feeds_of_processInput hinput))).trans ?_
        exact .of_history_eq (history_checkQueuedEvents env _)
  have hsince : ∀ {l : List Moment}, m'.history = m.history ++ l → m.since m' = l := by
    intro l hl
    rw [Mapper.since, hl, List.drop_left]
  obtain ⟨state, -, ⟨-, rfl⟩ | ⟨transition, m₂, redo, hexpired, -, hfire, hredo⟩⟩ :=
    checkTimer_cases htimer
  · obtain ⟨later, hhistory, hlater⟩ := hbody
    refine ⟨[], later, hsince ?_, hlater, .inl rfl⟩
    simp [hhistory, checked]
  · have hfired := Untimed.of_outputs (fire_spec hfire).1
    have hall := (hfired.trans (.of_feeds (feeds_of_foldlM_processInput hredo))).trans hbody
    obtain ⟨later, hhistory, hlater⟩ := hall
    refine ⟨_, later, hsince ?_, hlater,
      .inr ⟨hexpired, env.clock (m.checked env).instant, transition, rfl⟩⟩
    rw [hhistory, enter, checked]
    simp

/-! ## Whole lives -/

/-- Operations that leave an unpaused mapper where it is. -/
inductive Rests (env : Env) (H : QHash) (fuel : ℕ) : Mapper → List Operation → Mapper → Prop
  | nil {m : Mapper} (hpaused : m.paused = false) : Rests env H fuel m [] m
  | snoc {m m₁ m' : Mapper} {operations : List Operation} {operation : Operation}
      (hrests : Rests env H fuel m operations m₁)
      (hoperate : m₁.operate env H fuel operation = .ok m') (hstays : Stays m₁ m') :
      Rests env H fuel m (operations ++ [operation]) m'

namespace Rests

variable {operations : List Operation}

theorem foldlM_eq (h : Rests env H fuel m operations m') :
    operations.foldlM (operate env H fuel) m = .ok m' := by
  induction h with
  | nil => rfl
  | snoc _ hoperate _ ih =>
      rw [List.foldlM_append, ih, Exits.ok_bind]
      exact Exits.foldlM_cons_eq_ok.mpr ⟨_, hoperate, rfl⟩

/-- No iteration on the way takes the transition of a timer. -/
theorem not_isTimer (h : Rests env H fuel m operations m') {before after : List Operation}
    {keyOpt : Option InputEvent} (hsplit : operations = before ++ .iteration keyOpt :: after)
    {m₁ m₂ : Mapper} (hm₁ : before.foldlM (operate env H fuel) m = .ok m₁)
    (hm₂ : m₁.loopBody env H fuel keyOpt = .ok m₂) : ∀ moment ∈ m₁.since m₂, ¬ moment.IsTimer := by
  induction h generalizing after with
  | nil => simp at hsplit
  | @snoc m₃ m' operations operation hrests hoperate hstays ih =>
      rcases List.eq_nil_or_concat after with rfl | ⟨after, last, rfl⟩
      · obtain ⟨rfl, hlast⟩ := List.append_inj' hsplit rfl
        obtain rfl : m₃ = m₁ := Except.ok.inj (hrests.foldlM_eq.symm.trans hm₁)
        obtain rfl : operation = .iteration keyOpt := List.singleton_inj.mp hlast
        obtain rfl : m' = m₂ := Except.ok.inj (hoperate.symm.trans hm₂)
        exact fun moment hmoment ↦ (hstays.resting moment hmoment).not_isTimer
      · have hsplit' : operations ++ [operation] =
            (before ++ .iteration keyOpt :: after) ++ [last] := by
          rw [hsplit]
          simp
        exact ih (List.append_inj' hsplit' rfl).1

end Rests

variable {profile : Profile} {layerChangedCallback : Bool} {operations : List Operation}

/-- The timer of the mapper was armed in an iteration, and the mapper has
not moved since. -/
def ArmedAmong (env : Env) (H : QHash) (fuel : ℕ) (profile : Profile) (layerChangedCallback : Bool)
    (before : List Operation) (keyOpt : Option InputEvent) (after : List Operation) (m : Mapper) :
    Prop :=
  ∃ m₀ m₁, Mapper.life env H fuel profile layerChangedCallback before = .ok m₀ ∧
    m₀.loopBody env H fuel keyOpt = .ok m₁ ∧ Armed H m₀ m₁ ∧ Rests env H fuel m₁ after m

/-- An operation that leaves the mapper with a timer has left it where it
was, or has armed the timer. -/
theorem Happens.armed {operation : Operation} (h : Happens env H fuel m operation m')
    (hinstalled : m.Installed H) (hinert : m.paused = true → m.Inert)
    (htimer : m'.currentTimer ≠ none) :
    Stays m m' ∨ ∃ keyOpt, operation = .iteration keyOpt ∧ m.loopBody env H fuel keyOpt = .ok m' ∧
        Armed H m m' := by
  have hmoved : ∀ {m₁ : Mapper} {newLayer : ℕ}, m₁.setLayerInner newLayer = .ok m' → False := by
    intro m₁ newLayer hset
    obtain ⟨announced, rfl⟩ := setLayerInner_spec hset
    exact htimer rfl
  cases h with
  | rejected => exact .inl (.refl m)
  | installed hset =>
      obtain ⟨compiled, -, hset⟩ := setProfile_true hset
      exact (hmoved hset).elim
  | ignored => exact .inl (.refl m)
  | moved _ hset => exact (hmoved hset).elim
  | pause => exact (htimer rfl).elim
  | resume =>
      have hpaused : m.paused = false := by
        by_contra hpaused
        exact htimer (hinert (by simpa using hpaused)).timer
      exact .inl (SameStage.stays ⟨⟨rfl, rfl, rfl, hpaused.symm⟩, rfl, rfl, rfl, rfl⟩)
  | stop => exact .inl (SameStage.stays ⟨⟨rfl, rfl, rfl, rfl⟩, rfl, rfl, rfl, rfl⟩)
  | iteration hbody =>
      rcases settled_of_loopBody hinstalled hbody with hstays | hsettled
      · exact .inl hstays
      · exact .inr ⟨_, rfl, hbody, hsettled.timer.resolve_left htimer⟩

/-- Whenever the timer is set, an iteration has armed it. -/
theorem armedAmong_of_life
    (h : Mapper.life env H fuel profile layerChangedCallback operations = .ok m)
    (htimer : m.currentTimer ≠ none) : ∃ before keyOpt after,
      operations = before ++ .iteration keyOpt :: after ∧
        ArmedAmong env H fuel profile layerChangedCallback before keyOpt after m := by
  revert htimer
  refine life_induction (P := fun operations m ↦ m.currentTimer ≠ none → ∃ before keyOpt after,
    operations = before ++ .iteration keyOpt :: after ∧
      ArmedAmong env H fuel profile layerChangedCallback before keyOpt after m) ?_ ?_ h
  · exact fun m hnew htimer ↦ (htimer (fresh_of_new hnew).timer).elim
  · intro operations operation m m' hlife ih hoperate htimer
    have hpaused : m'.paused = false := by
      by_contra hpaused
      exact htimer (Inert.of_life (life_snoc hlife hoperate) (by simpa using hpaused)).timer
    rcases (happens_of_operate hoperate).armed (.of_life hlife) (Inert.of_life hlife) htimer with
      hstays | ⟨keyOpt, rfl, hbody, harmed⟩
    · obtain ⟨before, keyOpt, after, rfl, m₀, m₁, hm₀, hbody, harmed, hrests⟩ :=
        ih (hstays.timer_eq ▸ htimer)
      refine ⟨before, keyOpt, after ++ [operation], by simp, m₀, m₁, hm₀, hbody, harmed, ?_⟩
      exact hrests.snoc hoperate hstays
    · exact ⟨operations, keyOpt, [], rfl, m, m', hlife, hbody, harmed, .nil hpaused⟩

/-! ## No stale timer fires -/

/-- When an iteration takes the transition of a timer, it is that of the
current state and the only one of the iteration; the deadline that its
reading of the clock has passed is the one that the edge to this state set in
some iteration, and the unpaused mapper has not moved since.  Every earlier
firing came before that, so that an armed timer fires at most once. -/
theorem life_timerFresh (env : Env) (H : QHash) (fuel : ℕ) (profile : Profile)
    (layerChangedCallback : Bool) (operations : List Operation) (keyOpt : Option InputEvent)
    (m m' : Mapper)
    (hlife : Mapper.life env H fuel profile layerChangedCallback operations = .ok m)
    (hbody : m.loopBody env H fuel keyOpt = .ok m') (layer state now : ℕ)
    (transition : Transition)
    (htaken : .taken layer state none now transition ∈ m.since m') :
    layer = m.curLayerIdx ∧ state = m.curStateIdx ∧
    (∃ later, m.since m' =
      .poll (env.clock m.instant) :: .taken layer state none now transition :: later ∧
        ∀ moment ∈ later, ¬ moment.IsTimer) ∧
    (∃ d, m.currentTimer = some d ∧ d ≤ env.clock m.instant) ∧
    ∃ before keyOpt₀ after,
      operations = before ++ .iteration keyOpt₀ :: after ∧
      ArmedAmong env H fuel profile layerChangedCallback before keyOpt₀ after m ∧
      ∀ fired keyOpt' rest m₁ m₂, operations = fired ++ .iteration keyOpt' :: rest →
        Mapper.life env H fuel profile layerChangedCallback fired = .ok m₁ →
        m₁.loopBody env H fuel keyOpt' = .ok m₂ → (∃ moment ∈ m₁.since m₂, moment.IsTimer) →
        fired.length ≤ before.length := by
  obtain ⟨fired₀, later, hsince, hlater, hfired⟩ := history_loopBody hbody
  rw [hsince] at htaken ⊢
  rcases hfired with rfl | ⟨hexpired, now', transition', rfl⟩
  · have hmem : .taken layer state none now transition ∈ later := by simpa using htaken
    exact (hlater _ hmem trivial).elim
  have htaken : layer = m.curLayerIdx ∧ state = m.curStateIdx ∧ now = now' ∧
      transition = transition' := by
    rcases List.mem_append.mp htaken with hmem | hmem
    · simpa using hmem
    · exact (hlater _ hmem trivial).elim
  obtain ⟨rfl, rfl, rfl, rfl⟩ := htaken
  obtain ⟨d, hd, hle⟩ := hexpired
  obtain ⟨before, keyOpt₀, after, rfl, m₀, m₁, hm₀, hbody₀, harmed, hrests⟩ :=
    armedAmong_of_life hlife (by simp [hd])
  refine ⟨rfl, rfl, ⟨later, rfl, hlater⟩, ⟨d, hd, hle⟩, before, keyOpt₀, after, rfl,
    ⟨m₀, m₁, hm₀, hbody₀, harmed, hrests⟩, ?_⟩
  rintro fired keyOpt' rest m₂ m₃ hsplit hm₂ hm₃ ⟨moment, hmoment, htimer⟩
  by_contra hearlier
  rcases List.append_eq_append_iff.mp hsplit with ⟨between, rfl, hafter⟩ | ⟨between, rfl, -⟩
  · cases between with
    | nil => simp at hearlier
    | cons operation between =>
        simp only [List.cons_append, List.cons.injEq] at hafter
        obtain ⟨rfl, hafter⟩ := hafter
        obtain ⟨m₄, hm₄, hbetween⟩ := life_append.mp hm₂
        obtain rfl : m₀ = m₄ := Except.ok.inj (hm₀.symm.trans hm₄)
        obtain ⟨m₅, hm₅, hbetween⟩ := Exits.foldlM_cons_eq_ok.mp hbetween
        obtain rfl : m₁ = m₅ := Except.ok.inj (hbody₀.symm.trans hm₅)
        exact hrests.not_isTimer hafter hbetween hm₃ moment hmoment htimer
  · apply hearlier
    rw [List.length_append]
    exact Nat.le_add_right _ _

/-- Two hundred milliseconds pass after the first transition. -/
def tapEnv : Env := .jump 0 200 (by decide) (by decide) 2

/-- The tap that was not finished in time. -/
theorem life_timerFresh_tap : ∃ m m' transition later,
    Mapper.life tapEnv (.first _) 1 ⟨"tap", [tapLayer], 0⟩ true
      [.iteration (some (.key ⟨.a, .press⟩)), .resume] = .ok m ∧
    m.loopBody tapEnv (.first _) 1 none = .ok m' ∧
    m.since m' = .poll 200 :: .taken 0 1 none 200 transition :: later ∧
    m.currentTimer = some 200 ∧ ∃ before keyOpt after,
      [.iteration (some (.key ⟨.a, .press⟩)), .resume] = before ++ .iteration keyOpt :: after ∧
      ArmedAmong tapEnv (.first _) 1 ⟨"tap", [tapLayer], 0⟩ true before keyOpt after m := by
  obtain ⟨m, m', transition, later, hlife, hbody, hsince, htimer⟩ : ∃ m m' transition later,
      Mapper.life tapEnv (.first _) 1 ⟨"tap", [tapLayer], 0⟩ true
        [.iteration (some (.key ⟨.a, .press⟩)), .resume] = .ok m ∧
      m.loopBody tapEnv (.first _) 1 none = .ok m' ∧
      m.since m' = .poll 200 :: .taken 0 1 none 200 transition :: later ∧
      m.currentTimer = some 200 := ⟨_, _, _, _, rfl, rfl, rfl, rfl⟩
  obtain ⟨-, -, -, -, before, keyOpt, after, hsplit, harmed, -⟩ :=
    life_timerFresh tapEnv (.first _) 1 _ true _ none m m' hlife hbody 0 1 200 transition
      (by simp [hsince])
  exact ⟨m, m', transition, later, hlife, hbody, hsince, htimer, before, keyOpt, after, hsplit,
    harmed⟩

end Mapper

end Keybinder

import Keybinder.MapperIndices
import Keybinder.UnassignedReads

/-!
# Lives of the mapper

What a single operation can do, and what holds of a mapper after any
operations: its machines were generated for its profile, and while it is
paused its queue and its timer are empty.
-/

namespace Keybinder

namespace Mapper

variable {env : Env} {H : QHash} {fuel : ℕ} {m m' : Mapper} {profile : Profile}
  {layerChangedCallback : Bool} {operations : List Operation}

/-- What an operation that returns has done. -/
inductive Happens (env : Env) (H : QHash) (fuel : ℕ) (m : Mapper) : Operation → Mapper → Prop
  | rejected (p : Profile) (h : ¬ p.Accepted H) : Happens env H fuel m (.setProfile p) m
  | installed {p : Profile} {m' : Mapper} (h : m.setProfile H p = .ok (true, m')) :
      Happens env H fuel m (.setProfile p) m'
  | ignored {newLayer : ℕ} (h : m.states.length ≤ newLayer) :
      Happens env H fuel m (.setLayer newLayer) m
  | moved {newLayer : ℕ} {m' : Mapper} (hlt : newLayer < m.states.length)
      (h : m.setLayerInner newLayer = .ok m') : Happens env H fuel m (.setLayer newLayer) m'
  | pause : Happens env H fuel m .pause m.pause
  | resume : Happens env H fuel m .resume m.resume
  | stop : Happens env H fuel m .stop m.stop
  | iteration {keyOpt : Option InputEvent} {m' : Mapper}
      (h : m.loopBody env H fuel keyOpt = .ok m') : Happens env H fuel m (.iteration keyOpt) m'

/-- A call of `set_profile` that returns true has compiled the profile. -/
theorem setProfileReading_true {unassigned : UnassignedRead} {p : Profile}
    (h : m.setProfileReading unassigned H p = .ok (true, m')) :
    ∃ compiled, p.layers.mapM (compileLayerReading unassigned H) = .ok compiled ∧
      setLayerInner { m with
        profile := p
        states := compiled.map Prod.snd
        basicMaps := compiled.map Prod.fst } p.defaultLayer = .ok m' := by
  unfold setProfileReading at h
  split at h
  · cases h
  · cases h
  · rename_i compiled hcompiled
    obtain ⟨m₁, hset, h⟩ := Exits.bind_eq_ok.mp h
    cases h
    exact ⟨compiled, hcompiled, hset⟩

theorem setProfile_true {p : Profile} (h : m.setProfile H p = .ok (true, m')) :
    ∃ compiled, p.layers.mapM (compileLayer H) = .ok compiled ∧ setLayerInner { m with
      profile := p
      states := compiled.map Prod.snd
      basicMaps := compiled.map Prod.fst } p.defaultLayer = .ok m' :=
  setProfileReading_true h

/-- What the unassigned indices are read as decides only whether the call
returns. -/
theorem setProfile_of_reading {unassigned : UnassignedRead} {p : Profile} {c : Bool × Mapper}
    (h : m.setProfileReading unassigned H p = .ok c) : m.setProfile H p = .ok c := by
  have hcompiled : Exits.EqUnless unassigned.Bad
      (p.layers.mapM (compileLayerReading unassigned H)) (p.layers.mapM (compileLayer H)) := by
    refine .mapM fun layer _ ↦ (Exits.EqUnless.refl _).bind fun basicMap ↦ ?_
    refine Exits.EqUnless.bind ?_ fun states ↦ .refl _
    exact (generateStatesReading_eqUnless unassigned H layer).mono fun _ he ↦ he.1
  rw [setProfile_eq]
  rcases hcompiled with ⟨e, he, herror⟩ | hsame
  · unfold setProfileReading at h
    rw [herror] at h
    cases e with
    | nullopt => exact (he.ne_nullopt rfl).elim
    | _ => cases h
  · rw [← hsame]
    exact h

theorem new_of_reading {unassigned : UnassignedRead}
    (h : Mapper.newReading unassigned H profile layerChangedCallback = .ok m) :
    Mapper.new H profile layerChangedCallback = .ok m := by
  obtain ⟨c, hset, h⟩ := Exits.bind_eq_ok.mp h
  rw [new_eq, setProfile_of_reading hset]
  exact h

theorem setProfile_false {p : Profile} (h : m.setProfile H p = .ok (false, m')) :
    ¬ p.Accepted H ∧ m' = m := by
  rw [setProfile_eq] at h
  split at h
  · rename_i herror
    cases h
    refine ⟨?_, rfl⟩
    rintro ⟨compiled, hcompiled⟩
    rw [herror] at hcompiled
    cases hcompiled
  · cases h
  · obtain ⟨m₁, -, h⟩ := Exits.bind_eq_ok.mp h
    cases h

theorem happens_of_operate {operation : Operation}
    (h : m.operate env H fuel operation = .ok m') : Happens env H fuel m operation m' := by
  cases operation with
  | setProfile p =>
      simp only [operate] at h
      split at h
      · rename_i accepted m₁ hset
        cases h
        cases accepted with
        | true => exact .installed hset
        | false =>
            obtain ⟨hrejected, rfl⟩ := setProfile_false hset
            exact .rejected p hrejected
      · rename_i herror
        cases h
        apply Happens.rejected
        rintro ⟨compiled, hcompiled⟩
        rw [setProfile_eq] at herror
        rw [hcompiled] at herror
        simp only at herror
        unfold setLayerInner at herror
        simp only at herror
        split at herror
        · simp only [vectorAt] at herror
          split at herror <;> cases herror
        · cases herror
      · cases h
  | setLayer newLayer =>
      obtain ⟨⟨moved, m₁⟩, hset, h⟩ := Exits.bind_eq_ok.mp h
      cases h
      unfold setLayer at hset
      split at hset
      · rename_i hle
        cases hset
        exact .ignored hle
      · rename_i hlt
        obtain ⟨m₂, hinner, hset⟩ := Exits.bind_eq_ok.mp hset
        cases hset
        exact .moved (Nat.lt_of_not_le hlt) hinner
  | pause =>
      cases h
      exact .pause
  | resume =>
      cases h
      exact .resume
  | stop =>
      cases h
      exact .stop
  | iteration keyOpt => exact .iteration h

theorem life_append {more : List Operation} :
    Mapper.life env H fuel profile layerChangedCallback (operations ++ more) = .ok m' ↔
      ∃ m, Mapper.life env H fuel profile layerChangedCallback operations = .ok m ∧
        more.foldlM (operate env H fuel) m = .ok m' := by
  simp only [life, List.foldlM_append, Exits.bind_eq_ok]
  constructor
  · rintro ⟨m₀, hnew, m, hm, hmore⟩
    exact ⟨m, ⟨m₀, hnew, hm⟩, hmore⟩
  · rintro ⟨m, ⟨m₀, hnew, hm⟩, hmore⟩
    exact ⟨m₀, hnew, m, hm, hmore⟩

/-- What holds of a new mapper and is kept by every operation holds after
any operations. -/
theorem life_induction {P : List Operation → Mapper → Prop}
    (hnew : ∀ m, Mapper.new H profile layerChangedCallback = .ok m → P [] m)
    (hstep : ∀ operations operation m m',
      Mapper.life env H fuel profile layerChangedCallback operations = .ok m → P operations m →
      m.operate env H fuel operation = .ok m' → P (operations ++ [operation]) m')
    (h : Mapper.life env H fuel profile layerChangedCallback operations = .ok m) :
    P operations m := by
  induction operations using List.reverseRecOn generalizing m with
  | nil =>
      obtain ⟨m₀, hm₀, h⟩ := Exits.bind_eq_ok.mp h
      cases h
      exact hnew m hm₀
  | append_singleton operations operation ih =>
      obtain ⟨m₁, hm₁, h⟩ := life_append.mp h
      obtain ⟨m₂, hm₂, h⟩ := Exits.foldlM_cons_eq_ok.mp h
      cases h
      exact hstep operations operation m₁ _ hm₁ (ih hm₁) hm₂

theorem life_snoc {operation : Operation}
    (hlife : Mapper.life env H fuel profile layerChangedCallback operations = .ok m)
    (hoperate : m.operate env H fuel operation = .ok m') :
    Mapper.life env H fuel profile layerChangedCallback (operations ++ [operation]) = .ok m' :=
  life_append.mpr ⟨m, hlife, Exits.foldlM_cons_eq_ok.mpr ⟨m', hoperate, rfl⟩⟩

/-- What a constructed mapper has not done yet. -/
structure Fresh (m : Mapper) : Prop where
  home : m.curStateIdx = homeStateIdx
  timer : m.currentTimer = none
  queue : m.queuedEvents = []
  paused : m.paused = false
  sent : m.sent = []
  history : m.history = [] ∨ ∃ newLayer, m.history = [.layerSet newLayer]

theorem fresh_of_new (h : Mapper.new H profile layerChangedCallback = .ok m) : m.Fresh := by
  obtain ⟨⟨accepted, m₁⟩, hset, h⟩ := Exits.bind_eq_ok.mp h
  cases h
  cases accepted with
  | true =>
      obtain ⟨compiled, -, hset⟩ := setProfile_true hset
      obtain ⟨announced, rfl⟩ := setLayerInner_spec hset
      exact ⟨rfl, rfl, rfl, rfl, rfl, .inr ⟨_, rfl⟩⟩
  | false =>
      obtain ⟨-, rfl⟩ := setProfile_false hset
      exact ⟨rfl, rfl, rfl, rfl, rfl, .inl rfl⟩

/-! ## Where the machines come from -/

/-- The mapper has the machines and the maps of its profile, or none. -/
def Installed (H : QHash) (m : Mapper) : Prop :=
  m.states = [] ∧ m.basicMaps = [] ∨
    ∃ compiled, m.profile.layers.mapM (compileLayer H) = .ok compiled ∧
      m.states = compiled.map Prod.snd ∧ m.basicMaps = compiled.map Prod.fst

namespace Installed

theorem frame (h : m.Installed H) (hsame : SameMachines m m') : m'.Installed H := by
  rw [Installed, hsame.profile_eq, hsame.states_eq, hsame.basicMaps_eq]
  exact h

theorem of_setProfile {p : Profile} (h : m.setProfile H p = .ok (true, m')) :
    m'.Installed H := by
  obtain ⟨compiled, hcompiled, hset⟩ := setProfile_true h
  have hkept := kept_of_setLayerInner hset
  refine .inr ⟨compiled, ?_, hkept.states_eq, hkept.basicMaps_eq⟩
  rw [hkept.profile_eq]
  exact hcompiled

theorem happens (h : m.Installed H) {operation : Operation}
    (hm' : Happens env H fuel m operation m') : m'.Installed H := by
  cases hm' with
  | rejected => exact h
  | installed hset => exact of_setProfile hset
  | ignored => exact h
  | moved _ hset => exact h.frame (kept_of_setLayerInner hset).sameMachines
  | pause => exact h
  | resume => exact h
  | stop => exact h
  | iteration hbody => exact h.frame (acts_of_loopBody hbody).sameMachines

theorem of_new (h : Mapper.new H profile layerChangedCallback = .ok m) : m.Installed H := by
  obtain ⟨⟨accepted, m₁⟩, hset, h⟩ := Exits.bind_eq_ok.mp h
  cases h
  cases accepted with
  | true => exact of_setProfile hset
  | false =>
      obtain ⟨-, rfl⟩ := setProfile_false hset
      exact .inl ⟨rfl, rfl⟩

theorem of_life
    (h : Mapper.life env H fuel profile layerChangedCallback operations = .ok m) :
    m.Installed H :=
  life_induction (P := fun _ m ↦ m.Installed H) (fun _ ↦ of_new)
    (fun _ _ _ _ _ hm hop ↦ hm.happens (happens_of_operate hop)) h

theorem generated (h : m.Installed H) {states : List State} (hstates : states ∈ m.states) :
    ∃ layer ∈ m.profile.layers, generateStates H layer = .ok states := by
  rcases h with ⟨hnone, -⟩ | ⟨compiled, hcompiled, heq, -⟩
  · rw [hnone] at hstates
    cases hstates
  · obtain ⟨c, hc, rfl⟩ := List.mem_map.mp (heq ▸ hstates)
    obtain ⟨layer, hlayer, hcompile⟩ := Exits.exists_of_mem_mapM hcompiled hc
    exact ⟨layer, hlayer, (compileLayer_eq_ok hcompile).2⟩

theorem accepted (h : m.Installed H) {states : List State} (hstates : states ∈ m.states) :
    m.profile.Accepted H := by
  rcases h with ⟨hnone, -⟩ | ⟨compiled, hcompiled, -, -⟩
  · rw [hnone] at hstates
    cases hstates
  · exact ⟨compiled, hcompiled⟩

theorem layers_length (h : m.Installed H) {n : ℕ} (hn : n < m.states.length) :
    n < m.profile.layers.length := by
  rcases h with ⟨hnone, -⟩ | ⟨compiled, hcompiled, heq, -⟩
  · simp [hnone] at hn
  · rw [heq, List.length_map, ← (Exits.forall₂_of_mapM hcompiled).length_eq] at hn
    exact hn

end Installed

theorem profile_of_life
    (h : Mapper.life env H fuel profile layerChangedCallback operations = .ok m) :
    m.profile ∈ profile :: operations.filterMap Operation.profile? := by
  refine life_induction (P := fun operations m ↦
    m.profile ∈ profile :: operations.filterMap Operation.profile?) ?_ ?_ h
  · intro m hnew
    obtain ⟨⟨accepted, m₁⟩, hset, hnew⟩ := Exits.bind_eq_ok.mp hnew
    cases hnew
    cases accepted with
    | true =>
        obtain ⟨compiled, -, hset⟩ := setProfile_true hset
        rw [(kept_of_setLayerInner hset).profile_eq]
        exact List.mem_cons_self
    | false =>
        obtain ⟨-, rfl⟩ := setProfile_false hset
        exact List.mem_cons_self
  · intro operations operation m m' _ hm hop
    rw [List.filterMap_append, ← List.cons_append]
    have hold : m'.profile = m.profile →
        m'.profile ∈ (profile :: operations.filterMap Operation.profile?) ++
          [operation].filterMap Operation.profile? :=
      fun heq ↦ List.mem_append_left _ (heq ▸ hm)
    cases happens_of_operate hop with
    | rejected => exact hold rfl
    | installed hset =>
        obtain ⟨compiled, -, hset⟩ := setProfile_true hset
        rw [(kept_of_setLayerInner hset).profile_eq]
        exact List.mem_append_right _ List.mem_cons_self
    | ignored => exact hold rfl
    | moved _ hset => exact hold (kept_of_setLayerInner hset).profile_eq
    | pause => exact hold rfl
    | resume => exact hold rfl
    | stop => exact hold rfl
    | iteration hbody => exact hold (acts_of_loopBody hbody).sameMachines.profile_eq

/-- What is known of the layers of the accepted profiles is known of the
machines. -/
theorem layers_of_life {Q : Layer → Prop}
    (hQ : ∀ p ∈ profile :: operations.filterMap Operation.profile?, p.Accepted H →
      ∀ layer ∈ p.layers, Q layer)
    (h : Mapper.life env H fuel profile layerChangedCallback operations = .ok m) :
    ∀ states ∈ m.states, ∃ layer, Q layer ∧ generateStates H layer = .ok states := by
  intro states hstates
  have hinstalled := Installed.of_life h
  obtain ⟨layer, hlayer, hgenerate⟩ := hinstalled.generated hstates
  exact ⟨layer, hQ _ (profile_of_life h) (hinstalled.accepted hstates) layer hlayer, hgenerate⟩

/-! ## Paused mappers -/

/-- A paused mapper has nothing queued and no timer. -/
structure Inert (m : Mapper) : Prop where
  paused : m.paused = true
  queue : m.queuedEvents = []
  timer : m.currentTimer = none

/-- What an iteration of a paused mapper gives to the daemon. -/
def forwarded : Option InputEvent → List (List OutputEvent)
  | some (.key e) => [[.key e]]
  | _ => []

/-- Everything an iteration of a paused mapper changes. -/
structure Forwards (m : Mapper) (keyOpt : Option InputEvent) (m' : Mapper) : Prop
    extends SameMachines m m' where
  callback_eq : m'.layerChangedCallback = m.layerChangedCallback
  layer_eq : m'.curLayerIdx = m.curLayerIdx
  state_eq : m'.curStateIdx = m.curStateIdx
  timer_eq : m'.currentTimer = m.currentTimer
  queue_eq : m'.queuedEvents = m.queuedEvents
  sent_eq : m'.sent = m.sent ++ forwarded keyOpt

theorem checkQueuedEvents_of_nil (env : Env) (h : m.queuedEvents = []) :
    m.checkQueuedEvents env = m := by
  simp [checkQueuedEvents, h]

theorem countKey_spec (env : Env) (m : Mapper) (e : InputEvent) :
    ∃ counted, m.countKey env e = { m with counted } := by
  unfold countKey
  split
  · split <;> exact ⟨_, rfl⟩
  · exact ⟨_, rfl⟩

namespace Inert

theorem frame (h : m.Inert) {keyOpt : Option InputEvent} (hm' : m.Forwards keyOpt m') :
    m'.Inert :=
  ⟨hm'.paused_eq.trans h.paused, hm'.queue_eq.trans h.queue, hm'.timer_eq.trans h.timer⟩

theorem loopBody_eq (h : m.Inert) {state : State} (hstate : m.curState = .ok state)
    {keyOpt : Option InputEvent} (hfuel : keyOpt = none ∨ fuel ≠ 0) :
    ∃ m', m.Forwards keyOpt m' ∧ m.loopBody env H fuel keyOpt = .ok m' := by
  have hqueue : (m.checked env).queuedEvents = [] := h.queue
  rw [loopBody, checkTimer_of_not_expired hstate (not_expired_of_none h.timer), Exits.ok_bind]
  cases keyOpt with
  | none =>
      simp only [checkQueuedEvents_of_nil env hqueue, Exits.pure_eq_ok]
      refine ⟨_, ?_, rfl⟩
      exact ⟨⟨rfl, rfl, rfl, rfl⟩, rfl, rfl, rfl, rfl, rfl, (List.append_nil _).symm⟩
  | some e =>
      obtain ⟨fuel, rfl⟩ := Nat.exists_eq_add_one_of_ne_zero (hfuel.resolve_left (by simp))
      obtain ⟨counted, hcount⟩ := countKey_spec env (m.checked env) e
      have hpaused : ({ m.checked env with counted } : Mapper).paused = true := h.paused
      simp only [hcount, processInput, hpaused, if_true, Exits.pure_eq_ok, Exits.ok_bind]
      have hqueue' : ({ bypass { m.checked env with counted } e with
          processedEventsCount := (bypass { m.checked env with counted } e).processedEventsCount + 1 } :
            Mapper).queuedEvents = [] := by
        cases e <;> exact h.queue
      rw [checkQueuedEvents_of_nil env hqueue']
      refine ⟨_, ?_, rfl⟩
      cases e with
      | app appName =>
          exact ⟨⟨rfl, rfl, rfl, rfl⟩, rfl, rfl, rfl, rfl, rfl, (List.append_nil _).symm⟩
      | key e => exact ⟨⟨rfl, rfl, rfl, rfl⟩, rfl, rfl, rfl, rfl, rfl, rfl⟩

theorem forwards (h : m.Inert) {keyOpt : Option InputEvent}
    (hbody : m.loopBody env H fuel keyOpt = .ok m') : m.Forwards keyOpt m' := by
  obtain ⟨m₁, htimer, hrest⟩ := Exits.bind_eq_ok.mp hbody
  obtain ⟨state, hstate, -⟩ := checkTimer_cases htimer
  have hfuel : keyOpt = none ∨ fuel ≠ 0 := by
    cases keyOpt with
    | none => exact .inl rfl
    | some e =>
        right
        rintro rfl
        obtain ⟨m₂, hinput, -⟩ := Exits.bind_eq_ok.mp hrest
        cases hinput
  obtain ⟨m₂, hm₂, heq⟩ := h.loopBody_eq hstate hfuel
  rw [hbody, Except.ok.injEq] at heq
  exact heq ▸ hm₂

theorem happens (h : m.paused = true → m.Inert) {operation : Operation}
    (hm' : Happens env H fuel m operation m') (hpaused : m'.paused = true) : m'.Inert := by
  cases hm' with
  | rejected => exact h hpaused
  | installed hset =>
      obtain ⟨compiled, -, hset⟩ := setProfile_true hset
      obtain ⟨announced, rfl⟩ := setLayerInner_spec hset
      exact ⟨hpaused, (h hpaused).queue, rfl⟩
  | ignored => exact h hpaused
  | moved _ hset =>
      obtain ⟨announced, rfl⟩ := setLayerInner_spec hset
      exact ⟨hpaused, (h hpaused).queue, rfl⟩
  | pause => exact ⟨rfl, rfl, rfl⟩
  | resume => cases hpaused
  | stop => exact ⟨hpaused, (h hpaused).queue, (h hpaused).timer⟩
  | iteration hbody =>
      have hm : m.Inert := by
        apply h
        rw [← (acts_of_loopBody hbody).sameMachines.paused_eq]
        exact hpaused
      exact hm.frame (hm.forwards hbody)

theorem of_life (h : Mapper.life env H fuel profile layerChangedCallback operations = .ok m)
    (hpaused : m.paused = true) : m.Inert := by
  revert hpaused
  refine life_induction (P := fun _ m ↦ m.paused = true → m.Inert) ?_ ?_ h
  · intro m hnew hpaused
    rw [(fresh_of_new hnew).paused] at hpaused
    cases hpaused
  · intro _ _ m m' _ hm hop
    exact happens hm (happens_of_operate hop)

end Inert

end Mapper

end Keybinder

import Keybinder.MapperRuns

/-!
# The history is a run

Since the last change of layer, the history of the mapper is a run of the
machine of its layer.  So is every prefix of the history, up to the moment
that a transition is taken.
-/

namespace Keybinder

/-- One moment more, when `seg` are the moments of the current layer. -/
def sinceLayer (seg : List Moment) : Moment → List Moment
  | .layerSet _ => []
  | .queued _ _ => seg
  | m => seg ++ [m]

/-- The checks and transitions since the last change of layer. -/
def recent (ms : List Moment) : List Moment := ms.foldl sinceLayer []

section

variable {ms : List Moment} {layer idx now timeToEmit : ℕ} {event : Option InputEvent}
  {transition : Transition} {e : OutputEvent}

@[simp] theorem recent_append_layerSet : recent (ms ++ [.layerSet layer]) = [] := by
  simp [recent, sinceLayer]

@[simp] theorem recent_append_queued : recent (ms ++ [.queued timeToEmit e]) = recent ms := by
  simp [recent, sinceLayer]

@[simp] theorem recent_append_poll : recent (ms ++ [.poll now]) = recent ms ++ [.poll now] := by
  simp [recent, sinceLayer]

@[simp] theorem recent_append_taken : recent (ms ++ [.taken layer idx event now transition]) =
    recent ms ++ [.taken layer idx event now transition] := by
  simp [recent, sinceLayer]

theorem recent_subset (ms : List Moment) : ∀ m ∈ recent ms, m ∈ ms := by
  induction ms using List.reverseRecOn with
  | nil => simp [recent]
  | append_singleton ms m ih =>
      intro m' hm'
      cases m with
      | layerSet layer => simp at hm'
      | queued timeToEmit e =>
          rw [recent_append_queued] at hm'
          exact List.mem_append_left _ (ih m' hm')
      | poll now =>
          rw [recent_append_poll] at hm'
          exact List.mem_append.mpr ((List.mem_append.mp hm').imp (ih m') id)
      | taken layer idx event now transition =>
          rw [recent_append_taken] at hm'
          exact List.mem_append.mpr ((List.mem_append.mp hm').imp (ih m') id)

/-- Since HOME is since HOME in the current layer. -/
theorem sinceHome_recent (ms : List Moment) : sinceHome (recent ms) = sinceHome ms := by
  induction ms using List.reverseRecOn with
  | nil => rfl
  | append_singleton ms m ih =>
      cases m with
      | layerSet layer => simp [since, sinceHome]
      | queued timeToEmit e => simp [since, ih]
      | poll now => simp [ih]
      | taken layer idx event now transition => simp [ih]

theorem consumed_recent (ms : List Moment) : consumed (recent ms) = consumed ms := by
  rw [consumed, sinceHome_recent, consumed]

end

namespace Mapper

/-- The mapper is at HOME and nothing has happened in its layer. -/
structure AtHome (m : Mapper) : Prop where
  state_eq : m.curStateIdx = homeStateIdx
  timer_eq : m.currentTimer = none
  recent_eq : recent m.history = []
  paused_eq : m.paused = false

/-- The history in the current layer is a run of its machine, and past. -/
structure Tracked (env : Env) (H : QHash) (m : Mapper) : Prop where
  run : ∀ states, m.states[m.curLayerIdx]? = some states →
    Run H m.curLayerIdx states (recent m.history) m.curStateIdx m.currentTimer
  past : ∀ moment ∈ recent m.history, moment.time ≤ env.clock m.instant

variable {env : Env} {H : QHash} {m m' : Mapper} {transition : Transition}
  {prevEvent : Option InputEvent}

theorem AtHome.tracked (hm : m.AtHome) : m.Tracked env H := by
  constructor
  · intro states _
    rw [hm.state_eq, hm.timer_eq, hm.recent_eq]
    exact .home
  · simp [hm.recent_eq]

namespace Tracked

theorem past_of_le (hm : m.Tracked env H) {n : ℕ} (h : m.instant ≤ n) :
    ∀ moment ∈ recent m.history, moment.time ≤ env.clock n :=
  fun moment hmoment ↦ (hm.past moment hmoment).trans (env.clock_mono h)

theorem frame (hm : m.Tracked env H) (hstates : m'.states = m.states)
    (hlayer : m'.curLayerIdx = m.curLayerIdx) (hstate : m'.curStateIdx = m.curStateIdx)
    (htimer : m'.currentTimer = m.currentTimer) (hhistory : recent m'.history = recent m.history)
    (hinstant : m.instant ≤ m'.instant) : m'.Tracked env H := by
  constructor
  · rw [hstates, hlayer, hstate, htimer, hhistory]
    exact hm.run
  · rw [hhistory]
    exact hm.past_of_le hinstant

theorem of_setLayerInner {newLayer : ℕ} (h : m.setLayerInner newLayer = .ok m') :
    m'.Tracked env H := by
  obtain ⟨announced, rfl⟩ := setLayerInner_spec h
  constructor
  · intro states _
    rw [recent_append_layerSet]
    exact .home
  · simp

theorem output (hm : m.Tracked env H) (h : OutputAct env m m') : m'.Tracked env H := by
  cases h with
  | queue e delay =>
      exact hm.frame rfl rfl rfl rfl recent_append_queued (Nat.le_succ _)
  | swap hswap => exact of_setLayerInner hswap

theorem quiet (hm : m.Tracked env H) {state : State} (hstate : m.curState = .ok state)
    (hquiet : m.Expired env → state.timerTransition = none) : (m.checked env).Tracked env H := by
  obtain ⟨states, hlayer, hidx⟩ := curState_eq_ok hstate
  constructor
  · intro states' hstates'
    obtain rfl : states = states' := Option.some.inj (hlayer.symm.trans hstates')
    rw [checked, recent_append_poll]
    exact (hm.run states hlayer).poll hm.past hidx fun d hd hle ↦ hquiet ⟨d, hd, hle⟩
  · intro moment hmoment
    rw [checked, recent_append_poll] at hmoment
    rcases List.mem_append.mp hmoment with h | h
    · exact hm.past_of_le (Nat.le_succ _) moment h
    · rw [List.mem_singleton.mp h]
      exact env.clock_mono (Nat.le_succ _)

theorem expire (hm : m.Tracked env H) {state : State} (hstate : m.curState = .ok state)
    (ht : state.timerTransition = some transition) (hd : m.Expired env) :
    ((m.checked env).enter env transition none).Tracked env H := by
  obtain ⟨states, hlayer, hidx⟩ := curState_eq_ok hstate
  obtain ⟨d, hd, hle⟩ := hd
  have hclock := env.clock_mono (Nat.le_succ m.instant)
  have hclock' := env.clock_mono (Nat.le_succ (m.instant + 1))
  have hrecent : recent ((m.checked env).enter env transition none).history = recent m.history ++
      [.poll (env.clock m.instant), .taken m.curLayerIdx m.curStateIdx none
        (env.clock (m.instant + 1)) transition] := by
    rw [enter, checked, recent_append_taken, recent_append_poll, List.append_assoc]
    rfl
  constructor
  · intro states' hstates'
    obtain rfl : states = states' := Option.some.inj (hlayer.symm.trans hstates')
    rw [hrecent]
    have hrun := hm.run states hlayer
    rw [hd] at hrun
    exact hrun.expire hm.past hclock hidx hle ht fun n hn ↦ by simp [enter, hn]
  · intro moment hmoment
    rw [hrecent] at hmoment
    rcases List.mem_append.mp hmoment with h | h
    · exact hm.past_of_le ((Nat.le_succ _).trans (Nat.le_succ _)) moment h
    · simp only [List.mem_cons, List.not_mem_nil, or_false] at h
      rcases h with rfl | rfl
      · exact hclock.trans hclock'
      · exact hclock'

theorem input (hm : m.Tracked env H) {state : State} (hstate : m.curState = .ok state)
    (e : InputEvent) : (m.enter env (transitionFor H state e) (some e)).Tracked env H := by
  obtain ⟨states, hlayer, hidx⟩ := curState_eq_ok hstate
  have hclock := env.clock_mono (Nat.le_succ m.instant)
  constructor
  · intro states' hstates'
    obtain rfl : states = states' := Option.some.inj (hlayer.symm.trans hstates')
    rw [enter, recent_append_taken]
    exact (hm.run states hlayer).input hm.past hidx rfl fun n hn ↦ by simp [hn]
  · intro moment hmoment
    rw [enter, recent_append_taken] at hmoment
    rcases List.mem_append.mp hmoment with h | h
    · exact hm.past_of_le (Nat.le_succ _) moment h
    · rw [List.mem_singleton.mp h]
      exact hclock

theorem act (hm : m.Tracked env H) (h : Act env H m m') : m'.Tracked env H := by
  cases h with
  | output hact => exact hm.output hact
  | input hstate e => exact hm.input hstate e
  | expire hstate ht hd => exact hm.expire hstate ht hd
  | quiet hstate hquiet => exact hm.quiet hstate hquiet
  | emit =>
      unfold checkQueuedEvents
      split
      · exact hm
      · exact hm.frame rfl rfl rfl rfl rfl (Nat.le_succ _)
  | bypass e =>
      cases e with
      | app appName => exact hm
      | key e => exact hm.frame rfl rfl rfl rfl rfl (Nat.le_refl _)
  | count e =>
      unfold countKey
      split
      · split
        · exact hm.frame rfl rfl rfl rfl rfl (Nat.le_refl _)
        · exact hm
      · exact hm
  | processed => exact hm.frame rfl rfl rfl rfl rfl (Nat.le_refl _)

theorem acts (hm : m.Tracked env H) (h : Acts env H m m') : m'.Tracked env H := by
  induction h with
  | refl => exact hm
  | tail _ hact ih => exact ih.act hact

end Tracked

/-- Every transition of a history that was taken after `before` ends a run of
the machine of its layer. -/
def Traced (H : QHash) (machines : List (List State)) (before history : List Moment) : Prop :=
  ∀ ms L idx event now transition, before <+: ms →
    ms ++ [.taken L idx event now transition] <+: history →
    ∀ states, machines[L]? = some states → ∃ idx' timer,
      Run H L states (recent (ms ++ [.taken L idx event now transition])) idx' timer

namespace Traced

variable {machines : List (List State)} {before history : List Moment}

theorem refl (H : QHash) (machines : List (List State)) (before : List Moment) :
    Traced H machines before before := by
  intro ms L idx event now transition hbefore hms
  have hlength := (hbefore.length_le).trans (Nat.le_refl _)
  have hshort := hms.length_le
  simp only [List.length_append, List.length_singleton] at hshort
  omega

theorem append (h : Traced H machines before history) {moment : Moment}
    (hrun : ∀ L idx event now transition, moment = .taken L idx event now transition →
      ∀ states, machines[L]? = some states → ∃ idx' timer,
        Run H L states (recent (history ++ [moment])) idx' timer) :
    Traced H machines before (history ++ [moment]) := by
  intro ms L idx event now transition hbefore hms
  rcases List.prefix_concat_iff.mp hms with heq | hms
  · obtain ⟨rfl, hlast⟩ := List.append_inj' heq rfl
    rw [heq]
    exact hrun L idx event now transition (List.cons.inj hlast).1.symm
  · exact h ms L idx event now transition hbefore hms

theorem append_other (h : Traced H machines before history) {moment : Moment}
    (hother : ∀ L idx event now transition, moment ≠ .taken L idx event now transition) :
    Traced H machines before (history ++ [moment]) :=
  h.append fun L idx event now transition heq ↦ (hother L idx event now transition heq).elim

end Traced

/-- Acts only add to the history, and every transition among what they add
ends a run. -/
theorem Tracked.traced (hm : m.Tracked env H) (h : Acts env H m m') :
    m.history <+: m'.history ∧ Traced H m.states m.history m'.history := by
  induction h with
  | refl => exact ⟨List.prefix_refl _, .refl H _ _⟩
  | @tail m₁ m₂ hacts hact ih =>
      obtain ⟨hpre, htraced⟩ := ih
      have hm₁ := hm.acts hacts
      have hm₂ := hm₁.act hact
      have hstates : m₂.states = m.states :=
        hact.sameMachines.states_eq.trans (Acts.sameMachines hacts).states_eq
      cases hact with
      | output hout =>
          cases hout with
          | queue e delay =>
              exact ⟨hpre.trans (List.prefix_append _ _), htraced.append_other (by simp)⟩
          | swap hswap =>
              obtain ⟨announced, rfl⟩ := setLayerInner_spec hswap
              exact ⟨hpre.trans (List.prefix_append _ _), htraced.append_other (by simp)⟩
      | input hstate e =>
          refine ⟨hpre.trans (List.prefix_append _ _), htraced.append ?_⟩
          intro L idx event now transition heq states hlayer
          cases heq
          exact ⟨_, _, hm₂.run states (hstates ▸ hlayer)⟩
      | expire hstate ht hd =>
          have hchecked : Traced H m.states m.history (m₁.checked env).history :=
            htraced.append_other (by simp)
          refine ⟨(hpre.trans (List.prefix_append _ _)).trans (List.prefix_append _ _),
            hchecked.append ?_⟩
          intro L idx event now transition heq states hlayer
          cases heq
          exact ⟨_, _, hm₂.run states (hstates ▸ hlayer)⟩
      | quiet hstate hquiet =>
          exact ⟨hpre.trans (List.prefix_append _ _), htraced.append_other (by simp)⟩
      | emit =>
          unfold checkQueuedEvents
          split <;> exact ⟨hpre, htraced⟩
      | bypass e => cases e <;> exact ⟨hpre, htraced⟩
      | count e =>
          unfold countKey
          split
          · split <;> exact ⟨hpre, htraced⟩
          · exact ⟨hpre, htraced⟩
      | processed => exact ⟨hpre, htraced⟩

end Mapper

end Keybinder

import Keybinder.MapperIndices
import Keybinder.Tracking

/-!
# A sequence that is fed is matched

When the triggers of a sequence are fed from HOME with its waits kept, the
mapper should execute its binds, once.  It does for a sequence of a
separated layer that nothing listed before it hinders: no wait of another
sequence where it has none, no other reaction to its last wait, and no
maximum wait at its end, whose binds the construction drops.
-/

namespace Keybinder

/-- The time at which the last event was processed. -/
def lastRead (ms : List Moment) : ℕ :=
  ms.foldl (fun time moment ↦ if moment.event.isSome then moment.time else time) 0

/-- What is left of a wait that began at `start` after a check of the timer. -/
def leftOf (wait : Option Timer) (start now : ℕ) : Option Timer :=
  match wait with
  | some (.minimumWait ms) => if start + ms ≤ now then none else wait
  | _ => wait

/-- A maximum wait that began at `start` has not elapsed. -/
def InTime (wait : Option Timer) (start now : ℕ) : Prop :=
  match wait with
  | some (.maximumWait ms) => now < start + ms
  | _ => True

/-- No minimum wait is pending. -/
def WaitOver (wait : Option Timer) : Prop :=
  match wait with
  | some (.minimumWait _) => False
  | _ => True

/-- The iterations feed the triggers of the passes and nothing else: after a
minimum wait not before a check has found it elapsed, after a maximum wait
while no check has.  The first argument is the wait that is going on. -/
def Mapper.Paced (env : Env) (H : QHash) (fuel : ℕ) :
    Option Timer → List LoopPass → List (Option InputEvent) → Mapper → Prop
  | wait, passes, [], _ => passes = [] ∧ WaitOver wait
  | wait, passes, none :: keys, m =>
      InTime wait (lastRead m.history) (env.clock m.instant) ∧
        ∀ m', m.loopBody env H fuel none = .ok m' →
          Paced env H fuel (leftOf wait (lastRead m.history) (env.clock m.instant)) passes keys m'
  | _, [], some _ :: _, _ => False
  | wait, pass :: passes, some e :: keys, m =>
      pass.trigger.triggerToInput = some e ∧
        InTime wait (lastRead m.history) (env.clock m.instant) ∧
        WaitOver (leftOf wait (lastRead m.history) (env.clock m.instant)) ∧
        ∀ m', m.loopBody env H fuel (some e) = .ok m' → Paced env H fuel pass.timer passes keys m'

/-- Nothing in the layer keeps the sequence from its match: where it has no
wait no timer is set, where it has a minimum wait one is; it does not end
with a maximum wait, a minimum wait at its end is the first wait there, and
the basic translations of a Release sequence on the way stay in the layer. -/
structure Layer.Unhindered (layer : Layer) (s : SequenceTrigger) (j : ℕ) : Prop where
  untimed : ∀ o ∈ s.occurrences j, o.pass.timer = none → o.pass.final = false →
    ∀ c ∈ firstAt layer.occurrences o.dest, c.pass.timer = none
  timed : ∀ o ∈ s.occurrences j, ∀ ms, o.pass.timer = some (.minimumWait ms) →
    ∀ c ∈ firstAt layer.occurrences o.dest, c.pass.timer.isSome = true
  noTimeout : ∀ o ∈ s.occurrences j, ∀ ms, o.pass.timer = some (.maximumWait ms) →
    o.pass.final = false
  own : ∀ o ∈ s.occurrences j, o.pass.final = true → o.pass.timer.isSome = true →
    ∀ c ∈ firstTimedAt layer.occurrences o.dest, c = o
  stays : ∀ o ∈ s.occurrences j, s.behavior = .release → o.pass.isLast = false →
    ∀ entry ∈ layer.basicRemappings, entry.1.triggerToInput.eq o.input = true →
      ∀ b ∈ entry.2, ∀ n, b ≠ .swapLayer n

/-- The binds of the sequence were executed, once, and no others: after all
its triggers, right with the last one or, after a wait at its end, on the
timer. -/
def ExecutedOnce (s : SequenceTrigger) (j : ℕ) (ms : List Moment) : Prop :=
  ∃ before after layer idx event now transition,
    ms = before ++ .taken layer idx event now transition :: after ∧
    transition.owner = some j ∧ (∃ lead, transition.outputs = lead ++ s.binds.map .bind) ∧
    (∀ m ∈ before ++ after, m.owner = none) ∧
    before.filterMap Moment.event ++ event.toList = s.inputs ∧
    (event = none ↔ ∃ pass ∈ loopPasses [] s.sequence, pass.final = true ∧
      ∃ wait, pass.timer = some (.minimumWait wait))

/-! ## What outputs leave alone -/

/-- Moments without an event in which no binds are executed. -/
def Silent (ms : List Moment) : Prop := ∀ m ∈ ms, m.owner = none ∧ m.event = none

theorem Silent.lastRead {ext : List Moment} (h : Silent ext) (ms : List Moment) :
    lastRead (ms ++ ext) = lastRead ms := by
  induction ext using List.reverseRecOn with
  | nil => simp
  | append_singleton ext m ih =>
      have hm : m.event = none := (h m (by simp)).2
      rw [← List.append_assoc, Keybinder.lastRead, List.foldl_append, ← Keybinder.lastRead,
        ih fun m hm ↦ h m (List.mem_append_left _ hm)]
      simp [hm]

theorem Silent.events {ext : List Moment} (h : Silent ext) : ext.filterMap Moment.event = [] := by
  rw [List.filterMap_eq_nil_iff]
  exact fun m hm ↦ (h m hm).2

theorem Silent.append {ext ext' : List Moment} (h : Silent ext) (h' : Silent ext') :
    Silent (ext ++ ext') := by
  intro m hm
  rcases List.mem_append.mp hm with hm | hm
  · exact h m hm
  · exact h' m hm

namespace Mapper

variable {env : Env} {H : QHash} {m m' : Mapper} {transition : Transition}
  {prevEvent : Option InputEvent} {redo : List InputEvent}

theorem Outputs.history (h : Outputs env m m') :
    ∃ ext, m'.history = m.history ++ ext ∧ Silent ext := by
  induction h with
  | refl => exact ⟨[], by simp, by simp [Silent]⟩
  | tail _ hact ih =>
      obtain ⟨ext, hext, hsilent⟩ := ih
      cases hact with
      | queue e delay =>
          refine ⟨ext ++ [_], by rw [queueOutput, hext, List.append_assoc], hsilent.append ?_⟩
          simp [Silent, Moment.owner, Moment.event]
      | swap hswap =>
          obtain ⟨announced, rfl⟩ := setLayerInner_spec hswap
          refine ⟨ext ++ [_], by rw [hext, List.append_assoc], hsilent.append ?_⟩
          simp [Silent, Moment.owner, Moment.event]

/-- Binds that stay in the layer leave the place and the timer alone. -/
theorem queueBinds_stays {binds : List Bind} (hno : ∀ b ∈ binds, ∀ n, b ≠ .swapLayer n)
    (h : m.queueBinds env binds = .ok m') :
    m'.curLayerIdx = m.curLayerIdx ∧ m'.curStateIdx = m.curStateIdx ∧
      m'.currentTimer = m.currentTimer := by
  obtain ⟨⟨m₁, delay⟩, hfold, hm₁⟩ := Exits.bind_eq_ok.mp h
  cases hm₁
  have hkeeps : (m', delay).1.curLayerIdx = m.curLayerIdx ∧
      (m', delay).1.curStateIdx = m.curStateIdx ∧
      (m', delay).1.currentTimer = m.currentTimer := by
    refine Exits.foldlM_keeps (P := fun c ↦ c.1.curLayerIdx = m.curLayerIdx ∧
      c.1.curStateIdx = m.curStateIdx ∧ c.1.currentTimer = m.currentTimer) ?_ hfold ⟨rfl, rfl, rfl⟩
    rintro ⟨m₂, delay₂⟩ ⟨m₃, delay₃⟩ b hb hm₂ hstep
    cases b with
    | swapLayer n => exact (hno _ hb n rfl).elim
    | _ =>
        cases hstep
        exact hm₂
  exact hkeeps

theorem fire_stays {k : InputEvent} {basicMap : List (InputEvent × List Bind)}
    (houtputs : transition.outputs = [] ∨ transition.outputs = [.basicTranlation (some k)] ∧
      ∀ binds, H.find basicMap k = some binds → ∀ b ∈ binds, ∀ n, b ≠ .swapLayer n)
    (hmap : m.basicMaps[m.curLayerIdx]? = some basicMap)
    (h : m.fire env H transition prevEvent = .ok (m', redo)) :
    redo = [] ∧ m'.curLayerIdx = m.curLayerIdx ∧
      m'.curStateIdx = transition.newState.getD (env.unassigned m.instant) ∧
      m'.currentTimer = transition.deadline (env.clock m.instant) := by
  unfold fire at h
  rcases houtputs with houtputs | ⟨houtputs, hno⟩
  · rw [houtputs] at h
    cases h
    exact ⟨rfl, rfl, rfl, rfl⟩
  · rw [houtputs] at h
    obtain ⟨c, hout, hc⟩ := Exits.foldlM_cons_eq_ok.mp h
    cases hc
    have hmap' : (m.enter env transition prevEvent).basicMaps[
        (m.enter env transition prevEvent).curLayerIdx]? = some basicMap := hmap
    simp only [runOutput] at hout
    split at hout
    · rename_i hnone
      simp at hnone
    · rename_i e he
      obtain rfl : k = e := by simpa using he
      simp only [vectorAt, hmap', Exits.ok_bind] at hout
      cases hfind : H.find basicMap k with
      | some binds =>
          simp only [hfind] at hout
          obtain ⟨m₁, hbinds, hm₁⟩ := Exits.bind_eq_ok.mp hout
          cases hm₁
          exact ⟨rfl, queueBinds_stays (hno binds hfind) hbinds⟩
      | none =>
          simp only [hfind] at hout
          cases k <;>
            · cases hout
              exact ⟨rfl, rfl, rfl, rfl⟩

end Mapper

/-! ## Where the mapper is in the sequence -/

/-- The mapper runs the machine of a layer. -/
structure Steady (machines : List (List State)) (L : ℕ) (basicMap : List (InputEvent × List Bind))
    (m : Mapper) : Prop where
  seated : m.Seated machines
  layer_eq : m.curLayerIdx = L
  paused_eq : m.paused = false
  map_eq : m.basicMaps[L]? = some basicMap

/-- The match is over and the mapper at the HOME of some layer. -/
structure Rested (machines : List (List State)) (m : Mapper) : Prop where
  seated : m.Seated machines
  paused_eq : m.paused = false
  state_eq : m.curStateIdx = homeStateIdx
  timer_eq : m.currentTimer = none

section Stages

variable {machines : List (List State)} {L : ℕ} {basicMap : List (InputEvent × List Bind)}
  {m m' : Mapper}

theorem Steady.frame (h : Steady machines L basicMap m) (hsame : m.SameStage m') :
    Steady machines L basicMap m' where
  seated := h.seated.frame hsame.profile_eq hsame.states_eq hsame.basicMaps_eq hsame.layer_eq
  layer_eq := hsame.layer_eq.trans h.layer_eq
  paused_eq := hsame.paused_eq.trans h.paused_eq
  map_eq := by rw [hsame.basicMaps_eq, h.map_eq]

theorem Steady.checked (h : Steady machines L basicMap m) (env : Env) :
    Steady machines L basicMap (m.checked env) :=
  ⟨h.seated.frame rfl rfl rfl rfl, h.layer_eq, h.paused_eq, h.map_eq⟩

theorem Rested.frame (h : Rested machines m) (hsame : m.SameStage m') : Rested machines m' where
  seated := h.seated.frame hsame.profile_eq hsame.states_eq hsame.basicMaps_eq hsame.layer_eq
  paused_eq := hsame.paused_eq.trans h.paused_eq
  state_eq := hsame.state_eq.trans h.state_eq
  timer_eq := hsame.timer_eq.trans h.timer_eq

/-- A transition that leads home and sets no timer leaves the mapper at rest,
whatever its outputs do. -/
theorem rested_of_outputs {env : Env} {transition : Transition} {prevEvent : Option InputEvent}
    (hseated : m'.Seated machines) (hpaused : m.paused = false)
    (houtputs : Mapper.Outputs env (m.enter env transition prevEvent) m')
    (hnew : transition.newState = some homeStateIdx) (htimer : transition.timerMs = none) :
    Rested machines m' := by
  have hkept := houtputs.kept
  refine ⟨hseated, hkept.paused_eq.trans hpaused, ?_, ?_⟩
  · rcases hkept.position with ⟨-, hstate, -⟩ | ⟨hhome, -⟩
    · rw [hstate, Mapper.enter, hnew]
      rfl
    · exact hhome
  · rcases hkept.position with ⟨-, -, hnone⟩ | ⟨-, hnone⟩
    · rw [hnone, Mapper.enter, htimer]
      rfl
    · exact hnone

theorem exists_fire (env : Env) (H : QHash) {states : List State} {state : State}
    {transition : Transition} (hseated : m.Seated machines)
    (hstates : machines[m.curLayerIdx]? = some states)
    (hstate : states[m.curStateIdx]? = some state) (ht : transition ∈ state.transitions)
    (prevEvent : Option InputEvent) : ∃ m' silent,
      m.fire env H transition prevEvent =
        .ok (m', transition.outputs.filterMap (Mapper.redoOf prevEvent)) ∧
      m'.Seated machines ∧ Mapper.Outputs env (m.enter env transition prevEvent) m' ∧
      m'.history = (m.enter env transition prevEvent).history ++ silent ∧ Silent silent := by
  have havoids : ∀ bad, Exits.Avoids bad (fun c ↦ c.1.Seated machines)
      (m.fire env H transition prevEvent) := fun _ ↦
    hseated.fire hstates (List.mem_of_getElem? hstate) ht prevEvent
  obtain ⟨⟨m', redo⟩, hfire, hseated'⟩ := Exits.Avoids.exists_ok havoids
  obtain ⟨houtputs, rfl⟩ := Mapper.fire_spec hfire
  obtain ⟨silent, hhistory, hsilent⟩ := houtputs.history
  exact ⟨m', silent, hfire, hseated', houtputs, hhistory, hsilent⟩

theorem Rested.check (h : Rested machines m) (env : Env) (H : QHash) (fuel : ℕ) :
    m.checkTimer env H fuel = .ok (m.checked env) ∧ Rested machines (m.checked env) := by
  obtain ⟨states, hstates⟩ : ∃ states, machines[m.curLayerIdx]? = some states :=
    ⟨_, List.getElem?_eq_getElem h.seated.layer_lt⟩
  have hhome : homeStateIdx < states.length := by
    apply h.seated.compiled.nonempty
    rw [h.seated.states_eq]
    exact List.mem_of_getElem? hstates
  have hstate : m.curState = .ok states[homeStateIdx] := by
    simp [Mapper.curState, vectorAt, h.seated.states_eq, hstates, h.state_eq,
      List.getElem?_eq_getElem hhome]
  have hexpired : ¬ m.Expired env := Mapper.not_expired_of_none h.timer_eq
  refine ⟨Mapper.checkTimer_of_not_expired hstate hexpired, ?_⟩
  exact ⟨h.seated.frame rfl rfl rfl rfl, h.paused_eq, h.state_eq, h.timer_eq⟩

end Stages

namespace StraightMachine

variable {H : QHash} {layer : Layer} {states : List State} (M : StraightMachine H layer states)

/-- The mapper has read the given occurrences of a sequence; the first
argument is the wait that is going on. -/
inductive On (M : StraightMachine H layer states) :
    Option Timer → List Occurrence → Mapper → Prop
  | home {m : Mapper} (hp : m.curStateIdx = homeStateIdx) (htimer : m.currentTimer = none) :
      On M none [] m
  | read {pre : List Occurrence} {o c : Occurrence} {m : Mapper} (hlast : o.pass.isLast = false)
      (hp : M.places[m.curStateIdx]? = some o.dest)
      (hc : firstAt layer.occurrences o.dest = some c)
      (htimer : m.currentTimer = c.pass.timer.map fun d ↦ lastRead m.history + d.ms) :
      On M o.pass.timer (pre ++ [o]) m
  | waited {pre : List Occurrence} {o : Occurrence} {m : Mapper} (hmid : o.pass.midWait = true)
      (hp : M.places[m.curStateIdx]? = some (o.dest ++ [.wait])) (htimer : m.currentTimer = none) :
      On M none (pre ++ [o]) m

variable {machines : List (List State)} {L : ℕ} {basicMap : List (InputEvent × List Bind)}
  {wait : Option Timer} {pre : List Occurrence} {m m' : Mapper} {env : Env} {fuel : ℕ} {p : Place}

theorem On.frame (h : M.On wait pre m) (hstate : m'.curStateIdx = m.curStateIdx)
    (htimer : m'.currentTimer = m.currentTimer) (hread : lastRead m'.history = lastRead m.history) :
    M.On wait pre m' := by
  cases h with
  | home hp ht => exact .home (hstate.trans hp) (htimer.trans ht)
  | read hlast hp hc ht => exact .read hlast (hstate ▸ hp) hc (by rw [htimer, hread, ht])
  | waited hmid hp ht => exact .waited hmid (hstate ▸ hp) (htimer.trans ht)

theorem On.exists_place (h : M.On wait pre m) : ∃ p, M.places[m.curStateIdx]? = some p := by
  cases h with
  | home hp _ => exact ⟨[], hp ▸ M.home_place⟩
  | read _ hp => exact ⟨_, hp⟩
  | waited _ hp => exact ⟨_, hp⟩

/-- The next occurrence is read at the current place, unless a minimum wait
is pending. -/
theorem On.place_of_waitOver (h : M.On wait pre m) (hover : WaitOver wait) :
    M.places[m.curStateIdx]? = some ((pre.getLast?.map Occurrence.next).getD []) := by
  cases h with
  | home hp _ =>
      rw [hp]
      exact M.home_place
  | @read pre o c m hlast hp hc ht =>
      have hmid : o.pass.midWait = false := by
        unfold LoopPass.midWait
        split
        · rename_i ms hms
          rw [hms] at hover
          exact hover.elim
        · rfl
      simpa [Occurrence.next, hmid] using hp
  | waited hmid hp _ => simpa [Occurrence.next, hmid] using hp

theorem curState_of_place (hstates : machines[L]? = some states)
    (hm : Steady machines L basicMap m) (hp : M.places[m.curStateIdx]? = some p) :
    m.curState = .ok (M.trie.state (Numbering.number M.places) M.trie p) ∧
      states[m.curStateIdx]? = some (M.trie.state (Numbering.number M.places) M.trie p) := by
  have hstate := M.represents.state hp
  refine ⟨?_, hstate⟩
  have hlayer : m.states[m.curLayerIdx]? = some states := by
    rw [hm.seated.states_eq, hm.layer_eq, hstates]
  simp [Mapper.curState, vectorAt, hlayer, hstate]

/-- The wait of the last occurrence has run out: on to the place after it, or
to the binds when the sequence ends with it. -/
theorem expire_of_read (pre : List Occurrence) (fuel : ℕ) (hsep : layer.Separated)
    {s : SequenceTrigger} {j : ℕ} (hfree : layer.Unhindered s j)
    (hs : layer.sequenceRemappings[j]? = some s) (hstates : machines[L]? = some states)
    (hm : Steady machines L basicMap m) {o : Occurrence} {ms : ℕ} (ho : o ∈ s.occurrences j)
    (hp : M.places[m.curStateIdx]? = some o.dest) (ht : o.pass.timer = some (.minimumWait ms))
    (hexpired : m.Expired env) :
    ∃ m' now transition silent, m.checkTimer env H fuel = .ok m' ∧
      m'.history = m.history ++ [.poll (env.clock m.instant),
        .taken L m.curStateIdx none now transition] ++ silent ∧ Silent silent ∧
      (o.pass.final = false ∧ transition.owner = none ∧ Steady machines L basicMap m' ∧
          M.On none (pre ++ [o]) m' ∨
        o.pass.final = true ∧ transition.owner = some j ∧
          transition.outputs = s.binds.map .bind ∧ Rested machines m') := by
  obtain ⟨hcur, hstate⟩ := M.curState_of_place hstates hm hp
  have hmem := Layer.occurrences_subset hs ho
  obtain ⟨x, hx, hfirst⟩ := M.exists_timedAt hmem (by simp [ht])
  obtain ⟨-, -, hxtgt⟩ := Trie.timedAt_eq_some hx
  have htimer : (M.trie.state (Numbering.number M.places) M.trie o.dest).timerTransition =
      some (M.reaction x) := by
    simp [Trie.state, hx, reaction, hxtgt]
  have hchecked := hm.checked env
  have hlayer : machines[(m.checked env).curLayerIdx]? = some states := by
    rw [hchecked.layer_eq, hstates]
  have htransition : M.reaction x ∈
      (M.trie.state (Numbering.number M.places) M.trie o.dest).transitions := by
    simp [State.transitions, htimer]
  obtain ⟨m', silent, hfire, hseated, houtputs, hhistory, hsilent⟩ :=
    exists_fire env H hchecked.seated hlayer hstate htransition none
  have hhistory' : m'.history = m.history ++ [.poll (env.clock m.instant),
      .taken L m.curStateIdx none (env.clock (m.instant + 1)) (M.reaction x)] ++ silent := by
    rw [hhistory]
    simp [Mapper.enter, Mapper.checked, hm.layer_eq]
  cases hfinal : o.pass.final with
  | false =>
      have hmid : o.pass.midWait = true := by simp [LoopPass.midWait, ht, hfinal]
      have hxmid := hsep.waitsOpen o hmem hmid x.toOccurrence hfirst
      have hreaction := M.reaction_of_midWait hxmid
      have hplace : M.places[Numbering.number M.places x.timerPlace]? =
          some (o.dest ++ [.wait]) := by
        rw [← hxtgt, ← Placement.timerPlace_of_midWait hxmid]
        exact Numbering.getElem?_number (M.represents.timer_mem x _ hx)
      rw [hreaction] at hfire
      cases hfire
      refine ⟨_, _, _, silent, Mapper.checkTimer_of_expired hcur htimer hexpired ?_, hhistory',
        hsilent, .inl ⟨rfl, by rw [hreaction], ?_, ?_⟩⟩
      · rw [hreaction]
        rfl
      · exact ⟨hseated, hm.layer_eq, hm.paused_eq, hm.map_eq⟩
      · exact .waited hmid hplace rfl
  | true =>
      have hx' := hfree.own o ho hfinal (by simp [ht]) x.toOccurrence hfirst
      have hof := SequenceTrigger.of_mem_occurrences ho
      have hxpass : x.pass = o.pass := by rw [← hx']
      have hxsequence : x.sequence = s := by rw [← hof.sequence_eq, ← hx']
      have hxowner : x.owner = j := by rw [← hof.owner_eq, ← hx']
      have hreaction : M.reaction x = {
          outputs := s.binds.map .bind
          newState := some homeStateIdx
          owner := some j } := by
        rw [M.reaction_of_final (by rw [hxpass]; exact ht) (by rw [hxpass]; exact hfinal),
          hxsequence, hxowner]
      have hnone : (M.reaction x).outputs.filterMap (Mapper.redoOf none) = [] := by
        rw [hreaction]
        simp [Mapper.redoOf]
      rw [hnone] at hfire
      refine ⟨_, _, _, silent, Mapper.checkTimer_of_expired hcur htimer hexpired hfire, hhistory',
        hsilent, .inr ⟨rfl, by rw [hreaction], by rw [hreaction], ?_⟩⟩
      apply rested_of_outputs hseated hchecked.paused_eq houtputs
      · rw [hreaction]
      · rw [hreaction]

theorem On.check (fuel : ℕ) (hsep : layer.Separated) {s : SequenceTrigger} {j : ℕ}
    (hfree : layer.Unhindered s j) (hs : layer.sequenceRemappings[j]? = some s)
    (hstates : machines[L]? = some states) (hm : Steady machines L basicMap m)
    (hon : M.On wait pre m) (hpre : pre ⊆ s.occurrences j)
    (hin : InTime wait (lastRead m.history) (env.clock m.instant)) :
    ∃ m' ext, m.checkTimer env H fuel = .ok m' ∧ m'.history = m.history ++ ext ∧
      (Silent ext ∧ Steady machines L basicMap m' ∧
          M.On (leftOf wait (lastRead m.history) (env.clock m.instant)) pre m' ∨
        Rested machines m' ∧ ∃ o ∈ pre.getLast?, o.pass.final = true ∧
          (∃ ms, o.pass.timer = some (.minimumWait ms)) ∧ ∃ idx now polled transition silent,
            ext = [.poll polled, .taken L idx none now transition] ++ silent ∧ Silent silent ∧
            transition.owner = some j ∧ transition.outputs = s.binds.map .bind) := by
  obtain ⟨p, hp⟩ := hon.exists_place
  have hcur := (M.curState_of_place hstates hm hp).1
  have hpolled : Silent [.poll (env.clock m.instant)] := by
    simp [Silent, Moment.owner, Moment.event]
  have hquiet : ¬ m.Expired env → leftOf wait (lastRead m.history) (env.clock m.instant) = wait →
      ∃ m' ext, m.checkTimer env H fuel = .ok m' ∧ m'.history = m.history ++ ext ∧
        Silent ext ∧ Steady machines L basicMap m' ∧
          M.On (leftOf wait (lastRead m.history) (env.clock m.instant)) pre m' := by
    intro hno hleft
    refine ⟨m.checked env, _, Mapper.checkTimer_of_not_expired hcur hno, rfl, hpolled,
      hm.checked env, ?_⟩
    rw [hleft]
    exact hon.frame M rfl rfl (hpolled.lastRead _)
  have hnone : m.currentTimer = none → ¬ m.Expired env := Mapper.not_expired_of_none
  cases hon with
  | home hhome htimer =>
      obtain ⟨m', ext, h⟩ := hquiet (hnone htimer) rfl
      exact ⟨m', ext, h.1, h.2.1, .inl h.2.2⟩
  | waited hmid hp htimer =>
      obtain ⟨m', ext, h⟩ := hquiet (hnone htimer) rfl
      exact ⟨m', ext, h.1, h.2.1, .inl h.2.2⟩
  | @read pre o c m hlast hp hc htimer =>
      have ho : o ∈ s.occurrences j := hpre (by simp)
      have hmem := Layer.occurrences_subset hs ho
      cases ht : o.pass.timer with
      | none =>
          have hfinal : o.pass.final = false := by simpa [LoopPass.isLast, ht] using hlast
          have hctimer := hfree.untimed o ho ht hfinal c hc
          obtain ⟨m', ext, h⟩ := hquiet (hnone (by simp [htimer, hctimer])) (by simp [leftOf, ht])
          exact ⟨m', ext, h.1, h.2.1, .inl (ht ▸ h.2.2)⟩
      | some d =>
          cases d with
          | maximumWait ms =>
              have hno : ¬ m.Expired env := by
                rintro ⟨d, hd, hle⟩
                rw [htimer] at hd
                obtain ⟨w, hw, rfl⟩ := Option.map_eq_some_iff.mp hd
                have hagrees := M.timer_agrees hmem hc (by simp [hw]) (by simp [ht])
                obtain rfl := Option.some.inj (hw.symm.trans (hagrees.trans ht))
                rw [ht] at hin
                exact Nat.not_lt.mpr hle hin
              obtain ⟨m', ext, h⟩ := hquiet hno (by simp [leftOf, ht])
              exact ⟨m', ext, h.1, h.2.1, .inl (ht ▸ h.2.2)⟩
          | minimumWait ms =>
              have hagrees := M.timer_agrees hmem hc (hfree.timed o ho ms ht c hc) (by simp [ht])
              have htimer' : m.currentTimer = some (lastRead m.history + ms) := by
                rw [htimer, hagrees, ht]
                rfl
              by_cases hle : lastRead m.history + ms ≤ env.clock m.instant
              · obtain ⟨m', now, transition, silent, hcheck, hhistory, hsilent, h⟩ :=
                  M.expire_of_read pre fuel hsep hfree hs hstates hm ho hp ht
                    ⟨_, htimer', hle⟩
                refine ⟨m', _, hcheck, by rw [hhistory, List.append_assoc], ?_⟩
                rcases h with ⟨-, howner, hm', hon'⟩ | ⟨hfinal, howner, houtputs, hrested⟩
                · have htaken : Silent [.taken L m.curStateIdx none now transition] := by
                    simp [Silent, Moment.owner, Moment.event, howner]
                  refine .inl ⟨(hpolled.append htaken).append hsilent, hm', ?_⟩
                  simpa [leftOf, hle] using hon'
                · exact .inr ⟨hrested, o, by simp, hfinal, ⟨ms, ht⟩, _, _, _, transition, silent,
                    rfl, hsilent, howner, houtputs⟩
              · have hno : ¬ m.Expired env := by
                  rintro ⟨d, hd, hd'⟩
                  rw [htimer', Option.some.injEq] at hd
                  exact hle (hd ▸ hd')
                obtain ⟨m', ext, h⟩ := hquiet hno (by simp [leftOf, ht, hle])
                exact ⟨m', ext, h.1, h.2.1, .inl (ht ▸ h.2.2)⟩

theorem translation_stays {s : SequenceTrigger} {j : ℕ} (hfree : layer.Unhindered s j)
    (hmap : Mapper.buildBasicMap H layer = .ok basicMap) {o : Occurrence}
    (ho : o ∈ s.occurrences j) (hrelease : s.behavior = .release) (hlast : o.pass.isLast = false)
    {k : InputEvent} (hk : k.symbol = o.input.symbol) {binds : List Bind}
    (hfind : H.find basicMap k = some binds) : ∀ b ∈ binds, ∀ n, b ≠ .swapLayer n := by
  obtain ⟨k', hk', heq⟩ := H.find_eq_some hfind
  obtain rfl := Mapper.buildBasicMap_eq hmap
  obtain ⟨⟨trigger, binds'⟩, hmem, hpair⟩ := List.mem_map.mp hk'
  obtain ⟨rfl, rfl⟩ := Prod.mk.inj hpair
  refine hfree.stays o ho hrelease hlast _ hmem ?_
  rw [InputEvent.eq_congr rfl hk.symm]
  exact heq

theorem edge_of_last {s : SequenceTrigger} {j : ℕ} {y : Placement} (hy : y ∈ M.trie)
    (hof : y.toOccurrence.Of s j) (hlast : y.pass.isLast = true) :
    (M.edge y).owner = some j ∧ (M.edge y).newState = some homeStateIdx ∧
      (M.edge y).timerMs = none ∧ ∃ lead, (M.edge y).outputs = lead ++ s.binds.map .bind := by
  have htgt : y.tgt = [] := by simpa [hlast] using M.straight.tgt y hy
  have htimer := (LoopPass.timer_of_isLast hlast).1
  have hsequence : y.sequence = s := hof.sequence_eq
  have howner : y.owner = j := hof.owner_eq
  refine ⟨?_, ?_, ?_, if s.behavior = .release then [.basicTranlation (some y.stored)] else [], ?_⟩
  · simp [edge, Placement.transition, newTransition, hlast, howner]
  · simp [edge, Placement.transition, newTransition, htgt, M.represents.number_home]
  · simp [edge, Placement.transition, newTransition, htimer]
  · simp [edge, Placement.transition, newTransition, hlast, hsequence]

theorem edge_outputs_stay {s : SequenceTrigger} {j : ℕ} (hfree : layer.Unhindered s j)
    (hmap : Mapper.buildBasicMap H layer = .ok basicMap) {o : Occurrence}
    (ho : o ∈ s.occurrences j) (hlast : o.pass.isLast = false) {y : Placement}
    (hylast : y.pass.isLast = false) (hbehavior : y.sequence.behavior = s.behavior)
    (hstored : y.stored.symbol = o.input.symbol) :
    (M.edge y).outputs = [] ∨ (M.edge y).outputs = [.basicTranlation (some y.stored)] ∧
      ∀ binds, H.find basicMap y.stored = some binds → ∀ b ∈ binds, ∀ n, b ≠ .swapLayer n := by
  by_cases hrelease : y.sequence.behavior = .release
  · refine .inr ⟨?_, fun binds hfind ↦ ?_⟩
    · simp [edge, Placement.transition, newTransition, hylast, hrelease]
    · exact translation_stays hfree hmap ho (hbehavior.symm.trans hrelease) hlast hstored hfind
  · left
    simp [edge, Placement.transition, newTransition, hylast, hrelease]

theorem edge_deadline {s : SequenceTrigger} {j now : ℕ} (hfree : layer.Unhindered s j)
    (hs : layer.sequenceRemappings[j]? = some s) {o : Occurrence} (ho : o ∈ s.occurrences j)
    (hlast : o.pass.isLast = false) {y : Placement}
    (hfirst : firstAt layer.occurrences o.dest = some y.toOccurrence)
    (hfits : ∀ d ∈ o.pass.timer, now + d.ms < uint64Size) :
    (M.edge y).deadline now = y.pass.timer.map fun d ↦ now + d.ms := by
  cases ht : y.pass.timer with
  | none => simp [Transition.deadline, edge, Placement.transition, newTransition, ht]
  | some d =>
      have hod : o.pass.timer = some d := by
        cases hot : o.pass.timer with
        | none =>
            have hfinal : o.pass.final = false := by simpa [LoopPass.isLast, hot] using hlast
            have hyt := hfree.untimed o ho hot hfinal _ hfirst
            rw [ht] at hyt
            cases hyt
        | some d' =>
            rw [← hot, ← M.timer_agrees (Layer.occurrences_subset hs ho) hfirst (by simp [ht])
              (by simp [hot])]
            exact ht
      have hlt : d.ms + now < uint64Size := by
        have hfit := hfits d hod
        omega
      simp [Transition.deadline, edge, Placement.transition, newTransition, ht, addU64_eq hlt,
        Nat.add_comm]

/-- The event of the next trigger of the sequence: on to the place after it,
or to the binds when it is the last. -/
theorem On.input (fuel : ℕ) (hsep : layer.Separated) {s : SequenceTrigger} {j : ℕ}
    (hfree : layer.Unhindered s j) (hs : layer.sequenceRemappings[j]? = some s)
    (hmap : Mapper.buildBasicMap H layer = .ok basicMap)
    (hfits : ∀ o ∈ s.occurrences j, ∀ d ∈ o.pass.timer, ∀ n, env.clock n + d.ms < uint64Size)
    (hstates : machines[L]? = some states) (hm : Steady machines L basicMap m)
    (hon : M.On wait pre m) (hover : WaitOver wait) {o : Occurrence} (ho : o ∈ s.occurrences j)
    (hsrc : o.src = (pre.getLast?.map Occurrence.next).getD []) :
    ∃ m' idx now transition silent, m.processInput env H (fuel + 1) o.input = .ok m' ∧
      m'.history = m.history ++ .taken L idx (some o.input) now transition :: silent ∧
      Silent silent ∧
      (o.pass.isLast = false ∧ transition.owner = none ∧ Steady machines L basicMap m' ∧
          M.On o.pass.timer (pre ++ [o]) m' ∨
        o.pass.isLast = true ∧ transition.owner = some j ∧
          (∃ lead, transition.outputs = lead ++ s.binds.map .bind) ∧ Rested machines m') := by
  have hp := hon.place_of_waitOver M hover
  rw [← hsrc] at hp
  obtain ⟨hcur, hstate⟩ := M.curState_of_place hstates hm hp
  have hmem := Layer.occurrences_subset hs ho
  have hof := SequenceTrigger.of_mem_occurrences ho
  obtain ⟨y, hy, hdest, hedge⟩ := M.edge_of_trigger (e := o.input) hsep hp hstate hmem rfl rfl
  have hfirst := M.firstAt_of_edge hy
  rw [hdest] at hfirst
  obtain ⟨x, hx, hxo⟩ := M.exists_of_mem hmem
  have hagrees := M.straight.agrees M.grows hx (c := y.toOccurrence) (by rw [hxo]; exact hfirst)
  rw [hxo] at hagrees
  have hymem := (Trie.mem_edgesAt.mp hy).1
  have hlayer : machines[m.curLayerIdx]? = some states := by rw [hm.layer_eq, hstates]
  have htransition : M.edge y ∈
      (M.trie.state (Numbering.number M.places) M.trie o.src).transitions := by
    rw [← hedge]
    exact Mapper.transitionFor_mem H _ _
  obtain ⟨m', silent, hfire, hseated, houtputs, hhistory, hsilent⟩ :=
    exists_fire env H hm.seated hlayer hstate htransition (some o.input)
  have hhistory' : m'.history = m.history ++ .taken L m.curStateIdx (some o.input)
      (env.clock m.instant) (M.edge y) :: silent := by
    rw [hhistory]
    simp [Mapper.enter, hm.layer_eq]
  have hnone : (M.edge y).outputs.filterMap (Mapper.redoOf (some o.input)) = [] :=
    Mapper.redos_edge _ y
  rw [hnone] at hfire
  have hprocess : m.processInput env H (fuel + 1) o.input = .ok m' :=
    Mapper.processInput_of_fire hm.paused_eq hcur (by rw [hedge]; exact hfire)
  cases hlast : o.pass.isLast with
  | true =>
      obtain rfl : y.toOccurrence = o := by
        rcases hagrees with h | ⟨hno, -⟩
        · exact h
        · rw [hlast] at hno
          cases hno
      obtain ⟨howner, hnew, htimer, hbinds⟩ := M.edge_of_last hymem hof hlast
      exact ⟨m', _, _, _, silent, hprocess, hhistory', hsilent, .inr ⟨rfl, howner, hbinds,
        rested_of_outputs hseated hm.paused_eq houtputs hnew htimer⟩⟩
  | false =>
      obtain ⟨hylast, hybehavior⟩ : y.pass.isLast = false ∧ y.sequence.behavior = s.behavior := by
        rcases hagrees with h | ⟨-, hno, hbehavior, -⟩
        · exact ⟨by rw [h, hlast], by rw [h, hof.sequence_eq]⟩
        · exact ⟨hno, hbehavior.trans (by rw [hof.sequence_eq])⟩
      have htgt : y.tgt = o.dest := by
        rw [← hdest]
        simpa [hylast] using M.straight.tgt y hymem
      have howner : (M.edge y).owner = none := by
        simp [edge, Placement.transition, newTransition, hylast]
      have hplace : M.places[Numbering.number M.places y.tgt]? = some o.dest := by
        rw [Numbering.getElem?_number (M.represents.tgt_mem y hymem), htgt]
      have hstored : y.stored.symbol = o.input.symbol := by
        have hdest' := M.dest_of_edge hy
        rw [hdest, Occurrence.dest] at hdest'
        simpa using (List.append_inj' hdest' rfl).2.symm
      have hout := M.edge_outputs_stay hfree hmap ho hlast hylast hybehavior hstored
      obtain ⟨-, hlayer', hstate', htimer'⟩ :=
        Mapper.fire_stays hout (by rw [hm.layer_eq]; exact hm.map_eq) hfire
      refine ⟨m', _, _, _, silent, hprocess, hhistory', hsilent, .inl ⟨rfl, howner, ?_, ?_⟩⟩
      · have hkept := houtputs.kept
        exact ⟨hseated, hlayer'.trans hm.layer_eq, hkept.paused_eq.trans hm.paused_eq,
          by rw [hkept.basicMaps_eq]; exact hm.map_eq⟩
      · refine .read hlast (by rw [hstate']; exact hplace) hfirst ?_
        have hread : lastRead m'.history = env.clock m.instant := by
          have hsplit : m'.history = (m.history ++ [.taken L m.curStateIdx (some o.input)
              (env.clock m.instant) (M.edge y)]) ++ silent := by simpa using hhistory'
          rw [hsplit, hsilent.lastRead]
          simp [lastRead, Moment.event, Moment.time]
        rw [htimer', hread]
        exact M.edge_deadline hfree hs ho hlast hfirst fun d hd ↦ hfits o ho d hd m.instant

end StraightMachine

/-! ## Feeding a sequence -/

namespace Mapper

variable {env : Env} {H : QHash} {fuel : ℕ} {m m' m'' : Mapper} {e : InputEvent}

theorem iterate_cons {key : Option InputEvent} {keys : List (Option InputEvent)}
    (h : m.loopBody env H fuel key = .ok m') :
    m.iterate env H fuel (key :: keys) = m'.iterate env H fuel keys := by
  rw [iterate, List.foldlM_cons, h]
  rfl

theorem loopBody_none (h : m.checkTimer env H fuel = .ok m') :
    m.loopBody env H fuel none = .ok (m'.checkQueuedEvents env) := by
  rw [loopBody, h]
  rfl

theorem loopBody_some (h : m.checkTimer env H fuel = .ok m')
    (hinput : (m'.countKey env e).processInput env H fuel e = .ok m'') :
    ∃ m₃, m.loopBody env H fuel (some e) = .ok m₃ ∧ m''.SameStage m₃ := by
  refine ⟨{ m'' with processedEventsCount := m''.processedEventsCount + 1 }.checkQueuedEvents env,
    ?_, ?_⟩
  · rw [loopBody, h, Exits.ok_bind]
    simp only [hinput, Exits.ok_bind, Exits.pure_eq_ok]
  · have hsame := sameStage_checkQueuedEvents env
      { m'' with processedEventsCount := m''.processedEventsCount + 1 }
    exact ⟨⟨hsame.profile_eq, hsame.states_eq, hsame.basicMaps_eq, hsame.paused_eq⟩,
      hsame.layer_eq, hsame.state_eq, hsame.timer_eq, hsame.history_eq⟩

end Mapper

namespace StraightMachine

variable {H : QHash} {layer : Layer} {states : List State} (M : StraightMachine H layer states)
  {machines : List (List State)} {L : ℕ} {basicMap : List (InputEvent × List Bind)}
  {s : SequenceTrigger} {j : ℕ} {env : Env} {fuel : ℕ}

theorem passes_of_final {pre : List Occurrence} {passes : List LoopPass} {o : Occurrence}
    (hpasses : loopPasses [] s.sequence = pre.map Occurrence.pass ++ passes)
    (ho : o ∈ pre.getLast?) (hfinal : o.pass.final = true) : passes = [] := by
  have hpairwise := pairwise_loopPasses [] s.sequence
  rw [hpasses, List.pairwise_append] at hpairwise
  rw [List.eq_nil_iff_forall_not_mem]
  intro pass hpass
  have hno := hpairwise.2.2 o.pass
    (List.mem_map_of_mem (List.mem_of_getLast? (Option.mem_def.mp ho))) pass hpass
  rw [hfinal] at hno
  cases hno

theorem On.passes_ne_nil {wait : Option Timer} {pre : List Occurrence} {m : Mapper}
    (hfree : layer.Unhindered s j) (hne : s.sequence ≠ []) (hon : M.On wait pre m)
    (hpre : pre ⊆ s.occurrences j) (hpasses : loopPasses [] s.sequence = pre.map Occurrence.pass)
    (hover : WaitOver wait) : False := by
  have hfinal : ∀ {pre' : List Occurrence} {o : Occurrence}, pre = pre' ++ [o] →
      o.pass.final = true := by
    rintro pre' o rfl
    have hlast : (loopPasses [] s.sequence).getLast? = some o.pass := by simp [hpasses]
    exact final_of_getLast?_loopPasses hlast
  cases hon with
  | home hp htimer => exact hne (loopPasses_eq_nil_iff.mp hpasses)
  | @read pre o c m hlast hp hc htimer =>
      have ho : o ∈ s.occurrences j := hpre (by simp)
      cases ht : o.pass.timer with
      | none =>
          have hno : o.pass.final = false := by simpa [LoopPass.isLast, ht] using hlast
          rw [hfinal rfl] at hno
          cases hno
      | some d =>
          cases d with
          | minimumWait ms =>
              rw [ht] at hover
              exact hover
          | maximumWait ms =>
              have hno := hfree.noTimeout o ho ms ht
              rw [hfinal rfl] at hno
              cases hno
  | waited hmid hp htimer =>
      have hno := (LoopPass.timer_of_midWait hmid).2
      rw [hfinal rfl] at hno
      cases hno

/-- The match of the sequence is going on: the passes are left, and nothing
has been executed since `start`. -/
structure Matching (machines : List (List State)) (L : ℕ)
    (basicMap : List (InputEvent × List Bind)) (s : SequenceTrigger) (j : ℕ) (start : List Moment)
    (wait : Option Timer) (passes : List LoopPass) (m : Mapper) : Prop where
  steady : Steady machines L basicMap m
  exists_on : ∃ pre, M.On wait pre m ∧
    s.occurrences j = pre ++ occurrencesFrom j s ((pre.getLast?.map Occurrence.next).getD []) passes ∧
    loopPasses [] s.sequence = pre.map Occurrence.pass ++ passes ∧
    ∃ before, m.history = start ++ before ∧ (∀ moment ∈ before, moment.owner = none) ∧
      before.filterMap Moment.event = pre.map Occurrence.input

/-- The match of the sequence is over. -/
structure Matched (machines : List (List State)) (s : SequenceTrigger) (j : ℕ)
    (start : List Moment) (m : Mapper) : Prop where
  rested : Rested machines m
  executed : ∃ ext, m.history = start ++ ext ∧ ExecutedOnce s j ext

variable {start : List Moment} {wait : Option Timer} {passes : List LoopPass} {m m' : Mapper}

theorem Matching.frame (h : M.Matching machines L basicMap s j start wait passes m)
    (hsame : m.SameStage m') : M.Matching machines L basicMap s j start wait passes m' := by
  obtain ⟨pre, hon, hocc, hpasses, before, hhistory, hbefore⟩ := h.exists_on
  exact ⟨h.steady.frame hsame, pre,
    hon.frame M hsame.state_eq hsame.timer_eq (by rw [hsame.history_eq]), hocc, hpasses, before,
    hsame.history_eq.trans hhistory, hbefore⟩

theorem Matched.frame (h : Matched machines s j start m) (hsame : m.SameStage m') :
    Matched machines s j start m' := by
  obtain ⟨ext, hhistory, hexecuted⟩ := h.executed
  exact ⟨h.rested.frame hsame, ext, hsame.history_eq.trans hhistory, hexecuted⟩

theorem Matching.passes_ne_nil (hfree : layer.Unhindered s j) (hne : s.sequence ≠ [])
    (h : M.Matching machines L basicMap s j start wait passes m) (hover : WaitOver wait) :
    passes ≠ [] := by
  rintro rfl
  obtain ⟨pre, hon, hocc, hpasses, -⟩ := h.exists_on
  have hpre : s.occurrences j = pre := by simpa [occurrencesFrom] using hocc
  exact hon.passes_ne_nil M hfree hne (hpre ▸ List.Subset.refl _) (by simpa using hpasses) hover

theorem Matching.check (fuel : ℕ) (hsep : layer.Separated) (hfree : layer.Unhindered s j)
    (hs : layer.sequenceRemappings[j]? = some s) (hstates : machines[L]? = some states)
    (h : M.Matching machines L basicMap s j start wait passes m)
    (hin : InTime wait (lastRead m.history) (env.clock m.instant)) :
    ∃ m', m.checkTimer env H fuel = .ok m' ∧
      (M.Matching machines L basicMap s j start
          (leftOf wait (lastRead m.history) (env.clock m.instant)) passes m' ∨
        passes = [] ∧ Matched machines s j start m') := by
  obtain ⟨pre, hon, hocc, hpasses, before, hhistory, hbefore, hevents⟩ := h.exists_on
  have hpre : pre ⊆ s.occurrences j := hocc ▸ List.subset_append_left _ _
  obtain ⟨m', ext, hcheck, hext, hcases⟩ :=
    hon.check M fuel hsep hfree hs hstates h.steady hpre hin
  refine ⟨m', hcheck, ?_⟩
  rcases hcases with ⟨hsilent, hsteady, hon'⟩ |
    ⟨hrested, o, ho, hfinal, htimer, idx, now, polled, transition, silent, rfl, hsilent, howner,
      houtputs⟩
  · refine .inl ⟨hsteady, pre, hon', hocc, hpasses, before ++ ext, ?_, ?_, ?_⟩
    · rw [hext, hhistory, List.append_assoc]
    · intro moment hmoment
      rcases List.mem_append.mp hmoment with hmoment | hmoment
      · exact hbefore moment hmoment
      · exact (hsilent moment hmoment).1
    · rw [List.filterMap_append, hsilent.events, List.append_nil, hevents]
  · obtain rfl := passes_of_final hpasses ho hfinal
    have hpre : s.occurrences j = pre := by simpa [occurrencesFrom] using hocc
    refine .inr ⟨rfl, hrested, _, by rw [hext, hhistory, List.append_assoc], ?_⟩
    refine ⟨before ++ [.poll polled], silent, L, idx, none, now, transition, by simp, howner,
      ⟨[], houtputs⟩, ?_, ?_, ?_⟩
    · intro moment hmoment
      simp only [List.mem_append, List.mem_singleton] at hmoment
      rcases hmoment with (hmoment | rfl) | hmoment
      · exact hbefore moment hmoment
      · rfl
      · exact (hsilent moment hmoment).1
    · have hall : loopPasses [] s.sequence = (s.occurrences j).map Occurrence.pass := by
        simpa [hpre] using hpasses
      rw [← SequenceTrigger.map_input_occurrences hall, hpre]
      simp [hevents, Moment.event]
    · refine iff_of_true rfl ⟨o.pass, ?_, hfinal, htimer⟩
      rw [hpasses, List.append_nil]
      exact List.mem_map_of_mem (List.mem_of_getLast? (Option.mem_def.mp ho))

theorem Matching.input (fuel : ℕ) (hsep : layer.Separated) (hfree : layer.Unhindered s j)
    (hs : layer.sequenceRemappings[j]? = some s)
    (hmap : Mapper.buildBasicMap H layer = .ok basicMap)
    (hfits : ∀ o ∈ s.occurrences j, ∀ d ∈ o.pass.timer, ∀ n, env.clock n + d.ms < uint64Size)
    (hstates : machines[L]? = some states) {pass : LoopPass} {e : InputEvent}
    (h : M.Matching machines L basicMap s j start wait (pass :: passes) m) (hover : WaitOver wait)
    (he : pass.trigger.triggerToInput = some e) :
    ∃ m', m.processInput env H (fuel + 1) e = .ok m' ∧
      (M.Matching machines L basicMap s j start pass.timer passes m' ∨
        passes = [] ∧ Matched machines s j start m') := by
  obtain ⟨pre, hon, hocc, hpasses, before, hhistory, hbefore, hevents⟩ := h.exists_on
  let o : Occurrence := ⟨j, s, pass, e, (pre.getLast?.map Occurrence.next).getD []⟩
  have hocc' : s.occurrences j = (pre ++ [o]) ++ occurrencesFrom j s o.next passes := by
    rw [hocc, occurrencesFrom, he]
    simp [o]
  have ho : o ∈ s.occurrences j := by
    rw [hocc']
    simp
  have hpasses' : loopPasses [] s.sequence = (pre ++ [o]).map Occurrence.pass ++ passes := by
    rw [hpasses]
    simp [o]
  obtain ⟨m', idx, now, transition, silent, hprocess, hext, hsilent, hcases⟩ :=
    hon.input M fuel hsep hfree hs hmap hfits hstates h.steady hover ho rfl
  refine ⟨m', hprocess, ?_⟩
  rcases hcases with ⟨hlast, howner, hsteady, hon'⟩ | ⟨hlast, howner, houtputs, hrested⟩
  · refine .inl ⟨hsteady, pre ++ [o], hon', by simpa using hocc', hpasses',
      before ++ .taken L idx (some e) now transition :: silent, ?_, ?_, ?_⟩
    · rw [hext, hhistory, List.append_assoc]
    · intro moment hmoment
      simp only [List.mem_append, List.mem_cons] at hmoment
      rcases hmoment with hmoment | rfl | hmoment
      · exact hbefore moment hmoment
      · exact howner
      · exact (hsilent moment hmoment).1
    · rw [List.filterMap_append, hevents, List.filterMap_cons, hsilent.events]
      simp [Moment.event, o]
  · obtain ⟨htimer, hfinal⟩ := LoopPass.timer_of_isLast hlast
    obtain rfl : passes = [] := passes_of_final hpasses' (by simp) hfinal
    refine .inr ⟨rfl, hrested, _, by rw [hext, hhistory, List.append_assoc], ?_⟩
    refine ⟨before, silent, L, idx, some e, now, transition, rfl, howner, houtputs, ?_, ?_, ?_⟩
    · intro moment hmoment
      rcases List.mem_append.mp hmoment with hmoment | hmoment
      · exact hbefore moment hmoment
      · exact (hsilent moment hmoment).1
    · have hpre : s.occurrences j = pre ++ [o] := by simpa [occurrencesFrom] using hocc'
      have hall : loopPasses [] s.sequence = (s.occurrences j).map Occurrence.pass := by
        simpa [hpre] using hpasses'
      rw [← SequenceTrigger.map_input_occurrences hall, hpre]
      simp [hevents, o]
    · refine iff_of_false (by simp) ?_
      rintro ⟨pass', hpass', hfinal', ms, htimer'⟩
      have hsplit : s.occurrences j = pre ++ o :: [] := by simpa [occurrencesFrom] using hocc'
      have hno := (SequenceTrigger.passes_of_occurrences hsplit).1
      rw [hpasses', List.append_nil] at hpass'
      obtain ⟨o', ho', rfl⟩ := List.mem_map.mp hpass'
      rcases List.mem_append.mp ho' with ho' | ho'
      · rw [hno o' ho'] at hfinal'
        cases hfinal'
      · obtain rfl := List.mem_singleton.mp ho'
        rw [htimer] at htimer'
        cases htimer'

theorem Matched.check (h : Matched machines s j start m) (env : Env) (H : QHash) (fuel : ℕ) :
    ∃ m', m.checkTimer env H fuel = .ok m' ∧ Matched machines s j start m' := by
  obtain ⟨hcheck, hrested⟩ := h.rested.check env H fuel
  obtain ⟨ext, hhistory, before, after, layer, idx, event, now, transition, rfl, howner, houtputs,
    hothers, hevents⟩ := h.executed
  refine ⟨_, hcheck, hrested, _, by rw [Mapper.checked, hhistory, List.append_assoc], before,
    after ++ [.poll (env.clock m.instant)], layer, idx, event, now, transition, by simp, howner,
    houtputs, ?_, hevents⟩
  intro moment hmoment
  rw [← List.append_assoc] at hmoment
  rcases List.mem_append.mp hmoment with hmoment | hmoment
  · exact hothers moment hmoment
  · obtain rfl := List.mem_singleton.mp hmoment
    rfl

/-- The checks that follow a match leave it. -/
theorem Matched.iterate {keys : List (Option InputEvent)} (h : Matched machines s j start m)
    (hpaced : m.Paced env H fuel wait [] keys) :
    ∃ m', m.iterate env H fuel keys = .ok m' ∧ Matched machines s j start m' := by
  induction keys generalizing m wait with
  | nil => exact ⟨m, rfl, h⟩
  | cons key keys ih =>
      cases key with
      | some e => exact hpaced.elim
      | none =>
          obtain ⟨m₁, hcheck, hmatched⟩ := h.check env H fuel
          have hbody := Mapper.loopBody_none hcheck
          rw [Mapper.iterate_cons hbody]
          exact ih (hmatched.frame (Mapper.sameStage_checkQueuedEvents env m₁)) (hpaced.2 _ hbody)

/-- Feeding the rest of the sequence completes its match. -/
theorem Matching.iterate (hsep : layer.Separated) (hfree : layer.Unhindered s j)
    (hs : layer.sequenceRemappings[j]? = some s) (hne : s.sequence ≠ [])
    (hmap : Mapper.buildBasicMap H layer = .ok basicMap)
    (hfits : ∀ o ∈ s.occurrences j, ∀ d ∈ o.pass.timer, ∀ n, env.clock n + d.ms < uint64Size)
    (hstates : machines[L]? = some states) {keys : List (Option InputEvent)}
    (h : M.Matching machines L basicMap s j start wait passes m)
    (hpaced : m.Paced env H (fuel + 1) wait passes keys) :
    ∃ m', m.iterate env H (fuel + 1) keys = .ok m' ∧ Matched machines s j start m' := by
  induction keys generalizing m wait passes with
  | nil => exact (h.passes_ne_nil M hfree hne hpaced.2 hpaced.1).elim
  | cons key keys ih =>
      cases key with
      | none =>
          obtain ⟨hin, hnext⟩ := hpaced
          obtain ⟨m₁, hcheck, hcases⟩ := h.check M (fuel + 1) hsep hfree hs hstates hin
          have hbody := Mapper.loopBody_none hcheck
          have hsame := Mapper.sameStage_checkQueuedEvents env m₁
          rw [Mapper.iterate_cons hbody]
          rcases hcases with hmatching | ⟨rfl, hmatched⟩
          · exact ih (hmatching.frame M hsame) (hnext _ hbody)
          · exact (hmatched.frame hsame).iterate (hnext _ hbody)
      | some e =>
          cases passes with
          | nil => exact hpaced.elim
          | cons pass passes =>
              obtain ⟨he, hin, hover, hnext⟩ := hpaced
              obtain ⟨m₁, hcheck, hmatching | ⟨hnil, -⟩⟩ :=
                h.check M (fuel + 1) hsep hfree hs hstates hin
              · obtain ⟨m₂, hinput, hcases⟩ := (hmatching.frame M
                  (Mapper.sameStage_countKey env m₁ e)).input M fuel hsep hfree hs hmap
                  hfits hstates hover he
                obtain ⟨m₃, hbody, hsame⟩ := Mapper.loopBody_some hcheck hinput
                rw [Mapper.iterate_cons hbody]
                rcases hcases with hmatching' | ⟨rfl, hmatched⟩
                · exact ih (hmatching'.frame M hsame) (hnext _ hbody)
                · exact (hmatched.frame hsame).iterate (hnext _ hbody)
              · cases hnil

end StraightMachine

end Keybinder

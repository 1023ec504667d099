import Keybinder.Library.Delivery
import Keybinder.MapperLife

/-!
# Exactly-once delivery

Every output that was passed to `queue_output` is sent exactly once, by the
first check of the queue that is not too early, unless a pause discards it
before.  Of the partition that a check makes nothing is used but that it is
one.
-/

namespace Keybinder

/-- `std::partition`, by its specification. -/
structure QueuePartition where
  split : (ℕ × OutputEvent → Bool) → List (ℕ × OutputEvent) →
    List (ℕ × OutputEvent) × List (ℕ × OutputEvent)
  perm : ∀ p l, ((split p l).1 ++ (split p l).2).Perm l
  satisfying : ∀ p l, ∀ x ∈ (split p l).1, p x = true
  others : ∀ p l, ∀ x ∈ (split p l).2, p x = false

/-- The partition of the model. -/
def QueuePartition.twoPointer : QueuePartition where
  split p l := TwoPointer.partition p l
  perm := TwoPointer.partition_perm
  satisfying p l := TwoPointer.forall_partition_fst p l
  others p l := TwoPointer.forall_partition_snd p l

/-- The partition that keeps the order of both parts. -/
def QueuePartition.stable : QueuePartition where
  split p l := (l.filter p, l.filter (!p ·))
  perm := List.filter_append_perm
  satisfying _ _ _ hx := (List.mem_filter.mp hx).2
  others _ _ _ hx := by simpa using (List.mem_filter.mp hx).2

/-- The outputs that were passed to `queue_output`, with their times. -/
def queuedOutputs (ms : List Moment) : List (ℕ × OutputEvent) :=
  ms.filterMap fun
    | .queued timeToEmit e => some (timeToEmit, e)
    | _ => none

/-- What happens to the outputs of a mapper. -/
inductive JournalEntry where
  | queued (entry : ℕ × OutputEvent)
  | checked (now : ℕ) (ready : List (ℕ × OutputEvent))
  | bypassed (outs : List OutputEvent)
  | paused (dropped : List (ℕ × OutputEvent))
  deriving DecidableEq

namespace JournalEntry

/-- The lists given to the daemon. -/
def sends : JournalEntry → List (List OutputEvent)
  | .checked _ ready => if ready.isEmpty then [] else [ready.map Prod.snd]
  | .bypassed outs => [outs]
  | _ => []

def step : JournalEntry → Delivery.Step (ℕ × OutputEvent)
  | .queued entry => .queue entry
  | .checked now ready => .check now ready
  | .bypassed _ => .other
  | .paused dropped => .discard dropped

end JournalEntry

namespace Mapper

/-- An iteration of the loop up to the check of the queue. -/
def beforeCheck (env : Env) (H : QHash) (fuel : ℕ) (m : Mapper) (keyOpt : Option InputEvent) :
    Except Exit Mapper := do
  let m ← m.checkTimer env H fuel
  match keyOpt with
  | none => return m
  | some e => do
      let m ← (m.countKey env e).processInput env H fuel e
      return { m with processedEventsCount := m.processedEventsCount + 1 }

end Mapper

namespace QueuePartition

variable (P : QueuePartition) (env : Env) (H : QHash) (fuel : ℕ)

/-- The entries that a check of the queue hands over. -/
def ready (m : Mapper) : List (ℕ × OutputEvent) :=
  (P.split (fun p ↦ env.clock m.instant < p.1) m.queuedEvents).2

def checkQueuedEvents (m : Mapper) : Mapper :=
  if m.queuedEvents.isEmpty then m
  else { m with
    queuedEvents := (P.split (fun p ↦ env.clock m.instant < p.1) m.queuedEvents).1
    sent := if (P.ready env m).isEmpty then m.sent else m.sent ++ [(P.ready env m).map Prod.snd]
    instant := m.instant + 1 }

/-- The operations, with the given partition in the check of the queue. -/
def operate (m : Mapper) : Operation → Except Exit Mapper
  | .iteration keyOpt => do
      let m ← m.beforeCheck env H fuel keyOpt
      return P.checkQueuedEvents env m
  | operation => m.operate env H fuel operation

def life (profile : Profile) (layerChangedCallback : Bool) (operations : List Operation) :
    Except Exit Mapper := do
  let m ← Mapper.new H profile layerChangedCallback
  operations.foldlM (P.operate env H fuel) m

/-- What an operation adds to the journal.  Only a paused mapper sends anything
past the queue: the key event that the iteration got. -/
def entries (m : Mapper) : Operation → List JournalEntry
  | .pause => [.paused m.queuedEvents]
  | .iteration keyOpt =>
      match m.beforeCheck env H fuel keyOpt with
      | .error _ => []
      | .ok m₁ =>
          (queuedOutputs (m₁.history.drop m.history.length)).map .queued ++
            (if m.paused then Mapper.forwarded keyOpt else []).map .bypassed ++
            if m₁.queuedEvents.isEmpty then []
            else [.checked (env.clock m₁.instant) (P.ready env m₁)]
  | _ => []

/-- The journal of the operations of a mapper. -/
def journal (m : Mapper) : List Operation → List JournalEntry
  | [] => []
  | operation :: operations =>
      P.entries env H fuel m operation ++
        match P.operate env H fuel m operation with
        | .error _ => []
        | .ok m' => journal m' operations

end QueuePartition

/-- With the partition of the model this is the life of the mapper. -/
theorem QueuePartition.life_twoPointer (env : Env) (H : QHash) (fuel : ℕ) (profile : Profile)
    (layerChangedCallback : Bool) (operations : List Operation) :
    QueuePartition.twoPointer.life env H fuel profile layerChangedCallback operations =
      Mapper.life env H fuel profile layerChangedCallback operations := by
  have hoperate : QueuePartition.twoPointer.operate env H fuel = Mapper.operate env H fuel := by
    funext m operation
    cases operation with
    | iteration keyOpt =>
        rw [QueuePartition.operate, Mapper.operate, Mapper.beforeCheck, Mapper.loopBody]
        cases m.checkTimer env H fuel with
        | error x => rfl
        | ok m₁ =>
            cases keyOpt with
            | none => rfl
            | some e =>
                simp only [Exits.ok_bind]
                cases (m₁.countKey env e).processInput env H fuel e <;> rfl
    | setProfile p => rfl
    | setLayer newLayer => rfl
    | pause => rfl
    | resume => rfl
    | stop => rfl
  rw [QueuePartition.life, Mapper.life, hoperate]

@[simp] theorem queuedOutputs_append (ms ms' : List Moment) :
    queuedOutputs (ms ++ ms') = queuedOutputs ms ++ queuedOutputs ms' :=
  List.filterMap_append

namespace Mapper

/-- Outputs were queued at the end of the queue, and nothing is sent past it
unless the mapper is paused. -/
structure Appends (m m' : Mapper) : Prop where
  queue : ∃ moments, m'.history = m.history ++ moments ∧
    m'.queuedEvents = m.queuedEvents ++ queuedOutputs moments
  paused_eq : m'.paused = m.paused
  sent : m.paused = false → m'.sent = m.sent

/-- Nothing fires while the mapper is paused. -/
def TimerOff (m : Mapper) : Prop := m.paused = true → m.currentTimer = none

variable {env : Env} {H : QHash} {fuel : ℕ} {m m' m'' : Mapper} {redo : List InputEvent}

namespace Appends

theorem frame (hhistory : m'.history = m.history) (hqueue : m'.queuedEvents = m.queuedEvents)
    (hpaused : m'.paused = m.paused) (hsent : m.paused = false → m'.sent = m.sent) :
    Appends m m' :=
  ⟨⟨[], by simp [hhistory], by simp [hqueue, queuedOutputs]⟩, hpaused, hsent⟩

theorem trans (h : Appends m m') (h' : Appends m' m'') : Appends m m'' := by
  obtain ⟨moments, hhistory, hqueue⟩ := h.queue
  obtain ⟨moments', hhistory', hqueue'⟩ := h'.queue
  refine ⟨⟨moments ++ moments', ?_, ?_⟩, h'.paused_eq.trans h.paused_eq, fun hpaused ↦ ?_⟩
  · rw [hhistory', hhistory, List.append_assoc]
  · rw [hqueue', hqueue, queuedOutputs_append, List.append_assoc]
  · rw [h'.sent (h.paused_eq.trans hpaused), h.sent hpaused]

theorem of_outputs (h : Outputs env m m') : Appends m m' := by
  induction h with
  | refl => exact frame rfl rfl rfl fun _ ↦ rfl
  | tail _ hact ih =>
      refine ih.trans ?_
      cases hact with
      | queue e delay => exact ⟨⟨[_], rfl, rfl⟩, rfl, fun _ ↦ rfl⟩
      | swap hset =>
          obtain ⟨announced, rfl⟩ := setLayerInner_spec hset
          exact ⟨⟨[_], rfl, (List.append_nil _).symm⟩, rfl, fun _ ↦ rfl⟩

theorem of_fire {transition : Transition} {prevEvent : Option InputEvent}
    (h : m.fire env H transition prevEvent = .ok (m', redo)) : Appends m m' := by
  have henter : Appends m (m.enter env transition prevEvent) :=
    ⟨⟨[_], rfl, (List.append_nil _).symm⟩, rfl, fun _ ↦ rfl⟩
  exact henter.trans (of_outputs (fire_spec h).1)

theorem of_react {e : InputEvent} (h : m.react env H e = .ok (m', redo)) : Appends m m' := by
  unfold react at h
  split at h
  · rename_i hpaused
    cases h
    refine frame ?_ ?_ ?_ fun hunpaused ↦ ?_
    · cases e <;> rfl
    · cases e <;> rfl
    · cases e <;> rfl
    · rw [hpaused] at hunpaused
      cases hunpaused
  · obtain ⟨state, -, hfire⟩ := Exits.bind_eq_ok.mp h
    exact of_fire hfire

theorem of_feeds {es : List InputEvent} (h : Refeed.Feeds (react env H) m es m') :
    Appends m m' := by
  induction h with
  | nil => exact frame rfl rfl rfl fun _ ↦ rfl
  | cons hstep _ ih => exact (of_react hstep).trans ih

theorem checked (m : Mapper) : Appends m (m.checked env) :=
  ⟨⟨[_], rfl, (List.append_nil _).symm⟩, rfl, fun _ ↦ rfl⟩

theorem of_checkTimer (h : m.checkTimer env H fuel = .ok m') : Appends m m' := by
  obtain ⟨state, -, ⟨-, rfl⟩ | ⟨transition, m₁, redo, -, -, hfire, hredo⟩⟩ := checkTimer_cases h
  · exact checked m
  · exact ((checked m).trans (of_fire hfire)).trans
      (of_feeds (feeds_of_foldlM_processInput hredo))

theorem of_beforeCheck {keyOpt : Option InputEvent}
    (h : m.beforeCheck env H fuel keyOpt = .ok m') : Appends m m' := by
  obtain ⟨m₁, htimer, h⟩ := Exits.bind_eq_ok.mp h
  have hm₁ := of_checkTimer htimer
  cases keyOpt with
  | none =>
      cases h
      exact hm₁
  | some e =>
      obtain ⟨m₂, hinput, h⟩ := Exits.bind_eq_ok.mp h
      cases h
      obtain ⟨counted, hcount⟩ := countKey_spec env m₁ e
      have hm₂ := of_feeds (feeds_of_processInput (hcount ▸ hinput))
      have hcounted : Appends m₁ { m₁ with counted } := frame rfl rfl rfl fun _ ↦ rfl
      exact ((hm₁.trans hcounted).trans hm₂).trans (frame rfl rfl rfl fun _ ↦ rfl)

end Appends

/-- A paused iteration sends the key event it got, and sets no timer. -/
theorem beforeCheck_of_paused (hpaused : m.paused = true) (htimer : m.currentTimer = none)
    {keyOpt : Option InputEvent} (h : m.beforeCheck env H fuel keyOpt = .ok m') :
    m'.sent = m.sent ++ forwarded keyOpt ∧ m'.currentTimer = none := by
  obtain ⟨m₁, hcheck, h⟩ := Exits.bind_eq_ok.mp h
  obtain ⟨state, -, ⟨-, rfl⟩ | ⟨transition, m₂, redo, hexpired, -⟩⟩ := checkTimer_cases hcheck
  · cases keyOpt with
    | none =>
        cases h
        exact ⟨(List.append_nil _).symm, htimer⟩
    | some e =>
        obtain ⟨m₂, hinput, h⟩ := Exits.bind_eq_ok.mp h
        cases h
        obtain ⟨counted, hcount⟩ := countKey_spec env (m.checked env) e
        rw [hcount] at hinput
        cases fuel with
        | zero => cases hinput
        | succ fuel =>
            have hpaused' : (m.checked env).paused = true := hpaused
            simp only [processInput, hpaused', if_true, Exits.pure_eq_ok, Except.ok.injEq] at hinput
            subst hinput
            cases e with
            | key e => exact ⟨rfl, htimer⟩
            | app appName => exact ⟨(List.append_nil _).symm, htimer⟩
  · exact (not_expired_of_none htimer hexpired).elim

end Mapper

namespace QueuePartition

variable {P : QueuePartition} {env : Env} {H : QHash} {fuel : ℕ} {m m' : Mapper}

/-- The entries tell what became of the queue and what was sent. -/
structure Tells (J : List JournalEntry) (m m' : Mapper) : Prop where
  run : Delivery.Run Prod.fst m.queuedEvents (J.map JournalEntry.step) m'.queuedEvents
  sent : m'.sent = m.sent ++ J.flatMap JournalEntry.sends
  queued : queuedOutputs m'.history =
    queuedOutputs m.history ++ (J.map JournalEntry.step).flatMap Delivery.Step.queued

theorem Tells.append {J J' : List JournalEntry} {m'' : Mapper} (h : Tells J m m')
    (h' : Tells J' m' m'') : Tells (J ++ J') m m'' := by
  refine ⟨?_, ?_, ?_⟩
  · rw [List.map_append]
    exact h.run.append h'.run
  · rw [h'.sent, h.sent, List.flatMap_append, List.append_assoc]
  · rw [h'.queued, h.queued, List.map_append, List.flatMap_append, List.append_assoc]

theorem tells_nil (hqueue : m'.queuedEvents = m.queuedEvents) (hsent : m'.sent = m.sent)
    (hqueued : queuedOutputs m'.history = queuedOutputs m.history) : Tells [] m m' :=
  ⟨hqueue ▸ .nil _, by simp [hsent], by simp [hqueued]⟩

theorem splits (P : QueuePartition) (now : ℕ) (queue : List (ℕ × OutputEvent)) :
    Delivery.Splits Prod.fst now queue (P.split (fun p ↦ now < p.1) queue).1
      (P.split (fun p ↦ now < p.1) queue).2 where
  perm := P.perm _ _
  waiting x hx := by simpa using P.satisfying _ _ x hx
  ready x hx := by simpa using P.others _ _ x hx

theorem tells_checkQueuedEvents (m : Mapper) :
    Tells (if m.queuedEvents.isEmpty then [] else [.checked (env.clock m.instant) (P.ready env m)])
      m (P.checkQueuedEvents env m) := by
  unfold checkQueuedEvents
  split
  · exact tells_nil rfl rfl rfl
  · refine ⟨.check (P.splits _ _) (.nil _), ?_, by simp [JournalEntry.step, Delivery.Step.queued]⟩
    simp only [List.flatMap_cons, List.flatMap_nil, List.append_nil, JournalEntry.sends]
    split <;> simp

theorem tells_beforeCheck (hoff : m.TimerOff) {keyOpt : Option InputEvent}
    (h : m.beforeCheck env H fuel keyOpt = .ok m') :
    Tells ((queuedOutputs (m'.history.drop m.history.length)).map .queued ++
      (if m.paused then Mapper.forwarded keyOpt else []).map .bypassed) m m' := by
  have happends := Mapper.Appends.of_beforeCheck h
  obtain ⟨moments, hhistory, hqueue⟩ := happends.queue
  have hhistory' : m'.history.drop m.history.length = moments := by simp [hhistory]
  have hsent : m'.sent = m.sent ++ if m.paused then Mapper.forwarded keyOpt else [] := by
    cases hpaused : m.paused with
    | false => simpa using happends.sent hpaused
    | true => exact (Mapper.beforeCheck_of_paused hpaused (hoff hpaused) h).1
  rw [hhistory']
  refine ⟨?_, ?_, ?_⟩
  · rw [List.map_append, List.map_map, List.map_map, hqueue]
    refine (Delivery.Run.queues m.queuedEvents (queuedOutputs moments)).append ?_
    apply Delivery.Run.others
    intro s hs
    obtain ⟨outs, -, rfl⟩ := List.mem_map.mp hs
    rfl
  · rw [hsent]
    simp [List.flatMap_map, JournalEntry.sends]
  · rw [hhistory, queuedOutputs_append]
    simp [List.flatMap_map, JournalEntry.step, Delivery.Step.queued]

theorem tells_entries (hoff : m.TimerOff) {operation : Operation}
    (h : P.operate env H fuel m operation = .ok m') :
    Tells (P.entries env H fuel m operation) m m' := by
  have hinner : ∀ {m₁ : Mapper} {newLayer : ℕ}, m₁.setLayerInner newLayer = .ok m' →
      m₁.queuedEvents = m.queuedEvents → m₁.sent = m.sent → m₁.history = m.history →
      Tells [] m m' := by
    intro m₁ newLayer hset hqueue hsent hhistory
    obtain ⟨announced, rfl⟩ := Mapper.setLayerInner_spec hset
    refine tells_nil hqueue hsent ?_
    rw [hhistory, queuedOutputs_append]
    exact List.append_nil _
  by_cases hiteration : ∃ keyOpt, operation = .iteration keyOpt
  · obtain ⟨keyOpt, rfl⟩ := hiteration
    obtain ⟨m₁, hbefore, h⟩ := Exits.bind_eq_ok.mp h
    cases h
    simp only [entries, hbefore]
    exact (tells_beforeCheck hoff hbefore).append (tells_checkQueuedEvents m₁)
  · have hoperate : m.operate env H fuel operation = .ok m' := by
      cases operation with
      | iteration keyOpt => exact (hiteration ⟨keyOpt, rfl⟩).elim
      | _ => exact h
    cases Mapper.happens_of_operate hoperate with
    | rejected => exact tells_nil rfl rfl rfl
    | installed hset =>
        obtain ⟨compiled, -, hset⟩ := Mapper.setProfile_true hset
        exact hinner hset rfl rfl rfl
    | ignored => exact tells_nil rfl rfl rfl
    | moved _ hset => exact hinner hset rfl rfl rfl
    | pause => exact ⟨.discard (.nil _), by simp [entries, JournalEntry.sends]; rfl, by
        simp [entries, JournalEntry.step, Delivery.Step.queued]; rfl⟩
    | resume => exact tells_nil rfl rfl rfl
    | stop => exact tells_nil rfl rfl rfl
    | iteration => exact (hiteration ⟨_, rfl⟩).elim

theorem timerOff_operate (hoff : m.TimerOff) {operation : Operation}
    (h : P.operate env H fuel m operation = .ok m') : m'.TimerOff := by
  by_cases hiteration : ∃ keyOpt, operation = .iteration keyOpt
  · obtain ⟨keyOpt, rfl⟩ := hiteration
    obtain ⟨m₁, hbefore, h⟩ := Exits.bind_eq_ok.mp h
    cases h
    intro hpaused
    have hsame : (P.checkQueuedEvents env m₁).paused = m₁.paused ∧
        (P.checkQueuedEvents env m₁).currentTimer = m₁.currentTimer := by
      unfold checkQueuedEvents
      split <;> exact ⟨rfl, rfl⟩
    have hm : m.paused = true := by
      rw [← (Mapper.Appends.of_beforeCheck hbefore).paused_eq, ← hsame.1]
      exact hpaused
    exact hsame.2.trans (Mapper.beforeCheck_of_paused hm (hoff hm) hbefore).2
  · have hoperate : m.operate env H fuel operation = .ok m' := by
      cases operation with
      | iteration keyOpt => exact (hiteration ⟨keyOpt, rfl⟩).elim
      | _ => exact h
    cases Mapper.happens_of_operate hoperate with
    | rejected => exact hoff
    | installed hset =>
        obtain ⟨compiled, -, hset⟩ := Mapper.setProfile_true hset
        obtain ⟨announced, rfl⟩ := Mapper.setLayerInner_spec hset
        exact fun _ ↦ rfl
    | ignored => exact hoff
    | moved _ hset =>
        obtain ⟨announced, rfl⟩ := Mapper.setLayerInner_spec hset
        exact fun _ ↦ rfl
    | pause => exact fun _ ↦ rfl
    | resume =>
        intro hpaused
        cases hpaused
    | stop => exact hoff
    | iteration => exact (hiteration ⟨_, rfl⟩).elim

theorem tells_journal (hoff : m.TimerOff) {operations : List Operation}
    (h : operations.foldlM (P.operate env H fuel) m = .ok m') :
    Tells (P.journal env H fuel m operations) m m' := by
  induction operations generalizing m with
  | nil =>
      cases h
      exact tells_nil rfl rfl rfl
  | cons operation operations ih =>
      obtain ⟨m₁, hm₁, hrest⟩ := Exits.foldlM_cons_eq_ok.mp h
      simp only [journal, hm₁]
      exact (tells_entries hoff hm₁).append (ih (timerOff_operate hoff hm₁) hrest)

end QueuePartition

/-! ## Exactly once -/

/-- The outputs of a journal, each with its fate: whether it waits, or the
entry of the journal that sent or discarded it. -/
def outputFates (J : List JournalEntry) : List ((ℕ × OutputEvent) × Delivery.Fate) :=
  Delivery.accounts Prod.fst (J.map JournalEntry.step) 0

/-- A mapper has delivered exactly once, by its journal. -/
structure DeliveredOnce (J : List JournalEntry) (m : Mapper) : Prop where
  sent : m.sent = J.flatMap JournalEntry.sends
  queued : (outputFates J).map Prod.fst = queuedOutputs m.history
  waiting : m.queuedEvents.Perm (Delivery.withFate .waiting (outputFates J))
  checked : ∀ (k now : ℕ) (ready : List (ℕ × OutputEvent)), J[k]? = some (.checked now ready) →
    ready.Perm (Delivery.withFate (.sent k) (outputFates J))
  paused : ∀ (k : ℕ) (dropped : List (ℕ × OutputEvent)), J[k]? = some (.paused dropped) →
    dropped.Perm (Delivery.withFate (.discarded k) (outputFates J))
  conserved : (queuedOutputs m.history).Perm (m.queuedEvents ++
    ((J.map JournalEntry.step).flatMap Delivery.Step.handed ++
      (J.map JournalEntry.step).flatMap Delivery.Step.dropped))

theorem QueuePartition.Tells.deliveredOnce {J : List JournalEntry} {m₀ m : Mapper}
    (h : QueuePartition.Tells J m₀ m) (hfresh : m₀.Fresh) : DeliveredOnce J m := by
  have hnone : queuedOutputs m₀.history = [] := by
    rcases hfresh.history with hhistory | ⟨newLayer, hhistory⟩ <;> rw [hhistory] <;> rfl
  have hqueued := h.queued
  have hrun := h.run
  rw [hnone, List.nil_append] at hqueued
  rw [hfresh.queue] at hrun
  have haccounted : Delivery.Accounted (outputFates J) m.queuedEvents (J.map JournalEntry.step) 0 :=
    hrun.accounted 0
  refine ⟨?_, ?_, haccounted.waiting, ?_, ?_, ?_⟩
  · rw [h.sent, hfresh.sent, List.nil_append]
  · rw [outputFates, Delivery.accounts_fst, hqueued]
  · intro k now ready hk
    have hperm := haccounted.sent k now ready (by simp [hk, JournalEntry.step])
    rwa [Nat.zero_add] at hperm
  · intro k dropped hk
    have hperm := haccounted.discarded k dropped (by simp [hk, JournalEntry.step])
    rwa [Nat.zero_add] at hperm
  · rw [hqueued]
    exact hrun.conserved

/-- After any operations of a constructed mapper, whatever partition its
checks use: what was sent through the queue, what waits in it and what
pauses discarded are the outputs that were queued, and each was sent by the
first check that was not too early for it. -/
theorem QueuePartition.life_deliveredOnce (P : QueuePartition) (env : Env) (H : QHash) (fuel : ℕ)
    (profile : Profile) (layerChangedCallback : Bool) (operations : List Operation) (m : Mapper)
    (hlife : P.life env H fuel profile layerChangedCallback operations = .ok m) :
    ∃ m₀, Mapper.new H profile layerChangedCallback = .ok m₀ ∧
      DeliveredOnce (P.journal env H fuel m₀ operations) m := by
  obtain ⟨m₀, hnew, hoperations⟩ := Exits.bind_eq_ok.mp hlife
  have hfresh := Mapper.fresh_of_new hnew
  exact ⟨m₀, hnew, (tells_journal (fun _ ↦ hfresh.timer) hoperations).deliveredOnce hfresh⟩

/-- A presses X at once and Y after a second. -/
def delayedProfile : Profile :=
  ⟨"delayed", [⟨"first", [(.keyPress .a, [.pressKey .x, .wait 1000, .pressKey .y])], []⟩], 0⟩

/-- A is pressed, the queue is checked once more, the pause drops Y, and B goes
past the queue. -/
def delayedOperations : List Operation :=
  [.iteration (some (.key ⟨.a, .press⟩)), .iteration none, .pause,
    .iteration (some (.key ⟨.b, .press⟩))]

def delayedJournal : List JournalEntry :=
  [.queued (0, .key ⟨.x, .press⟩), .queued (1000, .key ⟨.y, .press⟩),
    .checked 0 [(0, .key ⟨.x, .press⟩)], .checked 0 [], .paused [(1000, .key ⟨.y, .press⟩)],
    .bypassed [.key ⟨.b, .press⟩]]

/-- The mapper at HOME of the only layer. -/
def delayedMapper : Mapper where
  profile := delayedProfile
  states := [[generateHomeState.1]]
  basicMaps := [[(.key ⟨.a, .press⟩, [.pressKey .x, .wait 1000, .pressKey .y])]]
  layerChangedCallback := false
  history := [.layerSet 0]

theorem life_deliveredOnce_delayed : ∃ m,
    QueuePartition.stable.life .still (.first _) 1 delayedProfile false delayedOperations =
      .ok m ∧
    Mapper.new (.first _) delayedProfile false = .ok delayedMapper ∧
    QueuePartition.stable.journal .still (.first _) 1 delayedMapper delayedOperations =
      delayedJournal ∧
    m.sent = [[.key ⟨.x, .press⟩], [.key ⟨.b, .press⟩]] ∧ DeliveredOnce delayedJournal m := by
  have hnew : Mapper.new (.first _) delayedProfile false = .ok delayedMapper := rfl
  have hjournal : QueuePartition.stable.journal .still (.first _) 1 delayedMapper
      delayedOperations = delayedJournal := by decide +kernel
  obtain ⟨m, hlife⟩ : ∃ m, QueuePartition.stable.life .still (.first _) 1 delayedProfile false
      delayedOperations = .ok m := ⟨_, rfl⟩
  obtain ⟨m₀, hnew', hdelivered⟩ := QueuePartition.life_deliveredOnce .stable .still (.first _) 1
    delayedProfile false _ m hlife
  obtain rfl : delayedMapper = m₀ := Except.ok.inj (hnew.symm.trans hnew')
  rw [hjournal] at hdelivered
  exact ⟨m, hlife, hnew, hjournal, hdelivered.sent, hdelivered⟩

end Keybinder

import Mathlib.Algebra.Ring.Nat
import Mathlib.Data.Nat.Pairing
import Keybinder.Mapper

/-!
# The order of the outputs

The outputs that are due are taken out of the queue by a partition that is
not stable.  They are emitted in the order of their times, and the others
stay in their order, exactly when the queue was arranged so.  If every check
of the queue finds it so, a list of binds is delivered in its order.
-/

namespace Keybinder

/-- A check of the queue at an instant hands over the due entries by time and,
for equal times, by their position in the queue, and leaves the others in
their order, whichever outputs are queued for these times. -/
def EmitsInOrder (env : Env) (instant : ℕ) (queue : List (ℕ × OutputEvent)) : Prop :=
  ∀ m : Mapper, m.instant = instant → m.queuedEvents.map Prod.fst = queue.map Prod.fst →
    (m.checkQueuedEvents env).queuedEvents =
        m.queuedEvents.filter (fun x ↦ env.clock instant < x.1) ∧
      (m.checkQueuedEvents env).sent.flatten = m.sent.flatten ++
        (TwoPointer.byTime Prod.fst
          (m.queuedEvents.filter fun x ↦ x.1 ≤ env.clock instant)).map Prod.snd

/-- The queue is arranged so that a check does not reorder it. -/
abbrev QueueArranged (now : ℕ) (queue : List (ℕ × OutputEvent)) : Prop :=
  TwoPointer.Arranged now Prod.fst queue

theorem Mapper.checkQueuedEvents_eq (env : Env) (m : Mapper) :
    (m.checkQueuedEvents env).queuedEvents =
        (TwoPointer.partition (fun x ↦ env.clock m.instant < x.1) m.queuedEvents).1 ∧
      (m.checkQueuedEvents env).sent.flatten = m.sent.flatten ++
        (TwoPointer.partition (fun x ↦ env.clock m.instant < x.1) m.queuedEvents).2.map
          Prod.snd := by
  unfold Mapper.checkQueuedEvents
  split
  · rename_i hempty
    simp [List.isEmpty_iff.mp hempty]
  · refine ⟨rfl, ?_⟩
    simp only [List.isEmpty_iff]
    split
    · rename_i hready
      simp [hready]
    · simp

theorem zipIdx_pairwise {α : Type} (queue : List α) :
    queue.zipIdx.Pairwise fun x y ↦ x.2 < y.2 := by
  have hrange : (queue.zipIdx.map Prod.snd).Pairwise (· < ·) := by
    rw [List.zipIdx_map_snd]
    exact List.pairwise_lt_range'
  exact List.pairwise_map.mp hrange

/-- Only the times of the queue matter. -/
theorem arranged_times (now : ℕ) (queue : List (ℕ × OutputEvent)) :
    TwoPointer.Arranged now Prod.fst (queue.map Prod.fst).zipIdx ↔ QueueArranged now queue := by
  have hindexed := TwoPointer.arranged_map now id Prod.fst (queue.map Prod.fst).zipIdx
  rw [List.zipIdx_map_fst] at hindexed
  exact hindexed.symm.trans (TwoPointer.arranged_map now id Prod.fst queue)

def idleMapper : Mapper where
  profile := ⟨"idle", [], 0⟩
  layerChangedCallback := false

/-- An output that tells its time and its position in the queue. -/
def labelOutput (x : ℕ × ℕ) : OutputEvent :=
  .script ⟨String.ofList (List.replicate (Nat.pair x.1 x.2) 'x'), ""⟩

theorem labelOutput_injective : Function.Injective labelOutput := by
  rintro ⟨time, i⟩ ⟨time', i'⟩ h
  simp only [labelOutput, OutputEvent.script.injEq, RunScript.mk.injEq, String.ofList_inj] at h
  have hlength := congrArg List.length h.1
  simp only [List.length_replicate] at hlength
  obtain ⟨rfl, rfl⟩ := Nat.pair_eq_pair.mp hlength
  rfl

theorem emitsInOrder_iff (env : Env) (instant : ℕ) (queue : List (ℕ × OutputEvent)) :
    EmitsInOrder env instant queue ↔ QueueArranged (env.clock instant) queue := by
  constructor
  · intro h
    have htimes : ((queue.map Prod.fst).zipIdx.map fun x ↦ (x.1, labelOutput x)).map Prod.fst =
        queue.map Prod.fst := by
      rw [List.map_map]
      exact List.zipIdx_map_fst 0 _
    obtain ⟨hwaiting, hready⟩ := h { idleMapper with
      queuedEvents := (queue.map Prod.fst).zipIdx.map fun x ↦ (x.1, labelOutput x)
      instant } rfl htimes
    rw [(Mapper.checkQueuedEvents_eq env _).1] at hwaiting
    rw [(Mapper.checkQueuedEvents_eq env _).2] at hready
    have hready := List.append_cancel_left hready
    simp only [TwoPointer.partition_map, List.filter_map, TwoPointer.byTime_map,
      List.map_map] at hwaiting hready
    rw [← arranged_times, ← TwoPointer.sorted_iff_arranged _ _ Prod.snd (zipIdx_pairwise _)]
    refine ⟨List.map_injective_iff.mpr ?_ hwaiting, List.map_injective_iff.mpr ?_ hready⟩
    · intro x y hxy
      exact labelOutput_injective (Prod.mk.inj hxy).2
    · exact labelOutput_injective
  · rintro harranged m rfl htimes
    rw [← arranged_times, ← htimes, arranged_times] at harranged
    have hindexed : TwoPointer.Arranged (env.clock m.instant)
        (fun x : (ℕ × OutputEvent) × ℕ ↦ x.1.1) m.queuedEvents.zipIdx := by
      rw [← TwoPointer.arranged_map _ Prod.fst, List.zipIdx_map_fst]
      exact harranged
    obtain ⟨hwaiting, hready⟩ :=
      (TwoPointer.sorted_iff_arranged _ _ Prod.snd (zipIdx_pairwise _)).mpr hindexed
    obtain ⟨hqueue, hsent⟩ := Mapper.checkQueuedEvents_eq env m
    rw [hqueue, hsent]
    have hqueued : m.queuedEvents.zipIdx.map Prod.fst = m.queuedEvents := List.zipIdx_map_fst 0 _
    generalize m.queuedEvents.zipIdx = indexed at hwaiting hready hqueued
    simp only [← hqueued, TwoPointer.partition_map, List.filter_map, TwoPointer.byTime_map,
      hwaiting, hready, Function.comp_def, and_self]

/-! ## Binds on their way through the queue -/

def Bind.output : Bind → Option OutputEvent
  | .pressKey keyCode => some (.key ⟨keyCode, .press⟩)
  | .releaseKey keyCode => some (.key ⟨keyCode, .release⟩)
  | .swapLayer _ => none
  | .wait _ => none
  | .runScript s => some (.script s)

def Bind.delay : Bind → ℕ
  | .wait ms => ms
  | _ => 0

/-- The delay of the last bind of a list. -/
def totalDelay (binds : List Bind) : ℕ := (binds.map Bind.delay).sum

namespace Mapper

theorem setLayerInner_queue {m m' : Mapper} {newLayer : ℕ}
    (h : m.setLayerInner newLayer = .ok m') :
    m'.queuedEvents = m.queuedEvents ∧ m'.instant = m.instant ∧ m'.sent = m.sent := by
  unfold setLayerInner at h
  simp only at h
  split at h
  · obtain ⟨layer, -, h⟩ := Exits.bind_eq_ok.mp h
    cases h
    exact ⟨rfl, rfl, rfl⟩
  · cases h
    exact ⟨rfl, rfl, rfl⟩

/-- A bind is queued, or it changes the delay. -/
theorem queueBind_cases {env : Env} {m m' : Mapper} {delay delay' : ℕ} {b : Bind}
    (h : queueBind env (m, delay) b = .ok (m', delay')) :
    (∃ e, b.output = some e ∧ b.delay = 0 ∧ m' = m.queueOutput env e delay ∧ delay = delay') ∨
    b.output = none ∧ m'.queuedEvents = m.queuedEvents ∧ m'.instant = m.instant ∧
      m'.sent = m.sent ∧ (delay' = delay ∧ b.delay = 0 ∨ delay' = addU64 delay b.delay) := by
  cases b with
  | pressKey keyCode =>
      cases h
      exact .inl ⟨_, rfl, rfl, rfl, rfl⟩
  | releaseKey keyCode =>
      cases h
      exact .inl ⟨_, rfl, rfl, rfl, rfl⟩
  | swapLayer newLayer =>
      obtain ⟨m₁, hm₁, h⟩ := Exits.bind_eq_ok.mp h
      cases h
      obtain ⟨hqueue, hinstant, hsent⟩ := setLayerInner_queue hm₁
      exact .inr ⟨rfl, hqueue, hinstant, hsent, .inl ⟨rfl, rfl⟩⟩
  | wait ms =>
      cases h
      exact .inr ⟨rfl, rfl, rfl, rfl, .inr rfl⟩
  | runScript s =>
      cases h
      exact .inl ⟨_, rfl, rfl, rfl, rfl⟩

theorem queueBinds_queue {env : Env} {binds : List Bind} {m m' : Mapper} {delay delay' : ℕ}
    (h : binds.foldlM (queueBind env) (m, delay) = .ok (m', delay'))
    (hfits : env.clock m'.instant + delay + totalDelay binds < uint64Size) :
    m.instant ≤ m'.instant ∧ m'.sent = m.sent ∧ ∃ queued,
      m'.queuedEvents = m.queuedEvents ++ queued ∧
      queued.map Prod.snd = binds.filterMap Bind.output ∧
      queued.Pairwise (fun x y ↦ x.1 ≤ y.1) ∧
      ∀ x ∈ queued, env.clock m.instant + delay ≤ x.1 := by
  induction binds generalizing m delay with
  | nil =>
      cases h
      exact ⟨Nat.le_refl _, rfl, [], by simp⟩
  | cons b binds ih =>
      obtain ⟨⟨m₁, delay₁⟩, hb, hrest⟩ := Exits.foldlM_cons_eq_ok.mp h
      have htotal : totalDelay (b :: binds) = b.delay + totalDelay binds := by
        simp [totalDelay]
      rcases queueBind_cases hb with ⟨e, houtput, hdelay, rfl, rfl⟩ |
        ⟨houtput, hqueue, hinstant, hsent, hdelay⟩
      · obtain ⟨hle, hsent, queued, hqueued, hmap, hsorted, hlow⟩ := ih hrest (by omega)
        have hm : m.instant ≤ m'.instant := Nat.le_of_succ_le hle
        have hclock := env.clock_mono hm
        have htime : addU64 (env.clock m.instant) delay = env.clock m.instant + delay :=
          addU64_eq (by omega)
        have hnext := env.clock_mono (Nat.le_add_right m.instant 1)
        have hlow' : ∀ x ∈ queued, env.clock m.instant + delay ≤ x.1 := by
          intro x hx
          have hxlow := hlow x hx
          simp only [queueOutput] at hxlow
          omega
        refine ⟨hm, hsent, (env.clock m.instant + delay, e) :: queued, ?_, ?_, ?_, ?_⟩
        · simp [hqueued, queueOutput, htime]
        · simp [houtput, hmap]
        · exact .cons hlow' hsorted
        · intro x hx
          rcases List.mem_cons.mp hx with rfl | hx
          · exact Nat.le_refl _
          · exact hlow' x hx
      · have hdelay₁ : delay₁ = delay + b.delay := by
          rcases hdelay with ⟨rfl, hzero⟩ | rfl
          · omega
          · exact addU64_eq (by omega)
        obtain ⟨hle, hsent', queued, hqueued, hmap, hsorted, hlow⟩ := ih hrest (by omega)
        rw [hinstant] at hle hlow
        refine ⟨hle, hsent'.trans hsent, queued, by rw [hqueued, hqueue], ?_, hsorted, ?_⟩
        · simp [houtput, hmap]
        · intro x hx
          have hxlow := hlow x hx
          omega

end Mapper

/-! ## Polls -/

/-- What happens to the queue: another output is queued, the queue is
checked, or time passes. -/
inductive QueueStep where
  | queue (e : OutputEvent) (delay : ℕ)
  | poll
  | pass (instants : ℕ)
  deriving DecidableEq

def Mapper.queueStep (env : Env) (m : Mapper) : QueueStep → Mapper
  | .queue e delay => m.queueOutput env e delay
  | .poll => m.checkQueuedEvents env
  | .pass instants => { m with instant := m.instant + instants }

/-- The queue and the entries delivered so far, those of one list of binds
marked. -/
structure Ledger where
  queue : List ((ℕ × OutputEvent) × Bool)
  delivered : List ((ℕ × OutputEvent) × Bool)

namespace Ledger

/-- The entries `queued` have just been queued. -/
def start (earlier queued : List (ℕ × OutputEvent)) : Ledger where
  queue := earlier.map (·, false) ++ queued.map (·, true)
  delivered := []

def step (env : Env) (m : Mapper) (l : Ledger) : QueueStep → Ledger
  | .queue e delay =>
      { l with queue := l.queue ++ [((addU64 (env.clock m.instant) delay, e), false)] }
  | .poll =>
      let (waiting, ready) := TwoPointer.partition (fun x ↦ env.clock m.instant < x.1.1) l.queue
      ⟨waiting, l.delivered ++ ready⟩
  | .pass _ => l

/-- The mapper and the ledger after some steps. -/
def run (env : Env) (steps : List QueueStep) (m : Mapper) (l : Ledger) : Mapper × Ledger :=
  steps.foldl (fun (m, l) s ↦ (m.queueStep env s, l.step env m s)) (m, l)

/-- The marked entries that were delivered, then those still queued. -/
def marked (l : Ledger) : List (ℕ × OutputEvent) :=
  ((l.delivered ++ l.queue).filter Prod.snd).map Prod.fst

end Ledger

/-- Every check in a run finds the queue arranged. -/
def PollsArranged (env : Env) : List QueueStep → Mapper → Prop
  | [], _ => True
  | s :: steps, m =>
      (s = .poll → QueueArranged (env.clock m.instant) m.queuedEvents) ∧
        PollsArranged env steps (m.queueStep env s)

namespace Ledger

variable {env : Env} {m : Mapper} {l : Ledger}

/-- The ledger is the queue and the deliveries of the mapper; the marked
entries have growing times. -/
structure Fits (sent : List OutputEvent) (l : Ledger) (m : Mapper) : Prop where
  queue : l.queue.map Prod.fst = m.queuedEvents
  delivered : m.sent.flatten = sent ++ l.delivered.map fun x ↦ x.1.2
  sorted : (l.queue.filter Prod.snd).Pairwise fun x y ↦ x.1.1 ≤ y.1.1

theorem checkQueuedEvents_eq (env : Env) (h : l.queue.map Prod.fst = m.queuedEvents) :
    (m.checkQueuedEvents env).queuedEvents = (l.step env m .poll).queue.map Prod.fst ∧
      (m.checkQueuedEvents env).sent.flatten = m.sent.flatten ++
        (TwoPointer.partition (fun x ↦ env.clock m.instant < x.1.1) l.queue).2.map
          fun x ↦ x.1.2 := by
  obtain ⟨hqueue, hsent⟩ := m.checkQueuedEvents_eq env
  rw [hqueue, hsent, ← h, TwoPointer.partition_map, List.map_map]
  exact ⟨rfl, rfl⟩

theorem Fits.step {sent : List OutputEvent} (h : l.Fits sent m) {s : QueueStep}
    (harranged : s = .poll → QueueArranged (env.clock m.instant) m.queuedEvents) :
    (l.step env m s).Fits sent (m.queueStep env s) ∧ (l.step env m s).marked = l.marked := by
  cases s with
  | queue e delay =>
      refine ⟨⟨?_, h.delivered, ?_⟩, ?_⟩
      · simp [Ledger.step, Mapper.queueStep, Mapper.queueOutput, h.queue]
      · simpa [Ledger.step] using h.sorted
      · simp [Ledger.step, marked]
  | poll =>
      obtain ⟨hqueue, hsent⟩ := checkQueuedEvents_eq env h.queue
      have hl : TwoPointer.Arranged (env.clock m.instant)
          (fun x : (ℕ × OutputEvent) × Bool ↦ x.1.1) l.queue := by
        rw [← TwoPointer.arranged_map _ Prod.fst, h.queue]
        exact harranged rfl
      have hmarked := TwoPointer.filter_of_arranged hl h.sorted
      refine ⟨⟨hqueue.symm, ?_, ?_⟩, ?_⟩
      · rw [Mapper.queueStep, hsent, h.delivered]
        simp [Ledger.step]
      · have hsorted := h.sorted
        rw [← hmarked] at hsorted
        exact (List.pairwise_append.mp hsorted).2.1
      · simp only [Ledger.step, marked, List.filter_append, List.append_assoc]
        rw [hmarked]
  | pass instants => exact ⟨⟨h.queue, h.delivered, h.sorted⟩, rfl⟩

theorem Fits.run {sent : List OutputEvent} {steps : List QueueStep} (h : l.Fits sent m)
    (hpolls : PollsArranged env steps m) :
    (run env steps m l).2.Fits sent (run env steps m l).1 ∧
      (run env steps m l).2.marked = l.marked := by
  induction steps generalizing m l with
  | nil => exact ⟨h, rfl⟩
  | cons s steps ih =>
      obtain ⟨hpoll, hpolls⟩ := hpolls
      obtain ⟨hstep, hmarked⟩ := h.step hpoll
      obtain ⟨hrun, hmarked'⟩ := ih hstep hpolls
      exact ⟨hrun, hmarked'.trans hmarked⟩

end Ledger

/-- After a list of binds was queued, whatever else is queued and whenever
the queue is checked: the outputs of the list that were delivered, and then
those still queued, are the outputs of the list in its order. -/
def DeliversInOrder (env : Env) (binds : List Bind) (m m' : Mapper) (steps : List QueueStep) :
    Prop :=
  ∃ queued after, m'.queuedEvents = m.queuedEvents ++ queued ∧
    after = Ledger.run env steps m' (.start m.queuedEvents queued) ∧
    after.1.sent.flatten = m.sent.flatten ++ after.2.delivered.map (fun x ↦ x.1.2) ∧
    after.1.queuedEvents = after.2.queue.map Prod.fst ∧
    after.2.marked.map Prod.snd = binds.filterMap Bind.output

theorem deliversInOrder_of_polls {env : Env} {binds : List Bind} {m m' : Mapper}
    (h : m.queueBinds env binds = .ok m')
    (hfits : env.clock m'.instant + totalDelay binds < uint64Size) {steps : List QueueStep}
    (hpolls : PollsArranged env steps m') : DeliversInOrder env binds m m' steps := by
  obtain ⟨⟨m₁, delay⟩, hfold, hm₁⟩ := Exits.bind_eq_ok.mp h
  cases hm₁
  obtain ⟨-, hsent, queued, hqueued, hmap, hsorted, -⟩ :=
    Mapper.queueBinds_queue hfold (by simpa using hfits)
  have hfilter : ((Ledger.start m.queuedEvents queued).queue.filter Prod.snd) =
      queued.map (·, true) := by
    simp only [Ledger.start, List.filter_append]
    rw [List.filter_eq_nil_iff.mpr (by simp), List.filter_eq_self.mpr (by simp)]
    rfl
  have hstart : (Ledger.start m.queuedEvents queued).Fits m.sent.flatten m' := by
    refine ⟨?_, ?_, ?_⟩
    · simp [Ledger.start, hqueued, Function.comp_def]
    · simp [Ledger.start, hsent]
    · rw [hfilter, List.pairwise_map]
      exact hsorted
  obtain ⟨hrun, hmarked⟩ := hstart.run hpolls
  refine ⟨queued, _, hqueued, rfl, hrun.delivered, hrun.queue.symm, ?_⟩
  rw [hmarked, Ledger.marked, Ledger.start, List.nil_append]
  rw [Ledger.start] at hfilter
  rw [hfilter, ← hmap]
  simp [Function.comp_def]

/-! ## When the outputs are in order -/

/-- Two presses, and a third one after a second. -/
def threePresses : List Bind := [.pressKey .a, .pressKey .b, .wait 1000, .pressKey .c]

/-- A check right after they were queued emits B before A. -/
theorem threePresses_reordered : ∃ m, idleMapper.queueBinds .still threePresses = .ok m ∧
    (m.checkQueuedEvents .still).sent = [[.key ⟨.b, .press⟩, .key ⟨.a, .press⟩]] ∧
    ¬ EmitsInOrder .still m.instant m.queuedEvents := by
  obtain ⟨m, hm, hqueue, hsent⟩ : ∃ m, idleMapper.queueBinds .still threePresses = .ok m ∧
      m.queuedEvents =
        [(0, .key ⟨.a, .press⟩), (0, .key ⟨.b, .press⟩), (1000, .key ⟨.c, .press⟩)] ∧
      m.sent = [] :=
    ⟨_, rfl, rfl, rfl⟩
  have hthree : TwoPointer.partition (fun x : ℕ × OutputEvent ↦ decide (0 < x.1))
      [(0, .key ⟨.a, .press⟩), (0, .key ⟨.b, .press⟩), (1000, .key ⟨.c, .press⟩)] =
      ([(1000, .key ⟨.c, .press⟩)], [(0, .key ⟨.b, .press⟩), (0, .key ⟨.a, .press⟩)]) :=
    TwoPointer.partition_three rfl rfl rfl
  have hchecked : (m.checkQueuedEvents .still).sent =
      [[.key ⟨.b, .press⟩, .key ⟨.a, .press⟩]] := by
    have hnow : Env.still.clock m.instant = 0 := rfl
    simp [Mapper.checkQueuedEvents, hnow, hqueue, hthree, hsent]
  refine ⟨m, hm, hchecked, fun h ↦ ?_⟩
  -- In the order of the queue A would stand before B.
  have hsorted : TwoPointer.byTime Prod.fst
      [((0, .key ⟨.a, .press⟩) : ℕ × OutputEvent), (0, .key ⟨.b, .press⟩)] =
        [(0, .key ⟨.a, .press⟩), (0, .key ⟨.b, .press⟩)] :=
    List.mergeSort_of_pairwise (by decide)
  have hemitted := (h m rfl rfl).2
  rw [hchecked, hqueue, hsent] at hemitted
  have hready : [((0, .key ⟨.a, .press⟩) : ℕ × OutputEvent), (0, .key ⟨.b, .press⟩),
      (1000, .key ⟨.c, .press⟩)].filter (fun x ↦ x.1 ≤ Env.still.clock m.instant) =
        [(0, .key ⟨.a, .press⟩), (0, .key ⟨.b, .press⟩)] := rfl
  rw [hready, hsorted] at hemitted
  cases hemitted

/-- A check of the queue keeps the order exactly when the queue is arranged
for it; and when all checks after a list of binds find the queue arranged,
the outputs of the list are delivered in its order. -/
theorem outputs_inOrder (env : Env) (instant : ℕ) (queue : List (ℕ × OutputEvent))
    {binds : List Bind} {m m' : Mapper} (h : m.queueBinds env binds = .ok m')
    (hfits : env.clock m'.instant + totalDelay binds < uint64Size) (steps : List QueueStep) :
    (EmitsInOrder env instant queue ↔ QueueArranged (env.clock instant) queue) ∧
      (PollsArranged env steps m' → DeliversInOrder env binds m m' steps) :=
  ⟨emitsInOrder_iff env instant queue, fun hpolls ↦ deliversInOrder_of_polls h hfits hpolls⟩

def twoPresses : List Bind := [.pressKey .a, .wait 10, .pressKey .b]

theorem outputs_inOrder_two : ∃ m, idleMapper.queueBinds .still twoPresses = .ok m ∧
    EmitsInOrder .still m.instant m.queuedEvents ∧
    DeliversInOrder .still twoPresses idleMapper m [.poll] := by
  have harranged : QueueArranged 0 [(0, .key ⟨.a, .press⟩), (10, .key ⟨.b, .press⟩)] :=
    .inr ⟨[], (0, .key ⟨.a, .press⟩), [], (10, .key ⟨.b, .press⟩), [], rfl, by simp⟩
  obtain ⟨m, hm, hqueue, hfits⟩ : ∃ m, idleMapper.queueBinds .still twoPresses = .ok m ∧
      m.queuedEvents = [(0, .key ⟨.a, .press⟩), (10, .key ⟨.b, .press⟩)] ∧
      Env.still.clock m.instant + totalDelay twoPresses < uint64Size :=
    ⟨_, rfl, rfl, by decide⟩
  obtain ⟨hemits, hdelivers⟩ := outputs_inOrder .still m.instant m.queuedEvents hm hfits [.poll]
  exact ⟨m, hm, hemits.mpr (hqueue ▸ harranged),
    hdelivers ⟨fun _ ↦ hqueue ▸ harranged, trivial⟩⟩

end Keybinder

import Keybinder.Acceptance
import Keybinder.Runs

/-!
# Matching keys without waits

A layer of Capture and Release sequences of keys, without waits, is a set of
words.  The machine that is generated for it does what a matcher does that
only keeps the list of matched keys; it is generated unless two of the words
are in conflict.
-/

namespace Keybinder

def KeyEvent.trigger : KeyEvent → AdvancedTrigger
  | ⟨keyCode, .press⟩ => .keyPress keyCode
  | ⟨keyCode, .release⟩ => .keyRelease keyCode

/-- The sequences have key triggers only, and the behavior Capture or
Release. -/
structure Layer.KeysOnly (layer : Layer) : Prop where
  keys : ∀ s ∈ layer.sequenceRemappings, ∃ keys : List KeyEvent,
    s.sequence = keys.map KeyEvent.trigger
  behavior : ∀ s ∈ layer.sequenceRemappings, s.behavior ≠ .default

/-- Some sequence is a prefix of another one, or two with the same first
trigger differ in behavior; sequences without triggers are ignored. -/
def Layer.Conflicts (layer : Layer) : Prop :=
  ∃ (i j : ℕ) (s s' : SequenceTrigger), i ≠ j ∧ layer.sequenceRemappings[i]? = some s ∧
    layer.sequenceRemappings[j]? = some s' ∧ s.sequence ≠ [] ∧ s'.sequence ≠ [] ∧
    (s.sequence <+: s'.sequence ∨
      s.sequence.head? = s'.sequence.head? ∧ s.behavior ≠ s'.behavior)

/-! ## The reference -/

/-- What a sequence emits on each of its keys. -/
def SequenceTrigger.translation (s : SequenceTrigger) (e : KeyEvent) :
    List StateMachineOutputEvent :=
  if s.behavior = .release then [.basicTranlation (some (.key e))] else []

/-- One event of the matcher: its outputs, and what is matched then. -/
def Layer.matchKey (layer : Layer) (matched : List KeyEvent) (e : KeyEvent) :
    List StateMachineOutputEvent × List KeyEvent :=
  let read := (matched ++ [e]).map KeyEvent.trigger
  match layer.sequenceRemappings.find? fun s ↦ decide (s.sequence = read) with
  | some s => (s.translation e ++ s.binds.map .bind, [])
  | none =>
      match layer.sequenceRemappings.find? fun s ↦ decide (read <+: s.sequence) with
      | some s => (s.translation e, matched ++ [e])
      | none => ([.basicTranlation (some (.key e))], [])

def Layer.matchKeys (layer : Layer) (matched : List KeyEvent) :
    List KeyEvent → List (List StateMachineOutputEvent)
  | [] => []
  | e :: events =>
      (layer.matchKey matched e).1 :: layer.matchKeys (layer.matchKey matched e).2 events

/-! ## The machine -/

/-- An output that is executed for an event, with the event in it. -/
def StateMachineOutputEvent.resolve (e : InputEvent) :
    StateMachineOutputEvent → StateMachineOutputEvent
  | .proccessInput event => .proccessInput (event <|> some e)
  | .basicTranlation event => .basicTranlation (event <|> some e)
  | .bind b => .bind b

/-- One event of a machine: the outputs executed, and the next state. -/
def machineStep (H : QHash) (states : List State) (idx : ℕ) (e : InputEvent) :
    Except Exit (List StateMachineOutputEvent × ℕ) := do
  let state ← vectorAt states idx
  let transition := Mapper.transitionFor H state e
  let newState ← assigned transition.newState
  return (transition.outputs.map (.resolve e), newState)

def machineRun (H : QHash) (states : List State) :
    ℕ → List KeyEvent → Except Exit (List (List StateMachineOutputEvent))
  | _, [] => return []
  | idx, e :: events => do
      let (outputs, idx) ← machineStep H states idx (.key e)
      let rest ← machineRun H states idx events
      return outputs :: rest

/-! ## The words of the sequences -/

/-- The place that keys lead to. -/
def keyPlace (keys : List KeyEvent) : Place := keys.map fun e ↦ .sym (.key e)

/-- The occurrence of a key after others in a sequence. -/
def keyOccurrence (j : ℕ) (s : SequenceTrigger) (read : List KeyEvent) (e : KeyEvent) : Occurrence :=
  ⟨j, s, ⟨e.trigger, none, (read ++ [e]).map KeyEvent.trigger,
    decide ((read ++ [e]).map KeyEvent.trigger = s.sequence)⟩, .key e, keyPlace read⟩

theorem KeyEvent.trigger_injective : Function.Injective KeyEvent.trigger := by
  rintro ⟨keyCode, type⟩ ⟨keyCode', type'⟩ h
  cases type <;> cases type' <;> cases h <;> rfl

theorem keyPlace_injective : Function.Injective keyPlace :=
  List.map_injective_iff.mpr fun e e' h ↦ by simpa using h

@[simp] theorem triggerToInput_trigger (e : KeyEvent) : e.trigger.triggerToInput = some (.key e) := by
  obtain ⟨keyCode, type⟩ := e
  cases type <;> rfl

@[simp] theorem dest_keyOccurrence (j : ℕ) (s : SequenceTrigger) (read : List KeyEvent)
    (e : KeyEvent) : (keyOccurrence j s read e).dest = keyPlace (read ++ [e]) := by
  simp [Occurrence.dest, keyOccurrence, keyPlace, InputEvent.symbol]

theorem loopPasses_keys (read : List AdvancedTrigger) (e : KeyEvent) (rest : List KeyEvent) :
    loopPasses read ((e :: rest).map KeyEvent.trigger) =
      ⟨e.trigger, none, read ++ [e.trigger], rest.isEmpty⟩ ::
        loopPasses (read ++ [e.trigger]) (rest.map KeyEvent.trigger) := by
  obtain ⟨keyCode, type⟩ := e
  cases rest with
  | nil => cases type <;> rfl
  | cons e' rest =>
      obtain ⟨keyCode', type'⟩ := e'
      cases type <;> cases type' <;> rfl

theorem mem_occurrencesFrom_keys {j : ℕ} {s : SequenceTrigger} {read rest : List KeyEvent}
    (hs : s.sequence = (read ++ rest).map KeyEvent.trigger) {o : Occurrence} :
    o ∈ occurrencesFrom j s (keyPlace read) (loopPasses (read.map KeyEvent.trigger)
        (rest.map KeyEvent.trigger)) ↔
      ∃ mid e, mid ++ [e] <+: rest ∧ o = keyOccurrence j s (read ++ mid) e := by
  induction rest generalizing read with
  | nil => simp [loopPasses, occurrencesFrom]
  | cons first rest ih =>
      have hfinal : rest.isEmpty = decide ((read ++ [first]).map KeyEvent.trigger = s.sequence) := by
        rw [hs, Bool.eq_iff_iff, List.isEmpty_iff, decide_eq_true_iff,
          (List.map_injective_iff.mpr KeyEvent.trigger_injective).eq_iff]
        simp
      have hhead : (⟨j, s, ⟨first.trigger, none, read.map KeyEvent.trigger ++ [first.trigger],
          rest.isEmpty⟩, .key first, keyPlace read⟩ : Occurrence) = keyOccurrence j s read first := by
        rw [hfinal, keyOccurrence, List.map_append]
        rfl
      have hnext : (keyOccurrence j s read first).next = keyPlace (read ++ [first]) := by
        rw [Occurrence.next, if_neg (by simp [keyOccurrence, LoopPass.midWait]), dest_keyOccurrence]
      have hmap : read.map KeyEvent.trigger ++ [first.trigger] =
          (read ++ [first]).map KeyEvent.trigger := by
        simp
      rw [loopPasses_keys, occurrencesFrom_cons (triggerToInput_trigger first), hhead, hnext, hmap,
        List.mem_cons, ih (by simpa using hs)]
      constructor
      · rintro (rfl | ⟨mid, e, hmid, rfl⟩)
        · exact ⟨[], first, by simp, by simp⟩
        · exact ⟨first :: mid, e, by simpa using hmid, by simp⟩
      · rintro ⟨mid, e, hmid, rfl⟩
        cases mid with
        | nil =>
            obtain rfl : e = first := by simpa using hmid
            exact .inl (by simp)
        | cons first' mid =>
            rw [List.cons_append, List.cons_prefix_cons] at hmid
            obtain ⟨rfl, hmid⟩ := hmid
            exact .inr ⟨mid, e, hmid, by simp⟩

namespace Layer

variable {layer : Layer}

theorem mem_occurrences_keys (hkeys : layer.KeysOnly) {o : Occurrence} :
    o ∈ layer.occurrences ↔ ∃ j s read e, layer.sequenceRemappings[j]? = some s ∧
      (read ++ [e]).map KeyEvent.trigger <+: s.sequence ∧ o = keyOccurrence j s read e := by
  have hsequence : ∀ s ∈ layer.sequenceRemappings, ∀ (j : ℕ), o ∈ s.occurrences j ↔ ∃ read e,
      (read ++ [e]).map KeyEvent.trigger <+: s.sequence ∧ o = keyOccurrence j s read e := by
    intro s hs j
    obtain ⟨keys, hsequence⟩ := hkeys.keys s hs
    have hs₀ : s.sequence = ([] ++ keys).map KeyEvent.trigger := hsequence
    have hmem : o ∈ s.occurrences j ↔
        ∃ read e, read ++ [e] <+: keys ∧ o = keyOccurrence j s ([] ++ read) e := by
      rw [SequenceTrigger.occurrences, hsequence]
      exact mem_occurrencesFrom_keys hs₀
    rw [hmem, hsequence]
    simp only [List.prefix_map_iff_of_injective KeyEvent.trigger_injective, List.nil_append]
  constructor
  · intro ho
    have hs := (Layer.of_mem_occurrences ho).1
    obtain ⟨read, e, hread, ho'⟩ :=
      (hsequence _ (List.mem_of_getElem? hs) o.owner).mp (Layer.mem_occurrences ho)
    exact ⟨o.owner, o.sequence, read, e, hs, hread, ho'⟩
  · rintro ⟨j, s, read, e, hs, hread, ho⟩
    exact Layer.occurrences_subset hs
      ((hsequence s (List.mem_of_getElem? hs) j).mpr ⟨read, e, hread, ho⟩)

theorem KeysOnly.separated (hkeys : layer.KeysOnly) : layer.Separated where
  appsApart o ho o' ho' _ heq := by
    obtain ⟨j, s, read, e, -, -, rfl⟩ := (mem_occurrences_keys hkeys).mp ho
    obtain ⟨j', s', read', e', -, -, rfl⟩ := (mem_occurrences_keys hkeys).mp ho'
    have hsame : InputEvent.key e = .key e' := InputEvent.eq_key_iff.mp heq
    exact congrArg InputEvent.symbol hsame
  endsApart := by
    refine List.pairwise_of_forall_mem_list fun o _ o' ho' _ _ _ ↦ ?_
    exact hkeys.behavior _ (List.mem_of_getElem? (Layer.of_mem_occurrences ho').1)
  waitsOpen o ho hmid := by
    obtain ⟨j, s, read, e, -, -, rfl⟩ := (mem_occurrences_keys hkeys).mp ho
    simp [keyOccurrence, LoopPass.midWait] at hmid

theorem KeysOnly.readable (hkeys : layer.KeysOnly) : ∀ s ∈ layer.sequenceRemappings, s.Readable := by
  intro s hs
  obtain ⟨keys, hsequence⟩ := hkeys.keys s hs
  have hkeys : ∀ (keys : List KeyEvent) (read : List AdvancedTrigger),
      ∀ pass ∈ loopPasses read (keys.map KeyEvent.trigger),
        pass.trigger.triggerToInput.isSome = true := by
    intro keys
    induction keys with
    | nil => simp [loopPasses]
    | cons e keys ih =>
        intro read
        rw [loopPasses_keys, List.forall_mem_cons]
        exact ⟨by simp, ih _⟩
  rw [SequenceTrigger.Readable, hsequence]
  exact hkeys keys []

/-- Without a conflict, occurrences that lead to one place agree. -/
theorem KeysOnly.coherent_iff (hkeys : layer.KeysOnly) :
    Coherent [] layer.occurrences ↔ ¬ layer.Conflicts := by
  have htimers : ∀ o ∈ layer.occurrences, ∀ o' ∈ layer.occurrences, o.dest = o'.dest →
      Agrees o o' → o.pass.timer.isSome = o'.pass.timer.isSome := by
    intro o ho o' ho' _ _
    obtain ⟨j, s, read, e, -, -, rfl⟩ := (mem_occurrences_keys hkeys).mp ho
    obtain ⟨j', s', read', e', -, -, rfl⟩ := (mem_occurrences_keys hkeys).mp ho'
    rfl
  rw [Layer.coherent_iff htimers]
  constructor
  · rintro hagrees ⟨i, j, s, s', hne, hs, hs', hs₀, hs₀', hconflict⟩
    obtain ⟨keys, hsequence⟩ := hkeys.keys s (List.mem_of_getElem? hs)
    -- Two occurrences of the sequences lead to the same place.
    have hpair : ∀ read e, (read ++ [e]).map KeyEvent.trigger <+: s.sequence →
        (read ++ [e]).map KeyEvent.trigger <+: s'.sequence →
        Agrees (keyOccurrence i s read e) (keyOccurrence j s' read e) := by
      intro read e hread hread'
      refine hagrees _ ((mem_occurrences_keys hkeys).mpr ⟨i, s, read, e, hs, hread, rfl⟩) _
        ((mem_occurrences_keys hkeys).mpr ⟨j, s', read, e, hs', hread', rfl⟩) ?_ (by simp)
      exact fun h ↦ hne (congrArg Occurrence.owner h)
    rcases hconflict with hprefix | ⟨hhead, hbehavior⟩
    · obtain ⟨read, e, rfl⟩ : ∃ read e, keys = read ++ [e] := by
        refine List.eq_nil_or_concat' keys |>.resolve_left ?_
        rintro rfl
        exact hs₀ (by simpa using hsequence)
      have hlast := (hpair read e (hsequence ▸ List.prefix_refl _) (hsequence ▸ hprefix)).goes_on
      simp [keyOccurrence, LoopPass.isLast, hsequence] at hlast
    · cases keys with
      | nil => exact hs₀ (by simpa using hsequence)
      | cons e keys =>
          obtain ⟨rest, hrest⟩ : ∃ rest, s'.sequence = e.trigger :: rest := by
            cases hsequence' : s'.sequence with
            | nil => exact (hs₀' hsequence').elim
            | cons trigger rest =>
                rw [hsequence, hsequence'] at hhead
                exact ⟨rest, by simpa using hhead.symm⟩
          refine hbehavior (hpair [] e ?_ ?_).behavior_eq
          · simp [hsequence]
          · simp [hrest]
  · intro hno o ho o' ho' hne hdest
    obtain ⟨i, s, read, e, hs, hread, rfl⟩ := (mem_occurrences_keys hkeys).mp ho
    obtain ⟨j, s', read', e', hs', hread', rfl⟩ := (mem_occurrences_keys hkeys).mp ho'
    rw [dest_keyOccurrence, dest_keyOccurrence] at hdest
    obtain ⟨rfl, he⟩ := List.append_inj' (keyPlace_injective hdest) rfl
    obtain rfl : e = e' := by simpa using he
    have hij : i ≠ j := by
      rintro rfl
      rw [hs, Option.some.injEq] at hs'
      exact hne (hs' ▸ rfl)
    have hfull : ∀ {s : SequenceTrigger}, (read ++ [e]).map KeyEvent.trigger <+: s.sequence →
        s.sequence ≠ [] := by
      rintro s hread hnil
      simp [hnil] at hread
    refine ⟨?_, ?_, ?_, fun h ↦ by simp [keyOccurrence] at h⟩
    · by_contra hlast
      have hlast : (read ++ [e]).map KeyEvent.trigger = s.sequence := by
        simpa [keyOccurrence, LoopPass.isLast] using hlast
      exact hno ⟨i, j, s, s', hij, hs, hs', hfull hread, hfull hread', .inl (hlast ▸ hread')⟩
    · by_contra hlast
      have hlast : (read ++ [e]).map KeyEvent.trigger = s'.sequence := by
        simpa [keyOccurrence, LoopPass.isLast] using hlast
      exact hno ⟨j, i, s', s, hij.symm, hs', hs, hfull hread', hfull hread, .inl (hlast ▸ hread)⟩
    · by_contra hbehavior
      refine hno ⟨i, j, s, s', hij, hs, hs', hfull hread, hfull hread', .inr ⟨?_, hbehavior⟩⟩
      obtain ⟨rest, hrest⟩ := hread
      obtain ⟨rest', hrest'⟩ := hread'
      rw [← hrest, ← hrest']
      cases read <;> rfl

section Match

variable {j : ℕ} {s : SequenceTrigger} {matched : List KeyEvent} {e : KeyEvent}

theorem KeysOnly.agrees (hkeys : layer.KeysOnly) (hno : ¬ layer.Conflicts)
    (hs : layer.sequenceRemappings[j]? = some s)
    (hread : (matched ++ [e]).map KeyEvent.trigger <+: s.sequence) {s' : SequenceTrigger}
    (hs' : s' ∈ layer.sequenceRemappings)
    (hread' : (matched ++ [e]).map KeyEvent.trigger <+: s'.sequence) :
    s' = s ∨ (matched ++ [e]).map KeyEvent.trigger ≠ s.sequence ∧
      (matched ++ [e]).map KeyEvent.trigger ≠ s'.sequence ∧ s'.behavior = s.behavior := by
  obtain ⟨i, hi⟩ := List.mem_iff_getElem?.mp hs'
  by_cases hij : i = j
  · left
    rw [← hij, hi] at hs
    exact Option.some.inj hs
  · right
    have hcoherent := (Layer.coherent_iff fun o ho o' ho' _ _ ↦ ?_).mp (hkeys.coherent_iff.mpr hno)
    · have hagrees := hcoherent _ ((mem_occurrences_keys hkeys).mpr ⟨i, s', _, _, hi, hread', rfl⟩)
        _ ((mem_occurrences_keys hkeys).mpr ⟨j, s, _, _, hs, hread, rfl⟩)
        (fun h ↦ hij (congrArg Occurrence.owner h)) (by simp)
      refine ⟨?_, ?_, hagrees.behavior_eq⟩
      · simpa [keyOccurrence, LoopPass.isLast] using hagrees.shares_on
      · simpa [keyOccurrence, LoopPass.isLast] using hagrees.goes_on
    · obtain ⟨_, _, _, _, -, -, rfl⟩ := (mem_occurrences_keys hkeys).mp ho
      obtain ⟨_, _, _, _, -, -, rfl⟩ := (mem_occurrences_keys hkeys).mp ho'
      rfl

theorem KeysOnly.matchKey_whole (hkeys : layer.KeysOnly) (hno : ¬ layer.Conflicts)
    (hs : layer.sequenceRemappings[j]? = some s)
    (hread : (matched ++ [e]).map KeyEvent.trigger = s.sequence) :
    layer.matchKey matched e = (s.translation e ++ s.binds.map .bind, []) := by
  have hfind : layer.sequenceRemappings.find? (fun s ↦
      decide (s.sequence = (matched ++ [e]).map KeyEvent.trigger)) = some s := by
    cases hfind : layer.sequenceRemappings.find? fun s ↦
        decide (s.sequence = (matched ++ [e]).map KeyEvent.trigger) with
    | none =>
        rw [List.find?_eq_none] at hfind
        exact (hfind s (List.mem_of_getElem? hs) (decide_eq_true hread.symm)).elim
    | some s' =>
        have hread' : s'.sequence = (matched ++ [e]).map KeyEvent.trigger := by
          simpa using List.find?_some hfind
        rcases hkeys.agrees hno hs (by rw [hread]) (List.mem_of_find?_eq_some hfind)
          (by rw [hread']) with rfl | ⟨hne, -⟩
        · rfl
        · exact (hne hread).elim
  simp only [matchKey, hfind]

theorem KeysOnly.matchKey_begun (hkeys : layer.KeysOnly) (hno : ¬ layer.Conflicts)
    (hs : layer.sequenceRemappings[j]? = some s)
    (hread : (matched ++ [e]).map KeyEvent.trigger <+: s.sequence)
    (hne : (matched ++ [e]).map KeyEvent.trigger ≠ s.sequence) :
    layer.matchKey matched e = (s.translation e, matched ++ [e]) := by
  have hwhole : layer.sequenceRemappings.find? (fun s ↦
      decide (s.sequence = (matched ++ [e]).map KeyEvent.trigger)) = none := by
    rw [List.find?_eq_none]
    intro s' hs' hread'
    have hread' : s'.sequence = (matched ++ [e]).map KeyEvent.trigger := by simpa using hread'
    rcases hkeys.agrees hno hs hread hs' (by rw [hread']) with rfl | ⟨-, hne', -⟩
    · exact hne hread'.symm
    · exact hne' hread'.symm
  cases hfind : layer.sequenceRemappings.find? fun s ↦
      decide ((matched ++ [e]).map KeyEvent.trigger <+: s.sequence) with
  | none =>
      rw [List.find?_eq_none] at hfind
      exact (hfind s (List.mem_of_getElem? hs) (decide_eq_true hread)).elim
  | some s' =>
      have hread' : (matched ++ [e]).map KeyEvent.trigger <+: s'.sequence := by
        simpa using List.find?_some hfind
      have htranslation : s'.translation e = s.translation e := by
        rcases hkeys.agrees hno hs hread (List.mem_of_find?_eq_some hfind) hread' with
          rfl | ⟨-, -, hbehavior⟩
        · rfl
        · rw [SequenceTrigger.translation, hbehavior, SequenceTrigger.translation]
      simp only [matchKey, hwhole, hfind, htranslation]

theorem matchKey_other (hother : ∀ s ∈ layer.sequenceRemappings,
      ¬ (matched ++ [e]).map KeyEvent.trigger <+: s.sequence) :
    layer.matchKey matched e = ([.basicTranlation (some (.key e))], []) := by
  have hwhole : layer.sequenceRemappings.find? (fun s ↦
      decide (s.sequence = (matched ++ [e]).map KeyEvent.trigger)) = none := by
    rw [List.find?_eq_none]
    intro s hs hread
    exact hother s hs ((of_decide_eq_true hread) ▸ List.prefix_refl _)
  have hbegun : layer.sequenceRemappings.find? (fun s ↦
      decide ((matched ++ [e]).map KeyEvent.trigger <+: s.sequence)) = none := by
    rw [List.find?_eq_none]
    intro s hs hread
    exact hother s hs (of_decide_eq_true hread)
  simp only [matchKey, hwhole, hbegun]

end Match

end Layer

namespace StraightMachine

variable {H : QHash} {layer : Layer} {states : List State} (M : StraightMachine H layer states)
  {idx : ℕ} {matched : List KeyEvent}

theorem fallback_keys (hkeys : layer.KeysOnly) (hp : keyPlace matched ∈ M.places) (e : InputEvent) :
    (M.trie.fallback (keyPlace matched)).newState = some homeStateIdx ∧
      (M.trie.fallback (keyPlace matched)).outputs.map (StateMachineOutputEvent.resolve e) =
        [.basicTranlation (some e)] := by
  have hnew : (M.trie.fallback (keyPlace matched)).newState = some homeStateIdx := by
    rcases M.represents.fallback_cases M.grows hp with h | ⟨p', hp', -⟩
    · exact h
    · have hwait : Token.wait ∈ keyPlace matched := hp' ▸ by simp
      simp [keyPlace] at hwait
  refine ⟨hnew, ?_⟩
  unfold Trie.fallback at hnew ⊢
  split
  · rfl
  · rename_i hne
    rw [if_neg hne] at hnew
    split
    · rename_i x hx
      have hmem := (Trie.creatorAt_eq_some hx).1
      have hbehavior := hkeys.behavior _
        (List.mem_of_getElem? (Layer.of_mem_occurrences (M.straight.mem hmem)).1)
      rw [newFallback, if_neg hbehavior]
      rfl
    · rename_i hx
      simp [hx] at hnew

theorem edge_keys (hkeys : layer.KeysOnly) {y : Placement} {e : KeyEvent}
    (hy : y ∈ M.trie.edgesAt (keyPlace matched)) (heq : InputEvent.eq y.stored (.key e) = true) :
    ∃ (j : ℕ) (s : SequenceTrigger), layer.sequenceRemappings[j]? = some s ∧
      (matched ++ [e]).map KeyEvent.trigger <+: s.sequence ∧
      y.stored = .key e ∧ y.toOccurrence = keyOccurrence j s matched e := by
  obtain ⟨hmem, -, hsrc⟩ := Trie.mem_edgesAt.mp hy
  obtain ⟨j, s, read, k, hs, hread, hocc⟩ :=
    (Layer.mem_occurrences_keys hkeys).mp (M.straight.mem hmem)
  have hstored : y.stored = .key e := InputEvent.eq_key_iff.mp heq
  obtain rfl : read = matched := by
    apply keyPlace_injective
    rw [← hsrc]
    exact (congrArg Occurrence.src hocc).symm
  obtain rfl : k = e := by
    have hsymbol := M.straight.symbol y hmem
    rw [hstored, congrArg Occurrence.input hocc] at hsymbol
    simpa [keyOccurrence, InputEvent.symbol] using hsymbol.symm
  exact ⟨j, s, hs, hread, hstored, hocc⟩

theorem edge_outputs_keys {y : Placement} {s : SequenceTrigger} {e : KeyEvent}
    (hsequence : y.sequence = s) (hstored : y.stored = .key e) :
    (M.edge y).outputs.map (StateMachineOutputEvent.resolve (.key e)) =
      s.translation e ++ if y.pass.isLast then s.binds.map .bind else [] := by
  have htranslation : (if s.behavior = .release then
      [StateMachineOutputEvent.basicTranlation (some (.key e))] else []).map (.resolve (.key e)) =
      s.translation e := by
    unfold SequenceTrigger.translation
    split <;> rfl
  have hbinds : (s.binds.map StateMachineOutputEvent.bind).map
      (StateMachineOutputEvent.resolve (.key e)) = s.binds.map StateMachineOutputEvent.bind := by
    simp [StateMachineOutputEvent.resolve]
  simp only [edge, Placement.transition, newTransition, List.map_append, hsequence, hstored]
  rw [htranslation]
  split
  · rw [hbinds]
  · rfl

/-- One key: the machine does what the reference does, and goes to the place
of what is matched then. -/
theorem machineStep_eq (hkeys : layer.KeysOnly) (hno : ¬ layer.Conflicts)
    (hp : M.places[idx]? = some (keyPlace matched)) (e : KeyEvent) :
    ∃ idx', machineStep H states idx (.key e) = .ok ((layer.matchKey matched e).1, idx') ∧
      M.places[idx']? = some (keyPlace (layer.matchKey matched e).2) := by
  have hstate := M.represents.state hp
  have hstep : ∀ {transition n}, Mapper.transitionFor H
      (M.trie.state (Numbering.number M.places) M.trie (keyPlace matched)) (.key e) = transition →
      transition.newState = some n → machineStep H states idx (.key e) =
        .ok (transition.outputs.map (.resolve (.key e)), n) := by
    rintro _ n rfl hn
    simp [machineStep, vectorAt, hstate, assigned, hn]
  rcases M.input_cases hp hstate (.key e) with ⟨y, hy, heq, hedge⟩ | ⟨hne, hfallback⟩
  · have hmem := (Trie.mem_edgesAt.mp hy).1
    obtain ⟨j, s, hs, hread, hstored, hocc⟩ := M.edge_keys hkeys hy heq
    have hlast : y.pass.isLast = decide ((matched ++ [e]).map KeyEvent.trigger = s.sequence) := by
      rw [congrArg Occurrence.pass hocc]
      simp [keyOccurrence, LoopPass.isLast]
    have hn : (M.edge y).newState = some (Numbering.number M.places y.tgt) := rfl
    have hplace := M.place_of_edge hmem hn
    have htgt := M.straight.tgt y hmem
    have houtputs := M.edge_outputs_keys (congrArg Occurrence.sequence hocc) hstored
    refine ⟨Numbering.number M.places y.tgt, (hstep hedge hn).trans ?_, ?_⟩
    · rw [houtputs, hlast]
      by_cases hwhole : (matched ++ [e]).map KeyEvent.trigger = s.sequence
      · rw [hkeys.matchKey_whole hno hs hwhole, decide_eq_true hwhole, if_pos rfl]
        rfl
      · rw [hkeys.matchKey_begun hno hs hread hwhole, decide_eq_false hwhole,
          if_neg Bool.false_ne_true, List.append_nil]
        rfl
    · rw [hplace, htgt, hlast]
      by_cases hwhole : (matched ++ [e]).map KeyEvent.trigger = s.sequence
      · rw [hkeys.matchKey_whole hno hs hwhole, decide_eq_true hwhole, if_pos rfl]
        rfl
      · rw [hkeys.matchKey_begun hno hs hread hwhole, decide_eq_false hwhole,
          if_neg Bool.false_ne_true, hocc, dest_keyOccurrence]
  · -- No sequence goes on with the key, or there were an edge for it.
    have hother : ∀ s ∈ layer.sequenceRemappings,
        ¬ (matched ++ [e]).map KeyEvent.trigger <+: s.sequence := by
      intro s hs hread
      obtain ⟨j, hj⟩ := List.mem_iff_getElem?.mp hs
      have hocc := (Layer.mem_occurrences_keys hkeys).mpr ⟨j, s, matched, e, hj, hread, rfl⟩
      obtain ⟨y, hy, hdest, -⟩ :=
        M.edge_of_trigger (e := .key e) hkeys.separated hp hstate hocc rfl rfl
      have hstored := M.dest_of_edge hy
      rw [hdest, dest_keyOccurrence, keyPlace, List.map_append] at hstored
      have hsymbol : y.stored.symbol = .key e := by
        simpa using (List.append_inj' hstored rfl).2.symm
      have hno := hne y hy
      rw [InputEvent.symbol_eq_key_iff.mp hsymbol, InputEvent.eq_refl] at hno
      cases hno
    obtain ⟨hn, houtputs⟩ := M.fallback_keys hkeys (List.mem_of_getElem? hp) (.key e)
    refine ⟨homeStateIdx, (hstep hfallback hn).trans ?_, ?_⟩
    · rw [houtputs, Layer.matchKey_other hother]
    · rw [Layer.matchKey_other hother]
      exact M.home_place

theorem machineRun_eq (hkeys : layer.KeysOnly) (hno : ¬ layer.Conflicts) (events : List KeyEvent)
    (hp : M.places[idx]? = some (keyPlace matched)) :
    machineRun H states idx events = .ok (layer.matchKeys matched events) := by
  induction events generalizing idx matched with
  | nil => rfl
  | cons e events ih =>
      obtain ⟨idx', hstep, hp'⟩ := M.machineStep_eq hkeys hno hp e
      simp only [machineRun, hstep, ih hp', Exits.ok_bind]
      rfl

end StraightMachine

/-- A layer of keys is rejected exactly when two of its sequences are in
conflict; otherwise its machine does on every list of keys what the reference
does. -/
theorem generateStates_matches (H : QHash) {layer : Layer} (hkeys : layer.KeysOnly) :
    (generateStates H layer = .error .nullopt ↔ layer.Conflicts) ∧
      (¬ layer.Conflicts → ∃ states, generateStates H layer = .ok states ∧
        ∀ events, machineRun H states homeStateIdx events = .ok (layer.matchKeys [] events)) := by
  have haccepted : (∃ states, generateStates H layer = .ok states) ↔ ¬ layer.Conflicts := by
    rw [exists_generateStates_iff hkeys.separated.keptApart, hkeys.coherent_iff]
    exact and_iff_right hkeys.readable
  refine ⟨?_, fun hno ↦ ?_⟩
  · constructor
    · intro hnull
      by_contra hno
      obtain ⟨states, hstates⟩ := haccepted.mpr hno
      rw [hnull] at hstates
      cases hstates
    · intro hconflicts
      cases hgenerate : generateStates H layer with
      | ok states => exact (haccepted.mp ⟨states, hgenerate⟩ hconflicts).elim
      | error x => rw [eq_nullopt_of_readable hkeys.readable hgenerate]
  · obtain ⟨states, hstates⟩ := haccepted.mpr hno
    obtain ⟨M⟩ := exists_straightMachine hstates hkeys.separated.keptApart
    exact ⟨states, hstates, fun events ↦ M.machineRun_eq hkeys hno events M.home_place⟩

/-- Two keys in a row, and one on its own. -/
def wordsLayer : Layer where
  layerName := "words"
  basicRemappings := []
  sequenceRemappings :=
    [⟨.release, [.keyPress .a, .keyPress .b], [.pressKey .x]⟩,
     ⟨.release, [.keyPress .a, .keyRelease .a], [.pressKey .y]⟩,
     ⟨.capture, [.keyPress .c], [.pressKey .z]⟩]

theorem generateStates_matches_words :
    (generateStates (.first _) wordsLayer = .error .nullopt ↔ wordsLayer.Conflicts) ∧
      ∃ states, generateStates (.first _) wordsLayer = .ok states ∧
        ∀ events, machineRun (.first _) states homeStateIdx events =
          .ok (wordsLayer.matchKeys [] events) := by
  have hkeys : wordsLayer.KeysOnly := by
    refine ⟨?_, by decide⟩
    simp only [wordsLayer, List.forall_mem_cons, List.not_mem_nil, false_implies, implies_true,
      and_true]
    exact ⟨⟨[⟨.a, .press⟩, ⟨.b, .press⟩], rfl⟩, ⟨[⟨.a, .press⟩, ⟨.a, .release⟩], rfl⟩,
      ⟨[⟨.c, .press⟩], rfl⟩⟩
  obtain ⟨hrejected, hmatches⟩ := generateStates_matches (.first _) hkeys
  refine ⟨hrejected, hmatches fun hconflicts ↦ ?_⟩
  rw [← hrejected] at hconflicts
  cases hconflicts

end Keybinder

import Keybinder.ProfileFormat
import Keybinder.SequenceBinds

/-!
# Durations and deadlines

The numbers of a profile, as its JSON has them and as the parser stores
them, and the delays and deadlines that are computed from the stored ones.
The parser accepts every number; but only a whole number that fits a
`size_t` is stored as it is, and the sums wrap around.
-/

namespace Keybinder

/-! ## The numbers of a document -/

def numberAt (obj : JsonObject) (key : String) : List ℚ :=
  ((obj.lookup key).bind Json.toDouble?).toList

def elementsAt (obj : JsonObject) (key : String) : JsonArray :=
  ((obj.lookup key).bind Json.toArray?).getD []

/-- The type of an object that stands in an array. -/
def typeOf (obj : JsonObject) : Option String := (obj.lookup "type").bind Json.toString?

def bindNumbers (bind : Json) : List ℚ :=
  bind.toObject?.toList.flatMap fun obj ↦
    if typeOf obj = some "switch_layer" then numberAt obj "value"
    else if typeOf obj = some "wait" then numberAt obj "duration"
    else []

def triggerNumbers (trigger : Json) : List ℚ :=
  trigger.toObject?.toList.flatMap fun obj ↦
    if typeOf obj = some "minimum_wait" then numberAt obj "duration"
    else if typeOf obj = some "maximum_wait" then numberAt obj "duration"
    else []

def remappingNumbers (remapping : Json) : List ℚ :=
  remapping.toObject?.toList.flatMap fun obj ↦
    if (obj.lookup "triggers").isSome then
      (elementsAt obj "triggers").flatMap triggerNumbers ++
        (elementsAt obj "binds").flatMap bindNumbers
    else if (obj.lookup "trigger").isSome then (elementsAt obj "binds").flatMap bindNumbers
    else []

def layerNumbers (layer : Json) : List ℚ :=
  layer.toObject?.toList.flatMap fun obj ↦ (elementsAt obj "remappings").flatMap remappingNumbers

/-- The durations and the layer numbers of a profile. -/
def profileNumbers (obj : JsonObject) : List ℚ :=
  numberAt obj "default_layer" ++ (elementsAt obj "layers").flatMap layerNumbers

/-! ## The sizes of a profile -/

def Bind.sizes : Bind → List ℕ
  | .swapLayer newLayer => [newLayer]
  | .wait ms => [ms]
  | _ => []

def AdvancedTrigger.sizes : AdvancedTrigger → List ℕ
  | .minimumWait ms => [ms]
  | .maximumWait ms => [ms]
  | _ => []

def SequenceTrigger.sizes (s : SequenceTrigger) : List ℕ :=
  s.sequence.flatMap AdvancedTrigger.sizes ++ s.binds.flatMap Bind.sizes

def basicSizes (remapping : BasicTrigger × List Bind) : List ℕ := remapping.2.flatMap Bind.sizes

def Layer.sizes (layer : Layer) : List ℕ :=
  layer.basicRemappings.flatMap basicSizes ++
    layer.sequenceRemappings.flatMap SequenceTrigger.sizes

def Profile.sizes (p : Profile) : List ℕ := p.defaultLayer :: p.layers.flatMap Layer.sizes

/-! ## What is stored for a number -/

section Parse

variable {wild : ℚ → ℕ} {obj : JsonObject} {key : String}

theorem getPropertyAs_eq_ok {α : Type} {kind : String} {as? : Json → Option α} {a : α}
    (h : getPropertyAs kind as? obj key = .ok a) : (obj.lookup key).bind as? = some a := by
  rw [getPropertyAs] at h
  cases hlookup : obj.lookup key with
  | none => simp [hlookup] at h
  | some value =>
      simp only [hlookup] at h
      cases hvalue : as? value with
      | none => simp [hvalue] at h
      | some a' =>
          simp only [hvalue, Except.ok.injEq] at h
          rw [← h]
          exact hvalue

theorem numberAt_of_ok {x : ℚ} (h : getPropertyAsNumber obj key = .ok x) :
    numberAt obj key = [x] := by
  simp [numberAt, getPropertyAs_eq_ok h]

theorem elementsAt_of_ok {elements : JsonArray} (h : getPropertyAsArray obj key = .ok elements) :
    elementsAt obj key = elements := by
  simp [elementsAt, getPropertyAs_eq_ok h]

theorem typeOf_of_ok {type : String} (h : getPropertyAsString obj "type" = .ok type) :
    typeOf obj = some type := getPropertyAs_eq_ok h

theorem toObject_of_ok {value : Json} (h : getValueAsObject value = .ok obj) :
    value.toObject? = some obj := by
  cases value <;> cases h
  rfl

theorem size_of_sizeFromJson {n : ℕ} (h : sizeFromJson key wild obj = .ok n) :
    [n] = (numberAt obj key).map (castSize wild) := by
  obtain ⟨x, hx, h⟩ := Exits.bind_eq_ok.mp h
  cases h
  simp [numberAt_of_ok hx]

/-- The elements of an array, each with its own numbers. -/
theorem sizes_of_mapM {α : Type} {parse : Json → Except String α} {sizes : α → List ℕ}
    {numbers : Json → List ℚ}
    (hone : ∀ {element a}, parse element = .ok a →
      (sizes a).Perm ((numbers element).map (castSize wild)))
    {elements : JsonArray} {as : List α} (h : elements.mapM parse = .ok as) :
    (as.flatMap sizes).Perm ((elements.flatMap numbers).map (castSize wild)) := by
  have hrel := Exits.forall₂_of_mapM h
  clear h
  induction hrel with
  | nil => simp
  | cons hab _ ih =>
      simp only [List.flatMap_cons, List.map_append]
      exact (hone hab).append ih

/-- What a bind is parsed from: an object of its type, with its number. -/
theorem parseBind_cases {bind : Json} {b : Bind} (h : parseBind wild bind = .ok b) :
    ∃ obj type, bind.toObject? = some obj ∧ typeOf obj = some type ∧
      ((type = "press_key" ∧ ∃ keyCode, b = .pressKey keyCode) ∨
        (type = "release_key" ∧ ∃ keyCode, b = .releaseKey keyCode) ∨
        (type = "switch_layer" ∧ ∃ newLayer, b = .swapLayer newLayer ∧
          sizeFromJson "value" wild obj = .ok newLayer) ∨
        (type = "wait" ∧ ∃ ms, b = .wait ms ∧ sizeFromJson "duration" wild obj = .ok ms) ∨
        (type = "run_script" ∧ ∃ s, b = .runScript s)) := by
  obtain ⟨obj, hobj, h⟩ := Exits.bind_eq_ok.mp h
  obtain ⟨type, htype, h⟩ := Exits.bind_eq_ok.mp h
  refine ⟨obj, type, toObject_of_ok hobj, typeOf_of_ok htype, ?_⟩
  split at h
  · obtain ⟨keyCode, -, h⟩ := Exits.bind_eq_ok.mp h
    cases h
    exact .inl ⟨‹_›, keyCode, rfl⟩
  · split at h
    · obtain ⟨keyCode, -, h⟩ := Exits.bind_eq_ok.mp h
      cases h
      exact .inr (.inl ⟨‹_›, keyCode, rfl⟩)
    · split at h
      · obtain ⟨newLayer, hsize, h⟩ := Exits.bind_eq_ok.mp h
        cases h
        exact .inr (.inr (.inl ⟨‹_›, newLayer, rfl, hsize⟩))
      · split at h
        · obtain ⟨ms, hsize, h⟩ := Exits.bind_eq_ok.mp h
          cases h
          exact .inr (.inr (.inr (.inl ⟨‹_›, ms, rfl, hsize⟩)))
        · split at h
          · obtain ⟨s, -, h⟩ := Exits.bind_eq_ok.mp h
            cases h
            exact .inr (.inr (.inr (.inr ⟨‹_›, s, rfl⟩)))
          · cases h

/-- What a trigger of a sequence is parsed from. -/
theorem parseAdvancedTrigger_cases {trigger : AdvancedTrigger}
    (h : parseAdvancedTrigger wild obj = .ok trigger) :
    ∃ type, typeOf obj = some type ∧
      ((type = "key_press" ∧ ∃ keyCode, trigger = .keyPress keyCode) ∨
        (type = "key_release" ∧ ∃ keyCode, trigger = .keyRelease keyCode) ∨
        (type = "minimum_wait" ∧ ∃ ms, trigger = .minimumWait ms ∧
          sizeFromJson "duration" wild obj = .ok ms) ∨
        (type = "maximum_wait" ∧ ∃ ms, trigger = .maximumWait ms ∧
          sizeFromJson "duration" wild obj = .ok ms) ∨
        (type = "app_focused" ∧ ∃ appName, trigger = .appFocused appName)) := by
  obtain ⟨type, htype, h⟩ := Exits.bind_eq_ok.mp h
  refine ⟨type, typeOf_of_ok htype, ?_⟩
  split at h
  · obtain ⟨keyCode, -, h⟩ := Exits.bind_eq_ok.mp h
    cases h
    exact .inl ⟨‹_›, keyCode, rfl⟩
  · split at h
    · obtain ⟨keyCode, -, h⟩ := Exits.bind_eq_ok.mp h
      cases h
      exact .inr (.inl ⟨‹_›, keyCode, rfl⟩)
    · split at h
      · obtain ⟨ms, hsize, h⟩ := Exits.bind_eq_ok.mp h
        cases h
        exact .inr (.inr (.inl ⟨‹_›, ms, rfl, hsize⟩))
      · split at h
        · obtain ⟨ms, hsize, h⟩ := Exits.bind_eq_ok.mp h
          cases h
          exact .inr (.inr (.inr (.inl ⟨‹_›, ms, rfl, hsize⟩)))
        · split at h
          · obtain ⟨appName, -, h⟩ := Exits.bind_eq_ok.mp h
            cases h
            exact .inr (.inr (.inr (.inr ⟨‹_›, appName, rfl⟩)))
          · cases h

theorem sizes_of_parseBind {bind : Json} {b : Bind} (h : parseBind wild bind = .ok b) :
    b.sizes = (bindNumbers bind).map (castSize wild) := by
  obtain ⟨obj, type, hobj, htype, hcase⟩ := parseBind_cases h
  rcases hcase with ⟨rfl, keyCode, rfl⟩ | ⟨rfl, keyCode, rfl⟩ | ⟨rfl, newLayer, rfl, hsize⟩ |
    ⟨rfl, ms, rfl, hsize⟩ | ⟨rfl, s, rfl⟩
  · simp [Bind.sizes, bindNumbers, hobj, htype]
  · simp [Bind.sizes, bindNumbers, hobj, htype]
  · simpa [Bind.sizes, bindNumbers, hobj, htype] using size_of_sizeFromJson hsize
  · simpa [Bind.sizes, bindNumbers, hobj, htype] using size_of_sizeFromJson hsize
  · simp [Bind.sizes, bindNumbers, hobj, htype]

theorem sizes_of_parseAdvancedTrigger {trigger : AdvancedTrigger}
    (h : parseAdvancedTrigger wild obj = .ok trigger) :
    trigger.sizes = (triggerNumbers (.object obj)).map (castSize wild) := by
  obtain ⟨type, htype, hcase⟩ := parseAdvancedTrigger_cases h
  have hobj : Json.toObject? (.object obj) = some obj := rfl
  rcases hcase with ⟨rfl, keyCode, rfl⟩ | ⟨rfl, keyCode, rfl⟩ | ⟨rfl, ms, rfl, hsize⟩ |
    ⟨rfl, ms, rfl, hsize⟩ | ⟨rfl, appName, rfl⟩
  · simp [AdvancedTrigger.sizes, triggerNumbers, hobj, htype]
  · simp [AdvancedTrigger.sizes, triggerNumbers, hobj, htype]
  · simpa [AdvancedTrigger.sizes, triggerNumbers, hobj, htype] using size_of_sizeFromJson hsize
  · simpa [AdvancedTrigger.sizes, triggerNumbers, hobj, htype] using size_of_sizeFromJson hsize
  · simp [AdvancedTrigger.sizes, triggerNumbers, hobj, htype]

theorem sizes_of_parseBinds {binds : List Bind}
    {elements : JsonArray} (h : parseBinds wild elements = .ok binds) :
    (binds.flatMap Bind.sizes).Perm ((elements.flatMap bindNumbers).map (castSize wild)) :=
  sizes_of_mapM (fun hbind ↦ .of_eq (sizes_of_parseBind hbind)) h

theorem sizes_of_parseBasicRemapping {remapping : BasicTrigger × List Bind}
    (h : parseBasicRemapping wild obj = .ok remapping) :
    (basicSizes remapping).Perm
      (((elementsAt obj "binds").flatMap bindNumbers).map (castSize wild)) := by
  obtain ⟨triggerObj, -, h⟩ := Exits.bind_eq_ok.mp h
  obtain ⟨trigger, -, h⟩ := Exits.bind_eq_ok.mp h
  obtain ⟨elements, helements, h⟩ := Exits.bind_eq_ok.mp h
  obtain ⟨binds, hbinds, h⟩ := Exits.bind_eq_ok.mp h
  cases h
  rw [elementsAt_of_ok helements]
  exact sizes_of_parseBinds hbinds

theorem sizes_of_triggerElement {element : Json} {trigger : AdvancedTrigger}
    (h : (getValueAsObject element >>= parseAdvancedTrigger wild) = .ok trigger) :
    trigger.sizes = (triggerNumbers element).map (castSize wild) := by
  obtain ⟨obj, hobj, h⟩ := Exits.bind_eq_ok.mp h
  cases element <;> cases hobj
  exact sizes_of_parseAdvancedTrigger h

theorem sizes_of_sequence {s : SequenceTrigger} (h : SequenceTrigger.fromJson wild obj = .ok s) :
    s.sizes.Perm (((elementsAt obj "triggers").flatMap triggerNumbers ++
      (elementsAt obj "binds").flatMap bindNumbers).map (castSize wild)) := by
  obtain ⟨triggerElements, htriggerElements, h⟩ := Exits.bind_eq_ok.mp h
  obtain ⟨triggers, htriggers, h⟩ := Exits.bind_eq_ok.mp h
  obtain ⟨elements, helements, h⟩ := Exits.bind_eq_ok.mp h
  obtain ⟨binds, hbinds, h⟩ := Exits.bind_eq_ok.mp h
  obtain ⟨str, -, h⟩ := Exits.bind_eq_ok.mp h
  obtain ⟨behavior, -, h⟩ := Exits.bind_eq_ok.mp h
  cases h
  have hsequence := sizes_of_mapM (fun htrigger ↦ .of_eq (sizes_of_triggerElement htrigger))
    htriggers
  rw [elementsAt_of_ok htriggerElements, elementsAt_of_ok helements, List.map_append]
  exact hsequence.append (sizes_of_parseBinds hbinds)

/-- The sizes of the remappings read so far. -/
def readSizes (r : List (BasicTrigger × List Bind) × List SequenceTrigger) : List ℕ :=
  r.1.flatMap basicSizes ++ r.2.flatMap SequenceTrigger.sizes

theorem sizes_of_readRemapping {r r' : List (BasicTrigger × List Bind) × List SequenceTrigger}
    {remapping : Json} (h : Layer.readRemapping wild r remapping = .ok r') :
    (readSizes r').Perm (readSizes r ++ (remappingNumbers remapping).map (castSize wild)) := by
  obtain ⟨basicRemappings, sequenceRemappings⟩ := r
  obtain ⟨obj, hobj, h⟩ := Exits.bind_eq_ok.mp h
  have hnumbers : remappingNumbers remapping = if (obj.lookup "triggers").isSome then
      (elementsAt obj "triggers").flatMap triggerNumbers ++
        (elementsAt obj "binds").flatMap bindNumbers
      else if (obj.lookup "trigger").isSome then (elementsAt obj "binds").flatMap bindNumbers
      else [] := by
    simp [remappingNumbers, toObject_of_ok hobj]
  rw [hnumbers]
  split at h
  · rename_i htriggers
    obtain ⟨s, hs, h⟩ := Exits.bind_eq_ok.mp h
    cases h
    rw [if_pos htriggers]
    simp only [readSizes, List.flatMap_append, List.flatMap_singleton, ← List.append_assoc]
    exact (sizes_of_sequence hs).append_left _
  · rename_i htriggers
    rw [if_neg htriggers]
    split at h
    · rename_i htrigger
      obtain ⟨remapping', hremapping, h⟩ := Exits.bind_eq_ok.mp h
      cases h
      rw [if_pos htrigger]
      simp only [readSizes, List.flatMap_append, List.flatMap_singleton, List.append_assoc]
      refine List.Perm.append_left _ (List.perm_append_comm.trans ?_)
      exact (sizes_of_parseBasicRemapping hremapping).append_left _
    · rename_i htrigger
      cases h
      simp [htrigger]

theorem sizes_of_readRemappings {r r' : List (BasicTrigger × List Bind) × List SequenceTrigger}
    {elements : JsonArray} (h : elements.foldlM (Layer.readRemapping wild) r = .ok r') :
    (readSizes r').Perm
      (readSizes r ++ (elements.flatMap remappingNumbers).map (castSize wild)) := by
  induction elements generalizing r with
  | nil =>
      cases h
      simp
  | cons element elements ih =>
      obtain ⟨r₁, hr₁, hrest⟩ := Exits.foldlM_cons_eq_ok.mp h
      have hperm := (ih hrest).trans ((sizes_of_readRemapping hr₁).append_right _)
      simpa using hperm

theorem sizes_of_layer {layer : Layer} {element : Json}
    (h : (getValueAsObject element >>= Layer.fromJson wild) = .ok layer) :
    layer.sizes.Perm ((layerNumbers element).map (castSize wild)) := by
  obtain ⟨obj, hobj, h⟩ := Exits.bind_eq_ok.mp h
  obtain ⟨layerName, -, h⟩ := Exits.bind_eq_ok.mp h
  obtain ⟨elements, helements, h⟩ := Exits.bind_eq_ok.mp h
  obtain ⟨r, hfold, h⟩ := Exits.bind_eq_ok.mp h
  cases h
  have hsizes := sizes_of_readRemappings hfold
  simpa [layerNumbers, toObject_of_ok hobj, elementsAt_of_ok helements, readSizes, Layer.sizes]
    using hsizes

/-- The sizes of a parsed profile are the numbers of its document, each
converted to a `size_t`. -/
theorem sizes_of_parse {p : Profile} (h : Profile.parse wild obj = .ok p) :
    p.sizes.Perm ((profileNumbers obj).map (castSize wild)) := by
  obtain ⟨profileName, -, h⟩ := Exits.bind_eq_ok.mp h
  obtain ⟨x, hx, h⟩ := Exits.bind_eq_ok.mp h
  obtain ⟨elements, helements, h⟩ := Exits.bind_eq_ok.mp h
  obtain ⟨layers, hlayers, h⟩ := Exits.bind_eq_ok.mp h
  cases h
  rw [profileNumbers, numberAt_of_ok hx, elementsAt_of_ok helements, List.map_append]
  exact (sizes_of_mapM sizes_of_layer hlayers).cons _

end Parse

/-! ## Delays and deadlines -/

section Delays

variable {env : Env} {m m' : Mapper} {delayMs delayMs' : ℕ}

/-- The delay after a list of binds. -/
def delayOf (delayMs : ℕ) (binds : List Bind) : ℕ := binds.foldl (fun d b ↦ b.delayAfter d) delayMs

theorem delay_of_queueBind {b : Bind} (h : Mapper.queueBind env (m, delayMs) b = .ok (m', delayMs')) :
    delayMs' = b.delayAfter delayMs := by
  cases b with
  | swapLayer newLayer =>
      obtain ⟨m₁, -, h⟩ := Exits.bind_eq_ok.mp h
      cases h
      rfl
  | pressKey keyCode =>
      cases h
      rfl
  | releaseKey keyCode =>
      cases h
      rfl
  | wait ms =>
      cases h
      rfl
  | runScript s =>
      cases h
      rfl

theorem delay_of_foldlM {binds : List Bind}
    (h : binds.foldlM (Mapper.queueBind env) (m, delayMs) = .ok (m', delayMs')) :
    delayMs' = delayOf delayMs binds := by
  induction binds generalizing m delayMs with
  | nil =>
      cases h
      rfl
  | cons b binds ih =>
      obtain ⟨⟨m₁, delayMs₁⟩, hb, hrest⟩ := Exits.foldlM_cons_eq_ok.mp h
      rw [ih hrest, delay_of_queueBind hb]
      rfl

/-- Without a callback every list of binds is executed. -/
theorem exists_foldlM (env : Env) (hcallback : m.layerChangedCallback = false) (delayMs : ℕ)
    (binds : List Bind) : ∃ m', m'.layerChangedCallback = false ∧
      binds.foldlM (Mapper.queueBind env) (m, delayMs) = .ok (m', delayOf delayMs binds) := by
  induction binds generalizing m delayMs with
  | nil => exact ⟨m, hcallback, rfl⟩
  | cons b binds ih =>
      obtain ⟨m₁, hm₁, hb⟩ : ∃ m₁ : Mapper, m₁.layerChangedCallback = false ∧
          Mapper.queueBind env (m, delayMs) b = .ok (m₁, b.delayAfter delayMs) := by
        cases b with
        | swapLayer newLayer =>
            refine ⟨{ m with
              curLayerIdx := newLayer
              curStateIdx := homeStateIdx
              currentTimer := none
              history := m.history ++ [.layerSet newLayer] }, hcallback, ?_⟩
            simp [Mapper.queueBind, Mapper.setLayerInner, hcallback, Bind.delayAfter]
        | pressKey keyCode => exact ⟨m.queueOutput env _ delayMs, hcallback, rfl⟩
        | releaseKey keyCode => exact ⟨m.queueOutput env _ delayMs, hcallback, rfl⟩
        | wait ms => exact ⟨m, hcallback, rfl⟩
        | runScript s => exact ⟨m.queueOutput env _ delayMs, hcallback, rfl⟩
      obtain ⟨m', hm', hrest⟩ := ih hm₁ (b.delayAfter delayMs)
      exact ⟨m', hm', Exits.foldlM_cons_eq_ok.mpr ⟨_, hb, hrest⟩⟩

theorem delayAfter_lt (b : Bind) (h : delayMs < uint64Size) : b.delayAfter delayMs < uint64Size := by
  cases b with
  | wait ms => exact Nat.mod_lt _ (by decide)
  | pressKey keyCode => exact h
  | releaseKey keyCode => exact h
  | swapLayer newLayer => exact h
  | runScript s => exact h

theorem delayOf_eq (h : delayMs < uint64Size) (binds : List Bind) :
    delayOf delayMs binds = (delayMs + totalDelay binds) % uint64Size := by
  induction binds generalizing delayMs with
  | nil => exact (Nat.mod_eq_of_lt h).symm
  | cons b binds ih =>
      have htotal : totalDelay (b :: binds) = b.delay + totalDelay binds := by simp [totalDelay]
      have hcons : delayOf delayMs (b :: binds) = delayOf (b.delayAfter delayMs) binds := rfl
      rw [hcons, ih (delayAfter_lt b h), htotal, ← Nat.add_assoc]
      exact (delayAfter_mod b delayMs).add_right _

theorem delayOf_zero (binds : List Bind) : delayOf 0 binds = totalDelay binds % uint64Size := by
  rw [delayOf_eq (by decide), Nat.zero_add]

theorem addU64_eq_iff {a b : ℕ} : addU64 a b = a + b ↔ a + b < uint64Size :=
  Nat.mod_eq_iff_lt (by decide)

theorem totalDelay_le_of_append (before after : List Bind) :
    totalDelay before ≤ totalDelay (before ++ after) := by
  simp [totalDelay]

end Delays

/-! ## Exactness -/

def Profile.bindLists (p : Profile) : List (List Bind) :=
  p.layers.flatMap fun layer ↦
    layer.basicRemappings.map Prod.snd ++ layer.sequenceRemappings.map SequenceTrigger.binds

/-- The durations of the waits in the sequences of a profile. -/
def Profile.waits (p : Profile) : List ℕ :=
  p.layers.flatMap fun layer ↦
    layer.sequenceRemappings.flatMap fun s ↦ s.sequence.flatMap AdvancedTrigger.sizes

/-- Every number of the document is stored as it is, and every delay and
deadline computed when the clock reads `now` is the sum that it should be. -/
structure DurationsExact (obj : JsonObject) (p : Profile) (now : ℕ) : Prop where
  stored : ∃ sizes : List ℕ, sizes.Perm p.sizes ∧
    List.Forall₂ (fun (x : ℚ) (n : ℕ) ↦ 0 ≤ x ∧ x < uint64Size ∧ (n : ℚ) = x)
      (profileNumbers obj) sizes
  delays : ∀ binds ∈ p.bindLists, ∀ before after, binds = before ++ after →
    ∀ (env : Env) (m m' : Mapper) (delayMs : ℕ),
      before.foldlM (Mapper.queueBind env) (m, 0) = .ok (m', delayMs) →
      delayMs = totalDelay before
  emits : ∀ binds ∈ p.bindLists, ∀ before b after, binds = before ++ b :: after →
    ∀ (env : Env) (m₀ m m' : Mapper) (delayMs delayMs' : ℕ),
      before.foldlM (Mapper.queueBind env) (m₀, 0) = .ok (m, delayMs) →
      env.clock m.instant = now → Mapper.queueBind env (m, delayMs) b = .ok (m', delayMs') →
      ∀ e ∈ b.output, m'.queuedEvents = m.queuedEvents ++ [(now + totalDelay before, e)]
  timers : ∀ ms ∈ p.waits, ∀ (env : Env) (m : Mapper) (transition : Transition)
    (prevEvent : Option InputEvent), transition.timerMs = some ms → env.clock m.instant = now →
      (m.enter env transition prevEvent).currentTimer = some (ms + now)

/-- The numbers are whole and fit a `size_t`, and so do the waits of a list
of binds together, the times of its outputs and the deadlines of the waits
of a sequence. -/
structure DurationsFit (obj : JsonObject) (p : Profile) (now : ℕ) : Prop where
  whole : ∀ x ∈ profileNumbers obj, ∃ n : ℕ, n < uint64Size ∧ x = n
  delays : ∀ binds ∈ p.bindLists, totalDelay binds < uint64Size
  emits : ∀ binds ∈ p.bindLists, ∀ before b after, binds = before ++ b :: after →
    b.output.isSome = true → now + totalDelay before < uint64Size
  timers : ∀ ms ∈ p.waits, ms + now < uint64Size

section Exact

variable {wild : ℚ → ℕ} {obj : JsonObject} {p : Profile} {now : ℕ}

theorem whole_of_stored {x : ℚ} {n : ℕ} (h : 0 ≤ x ∧ x < uint64Size ∧ (n : ℚ) = x) :
    ∃ n : ℕ, n < uint64Size ∧ x = n := by
  obtain ⟨-, hlt, rfl⟩ := h
  exact ⟨n, by exact_mod_cast hlt, rfl⟩

/-- A clock that reads the same time throughout. -/
def Env.constant (now : ℕ) (h : now < uint64Size) : Env where
  clock _ := now
  clock_mono := fun _ _ _ ↦ Nat.le_refl _
  clock_lt _ := h
  logKeyFrequency _ := false
  unassigned _ := 0

/-- A mapper of the profile that has nothing to do. -/
def Profile.idle (p : Profile) : Mapper := { profile := p, layerChangedCallback := false }

namespace DurationsExact

theorem whole (h : DurationsExact obj p now) :
    ∀ x ∈ profileNumbers obj, ∃ n : ℕ, n < uint64Size ∧ x = n := by
  intro x hx
  obtain ⟨sizes, -, hrel⟩ := h.stored
  clear h
  generalize profileNumbers obj = numbers at hx hrel
  induction hrel with
  | nil => simp at hx
  | cons hn _ ih =>
      rcases List.mem_cons.mp hx with rfl | hx
      · exact whole_of_stored hn
      · exact ih hx

theorem delays_lt (hnow : now < uint64Size) (h : DurationsExact obj p now) {binds : List Bind}
    (hbinds : binds ∈ p.bindLists) : totalDelay binds < uint64Size := by
  obtain ⟨m', -, hfold⟩ := exists_foldlM (m := p.idle) (.constant now hnow) rfl 0 binds
  have hdelay := h.delays binds hbinds binds [] (by simp) _ _ m' _ hfold
  rw [delayOf_zero] at hdelay
  rw [← hdelay]
  exact Nat.mod_lt _ (by decide)

theorem emits_lt (hnow : now < uint64Size) (h : DurationsExact obj p now)
    {before after : List Bind} {b : Bind} (hbinds : before ++ b :: after ∈ p.bindLists)
    (houtput : b.output.isSome = true) : now + totalDelay before < uint64Size := by
  obtain ⟨e, he⟩ := Option.isSome_iff_exists.mp houtput
  obtain ⟨m₁, hm₁, hfold⟩ := exists_foldlM (m := p.idle) (.constant now hnow) rfl 0 before
  obtain ⟨m₂, -, hlast⟩ := exists_foldlM (.constant now hnow) hm₁ (delayOf 0 before) [b]
  obtain ⟨⟨m₃, delayMs⟩, hb, -⟩ := Exits.foldlM_cons_eq_ok.mp hlast
  have hqueue := h.emits _ hbinds before b after rfl _ _ m₁ m₃ _ _ hfold rfl hb e he
  rw [h.delays _ hbinds before (b :: after) rfl _ _ m₁ _ hfold] at hb
  rcases Mapper.queueBind_cases hb with ⟨e', he', -, rfl, -⟩ | ⟨hnone, -⟩
  · have htime : addU64 now (totalDelay before) = now + totalDelay before := by
      simpa [Mapper.queueOutput, Env.constant] using congrArg (List.map Prod.fst) hqueue
    exact addU64_eq_iff.mp htime
  · rw [he] at hnone
    cases hnone

theorem timers_lt (hnow : now < uint64Size) (h : DurationsExact obj p now) {ms : ℕ}
    (hms : ms ∈ p.waits) : ms + now < uint64Size := by
  have htimer := h.timers ms hms (.constant now hnow) p.idle { timerMs := some ms } none rfl rfl
  have hadd : addU64 ms now = ms + now := by simpa [Mapper.enter, Env.constant] using htimer
  exact addU64_eq_iff.mp hadd

theorem fit (hnow : now < uint64Size) (h : DurationsExact obj p now) :
    DurationsFit obj p now where
  whole := h.whole
  delays _ hbinds := h.delays_lt hnow hbinds
  emits := by
    rintro _ hbinds before b after rfl houtput
    exact h.emits_lt hnow hbinds houtput
  timers _ hms := h.timers_lt hnow hms

end DurationsExact

namespace DurationsFit

theorem stored (h : Profile.parse wild obj = .ok p) (hfit : DurationsFit obj p now) :
    ∃ sizes : List ℕ, sizes.Perm p.sizes ∧
      List.Forall₂ (fun (x : ℚ) (n : ℕ) ↦ 0 ≤ x ∧ x < uint64Size ∧ (n : ℚ) = x)
        (profileNumbers obj) sizes := by
  refine ⟨_, (sizes_of_parse h).symm, ?_⟩
  apply List.forall₂_map_right_iff.mpr
  apply List.forall₂_same.mpr
  intro x hx
  obtain ⟨n, hn, rfl⟩ := hfit.whole x hx
  rw [castSize_natCast wild hn]
  exact ⟨Nat.cast_nonneg n, by exact_mod_cast hn, rfl⟩

theorem delayMs_eq (hfit : DurationsFit obj p now) {before after : List Bind}
    (hbinds : before ++ after ∈ p.bindLists) {env : Env} {m m' : Mapper} {delayMs : ℕ}
    (hfold : before.foldlM (Mapper.queueBind env) (m, 0) = .ok (m', delayMs)) :
    delayMs = totalDelay before := by
  have hle := totalDelay_le_of_append before after
  have htotal := hfit.delays _ hbinds
  rw [delay_of_foldlM hfold, delayOf_zero, Nat.mod_eq_of_lt (by omega)]

theorem queuedEvents_eq (hfit : DurationsFit obj p now) {before after : List Bind} {b : Bind}
    (hbinds : before ++ b :: after ∈ p.bindLists) {env : Env} {m m' : Mapper} {delayMs : ℕ}
    (hclock : env.clock m.instant = now)
    (hb : Mapper.queueBind env (m, totalDelay before) b = .ok (m', delayMs)) {e : OutputEvent}
    (he : b.output = some e) :
    m'.queuedEvents = m.queuedEvents ++ [(now + totalDelay before, e)] := by
  have hlt := hfit.emits _ hbinds before b after rfl (by simp [he])
  rcases Mapper.queueBind_cases hb with ⟨e', he', -, rfl, -⟩ | ⟨hnone, -⟩
  · rw [he, Option.some.injEq] at he'
    rw [Mapper.queueOutput, hclock, addU64_eq hlt, he']
  · rw [he] at hnone
    cases hnone

theorem durationsExact (h : Profile.parse wild obj = .ok p) (hfit : DurationsFit obj p now) :
    DurationsExact obj p now where
  stored := hfit.stored h
  delays := by
    rintro _ hbinds before after rfl env m m' delayMs hfold
    exact hfit.delayMs_eq hbinds hfold
  emits := by
    rintro _ hbinds before b after rfl env m₀ m m' delayMs delayMs' hfold hclock hb e he
    rw [hfit.delayMs_eq hbinds hfold] at hb
    exact hfit.queuedEvents_eq hbinds hclock hb he
  timers := by
    intro ms hms env m transition prevEvent htimer hclock
    simp [Mapper.enter, htimer, hclock, addU64_eq (hfit.timers ms hms)]

end DurationsFit

/-- The durations of an accepted profile are exact exactly when its numbers
are whole and fit, and no sum that is computed from them wraps around. -/
theorem durationsExact_iff (h : Profile.parse wild obj = .ok p) (hnow : now < 2 ^ 63) :
    DurationsExact obj p now ↔ DurationsFit obj p now :=
  ⟨fun hexact ↦ hexact.fit (Nat.lt_trans hnow (by decide)), fun hfit ↦ hfit.durationsExact h⟩

end Exact

/-- A profile with one bind, a wait of a negative duration. -/
def negativeWait : JsonObject :=
  [("profile_name", .string "Negative"), ("default_layer", .number 0),
    ("layers", .array [.object [("layer_name", .string "Base"), ("remappings", .array [.object
      [("trigger", .object [("type", .string "key_press"), ("value", .string "A")]),
        ("binds", .array [.object [("type", .string "wait"), ("duration", .number (-5))]])]])]])]

theorem negativeWait_inexact : ∃ p, Profile.parse (fun _ ↦ 0) negativeWait = .ok p ∧
    ¬ DurationsExact negativeWait p 0 := by
  refine ⟨_, rfl, fun h ↦ ?_⟩
  obtain ⟨n, -, hn⟩ := (h.fit (by decide)).whole (-5) (by decide)
  have hnonneg : (0 : ℚ) ≤ n := Nat.cast_nonneg n
  linarith

theorem durationsExact_iff_small :
    DurationsExact smallObject smallProfile 1000 ↔ DurationsFit smallObject smallProfile 1000 :=
  durationsExact_iff (smallObject_spells.read fun _ ↦ 0) (by decide)

end Keybinder

import Keybinder.ReadProfile

/-!
# The format of profiles

Which JSON objects spell a profile: those that have the properties of the
format, in any order and among any others.  The parser reads each of them
back as the profile it spells.
-/

namespace Keybinder

/-- The object has a property of this name and value. -/
def HasProperty (obj : JsonObject) (key : String) (value : Json) : Prop :=
  obj.lookup key = some value

/-- The elements of an array are objects that spell the values of a list. -/
def SpellsAll {α : Type} (spells : α → JsonObject → Prop) (as : List α) (elements : JsonArray) :
    Prop :=
  List.Forall₂ (fun element a ↦ ∃ obj, element = .object obj ∧ spells a obj) elements as

/-! ## Triggers and binds -/

/-- An object of a type that names a key. -/
structure SpellsKey (type : String) (keyCode : KeyCode) (obj : JsonObject) : Prop where
  hasType : HasProperty obj "type" (.string type)
  hasValue : ∃ name, HasProperty obj "value" (.string name) ∧
    (name, keyCode) ∈ strToKeycode.forwardMap

/-- An object of a type that holds a number, which has to fit a `size_t`. -/
structure SpellsSize (type key : String) (n : ℕ) (obj : JsonObject) : Prop where
  hasType : HasProperty obj "type" (.string type)
  hasNumber : HasProperty obj key (.number n)
  lt : n < uint64Size

structure SpellsApp (appName : String) (obj : JsonObject) : Prop where
  hasType : HasProperty obj "type" (.string "app_focused")
  hasName : HasProperty obj "app_name" (.string appName)

structure SpellsScript (s : RunScript) (obj : JsonObject) : Prop where
  hasType : HasProperty obj "type" (.string "run_script")
  hasInterpreter : HasProperty obj "interpreter" (.string s.interpreter)
  hasScript : HasProperty obj "script" (.string s.script)

def BasicTrigger.Spells : BasicTrigger → JsonObject → Prop
  | .keyPress keyCode => SpellsKey "key_press" keyCode
  | .keyRelease keyCode => SpellsKey "key_release" keyCode
  | .appFocused appName => SpellsApp appName

def AdvancedTrigger.Spells : AdvancedTrigger → JsonObject → Prop
  | .keyPress keyCode => SpellsKey "key_press" keyCode
  | .keyRelease keyCode => SpellsKey "key_release" keyCode
  | .appFocused appName => SpellsApp appName
  | .minimumWait ms => SpellsSize "minimum_wait" "duration" ms
  | .maximumWait ms => SpellsSize "maximum_wait" "duration" ms

def Bind.Spells : Bind → JsonObject → Prop
  | .pressKey keyCode => SpellsKey "press_key" keyCode
  | .releaseKey keyCode => SpellsKey "release_key" keyCode
  | .swapLayer newLayer => SpellsSize "switch_layer" "value" newLayer
  | .wait ms => SpellsSize "wait" "duration" ms
  | .runScript s => SpellsScript s

def SequenceBehavior.name : SequenceBehavior → String
  | .capture => "capture"
  | .release => "release"
  | .default => "default"

/-! ## Remappings, layers and profiles -/

structure SpellsBasicRemapping (remapping : BasicTrigger × List Bind) (obj : JsonObject) :
    Prop where
  hasTrigger : ∃ trigger, HasProperty obj "trigger" (.object trigger) ∧
    remapping.1.Spells trigger
  hasBinds : ∃ binds, HasProperty obj "binds" (.array binds) ∧
    SpellsAll Bind.Spells remapping.2 binds
  noTriggers : obj.lookup "triggers" = none

structure SequenceTrigger.Spells (s : SequenceTrigger) (obj : JsonObject) : Prop where
  hasTriggers : ∃ triggers, HasProperty obj "triggers" (.array triggers) ∧
    SpellsAll AdvancedTrigger.Spells s.sequence triggers
  hasBinds : ∃ binds, HasProperty obj "binds" (.array binds) ∧ SpellsAll Bind.Spells s.binds binds
  hasBehavior : HasProperty obj "behavior" (.string s.behavior.name)

/-- The remappings of a layer stand in one array, those of either kind in
their order. -/
inductive SpellsRemappings :
    List (BasicTrigger × List Bind) → List SequenceTrigger → JsonArray → Prop
  | nil : SpellsRemappings [] [] []
  | basic {remapping obj basicRemappings sequenceRemappings elements}
      (h : SpellsBasicRemapping remapping obj)
      (hrest : SpellsRemappings basicRemappings sequenceRemappings elements) :
      SpellsRemappings (remapping :: basicRemappings) sequenceRemappings (.object obj :: elements)
  | sequence {s obj basicRemappings sequenceRemappings elements}
      (h : SequenceTrigger.Spells s obj)
      (hrest : SpellsRemappings basicRemappings sequenceRemappings elements) :
      SpellsRemappings basicRemappings (s :: sequenceRemappings) (.object obj :: elements)

structure Layer.Spells (layer : Layer) (obj : JsonObject) : Prop where
  hasName : HasProperty obj "layer_name" (.string layer.layerName)
  hasRemappings : ∃ remappings, HasProperty obj "remappings" (.array remappings) ∧
    SpellsRemappings layer.basicRemappings layer.sequenceRemappings remappings

structure Profile.Spells (p : Profile) (obj : JsonObject) : Prop where
  hasName : HasProperty obj "profile_name" (.string p.name)
  hasDefault : HasProperty obj "default_layer" (.number p.defaultLayer)
  lt : p.defaultLayer < uint64Size
  hasLayers : ∃ layers, HasProperty obj "layers" (.array layers) ∧
    SpellsAll Layer.Spells p.layers layers

/-! ## Reading back what is spelled -/

section Read

variable {obj : JsonObject} {key s : String} {n : ℕ} (wild : ℚ → ℕ)

theorem getPropertyAs_of_has {α : Type} {kind : String} {as? : Json → Option α} {value : Json}
    {a : α} (h : HasProperty obj key value) (hvalue : as? value = some a) :
    getPropertyAs kind as? obj key = .ok a := by
  rw [HasProperty] at h
  simp [getPropertyAs, h, hvalue]

theorem getPropertyAsString_of_has (h : HasProperty obj key (.string s)) :
    getPropertyAsString obj key = .ok s :=
  getPropertyAs_of_has h rfl

theorem getPropertyAsNumber_of_has (h : HasProperty obj key (.number n)) :
    getPropertyAsNumber obj key = .ok n :=
  getPropertyAs_of_has h rfl

theorem getPropertyAsObject_of_has {members : JsonObject}
    (h : HasProperty obj key (.object members)) : getPropertyAsObject obj key = .ok members :=
  getPropertyAs_of_has h rfl

theorem getPropertyAsArray_of_has {elements : JsonArray}
    (h : HasProperty obj key (.array elements)) : getPropertyAsArray obj key = .ok elements :=
  getPropertyAs_of_has h rfl

/-- A whole number that fits is converted to itself. -/
theorem castSize_natCast (h : n < uint64Size) : castSize wild n = n := by
  have hlow : (-1 : ℚ) < n := by
    have hnonneg : (0 : ℚ) ≤ n := Nat.cast_nonneg n
    linarith
  have hhigh : (n : ℚ) < uint64Size := by exact_mod_cast h
  simp [castSize, hlow, hhigh]

theorem mapM_of_spellsAll {α : Type} {spells : α → JsonObject → Prop}
    {parse : Json → Except String α} (hparse : ∀ {a obj}, spells a obj → parse (.object obj) = .ok a)
    {as : List α} {elements : JsonArray} (h : SpellsAll spells as elements) :
    elements.mapM parse = .ok as := by
  apply Exits.mapM_of_forall₂
  refine h.imp ?_
  rintro element a ⟨obj, rfl, hspells⟩
  exact hparse hspells

theorem SpellsKey.read {type : String} {keyCode : KeyCode} (h : SpellsKey type keyCode obj) :
    keyFromJson obj = .ok keyCode := by
  obtain ⟨name, hvalue, hname⟩ := h.hasValue
  have hfind : strToKeycode.findForward name = some keyCode := lookup_of_mem nodup_names hname
  rw [keyFromJson, getPropertyAsString_of_has hvalue, Exits.ok_bind, parseKey, hfind]

theorem SpellsSize.read {type : String} (h : SpellsSize type key n obj) :
    sizeFromJson key wild obj = .ok n := by
  rw [sizeFromJson, getPropertyAsNumber_of_has h.hasNumber, Exits.ok_bind,
    castSize_natCast wild h.lt, Exits.pure_eq_ok]

theorem SpellsApp.read {appName : String} (h : SpellsApp appName obj) :
    AppFocused.fromJson obj = .ok appName :=
  getPropertyAsString_of_has h.hasName

theorem SpellsScript.read {script : RunScript} (h : SpellsScript script obj) :
    RunScript.fromJson obj = .ok script := by
  rw [RunScript.fromJson, getPropertyAsString_of_has h.hasInterpreter, Exits.ok_bind,
    getPropertyAsString_of_has h.hasScript, Exits.ok_bind, Exits.pure_eq_ok]

theorem BasicTrigger.Spells.read {trigger : BasicTrigger} (h : trigger.Spells obj) :
    parseBasicTrigger obj = .ok trigger := by
  cases trigger with
  | keyPress keyCode =>
      have h : SpellsKey _ keyCode obj := h
      simp [parseBasicTrigger, getPropertyAsString_of_has h.hasType, KeyPress.fromJson, h.read]
  | keyRelease keyCode =>
      have h : SpellsKey _ keyCode obj := h
      simp [parseBasicTrigger, getPropertyAsString_of_has h.hasType, KeyRelease.fromJson, h.read]
  | appFocused appName =>
      have h : SpellsApp appName obj := h
      simp [parseBasicTrigger, getPropertyAsString_of_has h.hasType, h.read]

theorem AdvancedTrigger.Spells.read {trigger : AdvancedTrigger} (h : trigger.Spells obj) :
    parseAdvancedTrigger wild obj = .ok trigger := by
  cases trigger with
  | keyPress keyCode =>
      have h : SpellsKey _ keyCode obj := h
      simp [parseAdvancedTrigger, getPropertyAsString_of_has h.hasType, KeyPress.fromJson, h.read]
  | keyRelease keyCode =>
      have h : SpellsKey _ keyCode obj := h
      simp [parseAdvancedTrigger, getPropertyAsString_of_has h.hasType, KeyRelease.fromJson,
        h.read]
  | appFocused appName =>
      have h : SpellsApp appName obj := h
      simp [parseAdvancedTrigger, getPropertyAsString_of_has h.hasType, h.read]
  | minimumWait ms =>
      have h : SpellsSize _ _ ms obj := h
      simp [parseAdvancedTrigger, getPropertyAsString_of_has h.hasType, MinimumWait.fromJson,
        h.read wild]
  | maximumWait ms =>
      have h : SpellsSize _ _ ms obj := h
      simp [parseAdvancedTrigger, getPropertyAsString_of_has h.hasType, MaximumWait.fromJson,
        h.read wild]

theorem Bind.Spells.read {b : Bind} (h : b.Spells obj) : parseBind wild (.object obj) = .ok b := by
  have hobject : getValueAsObject (.object obj) = .ok obj := rfl
  cases b with
  | pressKey keyCode =>
      have h : SpellsKey _ keyCode obj := h
      simp [parseBind, hobject, getPropertyAsString_of_has h.hasType, PressKey.fromJson, h.read]
  | releaseKey keyCode =>
      have h : SpellsKey _ keyCode obj := h
      simp [parseBind, hobject, getPropertyAsString_of_has h.hasType, ReleaseKey.fromJson, h.read]
  | swapLayer newLayer =>
      have h : SpellsSize _ _ newLayer obj := h
      simp [parseBind, hobject, getPropertyAsString_of_has h.hasType, SwapLayer.fromJson,
        h.read wild]
  | wait ms =>
      have h : SpellsSize _ _ ms obj := h
      simp [parseBind, hobject, getPropertyAsString_of_has h.hasType, Wait.fromJson, h.read wild]
  | runScript script =>
      have h : SpellsScript script obj := h
      simp [parseBind, hobject, getPropertyAsString_of_has h.hasType, h.read]

theorem parseBinds_of_spells {binds : List Bind} {elements : JsonArray}
    (h : SpellsAll Bind.Spells binds elements) : parseBinds wild elements = .ok binds :=
  mapM_of_spellsAll (fun hspells ↦ Bind.Spells.read wild hspells) h

theorem SpellsBasicRemapping.read {remapping : BasicTrigger × List Bind}
    (h : SpellsBasicRemapping remapping obj) : parseBasicRemapping wild obj = .ok remapping := by
  obtain ⟨trigger, htrigger, hread⟩ := h.hasTrigger
  obtain ⟨binds, hbinds, hreadBinds⟩ := h.hasBinds
  simp [parseBasicRemapping, getPropertyAsObject_of_has htrigger, hread.read,
    getPropertyAsArray_of_has hbinds, parseBinds_of_spells wild hreadBinds]

theorem parseBehavior_name (behavior : SequenceBehavior) :
    parseBehavior behavior.name = .ok behavior := by
  cases behavior <;> rfl

theorem SequenceTrigger.Spells.read {s : SequenceTrigger} (h : s.Spells obj) :
    SequenceTrigger.fromJson wild obj = .ok s := by
  obtain ⟨triggers, htriggers, hread⟩ := h.hasTriggers
  obtain ⟨binds, hbinds, hreadBinds⟩ := h.hasBinds
  have hsequence : (triggers.mapM fun element ↦
      getValueAsObject element >>= parseAdvancedTrigger wild) = .ok s.sequence :=
    mapM_of_spellsAll (fun hspells ↦ AdvancedTrigger.Spells.read wild hspells) hread
  simp [SequenceTrigger.fromJson, getPropertyAsArray_of_has htriggers, hsequence,
    getPropertyAsArray_of_has hbinds, parseBinds_of_spells wild hreadBinds,
    getPropertyAsString_of_has h.hasBehavior, parseBehavior_name]

/-- The loop over the remappings sorts them into the two lists. -/
theorem SpellsRemappings.read {basicRemappings basicRemappings' : List (BasicTrigger × List Bind)}
    {sequenceRemappings sequenceRemappings' : List SequenceTrigger} {elements : JsonArray}
    (h : SpellsRemappings basicRemappings sequenceRemappings elements) :
    elements.foldlM (Layer.readRemapping wild) (basicRemappings', sequenceRemappings') =
      .ok (basicRemappings' ++ basicRemappings, sequenceRemappings' ++ sequenceRemappings) := by
  have hobject : ∀ obj, getValueAsObject (.object obj) = .ok obj := fun _ ↦ rfl
  induction h generalizing basicRemappings' sequenceRemappings' with
  | nil => simp
  | @basic remapping obj basicRemappings sequenceRemappings elements h _ ih =>
      obtain ⟨trigger, htrigger, -⟩ := h.hasTrigger
      rw [HasProperty] at htrigger
      have hstep : Layer.readRemapping wild (basicRemappings', sequenceRemappings')
          (.object obj) = .ok (basicRemappings' ++ [remapping], sequenceRemappings') := by
        simp [Layer.readRemapping, hobject, h.noTriggers, htrigger, h.read wild]
      rw [List.foldlM_cons, hstep, Exits.ok_bind, ih]
      simp
  | @sequence s obj basicRemappings sequenceRemappings elements h _ ih =>
      obtain ⟨triggers, htriggers, -⟩ := h.hasTriggers
      rw [HasProperty] at htriggers
      have hstep : Layer.readRemapping wild (basicRemappings', sequenceRemappings')
          (.object obj) = .ok (basicRemappings', sequenceRemappings' ++ [s]) := by
        simp [Layer.readRemapping, hobject, htriggers, h.read wild]
      rw [List.foldlM_cons, hstep, Exits.ok_bind, ih]
      simp

theorem Layer.Spells.read {layer : Layer} (h : layer.Spells obj) :
    Layer.fromJson wild obj = .ok layer := by
  obtain ⟨remappings, hremappings, hread⟩ := h.hasRemappings
  simp [Layer.fromJson, getPropertyAsString_of_has h.hasName,
    getPropertyAsArray_of_has hremappings, hread.read wild]

theorem Profile.Spells.read {p : Profile} (h : p.Spells obj) : Profile.parse wild obj = .ok p := by
  obtain ⟨layers, hlayers, hread⟩ := h.hasLayers
  have hlayers' : (layers.mapM fun element ↦ getValueAsObject element >>= Layer.fromJson wild) =
      .ok p.layers :=
    mapM_of_spellsAll (fun hspells ↦ Layer.Spells.read wild hspells) hread
  simp [Profile.parse, getPropertyAsString_of_has h.hasName,
    getPropertyAsNumber_of_has h.hasDefault, castSize_natCast wild h.lt,
    getPropertyAsArray_of_has hlayers, hlayers']

end Read

/-- Every object that spells a profile is parsed as that profile. -/
theorem fromJson_of_spells (wild : ℚ → ℕ) {p : Profile} {obj : JsonObject} (h : p.Spells obj)
    (latest : Option JsonObject) : Profile.fromJson wild obj latest = (.ok p, some obj) := by
  rw [Profile.fromJson, h.read wild]

/-- A basic remapping and a sequence. -/
def smallProfile : Profile where
  name := "Small"
  layers := [⟨"Base", [(.keyPress .a, [.pressKey .b])],
    [⟨.capture, [.keyPress .c, .minimumWait 200], [.swapLayer 2]⟩]⟩]
  defaultLayer := 1

def smallTriggers : JsonArray :=
  [.object [("type", .string "key_press"), ("value", .string "C")],
    .object [("type", .string "minimum_wait"), ("duration", .number (200 : ℕ))]]

def smallSwap : JsonArray := [.object [("value", .number (2 : ℕ)), ("type", .string "switch_layer")]]

def smallPress : JsonArray := [.object [("type", .string "press_key"), ("value", .string "B")]]

def smallSequence : JsonObject :=
  [("behavior", .string "capture"), ("binds", .array smallSwap), ("triggers", .array smallTriggers)]

def smallBasic : JsonObject :=
  [("trigger", .object [("type", .string "key_press"), ("value", .string "A")]),
    ("binds", .array smallPress)]

def smallLayer : JsonObject :=
  [("remappings", .array [.object smallSequence, .object smallBasic]),
    ("layer_name", .string "Base")]

/-- The sequence stands first, and some properties are not in the usual
order; there is also one that the format does not have. -/
def smallObject : JsonObject :=
  [("layers", .array [.object smallLayer]), ("default_layer", .number (1 : ℕ)),
    ("comment", .null), ("profile_name", .string "Small")]

theorem smallObject_spells : smallProfile.Spells smallObject := by
  have hsize : ∀ n ≤ 200, n < uint64Size := fun n hn ↦ Nat.lt_of_le_of_lt hn (by decide)
  have htriggers : SpellsAll AdvancedTrigger.Spells [.keyPress .c, .minimumWait 200]
      smallTriggers :=
    .cons ⟨_, rfl, rfl, "C", rfl, by decide⟩ (.cons ⟨_, rfl, rfl, rfl, hsize 200 (by decide)⟩ .nil)
  have hswap : SpellsAll Bind.Spells [.swapLayer 2] smallSwap :=
    .cons ⟨_, rfl, rfl, rfl, hsize 2 (by decide)⟩ .nil
  have hpress : SpellsAll Bind.Spells [.pressKey .b] smallPress :=
    .cons ⟨_, rfl, rfl, "B", rfl, by decide⟩ .nil
  have hbasic : SpellsBasicRemapping (.keyPress .a, [.pressKey .b]) smallBasic :=
    ⟨⟨_, rfl, rfl, "A", rfl, by decide⟩, ⟨_, rfl, hpress⟩, rfl⟩
  have hsequence : SequenceTrigger.Spells
      ⟨.capture, [.keyPress .c, .minimumWait 200], [.swapLayer 2]⟩ smallSequence :=
    ⟨⟨_, rfl, htriggers⟩, ⟨_, rfl, hswap⟩, rfl⟩
  have hlayer : ∀ layer ∈ smallProfile.layers, layer.Spells smallLayer := by
    intro layer hmem
    obtain rfl := List.mem_singleton.mp hmem
    exact ⟨rfl, _, rfl, .sequence hsequence (.basic hbasic .nil)⟩
  exact ⟨rfl, rfl, hsize 1 (by decide), _, rfl,
    .cons ⟨_, rfl, hlayer _ (by simp [smallProfile])⟩ .nil⟩

theorem fromJson_of_spells_small : Profile.fromJson (fun _ ↦ 0) smallObject none =
    (.ok smallProfile, some smallObject) :=
  fromJson_of_spells _ smallObject_spells none

end Keybinder

import Mathlib.Algebra.Order.Floor.Defs
import Mathlib.Data.Rat.Floor
import Keybinder.KeyNames
import Keybinder.Library.Exits
import Keybinder.Profile

/-!
# Reading profiles

The JSON documents that profiles are read from, and the parser.  It throws
the text of a `std::invalid_argument`.  A number is the value of its double;
converting one to a `size_t` when its integral part is not one is undefined,
and `wild` is what it then gives.
-/

namespace Keybinder

inductive Json where
  | null
  | bool (b : Bool)
  | number (x : ℚ)
  | string (s : String)
  | array (elements : List Json)
  | object (members : List (String × Json))

/-- The members of an object; a key occurs once. -/
abbrev JsonObject := List (String × Json)

abbrev JsonArray := List Json

namespace Json

def toObject? : Json → Option JsonObject
  | object members => some members
  | _ => none

def toArray? : Json → Option JsonArray
  | array elements => some elements
  | _ => none

def toString? : Json → Option String
  | string s => some s
  | _ => none

def toDouble? : Json → Option ℚ
  | number x => some x
  | _ => none

end Json

/-- What is left of a text that has passed through a C string. -/
def cStr (text : String) : String := .ofList (text.toList.takeWhile (· ≠ Char.ofNat 0))

/-! ## Values and properties -/

def getValueAs {α : Type} (kind : String) (as? : Json → Option α) (value : Json) :
    Except String α :=
  match as? value with
  | some a => .ok a
  | none => throw ("expected " ++ kind)

def getValueAsObject : Json → Except String JsonObject := getValueAs "object" Json.toObject?

def getPropertyAs {α : Type} (kind : String) (as? : Json → Option α) (obj : JsonObject)
    (key : String) : Except String α :=
  match obj.lookup key with
  | none => throw ("Invalid or missing '" ++ key ++ "' in JSON.")
  | some value =>
      match as? value with
      | some a => .ok a
      | none => throw ("The property '" ++ key ++ "' is not " ++ kind ++ ".")

def getPropertyAsObject : JsonObject → String → Except String JsonObject :=
  getPropertyAs "an object" Json.toObject?

def getPropertyAsString : JsonObject → String → Except String String :=
  getPropertyAs "a string" Json.toString?

def getPropertyAsArray : JsonObject → String → Except String JsonArray :=
  getPropertyAs "an array" Json.toArray?

def getPropertyAsNumber : JsonObject → String → Except String ℚ :=
  getPropertyAs "a number" Json.toDouble?

/-- `static_cast<size_t>` of a double. -/
def castSize (wild : ℚ → ℕ) (x : ℚ) : ℕ :=
  if -1 < x ∧ x < uint64Size then ⌊x⌋.toNat else wild x % uint64Size

/-! ## Triggers and binds -/

def parseKey (key : String) : Except String KeyCode :=
  match strToKeycode.findForward key with
  | some keyCode => .ok keyCode
  | none => throw (cStr ("Unkown key:" ++ key))

def keyFromJson (obj : JsonObject) : Except String KeyCode := do
  parseKey (← getPropertyAsString obj "value")

def KeyPress.fromJson : JsonObject → Except String KeyCode := keyFromJson

def KeyRelease.fromJson : JsonObject → Except String KeyCode := keyFromJson

def PressKey.fromJson : JsonObject → Except String KeyCode := keyFromJson

def ReleaseKey.fromJson : JsonObject → Except String KeyCode := keyFromJson

def sizeFromJson (key : String) (wild : ℚ → ℕ) (obj : JsonObject) : Except String ℕ := do
  return castSize wild (← getPropertyAsNumber obj key)

def MinimumWait.fromJson : (ℚ → ℕ) → JsonObject → Except String ℕ := sizeFromJson "duration"

def MaximumWait.fromJson : (ℚ → ℕ) → JsonObject → Except String ℕ := sizeFromJson "duration"

def SwapLayer.fromJson : (ℚ → ℕ) → JsonObject → Except String ℕ := sizeFromJson "value"

def Wait.fromJson : (ℚ → ℕ) → JsonObject → Except String ℕ := sizeFromJson "duration"

def AppFocused.fromJson (obj : JsonObject) : Except String String :=
  getPropertyAsString obj "app_name"

def RunScript.fromJson (obj : JsonObject) : Except String RunScript := do
  let interpreter ← getPropertyAsString obj "interpreter"
  let script ← getPropertyAsString obj "script"
  return ⟨interpreter, script⟩

def parseBehavior (str : String) : Except String SequenceBehavior :=
  if str = "capture" then return .capture
  else if str = "release" then return .release
  else if str = "default" then return .default
  else throw (cStr ("SequenceBehavior Behavior: " ++ str))

def parseBasicTrigger (obj : JsonObject) : Except String BasicTrigger := do
  let triggerType ← getPropertyAsString obj "type"
  if triggerType = "key_press" then return .keyPress (← KeyPress.fromJson obj)
  else if triggerType = "key_release" then return .keyRelease (← KeyRelease.fromJson obj)
  else if triggerType = "app_focused" then return .appFocused (← AppFocused.fromJson obj)
  else throw (cStr ("Invalid trigger type: " ++ triggerType))

section

variable (wild : ℚ → ℕ)

def parseAdvancedTrigger (obj : JsonObject) : Except String AdvancedTrigger := do
  let triggerType ← getPropertyAsString obj "type"
  if triggerType = "key_press" then return .keyPress (← KeyPress.fromJson obj)
  else if triggerType = "key_release" then return .keyRelease (← KeyRelease.fromJson obj)
  else if triggerType = "minimum_wait" then return .minimumWait (← MinimumWait.fromJson wild obj)
  else if triggerType = "maximum_wait" then return .maximumWait (← MaximumWait.fromJson wild obj)
  else if triggerType = "app_focused" then return .appFocused (← AppFocused.fromJson obj)
  else throw (cStr ("Invalid trigger type: " ++ triggerType))

def parseBind (bind : Json) : Except String Bind := do
  let bindObj ← getValueAsObject bind
  let bindType ← getPropertyAsString bindObj "type"
  if bindType = "press_key" then return .pressKey (← PressKey.fromJson bindObj)
  else if bindType = "release_key" then return .releaseKey (← ReleaseKey.fromJson bindObj)
  else if bindType = "switch_layer" then return .swapLayer (← SwapLayer.fromJson wild bindObj)
  else if bindType = "wait" then return .wait (← Wait.fromJson wild bindObj)
  else if bindType = "run_script" then return .runScript (← RunScript.fromJson bindObj)
  else throw (cStr ("Invalid bind type: " ++ bindType))

def parseBinds (jsonArr : JsonArray) : Except String (List Bind) := jsonArr.mapM (parseBind wild)

/-! ## Remappings, layers and profiles -/

def parseBasicRemapping (obj : JsonObject) : Except String (BasicTrigger × List Bind) := do
  let trigger ← parseBasicTrigger (← getPropertyAsObject obj "trigger")
  let binds ← parseBinds wild (← getPropertyAsArray obj "binds")
  return (trigger, binds)

def SequenceTrigger.fromJson (obj : JsonObject) : Except String SequenceTrigger := do
  let triggers ← (← getPropertyAsArray obj "triggers").mapM fun triggerJson ↦ do
    parseAdvancedTrigger wild (← getValueAsObject triggerJson)
  let binds ← parseBinds wild (← getPropertyAsArray obj "binds")
  let behavior ← parseBehavior (← getPropertyAsString obj "behavior")
  return ⟨behavior, triggers, binds⟩

/-- One pass of the loop over the remappings of a layer; an object without
triggers is skipped. -/
def Layer.readRemapping : List (BasicTrigger × List Bind) × List SequenceTrigger → Json →
    Except String (List (BasicTrigger × List Bind) × List SequenceTrigger)
  | (basicRemappings, sequenceRemappings), remapping => do
      let obj ← getValueAsObject remapping
      if (obj.lookup "triggers").isSome then
        return (basicRemappings, sequenceRemappings ++ [← SequenceTrigger.fromJson wild obj])
      else if (obj.lookup "trigger").isSome then
        return (basicRemappings ++ [← parseBasicRemapping wild obj], sequenceRemappings)
      else return (basicRemappings, sequenceRemappings)

def Layer.fromJson (obj : JsonObject) : Except String Layer := do
  let layerName ← getPropertyAsString obj "layer_name"
  let (basicRemappings, sequenceRemappings) ←
    (← getPropertyAsArray obj "remappings").foldlM (Layer.readRemapping wild) ([], [])
  return ⟨layerName, basicRemappings, sequenceRemappings⟩

def Profile.defaultProfile : Profile where
  name := "default"
  layers := [⟨"default", [], []⟩]
  defaultLayer := 0

/-- `from_json` before it saves its object. -/
def Profile.parse (obj : JsonObject) : Except String Profile := do
  let profileName ← getPropertyAsString obj "profile_name"
  let defaultLayer := castSize wild (← getPropertyAsNumber obj "default_layer")
  let layers ← (← getPropertyAsArray obj "layers").mapM fun remapping ↦ do
    Layer.fromJson wild (← getValueAsObject remapping)
  return ⟨profileName, layers, defaultLayer⟩

/-- Parses an object and then writes it to the latest-profile file, whose
content is the second component. -/
def Profile.fromJson (obj : JsonObject) (latest : Option JsonObject) :
    Except String Profile × Option JsonObject :=
  match Profile.parse wild obj with
  | .ok p => (.ok p, some obj)
  | .error what => (.error what, latest)

end

end Keybinder

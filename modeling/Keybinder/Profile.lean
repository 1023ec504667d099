import Mathlib.Data.List.Basic
import Keybinder.KeyCode

/-!
# Profiles

The data a profile is made of: triggers, binds, sequences and layers.  A
variant of the source is an inductive type whose constructors carry the
fields of the alternatives.
-/

namespace Keybinder

/-- The number of values of a `uint64_t` or a `size_t`. -/
def uint64Size : ℕ := 18446744073709551616

inductive SequenceBehavior where
  | capture | release | default
  deriving DecidableEq

inductive Timer where
  | minimumWait (ms : ℕ)
  | maximumWait (ms : ℕ)
  deriving DecidableEq

namespace Timer

def ms : Timer → ℕ
  | .minimumWait ms => ms
  | .maximumWait ms => ms

end Timer

inductive BasicTrigger where
  | keyPress (keyCode : KeyCode)
  | keyRelease (keyCode : KeyCode)
  | appFocused (appName : String)
  deriving DecidableEq

inductive AdvancedTrigger where
  | keyPress (keyCode : KeyCode)
  | keyRelease (keyCode : KeyCode)
  | appFocused (appName : String)
  | minimumWait (ms : ℕ)
  | maximumWait (ms : ℕ)
  deriving DecidableEq

structure RunScript where
  interpreter : String
  script : String
  deriving DecidableEq

inductive Bind where
  | pressKey (keyCode : KeyCode)
  | releaseKey (keyCode : KeyCode)
  | swapLayer (newLayer : ℕ)
  | wait (ms : ℕ)
  | runScript (s : RunScript)
  deriving DecidableEq

structure SequenceTrigger where
  behavior : SequenceBehavior
  sequence : List AdvancedTrigger
  binds : List Bind
  deriving DecidableEq

structure Layer where
  layerName : String
  basicRemappings : List (BasicTrigger × List Bind)
  sequenceRemappings : List SequenceTrigger
  deriving DecidableEq

structure Profile where
  name : String
  layers : List Layer
  defaultLayer : ℕ
  deriving DecidableEq

end Keybinder

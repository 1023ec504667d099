import Mathlib.Data.List.Infix
import Keybinder.Library.HashLookup
import Keybinder.LetterCase
import Keybinder.Profile

/-!
# Events

Input events are compared by the source's `operator==`: two app-focused
events are equal when one lower-cased name contains the other.  This is
reflexive and symmetric but not transitive.  The `symbol` of an event is
what the comparison looks at.
-/

namespace Keybinder

inductive KeyEventType where
  | press | release
  deriving DecidableEq

structure KeyEvent where
  keycode : KeyCode
  type : KeyEventType
  deriving DecidableEq

inductive InputEvent where
  | app (appName : String)
  | key (e : KeyEvent)
  deriving DecidableEq

inductive OutputEvent where
  | key (e : KeyEvent)
  | script (s : RunScript)
  deriving DecidableEq

/-- What `operator==` sees of an input event. -/
inductive Symbol where
  | app (lowered : List Char)
  | key (e : KeyEvent)
  deriving DecidableEq

namespace Symbol

def eq : Symbol → Symbol → Bool
  | .app al, .app bl => decide (bl <:+: al) || decide (al <:+: bl)
  | .key a, .key b => decide (a = b)
  | _, _ => false

@[simp] theorem eq_refl (a : Symbol) : a.eq a = true := by
  cases a <;> simp [eq]

theorem eq_swap (a b : Symbol) : a.eq b = b.eq a := by
  cases a <;> cases b <;> simp [eq, Bool.or_comm, eq_comm]

@[simp] theorem key_eq_iff {a : Symbol} {e : KeyEvent} : a.eq (.key e) = true ↔ a = .key e := by
  cases a <;> simp [eq]

end Symbol

namespace InputEvent

def symbol : InputEvent → Symbol
  | .app appName => .app (toLower appName)
  | .key e => .key e

/-- `operator==` on input events. -/
def eq (a b : InputEvent) : Bool := a.symbol.eq b.symbol

@[simp] theorem eq_refl (a : InputEvent) : a.eq a = true := Symbol.eq_refl _

theorem eq_swap (a b : InputEvent) : a.eq b = b.eq a := Symbol.eq_swap _ _

theorem eq_of_symbol_eq {a b : InputEvent} (h : a.symbol = b.symbol) : a.eq b = true := by
  simp [eq, h]

/-- The comparison looks at the symbols only. -/
theorem eq_congr {a a' b b' : InputEvent} (ha : a.symbol = a'.symbol) (hb : b.symbol = b'.symbol) :
    a.eq b = a'.eq b' := by
  simp [eq, ha, hb]

@[simp] theorem symbol_eq_key_iff {a : InputEvent} {e : KeyEvent} :
    a.symbol = .key e ↔ a = .key e := by
  cases a <;> simp [symbol]

@[simp] theorem eq_key_iff {a : InputEvent} {e : KeyEvent} :
    a.eq (.key e) = true ↔ a = .key e :=
  Symbol.key_eq_iff.trans symbol_eq_key_iff

end InputEvent

/-- A `QHash` keyed by input events. -/
abbrev QHash := HashLookup InputEvent InputEvent.eq

end Keybinder

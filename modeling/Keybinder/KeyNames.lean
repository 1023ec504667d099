import Mathlib.Data.List.Basic
import Keybinder.KeyCode

/-!
# Key names

A `BiMap` looks up its entries in both directions; an entry that is inserted
later wins.  One of them gives the names of the keys in profiles and in the
counts.
-/

namespace Keybinder

structure BiMap (κ ν : Type) where
  forwardMap : List (κ × ν) := []
  backwardMap : List (ν × κ) := []

namespace BiMap

variable {κ ν : Type} [DecidableEq κ] [DecidableEq ν]

def insert (m : BiMap κ ν) (key : κ) (value : ν) : BiMap κ ν where
  forwardMap := (key, value) :: m.forwardMap
  backwardMap := (value, key) :: m.backwardMap

def ofList (entries : List (κ × ν)) : BiMap κ ν :=
  entries.foldl (fun m entry ↦ m.insert entry.1 entry.2) {}

def findForward (m : BiMap κ ν) (key : κ) : Option ν := m.forwardMap.lookup key

def findBackward (m : BiMap κ ν) (value : ν) : Option κ := m.backwardMap.lookup value

end BiMap

theorem lookup_of_mem {κ ν : Type} [DecidableEq κ] {entries : List (κ × ν)}
    (hnodup : (entries.map Prod.fst).Nodup) {key : κ} {value : ν} (h : (key, value) ∈ entries) :
    entries.lookup key = some value := by
  obtain ⟨before, after, rfl⟩ := List.append_of_mem h
  refine List.lookup_eq_some_iff.mpr ⟨before, after, rfl, fun entry hentry ↦ ?_⟩
  rw [List.map_append, List.nodup_append] at hnodup
  have hne := hnodup.2.2 entry.1 (List.mem_map_of_mem hentry) key (by simp)
  simpa using hne.symm

def strToKeycode : BiMap String KeyCode := .ofList
  [("A", .a), ("B", .b), ("C", .c), ("D", .d), ("E", .e), ("F", .f), ("G", .g), ("H", .h),
   ("I", .i), ("J", .j), ("K", .k), ("L", .l), ("M", .m), ("N", .n), ("O", .o), ("P", .p),
   ("Q", .q), ("R", .r), ("S", .s), ("T", .t), ("U", .u), ("V", .v), ("W", .w), ("X", .x),
   ("Y", .y), ("Z", .z), ("0", .k0), ("1", .k1), ("2", .k2), ("3", .k3), ("4", .k4), ("5", .k5),
   ("6", .k6), ("7", .k7), ("8", .k8), ("9", .k9), ("F1", .f1), ("F2", .f2), ("F3", .f3),
   ("F4", .f4), ("F5", .f5), ("F6", .f6), ("F7", .f7), ("F8", .f8), ("F9", .f9), ("F10", .f10),
   ("F11", .f11), ("F12", .f12), ("F13", .f13), ("F14", .f14), ("F15", .f15), ("F16", .f16),
   ("F17", .f17), ("F18", .f18), ("F19", .f19), ("F20", .f20), ("F21", .f21), ("F22", .f22),
   ("F23", .f23), ("F24", .f24), ("LeftShift", .leftShift), ("RightShift", .rightShift),
   ("LeftControl", .leftControl), ("RightControl", .rightControl), ("LeftAlt", .leftAlt),
   ("RightAlt", .rightAlt), ("LeftSuper", .leftSuper), ("RightSuper", .rightSuper),
   ("Escape", .escape), ("Tab", .tab), ("Enter", .enter), ("Backspace", .backspace),
   ("Space", .space), ("Insert", .insert), ("Delete", .delete), ("Home", .home), ("End", .end_),
   ("PageUp", .pageUp), ("PageDown", .pageDown), ("PrintScreen", .printScreen), ("Pause", .pause),
   ("Menu", .menu), ("CapsLock", .capsLock), ("NumLock", .numLock), ("ScrollLock", .scrollLock),
   ("ArrowUp", .arrowUp), ("ArrowDown", .arrowDown), ("ArrowLeft", .arrowLeft),
   ("ArrowRight", .arrowRight), ("Minus", .minus), ("Equals", .equals),
   ("LeftBracket", .leftBracket), ("RightBracket", .rightBracket), ("Backslash", .backSlash),
   ("Semicolon", .semicolon), ("Apostrophe", .apostrophe), ("Grave", .grave), ("Comma", .comma),
   ("Period", .period), ("Slash", .forwardSlash), ("Numpad0", .numpad0), ("Numpad1", .numpad1),
   ("Numpad2", .numpad2), ("Numpad3", .numpad3), ("Numpad4", .numpad4), ("Numpad5", .numpad5),
   ("Numpad6", .numpad6), ("Numpad7", .numpad7), ("Numpad8", .numpad8), ("Numpad9", .numpad9),
   ("NumpadAdd", .numpadAdd), ("NumpadSubtract", .numpadSubtract),
   ("NumpadMultiply", .numpadMultiply), ("NumpadDivide", .numpadDivide),
   ("NumpadEnter", .numpadEnter), ("NumpadDecimal", .numpadDecimal), ("VolumeUp", .volumeUp),
   ("VolumeDown", .volumeDown), ("Mute", .mute), ("MediaNext", .mediaNext),
   ("MediaPrev", .mediaPrev), ("MediaPlayPause", .mediaPlayPause), ("MediaStop", .mediaStop),
   ("BrowserBack", .browserBack), ("BrowserForward", .browserForward),
   ("BrowserRefresh", .browserRefresh), ("BrowserHome", .browserHome),
   ("BrowserSearch", .browserSearch), ("BrowserFavorites", .browserFavorites), ("Mail", .mail),
   ("Calculator", .calculator), ("Computer", .computer), ("Sleep", .sleep), ("Power", .power),
   ("Hiragana", .hiragana), ("Katakana", .katakana), ("Muhenkan", .muhenkan), ("Henkan", .henkan)]

theorem nodup_names : (strToKeycode.forwardMap.map Prod.fst).Nodup := by decide +kernel

theorem findBackward_isSome (keyCode : KeyCode) :
    (strToKeycode.findBackward keyCode).isSome = true := by
  cases keyCode <;> rfl

def keyName (keyCode : KeyCode) : String :=
  (strToKeycode.findBackward keyCode).get (findBackward_isSome keyCode)

end Keybinder

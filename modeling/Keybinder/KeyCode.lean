/-!
# Key codes

The keys a profile can name, in the order of the source enumeration.
-/

namespace Keybinder

inductive KeyCode where
  | a | b | c | d | e | f | g | h | i | j | k | l | m | n | o | p | q | r | s | t | u | v
  | w | x | y | z
  | k0 | k1 | k2 | k3 | k4 | k5 | k6 | k7 | k8 | k9
  | f1 | f2 | f3 | f4 | f5 | f6 | f7 | f8 | f9 | f10 | f11 | f12 | f13 | f14 | f15 | f16
  | f17 | f18 | f19 | f20 | f21 | f22 | f23 | f24
  | leftShift | rightShift | leftControl | rightControl | leftAlt | rightAlt | leftSuper
  | rightSuper | capsLock | numLock | scrollLock
  | escape | tab | enter | backspace | space | insert | delete | home | end_ | pageUp
  | pageDown | printScreen | pause | menu
  | arrowUp | arrowDown | arrowLeft | arrowRight
  | minus | equals | leftBracket | rightBracket | backSlash | semicolon | apostrophe
  | grave | comma | period | forwardSlash
  | numpad0 | numpad1 | numpad2 | numpad3 | numpad4 | numpad5 | numpad6 | numpad7
  | numpad8 | numpad9 | numpadAdd | numpadSubtract | numpadMultiply | numpadDivide
  | numpadEnter | numpadDecimal
  | volumeUp | volumeDown | mute | mediaPlayPause | mediaNext | mediaPrev | mediaStop
  | browserBack | browserForward | browserRefresh | browserSearch | browserFavorites
  | browserHome
  | mail | calculator | computer
  | sleep | power
  | katakana | hiragana | muhenkan | henkan
  deriving DecidableEq

end Keybinder

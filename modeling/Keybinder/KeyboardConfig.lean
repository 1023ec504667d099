import Mathlib.Data.List.Infix
import Keybinder.Library.Framing

/-!
# The keyboard in the config file

The daemon of Linux keeps the path of the keyboard in a line of a config
file.  Recording a path replaces every such line or adds one; retrieving it
reads the first such line after its first equals sign.
-/

namespace Keybinder

abbrev Text := List Char

/-! ## Lines of a text file -/

/-- The lines that a text stream reads.  Text mode drops the carriage
returns; what follows the last newline is a line if there is anything. -/
def textLines (content : Text) : List Text :=
  let text := content.filter (· ≠ '\r')
  let last := Framing.remainder '\n' text
  Framing.pieces '\n' text ++ if last = [] then [] else [last]

def writeLines (lines : List Text) : Text := lines.flatMap (· ++ ['\n'])

def OneLine (line : Text) : Prop := '\n' ∉ line ∧ '\r' ∉ line

/-! ## The config file -/

/-- The file operations that succeed: to create the file with its directory,
and to open it for reading and for writing. -/
structure FileAccess where
  create : Bool
  read : Bool
  write : Bool

def keyboardKey : Text := "keyboard=".toList

/-- `line.contains("keyboard=")` -/
def HasKeyboard (line : Text) : Prop := keyboardKey <:+: line

instance : DecidablePred HasKeyboard := fun line ↦ inferInstanceAs (Decidable (_ <:+: line))

/-- `line.mid(line.indexOf("=") + 1)`; the index is -1 without an equals
sign. -/
def afterEquals (line : Text) : Text :=
  match line.idxOf? '=' with
  | some equalIdx => line.drop (equalIdx + 1)
  | none => line

/-- Nothing is read from a file that cannot be opened. -/
def retrieveEventX (access : FileAccess) (config : Option Text) : Text :=
  match config with
  | none => []
  | some content =>
      if access.read then
        match (textLines content).find? fun line ↦ HasKeyboard line with
        | some line => afterEquals line
        | none => []
      else []

/-- One pass of the loop of `record_eventX`, over `no_prev_keyb` and
`all_lines`. -/
def recordLine (eventXPath : Text) : Bool × List Text → Text → Bool × List Text
  | (noPrevKeyb, allLines), line =>
      if HasKeyboard line then (false, allLines ++ [keyboardKey ++ eventXPath])
      else (noPrevKeyb, allLines ++ [line])

/-- Whether the path was recorded, and the file afterwards. -/
def recordEventX (access : FileAccess) (eventXPath : Text) (config : Option Text) :
    Bool × Option Text :=
  match config with
  | none =>
      if access.create then (true, some (keyboardKey ++ eventXPath ++ ['\n']))
      else (false, none)
  | some content =>
      if access.read then
        let (noPrevKeyb, allLines) := (textLines content).foldl (recordLine eventXPath) (true, [])
        if access.write then
          (true, some (writeLines allLines ++
            if noPrevKeyb then keyboardKey ++ eventXPath ++ ['\n'] else []))
        else (false, some content)
      else (false, some content)

/-! ## What is read back -/

/-- Lines that end with a newline, each with or without a carriage return,
and one that may end without. -/
theorem textLines_ended {lines : List (Text × Bool)} {last : Text}
    (hlines : ∀ line ∈ lines, OneLine line.1) (hlast : OneLine last) :
    textLines ((lines.flatMap fun line ↦ line.1 ++ if line.2 then ['\r', '\n'] else ['\n']) ++
      last) = lines.map Prod.fst ++ if last = [] then [] else [last] := by
  have hfilter : ∀ {line : Text}, OneLine line → line.filter (· ≠ '\r') = line := by
    intro line hline
    refine List.filter_eq_self.mpr fun c hc ↦ ?_
    simpa using fun h : c = '\r' ↦ hline.2 (h ▸ hc)
  have htext : ((lines.flatMap fun line ↦ line.1 ++ if line.2 then ['\r', '\n'] else ['\n']) ++
      last).filter (· ≠ '\r') = (lines.map Prod.fst).flatMap (· ++ ['\n']) ++ last := by
    rw [List.filter_append, hfilter hlast, List.filter_flatMap, List.flatMap_map]
    congr 1
    refine List.flatMap_congr fun line hline ↦ ?_
    rw [List.filter_append, hfilter (hlines line hline)]
    cases line.2 <;> rfl
  have hclean : ∀ line ∈ lines.map Prod.fst, '\n' ∉ line := by
    intro line hline
    obtain ⟨ended, hended, rfl⟩ := List.mem_map.mp hline
    exact (hlines ended hended).1
  obtain ⟨hpieces, hremainder⟩ := Framing.pieces_lines hclean hlast.1
  rw [textLines, htext, hpieces, hremainder]

theorem textLines_writeLines {lines : List Text} (h : ∀ line ∈ lines, OneLine line) :
    textLines (writeLines lines) = lines := by
  have hlines : ∀ line ∈ lines.map fun line ↦ (line, false), OneLine line.1 := by simpa using h
  have hlast : OneLine [] := by simp [OneLine]
  have hended := textLines_ended hlines hlast
  simpa [writeLines, List.flatMap_map, Function.comp_def] using hended

theorem oneLine_of_mem_textLines {content line : Text} (h : line ∈ textLines content) :
    OneLine line := by
  have hreturn : '\r' ∉ content.filter (· ≠ '\r') := by simp
  rcases List.mem_append.mp h with h | h
  · obtain ⟨hnewline, hsubset⟩ := Framing.mem_pieces _ h
    exact ⟨hnewline, fun hmem ↦ hreturn (hsubset hmem)⟩
  · split at h
    · cases h
    · obtain ⟨hnewline, hsubset⟩ := Framing.mem_remainder '\n' (content.filter (· ≠ '\r'))
      rw [List.mem_singleton.mp h]
      exact ⟨hnewline, fun hmem ↦ hreturn (hsubset hmem)⟩

/-! ## Recording a path -/

/-- The lines of the config file; without a file there are none. -/
def configLines (config : Option Text) : List Text := (config.map textLines).getD []

/-- The lines after a path was recorded. -/
def recorded (eventXPath : Text) (lines : List Text) : List Text :=
  (lines.map fun line ↦ if HasKeyboard line then keyboardKey ++ eventXPath else line) ++
    if ∃ line ∈ lines, HasKeyboard line then [] else [keyboardKey ++ eventXPath]

section

variable {access : FileAccess} {eventXPath : Text} {config config' : Option Text}
  {lines : List Text}

theorem hasKeyboard_append (eventXPath : Text) : HasKeyboard (keyboardKey ++ eventXPath) :=
  (List.prefix_append _ _).isInfix

theorem oneLine_append (h : OneLine eventXPath) : OneLine (keyboardKey ++ eventXPath) := by
  have hkey : OneLine keyboardKey := ⟨by decide, by decide⟩
  exact ⟨by simp [hkey.1, h.1], by simp [hkey.2, h.2]⟩

theorem afterEquals_append (eventXPath : Text) :
    afterEquals (keyboardKey ++ eventXPath) = eventXPath := rfl

/-- The loop over the lines. -/
theorem foldl_recordLine (lines allLines : List Text) (noPrevKeyb : Bool) :
    lines.foldl (recordLine eventXPath) (noPrevKeyb, allLines) =
      (noPrevKeyb && decide (¬ ∃ line ∈ lines, HasKeyboard line),
        allLines ++ lines.map fun line ↦
          if HasKeyboard line then keyboardKey ++ eventXPath else line) := by
  induction lines generalizing allLines noPrevKeyb with
  | nil => simp
  | cons line lines ih =>
      rw [List.foldl_cons, recordLine]
      by_cases hline : HasKeyboard line
      · rw [if_pos hline, ih]
        simp [hline]
      · rw [if_neg hline, ih]
        simp [hline]

/-- A recorded path stands in a file of the lines as they should be. -/
theorem recordEventX_true (h : recordEventX access eventXPath config = (true, config')) :
    config' = some (writeLines (recorded eventXPath (configLines config))) := by
  cases config with
  | none =>
      cases hcreate : access.create with
      | false => simp [recordEventX, hcreate] at h
      | true =>
          obtain rfl : some (keyboardKey ++ eventXPath ++ ['\n']) = config' := by
            simpa [recordEventX, hcreate] using h
          simp [recorded, configLines, writeLines]
  | some content =>
      cases hread : access.read with
      | false => simp [recordEventX, hread] at h
      | true =>
          cases hwrite : access.write with
          | false => simp [recordEventX, hread, hwrite] at h
          | true =>
              simp only [recordEventX, hread, hwrite, foldl_recordLine, if_true, Prod.mk.injEq,
                true_and] at h
              rw [← h]
              by_cases hkeyboard : ∃ line ∈ textLines content, HasKeyboard line
              · simp [recorded, configLines, writeLines, hkeyboard]
              · simp [recorded, configLines, writeLines, hkeyboard]

theorem recordEventX_false (h : recordEventX access eventXPath config = (false, config')) :
    config' = config := by
  cases config with
  | none =>
      cases hcreate : access.create <;> simp [recordEventX, hcreate] at h
      exact h.symm
  | some content =>
      cases hread : access.read <;> cases hwrite : access.write <;>
        simp [recordEventX, hread, hwrite] at h
      all_goals exact h.symm

theorem mem_recorded (eventXPath : Text) (lines : List Text) :
    keyboardKey ++ eventXPath ∈ recorded eventXPath lines := by
  by_cases hkeyboard : ∃ line ∈ lines, HasKeyboard line
  · obtain ⟨line, hmem, hline⟩ := hkeyboard
    exact List.mem_append_left _ (List.mem_map.mpr ⟨line, hmem, if_pos hline⟩)
  · exact List.mem_append_right _ (by simp [hkeyboard])

theorem mem_recorded_cases {line : Text} (h : line ∈ recorded eventXPath lines) :
    line = keyboardKey ++ eventXPath ∨ line ∈ lines ∧ ¬ HasKeyboard line := by
  rcases List.mem_append.mp h with h | h
  · obtain ⟨line', hmem, rfl⟩ := List.mem_map.mp h
    by_cases hline : HasKeyboard line'
    · exact .inl (if_pos hline)
    · rw [if_neg hline]
      exact .inr ⟨hmem, hline⟩
  · split at h
    · cases h
    · exact .inl (List.mem_singleton.mp h)

theorem eq_of_mem_recorded {line : Text} (h : line ∈ recorded eventXPath lines)
    (hline : HasKeyboard line) : line = keyboardKey ++ eventXPath := by
  rcases mem_recorded_cases h with h | ⟨-, hno⟩
  · exact h
  · exact (hno hline).elim

theorem find?_recorded (eventXPath : Text) (lines : List Text) :
    (recorded eventXPath lines).find? (fun line ↦ HasKeyboard line) =
      some (keyboardKey ++ eventXPath) := by
  cases hfind : (recorded eventXPath lines).find? fun line ↦ HasKeyboard line with
  | none =>
      have hno := List.find?_eq_none.mp hfind _ (mem_recorded eventXPath lines)
      simp [hasKeyboard_append] at hno
  | some line =>
      have hline : HasKeyboard line := by simpa using List.find?_some hfind
      rw [eq_of_mem_recorded (List.mem_of_find?_eq_some hfind) hline]

theorem filter_recorded (eventXPath : Text) (lines : List Text) :
    (recorded eventXPath lines).filter (fun line ↦ ¬ HasKeyboard line) =
      lines.filter fun line ↦ ¬ HasKeyboard line := by
  have hadded : (if ∃ line ∈ lines, HasKeyboard line then [] else
      [keyboardKey ++ eventXPath]).filter (fun line ↦ ¬ HasKeyboard line) = [] := by
    split
    · rfl
    · simp [hasKeyboard_append]
  rw [recorded, List.filter_append, hadded, List.append_nil]
  clear hadded
  induction lines with
  | nil => rfl
  | cons line lines ih =>
      by_cases hline : HasKeyboard line
      · simpa [hline, hasKeyboard_append] using ih
      · simpa [hline] using ih

theorem recorded_eq_self (hmem : keyboardKey ++ eventXPath ∈ lines)
    (hlines : ∀ line ∈ lines, HasKeyboard line → line = keyboardKey ++ eventXPath) :
    recorded eventXPath lines = lines := by
  have hsome : ∃ line ∈ lines, HasKeyboard line := ⟨_, hmem, hasKeyboard_append eventXPath⟩
  rw [recorded, if_pos hsome, List.append_nil]
  refine (List.map_congr_left fun line hline ↦ ?_).trans (List.map_id' lines)
  split
  · exact (hlines line hline ‹_›).symm
  · rfl

theorem oneLine_recorded (hpath : OneLine eventXPath) (hlines : ∀ line ∈ lines, OneLine line) :
    ∀ line ∈ recorded eventXPath lines, OneLine line := by
  intro line hmem
  rcases mem_recorded_cases hmem with rfl | ⟨hmem, -⟩
  · exact oneLine_append hpath
  · exact hlines line hmem

theorem oneLine_configLines : ∀ line ∈ configLines config, OneLine line := by
  intro line hline
  cases config with
  | none => cases hline
  | some content => exact oneLine_of_mem_textLines hline

theorem configLines_of_recorded (hpath : OneLine eventXPath)
    (h : recordEventX access eventXPath config = (true, config')) :
    configLines config' = recorded eventXPath (configLines config) := by
  rw [recordEventX_true h]
  exact textLines_writeLines (oneLine_recorded hpath oneLine_configLines)

theorem retrieveEventX_eq (hread : access.read = true) :
    retrieveEventX access config =
      match (configLines config).find? fun line ↦ HasKeyboard line with
      | some line => afterEquals line
      | none => [] := by
  cases config with
  | none => rfl
  | some content => rw [retrieveEventX, if_pos hread]; rfl

theorem retrieveEventX_of_recorded (hpath : OneLine eventXPath)
    (h : recordEventX access eventXPath config = (true, config')) {access' : FileAccess}
    (hread : access'.read = true) : retrieveEventX access' config' = eventXPath := by
  rw [retrieveEventX_eq hread, configLines_of_recorded hpath h, find?_recorded]
  exact afterEquals_append eventXPath

theorem recordEventX_again (hpath : OneLine eventXPath)
    (h : recordEventX access eventXPath config = (true, config')) (access' : FileAccess) :
    (recordEventX access' eventXPath config').2 = config' := by
  cases hagain : recordEventX access' eventXPath config' with
  | mk success config'' =>
      cases success with
      | false => exact recordEventX_false hagain
      | true =>
          have hsame : recorded eventXPath (recorded eventXPath (configLines config)) =
              recorded eventXPath (configLines config) :=
            recorded_eq_self (mem_recorded _ _) fun _ ↦ eq_of_mem_recorded
          change config'' = config'
          rw [recordEventX_true hagain, configLines_of_recorded hpath h, hsame]
          exact (recordEventX_true h).symm

end

/-- The path is retrieved from the file, the lines without a keyboard are
kept in order, and recording the path again leaves the file unchanged. -/
structure KeepsKeyboard (eventXPath : Text) (config config' : Option Text) : Prop where
  retrieved : ∀ access : FileAccess, access.read = true →
    retrieveEventX access config' = eventXPath
  kept : (configLines config').filter (fun line ↦ ¬ HasKeyboard line) =
    (configLines config).filter fun line ↦ ¬ HasKeyboard line
  unchanged : ∀ access : FileAccess, (recordEventX access eventXPath config').2 = config'

/-- Whatever is in the config file, a path that was recorded is kept. -/
theorem recordEventX_keeps {access : FileAccess} {eventXPath : Text} {config config' : Option Text}
    (hpath : OneLine eventXPath) (h : recordEventX access eventXPath config = (true, config')) :
    KeepsKeyboard eventXPath config config' where
  retrieved _ hread := retrieveEventX_of_recorded hpath h hread
  kept := by rw [configLines_of_recorded hpath h, filter_recorded]
  unchanged := recordEventX_again hpath h

/-- A file with two keyboard lines, one of them in a comment. -/
theorem recordEventX_keeps_twoLines :
    KeepsKeyboard "/dev/input/event3".toList
      (some "mode=1\r\n# keyboard=old\nkeyboard=/dev/input/by-id=2".toList)
      (some "mode=1\nkeyboard=/dev/input/event3\nkeyboard=/dev/input/event3\n".toList) :=
  @recordEventX_keeps ⟨true, true, true⟩ _ _ _ ⟨by decide, by decide⟩ (by decide)

/-! ## Starts of the daemon -/

/-- How `detect_keyboard_fallback` ends: without the directory of the
devices, or with the path of the keyboard that was pressed, empty if none
was. -/
inductive Fallback where
  | noDirectory
  | ended (keybPath : Text)

/-- What a start of the daemon meets: the candidates that udev lists, each
with whether it looks like a full keyboard, and the fallback. -/
structure Start where
  access : FileAccess
  candidates : Option (List (Text × Bool))
  fallback : Fallback

namespace Start

def detectKeyboardFallback (s : Start) (config : Option Text) : Text × Option Text :=
  match s.fallback with
  | .noDirectory => ([], config)
  | .ended keybPath => (keybPath, (recordEventX s.access keybPath config).2)

def detectKeyboard (s : Start) (config : Option Text) : Text × Option Text :=
  match s.candidates with
  | none => s.detectKeyboardFallback config
  | some [candidate] => (candidate.1, config)
  | some candidates =>
      match candidates.filter Prod.snd with
      | [candidate] => (candidate.1, config)
      | _ => s.detectKeyboardFallback config

/-- The constructor of the daemon: the keyboard it uses, and the config file
afterwards. -/
def run (s : Start) (config : Option Text) : Text × Option Text :=
  let eventKeybPath := retrieveEventX s.access config
  if eventKeybPath = [] then
    let (eventKeybPath, config) := s.detectKeyboard config
    (eventKeybPath, (recordEventX s.access eventKeybPath config).2)
  else (eventKeybPath, config)

/-- The keyboards that some starts use, one after the other. -/
def keyboards : Option Text → List Start → List Text
  | _, [] => []
  | config, s :: starts => (s.run config).1 :: keyboards (s.run config).2 starts

variable {s : Start} {config : Option Text}

def Unhindered (s : Start) : Prop := s.access = ⟨true, true, true⟩

theorem Unhindered.records (h : s.Unhindered) (eventXPath : Text) (config : Option Text) :
    ∃ config', recordEventX s.access eventXPath config = (true, config') := by
  rw [h]
  cases config with
  | none => exact ⟨_, rfl⟩
  | some content => exact ⟨_, rfl⟩

/-- The file is as it was, or the fallback has recorded the path already. -/
theorem detectKeyboard_config (s : Start) (config : Option Text) :
    (s.detectKeyboard config).2 = config ∨
      (s.detectKeyboard config).2 =
        (recordEventX s.access (s.detectKeyboard config).1 config).2 := by
  have hfallback : (s.detectKeyboardFallback config).2 = config ∨
      (s.detectKeyboardFallback config).2 =
        (recordEventX s.access (s.detectKeyboardFallback config).1 config).2 := by
    unfold detectKeyboardFallback
    split
    · exact .inl rfl
    · exact .inr rfl
  unfold detectKeyboard
  split
  · exact hfallback
  · exact .inl rfl
  · split
    · exact .inl rfl
    · exact hfallback

theorem run_of_empty (hs : s.Unhindered) (hempty : retrieveEventX s.access config = [])
    (hpath : OneLine (s.detectKeyboard config).1) :
    ∃ config', s.run config = ((s.detectKeyboard config).1, config') ∧
      recordEventX s.access (s.detectKeyboard config).1 config = (true, config') := by
  obtain ⟨config', hrecord⟩ := hs.records (s.detectKeyboard config).1 config
  refine ⟨config', ?_, hrecord⟩
  have hagain : (recordEventX s.access (s.detectKeyboard config).1
      (s.detectKeyboard config).2).2 = config' := by
    rcases s.detectKeyboard_config config with hsame | hrecorded
    · rw [hsame, hrecord]
    · rw [hrecorded, hrecord]
      exact recordEventX_again hpath hrecord s.access
  rw [run, if_pos hempty]
  exact Prod.ext rfl hagain

theorem retrieveEventX_run (hs : s.Unhindered) (hpath : OneLine (s.detectKeyboard config).1)
    {access : FileAccess} (hread : access.read = true) :
    retrieveEventX access (s.run config).2 = (s.run config).1 := by
  by_cases hempty : retrieveEventX s.access config = []
  · obtain ⟨config', hrun, hrecord⟩ := run_of_empty hs hempty hpath
    rw [hrun]
    exact retrieveEventX_of_recorded hpath hrecord hread
  · have hread' : s.access.read = true := by rw [hs]
    rw [run, if_neg hempty, retrieveEventX_eq hread, retrieveEventX_eq hread']

/-- The keyboard that a start uses is the one that all later starts use. -/
theorem keyboards_run (hs : s.Unhindered) (hpath : OneLine (s.detectKeyboard config).1)
    (hfound : (s.run config).1 ≠ []) {starts : List Start}
    (hread : ∀ s' ∈ starts, s'.access.read = true) :
    ∀ keyboard ∈ keyboards (s.run config).2 starts, keyboard = (s.run config).1 := by
  have hnext : ∀ s' : Start, s'.access.read = true →
      s'.run (s.run config).2 = ((s.run config).1, (s.run config).2) := by
    intro s' hread'
    have hretrieve := retrieveEventX_run hs hpath hread'
    rw [run, hretrieve, if_neg hfound]
  induction starts with
  | nil => simp [keyboards]
  | cons s' starts ih =>
      obtain ⟨hread', hrest⟩ := List.forall_mem_cons.mp hread
      rw [keyboards, hnext s' hread']
      exact List.forall_mem_cons.mpr ⟨rfl, ih hrest⟩

/-- A keyboard that udev lists. -/
def listed (eventKeybPath : Text) : Start :=
  ⟨⟨true, true, true⟩, some [(eventKeybPath, true)], .noDirectory⟩

theorem keyboards_run_other :
    keyboards none [listed "event3".toList, listed "event5".toList, listed "event5".toList] =
      List.replicate 3 "event3".toList := by
  have hlater := @keyboards_run (listed "event3".toList) none rfl ⟨by decide, by decide⟩
    (by decide) [listed "event5".toList, listed "event5".toList] (by simp [listed])
  exact List.eq_replicate_iff.mpr ⟨rfl, List.forall_mem_cons.mpr ⟨rfl, hlater⟩⟩

end Start

end Keybinder

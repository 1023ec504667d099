import Keybinder.KeyNames

/-!
# Key logging

The counter of pressed keys, the settings with the flag that switches it on,
and the two threads that use them: the mapper reads the flag and then
increments, the main thread handles settings, saves the counts from time to
time, and is restarted.  Each step below is one critical section.
-/

namespace Keybinder

/-! ## The counter -/

/-- The names and their counts, in the order they were inserted. -/
abbrev KeyCounts := List (String × ℕ)

def KeyCounts.increment : KeyCounts → String → KeyCounts
  | [], name => [(name, 1)]
  | (key, count) :: counts, name =>
      if key = name then (key, count + 1) :: counts
      else (key, count) :: KeyCounts.increment counts name

/-- The counter and the file it reads and writes. -/
structure KeyCounter where
  counts : KeyCounts
  dirty : Bool
  file : Option KeyCounts
  deriving DecidableEq

namespace KeyCounter

/-- The constructor, which loads the file. -/
def new (file : Option KeyCounts) : KeyCounter where
  counts := file.getD []
  dirty := true
  file := file

def increment (c : KeyCounter) (key : KeyCode) : KeyCounter :=
  { c with counts := c.counts.increment (keyName key), dirty := true }

/-- Also the destructor. -/
def save (c : KeyCounter) : KeyCounter :=
  if c.dirty then
    { c with file := if c.counts.isEmpty then none else some c.counts, dirty := false }
  else c

def clear (c : KeyCounter) : KeyCounter := { c with counts := [] }.save

theorem save_counts (c : KeyCounter) : c.save.counts = c.counts := by
  unfold save
  split <;> rfl

theorem save_file_of_empty {c : KeyCounter} (hcounts : c.counts = [])
    (hfile : c.dirty = true ∨ c.file = none) : c.save.file = none := by
  unfold save
  split
  · simp [hcounts]
  · rename_i hclean
    exact hfile.resolve_left hclean

end KeyCounter

/-! ## The threads -/

/-- How far the main thread is with a message that sets the settings. -/
inductive SettingsPhase where
  | idle
  | flagWritten
  | settingsSaved
  deriving DecidableEq

/-- `incrementing` is a press for which the mapper has found logging on.  A
settings file without the flag is read as one that says off. -/
structure KeyLogging where
  logKeyFrequency : Bool
  settingsFile : Option Bool
  phase : SettingsPhase
  incrementing : Option KeyCode
  counter : KeyCounter
  deriving DecidableEq

/-- The mapper reads the flag for a press, or increments; the main thread
executes one of the three parts of `load_from_json` (the message need not
name the flag), or the timer saves the counts.  The program is quit or
killed, and started again. -/
inductive LoggingStep where
  | readFlag (key : KeyCode)
  | increment
  | writeFlag (flag : Option Bool)
  | saveSettings
  | settingsChanged
  | saveCounts
  | quit
  | kill
  deriving DecidableEq

namespace KeyLogging

def start (settingsFile : Option Bool) (countFile : Option KeyCounts) : KeyLogging where
  logKeyFrequency := settingsFile.getD false
  settingsFile := settingsFile
  phase := .idle
  incrementing := none
  counter := .new countFile

/-- A step that is not due does nothing. -/
def step (s : KeyLogging) : LoggingStep → KeyLogging
  | .readFlag key =>
      if s.incrementing = none ∧ s.logKeyFrequency = true then { s with incrementing := some key }
      else s
  | .increment =>
      match s.incrementing with
      | some key => { s with counter := s.counter.increment key, incrementing := none }
      | none => s
  | .writeFlag flag =>
      if s.phase = .idle then
        { s with logKeyFrequency := flag.getD s.logKeyFrequency, phase := .flagWritten }
      else s
  | .saveSettings =>
      if s.phase = .flagWritten then
        { s with settingsFile := some s.logKeyFrequency, phase := .settingsSaved }
      else s
  | .settingsChanged =>
      if s.phase = .settingsSaved then
        { s with counter := if s.logKeyFrequency then s.counter else s.counter.clear, phase := .idle }
      else s
  | .saveCounts => if s.phase = .idle then { s with counter := s.counter.save } else s
  | .quit =>
      if s.phase = .idle ∧ s.incrementing = none then start s.settingsFile s.counter.save.file
      else s
  | .kill => start s.settingsFile s.counter.file

/-- While logging is off, and no settings and no counts are left to handle
or to save, nothing is counted and no count is stored. -/
def LeavesNoCounts (s : KeyLogging) : Prop :=
  s.logKeyFrequency = false → s.phase = .idle → s.counter.dirty = false →
    s.counter.counts = [] ∧ s.counter.file = none

/-- The step does not find the stored counts up to date when it clears the
counter, does not increment once logging is off, and does not end the
program between storing that it is off and clearing the counter. -/
def Careful (s : KeyLogging) : LoggingStep → Prop
  | .settingsChanged => s.phase = .settingsSaved → s.logKeyFrequency = false →
      s.counter.dirty = true ∨ s.counter.file = none
  | .increment => s.incrementing.isSome = true → s.logKeyFrequency = true ∨ s.phase ≠ .idle
  | .kill => s.phase = .settingsSaved → s.logKeyFrequency = false → s.counter.file = none
  | _ => True

def CarefulRun : KeyLogging → List LoggingStep → Prop
  | _, [] => True
  | s, x :: steps => s.Careful x ∧ CarefulRun (s.step x) steps

/-! ## What careful steps keep -/

structure Private (s : KeyLogging) : Prop where
  counts : s.logKeyFrequency = false → s.phase = .idle → s.counter.counts = []
  file : s.settingsFile.getD false = false → s.phase ≠ .settingsSaved → s.counter.file = none
  agree : s.phase ≠ .flagWritten → s.settingsFile.getD false = s.logKeyFrequency

theorem private_start {settingsFile : Option Bool} {countFile : Option KeyCounts}
    (h : settingsFile.getD false = false → countFile = none) :
    (start settingsFile countFile).Private := by
  refine ⟨fun hoff _ ↦ ?_, fun hoff _ ↦ h hoff, fun _ ↦ rfl⟩
  rw [start, KeyCounter.new, h hoff]
  rfl

namespace Private

variable {s : KeyLogging}

theorem file_save (h : s.Private) (hidle : s.phase = .idle)
    (hoff : s.settingsFile.getD false = false) : s.counter.save.file = none := by
  have hflag := h.agree (by simp [hidle])
  rw [hoff] at hflag
  apply KeyCounter.save_file_of_empty (h.counts hflag.symm hidle)
  exact .inr (h.file hoff (by simp [hidle]))

theorem settingsChanged (h : s.Private) (hphase : s.phase = .settingsSaved)
    (hcareful : s.logKeyFrequency = false → s.counter.dirty = true ∨ s.counter.file = none) :
    Private { s with
      counter := if s.logKeyFrequency then s.counter else s.counter.clear, phase := .idle } := by
  obtain ⟨flag, settingsFile, phase, incrementing, counter⟩ := s
  obtain rfl : phase = .settingsSaved := hphase
  have hagree : settingsFile.getD false = flag := h.agree (by simp)
  cases flag with
  | true => exact ⟨by simp, by simp [hagree], fun _ ↦ hagree⟩
  | false =>
      refine ⟨fun _ _ ↦ ?_, fun _ _ ↦ ?_, fun _ ↦ hagree⟩
      · exact KeyCounter.save_counts _
      · exact KeyCounter.save_file_of_empty rfl (hcareful rfl)

theorem step (h : s.Private) {x : LoggingStep} (hcareful : s.Careful x) : (s.step x).Private := by
  cases x with
  | readFlag key =>
      simp only [KeyLogging.step]
      split
      · exact ⟨h.counts, h.file, h.agree⟩
      · exact h
  | increment =>
      simp only [KeyLogging.step]
      split
      · rename_i key hkey
        refine ⟨fun hoff hidle ↦ ?_, h.file, h.agree⟩
        rcases hcareful (by simp [hkey]) with hon | hbusy
        · cases hoff.symm.trans hon
        · exact (hbusy hidle).elim
      · exact h
  | writeFlag flag =>
      simp only [KeyLogging.step]
      split
      · rename_i hidle
        exact ⟨by simp, fun hoff _ ↦ h.file hoff (by simp [hidle]), by simp⟩
      · exact h
  | saveSettings =>
      simp only [KeyLogging.step]
      split
      · exact ⟨by simp, by simp, by simp⟩
      · exact h
  | settingsChanged =>
      simp only [KeyLogging.step]
      split
      · rename_i hphase
        exact h.settingsChanged hphase (hcareful hphase)
      · exact h
  | saveCounts =>
      simp only [KeyLogging.step]
      split
      · rename_i hidle
        refine ⟨fun hoff _ ↦ ?_, fun hoff _ ↦ h.file_save hidle hoff, h.agree⟩
        rw [← h.counts hoff hidle]
        exact KeyCounter.save_counts _
      · exact h
  | quit =>
      simp only [KeyLogging.step]
      split
      · rename_i hquiet
        exact private_start (h.file_save hquiet.1)
      · exact h
  | kill =>
      apply private_start
      intro hoff
      by_cases hphase : s.phase = .settingsSaved
      · apply hcareful hphase
        rw [← h.agree (by simp [hphase]), hoff]
      · exact h.file hoff hphase

theorem run (h : s.Private) {steps : List LoggingStep} (hsteps : s.CarefulRun steps) :
    (steps.foldl KeyLogging.step s).Private := by
  induction steps generalizing s with
  | nil => exact h
  | cons x steps ih => exact ih (h.step hsteps.1) hsteps.2

theorem leavesNoCounts (h : s.Private) : s.LeavesNoCounts := by
  intro hoff hidle _
  refine ⟨h.counts hoff hidle, h.file ?_ (by simp [hidle])⟩
  rw [h.agree (by simp [hidle]), hoff]

end Private

/-! ## Switching logging off -/

def switchLogging (on : Bool) : List LoggingStep :=
  [.writeFlag (some on), .saveSettings, .settingsChanged]

/-- The counts were saved before logging is switched off, and stay on disk. -/
theorem savedCounts_stay : ¬ ∀ (settingsFile : Option Bool) (steps : List LoggingStep),
    (steps.foldl step (start settingsFile none)).LeavesNoCounts := by
  intro h
  have hsaved := h none (switchLogging true ++ [.readFlag .a, .increment, .saveCounts] ++
    switchLogging false) rfl rfl rfl
  cases hsaved.2

/-- Whatever the settings are at first: if no count is stored then, and every
step is careful, switching logging off leaves no counts. -/
theorem leavesNoCounts_of_careful (settingsFile : Option Bool) {steps : List LoggingStep}
    (h : CarefulRun (start settingsFile none) steps) :
    (steps.foldl step (start settingsFile none)).LeavesNoCounts :=
  ((private_start fun _ ↦ rfl).run h).leavesNoCounts

/-- Logging is switched off before the counts are saved. -/
theorem leavesNoCounts_of_careful_unsaved :
    ((switchLogging true ++ [LoggingStep.readFlag .a, .increment] ++
      switchLogging false).foldl step (start none none)).LeavesNoCounts := by
  apply leavesNoCounts_of_careful
  simp [switchLogging, CarefulRun, Careful, step, start, KeyCounter.increment]

end KeyLogging

end Keybinder

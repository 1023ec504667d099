import Mathlib.Data.List.Induction
import Keybinder.KeyLogging

/-!
# Counts across restarts

A counter is saved when it is destroyed, and the next one loads the file.
The counts are the same unless the last thing that happened to them was a
`clear` that found them stored: `save` has nothing to do then, and the file
stays.
-/

namespace Keybinder

/-- The calls that change a counter; `save` is the one of the timer. -/
inductive CounterCall where
  | increment (key : KeyCode)
  | clear
  | save
  deriving DecidableEq

namespace KeyCounter

def call (c : KeyCounter) : CounterCall → KeyCounter
  | .increment key => c.increment key
  | .clear => c.clear
  | .save => c.save

/-- A new counter on the file, after some calls. -/
def after (file : Option KeyCounts) (calls : List CounterCall) : KeyCounter :=
  calls.foldl call (new file)

theorem after_concat (file : Option KeyCounts) (calls : List CounterCall) (x : CounterCall) :
    after file (calls ++ [x]) = (after file calls).call x := by
  simp [after]

/-- The destructor of the counter, and the constructor of the next one. -/
def restart (c : KeyCounter) : KeyCounter := .new c.save.file

def SurvivesRestart (c : KeyCounter) : Prop := c.restart.counts = c.counts

/-- A `clear` here empties the file too. -/
def ClearsFile (c : KeyCounter) : Prop := c.dirty = true ∨ c.file.getD [] = []

theorem save_file_getD (c : KeyCounter) :
    c.save.file.getD [] = if c.dirty then c.counts else c.file.getD [] := by
  unfold save
  split
  · cases hcounts : c.counts <;> rfl
  · rfl

/-- The counts survive exactly when they are stored whenever they are not
dirty. -/
theorem survivesRestart_iff_stored (c : KeyCounter) :
    c.SurvivesRestart ↔ (c.dirty = false → c.file.getD [] = c.counts) := by
  rw [SurvivesRestart, restart, new, save_file_getD]
  cases c.dirty <;> simp

theorem survivesRestart_increment (c : KeyCounter) (key : KeyCode) :
    (c.increment key).SurvivesRestart := by
  rw [survivesRestart_iff_stored]
  intro hclean
  cases hclean

theorem survivesRestart_save (c : KeyCounter) : c.save.SurvivesRestart ↔ c.SurvivesRestart := by
  rw [survivesRestart_iff_stored, survivesRestart_iff_stored, save_file_getD, save_counts]
  cases hdirty : c.dirty <;> simp [save, hdirty]

theorem survivesRestart_clear (c : KeyCounter) : c.clear.SurvivesRestart ↔ c.ClearsFile := by
  rw [clear, survivesRestart_save, survivesRestart_iff_stored, ClearsFile]
  cases hdirty : c.dirty <;> simp

/-- Counts that are not dirty are stored, or they were cleared. -/
def StoredOrCleared (c : KeyCounter) : Prop :=
  c.dirty = false → c.counts = [] ∨ c.file.getD [] = c.counts

theorem StoredOrCleared.save {c : KeyCounter} (h : c.StoredOrCleared) :
    c.save.StoredOrCleared := by
  intro _
  rw [save_counts, save_file_getD]
  cases hdirty : c.dirty with
  | true => exact .inr rfl
  | false => exact h hdirty

theorem StoredOrCleared.call {c : KeyCounter} (h : c.StoredOrCleared) (x : CounterCall) :
    (c.call x).StoredOrCleared := by
  cases x with
  | increment key =>
      intro hclean
      cases hclean
  | clear => exact StoredOrCleared.save fun _ ↦ .inl rfl
  | save => exact h.save

theorem storedOrCleared_after (file : Option KeyCounts) (calls : List CounterCall) :
    (after file calls).StoredOrCleared := by
  induction calls using List.reverseRecOn with
  | nil =>
      intro hclean
      cases hclean
  | append_singleton calls x ih =>
      rw [after_concat]
      exact ih.call x

theorem StoredOrCleared.survives {c : KeyCounter} (h : c.StoredOrCleared) (hclears : c.ClearsFile) :
    c.SurvivesRestart := by
  rw [survivesRestart_iff_stored]
  intro hclean
  have hempty : c.file.getD [] = [] := hclears.resolve_left (by simp [hclean])
  rcases h hclean with hcounts | hstored
  · rw [hempty, hcounts]
  · exact hstored

/-- Every `clear` that leaves the file behind is followed by an increment. -/
def ClearsMadeGood (file : Option KeyCounts) (calls : List CounterCall) : Prop :=
  ∀ before rest, calls = before ++ .clear :: rest →
    (after file before).ClearsFile ∨ ∃ key, .increment key ∈ rest

section

variable {file : Option KeyCounts} {calls : List CounterCall}

theorem clearsMadeGood_increment (key : KeyCode) :
    ClearsMadeGood file (calls ++ [.increment key]) := by
  intro before rest hsplit
  rcases List.eq_nil_or_concat' rest with rfl | ⟨rest, x, rfl⟩
  · have hlast := (List.append_inj' hsplit rfl).2
    cases hlast
  · rw [← List.cons_append, ← List.append_assoc] at hsplit
    have hlast := (List.append_inj' hsplit rfl).2
    obtain rfl : CounterCall.increment key = x := by simpa using hlast
    exact .inr ⟨key, by simp⟩

/-- Another call adds only itself to the condition. -/
theorem clearsMadeGood_concat {x : CounterCall} (hx : ∀ key, x ≠ .increment key) :
    ClearsMadeGood file (calls ++ [x]) ↔
      ClearsMadeGood file calls ∧ (x = .clear → (after file calls).ClearsFile) := by
  constructor
  · intro h
    refine ⟨fun before rest hsplit ↦ ?_, ?_⟩
    · rcases h before (rest ++ [x]) (by simp [hsplit]) with hclears | ⟨key, hkey⟩
      · exact .inl hclears
      · refine .inr ⟨key, ?_⟩
        rcases List.mem_append.mp hkey with hkey | hkey
        · exact hkey
        · exact (hx key (List.mem_singleton.mp hkey).symm).elim
    · rintro rfl
      rcases h calls [] rfl with hclears | ⟨key, hkey⟩
      · exact hclears
      · simp at hkey
  · rintro ⟨hcalls, hlast⟩ before rest hsplit
    rcases List.eq_nil_or_concat' rest with rfl | ⟨rest, y, rfl⟩
    · obtain ⟨rfl, hclear⟩ := List.append_inj' hsplit rfl
      exact .inl (hlast (by simpa using hclear))
    · rw [← List.cons_append, ← List.append_assoc] at hsplit
      obtain ⟨hbefore, -⟩ := List.append_inj' hsplit rfl
      rcases hcalls before rest hbefore with hclears | ⟨key, hkey⟩
      · exact .inl hclears
      · exact .inr ⟨key, List.mem_append_left _ hkey⟩

end

/-- The file that was saved stays when the counts are cleared. -/
theorem clearAfterSave_lost : ¬ ∀ (file : Option KeyCounts) (calls : List CounterCall),
    (after file calls).SurvivesRestart := by
  intro h
  have hsurvives := h none [.increment .a, .save, .clear]
  cases hsurvives

/-- After any history the counts survive a restart exactly when every `clear`
that left the file behind was followed by an increment. -/
theorem survivesRestart_iff (file : Option KeyCounts) (calls : List CounterCall) :
    (after file calls).SurvivesRestart ↔ ClearsMadeGood file calls := by
  induction calls using List.reverseRecOn with
  | nil =>
      refine iff_of_true ?_ fun before rest hsplit ↦ by simp at hsplit
      rw [survivesRestart_iff_stored]
      intro hclean
      cases hclean
  | append_singleton calls x ih =>
      rw [after_concat]
      cases x with
      | increment key =>
          exact iff_of_true (survivesRestart_increment _ key) (clearsMadeGood_increment key)
      | save =>
          rw [call, survivesRestart_save, ih, clearsMadeGood_concat (by simp)]
          simp
      | clear =>
          rw [call, survivesRestart_clear, clearsMadeGood_concat (by simp), ← ih]
          constructor
          · intro hclears
            exact ⟨(storedOrCleared_after file calls).survives hclears, fun _ ↦ hclears⟩
          · rintro ⟨-, hclears⟩
            exact hclears rfl

end KeyCounter

end Keybinder

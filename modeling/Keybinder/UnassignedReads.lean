import Keybinder.StateMachine

/-!
# What an unassigned index is read as

The last trigger of a sequence leaves `next_state_idx` unassigned on a new
edge.  The index is then looked up once more and dropped, so what it happens
to hold decides only whether `states.at` throws.
-/

namespace Keybinder

/-- How a read of the index can end the generation. -/
def UnassignedRead.Bad (unassigned : UnassignedRead) (e : Exit) : Prop :=
  ∃ b : Builder, homeStateIdx < b.states.length ∧
    ((unassigned b = none ∧ e = .unassigned) ∨
      ∃ idx, unassigned b = some idx ∧ b.states.length ≤ idx ∧ e = .outOfRange)

theorem UnassignedRead.Valid.not_bad {unassigned : UnassignedRead} (h : unassigned.Valid)
    (e : Exit) : ¬ unassigned.Bad e := by
  rintro ⟨b, hhome, hread⟩
  obtain ⟨idx, hidx, hlt⟩ := h b hhome
  rcases hread with ⟨hnone, -⟩ | ⟨idx', hidx', hle, -⟩
  · rw [hidx] at hnone
    cases hnone
  · obtain rfl : idx = idx' := Option.some.inj (hidx.symm.trans hidx')
    omega

theorem UnassignedRead.Bad.ne_nullopt {unassigned : UnassignedRead} {e : Exit}
    (h : unassigned.Bad e) : e ≠ .nullopt := by
  obtain ⟨b, -, ⟨-, rfl⟩ | ⟨idx, -, -, rfl⟩⟩ := h <;> simp

theorem UnassignedRead.Bad.of_checked {e : Exit} (h : checked.Bad e) : e = .unassigned := by
  obtain ⟨b, -, ⟨-, rfl⟩ | ⟨idx, hidx, -, -⟩⟩ := h
  · rfl
  · cases hidx

/-- A sequence of the layer ends with a trigger that no wait follows. -/
def Layer.EndsOnTrigger (layer : Layer) : Prop :=
  ∃ s ∈ layer.sequenceRemappings, ∃ pass ∈ loopPasses [] s.sequence, pass.isLast = true

section Pass

variable {unassigned : UnassignedRead} {H : QHash} {s : SequenceTrigger} {owner : ℕ}
  {b b' : Builder} {currentStateIdx : ℕ} {pass : LoopPass} {inputEvent : InputEvent}

theorem getElem?_of_vectorAt {α : Type} {v : List α} {i : ℕ} {a : α}
    (h : vectorAt v i = .ok a) : v[i]? = some a := by
  rw [vectorAt] at h
  split at h
  · cases h
    assumption
  · cases h

/-- `next_state_idx` is left unassigned by the last trigger of a sequence,
on a new edge. -/
theorem connectTrigger_unassigned
    (h : connectTrigger H s owner b currentStateIdx pass inputEvent = .ok (b', none)) :
    pass.isLast = true ∧ b'.states.length = b.states.length ∧
      currentStateIdx < b.states.length ∧
      ∀ state, b.states[currentStateIdx]? = some state → H.find state.edges inputEvent = none := by
  obtain ⟨state, hstate, h⟩ := Exits.bind_eq_ok.mp h
  have hsome := getElem?_of_vectorAt hstate
  cases hfind : H.find state.edges inputEvent with
  | some existingTransition =>
      simp only [hfind] at h
      split at h
      · cases h
      · obtain ⟨newState, hnew, h⟩ := Exits.bind_eq_ok.mp h
        obtain ⟨metadata, hmetadata, h⟩ := Exits.bind_eq_ok.mp h
        split at h
        · cases h
        · simp only [pure, Except.pure] at h
          split at h <;> cases h
  | none =>
      simp only [hfind] at h
      split at h
      · rename_i hlast
        cases h
        refine ⟨hlast, Builder.length_setEdge .., ?_, fun state' hstate' ↦ ?_⟩
        · exact (List.getElem?_eq_some_iff.mp hsome).1
        · rw [hsome] at hstate'
          cases hstate'
          exact hfind
      · cases h

/-- The pass is as if the index were read as HOME, or it is the last one and
reads it. -/
theorem insertTriggerReading_eq_or (unassigned : UnassignedRead) (H : QHash)
    (s : SequenceTrigger) (owner : ℕ) (b : Builder) (currentStateIdx : ℕ) (pass : LoopPass) :
    (∃ inputEvent b', pass.trigger.triggerToInput = some inputEvent ∧
      connectTrigger H s owner b currentStateIdx pass inputEvent = .ok (b', none) ∧
      insertTriggerReading unassigned H s owner (b, currentStateIdx) pass =
        (assigned (unassigned b') >>= fun idx ↦ attachTimer s owner b' idx pass)) ∨
    insertTriggerReading unassigned H s owner (b, currentStateIdx) pass =
      insertTrigger H s owner (b, currentStateIdx) pass := by
  rw [insertTrigger_eq, insertTriggerReading]
  cases hinput : pass.trigger.triggerToInput with
  | none => exact .inr rfl
  | some inputEvent =>
      simp only [optionalValue, Exits.ok_bind]
      cases hconnect : connectTrigger H s owner b currentStateIdx pass inputEvent with
      | error e => exact .inr rfl
      | ok connected =>
          obtain ⟨b', nextStateIdx⟩ := connected
          cases nextStateIdx with
          | none => exact .inl ⟨inputEvent, b', rfl, hconnect, rfl⟩
          | some idx => exact .inr rfl

/-- Without a wait the index of the next state is only looked up. -/
theorem attachTimer_of_timer_none (htimer : pass.timer = none) {idx : ℕ}
    (hidx : idx < b.states.length) : attachTimer s owner b idx pass = .ok (b, idx) := by
  simp [attachTimer, vectorAt, List.getElem?_eq_getElem hidx, htimer]

theorem attachTimer_of_le {idx : ℕ} (hidx : b.states.length ≤ idx) :
    attachTimer s owner b idx pass = .error .outOfRange := by
  simp [attachTimer, vectorAt, List.getElem?_eq_none hidx]

theorem insertTriggerReading_eq_of_not_isLast (hlast : pass.isLast = false)
    (c : Builder × ℕ) : insertTriggerReading unassigned H s owner c pass =
      insertTrigger H s owner c pass := by
  rcases insertTriggerReading_eq_or unassigned H s owner c.1 c.2 pass with
    ⟨inputEvent, b', -, hconnect, -⟩ | h
  · rw [(connectTrigger_unassigned hconnect).1] at hlast
    cases hlast
  · exact h

/-- The vectors are the same after the pass, whatever the index was read
as. -/
theorem fst_insertTriggerReading (hlast : pass.isLast = true) (c : Builder × ℕ) :
    Exits.EqUnless unassigned.Bad
      (insertTriggerReading unassigned H s owner c pass >>= fun d ↦ pure d.1)
      (insertTrigger H s owner c pass >>= fun d ↦ pure d.1) := by
  obtain ⟨b, q⟩ := c
  rcases insertTriggerReading_eq_or unassigned H s owner b q pass with
    ⟨inputEvent, b', hinput, hconnect, h⟩ | h
  · obtain ⟨-, hlength, hlt, -⟩ := connectTrigger_unassigned hconnect
    have htimer := (LoopPass.timer_of_isLast hlast).1
    have hhome : homeStateIdx < b'.states.length := by
      rw [hlength]
      exact Nat.lt_of_le_of_lt (Nat.zero_le q) hlt
    have hsame : insertTrigger H s owner (b, q) pass = .ok (b', homeStateIdx) := by
      rw [insertTrigger_eq, hinput, optionalValue, Exits.ok_bind, hconnect]
      exact attachTimer_of_timer_none htimer hhome
    rw [h, hsame]
    cases hread : unassigned b' with
    | none => exact .inl ⟨.unassigned, ⟨b', hhome, .inl ⟨hread, rfl⟩⟩, rfl⟩
    | some idx =>
        rcases Nat.lt_or_ge idx b'.states.length with hidx | hidx
        · right
          simp [assigned, attachTimer_of_timer_none htimer hidx]
        · refine .inl ⟨.outOfRange, ⟨b', hhome, .inr ⟨idx, hread, hidx, rfl⟩⟩, ?_⟩
          simp [assigned, attachTimer_of_le hidx]
  · rw [h]
    exact .refl _

end Pass

section Loops

variable (unassigned : UnassignedRead) (H : QHash)

/-- Only the last pass can read the index, and no pass comes after it. -/
theorem fst_foldlM_insertTriggerReading (s : SequenceTrigger) (owner : ℕ)
    {passes : List LoopPass} (hpasses : passes.Pairwise fun pass _ ↦ pass.final = false)
    (c : Builder × ℕ) :
    Exits.EqUnless (fun e ↦ unassigned.Bad e ∧ ∃ pass ∈ passes, pass.isLast = true)
      (passes.foldlM (insertTriggerReading unassigned H s owner) c >>= fun d ↦ pure d.1)
      (passes.foldlM (insertTrigger H s owner) c >>= fun d ↦ pure d.1) := by
  induction hpasses generalizing c with
  | nil => exact .refl _
  | @cons pass passes hpass hpasses ih =>
      rw [List.foldlM_cons, List.foldlM_cons, bind_assoc, bind_assoc]
      cases hlast : pass.isLast with
      | false =>
          rw [insertTriggerReading_eq_of_not_isLast hlast]
          refine (Exits.EqUnless.refl _).bind fun c ↦ (ih c).mono ?_
          rintro e ⟨he, pass', hmem, hlast'⟩
          exact ⟨he, pass', List.mem_cons_of_mem _ hmem, hlast'⟩
      | true =>
          cases passes with
          | nil =>
              refine (fst_insertTriggerReading hlast c).mono fun e he ↦ ?_
              exact ⟨he, pass, List.mem_cons_self, hlast⟩
          | cons pass' passes =>
              have hfinal := hpass pass' List.mem_cons_self
              rw [(LoopPass.timer_of_isLast hlast).2] at hfinal
              cases hfinal

theorem insertSequenceReading_eqUnless (b : Builder) (owned : SequenceTrigger × ℕ) :
    Exits.EqUnless
      (fun e ↦ unassigned.Bad e ∧ ∃ pass ∈ loopPasses [] owned.1.sequence, pass.isLast = true)
      (insertSequenceReading unassigned H b owned) (insertSequence H b owned) :=
  fst_foldlM_insertTriggerReading unassigned H owned.1 owned.2 (pairwise_loopPasses [] _) _

/-- What the index is read as decides only whether its use ends the
generation, and only in a layer with a sequence that ends on a trigger. -/
theorem generateStatesReading_eqUnless (layer : Layer) :
    Exits.EqUnless (fun e ↦ unassigned.Bad e ∧ layer.EndsOnTrigger)
      (generateStatesReading unassigned H layer) (generateStates H layer) := by
  rw [generateStates_eq, generateStatesReading_eq]
  refine (Exits.EqUnless.foldlM ?_ _).bind fun b ↦ .refl _
  rintro b ⟨s, owner⟩ hs
  refine (insertSequenceReading_eqUnless unassigned H b (s, owner)).mono ?_
  rintro e ⟨he, pass, hpass, hlast⟩
  exact ⟨he, s, List.fst_mem_of_mem_zipIdx hs, pass, hpass, hlast⟩

/-- A valid read does no harm. -/
theorem generateStatesReading_of_valid {layer : Layer}
    (hread : layer.EndsOnTrigger → unassigned.Valid) :
    generateStatesReading unassigned H layer = generateStates H layer :=
  (generateStatesReading_eqUnless unassigned H layer).eq_of_not
    fun e he ↦ (hread he.2).not_bad e he.1

end Loops

end Keybinder

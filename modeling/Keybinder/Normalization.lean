import Keybinder.Construction
import Keybinder.Library.Merging

/-!
# Normalizing waits

What `normailze_sequences` is written for: misplaced waits reject the
profile, and neighbouring waits of one kind become one.  The visitors that
do so take references to mutable waits, and the elements visited are
`const`; so every list of sequences is returned as it is, and normalized
only if it was so before.
-/

namespace Keybinder

namespace AdvancedTrigger

/-- Two waits of one kind, as one wait. -/
def join : AdvancedTrigger → AdvancedTrigger → Option AdvancedTrigger
  | .minimumWait a, .minimumWait b => some (.minimumWait (a + b))
  | .maximumWait a, .maximumWait b => some (.maximumWait (a + b))
  | _, _ => none

/-- A minimum and a maximum wait, in either order. -/
def Clash : AdvancedTrigger → AdvancedTrigger → Prop
  | .minimumWait _, .maximumWait _ => True
  | .maximumWait _, .minimumWait _ => True
  | _, _ => False

/-- One of two neighbours is a key or app trigger. -/
def Spaced (t u : AdvancedTrigger) : Prop :=
  t.triggerToInput.isSome = true ∨ u.triggerToInput.isSome = true

variable {t u v : AdvancedTrigger}

theorem spaced_iff : Spaced t u ↔ join t u = none ∧ ¬ Clash t u := by
  cases t <;> cases u <;> simp [Spaced, triggerToInput, join, Clash]

theorem join_eq_some (h : join t u = some v) :
    (∃ a b, t = .minimumWait a ∧ u = .minimumWait b ∧ v = .minimumWait (a + b)) ∨
      ∃ a b, t = .maximumWait a ∧ u = .maximumWait b ∧ v = .maximumWait (a + b) := by
  cases t <;> cases u <;> simp_all [join]

theorem keeps_join : Merging.Keeps join fun t u ↦ join t u = none where
  left htu x hx := by
    obtain ⟨a, b, rfl, rfl, rfl⟩ | ⟨a, b, rfl, rfl, rfl⟩ := join_eq_some htu
    all_goals cases x <;> simp_all [join]
  right htu x hx := by
    obtain ⟨a, b, rfl, rfl, rfl⟩ | ⟨a, b, rfl, rfl, rfl⟩ := join_eq_some htu
    all_goals cases x <;> simp_all [join]

theorem keeps_clash : Merging.Keeps join fun t u ↦ ¬ Clash t u where
  left htu x hx := by
    obtain ⟨a, b, rfl, rfl, rfl⟩ | ⟨a, b, rfl, rfl, rfl⟩ := join_eq_some htu
    all_goals cases x <;> simp_all [Clash]
  right htu x hx := by
    obtain ⟨a, b, rfl, rfl, rfl⟩ | ⟨a, b, rfl, rfl, rfl⟩ := join_eq_some htu
    all_goals cases x <;> simp_all [Clash]

theorem join_waits (h : join t u = some v) :
    t.triggerToInput = none ∧ u.triggerToInput = none ∧ v.triggerToInput = none := by
  obtain ⟨a, b, rfl, rfl, rfl⟩ | ⟨a, b, rfl, rfl, rfl⟩ := join_eq_some h
  all_goals exact ⟨rfl, rfl, rfl⟩

end AdvancedTrigger

namespace SequenceTrigger

/-- The sequence begins with a wait, or a minimum wait stands next to a
maximum wait. -/
def Misplaced (s : SequenceTrigger) : Prop :=
  (∃ t ∈ s.sequence.head?, t.triggerToInput = none) ∨
    ∃ t u, [t, u] <:+: s.sequence ∧ t.Clash u

/-- The sequence does not begin with a wait and has no two neighbouring
waits. -/
structure Plain (s : SequenceTrigger) : Prop where
  opened : ∀ t ∈ s.sequence.head?, t.triggerToInput.isSome = true
  spaced : s.sequence.IsChain AdvancedTrigger.Spaced

/-- Every block of waits of one kind is replaced by the sum of the block. -/
def mergeWaits (s : SequenceTrigger) : SequenceTrigger :=
  { s with sequence := Merging.merge AdvancedTrigger.join s.sequence }

variable {s : SequenceTrigger}

/-! ## What merging waits does -/

theorem mergeWaits_inputs (s : SequenceTrigger) :
    s.mergeWaits.sequence.filter (·.triggerToInput.isSome) =
      s.sequence.filter (·.triggerToInput.isSome) := by
  apply Merging.filter_merge
  intro t u v h
  simp [AdvancedTrigger.join_waits h]

/-- A block of waits that is followed by no wait of its kind and preceded by
none. -/
theorem mergeWaits_block {wait : ℕ → AdvancedTrigger}
    (hwait : wait = .minimumWait ∨ wait = .maximumWait) {before rest : List AdvancedTrigger}
    {amounts : List ℕ} (hne : amounts ≠ [])
    (hbefore : ∀ t ∈ before.getLast?, t.join (wait 0) = none)
    (hrest : ∀ t ∈ rest.head?, (wait 0).join t = none) :
    Merging.merge AdvancedTrigger.join (before ++ (amounts.map wait ++ rest)) =
      Merging.merge AdvancedTrigger.join before ++
        (wait amounts.sum :: Merging.merge AdvancedTrigger.join rest) := by
  have hjoin : ∀ a b, (wait a).join (wait b) = some (wait (a + b)) := by
    rcases hwait with rfl | rfl <;> exact fun a b ↦ rfl
  have hkind : ∀ a t, ((wait a).join t = none ↔ (wait 0).join t = none) ∧
      (t.join (wait a) = none ↔ t.join (wait 0) = none) := by
    rcases hwait with rfl | rfl <;> intro a t <;> cases t <;> simp [AdvancedTrigger.join]
  rw [Merging.merge_append AdvancedTrigger.keeps_join, Merging.merge_append
    AdvancedTrigger.keeps_join, Merging.merge_block hjoin hne, List.singleton_append]
  · intro t ht u hu
    obtain ⟨a, -, rfl⟩ := List.mem_map.mp (List.mem_of_getLast? ht)
    exact (hkind a u).1.mpr (hrest u hu)
  · intro t ht u hu
    have hmem : u ∈ (amounts.map wait).head? := by
      cases amounts with
      | nil => exact (hne rfl).elim
      | cons a amounts => simpa using hu
    obtain ⟨a, -, rfl⟩ := List.mem_map.mp (List.mem_of_head? hmem)
    exact (hkind a t).2.mpr (hbefore t ht)

theorem mergeWaits_mergeWaits (s : SequenceTrigger) : s.mergeWaits.mergeWaits = s.mergeWaits := by
  simp [mergeWaits, Merging.merge_merge AdvancedTrigger.keeps_join]

theorem isChain_of_not_misplaced (h : ¬ s.Misplaced) :
    s.sequence.IsChain fun t u ↦ ¬ t.Clash u := by
  rw [List.isChain_iff_forall_rel_of_append_cons_cons]
  intro t u before rest heq hclash
  refine h (.inr ⟨t, u, ⟨before, rest, ?_⟩, hclash⟩)
  simp [heq]

theorem plain_mergeWaits (h : ¬ s.Misplaced) : s.mergeWaits.Plain where
  opened := by
    have hhead : ∀ t ∈ s.sequence.head?, t.triggerToInput.isSome = true := by
      intro t ht
      rw [Option.isSome_iff_ne_none]
      exact fun hnone ↦ h (.inl ⟨t, ht, hnone⟩)
    cases hs : s.sequence with
    | nil => simp [mergeWaits, hs]
    | cons t rest =>
        have ht := hhead t (by simp [hs])
        have hpush : Merging.push AdvancedTrigger.join t (Merging.merge AdvancedTrigger.join rest) =
            t :: Merging.merge AdvancedTrigger.join rest := by
          apply Merging.push_of_apart
          intro u _
          by_contra hne
          obtain ⟨v, hv⟩ := Option.ne_none_iff_exists'.mp hne
          simp [(AdvancedTrigger.join_waits hv).1] at ht
        simpa [mergeWaits, hs, hpush] using ht
  spaced := by
    have hclash := Merging.isChain_merge AdvancedTrigger.keeps_clash (isChain_of_not_misplaced h)
    have happart := Merging.apart_merge AdvancedTrigger.keeps_join s.sequence
    refine (List.isChain_iff_forall_rel_of_append_cons_cons.mpr ?_)
    intro t u before rest heq
    rw [List.isChain_iff_forall_rel_of_append_cons_cons] at hclash
    rw [Merging.Apart, List.isChain_iff_forall_rel_of_append_cons_cons] at happart
    exact AdvancedTrigger.spaced_iff.mpr ⟨happart heq, hclash heq⟩

/-- What a sequence whose waits are not misplaced is to become: a plain one
with the same triggers, which merging leaves as it is, and in which each block
of waits of one kind has become their sum. -/
theorem mergeWaits_spec (h : ¬ s.Misplaced) :
    s.mergeWaits.Plain ∧ s.mergeWaits.mergeWaits = s.mergeWaits ∧
      s.mergeWaits.sequence.filter (·.triggerToInput.isSome) =
        s.sequence.filter (·.triggerToInput.isSome) ∧
      ∀ (wait : ℕ → AdvancedTrigger) (before rest : List AdvancedTrigger) (amounts : List ℕ),
        wait = .minimumWait ∨ wait = .maximumWait → amounts ≠ [] →
        s.sequence = before ++ (amounts.map wait ++ rest) →
        (∀ t ∈ before.getLast?, t.join (wait 0) = none) →
        (∀ t ∈ rest.head?, (wait 0).join t = none) →
        s.mergeWaits.sequence = Merging.merge AdvancedTrigger.join before ++
          (wait amounts.sum :: Merging.merge AdvancedTrigger.join rest) := by
  refine ⟨plain_mergeWaits h, mergeWaits_mergeWaits s, mergeWaits_inputs s, ?_⟩
  intro wait before rest amounts hwait hne hsequence hbefore hrest
  rw [mergeWaits, hsequence]
  exact mergeWaits_block hwait hne hbefore hrest

namespace Plain

theorem apart (h : s.Plain) : Merging.Apart AdvancedTrigger.join s.sequence :=
  h.spaced.imp fun _ _ htu ↦ (AdvancedTrigger.spaced_iff.mp htu).1

theorem mergeWaits_eq (h : s.Plain) : s.mergeWaits = s := by
  simp [mergeWaits, Merging.merge_eq_self h.apart]

theorem not_misplaced (h : s.Plain) : ¬ s.Misplaced := by
  rintro (⟨t, ht, hnone⟩ | ⟨t, u, hinfix, hclash⟩)
  · simpa [hnone] using h.opened t ht
  · have hchain := h.spaced.infix hinfix
    rw [List.isChain_pair] at hchain
    exact (AdvancedTrigger.spaced_iff.mp hchain).2 hclash

end Plain

end SequenceTrigger

/-- What the normalization of a list of sequences is to do. -/
structure NormalizesWaits (ss : List SequenceTrigger) : Prop where
  rejects : normailzeSequences ss = none ↔ ∃ s ∈ ss, s.Misplaced
  merges : (∀ s ∈ ss, ¬ s.Misplaced) →
    normailzeSequences ss = some (ss.map SequenceTrigger.mergeWaits)
  plain : ∀ ss', normailzeSequences ss = some ss' → ∀ s ∈ ss', s.Plain
  stable : (normailzeSequences ss).bind normailzeSequences = normailzeSequences ss

/-- Waits are normalized exactly when there is nothing to normalize. -/
theorem normalizesWaits_iff (ss : List SequenceTrigger) :
    NormalizesWaits ss ↔ ∀ s ∈ ss, s.Plain := by
  have hsame : ∀ ss, normailzeSequences ss = some ss := normailzeSequences_eq
  constructor
  · exact fun h ↦ h.plain ss (hsame ss)
  · intro hplain
    have hmerged : ss.map SequenceTrigger.mergeWaits = ss :=
      (List.map_congr_left fun s hs ↦ (hplain s hs).mergeWaits_eq).trans (List.map_id' ss)
    exact {
      rejects := by
        simp only [hsame, reduceCtorEq, false_iff]
        rintro ⟨s, hs, hmisplaced⟩
        exact (hplain s hs).not_misplaced hmisplaced
      merges := by
        intro _
        rw [hmerged, hsame]
      plain := by
        intro ss' h
        rw [hsame] at h
        exact Option.some.inj h ▸ hplain
      stable := by simp [hsame] }

/-- Two minimum waits one after the other. -/
def twoWaits : SequenceTrigger :=
  ⟨.capture, [.keyPress .a, .minimumWait 1, .minimumWait 2], [.pressKey .b]⟩

theorem twoWaits_kept : ¬ NormalizesWaits [twoWaits] := by
  intro h
  have hchain := (h.plain [twoWaits] (by decide) twoWaits (by simp)).spaced
  simp [twoWaits, AdvancedTrigger.Spaced, AdvancedTrigger.triggerToInput] at hchain

end Keybinder

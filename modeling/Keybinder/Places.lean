import Keybinder.StateMachine

/-!
# Places

A place is what has been matched since HOME: the symbols of the triggers and
the minimum waits that ran out, in order.  Inserting a sequence puts its
triggers at places, one after the other; a place that another sequence has
already led home is left for HOME.  The list of all placements describes
the generated machine without vectors and indices.
-/

namespace Keybinder

inductive Token where
  | sym (s : Symbol)
  | wait
  deriving DecidableEq

abbrev Place := List Token

/-- One trigger of one sequence, with the place `src` where it is read. -/
structure Occurrence where
  owner : ℕ
  sequence : SequenceTrigger
  pass : LoopPass
  input : InputEvent
  src : Place
  deriving DecidableEq

/-- An occurrence that has been put at its place.  `stored` is the key of
the edge that reads it, which is its own event when the placement is
`fresh`, that is, when it creates the edge; `tgt` is the place after it. -/
structure Placement extends Occurrence where
  stored : InputEvent
  fresh : Bool
  tgt : Place
  deriving DecidableEq

abbrev Trie := List Placement

namespace Placement

/-- The metadata of the state that the edge of a fresh placement leads to. -/
def metadata (x : Placement) : StateMetadata :=
  if x.pass.isLast then generateHomeState.2 else ⟨x.pass.timer, x.sequence.behavior⟩

/-- HOME counts as a Default state. -/
theorem notLast_of_metadata {x : Placement} {behavior : SequenceBehavior}
    (hbehavior : x.metadata.behavior = behavior)
    (hends : x.pass.isLast = true → behavior ≠ .default) : x.pass.isLast = false := by
  by_contra hlast
  have hlast : x.pass.isLast = true := by simpa using hlast
  apply hends hlast
  rw [← hbehavior]
  simp [metadata, hlast, generateHomeState]

theorem metadata_of_notLast {x : Placement} (h : x.pass.isLast = false) :
    x.metadata = ⟨x.pass.timer, x.sequence.behavior⟩ := if_neg (by simp [h])

/-- Where the timer leads when this placement is the first with a wait. -/
def timerPlace (x : Placement) : Place := if x.pass.midWait then x.tgt ++ [.wait] else []

theorem timerPlace_of_midWait {x : Placement} (h : x.pass.midWait = true) :
    x.timerPlace = x.tgt ++ [.wait] := if_pos h

theorem timerPlace_of_not_midWait {x : Placement} (h : x.pass.midWait = false) :
    x.timerPlace = [] := if_neg (by simp [h])

end Placement

namespace Trie

/-- The placements that created the edges of a place. -/
def edgesAt (T : Trie) (p : Place) : List Placement :=
  T.filter fun x ↦ x.fresh && decide (x.src = p)

/-- The first placement with a wait that leads to a place. -/
def timedAt (T : Trie) (p : Place) : Option Placement :=
  T.find? fun x ↦ x.pass.timer.isSome && decide (x.tgt = p)

/-- The placement that created the state of a place. -/
def creatorAt (T : Trie) (p : Place) : Option Placement :=
  T.find? fun x ↦ x.fresh && decide (x.tgt = p)

/-- Where a sequence goes on after its placement `x`. -/
def next (T : Trie) (x : Placement) : Place :=
  match x.pass.timer with
  | some (.minimumWait _) =>
      match T.timedAt x.tgt with
      | some y => y.timerPlace
      | none => if x.pass.final then x.tgt else x.tgt ++ [.wait]
  | _ => x.tgt

/-- Puts a trigger at a place, with the compatibility checks of the source. -/
def put (H : QHash) (T : Trie) (s : SequenceTrigger) (owner : ℕ) (p : Place)
    (pass : LoopPass) : Except Exit Placement := do
  let input ← optionalValue pass.trigger.triggerToInput
  match H.find ((T.edgesAt p).map fun y ↦ (y.stored, y)) input with
  | some y =>
      if pass.isLast then throw .nullopt
      if y.metadata.behavior ≠ s.behavior then throw .nullopt
      if y.metadata.timer.isSome ∧ pass.timer.isSome ∧ y.metadata.timer ≠ pass.timer then
        throw .nullopt
      return ⟨⟨owner, s, pass, input, p⟩, y.stored, false, y.tgt⟩
  | none =>
      return ⟨⟨owner, s, pass, input, p⟩, input, true,
        if pass.isLast then [] else p ++ [.sym input.symbol]⟩

def putPass (H : QHash) (s : SequenceTrigger) (owner : ℕ) :
    Trie × Place → LoopPass → Except Exit (Trie × Place)
  | (T, p), pass => do
      let x ← T.put H s owner p pass
      return (T ++ [x], T.next x)

def putSequence (H : QHash) (T : Trie) : SequenceTrigger × ℕ → Except Exit Trie
  | (s, owner) => do
      let (T, _) ← (loopPasses [] s.sequence).foldlM (putPass H s owner) (T, [])
      return T

end Trie

/-- The placements of all sequences of a layer, in order. -/
def Layer.trie (H : QHash) (layer : Layer) : Except Exit Trie :=
  layer.sequenceRemappings.zipIdx.foldlM (Trie.putSequence H) []

namespace Trie

variable {bad : Exit}

/-- A trigger that is none is not found, and one that does not fit rejects
the layer. -/
theorem put_avoids (hnull : .nullopt ≠ bad) (H : QHash) (T : Trie) (s : SequenceTrigger)
    (owner : ℕ) (p : Place) {pass : LoopPass}
    (haccess : pass.trigger.triggerToInput = none → .badOptionalAccess ≠ bad) :
    Exits.Avoids bad (fun _ ↦ True) (T.put H s owner p pass) := by
  unfold put optionalValue
  cases hinput : pass.trigger.triggerToInput with
  | none => exact haccess hinput
  | some input =>
      simp only [Exits.ok_bind]
      split
      · split
        · exact hnull
        · split
          · exact hnull
          · split
            · exact hnull
            · trivial
      · trivial

theorem trie_avoids (hnull : .nullopt ≠ bad) (H : QHash) (layer : Layer)
    (haccess : ∀ s ∈ layer.sequenceRemappings, ∀ pass ∈ loopPasses [] s.sequence,
      pass.trigger.triggerToInput = none → .badOptionalAccess ≠ bad) :
    Exits.Avoids bad (fun _ ↦ True) (layer.trie H) := by
  refine Exits.Avoids.foldlM ?_ trivial
  rintro T ⟨s, owner⟩ hs -
  have hs := List.mem_of_getElem? (List.mem_zipIdx_iff_getElem?.mp hs)
  refine Exits.Avoids.bind (P := fun _ ↦ True) ?_ fun _ _ ↦ trivial
  refine Exits.Avoids.foldlM ?_ trivial
  rintro ⟨T', p⟩ pass hpass -
  exact (put_avoids hnull H T' s owner p (haccess s hs pass hpass)).bind fun _ _ ↦ trivial

end Trie

/-! ## What a placement can look like -/

namespace Trie

variable {H : QHash} {T : Trie} {s : SequenceTrigger} {owner : ℕ} {p : Place}
  {pass : LoopPass} {x : Placement}

theorem mem_edgesAt {y : Placement} : y ∈ T.edgesAt p ↔ y ∈ T ∧ y.fresh = true ∧ y.src = p := by
  simp [edgesAt]

theorem timedAt_eq_some (h : T.timedAt p = some x) :
    x ∈ T ∧ x.pass.timer.isSome = true ∧ x.tgt = p := by
  have hx := List.find?_some h
  simp only [Bool.and_eq_true, decide_eq_true_eq] at hx
  exact ⟨List.mem_of_find?_eq_some h, hx⟩

theorem creatorAt_eq_some (h : T.creatorAt p = some x) :
    x ∈ T ∧ x.fresh = true ∧ x.tgt = p := by
  have hx := List.find?_some h
  simp only [Bool.and_eq_true, decide_eq_true_eq] at hx
  exact ⟨List.mem_of_find?_eq_some h, hx⟩

/-- A placement either shares the edge of an earlier one or creates its own. -/
inductive Puts (H : QHash) (T : Trie) (s : SequenceTrigger) (owner : ℕ) (p : Place)
    (pass : LoopPass) : Placement → Prop
  | shared {input : InputEvent} {y : Placement}
      (hinput : pass.trigger.triggerToInput = some input)
      (hfind : H.find ((T.edgesAt p).map fun y ↦ (y.stored, y)) input = some y)
      (hmem : y ∈ T.edgesAt p) (heq : y.stored.eq input = true)
      (hlast : pass.isLast = false) (hbehavior : y.metadata.behavior = s.behavior)
      (htimer : y.metadata.timer.isSome → pass.timer.isSome → y.metadata.timer = pass.timer) :
      Puts H T s owner p pass ⟨⟨owner, s, pass, input, p⟩, y.stored, false, y.tgt⟩
  | fresh {input : InputEvent}
      (hinput : pass.trigger.triggerToInput = some input)
      (hfind : H.find ((T.edgesAt p).map fun y ↦ (y.stored, y)) input = none)
      (hne : ∀ y ∈ T.edgesAt p, y.stored.eq input = false) :
      Puts H T s owner p pass ⟨⟨owner, s, pass, input, p⟩, input, true,
        if pass.isLast then [] else p ++ [.sym input.symbol]⟩

theorem puts_of_put (h : T.put H s owner p pass = .ok x) : Puts H T s owner p pass x := by
  obtain ⟨input, hinput, h⟩ := Exits.bind_eq_ok.mp h
  have hinput : pass.trigger.triggerToInput = some input := by
    cases ht : pass.trigger.triggerToInput with
    | none => simp [optionalValue, ht] at hinput
    | some e =>
        simp only [optionalValue, ht, Except.ok.injEq] at hinput
        rw [hinput]
  cases hfind : H.find ((T.edgesAt p).map fun y ↦ (y.stored, y)) input with
  | some y =>
      obtain ⟨k, hk, heq⟩ := H.find_eq_some hfind
      obtain ⟨y', hy', hpair⟩ := List.mem_map.mp hk
      obtain ⟨rfl, rfl⟩ := Prod.mk.inj hpair
      simp only [hfind] at h
      split at h
      · cases h
      · rename_i hlast
        simp only [pure, Except.pure] at h
        split at h
        · cases h
        · rename_i hbehavior
          split at h
          · cases h
          · rename_i htimer
            cases h
            refine .shared hinput hfind hy' heq (by simpa using hlast) (by simpa using hbehavior) ?_
            intro h₁ h₂
            by_contra hne
            exact htimer ⟨h₁, h₂, hne⟩
  | none =>
      simp only [hfind] at h
      cases h
      refine .fresh hinput hfind ?_
      intro y hy
      exact H.find_eq_none hfind (y.stored, y) (List.mem_map_of_mem hy)

/-- The lists that putting triggers at places can build. -/
inductive Grows (H : QHash) : Trie → Prop
  | nil : Grows H []
  | put {T : Trie} {s : SequenceTrigger} {owner : ℕ} {p : Place} {pass : LoopPass}
      {x : Placement} (hT : Grows H T) (hx : Puts H T s owner p pass x) : Grows H (T ++ [x])

theorem grows_of_putPasses {passes : List LoopPass} {T' : Trie} {p' : Place} (hT : Grows H T)
    (h : passes.foldlM (putPass H s owner) (T, p) = .ok (T', p')) : Grows H T' := by
  induction passes generalizing T p with
  | nil =>
      cases h
      exact hT
  | cons pass passes ih =>
      obtain ⟨⟨T₁, p₁⟩, hput, hrest⟩ := Exits.bind_eq_ok.mp (by simpa using h)
      obtain ⟨x, hx, hT₁⟩ := Exits.bind_eq_ok.mp hput
      cases hT₁
      exact ih (.put hT (puts_of_put hx)) hrest

theorem grows_of_trie {layer : Layer} (h : layer.trie H = .ok T) : Grows H T := by
  have hfold : ∀ (ss : List (SequenceTrigger × ℕ)) (T₀ : Trie), Grows H T₀ →
      ss.foldlM (putSequence H) T₀ = .ok T → Grows H T := by
    intro ss
    induction ss with
    | nil =>
        intro T₀ hT₀ h
        cases h
        exact hT₀
    | cons s ss ih =>
        intro T₀ hT₀ h
        obtain ⟨T₁, hs, hrest⟩ := Exits.bind_eq_ok.mp (by simpa using h)
        obtain ⟨⟨T₂, p₂⟩, hpasses, hT₂⟩ := Exits.bind_eq_ok.mp hs
        cases hT₂
        exact ih T₁ (grows_of_putPasses hT₀ hpasses) hrest
  exact hfold _ [] .nil h

theorem sequence_mem {layer : Layer} (h : layer.trie H = .ok T) :
    ∀ x ∈ T, (x.sequence, x.owner) ∈ layer.sequenceRemappings.zipIdx := by
  refine Exits.foldlM_keeps
    (P := fun T ↦ ∀ x ∈ T, (x.sequence, x.owner) ∈ layer.sequenceRemappings.zipIdx) ?_ h (by simp)
  rintro T₀ T₁ ⟨s, owner⟩ hs hT₀ hsequence
  obtain ⟨⟨T₂, p₂⟩, hpasses, hT₂⟩ := Exits.bind_eq_ok.mp hsequence
  cases hT₂
  have hkeeps : ∀ x ∈ (T₁, p₂).1, (x.sequence, x.owner) ∈ layer.sequenceRemappings.zipIdx := by
    refine Exits.foldlM_keeps
      (P := fun c ↦ ∀ x ∈ c.1, (x.sequence, x.owner) ∈ layer.sequenceRemappings.zipIdx)
      ?_ hpasses hT₀
    rintro ⟨T₃, p₃⟩ ⟨T₄, p₄⟩ pass - hT₃ hput x hx
    obtain ⟨y, hy, hT₄⟩ := Exits.bind_eq_ok.mp hput
    cases hT₄
    rcases List.mem_append.mp hx with hx | hx
    · exact hT₃ x hx
    · obtain rfl := List.mem_singleton.mp hx
      cases puts_of_put hy <;> exact hs
  exact hkeeps

theorem Grows.fresh (hT : Grows H T) (hx : x ∈ T) (hfresh : x.fresh = true) :
    x.stored = x.input ∧
      x.tgt = if x.pass.isLast then [] else x.src ++ [.sym x.stored.symbol] := by
  induction hT with
  | nil => simp at hx
  | put _ hput ih =>
      rcases List.mem_append.mp hx with hx | hx
      · exact ih hx
      · obtain rfl := List.mem_singleton.mp hx
        cases hput with
        | shared => simp at hfresh
        | fresh => exact ⟨rfl, rfl⟩

/-- A placement that is not fresh has passed the checks against the fresh
one whose edge it shares. -/
theorem Grows.shares (hT : Grows H T) (hx : x ∈ T) : x.fresh = true ∨
    x.pass.isLast = false ∧ ∃ y ∈ T, y.fresh = true ∧ y.src = x.src ∧ y.stored = x.stored ∧
      y.tgt = x.tgt ∧ y.metadata.behavior = x.sequence.behavior ∧
      (y.metadata.timer.isSome → x.pass.timer.isSome → y.metadata.timer = x.pass.timer) := by
  induction hT with
  | nil => simp at hx
  | put _ hput ih =>
      rcases List.mem_append.mp hx with hx | hx
      · rcases ih hx with h | ⟨hlast, y, hy, h⟩
        · exact .inl h
        · exact .inr ⟨hlast, y, List.mem_append_left _ hy, h⟩
      · obtain rfl := List.mem_singleton.mp hx
        cases hput with
        | shared hinput hfind hmem heq hlast hbehavior htimer =>
            obtain ⟨hy, hfresh, hsrc⟩ := mem_edgesAt.mp hmem
            exact .inr ⟨hlast, _, List.mem_append_left _ hy, hfresh, hsrc, rfl, rfl, hbehavior, htimer⟩
        | fresh => exact .inl rfl

theorem Grows.creator (hT : Grows H T) (hx : x ∈ T) :
    ∃ y ∈ T, y.fresh = true ∧ y.src = x.src ∧ y.stored = x.stored ∧ y.tgt = x.tgt := by
  rcases hT.shares hx with hfresh | ⟨-, y, hy, hfresh, hsrc, hstored, htgt, -⟩
  · exact ⟨x, hx, hfresh, rfl, rfl, rfl⟩
  · exact ⟨y, hy, hfresh, hsrc, hstored, htgt⟩

end Trie

end Keybinder

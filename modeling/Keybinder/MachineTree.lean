import Mathlib.Logic.Relation
import Keybinder.ClosedMachines
import Keybinder.Runs

/-!
# The shape of a machine

Apart from what leads back HOME and what was never given a target, the
transitions of a generated machine form a tree with HOME at its root: every
state is reached, from one state only, and no deeper than the triggers and
waits of the longest sequence.  So a machine that takes no transition without
a target makes no more than that many in a row away from HOME, and it has one
state at most for each trigger and each wait, besides HOME.  Without a target
are only fallbacks of states that a wait opens.
-/

namespace Keybinder

/-- A stored transition leads from one state to another.  One whose target was
never assigned leads nowhere. -/
def LeadsTo (states : List State) (i j : ℕ) : Prop :=
  ∃ state, states[i]? = some state ∧ ∃ transition ∈ state.transitions,
    transition.newState = some j

/-- A path of transitions that stays away from HOME after its first state. -/
def Strays (states : List State) (path : List ℕ) : Prop :=
  path.IsChain (LeadsTo states) ∧ homeStateIdx ∉ path.tail

/-- A timer transition leads to the state, and it is not HOME. -/
def OpenedByWait (states : List State) (i : ℕ) : Prop :=
  i ≠ homeStateIdx ∧ ∃ state ∈ states, ∃ transition,
    state.timerTransition = some transition ∧ transition.newState = some i

/-- The transitions that have a target and do not lead HOME form a tree of
some height, and only the fallbacks of states that a wait opens have none. -/
structure Treelike (states : List State) (height : ℕ) : Prop where
  reached : ∀ j < states.length, Relation.ReflTransGen (LeadsTo states) homeStateIdx j
  parent : ∀ i i' j, LeadsTo states i j → LeadsTo states i' j → j ≠ homeStateIdx → i = i'
  returns : ∀ path, Strays states path → path.tail.length ≤ height
  untargeted : ∀ i state, states[i]? = some state → ∀ transition ∈ state.transitions,
    transition.newState = none → transition = state.fallbackTransition ∧ OpenedByWait states i

variable {H : QHash} {layer : Layer} {states : List State} {T : Trie} {places : List Place}
  {metadata : List StateMetadata} {p p' : Place} {i i' j n : ℕ} {x : Placement}
  {s : SequenceTrigger} {owner : ℕ}

/-! ## Steps between places -/

namespace Represents

variable (hT : T.Grows H) (hb : Represents ⟨states, metadata⟩ T T places)

include hT hb

/-- A transition leads HOME or one token further. -/
theorem places_of_leadsTo (h : LeadsTo states i j) : ∃ p, places[i]? = some p ∧
    (j = homeStateIdx ∨ ∃ token, places[j]? = some (p ++ [token])) := by
  obtain ⟨state, hstate, transition, ht, hnew⟩ := h
  obtain ⟨p, hp⟩ := hb.place_of_state hstate
  obtain rfl := hb.state_eq hp hstate
  refine ⟨p, hp, ?_⟩
  have hnumber : ∀ {q : Place}, q ∈ places → Numbering.number places q = j →
      q = [] ∨ (∃ token, q = p ++ [token]) →
      j = homeStateIdx ∨ ∃ token, places[j]? = some (p ++ [token]) := by
    rintro q hq rfl (rfl | ⟨token, rfl⟩)
    · exact .inl hb.number_home
    · exact .inr ⟨token, Numbering.getElem?_number hq⟩
  rcases Trie.mem_transitions_state.mp ht with ⟨x, hx, rfl⟩ | rfl | ⟨x, hx, rfl⟩
  · obtain ⟨hmem, hfresh, rfl⟩ := Trie.mem_edgesAt.mp hx
    refine hnumber (hb.tgt_mem x hmem) (Option.some.inj hnew) ?_
    rw [(hT.fresh hmem hfresh).2]
    split
    · exact .inl rfl
    · exact .inr ⟨_, rfl⟩
  · refine .inl ?_
    unfold Trie.fallback at hnew
    split at hnew
    · exact (Option.some.inj hnew).symm
    · split at hnew
      · exact (Option.some.inj hnew).symm
      · cases hnew
  · obtain ⟨hmem, -, rfl⟩ := Trie.timedAt_eq_some hx
    rw [Placement.timerTransition_newState hb.number_home (hT.fallback_newState hmem),
      Option.some.injEq] at hnew
    refine hnumber (hb.timer_mem x _ hx) hnew ?_
    rw [Placement.timerPlace]
    split
    · exact .inr ⟨_, rfl⟩
    · exact .inl rfl

/-- Every place but HOME is one token further than another. -/
theorem leadsTo_of_place (hp : p ∈ places) (hne : p ≠ []) :
    ∃ p' token, p' ∈ places ∧ p = p' ++ [token] ∧
      LeadsTo states (Numbering.number places p') (Numbering.number places p) := by
  rcases hb.origin p hp with rfl | ⟨x, hx, hfresh, rfl, htgt⟩ | ⟨x, p', hx, hmid, rfl⟩
  · exact (hne rfl).elim
  · have hsrc := hb.src_mem x hx
    refine ⟨x.src, _, hsrc, htgt, _, hb.state (Numbering.getElem?_number hsrc),
      x.transition (Numbering.number places), Trie.mem_transitions_state.mpr (.inl ?_), rfl⟩
    exact ⟨x, Trie.mem_edgesAt.mpr ⟨hx, hfresh, rfl⟩, rfl⟩
  · obtain ⟨hmem, -, rfl⟩ := Trie.timedAt_eq_some hx
    have htgt := hb.tgt_mem x hmem
    refine ⟨x.tgt, .wait, htgt, rfl, _, hb.state (Numbering.getElem?_number htgt),
      x.timerTransition (Numbering.number places) (T.fallback x.tgt), ?_, ?_⟩
    · exact Trie.mem_transitions_state.mpr (.inr (.inr ⟨x, hx, rfl⟩))
    · rw [Placement.timerTransition_newState hb.number_home (hT.fallback_newState hmem),
        Placement.timerPlace_of_midWait hmid]

/-- A transition without a target is the fallback of a state that a wait opens. -/
theorem untargeted {state : State} {transition : Transition} (hstate : states[i]? = some state)
    (ht : transition ∈ state.transitions) (hnone : transition.newState = none) :
    transition = state.fallbackTransition ∧ OpenedByWait states i := by
  obtain ⟨p, hplace⟩ := hb.place_of_state hstate
  obtain rfl := hb.state_eq hplace hstate
  rcases Trie.mem_transitions_state.mp ht with ⟨x, -, rfl⟩ | rfl | ⟨x, hx, rfl⟩
  · cases hnone
  · refine ⟨rfl, ?_⟩
    rcases hb.origin p (List.mem_of_getElem? hplace) with rfl | ⟨x, hx, -, rfl, -⟩ |
      ⟨x, p', hx, hmid, rfl⟩
    · cases hnone
    · rw [hT.fallback_newState hx] at hnone
      cases hnone
    · obtain ⟨hmem, -, rfl⟩ := Trie.timedAt_eq_some hx
      have hsource := Numbering.getElem?_number (hb.tgt_mem x hmem)
      have hnumber := Numbering.number_eq hb.nodup hplace
      refine ⟨?_, _, List.mem_of_getElem? (hb.state hsource), _,
        Option.map_eq_some_iff.mpr ⟨x, hx, rfl⟩, ?_⟩
      · rintro rfl
        rw [hb.home] at hplace
        simp at hplace
      · rw [Placement.timerTransition_newState hb.number_home (hT.fallback_newState hmem),
          Placement.timerPlace_of_midWait hmid, hnumber]
  · obtain ⟨hmem, -, rfl⟩ := Trie.timedAt_eq_some hx
    rw [Placement.timerTransition_newState hb.number_home (hT.fallback_newState hmem)] at hnone
    cases hnone

theorem reached (hp : p ∈ places) :
    Relation.ReflTransGen (LeadsTo states) homeStateIdx (Numbering.number places p) := by
  induction hlength : p.length generalizing p with
  | zero =>
      obtain rfl := List.eq_nil_of_length_eq_zero hlength
      rw [hb.number_home]
  | succ n ih =>
      obtain ⟨p', token, hp', rfl, hleads⟩ := hb.leadsTo_of_place hT hp (by
        rintro rfl
        cases hlength)
      exact (ih hp' (by simpa using hlength)).tail hleads

theorem parent (h : LeadsTo states i j) (h' : LeadsTo states i' j) (hj : j ≠ homeStateIdx) :
    i = i' := by
  obtain ⟨p, hp, hhome | ⟨token, hplace⟩⟩ := hb.places_of_leadsTo hT h
  · exact (hj hhome).elim
  obtain ⟨p', hp', hhome | ⟨token', hplace'⟩⟩ := hb.places_of_leadsTo hT h'
  · exact (hj hhome).elim
  rw [hplace, Option.some.injEq] at hplace'
  obtain ⟨rfl, -⟩ := List.append_inj' hplace' rfl
  exact Numbering.inj_of_nodup hb.nodup hp hp'

/-- Along a path that stays away from HOME the places get longer. -/
theorem length_of_strays {path : List ℕ} (h : Strays states (i :: path)) (hp : places[i]? = some p)
    (hplaces : ∀ p ∈ places, p.length ≤ n) : p.length + path.length ≤ n := by
  induction path generalizing i p with
  | nil => exact hplaces p (List.mem_of_getElem? hp)
  | cons j path ih =>
      obtain ⟨hchain, hhome⟩ := h
      rw [List.isChain_cons_cons] at hchain
      rw [List.tail_cons, List.mem_cons, not_or] at hhome
      obtain ⟨q, hq, hj | ⟨token, hplace⟩⟩ := hb.places_of_leadsTo hT hchain.1
      · exact (hhome.1 hj.symm).elim
      · obtain rfl : p = q := Option.some.inj (hp.symm.trans hq)
        have hrest := ih ⟨hchain.2, hhome.2⟩ hplace
        simp only [List.length_append, List.length_cons, List.length_nil] at hrest ⊢
        omega

end Represents

/-! ## How deep the places are -/

/-- The triggers and waits that a pass has read. -/
def LoopPass.width (pass : LoopPass) : ℕ := if pass.timer.isSome then 2 else 1

theorem Placement.length_timerPlace_le (x : Placement) : x.timerPlace.length ≤ x.tgt.length + 1 := by
  unfold timerPlace
  split <;> simp

namespace Trie

theorem length_tgt_of_puts {pass : LoopPass} (hT : T.Grows H) (h : Puts H T s owner p pass x) :
    x.tgt.length ≤ p.length + 1 := by
  have hle : ∀ {isLast : Bool} {token : Token},
      (if isLast then [] else p ++ [token]).length ≤ p.length + 1 := by
    intro isLast token
    split <;> simp
  cases h with
  | shared hinput hfind hmem =>
      obtain ⟨hy, hfresh, rfl⟩ := mem_edgesAt.mp hmem
      rw [(hT.fresh hy hfresh).2]
      exact hle
  | fresh => exact hle

theorem length_next (T : Trie) (x : Placement) :
    (T.next x).length + 1 ≤ x.tgt.length + x.pass.width := by
  unfold next LoopPass.width
  cases ht : x.pass.timer with
  | none => simp
  | some timer =>
      cases timer with
      | maximumWait ms => simp
      | minimumWait ms =>
          simp only [Option.isSome_some, if_true]
          split
          · rename_i y hy
            have hle := y.length_timerPlace_le
            rw [(timedAt_eq_some hy).2.2] at hle
            omega
          · split <;> simp

/-- The trigger of the placement and its wait fit into the sequence, after
what leads there. -/
def WithinSequence (x : Placement) : Prop := x.src.length + x.pass.width ≤ x.sequence.sequence.length

theorem withinSequence_of_putPasses (read : List AdvancedTrigger) {rest : List AdvancedTrigger}
    {T' : Trie} (hs : (read ++ rest).length = s.sequence.length) (hp : p.length ≤ read.length)
    (hT : T.Grows H) (hfits : ∀ x ∈ T, WithinSequence x ∧ x.tgt.length ≤ x.src.length + 1)
    (h : (loopPasses read rest).foldlM (putPass H s owner) (T, p) = .ok (T', p')) :
    ∀ x ∈ T', WithinSequence x ∧ x.tgt.length ≤ x.src.length + 1 := by
  have hput : ∀ {T : Trie} {p : Place} {read rest : List AdvancedTrigger} {pass : LoopPass} {c},
      p.length ≤ read.length → (read ++ rest).length = s.sequence.length →
      pass.width ≤ rest.length → T.Grows H →
      (∀ x ∈ T, WithinSequence x ∧ x.tgt.length ≤ x.src.length + 1) →
      putPass H s owner (T, p) pass = .ok c →
      c.1.Grows H ∧ (∀ x ∈ c.1, WithinSequence x ∧ x.tgt.length ≤ x.src.length + 1) ∧
        c.2.length ≤ read.length + pass.width := by
    intro T p read rest pass c hp hs hwidth hT hfits hput
    obtain ⟨x, hx, hc⟩ := Exits.bind_eq_ok.mp hput
    cases hc
    have hputs := puts_of_put hx
    have htgt := length_tgt_of_puts hT hputs
    obtain ⟨hsrc, hpass, hsequence⟩ : x.src = p ∧ x.pass = pass ∧ x.sequence = s := by
      cases hputs <;> exact ⟨rfl, rfl, rfl⟩
    rw [List.length_append] at hs
    refine ⟨.put hT hputs, fun y hy ↦ ?_, ?_⟩
    · rcases List.mem_append.mp hy with hy | hy
      · exact hfits y hy
      · obtain rfl := List.mem_singleton.mp hy
        rw [WithinSequence, hsrc, hpass, hsequence]
        exact ⟨by omega, htgt⟩
    · have hnext := T.length_next x
      rw [hpass] at hnext
      dsimp only
      omega
  revert T p
  fun_induction loopPasses read rest with
  | case1 =>
      intro T p _ _ hfits h
      cases h
      exact hfits
  | case2 read trigger ms rest read' ih | case3 read trigger ms rest read' ih =>
      intro T p hp hT hfits h
      obtain ⟨c, hc, hrest⟩ := Exits.foldlM_cons_eq_ok.mp h
      obtain ⟨hT', hfits', hp'⟩ := hput hp hs (by simp [LoopPass.width]) hT hfits hc
      refine ih ?_ ?_ hT' hfits' hrest
      · simpa [read'] using hs
      · simpa [read', LoopPass.width] using hp'
  | case4 read trigger rest hmin hmax read' ih =>
      intro T p hp hT hfits h
      obtain ⟨c, hc, hrest⟩ := Exits.foldlM_cons_eq_ok.mp h
      obtain ⟨hT', hfits', hp'⟩ := hput hp hs (by simp [LoopPass.width]) hT hfits hc
      refine ih ?_ ?_ hT' hfits' hrest
      · simpa [read'] using hs
      · simpa [read', LoopPass.width] using hp'

theorem withinSequence_of_trie (h : layer.trie H = .ok T) :
    ∀ x ∈ T, WithinSequence x ∧ x.tgt.length ≤ x.src.length + 1 := by
  have hkept : T.Grows H ∧ ∀ x ∈ T, WithinSequence x ∧ x.tgt.length ≤ x.src.length + 1 := by
    refine Exits.foldlM_keeps
      (P := fun T ↦ T.Grows H ∧ ∀ x ∈ T, WithinSequence x ∧ x.tgt.length ≤ x.src.length + 1) ?_ h
      ⟨.nil, by simp⟩
    rintro T₀ T₁ ⟨s, owner⟩ - ⟨hT₀, hfits⟩ hsequence
    obtain ⟨⟨T₂, p₂⟩, hpasses, hT₂⟩ := Exits.bind_eq_ok.mp hsequence
    cases hT₂
    exact ⟨grows_of_putPasses hT₀ hpasses,
      withinSequence_of_putPasses [] rfl (Nat.le_refl _) hT₀ hfits hpasses⟩
  exact hkept.2

end Trie

theorem Represents.length_place (hb : Represents ⟨states, metadata⟩ T T places)
    (htrie : layer.trie H = .ok T) (hn : ∀ s ∈ layer.sequenceRemappings, s.sequence.length ≤ n) :
    ∀ p ∈ places, p.length ≤ n := by
  have hfits : ∀ x ∈ T, x.src.length + x.pass.width ≤ n ∧ x.tgt.length ≤ x.src.length + 1 := by
    intro x hx
    obtain ⟨hfits, htgt⟩ := Trie.withinSequence_of_trie htrie x hx
    have hmem := List.mem_of_getElem? (List.mem_zipIdx_iff_getElem?.mp
      (Trie.sequence_mem htrie x hx))
    exact ⟨hfits.trans (hn x.sequence hmem), htgt⟩
  intro p hp
  rcases hb.origin p hp with rfl | ⟨x, hx, -, -, rfl⟩ | ⟨x, p', hx, hmid, rfl⟩
  · exact Nat.zero_le n
  · have hle := (hfits x hx).1
    have hwidth : 1 ≤ x.pass.width := by
      unfold LoopPass.width
      split <;> omega
    rw [List.length_append, List.length_singleton]
    omega
  · obtain ⟨hmem, htimer, rfl⟩ := Trie.timedAt_eq_some hx
    have hle := hfits x hmem
    rw [LoopPass.width, if_pos htimer] at hle
    rw [List.length_append, List.length_singleton]
    omega

/-- Among the transitions of a generated machine whose target was assigned,
those that do not lead HOME form a tree, no higher than the longest sequence
is long.  The others are fallbacks of states that a wait opens. -/
theorem generateStates_tree (H : QHash) (layer : Layer) (states : List State) (n : ℕ)
    (h : generateStates H layer = .ok states)
    (hn : ∀ s ∈ layer.sequenceRemappings, s.sequence.length ≤ n) : Treelike states n := by
  obtain ⟨T, metadata, places, htrie, hT, hb⟩ := trie_of_generateStates h
  refine ⟨fun j hj ↦ ?_, fun _ _ _ hi hi' hj ↦ hb.parent hT hi hi' hj, fun path hpath ↦ ?_,
    fun _ _ hstate _ ht hnone ↦ hb.untargeted hT hstate ht hnone⟩
  · have hlt : j < places.length := hb.length_states ▸ hj
    have hplace : places[j]? = some places[j] := List.getElem?_eq_getElem hlt
    rw [← Numbering.number_eq hb.nodup hplace]
    exact hb.reached hT (List.mem_of_getElem? hplace)
  · rcases path with _ | ⟨i, _ | ⟨j, path⟩⟩
    · exact Nat.zero_le n
    · exact Nat.zero_le n
    · obtain ⟨p, hp, -⟩ := hb.places_of_leadsTo hT (List.isChain_cons_cons.mp hpath.1).1
      exact (Nat.le_add_left _ _).trans
        (hb.length_of_strays hT hpath hp (hb.length_place htrie hn))

theorem generateStates_tree_tap : ∃ states, generateStates (.first _) tapLayer = .ok states ∧
    Treelike states 3 :=
  ⟨_, rfl, generateStates_tree (.first _) tapLayer _ 3 rfl (by decide)⟩

/-! ## How many states there are -/

theorem length_connectTrigger {b b' : Builder} {currentStateIdx : ℕ} {next : Option ℕ}
    {pass : LoopPass} {inputEvent : InputEvent}
    (h : connectTrigger H s owner b currentStateIdx pass inputEvent = .ok (b', next)) :
    b'.states.length ≤ b.states.length + 1 := by
  obtain ⟨state, -, h⟩ := Exits.bind_eq_ok.mp h
  split at h
  · split at h
    · cases h
    · obtain ⟨newState, -, h⟩ := Exits.bind_eq_ok.mp h
      obtain ⟨stateMetadata, -, h⟩ := Exits.bind_eq_ok.mp h
      simp only [pure, Except.pure] at h
      split at h
      · cases h
      · split at h
        · cases h
        · cases h
          omega
  · split at h
    · cases h
      simp
    · cases h
      simp [Builder.pushBack]

theorem length_attachTimer {b b' : Builder} {nextStateIdx finalStateIdx : ℕ} {pass : LoopPass}
    (h : attachTimer s owner b nextStateIdx pass = .ok (b', finalStateIdx)) :
    b'.states.length + 1 ≤ b.states.length + pass.width := by
  obtain ⟨nextState, -, h⟩ := Exits.bind_eq_ok.mp h
  unfold LoopPass.width
  split at h
  · cases h
    split <;> omega
  · rename_i hpass _
    cases h
    simp [hpass]
  · rename_i hpass _
    cases h
    simp [hpass]
  · rename_i hpass _
    obtain ⟨newState, -, h⟩ := Exits.bind_eq_ok.mp h
    cases h
    simp [hpass]
  · rename_i hpass _
    split at h
    · cases h
      simp [hpass]
    · cases h
      simp [hpass, Builder.pushBack]

theorem length_insertTrigger {c d : Builder × ℕ} {pass : LoopPass}
    (h : insertTrigger H s owner c pass = .ok d) :
    d.1.states.length ≤ c.1.states.length + pass.width := by
  rw [insertTrigger_eq] at h
  obtain ⟨⟨b, next⟩, h, hattach⟩ := Exits.bind_eq_ok.mp h
  obtain ⟨inputEvent, -, hconnect⟩ := Exits.bind_eq_ok.mp h
  have hfirst : b.states.length ≤ c.1.states.length + 1 := length_connectTrigger hconnect
  have hsecond : d.1.states.length + 1 ≤ b.states.length + pass.width :=
    length_attachTimer hattach
  omega

/-- The passes over a sequence read each of its triggers and waits once. -/
theorem sum_width_loopPasses (read rest : List AdvancedTrigger) :
    ((loopPasses read rest).map LoopPass.width).sum = rest.length := by
  fun_induction loopPasses read rest with
  | case1 => rfl
  | case2 read trigger ms rest read' ih | case3 read trigger ms rest read' ih =>
      simp [ih, LoopPass.width]
      omega
  | case4 read trigger rest hmin hmax read' ih =>
      simp [ih, LoopPass.width]
      omega

/-- A generated machine has at most one state for each trigger and each wait
of its sequences, besides HOME. -/
theorem generateStates_size (H : QHash) (layer : Layer) (states : List State)
    (h : generateStates H layer = .ok states) :
    states.length ≤ 1 + (layer.sequenceRemappings.map fun s ↦ s.sequence.length).sum := by
  have hsequence : ∀ {b : Builder} {owned : SequenceTrigger × ℕ} {b' : Builder},
      insertSequence H b owned = .ok b' →
      b'.states.length ≤ b.states.length + owned.1.sequence.length := by
    rintro b ⟨s, owner⟩ b' hb'
    obtain ⟨⟨b₁, idx⟩, hpasses, hb'⟩ := Exits.bind_eq_ok.mp hb'
    cases hb'
    have hle := Exits.foldlM_size_le (fun c : Builder × ℕ ↦ c.1.states.length) LoopPass.width
      length_insertTrigger hpasses
    rwa [sum_width_loopPasses] at hle
  rw [generateStates_eq] at h
  obtain ⟨b, hfold, hb⟩ := Exits.bind_eq_ok.mp h
  cases hb
  have hle := Exits.foldlM_size_le (fun b : Builder ↦ b.states.length)
    (fun owned : SequenceTrigger × ℕ ↦ owned.1.sequence.length) hsequence hfold
  have howned : layer.sequenceRemappings.zipIdx.map (fun owned ↦ owned.1.sequence.length) =
      layer.sequenceRemappings.map fun s ↦ s.sequence.length := by
    conv_rhs => rw [← List.zipIdx_map_fst 0 layer.sequenceRemappings, List.map_map]
    rfl
  rwa [howned] at hle

theorem generateStates_size_tap : ∃ states, generateStates (.first _) tapLayer = .ok states ∧
    states.length ≤ 4 :=
  ⟨_, rfl, generateStates_size (.first _) tapLayer _ rfl⟩

end Keybinder

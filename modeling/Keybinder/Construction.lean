import Keybinder.Library.Numbering
import Keybinder.Places

/-!
# The generated machine and the places of its sequences

`generateStates` refines the placement of triggers: the two end early for
the same layers, and otherwise the states of the machine are, index by
index, the states that the list of placements prescribes for its places.
-/

namespace Keybinder

namespace Placement

/-- The edge that a fresh placement creates, with indices given by `idx`. -/
def transition (idx : Place → ℕ) (x : Placement) : Transition :=
  newTransition x.sequence x.owner x.pass x.stored (idx x.tgt)

/-- The timer transition that the first placement with a wait attaches to a
state with the given fallback. -/
def timerTransition (idx : Place → ℕ) (fallback : Transition) (x : Placement) : Transition :=
  match x.pass.timer with
  | some (.minimumWait _) =>
      if x.pass.final then
        { outputs := x.sequence.binds.map .bind
          newState := some homeStateIdx
          owner := some x.owner }
      else { newState := some (idx x.timerPlace) }
  | _ => fallback

end Placement

namespace Trie

/-- The fallback of the state of a place; the states that minimum waits lead
to were given none. -/
def fallback (T : Trie) (p : Place) : Transition :=
  if p = [] then generateHomeState.1.fallbackTransition
  else
    match T.creatorAt p with
    | some x => newFallback x.sequence.behavior x.pass.read
    | none => {}

/-- The state of a place, when the edges of `E` have been made and the
waits of `W` attached. -/
def state (idx : Place → ℕ) (E W : Trie) (p : Place) : State where
  edges := (E.edgesAt p).map fun x ↦ (x.stored, x.transition idx)
  fallbackTransition := E.fallback p
  timerTransition := (W.timedAt p).map (Placement.timerTransition idx (E.fallback p))

section Append

variable {T : Trie} {x : Placement} {p : Place}

theorem edgesAt_append : edgesAt (T ++ [x]) p =
    T.edgesAt p ++ if x.fresh = true ∧ x.src = p then [x] else [] := by
  by_cases hx : x.fresh = true ∧ x.src = p
  · simp [edgesAt, hx]
  · rw [if_neg hx, edgesAt, edgesAt, List.filter_append, List.filter_cons_of_neg (by simpa using hx)]
    rfl

theorem creatorAt_append_of_ne (hx : x.fresh = false ∨ x.tgt ≠ p) :
    creatorAt (T ++ [x]) p = T.creatorAt p := by
  have hno : (x.fresh && decide (x.tgt = p)) = false := by
    rcases hx with hx | hx <;> simp [hx]
  simp [creatorAt, hno]

theorem fallback_append_of_ne (hx : x.fresh = false ∨ x.tgt ≠ p ∨ p = []) :
    fallback (T ++ [x]) p = T.fallback p := by
  unfold fallback
  split
  · rfl
  · rename_i hp
    have hx' : x.fresh = false ∨ x.tgt ≠ p := by
      rcases hx with hx | hx | hx
      · exact .inl hx
      · exact .inr hx
      · exact (hp hx).elim
    rw [creatorAt_append_of_ne hx']

theorem timedAt_append_of_ne (hx : x.pass.timer = none ∨ x.tgt ≠ p) :
    timedAt (T ++ [x]) p = T.timedAt p := by
  have hno : (x.pass.timer.isSome && decide (x.tgt = p)) = false := by
    rcases hx with hx | hx <;> simp [hx]
  simp [timedAt, hno]

theorem timedAt_append_of_some {y : Placement} (hy : T.timedAt p = some y) :
    timedAt (T ++ [x]) p = some y := by
  simp only [timedAt] at hy
  simp [timedAt, hy]

theorem timedAt_append_self (ht : x.pass.timer.isSome = true) (hy : T.timedAt x.tgt = none) :
    timedAt (T ++ [x]) x.tgt = some x := by
  simp only [timedAt] at hy
  simp [timedAt, hy, ht]

end Append

end Trie

/-- The vectors hold, place by place, the states of the trie. -/
structure Represents (b : Builder) (E W : Trie) (places : List Place) : Prop where
  nodup : places.Nodup
  home : places[homeStateIdx]? = some []
  home_metadata : b.stateMetadata[homeStateIdx]? = some generateHomeState.2
  length_states : b.states.length = places.length
  length_metadata : b.stateMetadata.length = places.length
  state : ∀ {q : ℕ} {p : Place}, places[q]? = some p →
    b.states[q]? = some (Trie.state (Numbering.number places) E W p)
  metadata : ∀ x ∈ E, x.fresh = true →
    b.stateMetadata[Numbering.number places x.tgt]? = some x.metadata
  src_mem : ∀ x ∈ E, x.src ∈ places
  tgt_mem : ∀ x ∈ E, x.tgt ∈ places
  timer_mem : ∀ x p, W.timedAt p = some x → x.timerPlace ∈ places
  origin : ∀ p ∈ places, p = [] ∨
    (∃ x ∈ E, x.fresh = true ∧ x.tgt = p ∧ p = x.src ++ [.sym x.stored.symbol]) ∨
    ∃ x p', W.timedAt p' = some x ∧ x.pass.midWait = true ∧ p = p' ++ [.wait]

namespace Trie

theorem state_congr {idx idx' : Place → ℕ} {E W : Trie} {p : Place}
    (hE : ∀ x ∈ E, idx x.tgt = idx' x.tgt)
    (hW : ∀ x, W.timedAt p = some x → idx x.timerPlace = idx' x.timerPlace) :
    state idx E W p = state idx' E W p := by
  simp only [state, State.mk.injEq, true_and]
  constructor
  · apply List.map_congr_left
    intro x hx
    simp [Placement.transition, hE x (mem_edgesAt.mp hx).1]
  · cases hx : W.timedAt p with
    | none => rfl
    | some x => simp [Placement.timerTransition, hW x hx]

theorem find_state_edges (H : QHash) (idx : Place → ℕ) (E W : Trie) (p : Place)
    (input : InputEvent) :
    H.find (state idx E W p).edges input =
      (H.find ((E.edgesAt p).map fun y ↦ (y.stored, y)) input).map
        (Placement.transition idx) := by
  have hedges : (state idx E W p).edges =
      ((E.edgesAt p).map fun y ↦ (y.stored, y)).map
        fun entry ↦ (entry.1, entry.2.transition idx) := by
    simp [state]
  rw [hedges, H.find_map]

theorem edgesAt_eq_nil {T : Trie} {p : Place} (h : ∀ x ∈ T, x.src ≠ p) : T.edgesAt p = [] := by
  rw [edgesAt, List.filter_eq_nil_iff]
  intro x hx
  simp [h x hx]

theorem timedAt_eq_none {T : Trie} {p : Place} (h : ∀ x ∈ T, x.tgt ≠ p) :
    T.timedAt p = none := by
  rw [timedAt, List.find?_eq_none]
  intro x hx
  simp [h x hx]

theorem creatorAt_eq_none {T : Trie} {p : Place} (h : ∀ x ∈ T, x.tgt ≠ p) :
    T.creatorAt p = none := by
  rw [creatorAt, List.find?_eq_none]
  intro x hx
  simp [h x hx]

theorem creatorAt_append_self {T : Trie} {x : Placement} (hx : x.fresh = true)
    (h : ∀ y ∈ T, y.tgt ≠ x.tgt) : creatorAt (T ++ [x]) x.tgt = some x := by
  have hnone := creatorAt_eq_none h
  simp only [creatorAt] at hnone
  simp [creatorAt, hnone, hx]

end Trie

/-! ## The edge of a trigger -/

namespace Represents

open Trie

variable {H : QHash} {b : Builder} {E W T : Trie} {places : List Place} {p : Place} {q : ℕ}
  {s : SequenceTrigger} {owner : ℕ} {pass : LoopPass} {input : InputEvent} {x : Placement}

theorem number_home (hb : Represents b E W places) : Numbering.number places [] = homeStateIdx :=
  Numbering.number_eq hb.nodup hb.home

theorem home_mem (hb : Represents b E W places) : [] ∈ places := List.mem_of_getElem? hb.home

theorem vectorAt_state (hb : Represents b E W places) (hq : places[q]? = some p) :
    vectorAt b.states q = .ok (Trie.state (Numbering.number places) E W p) := by
  simp [vectorAt, hb.state hq]

theorem vectorAt_metadata (hb : Represents b E W places) (hx : x ∈ E) (hfresh : x.fresh = true) :
    vectorAt b.stateMetadata (Numbering.number places x.tgt) = .ok x.metadata := by
  simp [vectorAt, hb.metadata x hx hfresh]

theorem sym_notMem (hb : Represents b E W places)
    (hne : ∀ y ∈ E.edgesAt p, y.stored.eq input = false) :
    p ++ [.sym input.symbol] ∉ places := by
  intro hmem
  rcases hb.origin _ hmem with h | ⟨y, hy, hfresh, -, h⟩ | ⟨y, p', -, -, h⟩
  · simp at h
  · obtain ⟨hsrc, hsym⟩ := List.append_inj' h rfl
    have hsymbol : y.stored.symbol = input.symbol := by simpa using hsym.symm
    have heq := InputEvent.eq_of_symbol_eq hsymbol
    rw [hne y (Trie.mem_edgesAt.mpr ⟨hy, hfresh, hsrc.symm⟩)] at heq
    cases heq
  · obtain ⟨-, hsym⟩ := List.append_inj' h rfl
    simp at hsym

theorem wait_notMem (hb : Represents b E W places) (h : W.timedAt p = none) :
    p ++ [.wait] ∉ places := by
  intro hmem
  rcases hb.origin _ hmem with h' | ⟨y, -, -, -, h'⟩ | ⟨y, p', hy, -, h'⟩
  · simp at h'
  · obtain ⟨-, hsym⟩ := List.append_inj' h' rfl
    simp at hsym
  · obtain ⟨hp, -⟩ := List.append_inj' h' rfl
    rw [← hp, h] at hy
    cases hy

theorem share (hb : Represents b E W places) (hfresh : x.fresh = false) (hsrc : x.src ∈ places)
    (htgt : x.tgt ∈ places) : Represents b (E ++ [x]) W places where
  nodup := hb.nodup
  home := hb.home
  home_metadata := hb.home_metadata
  length_states := hb.length_states
  length_metadata := hb.length_metadata
  state := by
    intro q p hq
    rw [hb.state hq]
    have hedges : Trie.edgesAt (E ++ [x]) p = E.edgesAt p := by
      simp [Trie.edgesAt_append, hfresh]
    simp [Trie.state, hedges, Trie.fallback_append_of_ne (.inl hfresh)]
  metadata := by
    intro y hy hyfresh
    rcases List.mem_append.mp hy with hy | hy
    · exact hb.metadata y hy hyfresh
    · obtain rfl := List.mem_singleton.mp hy
      simp [hfresh] at hyfresh
  src_mem := List.forall_mem_append.mpr ⟨hb.src_mem, List.forall_mem_singleton.mpr hsrc⟩
  tgt_mem := List.forall_mem_append.mpr ⟨hb.tgt_mem, List.forall_mem_singleton.mpr htgt⟩
  timer_mem := hb.timer_mem
  origin := by
    intro p hp
    rcases hb.origin p hp with h | ⟨y, hy, h⟩ | h
    · exact .inl h
    · exact .inr (.inl ⟨y, List.mem_append_left _ hy, h⟩)
    · exact .inr (.inr h)

theorem leadHome (hb : Represents b E W places) (hq : places[q]? = some x.src)
    (hfresh : x.fresh = true) (hlast : x.pass.isLast = true) (htgt : x.tgt = []) :
    Represents (b.setEdge q x.stored (newTransition x.sequence x.owner x.pass x.stored
      homeStateIdx)) (E ++ [x]) W places where
  nodup := hb.nodup
  home := hb.home
  home_metadata := hb.home_metadata
  length_states := by simpa using hb.length_states
  length_metadata := by simpa using hb.length_metadata
  state := by
    intro q' p hq'
    have hfallback : Trie.fallback (E ++ [x]) p = E.fallback p := by
      apply Trie.fallback_append_of_ne
      by_cases hp : p = []
      · exact .inr (.inr hp)
      · exact .inr (.inl (by rw [htgt]; exact fun h ↦ hp h.symm))
    rw [Builder.getElem?_setEdge, hb.state hq', Option.map_some]
    rcases Numbering.same_or_other hb.nodup hq hq' with ⟨rfl, rfl⟩ | ⟨hqq, hp⟩
    · simp [Trie.state, Trie.edgesAt_append, hfresh, hfallback, Placement.transition, htgt,
        hb.number_home]
    · simp [Trie.state, Trie.edgesAt_append, hfallback, hqq, hp]
  metadata := by
    intro y hy hyfresh
    rcases List.mem_append.mp hy with hy | hy
    · exact hb.metadata y hy hyfresh
    · obtain rfl := List.mem_singleton.mp hy
      rw [htgt, hb.number_home]
      simpa [Placement.metadata, hlast] using hb.home_metadata
  src_mem := List.forall_mem_append.mpr
    ⟨hb.src_mem, List.forall_mem_singleton.mpr (List.mem_of_getElem? hq)⟩
  tgt_mem := List.forall_mem_append.mpr
    ⟨hb.tgt_mem, List.forall_mem_singleton.mpr (htgt ▸ hb.home_mem)⟩
  timer_mem := hb.timer_mem
  origin := by
    intro p hp
    rcases hb.origin p hp with h | ⟨y, hy, h⟩ | h
    · exact .inl h
    · exact .inr (.inl ⟨y, List.mem_append_left _ hy, h⟩)
    · exact .inr (.inr h)

theorem state_extend (hb : Represents b E W places) (ps : List Place) (p : Place) :
    Trie.state (Numbering.number (places ++ ps)) E W p =
      Trie.state (Numbering.number places) E W p := by
  apply Trie.state_congr
  · intro x hx
    exact Numbering.number_append_of_mem (hb.tgt_mem x hx) ps
  · intro x hx
    exact Numbering.number_append_of_mem (hb.timer_mem x p hx) ps

theorem leadOn (hb : Represents b T T places) (hq : places[q]? = some x.src)
    (hfresh : x.fresh = true) (hlast : x.pass.isLast = false)
    (htgt : x.tgt = x.src ++ [.sym x.stored.symbol]) (hnew : x.tgt ∉ places) :
    Represents
      ((b.pushBack ⟨[], newFallback x.sequence.behavior x.pass.read, none⟩ x.metadata).setEdge q
        x.stored (newTransition x.sequence x.owner x.pass x.stored b.states.length))
      (T ++ [x]) T (places ++ [x.tgt]) where
  nodup := by
    rw [← List.concat_eq_append]
    exact hb.nodup.concat hnew
  home := Numbering.getElem?_append_of_some hb.home
  home_metadata := Numbering.getElem?_append_of_some hb.home_metadata
  length_states := by simpa [Builder.pushBack] using hb.length_states
  length_metadata := by simpa [Builder.pushBack] using hb.length_metadata
  state := by
    intro q' p hq'
    have hsrc : x.src ∈ places := List.mem_of_getElem? hq
    rw [Builder.getElem?_setEdge]
    rcases Numbering.getElem?_append_singleton hq' with hold | ⟨rfl, rfl⟩
    · have hp : p ∈ places := List.mem_of_getElem? hold
      have htgtp : x.tgt ≠ p := by
        rintro rfl
        exact hnew hp
      have hfallback : Trie.fallback (T ++ [x]) p = T.fallback p :=
        Trie.fallback_append_of_ne (.inr (.inl htgtp))
      have hstate := hb.state hold
      rw [← hb.state_extend [x.tgt]] at hstate
      rw [Builder.pushBack, Numbering.getElem?_append_of_some hstate, Option.map_some]
      rcases Numbering.same_or_other hb.nodup hq hold with ⟨rfl, rfl⟩ | ⟨hqq, hps⟩
      · simp [Trie.state, Trie.edgesAt_append, hfresh, hfallback, Placement.transition,
          Numbering.number_append_self hnew, hb.length_states]
      · simp [Trie.state, Trie.edgesAt_append, hfallback, hqq, hps]
    · have hne : q ≠ places.length := by
        obtain ⟨hlt, -⟩ := List.getElem?_eq_some_iff.mp hq
        exact Nat.ne_of_lt hlt
      have hsrcs : ∀ y ∈ T ++ [x], y.src ≠ x.tgt := by
        intro y hy heq
        rcases List.mem_append.mp hy with hy | hy
        · exact hnew (heq ▸ hb.src_mem y hy)
        · rw [List.mem_singleton.mp hy] at heq
          exact hnew (heq ▸ hsrc)
      have htgts : ∀ y ∈ T, y.tgt ≠ x.tgt := fun y hy heq ↦ hnew (heq ▸ hb.tgt_mem y hy)
      have hpne : x.tgt ≠ [] := by simp [htgt]
      have hlen : (b.states ++ [State.mk [] (newFallback x.sequence.behavior x.pass.read)
          none])[places.length]? =
            some ⟨[], newFallback x.sequence.behavior x.pass.read, none⟩ := by
        rw [← hb.length_states]
        simp
      rw [Builder.pushBack, hlen, Option.map_some, if_neg hne]
      simp [Trie.state, Trie.edgesAt_eq_nil hsrcs, Trie.timedAt_eq_none htgts, Trie.fallback,
        hpne, Trie.creatorAt_append_self hfresh htgts]
  metadata := by
    intro y hy hyfresh
    rcases List.mem_append.mp hy with hy | hy
    · rw [Numbering.number_append_of_mem (hb.tgt_mem y hy)]
      exact Numbering.getElem?_append_of_some (hb.metadata y hy hyfresh)
    · obtain rfl := List.mem_singleton.mp hy
      rw [Numbering.number_append_self hnew, ← hb.length_metadata]
      simp [Builder.pushBack]
  src_mem := by
    intro y hy
    rcases List.mem_append.mp hy with hy | hy
    · exact List.mem_append_left _ (hb.src_mem y hy)
    · rw [List.mem_singleton.mp hy]
      exact List.mem_append_left _ (List.mem_of_getElem? hq)
  tgt_mem := by
    intro y hy
    rcases List.mem_append.mp hy with hy | hy
    · exact List.mem_append_left _ (hb.tgt_mem y hy)
    · rw [List.mem_singleton.mp hy]
      simp
  timer_mem := fun y p hy ↦ List.mem_append_left _ (hb.timer_mem y p hy)
  origin := by
    intro p hp
    rcases List.mem_append.mp hp with hp | hp
    · rcases hb.origin p hp with h | ⟨y, hy, h⟩ | h
      · exact .inl h
      · exact .inr (.inl ⟨y, List.mem_append_left _ hy, h⟩)
      · exact .inr (.inr h)
    · obtain rfl := List.mem_singleton.mp hp
      exact .inr (.inl ⟨x, by simp, hfresh, rfl, htgt⟩)

/-- The first half of a pass keeps in step with the placement. -/
theorem connect (hb : Represents b T T places) (hq : places[q]? = some p) :
    Exits.Related
      (fun x c ↦ ∃ places', Represents c.1 (T ++ [x]) T places' ∧
        places'[c.2.getD homeStateIdx]? = some x.tgt)
      (T.put H s owner p pass)
      (optionalValue pass.trigger.triggerToInput >>= fun inputEvent ↦
        connectTrigger H s owner b q pass inputEvent) := by
  have hp : p ∈ places := List.mem_of_getElem? hq
  cases hinput : pass.trigger.triggerToInput with
  | none => simpa [put, hinput, optionalValue] using .error _
  | some input =>
      cases hfind : H.find ((T.edgesAt p).map fun y ↦ (y.stored, y)) input with
      | some y =>
          obtain ⟨k, hk, -⟩ := H.find_eq_some hfind
          obtain ⟨y', hy', hpair⟩ := List.mem_map.mp hk
          obtain ⟨rfl, rfl⟩ := Prod.mk.inj hpair
          obtain ⟨hy, hfresh, -⟩ := mem_edgesAt.mp hy'
          simp only [put, hinput, hfind, optionalValue, Exits.ok_bind, connectTrigger,
            hb.vectorAt_state hq, find_state_edges, Option.map_some, Placement.transition,
            newTransition, assigned, hb.vectorAt_metadata hy hfresh]
          split
          · exact .error _
          · split
            · exact .error _
            · split
              · exact .error _
              · refine .ok ⟨places, ?_, ?_⟩
                · exact hb.share rfl hp (hb.tgt_mem y' hy)
                · exact Numbering.getElem?_number (hb.tgt_mem y' hy)
      | none =>
          have hne : ∀ y ∈ T.edgesAt p, y.stored.eq input = false := by
            intro y hy
            exact H.find_eq_none hfind (y.stored, y) (List.mem_map_of_mem hy)
          simp only [put, hinput, hfind, optionalValue, Exits.ok_bind, connectTrigger,
            hb.vectorAt_state hq, find_state_edges, Option.map_none]
          cases hlast : pass.isLast with
          | true =>
              simp only [reduceIte]
              have hb' := hb.leadHome (x := ⟨⟨owner, s, pass, input, p⟩, input, true, []⟩) hq rfl
                hlast rfl
              exact .ok ⟨places, hb', hb.home⟩
          | false =>
              simp only [reduceIte, Bool.false_eq_true]
              have hb' := hb.leadOn (x := ⟨⟨owner, s, pass, input, p⟩, input, true, _⟩) hq rfl hlast
                rfl (hb.sym_notMem hne)
              simp only [Placement.metadata, hlast, Bool.false_eq_true, if_false] at hb'
              refine .ok ⟨_, hb', ?_⟩
              simp [hb.length_states]

/-! ## The wait after a trigger -/

/-- The waits are left as they are by a pass without a wait, and by one
whose state has a timer already. -/
theorem keepWaits (hb : Represents b (T ++ [x]) T places)
    (hx : x.pass.timer = none ∨ T.timedAt x.tgt ≠ none) :
    Represents b (T ++ [x]) (T ++ [x]) places := by
  have htimed : ∀ p, Trie.timedAt (T ++ [x]) p = T.timedAt p := by
    intro p
    by_cases hp : x.pass.timer = none ∨ x.tgt ≠ p
    · exact timedAt_append_of_ne hp
    · push Not at hp
      obtain ⟨hsome, rfl⟩ := hp
      rcases hx with hx | hx
      · exact (hsome hx).elim
      · obtain ⟨y, hy⟩ := Option.ne_none_iff_exists'.mp hx
        rw [hy, timedAt_append_of_some hy]
  have hstate : ∀ p, Trie.state (Numbering.number places) (T ++ [x]) (T ++ [x]) p =
      Trie.state (Numbering.number places) (T ++ [x]) T p := by
    intro p
    simp [Trie.state, htimed]
  exact
    { hb with
      state := fun hq ↦ by rw [hb.state hq, hstate]
      timer_mem := fun y p hy ↦ hb.timer_mem y p (by rw [← htimed, hy])
      origin := by simpa only [htimed] using hb.origin }

theorem attachHere (hb : Represents b (T ++ [x]) T places) (hq : places[q]? = some x.tgt)
    (ht : x.pass.timer.isSome = true) (hnone : T.timedAt x.tgt = none)
    (hmid : x.pass.midWait = false) :
    Represents
      (b.setTimerTransition q
        (x.timerTransition (Numbering.number places) (Trie.fallback (T ++ [x]) x.tgt)))
      (T ++ [x]) (T ++ [x]) places :=
  { hb with
    length_states := by simpa using hb.length_states
    length_metadata := by simpa using hb.length_metadata
    state := by
      intro q' p hq'
      rw [Builder.getElem?_setTimerTransition, hb.state hq', Option.map_some]
      rcases Numbering.same_or_other hb.nodup hq hq' with ⟨rfl, rfl⟩ | ⟨hqq, hp⟩
      · simp [Trie.state, timedAt_append_self ht hnone]
      · simp [Trie.state, timedAt_append_of_ne (.inr hp), hqq]
    timer_mem := by
      intro y p hy
      by_cases hp : x.tgt = p
      · subst hp
        rw [timedAt_append_self ht hnone] at hy
        rw [← Option.some.inj hy, Placement.timerPlace_of_not_midWait hmid]
        exact hb.home_mem
      · rw [timedAt_append_of_ne (.inr hp)] at hy
        exact hb.timer_mem y p hy
    origin := by
      intro p hp
      rcases hb.origin p hp with h | h | ⟨y, p', hy, h⟩
      · exact .inl h
      · exact .inr (.inl h)
      · exact .inr (.inr ⟨y, p', timedAt_append_of_some hy, h⟩) }

theorem attachNew (hb : Represents b (T ++ [x]) T places) (hq : places[q]? = some x.tgt)
    (ht : x.pass.timer.isSome = true) (hnone : T.timedAt x.tgt = none) (hmid : x.pass.midWait = true)
    (metadata : StateMetadata) :
    Represents
      ((b.setTimerTransition q { newState := some b.states.length }).pushBack ⟨[], {}, none⟩
        metadata)
      (T ++ [x]) (T ++ [x]) (places ++ [x.tgt ++ [.wait]]) := by
  have hnew : x.tgt ++ [.wait] ∉ places := hb.wait_notMem hnone
  have hself := timedAt_append_self ht hnone
  have hx : x ∈ T ++ [x] := by simp
  obtain ⟨⟨ms, hms⟩, hfinal⟩ := LoopPass.timer_of_midWait hmid
  exact
    { nodup := by
        rw [← List.concat_eq_append]
        exact hb.nodup.concat hnew
      home := Numbering.getElem?_append_of_some hb.home
      home_metadata := Numbering.getElem?_append_of_some hb.home_metadata
      length_states := by simpa [Builder.pushBack] using hb.length_states
      length_metadata := by simpa [Builder.pushBack] using hb.length_metadata
      state := by
        intro q' p hq'
        rcases Numbering.getElem?_append_singleton hq' with hold | ⟨rfl, rfl⟩
        · have hstate := hb.state hold
          rw [← hb.state_extend [x.tgt ++ [.wait]]] at hstate
          have hset := b.getElem?_setTimerTransition q q' { newState := some b.states.length }
          rw [hstate, Option.map_some] at hset
          rw [Builder.pushBack, Numbering.getElem?_append_of_some hset]
          rcases Numbering.same_or_other hb.nodup hq hold with ⟨rfl, rfl⟩ | ⟨hqq, hp⟩
          · simp [Trie.state, hself, Placement.timerTransition, hms, hfinal,
              Placement.timerPlace_of_midWait hmid, Numbering.number_append_self hnew,
              hb.length_states]
          · simp [Trie.state, timedAt_append_of_ne (.inr hp), hqq]
        · have hsrcs : ∀ y ∈ T ++ [x], y.src ≠ x.tgt ++ [.wait] :=
            fun y hy heq ↦ hnew (heq ▸ hb.src_mem y hy)
          have htgts : ∀ y ∈ T ++ [x], y.tgt ≠ x.tgt ++ [.wait] :=
            fun y hy heq ↦ hnew (heq ▸ hb.tgt_mem y hy)
          have hlen : (b.setTimerTransition q { newState := some b.states.length }).states.length =
              places.length := by simpa using hb.length_states
          rw [Builder.pushBack, ← hlen]
          simp [Trie.state, Trie.edgesAt_eq_nil hsrcs, Trie.timedAt_eq_none htgts, Trie.fallback,
            Trie.creatorAt_eq_none htgts]
      metadata := by
        intro y hy hyfresh
        rw [Numbering.number_append_of_mem (hb.tgt_mem y hy)]
        exact Numbering.getElem?_append_of_some (hb.metadata y hy hyfresh)
      src_mem := fun y hy ↦ List.mem_append_left _ (hb.src_mem y hy)
      tgt_mem := fun y hy ↦ List.mem_append_left _ (hb.tgt_mem y hy)
      timer_mem := by
        intro y p hy
        by_cases hp : x.tgt = p
        · subst hp
          rw [hself] at hy
          rw [← Option.some.inj hy, Placement.timerPlace_of_midWait hmid]
          simp
        · rw [timedAt_append_of_ne (.inr hp)] at hy
          exact List.mem_append_left _ (hb.timer_mem y p hy)
      origin := by
        intro p hp
        rcases List.mem_append.mp hp with hp | hp
        · rcases hb.origin p hp with h | h | ⟨y, p', hy, h⟩
          · exact .inl h
          · exact .inr (.inl h)
          · exact .inr (.inr ⟨y, p', timedAt_append_of_some hy, h⟩)
        · obtain rfl := List.mem_singleton.mp hp
          exact .inr (.inr ⟨x, x.tgt, hself, hmid, rfl⟩) }

end Represents

/-- A list of placements and a place in it, and the vectors and the index
that stand for them. -/
def Linked (H : QHash) (c : Trie × Place) (d : Builder × ℕ) : Prop :=
  Trie.Grows H c.1 ∧ ∃ places, Represents d.1 c.1 c.1 places ∧ places[d.2]? = some c.2

section Lockstep

variable {H : QHash} {b : Builder} {T : Trie} {places : List Place} {q : ℕ} {x : Placement}

theorem Trie.Grows.fallback_newState (hT : Trie.Grows H T) (hx : x ∈ T) :
    (T.fallback x.tgt).newState = some homeStateIdx := by
  unfold Trie.fallback
  split
  · rfl
  · obtain ⟨y, hy, hfresh, -, -, htgt⟩ := hT.creator hx
    cases hcreator : T.creatorAt x.tgt with
    | none =>
        rw [Trie.creatorAt, List.find?_eq_none] at hcreator
        exact (hcreator y hy (by simp [hfresh, htgt])).elim
    | some z => rfl

theorem Trie.Grows.creatorAt_wait (hT : T.Grows H) (p : Place) :
    T.creatorAt (p ++ [.wait]) = none := by
  rw [Trie.creatorAt, List.find?_eq_none]
  intro x hx hcreates
  simp only [Bool.and_eq_true, decide_eq_true_eq] at hcreates
  obtain ⟨hfresh, htgt⟩ := hcreates
  have hsym := (hT.fresh hx hfresh).2
  rw [htgt] at hsym
  split at hsym
  · simp at hsym
  · obtain ⟨-, hlast⟩ := List.append_inj' hsym rfl
    simp at hlast

theorem Trie.Grows.fallback_wait (hT : T.Grows H) (p : Place) : T.fallback (p ++ [.wait]) = {} := by
  simp [Trie.fallback, hT.creatorAt_wait]

theorem Placement.timerTransition_newState {idx : Place → ℕ} (hidx : idx [] = homeStateIdx)
    {fallback : Transition} (hfallback : fallback.newState = some homeStateIdx) :
    (x.timerTransition idx fallback).newState = some (idx x.timerPlace) := by
  cases ht : x.pass.timer with
  | none => simp [Placement.timerTransition, Placement.timerPlace, LoopPass.midWait, ht, hidx,
      hfallback]
  | some timer =>
      cases timer with
      | maximumWait ms =>
          simp [Placement.timerTransition, Placement.timerPlace, LoopPass.midWait, ht, hidx,
            hfallback]
      | minimumWait ms =>
          cases hfinal : x.pass.final <;>
            simp [Placement.timerTransition, Placement.timerPlace, LoopPass.midWait, ht, hidx,
              hfinal]

/-- The second half of a pass keeps in step with the placement. -/
theorem Represents.attach (hT : Trie.Grows H (T ++ [x]))
    (hb : Represents b (T ++ [x]) T places) (hq : places[q]? = some x.tgt) :
    ∃ d, attachTimer x.sequence x.owner b q x.pass = .ok d ∧
      Linked H (T ++ [x], Trie.next T x) d := by
  have hstate := hb.vectorAt_state hq
  have htimer : (Trie.state (Numbering.number places) (T ++ [x]) T x.tgt).timerTransition =
      (T.timedAt x.tgt).map (Placement.timerTransition (Numbering.number places)
        (Trie.fallback (T ++ [x]) x.tgt)) := rfl
  simp only [attachTimer, hstate, Exits.ok_bind, htimer]
  cases ht : x.pass.timer with
  | none =>
      have hnext : Trie.next T x = x.tgt := by simp [Trie.next, ht]
      exact ⟨_, rfl, hT, places, hb.keepWaits (.inl ht), hnext ▸ hq⟩
  | some timer =>
      have hsome : x.pass.timer.isSome = true := by simp [ht]
      cases hy : T.timedAt x.tgt with
      | some y =>
          have hkeep := hb.keepWaits (.inr (by simp [hy]))
          cases timer with
          | maximumWait ms =>
              have hnext : Trie.next T x = x.tgt := by simp [Trie.next, ht]
              exact ⟨_, rfl, hT, places, hkeep, hnext ▸ hq⟩
          | minimumWait ms =>
              have hnext : Trie.next T x = y.timerPlace := by simp [Trie.next, ht, hy]
              have hfallback := hT.fallback_newState (x := x) (by simp)
              have hnew := y.timerTransition_newState hb.number_home hfallback
              refine ⟨(b, Numbering.number places y.timerPlace), ?_, hT, places, hkeep, ?_⟩
              · simp [hnew, assigned]
              · rw [hnext]
                exact Numbering.getElem?_number (hb.timer_mem y _ hy)
      | none =>
          cases timer with
          | maximumWait ms =>
              have hnext : Trie.next T x = x.tgt := by simp [Trie.next, ht]
              have hmid : x.pass.midWait = false := by simp [LoopPass.midWait, ht]
              have hhere := hb.attachHere hq hsome hy hmid
              simp only [Placement.timerTransition, ht] at hhere
              exact ⟨_, rfl, hT, places, hhere, hnext ▸ hq⟩
          | minimumWait ms =>
              cases hfinal : x.pass.final with
              | true =>
                  have hnext : Trie.next T x = x.tgt := by simp [Trie.next, ht, hy, hfinal]
                  have hmid : x.pass.midWait = false := by simp [LoopPass.midWait, ht, hfinal]
                  have hhere := hb.attachHere hq hsome hy hmid
                  simp only [Placement.timerTransition, ht, hfinal, if_true] at hhere
                  exact ⟨_, rfl, hT, places, hhere, hnext ▸ hq⟩
              | false =>
                  have hnext : Trie.next T x = x.tgt ++ [.wait] := by
                    simp [Trie.next, ht, hy, hfinal]
                  have hmid : x.pass.midWait = true := by simp [LoopPass.midWait, ht, hfinal]
                  have hlen := hb.length_states
                  refine ⟨_, rfl, hT, _, hb.attachNew hq hsome hy hmid _, ?_⟩
                  simp [hnext, hlen]

theorem insertTrigger_related {s : SequenceTrigger} {owner : ℕ} {pass : LoopPass}
    {c : Trie × Place} {d : Builder × ℕ} (h : Linked H c d) :
    Exits.Related (Linked H) (Trie.putPass H s owner c pass) (insertTrigger H s owner d pass) := by
  obtain ⟨T, p⟩ := c
  obtain ⟨b, q⟩ := d
  obtain ⟨hT, places, hb, hq⟩ := h
  rw [insertTrigger_eq]
  refine (hb.connect hq).with_results.bind ?_
  rintro x ⟨b', n⟩ ⟨hput, -, places', hb', hq'⟩
  have hputs := Trie.puts_of_put hput
  have hgrows := hT.put hputs
  obtain ⟨d', hd', hlinked⟩ := hb'.attach hgrows hq'
  have hx : x.sequence = s ∧ x.owner = owner ∧ x.pass = pass := by
    cases hputs <;> exact ⟨rfl, rfl, rfl⟩
  obtain ⟨rfl, rfl, rfl⟩ := hx
  simp only [hd']
  exact .ok hlinked

theorem Represents.start : Represents .init [] [] [[]] where
  nodup := by simp
  home := rfl
  home_metadata := rfl
  length_states := rfl
  length_metadata := rfl
  state := by
    intro q p hq
    obtain ⟨rfl, rfl⟩ : q = 0 ∧ p = [] := by
      cases q with
      | zero => exact ⟨rfl, by simpa using hq.symm⟩
      | succ q => simp at hq
    rfl
  metadata := by simp
  src_mem := by simp
  tgt_mem := by simp
  timer_mem := by simp [Trie.timedAt]
  origin := by simp

theorem insertTriggers_related (s : SequenceTrigger) (owner : ℕ) (passes : List LoopPass)
    {c : Trie × Place} {d : Builder × ℕ} (h : Linked H c d) :
    Exits.Related (Linked H) (passes.foldlM (Trie.putPass H s owner) c)
      (passes.foldlM (insertTrigger H s owner) d) := by
  have hpasses : List.Forall₂ Eq passes passes := List.forall₂_same.mpr fun _ _ ↦ rfl
  refine Exits.Related.foldlM ?_ hpasses h
  rintro c d pass _ hcd rfl
  exact insertTrigger_related hcd

theorem insertSequence_related {owned : SequenceTrigger × ℕ} {c : Builder}
    (h : Linked H (T, []) (c, homeStateIdx)) :
    Exits.Related (fun T' c' ↦ Linked H (T', []) (c', homeStateIdx))
      (Trie.putSequence H T owned) (insertSequence H c owned) := by
  obtain ⟨s, owner⟩ := owned
  refine (insertTriggers_related s owner (loopPasses [] s.sequence) h).bind ?_
  rintro ⟨T', p'⟩ ⟨c', q'⟩ ⟨hT', places, hb', -⟩
  exact .ok ⟨hT', places, hb', hb'.home⟩

theorem insertSequences_related (H : QHash) (ss : List (SequenceTrigger × ℕ)) :
    Exits.Related (fun T c ↦ Linked H (T, []) (c, homeStateIdx))
      (ss.foldlM (Trie.putSequence H) []) (ss.foldlM (insertSequence H) .init) := by
  have hss : List.Forall₂ Eq ss ss := List.forall₂_same.mpr fun _ _ ↦ rfl
  refine Exits.Related.foldlM ?_ hss ⟨.nil, [[]], .start, rfl⟩
  rintro T c owned _ hlinked rfl
  exact insertSequence_related hlinked

/-- The refinement: `generateStates` ends early as the placing of triggers
does, and otherwise returns the states that the placements prescribe. -/
theorem generateStates_related (H : QHash) (layer : Layer) :
    Exits.Related (fun T M ↦ T.Grows H ∧ ∃ metadata places, Represents ⟨M, metadata⟩ T T places)
      (layer.trie H) (generateStates H layer) := by
  have hfold : Exits.Related (fun T c ↦ Linked H (T, []) (c, homeStateIdx)) (layer.trie H)
      (layer.sequenceRemappings.zipIdx.foldlM (insertSequence H) .init) :=
    insertSequences_related H _
  rw [generateStates_eq]
  have hstates := hfold.bind (f := pure) (g := fun c ↦ pure c.states)
    (S := fun T M ↦ T.Grows H ∧ ∃ metadata places, Represents ⟨M, metadata⟩ T T places) ?_
  · simpa using hstates
  · rintro T ⟨M, metadata⟩ ⟨hT, places, hb, -⟩
    exact .ok ⟨hT, metadata, places, hb⟩

theorem trie_of_generateStates {layer : Layer} {states : List State}
    (h : generateStates H layer = .ok states) : ∃ T metadata places,
      layer.trie H = .ok T ∧ T.Grows H ∧ Represents ⟨states, metadata⟩ T T places := by
  have hrelated := generateStates_related H layer
  rw [h] at hrelated
  obtain ⟨T, htrie, hT, metadata, places, hb⟩ := hrelated.ok_right
  exact ⟨T, metadata, places, htrie, hT, hb⟩

theorem generateStates_avoids {bad : Exit} (hnull : .nullopt ≠ bad) (H : QHash) (layer : Layer)
    (haccess : ∀ s ∈ layer.sequenceRemappings, ∀ pass ∈ loopPasses [] s.sequence,
      pass.trigger.triggerToInput = none → .badOptionalAccess ≠ bad) :
    Exits.Avoids bad (fun _ ↦ True) (generateStates H layer) := by
  have htrie := Trie.trie_avoids hnull H layer haccess
  cases hgenerate : generateStates H layer with
  | ok states => trivial
  | error e =>
      rw [(generateStates_related H layer).error_iff.mpr hgenerate] at htrie
      exact htrie

end Lockstep

end Keybinder

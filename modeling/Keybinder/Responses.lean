import Keybinder.Acceptance
import Keybinder.Runs

/-!
# What the sequences of a layer prescribe

At a place, the sequences that have come so far say what an event or a timer
does: the text of the sequences is enough, no machine is built.  The
generated machine of a layer whose triggers are kept apart does that, state
by state.
-/

namespace Keybinder

/-- What is to be done, and the place that is reached.  There is no place
where the source leaves the next state open. -/
structure Response where
  timerMs : Option ℕ := none
  outputs : List StateMachineOutputEvent := []
  place : Option Place := none
  deriving DecidableEq

/-- The trigger is matched: a Release sequence lets it through, and the last
trigger of a sequence fires the binds. -/
def Occurrence.response (o : Occurrence) : Response where
  timerMs := o.pass.timer.map Timer.ms
  outputs := (if o.sequence.behavior = .release then [.basicTranlation (some o.input)] else []) ++
    if o.pass.isLast then o.sequence.binds.map .bind else []
  place := some (if o.pass.isLast then [] else o.dest)

namespace Layer

variable (layer : Layer) (p : Place)

/-- The triggers that may be matched next, each the first of its kind. -/
def readAt : List Occurrence :=
  layer.occurrences.filter fun o ↦
    decide (o.src = p) && decide (firstAt layer.occurrences o.dest = some o)

/-- No trigger is matched: the first sequence that came here decides what is
given back.  After a wait nothing does. -/
def mismatch : Response :=
  if p = [] then ⟨none, [.basicTranlation none], some []⟩
  else
    match firstAt layer.occurrences p with
    | some o => ⟨none, (newFallback o.sequence.behavior o.pass.read).outputs, some []⟩
    | none => {}

/-- The time of the first sequence that waits here is up. -/
def timeout : Option Response :=
  (firstTimedAt layer.occurrences p).map fun o ↦
    match o.pass.timer with
    | some (.minimumWait _) =>
        if o.pass.final then ⟨none, o.sequence.binds.map .bind, some []⟩
        else ⟨none, [], some (p ++ [.wait])⟩
    | _ => layer.mismatch p

def reactTo (H : QHash) (e : InputEvent) : Response :=
  (H.find ((layer.readAt p).map fun o ↦ (o.input, o.response)) e).getD (layer.mismatch p)

end Layer

/-- A transition of a machine does what a response says; `places` are the
places of the states. -/
structure Response.Renders (places : List Place) (response : Response)
    (transition : Transition) : Prop where
  timerMs_eq : transition.timerMs = response.timerMs
  outputs_eq : transition.outputs = response.outputs
  place_rel : Option.Rel (fun p n ↦ places[n]? = some p) response.place transition.newState

namespace StraightMachine

variable {H : QHash} {layer : Layer} {states : List State} (M : StraightMachine H layer states)
  {idx : ℕ} {p : Place} {state : State} {x y : Placement}

theorem toOccurrence_inj (hx : x ∈ M.trie) (hy : y ∈ M.trie)
    (h : x.toOccurrence = y.toOccurrence) : x = y := by
  have hnodup := layer.nodup_occurrences
  rw [← M.straight.occurrences] at hnodup
  exact List.inj_on_of_nodup_map hnodup hx hy h

theorem fresh_iff_firstAt (hx : x ∈ M.trie) :
    x.fresh = true ↔ firstAt layer.occurrences x.dest = some x.toOccurrence := by
  constructor
  · exact M.straight.firstAt_of_fresh hx
  · intro hfirst
    obtain ⟨y, hy, heq, hfresh, -⟩ := M.straight.fresh_of_firstAt hfirst
    rwa [M.toOccurrence_inj hx hy heq.symm]

/-- The edges of a place are for the triggers that may be matched there. -/
theorem map_edgesAt (p : Place) :
    (M.trie.edgesAt p).map Placement.toOccurrence = layer.readAt p := by
  have hfilter : M.trie.edgesAt p = M.trie.filter fun x ↦
      decide (x.src = p) && decide (firstAt layer.occurrences x.dest = some x.toOccurrence) := by
    apply List.filter_congr
    intro x hx
    have hfresh := M.fresh_iff_firstAt hx
    cases hf : x.fresh <;> simp [hf] at hfresh <;> simp [hfresh]
  rw [hfilter, Layer.readAt, ← M.straight.occurrences, List.filter_map]
  rfl

theorem edge_renders (hy : y ∈ M.trie.edgesAt p) : y.response.Renders M.places (M.edge y) := by
  obtain ⟨hmem, hfresh, -⟩ := Trie.mem_edgesAt.mp hy
  have hstored := (M.grows.fresh hmem hfresh).1
  refine ⟨rfl, ?_, ?_⟩
  · simp [edge, Placement.transition, newTransition, Occurrence.response, hstored]
  · rw [Occurrence.response, ← M.straight.tgt y hmem]
    exact .some (M.place_of_edge hmem rfl)

/-- The state of a place was created for the first trigger that leads there. -/
theorem creatorAt_eq (hp : p ∈ M.places) (hne : p ≠ []) :
    (M.trie.creatorAt p).map Placement.toOccurrence = firstAt layer.occurrences p := by
  rcases M.represents.origin p hp with rfl | ⟨x, hx, hfresh, rfl, -⟩ | ⟨x, p', -, -, rfl⟩
  · exact (hne rfl).elim
  · cases hcreator : M.trie.creatorAt x.tgt with
    | none =>
        rw [Trie.creatorAt, List.find?_eq_none] at hcreator
        exact (hcreator x hx (by simp [hfresh])).elim
    | some y =>
        obtain ⟨hy, hyfresh, htgt⟩ := Trie.creatorAt_eq_some hcreator
        have hdest : x.tgt = y.dest := by
          have htgt' := M.straight.tgt y hy
          rw [htgt] at htgt'
          split at htgt'
          · exact (hne htgt').elim
          · exact htgt'
        rw [hdest, M.straight.firstAt_of_fresh hy hyfresh]
        rfl
  · rw [M.grows.creatorAt_wait, Option.map_none, eq_comm, firstAt, List.find?_eq_none]
    intro o _ hdest
    have hlast := (List.append_inj' (of_decide_eq_true hdest) rfl).2
    cases hlast

theorem fallback_renders (hp : M.places[idx]? = some p) :
    (layer.mismatch p).Renders M.places (M.trie.fallback p) := by
  have hmem := List.mem_of_getElem? hp
  unfold Layer.mismatch Trie.fallback
  split
  · exact ⟨rfl, rfl, .some M.home_place⟩
  · rename_i hne
    have hcreator := M.creatorAt_eq hmem hne
    cases hx : M.trie.creatorAt p with
    | none =>
        rw [hx] at hcreator
        rw [← hcreator]
        exact ⟨rfl, rfl, .none⟩
    | some x =>
        rw [hx] at hcreator
        rw [← hcreator]
        exact ⟨rfl, rfl, .some M.home_place⟩

theorem input_renders (hp : M.places[idx]? = some p) (hstate : states[idx]? = some state)
    (e : InputEvent) :
    (layer.reactTo p H e).Renders M.places (Mapper.transitionFor H state e) := by
  obtain rfl := M.represents.state_eq hp hstate
  have hread : H.find ((layer.readAt p).map fun o ↦ (o.input, o.response)) e =
      (H.find ((M.trie.edgesAt p).map fun y ↦ (y.stored, y)) e).map
        fun y ↦ y.toOccurrence.response := by
    rw [← M.map_edgesAt, ← H.find_map, List.map_map, List.map_map]
    congr 1
    apply List.map_congr_left
    intro y hy
    obtain ⟨hmem, hfresh, -⟩ := Trie.mem_edgesAt.mp hy
    simp [(M.grows.fresh hmem hfresh).1]
  rw [Layer.reactTo, hread, Mapper.transitionFor, Trie.find_state_edges]
  cases hfind : H.find ((M.trie.edgesAt p).map fun y ↦ (y.stored, y)) e with
  | none => exact M.fallback_renders hp
  | some y =>
      obtain ⟨k, hk, -⟩ := H.find_eq_some hfind
      obtain ⟨y', hy', hpair⟩ := List.mem_map.mp hk
      obtain ⟨rfl, rfl⟩ := Prod.mk.inj hpair
      exact M.edge_renders hy'

theorem timer_renders (hp : M.places[idx]? = some p) (hstate : states[idx]? = some state) :
    Option.Rel (Response.Renders M.places) (layer.timeout p) state.timerTransition := by
  obtain rfl := M.represents.state_eq hp hstate
  rw [Layer.timeout, ← M.straight.timedAt p]
  cases hx : M.trie.timedAt p with
  | none =>
      rw [Trie.state, hx]
      exact .none
  | some x =>
      obtain ⟨hmem, htimer, rfl⟩ := Trie.timedAt_eq_some hx
      have hreaction : (Trie.state (Numbering.number M.places) M.trie M.trie x.tgt).timerTransition =
          some (M.reaction x) := by simp [Trie.state, hx, reaction]
      rw [hreaction]
      refine .some ?_
      cases ht : x.pass.timer with
      | none => simp [ht] at htimer
      | some timer =>
          cases timer with
          | maximumWait ms =>
              have hfallback : M.reaction x = M.trie.fallback x.tgt := by
                simp [reaction, Placement.timerTransition, ht]
              simpa [ht, hfallback] using M.fallback_renders hp
          | minimumWait ms =>
              cases hfinal : x.pass.final with
              | true =>
                  simp only [ht, hfinal, if_true, M.reaction_of_final ht hfinal]
                  exact ⟨rfl, rfl, .some M.home_place⟩
              | false =>
                  have hmid : x.pass.midWait = true := by simp [LoopPass.midWait, ht, hfinal]
                  simp only [ht, hfinal, Bool.false_eq_true, if_false]
                  have hplace := M.place_of_reaction hx
                    (n := Numbering.number M.places x.timerPlace) (by rw [M.reaction_of_midWait hmid])
                  rw [Placement.timerPlace_of_midWait hmid] at hplace
                  rw [M.reaction_of_midWait hmid, Placement.timerPlace_of_midWait hmid]
                  exact ⟨rfl, rfl, .some hplace⟩

end StraightMachine

end Keybinder

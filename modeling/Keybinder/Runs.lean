import Keybinder.Mapper
import Keybinder.Separation

/-!
# Runs of a machine

A run of the machine of one layer is the list of its moments: the timer was
checked and had not run out, the timer transition was taken, or the edge or
the fallback was taken on an event.  In a straight machine the events since
HOME spell the place of the current state.
-/

namespace Keybinder

namespace Moment

def time : Moment → ℕ
  | .poll now => now
  | .taken _ _ _ now _ => now
  | .layerSet _ => 0
  | .queued _ _ => 0

def event : Moment → Option InputEvent
  | .taken _ _ event _ _ => event
  | _ => none

/-- The sequence whose binds the transition carried. -/
def owner : Moment → Option ℕ
  | .taken _ _ _ _ transition => transition.owner
  | _ => none

def Assigned : Moment → Prop
  | .taken _ _ _ _ transition => transition.newState ≠ none
  | _ => True

end Moment

/-- When the timer that a transition sets runs out. -/
def Transition.deadline (transition : Transition) (now : ℕ) : Option ℕ :=
  transition.timerMs.map fun ms ↦ addU64 ms now

/-- The runs of a machine from HOME, with the current state and the current
timer.  An unassigned target may be any index. -/
inductive Run (H : QHash) (layer : ℕ) (states : List State) :
    List Moment → ℕ → Option ℕ → Prop
  | home : Run H layer states [] homeStateIdx none
  | poll {ms : List Moment} {idx now : ℕ} {timer : Option ℕ} {state : State}
      (hrun : Run H layer states ms idx timer) (hnow : ∀ m ∈ ms, m.time ≤ now)
      (hstate : states[idx]? = some state)
      (hquiet : ∀ d, timer = some d → d ≤ now → state.timerTransition = none) :
      Run H layer states (ms ++ [.poll now]) idx timer
  | expire {ms : List Moment} {idx idx' d polled now : ℕ} {state : State}
      {transition : Transition}
      (hrun : Run H layer states ms idx (some d)) (hpolled : ∀ m ∈ ms, m.time ≤ polled)
      (hnow : polled ≤ now) (hstate : states[idx]? = some state) (hd : d ≤ polled)
      (ht : state.timerTransition = some transition)
      (hidx : ∀ n, transition.newState = some n → idx' = n) :
      Run H layer states (ms ++ [.poll polled, .taken layer idx none now transition]) idx'
        (transition.deadline now)
  | input {ms : List Moment} {idx idx' now : ℕ} {timer : Option ℕ} {state : State}
      {e : InputEvent} {transition : Transition}
      (hrun : Run H layer states ms idx timer) (hnow : ∀ m ∈ ms, m.time ≤ now)
      (hstate : states[idx]? = some state)
      (ht : Mapper.transitionFor H state e = transition)
      (hidx : ∀ n, transition.newState = some n → idx' = n) :
      Run H layer states (ms ++ [.taken layer idx (some e) now transition]) idx'
        (transition.deadline now)

namespace Run

variable {H : QHash} {L : ℕ} {states : List State} {ms : List Moment} {idx idx' now : ℕ}
  {timer : Option ℕ} {event : Option InputEvent} {transition : Transition}

theorem taken_cases {layer : ℕ}
    (h : Run H L states (ms ++ [.taken layer idx event now transition]) idx' timer) :
    (∃ e state timer', event = some e ∧ Run H L states ms idx timer' ∧
      (∀ m ∈ ms, m.time ≤ now) ∧ states[idx]? = some state ∧
      Mapper.transitionFor H state e = transition) ∨
    ∃ ms' polled d state, event = none ∧ ms = ms' ++ [.poll polled] ∧
      Run H L states ms' idx (some d) ∧ d ≤ polled ∧ polled ≤ now ∧
      states[idx]? = some state ∧ state.timerTransition = some transition := by
  generalize hlist : ms ++ [Moment.taken layer idx event now transition] = list at h
  cases h with
  | home => simp at hlist
  | poll hrun hnow hstate hquiet =>
      have hlast := (List.append_inj' hlist rfl).2
      simp at hlast
  | @expire ms' idx₀ _ d polled now₀ state taken hrun hpolled hnow hstate hd ht hidx =>
      have hlist' : ms ++ [Moment.taken layer idx event now transition] =
          (ms' ++ [.poll polled]) ++ [.taken L idx₀ none now₀ taken] := by
        rw [hlist, List.append_assoc]
        rfl
      obtain ⟨rfl, hlast⟩ := List.append_inj' hlist' rfl
      simp only [List.cons.injEq, Moment.taken.injEq, and_true] at hlast
      obtain ⟨-, rfl, rfl, rfl, rfl⟩ := hlast
      exact .inr ⟨ms', polled, d, state, rfl, rfl, hrun, hd, hnow, hstate, ht⟩
  | @input ms' _ _ _ timer' state e _ hrun hnow hstate ht hidx =>
      obtain ⟨rfl, hlast⟩ := List.append_inj' hlist rfl
      simp only [List.cons.injEq, Moment.taken.injEq, and_true] at hlast
      obtain ⟨-, rfl, rfl, rfl, rfl⟩ := hlast
      exact .inl ⟨e, state, timer', rfl, hrun, hnow, hstate, ht⟩

end Run

/-! ## Since HOME -/

/-- One moment more, when `seg` are the moments since HOME. -/
def since (seg : List Moment) : Moment → List Moment
  | .layerSet _ => []
  | .queued _ _ => seg
  | .poll now => seg ++ [.poll now]
  | .taken layer idx event now transition =>
      if idx = homeStateIdx then [.taken layer idx event now transition]
      else seg ++ [.taken layer idx event now transition]

/-- The moments since the machine last left HOME. -/
def sinceHome (ms : List Moment) : List Moment := ms.foldl since []

/-- The input events consumed since the machine last left HOME. -/
def consumed (ms : List Moment) : List InputEvent := (sinceHome ms).filterMap Moment.event

section

variable {ms : List Moment} {layer idx now : ℕ} {event : Option InputEvent}
  {transition : Transition}

@[simp] theorem sinceHome_append (ms : List Moment) (m : Moment) :
    sinceHome (ms ++ [m]) = since (sinceHome ms) m := by
  simp [sinceHome]

@[simp] theorem consumed_poll : consumed (ms ++ [.poll now]) = consumed ms := by
  simp [consumed, since, Moment.event]

theorem consumed_taken : consumed (ms ++ [.taken layer idx event now transition]) =
    (if idx = homeStateIdx then [] else consumed ms) ++ event.toList := by
  cases event <;> by_cases hidx : idx = homeStateIdx <;>
    simp [consumed, since, Moment.event, hidx]

end

/-! ## What a transition can be -/

namespace Represents

variable {H : QHash} {states : List State} {metadata : List StateMetadata} {T : Trie}
  {places : List Place} {p : Place} {idx : ℕ} {state : State} {e : InputEvent}
  {transition : Transition}

theorem state_eq (hb : Represents ⟨states, metadata⟩ T T places)
    (hp : places[idx]? = some p) (hstate : states[idx]? = some state) :
    state = T.state (Numbering.number places) T p := by
  have h := hb.state hp
  rw [hstate] at h
  exact Option.some.inj h

theorem place_of_state (hb : Represents ⟨states, metadata⟩ T T places)
    (hstate : states[idx]? = some state) : ∃ p, places[idx]? = some p := by
  obtain ⟨hlt, -⟩ := List.getElem?_eq_some_iff.mp hstate
  have hlen : idx < places.length := by
    rw [← hb.length_states]
    exact hlt
  exact ⟨places[idx], List.getElem?_eq_getElem hlen⟩

theorem transitionFor_cases (hb : Represents ⟨states, metadata⟩ T T places)
    (hp : places[idx]? = some p) (hstate : states[idx]? = some state) :
    (∃ y ∈ T.edgesAt p, y.stored.eq e = true ∧
      Mapper.transitionFor H state e = y.transition (Numbering.number places)) ∨
    (∀ y ∈ T.edgesAt p, y.stored.eq e = false) ∧
      Mapper.transitionFor H state e = T.fallback p := by
  obtain rfl := hb.state_eq hp hstate
  rw [Mapper.transitionFor, Trie.find_state_edges]
  cases hfind : H.find ((T.edgesAt p).map fun y ↦ (y.stored, y)) e with
  | some y =>
      obtain ⟨k, hk, heq⟩ := H.find_eq_some hfind
      obtain ⟨y', hy', hpair⟩ := List.mem_map.mp hk
      obtain ⟨rfl, rfl⟩ := Prod.mk.inj hpair
      exact .inl ⟨y', hy', heq, rfl⟩
  | none =>
      refine .inr ⟨?_, rfl⟩
      intro y hy
      exact H.find_eq_none hfind (y.stored, y) (List.mem_map_of_mem hy)

theorem timerTransition_cases (hb : Represents ⟨states, metadata⟩ T T places)
    (hp : places[idx]? = some p) (hstate : states[idx]? = some state)
    (ht : state.timerTransition = some transition) :
    ∃ x, T.timedAt p = some x ∧
      transition = x.timerTransition (Numbering.number places) (T.fallback p) := by
  obtain rfl := hb.state_eq hp hstate
  obtain ⟨x, hx, rfl⟩ := Option.map_eq_some_iff.mp ht
  exact ⟨x, hx, rfl⟩

/-- A fallback leads home, or it was never given a target. -/
theorem fallback_cases (hT : T.Grows H) (hb : Represents ⟨states, metadata⟩ T T places)
    (hp : p ∈ places) :
    (T.fallback p).newState = some homeStateIdx ∨ ∃ p', p = p' ++ [.wait] ∧ T.fallback p = {} := by
  rcases hb.origin p hp with rfl | ⟨x, hx, -, rfl, -⟩ | ⟨x, p', hx, -, rfl⟩
  · exact .inl rfl
  · exact .inl (hT.fallback_newState hx)
  · exact .inr ⟨p', rfl, hT.fallback_wait p'⟩

theorem timerMs_fallback (T : Trie) (p : Place) : (T.fallback p).timerMs = none := by
  unfold Trie.fallback
  split
  · rfl
  · split <;> rfl

end Represents

/-! ## Straight machines -/

/-- The placements behind a generated machine, straight for its layer. -/
structure StraightMachine (H : QHash) (layer : Layer) (states : List State) where
  trie : Trie
  metadata : List StateMetadata
  places : List Place
  grows : trie.Grows H
  represents : Represents ⟨states, metadata⟩ trie trie places
  straight : Straight layer.occurrences trie

/-- The machine of a layer whose triggers are kept apart is straight. -/
theorem exists_straightMachine {H : QHash} {layer : Layer} {states : List State}
    (h : generateStates H layer = .ok states) (hsep : KeptApart layer.occurrences) :
    Nonempty (StraightMachine H layer states) := by
  obtain ⟨T, metadata, places, htrie, hT, hb⟩ := trie_of_generateStates h
  exact ⟨⟨T, metadata, places, hT, hb, straight_of_trie hsep htrie⟩⟩

/-- Events that an edge along each symbol of a place accepts. -/
def Spelled (events : List InputEvent) (p : Place) : Prop :=
  List.Forall₂ (fun s e ↦ Symbol.eq s e.symbol = true) (Place.syms p) events

namespace StraightMachine

variable {H : QHash} {layer : Layer} {states : List State} (M : StraightMachine H layer states)
  {ms : List Moment} {idx idx' n now : ℕ} {timer : Option ℕ} {p : Place} {state : State}
  {e : InputEvent} {transition : Transition} {x y : Placement} {j : ℕ}

def edge (y : Placement) : Transition := y.transition (Numbering.number M.places)

/-- The timer transition that the first placement with a wait attached. -/
def reaction (x : Placement) : Transition :=
  x.timerTransition (Numbering.number M.places) (M.trie.fallback x.tgt)

theorem home_place : M.places[homeStateIdx]? = some [] := M.represents.home

theorem idx_eq_home_iff (hp : M.places[idx]? = some p) : idx = homeStateIdx ↔ p = [] := by
  constructor
  · rintro rfl
    rw [M.home_place] at hp
    exact (Option.some.inj hp).symm
  · rintro rfl
    exact Numbering.inj_of_nodup M.represents.nodup hp M.home_place

theorem input_cases (hp : M.places[idx]? = some p) (hstate : states[idx]? = some state)
    (e : InputEvent) :
    (∃ y ∈ M.trie.edgesAt p, y.stored.eq e = true ∧
      Mapper.transitionFor H state e = M.edge y) ∨
    (∀ y ∈ M.trie.edgesAt p, y.stored.eq e = false) ∧
      Mapper.transitionFor H state e = M.trie.fallback p :=
  M.represents.transitionFor_cases hp hstate

theorem firstAt_of_edge (hy : y ∈ M.trie.edgesAt p) :
    firstAt layer.occurrences y.dest = some y.toOccurrence := by
  obtain ⟨hmem, hfresh, -⟩ := Trie.mem_edgesAt.mp hy
  exact M.straight.firstAt_of_fresh hmem hfresh

theorem exists_of_mem {o : Occurrence} (ho : o ∈ layer.occurrences) :
    ∃ x ∈ M.trie, x.toOccurrence = o := by
  rw [← M.straight.occurrences] at ho
  simpa using ho

include M in
/-- The waits of two occurrences that lead to one place are the same, if the
first that leads there has one. -/
theorem timer_agrees {o c : Occurrence} (ho : o ∈ layer.occurrences)
    (hc : firstAt layer.occurrences o.dest = some c) (hctimer : c.pass.timer.isSome = true)
    (hotimer : o.pass.timer.isSome = true) : c.pass.timer = o.pass.timer := by
  obtain ⟨x, hx, rfl⟩ := M.exists_of_mem ho
  rcases M.straight.agrees M.grows hx hc with rfl | ⟨-, -, -, htimer⟩
  · rfl
  · exact htimer hctimer hotimer

theorem edge_of_trigger (hsep : layer.Separated) (hp : M.places[idx]? = some p)
    (hstate : states[idx]? = some state) {o : Occurrence} (ho : o ∈ layer.occurrences)
    (hsrc : o.src = p) (he : o.input.symbol = e.symbol) :
    ∃ y ∈ M.trie.edgesAt p, y.dest = o.dest ∧ Mapper.transitionFor H state e = M.edge y := by
  rcases M.input_cases hp hstate e with ⟨y, hy, heq, hedge⟩ | ⟨hne, -⟩
  · refine ⟨y, hy, ?_, hedge⟩
    obtain ⟨hmem, -, hysrc⟩ := Trie.mem_edgesAt.mp hy
    have hinput : y.input.eq o.input = true := by
      rw [InputEvent.eq_congr (M.straight.symbol y hmem).symm he]
      exact heq
    have hsymbol := hsep.appsApart _ (M.straight.mem hmem) o ho (hysrc.trans hsrc.symm) hinput
    simp [Occurrence.dest, hysrc, hsrc, hsymbol]
  · obtain ⟨x, hx, rfl⟩ := M.exists_of_mem ho
    obtain ⟨y, hy, hfresh, hysrc, hstored, -⟩ := M.grows.creator hx
    have hsymbol : y.stored.symbol = e.symbol := by
      rw [hstored, M.straight.symbol x hx, he]
    have hedge : y ∈ M.trie.edgesAt p := Trie.mem_edgesAt.mpr ⟨hy, hfresh, hysrc.trans hsrc⟩
    have heq := InputEvent.eq_of_symbol_eq hsymbol
    rw [hne y hedge] at heq
    cases heq

theorem timer_cases (hp : M.places[idx]? = some p) (hstate : states[idx]? = some state)
    (ht : state.timerTransition = some transition) :
    ∃ x, M.trie.timedAt p = some x ∧ x ∈ M.trie ∧ x.tgt = p ∧ x.dest = p ∧
      transition = M.reaction x := by
  obtain ⟨x, hx, rfl⟩ := M.represents.timerTransition_cases hp hstate ht
  obtain ⟨hmem, htimer, rfl⟩ := Trie.timedAt_eq_some hx
  exact ⟨x, hx, hmem, rfl, (M.straight.tgt_of_timer hmem htimer).symm, rfl⟩

theorem exists_timedAt {o : Occurrence} (hmem : o ∈ layer.occurrences)
    (ht : o.pass.timer.isSome) :
    ∃ x, M.trie.timedAt o.dest = some x ∧
      firstTimedAt layer.occurrences o.dest = some x.toOccurrence := by
  have htimed := M.straight.timedAt o.dest
  cases hx : M.trie.timedAt o.dest with
  | none =>
      rw [hx, eq_comm, Option.map_none, firstTimedAt, List.find?_eq_none] at htimed
      exact (htimed o hmem (by simp [ht])).elim
  | some x =>
      rw [hx] at htimed
      exact ⟨x, rfl, htimed.symm⟩

theorem place_of_edge (hy : y ∈ M.trie) (hn : (M.edge y).newState = some n) :
    M.places[n]? = some y.tgt := by
  have hnumber : n = Numbering.number M.places y.tgt := (Option.some.inj hn).symm
  rw [hnumber]
  exact Numbering.getElem?_number (M.represents.tgt_mem y hy)

theorem place_of_reaction (hx : M.trie.timedAt x.tgt = some x)
    (hn : (M.reaction x).newState = some n) : M.places[n]? = some x.timerPlace := by
  have hmem := (Trie.timedAt_eq_some hx).1
  have hnew := x.timerTransition_newState M.represents.number_home
    (M.grows.fallback_newState hmem)
  have hnumber : n = Numbering.number M.places x.timerPlace :=
    Option.some.inj (hn.symm.trans hnew)
  rw [hnumber]
  exact Numbering.getElem?_number (M.represents.timer_mem x _ hx)

theorem reaction_of_midWait (hmid : x.pass.midWait = true) :
    M.reaction x = { newState := some (Numbering.number M.places x.timerPlace) } := by
  obtain ⟨⟨ms, hms⟩, hfinal⟩ := LoopPass.timer_of_midWait hmid
  simp [reaction, Placement.timerTransition, hms, hfinal]

theorem reaction_of_final {ms : ℕ} (ht : x.pass.timer = some (.minimumWait ms))
    (hfinal : x.pass.final = true) :
    M.reaction x = {
      outputs := x.sequence.binds.map .bind
      newState := some homeStateIdx
      owner := some x.owner } := by
  simp [reaction, Placement.timerTransition, ht, hfinal]

theorem place_of_fallback (hp : p ∈ M.places) (hn : (M.trie.fallback p).newState = some n) :
    M.places[n]? = some [] := by
  rcases M.represents.fallback_cases M.grows hp with h | ⟨p', -, h⟩
  · rw [h] at hn
    cases hn
    exact M.home_place
  · rw [h] at hn
    cases hn

theorem dest_of_edge (hy : y ∈ M.trie.edgesAt p) :
    y.dest = p ++ [.sym y.stored.symbol] := by
  obtain ⟨hmem, -, rfl⟩ := Trie.mem_edgesAt.mp hy
  rw [Occurrence.dest, M.straight.symbol y hmem]

theorem spelled_taken {L : ℕ} (hp : M.places[idx]? = some p)
    (hms : p ≠ [] → Spelled (consumed ms) p) (hy : y ∈ M.trie.edgesAt p)
    (heq : y.stored.eq e = true) :
    Spelled (consumed (ms ++ [.taken L idx (some e) now transition])) y.dest := by
  rw [consumed_taken, M.dest_of_edge hy, Spelled, Place.syms_append]
  have hlast : List.Forall₂ (fun s e ↦ Symbol.eq s e.symbol = true)
      (Place.syms [.sym y.stored.symbol]) [e] := .cons heq .nil
  by_cases hhome : p = []
  · subst hhome
    rw [(M.idx_eq_home_iff hp).mpr rfl, if_pos rfl]
    exact hlast
  · have hidx : idx ≠ homeStateIdx := fun h ↦ hhome ((M.idx_eq_home_iff hp).mp h)
    rw [if_neg hidx]
    exact List.rel_append (hms hhome) hlast

theorem reaction_timerMs : (M.reaction x).timerMs = none := by
  unfold reaction Placement.timerTransition
  split
  · split <;> rfl
  · exact Represents.timerMs_fallback _ _

theorem owner_of_edge (h : (M.edge y).owner = some j) :
    y.owner = j ∧ y.pass.isLast = true := by
  simp only [edge, Placement.transition, newTransition] at h
  split at h
  · rename_i hlast
    exact ⟨by simpa using h, hlast⟩
  · cases h

theorem owner_of_fallback : (M.trie.fallback p).owner = none := by
  unfold Trie.fallback
  split
  · rfl
  · split <;> rfl

theorem owner_of_reaction (h : (M.reaction x).owner = some j) :
    x.owner = j ∧ x.pass.final = true ∧ ∃ ms, x.pass.timer = some (.minimumWait ms) := by
  simp only [reaction, Placement.timerTransition] at h
  split at h
  · rename_i ms htimer
    split at h
    · rename_i hfinal
      exact ⟨by simpa using h, hfinal, ms, htimer⟩
    · simp at h
  · rw [M.owner_of_fallback] at h
    cases h

/-- A run told by places instead of indices. -/
inductive Walk (L : ℕ) : List Moment → Place → Option ℕ → Prop
  | home : Walk L [] [] none
  | check {ms : List Moment} {p : Place} {now : ℕ} {timer : Option ℕ}
      (hwalk : Walk L ms p timer) (hnow : ∀ m ∈ ms, m.time ≤ now)
      (hquiet : ∀ d, timer = some d → d ≤ now → M.trie.timedAt p = none) :
      Walk L (ms ++ [.poll now]) p timer
  | edge {ms : List Moment} {p : Place} {idx now : ℕ} {timer : Option ℕ} {e : InputEvent}
      {y : Placement} (hwalk : Walk L ms p timer) (hnow : ∀ m ∈ ms, m.time ≤ now)
      (hp : M.places[idx]? = some p) (hy : y ∈ M.trie.edgesAt p) (heq : y.stored.eq e = true) :
      Walk L (ms ++ [.taken L idx (some e) now (M.edge y)]) y.tgt ((M.edge y).deadline now)
  | fallback {ms : List Moment} {p : Place} {idx now : ℕ} {timer : Option ℕ} {e : InputEvent}
      (hwalk : Walk L ms p timer) (hnow : ∀ m ∈ ms, m.time ≤ now)
      (hp : M.places[idx]? = some p) (hne : ∀ y ∈ M.trie.edgesAt p, y.stored.eq e = false) :
      Walk L (ms ++ [.taken L idx (some e) now (M.trie.fallback p)]) [] none
  | expire {ms : List Moment} {idx d polled now : ℕ} {x : Placement}
      (hwalk : Walk L ms x.tgt (some d)) (hpolled : ∀ m ∈ ms, m.time ≤ polled)
      (hnow : polled ≤ now) (hp : M.places[idx]? = some x.tgt) (hd : d ≤ polled)
      (hx : M.trie.timedAt x.tgt = some x) :
      Walk L (ms ++ [.poll polled, .taken L idx none now (M.reaction x)]) x.timerPlace none

/-- Every run that takes no unassigned transition is a walk. -/
theorem walk_of_run {L : ℕ} (hrun : Run H L states ms idx timer)
    (hassigned : ∀ m ∈ ms, m.Assigned) :
    ∃ p, M.places[idx]? = some p ∧ M.Walk L ms p timer := by
  induction hrun with
  | home => exact ⟨[], M.home_place, .home⟩
  | poll hrun hnow hstate hquiet ih =>
      obtain ⟨p, hp, hwalk⟩ := ih fun m hm ↦ hassigned m (List.mem_append_left _ hm)
      refine ⟨p, hp, hwalk.check hnow fun d hd hle ↦ ?_⟩
      have hnone := hquiet d hd hle
      obtain rfl := M.represents.state_eq hp hstate
      exact Option.map_eq_none_iff.mp hnone
  | @expire ms idx idx' d polled now state transition hrun hpolled hnow hstate hd ht hidx ih =>
      obtain ⟨p, hp, hwalk⟩ := ih fun m hm ↦ hassigned m (List.mem_append_left _ hm)
      obtain ⟨x, hx, -, rfl, -, rfl⟩ := M.timer_cases hp hstate ht
      obtain ⟨n, hn⟩ := Option.ne_none_iff_exists'.mp
        (hassigned (.taken L idx none now (M.reaction x)) (by simp))
      obtain rfl := hidx n hn
      refine ⟨x.timerPlace, M.place_of_reaction hx hn, ?_⟩
      have htimer : (M.reaction x).deadline now = none := by
        simp [Transition.deadline, M.reaction_timerMs]
      rw [htimer]
      exact hwalk.expire hpolled hnow hp hd hx
  | @input ms idx idx' now timer state e transition hrun hnow hstate ht hidx ih =>
      obtain ⟨p, hp, hwalk⟩ := ih fun m hm ↦ hassigned m (List.mem_append_left _ hm)
      obtain ⟨n, hn⟩ := Option.ne_none_iff_exists'.mp
        (hassigned (.taken L idx (some e) now transition) (by simp))
      obtain rfl := hidx n hn
      subst ht
      rcases M.input_cases hp hstate e with ⟨y, hy, heq, hedge⟩ | ⟨hne, hfallback⟩
      · rw [hedge] at hn ⊢
        exact ⟨y.tgt, M.place_of_edge (Trie.mem_edgesAt.mp hy).1 hn, hwalk.edge hnow hp hy heq⟩
      · rw [hfallback] at hn ⊢
        have htimer : (M.trie.fallback p).deadline now = none := by
          simp [Transition.deadline, Represents.timerMs_fallback]
        rw [htimer]
        exact ⟨[], M.place_of_fallback (List.mem_of_getElem? hp) hn, hwalk.fallback hnow hp hne⟩

theorem tgt_of_edge (hy : y ∈ M.trie.edgesAt p) (hne : y.tgt ≠ []) : y.tgt = y.dest := by
  have h := M.straight.tgt y (Trie.mem_edgesAt.mp hy).1
  split at h
  · exact (hne h).elim
  · exact h

theorem idx_ne_home (hp : M.places[idx]? = some p) (hne : p ≠ []) : idx ≠ homeStateIdx :=
  fun h ↦ hne ((M.idx_eq_home_iff hp).mp h)

theorem dest_of_timedAt (hx : M.trie.timedAt x.tgt = some x) : x.tgt = x.dest := by
  obtain ⟨hmem, htimer, -⟩ := Trie.timedAt_eq_some hx
  exact M.straight.tgt_of_timer hmem htimer

theorem spelled_of_walk {L : ℕ} (hwalk : M.Walk L ms p timer) (hne : p ≠ []) :
    Spelled (consumed ms) p := by
  induction hwalk with
  | home => exact (hne rfl).elim
  | check hwalk hnow hquiet ih => simpa using ih hne
  | edge hwalk hnow hp hy heq ih =>
      rw [M.tgt_of_edge hy hne]
      exact M.spelled_taken hp ih hy heq
  | fallback => exact (hne rfl).elim
  | @expire ms idx d polled now x hwalk hpolled hnow hp hd hx ih =>
      have htgt : x.tgt ≠ [] := by
        rw [M.dest_of_timedAt hx]
        exact x.dest_ne_nil
      have hmid : x.pass.midWait = true := by
        by_contra hmid
        exact hne (Placement.timerPlace_of_not_midWait (by simpa using hmid))
      have hpoll : ms ++ [.poll polled, .taken L idx none now (M.reaction x)] =
          (ms ++ [.poll polled]) ++ [.taken L idx none now (M.reaction x)] := by simp
      rw [hpoll, consumed_taken, if_neg (M.idx_ne_home hp htgt), consumed_poll,
        Placement.timerPlace_of_midWait hmid]
      simpa [Spelled] using ih htgt

theorem spelled_of_run {L : ℕ} (hrun : Run H L states ms idx timer)
    (hassigned : ∀ m ∈ ms, m.Assigned) :
    ∃ p, M.places[idx]? = some p ∧ (p ≠ [] → Spelled (consumed ms) p) := by
  obtain ⟨p, hp, hwalk⟩ := M.walk_of_run hrun hassigned
  exact ⟨p, hp, M.spelled_of_walk hwalk⟩

end StraightMachine

end Keybinder

import Keybinder.Runs

/-!
# A match consumes its own sequence

When a transition with the binds of a sequence is taken, the events since
HOME should be the triggers of the sequence.  They are in every separated
layer, as long as no transition without a target was taken; in other layers
a sequence may be completed from HOME without its first triggers.
-/

namespace Keybinder

/-- If the last transition of a run carries the binds of a sequence, then
the events consumed since HOME are its key and app triggers, in order. -/
def MatchSound (layer : Layer) (ms : List Moment) (transition : Transition) : Prop :=
  ∀ j, transition.owner = some j → ∃ s, layer.sequenceRemappings[j]? = some s ∧
    List.Forall₂ (fun trigger e ↦ InputEvent.eq trigger e = true) s.inputs (consumed ms)

namespace StraightMachine

variable {H : QHash} {layer : Layer} {states : List State} (M : StraightMachine H layer states)
  {events : List InputEvent} {x : Placement}

/-- Spelling the place after the last trigger of a sequence is consuming
its triggers. -/
theorem inputs_of_spelled (hx : x ∈ M.trie) (hfinal : x.pass.final = true)
    (hspelled : Spelled events x.dest) :
    ∃ s, layer.sequenceRemappings[x.owner]? = some s ∧
      List.Forall₂ (fun trigger e ↦ InputEvent.eq trigger e = true) s.inputs events := by
  obtain ⟨hs, hof⟩ := Layer.of_mem_occurrences (M.straight.mem hx)
  refine ⟨_, hs, ?_⟩
  rw [Spelled, hof.syms_eq, hof.read_eq hfinal] at hspelled
  exact List.forall₂_map_left_iff.mp hspelled

end StraightMachine

/-- Two Default sequences, the first a prefix of the second. -/
def prefixLayer : Layer where
  layerName := "prefix"
  basicRemappings := []
  sequenceRemappings :=
    [⟨.default, [.keyPress .a], [.pressKey .x]⟩,
     ⟨.default, [.keyPress .a, .keyPress .b], [.pressKey .y]⟩]

/-- There B alone completes the second sequence. -/
theorem prefixLayer_unsound : ∃ states ms transition idx timer,
    generateStates (.first _) prefixLayer = .ok states ∧
    Run (.first _) 0 states
      (ms ++ [.taken 0 homeStateIdx (some (.key ⟨.b, .press⟩)) 0 transition]) idx timer ∧
    ¬ MatchSound prefixLayer
      (ms ++ [.taken 0 homeStateIdx (some (.key ⟨.b, .press⟩)) 0 transition]) transition := by
  refine ⟨_, [], _, _, _, rfl, .input .home (by simp) rfl rfl fun n hn ↦ (Option.some.inj hn), ?_⟩
  intro hsound
  obtain ⟨s, hs, hinputs⟩ := hsound 1 rfl
  cases hs
  have hlength := hinputs.length_eq
  revert hlength
  decide

/-- Match soundness, for separated layers and runs without unassigned
targets. -/
theorem run_matchSound (H : QHash) (layer : Layer) (states : List State)
    (hgenerate : generateStates H layer = .ok states) (hsep : layer.Separated)
    (ms : List Moment) {L idx idx' now : ℕ} {timer : Option ℕ} {event : Option InputEvent}
    {transition : Transition}
    (hrun : Run H L states (ms ++ [.taken L idx event now transition]) idx' timer)
    (hassigned : ∀ m ∈ ms, m.Assigned) :
    MatchSound layer (ms ++ [.taken L idx event now transition]) transition := by
  obtain ⟨M⟩ := exists_straightMachine hgenerate hsep.keptApart
  intro j hj
  rcases hrun.taken_cases with ⟨e, state, timer', rfl, hrun', -, hstate, rfl⟩ |
    ⟨ms', polled, d, state, rfl, rfl, hrun', -, -, hstate, ht⟩
  · obtain ⟨p, hp, hspelled⟩ := M.spelled_of_run hrun' hassigned
    rcases M.input_cases hp hstate e with ⟨y, hy, heq, hedge⟩ | ⟨-, hfallback⟩
    · rw [hedge] at hj
      obtain ⟨rfl, hlast⟩ := M.owner_of_edge hj
      exact M.inputs_of_spelled (Trie.mem_edgesAt.mp hy).1 (LoopPass.timer_of_isLast hlast).2
        (M.spelled_taken hp hspelled hy heq)
    · rw [hfallback, M.owner_of_fallback] at hj
      cases hj
  · obtain ⟨p, hp, hspelled⟩ :=
      M.spelled_of_run hrun' fun m hm ↦ hassigned m (List.mem_append_left _ hm)
    obtain ⟨x, -, hx, rfl, hdest, rfl⟩ := M.timer_cases hp hstate ht
    obtain ⟨rfl, hfinal, -⟩ := M.owner_of_reaction hj
    have hidx : idx ≠ homeStateIdx := by
      rw [Ne, M.idx_eq_home_iff hp, ← hdest]
      exact x.dest_ne_nil
    have hevents := hspelled (by rw [← hdest]; exact x.dest_ne_nil)
    rw [← hdest] at hevents
    rw [consumed_taken, if_neg hidx, consumed_poll]
    simpa using M.inputs_of_spelled hx hfinal hevents

def pairLayer : Layer where
  layerName := "pair"
  basicRemappings := []
  sequenceRemappings := [⟨.default, [.keyPress .a, .keyPress .b], [.pressKey .y]⟩]

def pairStates : List State := (generateStates (.first _) pairLayer).toOption.getD []

def pairRun : List Moment :=
  [.taken 0 0 (some (.key ⟨.a, .press⟩)) 5 { newState := some 1 },
   .taken 0 1 (some (.key ⟨.b, .press⟩)) 9
     { outputs := [.bind (.pressKey .y)], newState := some 0, owner := some 0 }]

theorem pairRun_run : Run (.first _) 0 pairStates pairRun 0 none := by
  have hfirst : Run (.first _) 0 pairStates
      [.taken 0 0 (some (.key ⟨.a, .press⟩)) 5 { newState := some 1 }] 1 none :=
    .input .home (by simp) rfl rfl fun n hn ↦ Option.some.inj hn
  exact .input hfirst (by simp [Moment.time]) rfl rfl fun n hn ↦ Option.some.inj hn

/-- A then B completes the pair, and both were consumed. -/
theorem run_matchSound_pair : consumed pairRun = [.key ⟨.a, .press⟩, .key ⟨.b, .press⟩] ∧
    MatchSound pairLayer pairRun
      { outputs := [.bind (.pressKey .y)], newState := some 0, owner := some 0 } :=
  ⟨rfl, run_matchSound (.first _) pairLayer pairStates rfl (by decide)
    [.taken 0 0 (some (.key ⟨.a, .press⟩)) 5 { newState := some 1 }] pairRun_run
    (by simp [Moment.Assigned])⟩

end Keybinder

import Mathlib.Data.List.ModifyLast
import Keybinder.Tracking

/-!
# Waits are enforced

The binds of a sequence should be executed only when its waits were kept.
The duration of a wait lies on the edge of the first sequence that reads the
trigger, so a maximum wait that is listed after an untimed trigger is lost.
Otherwise every check of the timer is on the right side of the deadline.
-/

namespace Keybinder

/-- The time an event was processed, and the checks of the timer after it. -/
structure Reading where
  time : ℕ
  checks : List ℕ
  deriving DecidableEq

namespace Reading

def check (now : ℕ) (r : Reading) : Reading := { r with checks := r.checks ++ [now] }

/-- Everything about the reading is over by a time. -/
def Before (r : Reading) (now : ℕ) : Prop := r.time ≤ now ∧ ∀ check ∈ r.checks, check ≤ now

/-- Every check came before a maximum wait had elapsed; some check came when
a minimum wait had. -/
def Keeps (timer : Option Timer) (r : Reading) : Prop :=
  match timer with
  | none => True
  | some (.maximumWait ms) => ∀ check ∈ r.checks, check < r.time + ms
  | some (.minimumWait ms) => ∃ check ∈ r.checks, r.time + ms ≤ check

end Reading

def addReading (rs : List Reading) : Moment → List Reading
  | .poll now => rs.modifyLast (Reading.check now)
  | .taken _ _ (some _) now _ => rs ++ [⟨now, []⟩]
  | _ => rs

/-- The readings since the machine last left HOME. -/
def readings (ms : List Moment) : List Reading := (sinceHome ms).foldl addReading []

/-- Each trigger of the sequence was read once, with its wait kept. -/
structure WaitsKept (s : SequenceTrigger) (rs : List Reading) : Prop where
  kept : List.Forall₂ (fun pass r ↦ Reading.Keeps pass.timer r) (loopPasses [] s.sequence) rs
  ordered : rs.Pairwise fun r r' ↦ r.Before r'.time

/-- If the last transition of a run carries the binds of a sequence, then its
waits were kept. -/
def WaitsEnforced (layer : Layer) (ms : List Moment) (transition : Transition) : Prop :=
  ∀ j, transition.owner = some j → ∃ s, layer.sequenceRemappings[j]? = some s ∧
    WaitsKept s (readings ms)

/-- A maximum wait that further triggers follow. -/
def LoopPass.midTimeout (pass : LoopPass) : Bool :=
  match pass.timer with
  | some (.maximumWait _) => !pass.final
  | _ => false

/-- Where the sequence has a maximum wait before it goes on, the first
occurrence that leads to the same place has a wait. -/
def Layer.WaitsTimed (layer : Layer) (s : SequenceTrigger) (owner : ℕ) : Prop :=
  ∀ o ∈ s.occurrences owner, o.pass.midTimeout = true →
    ∀ c ∈ firstAt layer.occurrences o.dest, c.pass.timer.isSome = true

instance (layer : Layer) (s : SequenceTrigger) (owner : ℕ) : Decidable (layer.WaitsTimed s owner) :=
  inferInstanceAs (Decidable (∀ o ∈ s.occurrences owner, o.pass.midTimeout = true →
    ∀ c ∈ firstAt layer.occurrences o.dest, c.pass.timer.isSome = true))

/-- The deadline that the moment sets does not overflow. -/
def Moment.DeadlineFits : Moment → Prop
  | .taken _ _ _ now transition => ∀ ms ∈ transition.timerMs, ms + now < uint64Size
  | _ => True

section

variable {ms : List Moment} {L idx now : ℕ} {e : InputEvent} {transition : Transition}

theorem readings_poll : readings (ms ++ [.poll now]) =
    (readings ms).modifyLast (Reading.check now) := by
  simp [readings, since, addReading]

theorem readings_input : readings (ms ++ [.taken L idx (some e) now transition]) =
    (if idx = homeStateIdx then [] else readings ms) ++ [⟨now, []⟩] := by
  by_cases hidx : idx = homeStateIdx <;> simp [readings, since, hidx, addReading]

theorem readings_expire : readings (ms ++ [.taken L idx none now transition]) =
    if idx = homeStateIdx then [] else readings ms := by
  by_cases hidx : idx = homeStateIdx <;> simp [readings, since, hidx, addReading]

theorem readings_recent (ms : List Moment) : readings (recent ms) = readings ms := by
  rw [readings, sinceHome_recent, readings]

theorem Reading.Before.checked {r : Reading} (h : r.Before now) : (r.check now).Before now := by
  refine ⟨h.1, fun check hcheck ↦ ?_⟩
  rcases List.mem_append.mp hcheck with hcheck | hcheck
  · exact h.2 check hcheck
  · exact (List.mem_singleton.mp hcheck).le

theorem Reading.Before.mono {r : Reading} {now' : ℕ} (h : r.Before now) (hle : now ≤ now') :
    r.Before now' :=
  ⟨h.1.trans hle, fun check hcheck ↦ (h.2 check hcheck).trans hle⟩

theorem readings_before (hnow : ∀ m ∈ ms, m.time ≤ now) : ∀ r ∈ readings ms, r.Before now := by
  induction ms using List.reverseRecOn with
  | nil => simp [readings, sinceHome]
  | append_singleton ms m ih =>
      have ih := ih fun m hm ↦ hnow m (List.mem_append_left _ hm)
      have hm := hnow m (by simp)
      cases m with
      | layerSet layer => simp [readings, since]
      | queued timeToEmit e => simpa [readings, since] using ih
      | poll polled =>
          rw [readings_poll]
          rcases List.eq_nil_or_concat (readings ms) with hnil | ⟨rs, r, hrs⟩
          · simp [hnil, List.modifyLast, List.modifyLast.go]
          · rw [hrs, List.concat_eq_append] at ih ⊢
            rw [List.modifyLast_concat]
            intro r' hr'
            rcases List.mem_append.mp hr' with hr' | hr'
            · exact ih r' (List.mem_append_left _ hr')
            · have hr := ih r (by simp)
              rw [List.mem_singleton.mp hr']
              refine ⟨hr.1, fun check hcheck ↦ ?_⟩
              rcases List.mem_append.mp hcheck with hcheck | hcheck
              · exact hr.2 check hcheck
              · rw [List.mem_singleton.mp hcheck]
                exact hm
      | taken layer idx event time transition =>
          cases event with
          | none =>
              rw [readings_expire]
              split
              · simp
              · exact ih
          | some e =>
              rw [readings_input]
              intro r hr
              rcases List.mem_append.mp hr with hr | hr
              · split at hr
                · simp at hr
                · exact ih r hr
              · rw [List.mem_singleton.mp hr]
                exact ⟨hm, by simp⟩

end

/-! ## Readings along a place -/

/-- The readings that lead to a place and the timer there.  The wait of a
place is the one of the first occurrence `c` that leads to it. -/
inductive Along (O : List Occurrence) : Place → Option ℕ → List Reading → Prop
  | nil : Along O [] none []
  | sym {p : Place} {timer : Option ℕ} {rs : List Reading} {r : Reading} {s : Symbol}
      {c : Occurrence} (h : Along O p timer rs) (hr : ∀ r' ∈ rs, r'.Before r.time)
      (hc : firstAt O (p ++ [.sym s]) = some c)
      (hchecks : ∀ d ∈ c.pass.timer, ∀ check ∈ r.checks, check < r.time + d.ms) :
      Along O (p ++ [.sym s]) (c.pass.timer.map fun d ↦ r.time + d.ms) (rs ++ [r])
  | wait {p : Place} {timer : Option ℕ} {rs : List Reading} {r : Reading} {s : Symbol}
      {c : Occurrence} {d : Timer} {check : ℕ} (h : Along O p timer rs)
      (hr : ∀ r' ∈ rs, r'.Before r.time) (hc : firstAt O (p ++ [.sym s]) = some c)
      (hd : c.pass.timer = some d) (hcheck : check ∈ r.checks) (hle : r.time + d.ms ≤ check) :
      Along O (p ++ [.sym s, .wait]) none (rs ++ [r])

namespace Along

variable {O : List Occurrence} {p : Place} {timer : Option ℕ} {rs : List Reading}

theorem pairwise (h : Along O p timer rs) : rs.Pairwise fun r r' ↦ r.Before r'.time := by
  induction h with
  | nil => exact .nil
  | sym h hr hc hchecks ih =>
      refine List.pairwise_append.mpr ⟨ih, by simp, fun r' hr' r'' hr'' ↦ ?_⟩
      rw [List.mem_singleton.mp hr'']
      exact hr r' hr'
  | wait h hr hc hd hcheck hle ih =>
      refine List.pairwise_append.mpr ⟨ih, by simp, fun r' hr' r'' hr'' ↦ ?_⟩
      rw [List.mem_singleton.mp hr'']
      exact hr r' hr'

theorem checked {now : ℕ} (h : Along O p timer rs)
    (hquiet : ∀ d ∈ timer, now < d) : Along O p timer (rs.modifyLast (Reading.check now)) := by
  cases h with
  | nil => exact .nil
  | @sym p timer rs r s c h hr hc hchecks =>
      rw [List.modifyLast_concat]
      refine .sym (r := r.check now) h hr hc ?_
      intro d hd check hcheck
      rcases List.mem_append.mp hcheck with hcheck | hcheck
      · exact hchecks d hd check hcheck
      · rw [List.mem_singleton.mp hcheck]
        exact hquiet (r.time + d.ms) (by simp [Option.mem_def.mp hd])
  | wait h hr hc hd hcheck hle =>
      rw [List.modifyLast_concat]
      exact .wait h hr hc hd (List.mem_append_left _ hcheck) hle

theorem sym_inv {s : Symbol} (h : Along O (p ++ [.sym s]) timer rs) :
    ∃ timer' rs' r c, rs = rs' ++ [r] ∧ Along O p timer' rs' ∧ (∀ r' ∈ rs', r'.Before r.time) ∧
      firstAt O (p ++ [.sym s]) = some c ∧ timer = c.pass.timer.map (fun d ↦ r.time + d.ms) ∧
      ∀ d ∈ c.pass.timer, ∀ check ∈ r.checks, check < r.time + d.ms := by
  generalize hq : p ++ [Token.sym s] = q at h
  cases h with
  | nil => simp at hq
  | @sym p' timer' rs' r s' c h hr hc hchecks =>
      obtain ⟨rfl, -⟩ := List.append_inj' hq rfl
      exact ⟨timer', rs', r, c, rfl, h, hr, hq ▸ hc, rfl, hchecks⟩
  | @wait p' timer' rs' r s' c d check h hr hc hd hcheck hle =>
      have hq' : p ++ [Token.sym s] = (p' ++ [.sym s']) ++ [.wait] := by simpa using hq
      have hlast := (List.append_inj' hq' rfl).2
      simp at hlast

theorem wait_inv {s : Symbol} (h : Along O (p ++ [.sym s, .wait]) timer rs) :
    ∃ timer' rs' r c d, rs = rs' ++ [r] ∧ Along O p timer' rs' ∧ firstAt O (p ++ [.sym s]) = some c ∧
      c.pass.timer = some d ∧ ∃ check ∈ r.checks, r.time + d.ms ≤ check := by
  generalize hq : p ++ [Token.sym s, .wait] = q at h
  cases h with
  | nil => simp at hq
  | @sym p' timer' rs' r s' c h hr hc hchecks =>
      have hq' : (p ++ [Token.sym s]) ++ [.wait] = p' ++ [.sym s'] := by simpa using hq
      have hlast := (List.append_inj' hq' rfl).2
      simp at hlast
  | @wait p' timer' rs' r s' c d check h hr hc hd hcheck hle =>
      obtain ⟨rfl, htokens⟩ := List.append_inj' hq rfl
      simp only [List.cons.injEq, and_true, Token.sym.injEq] at htokens
      exact ⟨timer', rs', r, c, d, rfl, h, htokens ▸ hc, hd, check, hcheck, hle⟩

theorem timed {d : ℕ} (h : Along O p (some d) rs) : firstTimedAt O p ≠ none := by
  generalize htimer : some d = timer at h
  cases h with
  | nil => cases htimer
  | @sym p timer rs r s c h hr hc hchecks =>
      obtain ⟨w, hw, -⟩ := Option.map_eq_some_iff.mp htimer.symm
      intro hnone
      have hmem := List.mem_of_find?_eq_some hc
      have hdest : c.dest = p ++ [.sym s] := by simpa using List.find?_some hc
      rw [firstTimedAt, List.find?_eq_none] at hnone
      exact hnone c hmem (by simp [hw, hdest])
  | wait => cases htimer

theorem expired {now d : ℕ} {s : Symbol} (h : Along O (p ++ [.sym s]) (some d) rs)
    (hle : d ≤ now) : Along O (p ++ [.sym s, .wait]) none (rs.modifyLast (Reading.check now)) := by
  obtain ⟨timer', rs', r, c, rfl, hsrc, hr, hc, htimer, -⟩ := h.sym_inv
  obtain ⟨w, hw, rfl⟩ := Option.map_eq_some_iff.mp htimer.symm
  rw [List.modifyLast_concat]
  exact .wait (r := r.check now) hsrc hr hc hw (by simp [Reading.check]) hle

end Along

namespace StraightMachine

variable {H : QHash} {layer : Layer} {states : List State} (M : StraightMachine H layer states)
  {ms : List Moment} {L idx now : ℕ} {timer : Option ℕ} {p : Place} {e : InputEvent}
  {x y : Placement}

theorem along_edge (hp : M.places[idx]? = some p)
    (halong : p ≠ [] → Along layer.occurrences p timer (readings ms))
    (hnow : ∀ m ∈ ms, m.time ≤ now) (hy : y ∈ M.trie.edgesAt p)
    (hfits : Moment.DeadlineFits (.taken L idx (some e) now (M.edge y))) :
    Along layer.occurrences y.dest ((M.edge y).deadline now)
      (readings (ms ++ [.taken L idx (some e) now (M.edge y)])) := by
  have hdest := M.dest_of_edge hy
  have hfirst := M.firstAt_of_edge hy
  have hdeadline : (M.edge y).deadline now = y.pass.timer.map fun d ↦ now + d.ms := by
    have htimer : (M.edge y).timerMs = y.pass.timer.map Timer.ms := rfl
    cases ht : y.pass.timer with
    | none => simp [Transition.deadline, htimer, ht]
    | some d =>
        have hlt : d.ms + now < uint64Size := hfits d.ms (by simp [htimer, ht])
        simp [Transition.deadline, htimer, ht, addU64_eq hlt, Nat.add_comm]
  rw [hdeadline, readings_input]
  rw [hdest] at hfirst ⊢
  by_cases hhome : p = []
  · subst hhome
    rw [if_pos ((M.idx_eq_home_iff hp).mpr rfl)]
    exact .sym (r := ⟨now, []⟩) .nil (by simp) hfirst (by simp)
  · rw [if_neg (M.idx_ne_home hp hhome)]
    exact .sym (r := ⟨now, []⟩) (halong hhome) (readings_before hnow) hfirst (by simp)

/-- On every walk without overflow the readings since HOME lead along the
current place. -/
theorem along_of_walk (hwalk : M.Walk L ms p timer) (hfits : ∀ m ∈ ms, m.DeadlineFits)
    (hne : p ≠ []) : Along layer.occurrences p timer (readings ms) := by
  induction hwalk with
  | home => exact (hne rfl).elim
  | @check ms p now timer hwalk hnow hquiet ih =>
      have halong := ih (fun m hm ↦ hfits m (List.mem_append_left _ hm)) hne
      rw [readings_poll]
      refine halong.checked fun d hd ↦ ?_
      obtain rfl := Option.mem_def.mp hd
      by_contra hle
      have hnone := hquiet d rfl (Nat.le_of_not_lt hle)
      apply halong.timed
      rw [← M.straight.timedAt p, hnone]
      rfl
  | @edge ms p idx now timer e y hwalk hnow hp hy heq ih =>
      rw [M.tgt_of_edge hy hne]
      exact M.along_edge hp (ih fun m hm ↦ hfits m (List.mem_append_left _ hm)) hnow hy
        (hfits _ (by simp))
  | fallback => exact (hne rfl).elim
  | @expire ms idx d polled now x hwalk hpolled hnow hp hd hx ih =>
      have hdest := M.dest_of_timedAt hx
      have hpoll : ms ++ [.poll polled, .taken L idx none now (M.reaction x)] =
          (ms ++ [.poll polled]) ++ [.taken L idx none now (M.reaction x)] := by simp
      have hmid : x.pass.midWait = true := by
        by_contra hmid
        exact hne (Placement.timerPlace_of_not_midWait (by simpa using hmid))
      have halong := ih (fun m hm ↦ hfits m (List.mem_append_left _ hm))
        (hdest ▸ x.dest_ne_nil)
      rw [hpoll, readings_expire, if_neg (M.idx_ne_home hp (hdest ▸ x.dest_ne_nil)), readings_poll,
        Placement.timerPlace_of_midWait hmid]
      rw [hdest, Occurrence.dest] at halong ⊢
      simpa using halong.expired hd

include M in
theorem keeps_of_next {o : Occurrence} {rs : List Reading} (ho : o ∈ layer.occurrences)
    (hfinal : o.pass.final = false)
    (htimed : o.pass.midTimeout = true →
      ∀ c ∈ firstAt layer.occurrences o.dest, c.pass.timer.isSome = true)
    (h : Along layer.occurrences o.next timer rs) :
    ∃ timer' rs' r, rs = rs' ++ [r] ∧ Along layer.occurrences o.src timer' rs' ∧
      Reading.Keeps o.pass.timer r := by
  cases ht : o.pass.timer with
  | none =>
      have hnext : o.next = o.src ++ [.sym o.input.symbol] := by
        simp [Occurrence.next, Occurrence.dest, LoopPass.midWait, ht]
      rw [hnext] at h
      obtain ⟨timer', rs', r, c, rfl, hsrc, -, -, -, -⟩ := h.sym_inv
      exact ⟨timer', rs', r, rfl, hsrc, trivial⟩
  | some d =>
      have hsome : o.pass.timer.isSome = true := by simp [ht]
      cases d with
      | maximumWait ms =>
          have hnext : o.next = o.src ++ [.sym o.input.symbol] := by
            simp [Occurrence.next, Occurrence.dest, LoopPass.midWait, ht]
          rw [hnext] at h
          obtain ⟨timer', rs', r, c, rfl, hsrc, -, hc, -, hchecks⟩ := h.sym_inv
          have hmid : o.pass.midTimeout = true := by simp [LoopPass.midTimeout, ht, hfinal]
          have hagrees := M.timer_agrees ho hc (htimed hmid c hc) hsome
          exact ⟨timer', rs', r, rfl, hsrc, hchecks (.maximumWait ms) (hagrees.trans ht)⟩
      | minimumWait ms =>
          have hnext : o.next = o.src ++ [.sym o.input.symbol, .wait] := by
            simp [Occurrence.next, Occurrence.dest, LoopPass.midWait, ht, hfinal]
          rw [hnext] at h
          obtain ⟨timer', rs', r, c, d, rfl, hsrc, hc, hd, hcheck⟩ := h.wait_inv
          have hagrees := M.timer_agrees ho hc (by simp [hd]) hsome
          obtain rfl := Option.some.inj (hd.symm.trans (hagrees.trans ht))
          exact ⟨timer', rs', r, rfl, hsrc, hcheck⟩

include M in
/-- The waits before an occurrence were kept where it is read.  Induction
from its side, one occurrence back at a time. -/
theorem keeps_of_along {s : SequenceTrigger} {j : ℕ} (hmem : s.occurrences j ⊆ layer.occurrences)
    (htimed : layer.WaitsTimed s j) {pre suf : List Occurrence} {o : Occurrence}
    {rs : List Reading} (hsplit : s.occurrences j = pre ++ o :: suf)
    (h : Along layer.occurrences o.src timer rs) :
    List.Forall₂ (fun o r ↦ Reading.Keeps o.pass.timer r) pre rs := by
  induction pre using List.reverseRecOn generalizing o suf rs timer with
  | nil =>
      have hsrc : o.src = [] := src_of_occurrencesFrom hsplit
      rw [hsrc] at h
      generalize hnil : ([] : Place) = p at h
      cases h with
      | nil => exact .nil
      | sym => simp at hnil
      | wait => simp at hnil
  | append_singleton pre o' ih =>
      have hsrc : o.src = o'.next := by simpa using src_of_occurrencesFrom hsplit
      have hfinal := (SequenceTrigger.passes_of_occurrences hsplit).1 o' (by simp)
      have ho' : o' ∈ s.occurrences j := by simp [hsplit]
      rw [hsrc] at h
      obtain ⟨timer', rs', r, rfl, hsrc', hkeeps⟩ := M.keeps_of_next (hmem ho') hfinal
        (htimed o' ho') h
      have hsplit' : s.occurrences j = pre ++ o' :: o :: suf := by simpa using hsplit
      exact List.rel_append (ih hsplit' hsrc') (.cons hkeeps .nil)

theorem waitsKept_of_along {x : Placement} {rs : List Reading} {r : Reading}
    (hx : x ∈ M.trie) (hfinal : x.pass.final = true)
    (htimed : layer.WaitsTimed x.sequence x.owner)
    (h : Along layer.occurrences x.src timer rs) (hkeeps : Reading.Keeps x.pass.timer r)
    (hordered : (rs ++ [r]).Pairwise fun r r' ↦ r.Before r'.time) :
    ∃ s, layer.sequenceRemappings[x.owner]? = some s ∧ WaitsKept s (rs ++ [r]) := by
  have ho := M.straight.mem hx
  obtain ⟨hs, -⟩ := Layer.of_mem_occurrences ho
  obtain ⟨pre, suf, hsplit⟩ := List.append_of_mem (Layer.mem_occurrences ho)
  refine ⟨_, hs, ?_, hordered⟩
  rw [(SequenceTrigger.passes_of_occurrences hsplit).2 hfinal, List.forall₂_map_left_iff]
  exact List.rel_append (M.keeps_of_along (Layer.occurrences_subset hs) htimed hsplit h)
    (.cons hkeeps .nil)

end StraightMachine

/-- Waits are enforced in every run of the machine of a separated layer, for
the sequences whose maximum waits are timed. -/
theorem run_waitsEnforced {H : QHash} {layer : Layer} {states : List State}
    (hgenerate : generateStates H layer = .ok states) (hsep : layer.Separated)
    {ms : List Moment} {L idx idx' now : ℕ} {timer : Option ℕ} {event : Option InputEvent}
    {transition : Transition}
    (hrun : Run H L states (ms ++ [.taken L idx event now transition]) idx' timer)
    (hassigned : ∀ m ∈ ms, m.Assigned)
    (hfits : ∀ m ∈ ms ++ [.taken L idx event now transition], m.DeadlineFits)
    (htimed : ∀ j s, transition.owner = some j → layer.sequenceRemappings[j]? = some s →
      layer.WaitsTimed s j) :
    WaitsEnforced layer (ms ++ [.taken L idx event now transition]) transition := by
  obtain ⟨M⟩ := exists_straightMachine hgenerate hsep.keptApart
  intro j hj
  rcases hrun.taken_cases with ⟨e, state, timer', rfl, hrun', hnow, hstate, rfl⟩ |
    ⟨ms', polled, d, state, rfl, rfl, hrun', hd, hpolled, hstate, ht⟩
  · obtain ⟨p, hp, hwalk⟩ := M.walk_of_run hrun' hassigned
    rcases M.input_cases hp hstate e with ⟨y, hy, heq, hedge⟩ | ⟨-, hfallback⟩
    · rw [hedge] at hj hfits htimed ⊢
      obtain ⟨rfl, hlast⟩ := M.owner_of_edge hj
      obtain ⟨hnone, hfinal⟩ := LoopPass.timer_of_isLast hlast
      have hmem := (Trie.mem_edgesAt.mp hy).1
      have hs := (Layer.of_mem_occurrences (M.straight.mem hmem)).1
      have halong := M.along_edge (L := L) (e := e) hp
        (M.along_of_walk hwalk fun m hm ↦ hfits m (List.mem_append_left _ hm)) hnow hy
        (hfits (.taken L idx (some e) now (M.edge y)) (by simp))
      have hpairwise := halong.pairwise
      obtain ⟨timer'', rs, r, c, hrs, hsrc, -, -, -, -⟩ := halong.sym_inv
      rw [hrs] at hpairwise ⊢
      have hkeeps : Reading.Keeps y.pass.timer r := by
        rw [hnone]
        trivial
      exact M.waitsKept_of_along hmem hfinal (htimed _ _ hj hs) hsrc hkeeps hpairwise
    · rw [hfallback, M.owner_of_fallback] at hj
      cases hj
  · obtain ⟨p, hp, hwalk⟩ :=
      M.walk_of_run hrun' fun m hm ↦ hassigned m (List.mem_append_left _ hm)
    obtain ⟨x, hx, hmem, rfl, hdest, rfl⟩ := M.timer_cases hp hstate ht
    obtain ⟨rfl, hfinal, wait, hwait⟩ := M.owner_of_reaction hj
    have ho := M.straight.mem hmem
    have hs := (Layer.of_mem_occurrences ho).1
    have htgt : x.tgt ≠ [] := hdest ▸ x.dest_ne_nil
    have halong := M.along_of_walk hwalk (fun m hm ↦ hfits m (by simp [hm])) htgt
    rw [← hdest] at halong
    obtain ⟨timer'', rs, r, c, hrs, hsrc, hbefore, hc, htimer, -⟩ := halong.sym_inv
    obtain ⟨w, hw, rfl⟩ := Option.map_eq_some_iff.mp htimer.symm
    have hagrees := M.timer_agrees ho hc (by simp [hw]) (by simp [hwait])
    obtain rfl := Option.some.inj (hw.symm.trans (hagrees.trans hwait))
    rw [readings_expire, if_neg (M.idx_ne_home hp htgt), readings_poll, hrs,
      List.modifyLast_concat]
    have hkeeps : Reading.Keeps x.pass.timer (r.check polled) := by
      rw [hwait]
      exact ⟨polled, by simp [Reading.check], hd⟩
    refine M.waitsKept_of_along hmem hfinal (htimed _ _ hj hs) hsrc hkeeps ?_
    refine List.pairwise_append.mpr ⟨hsrc.pairwise, by simp, fun r' hr' r'' hr'' ↦ ?_⟩
    rw [List.mem_singleton.mp hr'']
    exact hbefore r' hr'

namespace Mapper

/-- Waits are enforced by the mapper: in a separated layer, from HOME on, and
as long as no unassigned transition is taken and no deadline overflows. -/
theorem iterate_waitsEnforced (env : Env) (H : QHash) (fuel : ℕ) {layer : Layer}
    {states : List State} (hgenerate : generateStates H layer = .ok states)
    (hsep : layer.Separated) (hwaits : ∀ j s, layer.sequenceRemappings[j]? = some s →
      layer.WaitsTimed s j) {m m' : Mapper} {L : ℕ} (hstates : m.states[L]? = some states)
    (hhome : m.AtHome) {keys : List (Option InputEvent)}
    (hiterate : m.iterate env H fuel keys = .ok m')
    (hassigned : ∀ moment ∈ m'.history, moment.Assigned)
    (hfits : ∀ moment ∈ m'.history, moment.DeadlineFits) {ms : List Moment} {idx now : ℕ}
    {event : Option InputEvent} {transition : Transition} (hbefore : m.history <+: ms)
    (hms : ms ++ [.taken L idx event now transition] <+: m'.history) :
    WaitsEnforced layer (ms ++ [.taken L idx event now transition]) transition := by
  have htracked : m.Tracked env H := hhome.tracked
  have htraced := (htracked.traced (acts_of_iterate hiterate)).2
  obtain ⟨idx', timer, hrun⟩ := htraced ms L idx event now transition hbefore hms states hstates
  have hmem : ∀ moment ∈ recent (ms ++ [.taken L idx event now transition]),
      moment ∈ m'.history := fun moment hmoment ↦ hms.subset (recent_subset _ moment hmoment)
  have hreadings := readings_recent (ms ++ [.taken L idx event now transition])
  rw [recent_append_taken] at hrun hmem hreadings
  rw [WaitsEnforced, ← hreadings]
  exact run_waitsEnforced hgenerate hsep hrun
    (fun moment hmoment ↦ hassigned moment (hmem moment (List.mem_append_left _ hmoment)))
    (fun moment hmoment ↦ hfits moment (hmem moment hmoment)) fun j s _ hs ↦ hwaits j s hs

end Mapper

/-- A without a wait, and A followed by C within 100 ms. -/
def slowTapLayer : Layer where
  layerName := "tap"
  basicRemappings := []
  sequenceRemappings :=
    [⟨.default, [.keyPress .a, .keyPress .b], [.pressKey .x]⟩,
     ⟨.default, [.keyPress .a, .maximumWait 100, .keyPress .c], [.pressKey .y]⟩]

def lateEnv : Env := .jump 0 1000 (by decide) (by decide) 2

/-- The history of the mapper for A, and C a second later. -/
def lateHistory : List Moment :=
  [.layerSet 0, .poll 0, .taken 0 0 (some (.key ⟨.a, .press⟩)) 0 { newState := some 1 }, .poll 1000]

def lateMatch : Transition := { outputs := [.bind (.pressKey .y)], newState := some 0, owner := some 1 }

/-- C is accepted although the maximum wait has elapsed. -/
theorem slowTapLayer_late : ∃ m m',
    Mapper.new (.first _) ⟨"tap", [slowTapLayer], 0⟩ false = .ok m ∧ m.AtHome ∧
    m.iterate lateEnv (.first _) 1 [some (.key ⟨.a, .press⟩), some (.key ⟨.c, .press⟩)] = .ok m' ∧
    m.history <+: lateHistory ∧
    lateHistory ++ [.taken 0 1 (some (.key ⟨.c, .press⟩)) 1000 lateMatch] <+: m'.history ∧
    ¬ WaitsEnforced slowTapLayer
      (lateHistory ++ [.taken 0 1 (some (.key ⟨.c, .press⟩)) 1000 lateMatch]) lateMatch := by
  refine ⟨_, _, rfl, ⟨rfl, rfl, rfl, rfl⟩, rfl, ⟨_, rfl⟩, ?_, ?_⟩
  · rw [Mapper.history_checkQueuedEvents]
    exact ⟨[_], rfl⟩
  · intro h
    obtain ⟨s, hs, hkept⟩ := h 1 rfl
    cases hs
    have hreadings : readings (lateHistory ++
        [.taken 0 1 (some (.key ⟨.c, .press⟩)) 1000 lateMatch]) = [⟨0, [1000]⟩, ⟨1000, []⟩] := rfl
    have hkept := hkept.kept
    rw [hreadings] at hkept
    cases hkept with
    | cons hfirst _ => exact absurd (hfirst 1000 (by simp)) (by decide)

def timelyLayer : Layer where
  layerName := "timely"
  basicRemappings := []
  sequenceRemappings := [⟨.default, [.keyPress .a, .maximumWait 100, .keyPress .c], []⟩]

def timelyEnv : Env := .jump 0 99 (by decide) (by decide) 2

def timelyHistory : List Moment :=
  [.layerSet 0, .poll 0,
    .taken 0 0 (some (.key ⟨.a, .press⟩)) 0 { timerMs := some 100, newState := some 1 }, .poll 99]

def timelyMatch : Transition := { newState := some 0, owner := some 0 }

/-- After 99 ms C is accepted. -/
theorem iterate_waitsEnforced_timely : ∃ m m',
    Mapper.new (.first _) ⟨"timely", [timelyLayer], 0⟩ false = .ok m ∧
    m.iterate timelyEnv (.first _) 1 [some (.key ⟨.a, .press⟩), some (.key ⟨.c, .press⟩)] = .ok m' ∧
    m'.history = timelyHistory ++ [.taken 0 1 (some (.key ⟨.c, .press⟩)) 99 timelyMatch] ∧
    WaitsEnforced timelyLayer
      (timelyHistory ++ [.taken 0 1 (some (.key ⟨.c, .press⟩)) 99 timelyMatch]) timelyMatch := by
  have hwaits : ∀ j s, timelyLayer.sequenceRemappings[j]? = some s →
      timelyLayer.WaitsTimed s j := by
    intro j s hs
    cases j with
    | zero =>
        cases hs
        decide
    | succ j => simp [timelyLayer] at hs
  obtain ⟨m, m', hnew, hhome, ⟨states, hgenerate, hstates⟩, hiterate, hhistory, hbefore⟩ :
      ∃ m m', Mapper.new (.first _) ⟨"timely", [timelyLayer], 0⟩ false = .ok m ∧ m.AtHome ∧
        (∃ states, generateStates (.first _) timelyLayer = .ok states ∧
          m.states[0]? = some states) ∧
        m.iterate timelyEnv (.first _) 1 [some (.key ⟨.a, .press⟩), some (.key ⟨.c, .press⟩)] =
          .ok m' ∧
        m'.history = timelyHistory ++ [.taken 0 1 (some (.key ⟨.c, .press⟩)) 99 timelyMatch] ∧
        m.history <+: timelyHistory :=
    ⟨_, _, rfl, ⟨rfl, rfl, rfl, rfl⟩, ⟨_, rfl, rfl⟩, rfl, rfl, ⟨_, rfl⟩⟩
  have hmoments : ∀ moment ∈ m'.history, moment.Assigned ∧ moment.DeadlineFits := by
    rw [hhistory]
    simp [timelyHistory, timelyMatch, Moment.Assigned, Moment.DeadlineFits, uint64Size]
  refine ⟨m, m', hnew, hiterate, hhistory, ?_⟩
  exact Mapper.iterate_waitsEnforced timelyEnv (.first _) 1 hgenerate (by decide) hwaits hstates
    hhome hiterate (fun moment h ↦ (hmoments moment h).1) (fun moment h ↦ (hmoments moment h).2)
    hbefore (hhistory ▸ List.prefix_refl _)

end Keybinder

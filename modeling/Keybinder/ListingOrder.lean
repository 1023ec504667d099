import Keybinder.Acceptance
import Keybinder.Bisimulation
import Keybinder.UnassignedReads

/-!
# The order in which the sequences are listed

The construction compares a trigger with the one that was first to lead to
the same place, and some of its checks depend on which of the two that was.
When no two triggers of a layer are of that kind, the sequences may be listed
in any order: the layer is accepted or not, and its machine behaves, as
before.
-/

namespace Keybinder

/-- A minimum wait that ends its sequence. -/
def LoopPass.lastWait (pass : LoopPass) : Bool :=
  match pass.timer with
  | some (.minimumWait _) => pass.final
  | _ => false

def InputEvent.isApp : InputEvent → Bool
  | .app _ => true
  | .key _ => false

namespace Occurrence

instance (o o' : Occurrence) : Decidable (Agrees o o') :=
  decidable_of_iff
    (o.pass.isLast = false ∧ o'.pass.isLast = false ∧
      o.sequence.behavior = o'.sequence.behavior ∧
      (o.pass.timer.isSome → o'.pass.timer.isSome → o.pass.timer = o'.pass.timer))
    ⟨fun ⟨h₁, h₂, h₃, h₄⟩ ↦ ⟨h₁, h₂, h₃, h₄⟩, fun ⟨h₁, h₂, h₃, h₄⟩ ↦ ⟨h₁, h₂, h₃, h₄⟩⟩

/-- It does not matter which of two triggers comes first: two applications
that are waited for at one place have the same name; where a sequence ends no
Default sequence goes on; and triggers that agree have both a wait or none,
which both go on after or end with the same binds. -/
structure Interchangeable (o o' : Occurrence) : Prop where
  apps : o.src = o'.src → o.input.isApp = true → o'.input.isApp = true →
    o.input.symbol = o'.input.symbol
  ends : o.dest = o'.dest → o.pass.isLast = true → o'.pass.isLast = false →
    o'.sequence.behavior ≠ .default
  timers : o.dest = o'.dest → Agrees o o' → o.pass.timer.isSome = o'.pass.timer.isSome
  waits : o.dest = o'.dest → Agrees o o' → o.pass.midWait = o'.pass.midWait
  binds : o.dest = o'.dest → Agrees o o' → o.pass.lastWait = true →
    o.sequence.binds = o'.sequence.binds

instance (o o' : Occurrence) : Decidable (Interchangeable o o') :=
  decidable_of_iff
    ((o.src = o'.src → o.input.isApp = true → o'.input.isApp = true →
        o.input.symbol = o'.input.symbol) ∧
      (o.dest = o'.dest → o.pass.isLast = true → o'.pass.isLast = false →
        o'.sequence.behavior ≠ .default) ∧
      (o.dest = o'.dest → Agrees o o' → o.pass.timer.isSome = o'.pass.timer.isSome) ∧
      (o.dest = o'.dest → Agrees o o' → o.pass.midWait = o'.pass.midWait) ∧
      (o.dest = o'.dest → Agrees o o' → o.pass.lastWait = true →
        o.sequence.binds = o'.sequence.binds))
    ⟨fun ⟨h₁, h₂, h₃, h₄, h₅⟩ ↦ ⟨h₁, h₂, h₃, h₄, h₅⟩,
      fun ⟨h₁, h₂, h₃, h₄, h₅⟩ ↦ ⟨h₁, h₂, h₃, h₄, h₅⟩⟩

end Occurrence

def Layer.Interchangeable (layer : Layer) : Prop :=
  ∀ o ∈ layer.occurrences, ∀ o' ∈ layer.occurrences, o.Interchangeable o'

instance (layer : Layer) : Decidable layer.Interchangeable :=
  inferInstanceAs (Decidable (∀ o ∈ layer.occurrences, ∀ o' ∈ layer.occurrences,
    o.Interchangeable o'))

/-! ## Triggers without their owner -/

/-- The trigger, wherever its sequence is listed. -/
def Occurrence.unowned (o : Occurrence) : Occurrence := { o with owner := 0 }

theorem occurrencesFrom_unowned (owner : ℕ) (s : SequenceTrigger) (src : Place)
    (passes : List LoopPass) :
    (occurrencesFrom owner s src passes).map Occurrence.unowned =
      occurrencesFrom 0 s src passes := by
  induction passes generalizing src with
  | nil => rfl
  | cons pass passes ih =>
      cases hinput : pass.trigger.triggerToInput with
      | none => simp [occurrencesFrom, hinput]
      | some input =>
          rw [occurrencesFrom_cons hinput, occurrencesFrom_cons hinput, List.map_cons, ih]
          rfl

theorem Layer.map_unowned (layer : Layer) : layer.occurrences.map Occurrence.unowned =
    layer.sequenceRemappings.flatMap fun s ↦ s.occurrences 0 := by
  have hmap : layer.occurrences.map Occurrence.unowned =
      layer.sequenceRemappings.zipIdx.flatMap fun c ↦ c.1.occurrences 0 := by
    rw [occurrences, List.map_flatMap]
    congr 1
    funext c
    exact occurrencesFrom_unowned _ _ _ _
  have hfst := List.zipIdx_map_fst 0 layer.sequenceRemappings
  conv_rhs => rw [← hfst, List.flatMap_map]
  exact hmap

section

variable {layer layer' : Layer} {o o' : Occurrence}

theorem perm_unowned (hperm : layer.sequenceRemappings.Perm layer'.sequenceRemappings) :
    (layer.occurrences.map Occurrence.unowned).Perm
      (layer'.occurrences.map Occurrence.unowned) := by
  rw [layer.map_unowned, layer'.map_unowned]
  exact hperm.flatMap_right _

theorem exists_owner (hperm : layer.sequenceRemappings.Perm layer'.sequenceRemappings)
    (ho : o ∈ layer.occurrences) : ∃ owner, { o with owner } ∈ layer'.occurrences := by
  have hmem := (perm_unowned hperm).mem_iff.mp (List.mem_map_of_mem ho)
  obtain ⟨o', ho', heq⟩ := List.mem_map.mp hmem
  refine ⟨o'.owner, ?_⟩
  have howner : ({ o with owner := o'.owner } : Occurrence) = o' := by
    cases o
    cases o'
    simp only [Occurrence.unowned, Occurrence.mk.injEq, true_and] at heq
    simp [heq]
  rwa [howner]

theorem Agrees.symm (h : Agrees o o') : Agrees o' o :=
  ⟨h.shares_on, h.goes_on, h.behavior_eq.symm, fun ho' ho ↦ (h.timer_eq ho ho').symm⟩

/-- Who owns the triggers does not matter for their agreement. -/
theorem agrees_owner_iff {owner owner' : ℕ} :
    Agrees { o with owner } { o' with owner := owner' } ↔ Agrees o o' :=
  ⟨fun ⟨h₁, h₂, h₃, h₄⟩ ↦ ⟨h₁, h₂, h₃, h₄⟩, fun ⟨h₁, h₂, h₃, h₄⟩ ↦ ⟨h₁, h₂, h₃, h₄⟩⟩

theorem Layer.Interchangeable.perm (hfree : layer.Interchangeable)
    (hperm : layer.sequenceRemappings.Perm layer'.sequenceRemappings) :
    layer'.Interchangeable := by
  intro o ho o' ho'
  obtain ⟨owner, hmem⟩ := exists_owner hperm.symm ho
  obtain ⟨owner', hmem'⟩ := exists_owner hperm.symm ho'
  obtain ⟨happs, hends, htimers, hwaits, hbinds⟩ := hfree _ hmem _ hmem'
  simp only [agrees_owner_iff] at htimers hwaits hbinds
  exact ⟨happs, hends, htimers, hwaits, hbinds⟩

/-- Of two applications that are read at one place, no event matches both
unless they have the same name. -/
theorem Layer.Interchangeable.symbol_eq (hfree : layer.Interchangeable)
    (ho : o ∈ layer.occurrences) (ho' : o' ∈ layer.occurrences) (hsrc : o.src = o'.src)
    {e : InputEvent} (heq : o.input.eq e = true) (heq' : o'.input.eq e = true) :
    o.input.symbol = o'.input.symbol := by
  cases e with
  | key keyEvent =>
      rw [InputEvent.eq_key_iff.mp heq, InputEvent.eq_key_iff.mp heq']
  | app appName =>
      have happ : ∀ {input : InputEvent}, input.eq (.app appName) = true → input.isApp = true := by
        intro input h
        cases input with
        | app appName' => rfl
        | key keyEvent => simp [InputEvent.eq, InputEvent.symbol, Symbol.eq] at h
      exact (hfree o ho o' ho').apps hsrc (happ heq) (happ heq')

theorem firstTimedAt_of_firstAt {O : List Occurrence} {p : Place} (h : firstAt O p = some o)
    (htimer : o.pass.timer.isSome = true) : firstTimedAt O p = some o := by
  obtain ⟨hdest, before, after, rfl, hbefore⟩ := List.find?_eq_some_iff_append.mp h
  refine List.find?_eq_some_iff_append.mpr ⟨?_, before, after, rfl, ?_⟩
  · simpa [htimer] using hdest
  · intro o' ho'
    have hne := hbefore o' ho'
    simp only [Bool.not_eq_true', decide_eq_false_iff_not] at hne
    simp [hne]

theorem Layer.Interchangeable.keptApart (hfree : layer.Interchangeable) :
    KeptApart layer.occurrences where
  appsApart o ho o' ho' hsrc heq :=
    hfree.symbol_eq ho ho' hsrc heq (InputEvent.eq_refl _)
  endsApart := List.pairwise_of_forall_mem_list fun o ho o' ho' ↦ (hfree o ho o' ho').ends
  waitsOpen := by
    intro before o hpre hmid hagrees o' ho'
    have hsubset : ∀ c ∈ before, c ∈ layer.occurrences := fun c hc ↦
      hpre.subset (List.mem_append_left _ hc)
    have hmem : o ∈ layer.occurrences := hpre.subset (by simp)
    have htimed := List.find?_some ho'
    simp only [Bool.and_eq_true, decide_eq_true_eq] at htimed
    obtain ⟨c, hc⟩ : ∃ c, firstAt before o.dest = some c := by
      rw [← Option.isSome_iff_exists, firstAt, List.find?_isSome]
      exact ⟨o', List.mem_of_find?_eq_some ho', decide_eq_true htimed.2⟩
    have hdest : c.dest = o.dest := by simpa using List.find?_some hc
    have hfree := hfree c (hsubset c (List.mem_of_find?_eq_some hc)) o hmem
    -- The first trigger has a wait too, so that it is the first one with a wait.
    have hctimer : c.pass.timer.isSome = true := by
      rw [hfree.timers hdest (hagrees c hc)]
      obtain ⟨⟨ms, hms⟩, -⟩ := LoopPass.timer_of_midWait hmid
      simp [hms]
    have hfirst := firstTimedAt_of_firstAt hc hctimer
    rw [hfirst] at ho'
    obtain rfl := Option.some.inj ho'
    rw [hfree.waits hdest (hagrees c hc), hmid]

/-- The listing order does not matter for the acceptance of a layer. -/
theorem Layer.Interchangeable.exists_iff (H : QHash) (hfree : layer.Interchangeable)
    (hperm : layer.sequenceRemappings.Perm layer'.sequenceRemappings) :
    (∃ states, generateStates H layer = .ok states) ↔
      ∃ states, generateStates H layer' = .ok states := by
  have hfree' := hfree.perm hperm
  have htimers := fun o ho o' ho' ↦ (hfree o ho o' ho').timers
  have htimers' := fun o ho o' ho' ↦ (hfree' o ho o' ho').timers
  rw [exists_generateStates_iff hfree.keptApart, exists_generateStates_iff hfree'.keptApart,
    coherent_iff_pairwise htimers, coherent_iff_pairwise htimers']
  have hunowned : ∀ O : List Occurrence, O.Pairwise (fun c o ↦ c.dest = o.dest → Agrees c o) ↔
      (O.map Occurrence.unowned).Pairwise fun c o ↦ c.dest = o.dest → Agrees c o := by
    intro O
    rw [List.pairwise_map]
    refine List.Pairwise.iff fun c o ↦ ?_
    exact imp_congr_right fun _ ↦ agrees_owner_iff.symm
  rw [hunowned, hunowned layer'.occurrences, (perm_unowned hperm).pairwise_iff]
  · exact and_congr_left fun _ ↦ ⟨fun h s hs ↦ h s (hperm.mem_iff.mpr hs),
      fun h s hs ↦ h s (hperm.mem_iff.mp hs)⟩
  · intro c o hagrees hdest
    exact (hagrees hdest.symm).symm

/-! ## The machines of two listings -/

/-- Two triggers make the same edge, and the same of the state after it. -/
structure Occurrence.SameEdge (o o' : Occurrence) : Prop where
  last_eq : o.pass.isLast = o'.pass.isLast
  behavior_eq : o.sequence.behavior = o'.sequence.behavior
  timer_eq : o.pass.timer = o'.pass.timer
  midWait_eq : o.pass.midWait = o'.pass.midWait
  binds_eq : o.pass.isLast = true ∨ o.pass.lastWait = true → o.sequence.binds = o'.sequence.binds

theorem timer_eq_of_agrees (h : Agrees o o')
    (htimers : o.pass.timer.isSome = o'.pass.timer.isSome) : o.pass.timer = o'.pass.timer := by
  cases htimer : o.pass.timer with
  | none =>
      rw [htimer, Option.isSome_none] at htimers
      exact (Option.isSome_eq_false_iff.mp htimers.symm |> Option.isNone_iff_eq_none.mp).symm
  | some timer =>
      rw [← htimer]
      refine h.timer_eq (by simp [htimer]) ?_
      simp [← htimers, htimer]

/-- In an accepted layer that may be listed in any order, triggers that lead
to one place make the same edge. -/
theorem sameEdge_of_dest {H : QHash} {states : List State} (hfree : layer.Interchangeable)
    (hgenerate : generateStates H layer = .ok states)
    (hperm : layer.sequenceRemappings.Perm layer'.sequenceRemappings)
    (ho : o ∈ layer.occurrences) (ho' : o' ∈ layer'.occurrences) (hdest : o.dest = o'.dest) :
    o.SameEdge o' := by
  obtain ⟨owner, hmem⟩ := exists_owner hperm.symm ho'
  have hcoherent := ((exists_generateStates_iff hfree.keptApart).mp ⟨states, hgenerate⟩).2
  rw [Layer.coherent_iff fun o ho o' ho' ↦ (hfree o ho o' ho').timers] at hcoherent
  by_cases hsame : o = { o' with owner }
  · subst hsame
    exact ⟨rfl, rfl, rfl, rfl, fun _ ↦ rfl⟩
  · have hagrees := hcoherent o ho _ hmem hsame hdest
    have hpair := hfree o ho _ hmem
    have htimer := timer_eq_of_agrees hagrees (hpair.timers hdest hagrees)
    refine ⟨hagrees.goes_on.trans hagrees.shares_on.symm, hagrees.behavior_eq, htimer,
      hpair.waits hdest hagrees, ?_⟩
    rintro (hlast | hwait)
    · rw [hagrees.goes_on] at hlast
      cases hlast
    · exact hpair.binds hdest hagrees hwait

/-- What was read starts with a key or app trigger. -/
def Starts (read : List AdvancedTrigger) : Prop :=
  ∃ trigger input rest, read = trigger :: rest ∧ trigger.triggerToInput = some input

theorem starts_append {read : List AdvancedTrigger} {trigger : AdvancedTrigger}
    {input : InputEvent} (hread : read = [] ∨ Starts read)
    (hinput : trigger.triggerToInput = some input) (waits : List AdvancedTrigger) :
    Starts (read ++ trigger :: waits) := by
  rcases hread with rfl | ⟨first, e, rest, rfl, hfirst⟩
  · exact ⟨trigger, input, waits, rfl, hinput⟩
  · exact ⟨first, e, rest ++ trigger :: waits, rfl, hfirst⟩

theorem starts_of_mem_occurrencesFrom {owner : ℕ} {s : SequenceTrigger}
    {read rest : List AdvancedTrigger} {src : Place} (hread : read = [] ∨ Starts read)
    (ho : o ∈ occurrencesFrom owner s src (loopPasses read rest)) : Starts o.pass.read := by
  have hcons : ∀ {read rest waits : List AdvancedTrigger} {src : Place} {pass : LoopPass},
      (read = [] ∨ Starts read) → pass.read = read ++ pass.trigger :: waits →
      (∀ {src'}, Starts pass.read → o ∈ occurrencesFrom owner s src' (loopPasses pass.read rest) →
        Starts o.pass.read) →
      o ∈ occurrencesFrom owner s src (pass :: loopPasses pass.read rest) →
      Starts o.pass.read := by
    intro read rest waits src pass hread hpass ih ho
    cases hinput : pass.trigger.triggerToInput with
    | none => simp [occurrencesFrom, hinput] at ho
    | some input =>
        have hstarts := starts_append hread hinput waits
        rw [← hpass] at hstarts
        rw [occurrencesFrom_cons hinput] at ho
        rcases List.mem_cons.mp ho with rfl | ho
        · exact hstarts
        · exact ih hstarts ho
  fun_induction loopPasses read rest generalizing src with
  | case1 => simp [occurrencesFrom] at ho
  | case2 read trigger ms rest read' =>
      rename_i ih
      exact hcons hread rfl (fun hstarts ho ↦ ih (.inr hstarts) ho) ho
  | case3 read trigger ms rest read' =>
      rename_i ih
      exact hcons hread rfl (fun hstarts ho ↦ ih (.inr hstarts) ho) ho
  | case4 read trigger rest hmin hmax read' =>
      rename_i ih
      exact hcons hread rfl (fun hstarts ho ↦ ih (.inr hstarts) ho) ho

theorem heldOutputs_alike {read read' : List AdvancedTrigger} (hread : Starts read)
    (hread' : Starts read')
    (hsymbols : (inputsOf read).map InputEvent.symbol = (inputsOf read').map InputEvent.symbol) :
    List.Forall₂ StateMachineOutputEvent.Alike (heldOutputs read) (heldOutputs read') := by
  obtain ⟨trigger, input, rest, rfl, hinput⟩ := hread
  obtain ⟨trigger', input', rest', rfl, hinput'⟩ := hread'
  have hcons : ∀ {trigger : AdvancedTrigger} {input : InputEvent} (rest : List AdvancedTrigger),
      trigger.triggerToInput = some input → inputsOf (trigger :: rest) = input :: inputsOf rest := by
    intro trigger input rest h
    simp [inputsOf, h]
  rw [hcons rest hinput, hcons rest' hinput', List.map_cons, List.map_cons] at hsymbols
  obtain ⟨hfirst, hlater⟩ := List.cons.inj hsymbols
  have hrelated : List.Forall₂ (fun e e' : InputEvent ↦ e.symbol = e'.symbol) (inputsOf rest)
      (inputsOf rest') := by
    rwa [← List.forall₂_eq_eq_eq, List.forall₂_map_left_iff, List.forall₂_map_right_iff] at hlater
  rw [heldOutputs_cons, heldOutputs_cons, hinput, hinput']
  refine .cons (.basicTranlation (by simp [hfirst])) ?_
  apply List.forall₂_map_left_iff.mpr
  apply List.forall₂_map_right_iff.mpr
  exact hrelated.imp fun e e' he ↦ .proccessInput (by simp [he])

end

/-! ## The two machines behave alike -/

/-- Two listings of the sequences of an accepted layer. -/
structure Relisted (H : QHash) (layer layer' : Layer) (states : List State) : Prop where
  free : layer.Interchangeable
  perm : layer.sequenceRemappings.Perm layer'.sequenceRemappings
  generate : generateStates H layer = .ok states

theorem Relisted.sameEdge {H : QHash} {layer layer' : Layer} {states : List State}
    (hr : Relisted H layer layer' states) {o o' : Occurrence} (ho : o ∈ layer.occurrences)
    (ho' : o' ∈ layer'.occurrences) (hdest : o.dest = o'.dest) : o.SameEdge o' :=
  sameEdge_of_dest hr.free hr.generate hr.perm ho ho' hdest

theorem newFallback_alike {layer layer' : Layer} {o o' : Occurrence} {R : ℕ → ℕ → Prop}
    (hsame : o.SameEdge o') (ho : o ∈ layer.occurrences) (ho' : o' ∈ layer'.occurrences)
    (hdest : o.dest = o'.dest) (hhome : R homeStateIdx homeStateIdx) :
    (newFallback o.sequence.behavior o.pass.read).Alike R
      (newFallback o'.sequence.behavior o'.pass.read) := by
  have hof := (Layer.of_mem_occurrences ho).2
  have hof' := (Layer.of_mem_occurrences ho').2
  have hheld : List.Forall₂ StateMachineOutputEvent.Alike (heldOutputs o.pass.read)
      (heldOutputs o'.pass.read) := by
    apply heldOutputs_alike
    · exact starts_of_mem_occurrencesFrom (.inl rfl) (Layer.mem_occurrences ho)
    · exact starts_of_mem_occurrencesFrom (.inl rfl) (Layer.mem_occurrences ho')
    · rw [← hof.syms_eq, ← hof'.syms_eq, hdest]
  refine ⟨rfl, ?_, .some hhome⟩
  simp only [newFallback, hsame.behavior_eq]
  apply List.rel_append
  · split
    · exact hheld
    · exact .nil
  · exact .cons (.basicTranlation rfl) .nil

namespace StraightMachine

variable {H : QHash} {layer layer' : Layer} {states states' : List State}
  (M : StraightMachine H layer states) (M' : StraightMachine H layer' states') {p : Place}
  {x x' y y' : Placement}

/-- States of the two machines at the same place. -/
def SamePlace (i j : ℕ) : Prop := ∃ p, M.places[i]? = some p ∧ M'.places[j]? = some p

theorem samePlace_home : M.SamePlace M' homeStateIdx homeStateIdx :=
  ⟨[], M.home_place, M'.home_place⟩

theorem samePlace_number (hp : p ∈ M.places) (hp' : p ∈ M'.places) :
    M.SamePlace M' (Numbering.number M.places p) (Numbering.number M'.places p) :=
  ⟨p, Numbering.getElem?_number hp, Numbering.getElem?_number hp'⟩

theorem edge_alike (hx : x ∈ M.trie) (hx' : x' ∈ M'.trie) (hdest : x.dest = x'.dest)
    (hsame : x.toOccurrence.SameEdge x'.toOccurrence) :
    (M.edge x).Alike (M.SamePlace M') (M'.edge x') := by
  have hsymbol : x.stored.symbol = x'.stored.symbol := by
    have hinput := (List.append_inj' hdest rfl).2
    rw [M.straight.symbol x hx, M'.straight.symbol x' hx']
    simpa using hinput
  have htgt : x.tgt = x'.tgt := by
    rw [M.straight.tgt x hx, M'.straight.tgt x' hx', hsame.last_eq, hdest]
  have hmem := M.represents.tgt_mem x hx
  rw [htgt] at hmem
  constructor
  · simp only [edge, Placement.transition, newTransition, hsame.timer_eq]
  · simp only [edge, Placement.transition, newTransition, hsame.behavior_eq, hsame.last_eq]
    apply List.rel_append
    · split
      · exact .cons (.basicTranlation (by simp [hsymbol])) .nil
      · exact .nil
    · split
      · rename_i hlast
        rw [hsame.binds_eq (.inl (hsame.last_eq.trans hlast))]
        exact List.forall₂_same.mpr fun output _ ↦ .refl output
      · exact .nil
  · simp only [edge, Placement.transition, newTransition, htgt]
    exact .some (M.samePlace_number M' hmem (M'.represents.tgt_mem x' hx'))

theorem mem_of_creatorAt (hx : M.trie.creatorAt p = some x) (hp : p ≠ []) :
    x.toOccurrence ∈ layer.occurrences ∧ x.pass.isLast = false ∧ x.dest = p := by
  obtain ⟨hmem, -, htgt⟩ := Trie.creatorAt_eq_some hx
  have hstraight := M.straight.tgt x hmem
  split at hstraight
  · exact (hp (htgt.symm.trans hstraight)).elim
  · rename_i hlast
    exact ⟨M.straight.mem hmem, by simpa using hlast, hstraight.symm.trans htgt⟩

theorem exists_creatorAt {o : Occurrence} (ho : o ∈ layer.occurrences)
    (hlast : o.pass.isLast = false) : ∃ x, M.trie.creatorAt o.dest = some x := by
  obtain ⟨x, hx, rfl⟩ := M.exists_of_mem ho
  obtain ⟨y, hy, hfresh, -, -, htgt⟩ := M.grows.creator hx
  have hxtgt := M.straight.tgt x hx
  rw [if_neg (by simp [hlast])] at hxtgt
  rw [← Option.isSome_iff_exists, Trie.creatorAt, List.find?_isSome]
  exact ⟨y, hy, by simp [hfresh, htgt, hxtgt]⟩

theorem fallback_alike (hr : Relisted H layer layer' states) (p : Place) :
    (M.trie.fallback p).Alike (M.SamePlace M') (M'.trie.fallback p) := by
  unfold Trie.fallback
  by_cases hp : p = []
  · rw [if_pos hp, if_pos hp]
    exact ⟨rfl, List.forall₂_same.mpr fun output _ ↦ .refl output, .some (M.samePlace_home M')⟩
  · rw [if_neg hp, if_neg hp]
    cases hx : M.trie.creatorAt p with
    | none =>
        cases hx' : M'.trie.creatorAt p with
        | none => exact ⟨rfl, .nil, .none⟩
        | some x' =>
            obtain ⟨ho', hlast, rfl⟩ := M'.mem_of_creatorAt hx' hp
            obtain ⟨owner, ho⟩ := exists_owner hr.perm.symm ho'
            obtain ⟨x, hx''⟩ := M.exists_creatorAt ho hlast
            cases hx.symm.trans hx''
    | some x =>
        obtain ⟨ho, hlast, rfl⟩ := M.mem_of_creatorAt hx hp
        obtain ⟨owner, ho'⟩ := exists_owner hr.perm ho
        obtain ⟨x', hx'⟩ := M'.exists_creatorAt ho' hlast
        change M'.trie.creatorAt x.dest = some x' at hx'
        obtain ⟨ho', -, hdest⟩ := M'.mem_of_creatorAt hx' hp
        rw [hx']
        exact newFallback_alike (hr.sameEdge ho ho' hdest.symm) ho ho' hdest.symm
          (M.samePlace_home M')

theorem mem_of_timedAt (hx : M.trie.timedAt p = some x) :
    x.toOccurrence ∈ layer.occurrences ∧ x.pass.timer.isSome = true ∧ x.dest = p := by
  obtain ⟨hmem, htimer, htgt⟩ := Trie.timedAt_eq_some hx
  exact ⟨M.straight.mem hmem, htimer, (M.straight.tgt_of_timer hmem htimer).symm.trans htgt⟩

theorem timedAt_relisted (hperm : layer.sequenceRemappings.Perm layer'.sequenceRemappings)
    (hx : M.trie.timedAt p = some x) : ∃ x', M'.trie.timedAt p = some x' := by
  obtain ⟨ho, htimer, rfl⟩ := M.mem_of_timedAt hx
  obtain ⟨owner, ho'⟩ := exists_owner hperm ho
  obtain ⟨x', hx', -⟩ := M'.exists_timedAt ho' htimer
  exact ⟨x', hx'⟩

theorem reaction_alike (hr : Relisted H layer layer' states) (hx : M.trie.timedAt p = some x)
    (hx' : M'.trie.timedAt p = some x') :
    (x.timerTransition (Numbering.number M.places) (M.trie.fallback p)).Alike (M.SamePlace M')
      (x'.timerTransition (Numbering.number M'.places) (M'.trie.fallback p)) := by
  obtain ⟨ho, htimer, hdest⟩ := M.mem_of_timedAt hx
  obtain ⟨ho', -, hdest'⟩ := M'.mem_of_timedAt hx'
  have hsame := hr.sameEdge ho ho' (hdest.trans hdest'.symm)
  have hmid := hsame.midWait_eq
  have hbinds := hsame.binds_eq
  unfold Placement.timerTransition
  rw [← hsame.timer_eq]
  split
  · rename_i ms hms
    have hms' : x'.pass.timer = some (.minimumWait ms) := hsame.timer_eq.symm.trans hms
    have hfinal : x.pass.final = x'.pass.final := by
      simpa [LoopPass.midWait, hms, hms'] using hmid
    rw [← hfinal]
    split
    · rename_i hlast
      rw [hbinds (.inr (by simp [LoopPass.lastWait, hms, hlast]))]
      exact ⟨rfl, List.forall₂_same.mpr fun output _ ↦ .refl output, .some (M.samePlace_home M')⟩
    · rename_i hgoes
      have hplace : x.timerPlace = x'.timerPlace := by
        rw [Placement.timerPlace_of_midWait (by simp [LoopPass.midWait, hms, hgoes]),
          Placement.timerPlace_of_midWait (by simp [LoopPass.midWait, hms', ← hfinal, hgoes]),
          (Trie.timedAt_eq_some hx).2.2, (Trie.timedAt_eq_some hx').2.2]
      have hmem := M.represents.timer_mem x p hx
      rw [hplace] at hmem ⊢
      exact ⟨rfl, .nil, .some (M.samePlace_number M' hmem (M'.represents.timer_mem x' p hx'))⟩
  · exact M.fallback_alike M' hr p

theorem exists_edge (hperm : layer.sequenceRemappings.Perm layer'.sequenceRemappings)
    (hy : y ∈ M.trie.edgesAt p) :
    ∃ y' ∈ M'.trie.edgesAt p, y'.stored.symbol = y.stored.symbol := by
  obtain ⟨hmem, -, hsrc⟩ := Trie.mem_edgesAt.mp hy
  obtain ⟨owner, ho'⟩ := exists_owner hperm (M.straight.mem hmem)
  obtain ⟨x', hx', hxo⟩ := M'.exists_of_mem ho'
  obtain ⟨y', hy', hfresh, hysrc, hstored, -⟩ := M'.grows.creator hx'
  have hxsrc : x'.src = y.src := by rw [hxo]
  have hxinput : x'.input = y.input := by rw [hxo]
  refine ⟨y', Trie.mem_edgesAt.mpr ⟨hy', hfresh, hysrc.trans (hxsrc.trans hsrc)⟩, ?_⟩
  rw [hstored, M'.straight.symbol x' hx', hxinput, M.straight.symbol y hmem]

theorem input_alike (hr : Relisted H layer layer' states) {i j : ℕ} (hp : M.places[i]? = some p)
    (hp' : M'.places[j]? = some p) {e e' : InputEvent} (he : e.symbol = e'.symbol) :
    (Mapper.transitionFor H (M.trie.state (Numbering.number M.places) M.trie p) e).Alike
      (M.SamePlace M')
      (Mapper.transitionFor H (M'.trie.state (Numbering.number M'.places) M'.trie p) e') := by
  rcases M.input_cases hp (M.represents.state hp) e with
    ⟨y, hy, heq, hedge⟩ | ⟨hne, hfallback⟩
  · obtain ⟨hmem, -, hsrc⟩ := Trie.mem_edgesAt.mp hy
    rcases M'.input_cases hp' (M'.represents.state hp') e' with
      ⟨y', hy', heq', hedge'⟩ | ⟨hne', -⟩
    · obtain ⟨hmem', -, hsrc'⟩ := Trie.mem_edgesAt.mp hy'
      obtain ⟨owner, ho'⟩ := exists_owner hr.perm.symm (M'.straight.mem hmem')
      have hinput : y.input.eq e = true := by
        rwa [InputEvent.eq_congr (M.straight.symbol y hmem).symm rfl]
      have hinput' : y'.input.eq e = true := by
        rwa [InputEvent.eq_congr (M'.straight.symbol y' hmem').symm he]
      have hsymbol : y.input.symbol = y'.input.symbol :=
        (hr.free.symbol_eq (M.straight.mem hmem) ho' (hsrc.trans hsrc'.symm) hinput hinput' :)
      have hdest : y.dest = y'.dest := by
        rw [Occurrence.dest, Occurrence.dest, hsrc, hsrc', hsymbol]
      rw [hedge, hedge']
      exact M.edge_alike M' hmem hmem' hdest
        (hr.sameEdge (M.straight.mem hmem) (M'.straight.mem hmem') hdest)
    · obtain ⟨y', hy', hsymbol⟩ := M.exists_edge M' hr.perm hy
      have heq' := hne' y' hy'
      rw [InputEvent.eq_congr hsymbol he.symm, heq] at heq'
      cases heq'
  · rcases M'.input_cases hp' (M'.represents.state hp') e' with
      ⟨y', hy', heq', -⟩ | ⟨-, hfallback'⟩
    · obtain ⟨y, hy, hsymbol⟩ := M'.exists_edge M hr.perm.symm hy'
      have heq := hne y hy
      rw [InputEvent.eq_congr hsymbol he, heq'] at heq
      cases heq
    · rw [hfallback, hfallback']
      exact M.fallback_alike M' hr p

/-- The machines of two listings behave alike, place by place. -/
theorem bisimulation (hr : Relisted H layer layer' states) :
    Bisimulation H states states' (M.SamePlace M') where
  home := M.samePlace_home M'
  state := by
    rintro i j ⟨p, hp, hp'⟩
    rw [M.represents.state hp, M'.represents.state hp']
    refine .some ⟨?_, ?_⟩
    · intro e e' he
      exact M.input_alike M' hr hp hp' he
    · simp only [Trie.state]
      cases hx : M.trie.timedAt p with
      | none =>
          cases hx' : M'.trie.timedAt p with
          | none => exact .none
          | some x' =>
              obtain ⟨x, hx''⟩ := M'.timedAt_relisted M hr.perm.symm hx'
              cases hx.symm.trans hx''
      | some x =>
          obtain ⟨x', hx'⟩ := M.timedAt_relisted M' hr.perm hx
          rw [hx']
          exact .some (M.reaction_alike M' hr hx hx')

end StraightMachine

/-- The sequences of the layer can be listed in any order: the layer is
accepted as before, and on runs whose moments are of a kind its machine does
the same.  Each of the two listings reads its unassigned indices in its own
way. -/
def Layer.OrderFree (unassigned unassigned' : UnassignedRead) (H : QHash)
    (kind : ℕ → Moment → Prop) (layer : Layer) : Prop :=
  ∀ sequences : List SequenceTrigger, layer.sequenceRemappings.Perm sequences →
    ((∃ states, generateStatesReading unassigned H layer = .ok states) ↔
      ∃ states, generateStatesReading unassigned' H
        { layer with sequenceRemappings := sequences } = .ok states) ∧
    ∀ states states' : List State, generateStatesReading unassigned H layer = .ok states →
      generateStatesReading unassigned' H
        { layer with sequenceRemappings := sequences } = .ok states' →
        SameRuns H kind states states' ∧ SameRuns H kind states' states

theorem Relisted.sameRuns {H : QHash} {layer layer' : Layer} {states states' : List State}
    (hr : Relisted H layer layer' states) (hgenerate : generateStates H layer' = .ok states') :
    SameRuns H Moment.AssignedIn states states' := by
  obtain ⟨M⟩ := exists_straightMachine hr.generate hr.free.keptApart
  obtain ⟨M'⟩ := exists_straightMachine hgenerate (hr.free.perm hr.perm).keptApart
  exact (M.bisimulation M' hr).sameRuns

/-- A layer none of whose triggers depends on coming first is accepted in any
order or in none, and in any order its machine does the same, on every run
that takes no transition of the layer without a target.  Where a sequence of
the layer ends with a trigger, what is read there has to be the index of a
state. -/
theorem Layer.Interchangeable.orderFree {unassigned unassigned' : UnassignedRead} (H : QHash)
    {layer : Layer} (hfree : layer.Interchangeable)
    (hread : layer.EndsOnTrigger → unassigned.Valid ∧ unassigned'.Valid) :
    layer.OrderFree unassigned unassigned' H Moment.AssignedIn := by
  intro sequences hperm
  have hread' : ({ layer with sequenceRemappings := sequences } : Layer).EndsOnTrigger →
      unassigned'.Valid := by
    rintro ⟨s, hs, pass, hpass, hlast⟩
    exact (hread ⟨s, hperm.mem_iff.mpr hs, pass, hpass, hlast⟩).2
  rw [generateStatesReading_of_valid unassigned H fun h ↦ (hread h).1,
    generateStatesReading_of_valid unassigned' H hread']
  refine ⟨hfree.exists_iff H hperm, fun states states' hstates hstates' ↦ ⟨?_, ?_⟩⟩
  · exact Relisted.sameRuns ⟨hfree, hperm, hstates⟩ hstates'
  · exact Relisted.sameRuns ⟨hfree.perm hperm, hperm.symm, hstates'⟩ hstates

/-- A key and then one of two others, the second after a wait. -/
def forkLayer : Layer where
  layerName := "fork"
  basicRemappings := []
  sequenceRemappings :=
    [⟨.default, [.keyPress .a, .keyPress .b], [.pressKey .x]⟩,
      ⟨.default, [.keyPress .a, .keyPress .c, .minimumWait 100, .keyPress .b], [.pressKey .y]⟩]

/-- One listing reads HOME, the other one the state that was pushed last. -/
theorem forkLayer_orderFree : forkLayer.OrderFree .home (fun b ↦ some (b.states.length - 1))
    (.first _) Moment.AssignedIn :=
  Layer.Interchangeable.orderFree (.first _) (by decide) fun _ ↦
    ⟨UnassignedRead.home_valid, fun _ h ↦ ⟨_, rfl, Nat.sub_one_lt_of_lt h⟩⟩

/-- A key, and the same key followed by another one. -/
def shorterFirstLayer : Layer where
  layerName := "shorter first"
  basicRemappings := []
  sequenceRemappings :=
    [⟨.default, [.keyPress .a], [.pressKey .x]⟩,
      ⟨.default, [.keyPress .a, .keyPress .b], [.pressKey .y]⟩]

/-- The conflict is only found when the longer sequence comes first. -/
theorem shorterFirstLayer_not_orderFree :
    ¬ ∀ layer : Layer, layer.OrderFree .home .home (.first _) fun _ _ ↦ True := by
  intro h
  have haccepted : ∃ states, generateStates (.first _) shorterFirstLayer = .ok states := ⟨_, rfl⟩
  have hrejected : generateStates (.first _) { shorterFirstLayer with
      sequenceRemappings := shorterFirstLayer.sequenceRemappings.reverse } =
        .error .nullopt := rfl
  obtain ⟨states, hstates⟩ :=
    (h shorterFirstLayer _ (List.reverse_perm _).symm).1.mp haccepted
  cases hstates.symm.trans hrejected

end Keybinder

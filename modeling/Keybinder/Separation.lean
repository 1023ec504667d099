import Mathlib.Data.List.Find
import Keybinder.Construction

/-!
# Layers whose triggers keep apart

The triggers of a layer, each with the place that its own sequence spells.
In a separated layer the construction puts every trigger at that place;
elsewhere it may lead a sequence through HOME, or along an edge of another
application.
-/

namespace Keybinder

namespace Occurrence

/-- The place after the trigger, as the sequence spells it. -/
def dest (o : Occurrence) : Place := o.src ++ [.sym o.input.symbol]

/-- The place where the sequence reads on. -/
def next (o : Occurrence) : Place := if o.pass.midWait then o.dest ++ [.wait] else o.dest

theorem dest_ne_nil (o : Occurrence) : o.dest ≠ [] := by simp [dest]

end Occurrence

/-- The occurrences of the triggers of a sequence, read from a place on. -/
def occurrencesFrom (owner : ℕ) (s : SequenceTrigger) : Place → List LoopPass → List Occurrence
  | _, [] => []
  | src, pass :: rest =>
      match pass.trigger.triggerToInput with
      | none => []
      | some input =>
          let o : Occurrence := ⟨owner, s, pass, input, src⟩
          o :: occurrencesFrom owner s o.next rest

theorem occurrencesFrom_cons {owner : ℕ} {s : SequenceTrigger} {src : Place} {pass : LoopPass}
    {passes : List LoopPass} {input : InputEvent} (h : pass.trigger.triggerToInput = some input) :
    occurrencesFrom owner s src (pass :: passes) = ⟨owner, s, pass, input, src⟩ ::
      occurrencesFrom owner s (Occurrence.next ⟨owner, s, pass, input, src⟩) passes := by
  simp [occurrencesFrom, h]

def SequenceTrigger.occurrences (s : SequenceTrigger) (owner : ℕ) : List Occurrence :=
  occurrencesFrom owner s [] (loopPasses [] s.sequence)

def Layer.occurrences (layer : Layer) : List Occurrence :=
  layer.sequenceRemappings.zipIdx.flatMap fun (s, owner) ↦ s.occurrences owner

/-- The first occurrence that leads to a place. -/
def firstAt (O : List Occurrence) (p : Place) : Option Occurrence :=
  O.find? fun o ↦ decide (o.dest = p)

/-- The first occurrence with a wait that leads to a place. -/
def firstTimedAt (O : List Occurrence) (p : Place) : Option Occurrence :=
  O.find? fun o ↦ o.pass.timer.isSome && decide (o.dest = p)

/-! ## What an occurrence says about its sequence -/

def Place.syms (p : Place) : List Symbol :=
  p.filterMap fun
    | .sym s => some s
    | .wait => none

@[simp] theorem Place.syms_nil : Place.syms [] = [] := rfl

@[simp] theorem Place.syms_append (p p' : Place) :
    Place.syms (p ++ p') = Place.syms p ++ Place.syms p' := by
  simp [Place.syms]

@[simp] theorem Place.syms_sym (s : Symbol) : Place.syms [.sym s] = [s] := rfl

@[simp] theorem Place.syms_wait : Place.syms [.wait] = [] := rfl

/-- The events of the key and app triggers of a list. -/
def inputsOf (triggers : List AdvancedTrigger) : List InputEvent :=
  triggers.filterMap AdvancedTrigger.triggerToInput

def SequenceTrigger.inputs (s : SequenceTrigger) : List InputEvent := inputsOf s.sequence

@[simp] theorem inputsOf_append (l l' : List AdvancedTrigger) :
    inputsOf (l ++ l') = inputsOf l ++ inputsOf l' := by
  simp [inputsOf]

theorem heldOutputs_cons (trigger : AdvancedTrigger) (rest : List AdvancedTrigger) :
    heldOutputs (trigger :: rest) =
      (trigger.triggerToInput.map fun input ↦
        StateMachineOutputEvent.basicTranlation (some input)).toList ++
      (inputsOf rest).map fun input ↦ .proccessInput (some input) := by
  have hlater : ∀ {output : AdvancedTrigger × ℕ → Option StateMachineOutputEvent},
      (∀ trigger j, output (trigger, j + 1) =
        trigger.triggerToInput.map fun input ↦ .proccessInput (some input)) →
      ∀ (l : List AdvancedTrigger) (k : ℕ), (l.zipIdx (k + 1)).filterMap output =
        (inputsOf l).map fun input ↦ .proccessInput (some input) := by
    intro output houtput l
    induction l with
    | nil =>
        intro k
        rfl
    | cons trigger l ih =>
        intro k
        rw [List.zipIdx_cons, List.filterMap_cons, houtput, ih (k + 1)]
        cases hinput : trigger.triggerToInput <;> simp [inputsOf, hinput]
  rw [heldOutputs, List.zipIdx_cons, List.filterMap_cons, hlater fun _ _ ↦ rfl]
  cases hinput : trigger.triggerToInput <;> simp [hinput]

namespace Occurrence

theorem syms_dest (o : Occurrence) : Place.syms o.dest = Place.syms o.src ++ [o.input.symbol] := by
  simp [dest]

theorem syms_next (o : Occurrence) : Place.syms o.next = Place.syms o.dest := by
  unfold next
  split <;> simp

/-- What an occurrence of the trigger of a sequence satisfies. -/
structure Of (s : SequenceTrigger) (owner : ℕ) (o : Occurrence) : Prop where
  sequence_eq : o.sequence = s
  owner_eq : o.owner = owner
  input_eq : o.pass.trigger.triggerToInput = some o.input
  syms_eq : Place.syms o.dest = (inputsOf o.pass.read).map InputEvent.symbol
  read_eq : o.pass.final = true → o.pass.read = s.sequence

end Occurrence

section

variable {owner : ℕ} {s : SequenceTrigger} {read rest : List AdvancedTrigger} {src : Place}
  {pass : LoopPass} {o : Occurrence}

theorem of_mem_occurrencesFrom_cons (waits : List AdvancedTrigger)
    (hsrc : Place.syms src = (inputsOf read).map InputEvent.symbol)
    (hwaits : inputsOf waits = []) (hpass : pass.read = read ++ pass.trigger :: waits)
    (hfinal : pass.final = rest.isEmpty) (hsequence : pass.read ++ rest = s.sequence)
    (ih : ∀ {src'}, Place.syms src' = (inputsOf pass.read).map InputEvent.symbol →
      pass.read ++ rest = s.sequence →
      o ∈ occurrencesFrom owner s src' (loopPasses pass.read rest) → o.Of s owner)
    (ho : o ∈ occurrencesFrom owner s src (pass :: loopPasses pass.read rest)) :
    o.Of s owner := by
  unfold occurrencesFrom at ho
  cases hinput : pass.trigger.triggerToInput with
  | none => simp [hinput] at ho
  | some input =>
      simp only [hinput, List.mem_cons] at ho
      have hcons : inputsOf (pass.trigger :: waits) = input :: inputsOf waits := by
        simp [inputsOf, hinput]
      have hinputs : inputsOf pass.read = inputsOf read ++ [input] := by
        rw [hpass, inputsOf_append, hcons, hwaits]
      have hdest : Place.syms (Occurrence.dest ⟨owner, s, pass, input, src⟩) =
          (inputsOf pass.read).map InputEvent.symbol := by
        rw [Occurrence.syms_dest, hinputs, hsrc]
        simp
      rcases ho with rfl | ho
      · refine ⟨rfl, rfl, hinput, hdest, ?_⟩
        intro hlast
        rw [hfinal, List.isEmpty_iff] at hlast
        rw [← hsequence, hlast, List.append_nil]
      · refine ih ?_ hsequence ho
        rw [Occurrence.syms_next, hdest]

theorem of_mem_occurrencesFrom
    (hsrc : Place.syms src = (inputsOf read).map InputEvent.symbol)
    (hread : read ++ rest = s.sequence)
    (ho : o ∈ occurrencesFrom owner s src (loopPasses read rest)) : o.Of s owner := by
  fun_induction loopPasses read rest generalizing src with
  | case1 => simp [occurrencesFrom] at ho
  | case2 read trigger ms rest read' =>
      rename_i ih
      exact of_mem_occurrencesFrom_cons [.minimumWait ms] hsrc rfl rfl rfl
        (by simpa [read'] using hread) ih ho
  | case3 read trigger ms rest read' =>
      rename_i ih
      exact of_mem_occurrencesFrom_cons [.maximumWait ms] hsrc rfl rfl rfl
        (by simpa [read'] using hread) ih ho
  | case4 read trigger rest hmin hmax read' =>
      rename_i ih
      exact of_mem_occurrencesFrom_cons [] hsrc rfl rfl rfl
        (by simpa [read'] using hread) ih ho

end

theorem SequenceTrigger.of_mem_occurrences {s : SequenceTrigger} {owner : ℕ} {o : Occurrence}
    (ho : o ∈ s.occurrences owner) : o.Of s owner :=
  of_mem_occurrencesFrom rfl rfl ho

theorem Layer.of_mem_occurrences {layer : Layer} {o : Occurrence} (ho : o ∈ layer.occurrences) :
    layer.sequenceRemappings[o.owner]? = some o.sequence ∧ o.Of o.sequence o.owner := by
  obtain ⟨⟨s, owner⟩, hs, ho⟩ := List.mem_flatMap.mp ho
  have hof := SequenceTrigger.of_mem_occurrences ho
  obtain ⟨rfl, rfl⟩ := (⟨hof.sequence_eq, hof.owner_eq⟩ : o.sequence = s ∧ o.owner = owner)
  exact ⟨List.mem_zipIdx_iff_getElem?.mp hs, hof⟩

theorem Layer.mem_occurrences {layer : Layer} {o : Occurrence} (ho : o ∈ layer.occurrences) :
    o ∈ o.sequence.occurrences o.owner := by
  obtain ⟨⟨s, owner⟩, hs, ho⟩ := List.mem_flatMap.mp ho
  have hof := SequenceTrigger.of_mem_occurrences ho
  simpa [hof.sequence_eq, hof.owner_eq] using ho

theorem Layer.occurrences_subset {layer : Layer} {s : SequenceTrigger} {j : ℕ}
    (hs : layer.sequenceRemappings[j]? = some s) : s.occurrences j ⊆ layer.occurrences := by
  intro o ho
  exact List.mem_flatMap.mpr ⟨(s, j), List.mem_zipIdx_iff_getElem?.mpr hs, ho⟩

/-- Each occurrence is read where the one before it goes on. -/
theorem src_of_occurrencesFrom {owner : ℕ} {s : SequenceTrigger} {src : Place}
    {passes : List LoopPass} {pre suf : List Occurrence} {o : Occurrence}
    (h : occurrencesFrom owner s src passes = pre ++ o :: suf) :
    o.src = (pre.getLast?.map Occurrence.next).getD src := by
  induction passes generalizing src pre with
  | nil => simp [occurrencesFrom] at h
  | cons pass passes ih =>
      unfold occurrencesFrom at h
      cases hinput : pass.trigger.triggerToInput with
      | none => simp [hinput] at h
      | some input =>
          simp only [hinput] at h
          cases pre with
          | nil =>
              obtain ⟨rfl, -⟩ := List.cons.inj h
              rfl
          | cons o' pre =>
              obtain ⟨rfl, hrest⟩ := List.cons.inj h
              rw [ih hrest, List.getLast?_cons]
              cases pre.getLast? <;> rfl

theorem occurrencesFrom_map_pass (owner : ℕ) (s : SequenceTrigger) (src : Place)
    (passes : List LoopPass) :
    (occurrencesFrom owner s src passes).map Occurrence.pass <+: passes := by
  induction passes generalizing src with
  | nil => simp [occurrencesFrom]
  | cons pass passes ih =>
      unfold occurrencesFrom
      cases pass.trigger.triggerToInput with
      | none => simp
      | some input => simpa using ih _

theorem SequenceTrigger.passes_of_occurrences {s : SequenceTrigger} {owner : ℕ}
    {pre suf : List Occurrence} {o : Occurrence} (h : s.occurrences owner = pre ++ o :: suf) :
    (∀ o' ∈ pre, o'.pass.final = false) ∧
      (o.pass.final = true → loopPasses [] s.sequence = (pre ++ [o]).map Occurrence.pass) := by
  have hpre := occurrencesFrom_map_pass owner s [] (loopPasses [] s.sequence)
  rw [← occurrences, h] at hpre
  obtain ⟨rest, hrest⟩ := hpre
  have hpairwise := pairwise_loopPasses [] s.sequence
  rw [← hrest] at hpairwise
  simp only [List.map_append, List.map_cons, List.append_assoc, List.cons_append,
    List.pairwise_append, List.pairwise_cons, List.mem_map, List.mem_cons] at hpairwise
  constructor
  · intro o' ho'
    exact hpairwise.2.2 o'.pass ⟨o', ho', rfl⟩ o.pass (.inl rfl)
  · intro hfinal
    have hnil : suf.map Occurrence.pass ++ rest = [] := by
      rw [List.eq_nil_iff_forall_not_mem]
      intro pass hpass
      have hno := hpairwise.2.1.1 pass hpass
      rw [hfinal] at hno
      cases hno
    rw [← hrest]
    simp only [List.map_append, List.map_cons, List.append_assoc, List.cons_append, hnil,
      List.map_nil]

theorem inputsOf_loopPasses (read rest : List AdvancedTrigger) :
    (loopPasses read rest).filterMap (fun pass ↦ pass.trigger.triggerToInput) = inputsOf rest := by
  fun_induction loopPasses read rest with
  | case1 => rfl
  | case2 read trigger ms rest read' ih =>
      rw [List.filterMap_cons, ih]
      cases trigger <;> rfl
  | case3 read trigger ms rest read' ih =>
      rw [List.filterMap_cons, ih]
      cases trigger <;> rfl
  | case4 read trigger rest hmin hmax read' ih =>
      rw [List.filterMap_cons, ih]
      cases trigger <;> rfl

theorem SequenceTrigger.map_input_occurrences {s : SequenceTrigger} {owner : ℕ}
    (h : loopPasses [] s.sequence = (s.occurrences owner).map Occurrence.pass) :
    (s.occurrences owner).map Occurrence.input = s.inputs := by
  rw [inputs, ← inputsOf_loopPasses [] s.sequence, h, List.filterMap_map,
    ← List.filterMap_eq_map, List.filterMap_congr]
  intro o ho
  exact (of_mem_occurrences ho).input_eq.symm

/-- Occurrences that do not get into each other's way: of two application
names read at one place, neither contains the other; where a sequence ends,
no Default sequence listed later goes on; and where a sequence waits before
it goes on, the first wait is of that kind too. -/
structure Separated (O : List Occurrence) : Prop where
  appsApart : ∀ o ∈ O, ∀ o' ∈ O, o.src = o'.src → o.input.eq o'.input = true →
    o.input.symbol = o'.input.symbol
  endsApart : O.Pairwise fun o o' ↦ o.dest = o'.dest → o.pass.isLast = true →
    o'.pass.isLast = false → o'.sequence.behavior ≠ .default
  waitsOpen : ∀ o ∈ O, o.pass.midWait = true → ∀ o' ∈ firstTimedAt O o.dest,
    o'.pass.midWait = true

instance (O : List Occurrence) : Decidable (Separated O) :=
  decidable_of_iff
    ((∀ o ∈ O, ∀ o' ∈ O, o.src = o'.src → o.input.eq o'.input = true →
        o.input.symbol = o'.input.symbol) ∧
      (O.Pairwise fun o o' ↦ o.dest = o'.dest → o.pass.isLast = true →
        o'.pass.isLast = false → o'.sequence.behavior ≠ .default) ∧
      ∀ o ∈ O, o.pass.midWait = true → ∀ o' ∈ firstTimedAt O o.dest, o'.pass.midWait = true)
    ⟨fun ⟨h₁, h₂, h₃⟩ ↦ ⟨h₁, h₂, h₃⟩, fun ⟨h₁, h₂, h₃⟩ ↦ ⟨h₁, h₂, h₃⟩⟩

def Layer.Separated (layer : Layer) : Prop := Keybinder.Separated layer.occurrences

instance (layer : Layer) : Decidable layer.Separated :=
  inferInstanceAs (Decidable (Keybinder.Separated layer.occurrences))

/-- The trigger may share the edge that the first one made. -/
structure Agrees (c o : Occurrence) : Prop where
  goes_on : c.pass.isLast = false
  shares_on : o.pass.isLast = false
  behavior_eq : c.sequence.behavior = o.sequence.behavior
  timer_eq : c.pass.timer.isSome → o.pass.timer.isSome → c.pass.timer = o.pass.timer

/-- What the placement of occurrences rests on: a wait only has to be open
when its trigger agrees with the first one that leads to the same place. -/
structure KeptApart (O : List Occurrence) : Prop where
  appsApart : ∀ o ∈ O, ∀ o' ∈ O, o.src = o'.src → o.input.eq o'.input = true →
    o.input.symbol = o'.input.symbol
  endsApart : O.Pairwise fun o o' ↦ o.dest = o'.dest → o.pass.isLast = true →
    o'.pass.isLast = false → o'.sequence.behavior ≠ .default
  waitsOpen : ∀ {before : List Occurrence} {o : Occurrence}, before ++ [o] <+: O →
    o.pass.midWait = true → (∀ c ∈ firstAt before o.dest, Agrees c o) →
    ∀ o' ∈ firstTimedAt before o.dest, o'.pass.midWait = true

theorem firstTimedAt_mono {O O' : List Occurrence} {p : Place} {o : Occurrence}
    (hpre : O <+: O') (h : firstTimedAt O p = some o) : firstTimedAt O' p = some o := by
  obtain ⟨rest, rfl⟩ := hpre
  simp only [firstTimedAt] at h
  simp [firstTimedAt, h]

theorem Separated.keptApart {O : List Occurrence} (hsep : Separated O) : KeptApart O where
  appsApart := hsep.appsApart
  endsApart := hsep.endsApart
  waitsOpen hpre hmid _ o' ho' :=
    hsep.waitsOpen _ (hpre.subset (by simp)) hmid o'
      (firstTimedAt_mono ((List.prefix_append _ _).trans hpre) ho')

/-! ## Straight placements -/

/-- The placements are the given occurrences, each put at the place that its
sequence spells, and the first at a place is the one that makes its edge. -/
structure Straight (O : List Occurrence) (T : Trie) : Prop where
  occurrences : T.map Placement.toOccurrence = O
  symbol : ∀ x ∈ T, x.stored.symbol = x.input.symbol
  tgt : ∀ x ∈ T, x.tgt = if x.pass.isLast then [] else x.dest
  fresh_iff : ∀ x ∈ T, x.fresh = true ↔ T.find? (fun y ↦ decide (y.dest = x.dest)) = some x

namespace Straight

variable {H : QHash} {O : List Occurrence} {T : Trie} {s : SequenceTrigger} {owner : ℕ}
  {p : Place} {pass : LoopPass} {x y : Placement}

theorem nil : Straight [] [] := ⟨rfl, by simp, by simp, by simp⟩

theorem mem (h : Straight O T) (hx : x ∈ T) : x.toOccurrence ∈ O := by
  rw [← h.occurrences]
  exact List.mem_map_of_mem hx

theorem tgt_of_timer (h : Straight O T) (hx : x ∈ T) (ht : x.pass.timer.isSome = true) :
    x.tgt = x.dest := by
  have hlast : x.pass.isLast = false := by
    cases htimer : x.pass.timer with
    | none => simp [htimer] at ht
    | some timer => simp [LoopPass.isLast, htimer]
  simp [h.tgt x hx, hlast]

/-- The timers of the places are those of the occurrences. -/
theorem timedAt (h : Straight O T) (p : Place) :
    (T.timedAt p).map Placement.toOccurrence = firstTimedAt O p := by
  rw [Trie.timedAt, firstTimedAt, ← h.occurrences, List.find?_map]
  congr 1
  apply List.find?_congr
  intro x hx
  cases ht : x.pass.timer with
  | none => simp [ht]
  | some timer => simp [ht, h.tgt_of_timer hx (by simp [ht])]

theorem fresh_of_find (h : Straight O T)
    (hx : T.find? (fun y ↦ decide (y.dest = p)) = some x) : x.fresh = true := by
  have hdest : x.dest = p := by simpa using List.find?_some hx
  rw [h.fresh_iff x (List.mem_of_find?_eq_some hx), hdest, hx]

theorem firstAt_of_fresh (h : Straight O T) (hx : x ∈ T) (hfresh : x.fresh = true) :
    firstAt O x.dest = some x.toOccurrence := by
  rw [firstAt, ← h.occurrences, List.find?_map]
  exact congrArg (Option.map Placement.toOccurrence) ((h.fresh_iff x hx).mp hfresh)

theorem fresh_of_firstAt (h : Straight O T) {c : Occurrence} (hc : firstAt O p = some c) :
    ∃ x ∈ T, x.toOccurrence = c ∧ x.fresh = true ∧ x.dest = p := by
  rw [firstAt, ← h.occurrences, List.find?_map] at hc
  obtain ⟨x, hx, rfl⟩ := Option.map_eq_some_iff.mp hc
  exact ⟨x, List.mem_of_find?_eq_some hx, rfl, h.fresh_of_find hx, by simpa using List.find?_some hx⟩

/-- A last trigger is the first to lead where it does, and any other one
agrees with the first. -/
theorem agrees (h : Straight O T) (hT : T.Grows H) (hx : x ∈ T) {c : Occurrence}
    (hc : firstAt O x.dest = some c) :
    c = x.toOccurrence ∨ x.pass.isLast = false ∧ c.pass.isLast = false ∧
      c.sequence.behavior = x.sequence.behavior ∧
      (c.pass.timer.isSome → x.pass.timer.isSome → c.pass.timer = x.pass.timer) := by
  rcases hT.shares hx with hfresh | ⟨hlast, y, hy, hfresh, -, -, htgt, hbehavior, htimer⟩
  · left
    rw [h.firstAt_of_fresh hx hfresh] at hc
    exact (Option.some.inj hc).symm
  · right
    have hxtgt : x.tgt = x.dest := by simpa [hlast] using h.tgt x hx
    have hytgt := h.tgt y hy
    have hylast : y.pass.isLast = false := by
      by_contra hylast
      rw [if_pos (by simpa using hylast), htgt, hxtgt] at hytgt
      exact x.dest_ne_nil hytgt
    rw [hylast, htgt, hxtgt] at hytgt
    obtain rfl : y.toOccurrence = c := by
      rw [hytgt] at hc
      exact Option.some.inj ((h.firstAt_of_fresh hy hfresh).symm.trans hc)
    simp only [Placement.metadata, hylast, Bool.false_eq_true, if_false] at hbehavior htimer
    exact ⟨hlast, hylast, hbehavior, htimer⟩

theorem snoc (h : Straight O T) (hsymbol : x.stored.symbol = x.input.symbol)
    (htgt : x.tgt = if x.pass.isLast then [] else x.dest)
    (hfresh : x.fresh = true ↔ T.find? (fun y ↦ decide (y.dest = x.dest)) = none) :
    Straight (O ++ [x.toOccurrence]) (T ++ [x]) := by
  refine ⟨by simp [h.occurrences], ?_, ?_, ?_⟩
  · intro z hz
    rcases List.mem_append.mp hz with hz | hz
    · exact h.symbol z hz
    · rwa [List.mem_singleton.mp hz]
  · intro z hz
    rcases List.mem_append.mp hz with hz | hz
    · exact h.tgt z hz
    · rwa [List.mem_singleton.mp hz]
  · intro z hz
    rw [List.find?_append]
    rcases List.mem_append.mp hz with hz | hz
    · have hsome : (T.find? fun y ↦ decide (y.dest = z.dest)).isSome = true := by
        rw [List.find?_isSome]
        exact ⟨z, hz, by simp⟩
      rw [Option.or_of_isSome hsome]
      exact h.fresh_iff z hz
    · obtain rfl := List.mem_singleton.mp hz
      cases hfirst : T.find? fun y ↦ decide (y.dest = z.dest) with
      | none => simp [hfresh.mpr hfirst]
      | some y =>
          have hy := h.fresh_of_find hfirst
          have hz : z.fresh ≠ true := by simp [hfresh, hfirst]
          have hne : y ≠ z := by
            rintro rfl
            exact hz hy
          simp [hz, hne]

theorem dest_of_shared (h : Straight O T) {input : InputEvent}
    (happs : ∀ y ∈ T, y.src = p → y.input.eq input = true → y.input.symbol = input.symbol)
    (hy : y ∈ T.edgesAt p) (heq : y.stored.eq input = true) :
    y.input.symbol = input.symbol ∧ y.dest = p ++ [.sym input.symbol] := by
  obtain ⟨hy, -, hsrc⟩ := Trie.mem_edgesAt.mp hy
  have hinput : y.input.eq input = true := by
    rw [← InputEvent.eq_congr (h.symbol y hy) rfl]
    exact heq
  have hsymbol := happs y hy hsrc hinput
  exact ⟨hsymbol, by simp [Occurrence.dest, hsrc, hsymbol]⟩

theorem find_of_fresh (h : Straight O T) {input : InputEvent}
    (hne : ∀ y ∈ T.edgesAt p, y.stored.eq input = false) :
    T.find? (fun y ↦ decide (y.dest = p ++ [.sym input.symbol])) = none := by
  cases hfirst : T.find? fun y ↦ decide (y.dest = p ++ [.sym input.symbol]) with
  | none => rfl
  | some y =>
      have hy := List.mem_of_find?_eq_some hfirst
      have hdest : y.dest = p ++ [.sym input.symbol] := by simpa using List.find?_some hfirst
      obtain ⟨hsrc, hsym⟩ := List.append_inj' hdest rfl
      have hsymbol : y.stored.symbol = input.symbol := by
        rw [h.symbol y hy]
        simpa using hsym
      have hedge : y ∈ T.edgesAt p := Trie.mem_edgesAt.mpr ⟨hy, h.fresh_of_find hfirst, hsrc⟩
      have heq := InputEvent.eq_of_symbol_eq hsymbol
      rw [hne y hedge] at heq
      cases heq

theorem append (h : Straight O T) (hputs : Trie.Puts H T s owner p pass x)
    (happs : ∀ y ∈ T, y.src = x.src → y.input.eq x.input = true →
      y.input.symbol = x.input.symbol)
    (hends : ∀ y ∈ T, y.dest = x.dest → y.pass.isLast = true → x.pass.isLast = false →
      x.sequence.behavior ≠ .default) :
    Straight (O ++ [x.toOccurrence]) (T ++ [x]) := by
  cases hputs with
  | @shared input y hinput hfind hedge heq hlast hbehavior htimer =>
      obtain ⟨hsymbol, hdest⟩ := h.dest_of_shared happs hedge heq
      have hy := (Trie.mem_edgesAt.mp hedge).1
      have hyLast := y.notLast_of_metadata hbehavior fun hyLast ↦ hends y hy hdest hyLast hlast
      have htgt : y.tgt = y.dest := by simp [h.tgt y hy, hyLast]
      apply h.snoc
      · exact (h.symbol y hy).trans hsymbol
      · rw [hlast]
        exact htgt.trans hdest
      · refine iff_of_false Bool.false_ne_true ?_
        rw [List.find?_eq_none]
        intro hnone
        exact hnone y hy (decide_eq_true hdest)
  | fresh hinput hfind hne =>
      apply h.snoc
      · rfl
      · rfl
      · simpa [Occurrence.dest] using h.find_of_fresh hne

theorem agrees_of_puts (h : Straight O T) (hputs : Trie.Puts H T s owner p pass x)
    (happs : ∀ y ∈ T, y.src = x.src → y.input.eq x.input = true →
      y.input.symbol = x.input.symbol)
    (hends : ∀ y ∈ T, y.dest = x.dest → y.pass.isLast = true → x.pass.isLast = false →
      x.sequence.behavior ≠ .default) :
    ∀ c ∈ firstAt O x.dest, Agrees c x.toOccurrence := by
  intro c hc
  cases hputs with
  | @shared input y hinput hfind hedge heq hlast hbehavior htimer =>
      have hdest := (h.dest_of_shared happs hedge heq).2
      obtain ⟨hy, hfresh, -⟩ := Trie.mem_edgesAt.mp hedge
      obtain rfl : y.toOccurrence = c := by
        rw [Occurrence.dest, ← hdest, h.firstAt_of_fresh hy hfresh] at hc
        exact Option.some.inj hc
      have hylast := y.notLast_of_metadata hbehavior fun hylast ↦ hends y hy hdest hylast hlast
      rw [Placement.metadata_of_notLast hylast] at hbehavior htimer
      exact ⟨hylast, hlast, hbehavior, htimer⟩
  | fresh hinput hfind hne =>
      obtain ⟨y, hy, -, -, hdest⟩ := h.fresh_of_firstAt hc
      have hnone := h.find_of_fresh hne
      rw [List.find?_eq_none] at hnone
      exact (hnone y hy (decide_eq_true hdest)).elim

theorem next_eq (h : Straight O T) (hx : x.tgt = if x.pass.isLast then [] else x.dest)
    (hfinal : x.pass.final = false)
    (hwaits : x.pass.midWait = true → ∀ o, firstTimedAt O x.dest = some o →
      o.pass.midWait = true) :
    T.next x = x.next := by
  have hlast : x.pass.isLast = false := by simp [LoopPass.isLast, hfinal]
  have htgt : x.tgt = x.dest := by simpa [hlast] using hx
  unfold Trie.next
  split
  · rename_i ms htimer
    have hmid : x.pass.midWait = true := by simp [LoopPass.midWait, htimer, hfinal]
    have hnext : x.next = x.dest ++ [.wait] := by simp [Occurrence.next, hmid]
    cases hy : T.timedAt x.tgt with
    | none => simp [hfinal, htgt, hnext]
    | some y =>
        have htimed := h.timedAt x.tgt
        rw [hy, htgt] at htimed
        have hymid := hwaits hmid y.toOccurrence htimed.symm
        have hytgt := (Trie.timedAt_eq_some hy).2.2
        simp [Placement.timerPlace_of_midWait hymid, hytgt, htgt, hnext]
  · rename_i htimer
    have hmid : x.pass.midWait = false := by
      unfold LoopPass.midWait
      split
      · rename_i ms hms
        exact (htimer ms hms).elim
      · rfl
    simp [Occurrence.next, hmid, htgt]

end Straight

section Trie

variable {H : QHash} {O All : List Occurrence} {T T' : Trie} {s : SequenceTrigger} {owner : ℕ}
  {p p' : Place}

theorem Trie.Puts.toOccurrence_eq {pass : LoopPass} {input : InputEvent} {x : Placement}
    (h : Trie.Puts H T s owner p pass x) (hinput : pass.trigger.triggerToInput = some input) :
    x.toOccurrence = ⟨owner, s, pass, input, p⟩ := by
  cases h with
  | shared hinput' => rw [Option.some.inj (hinput.symm.trans hinput')]
  | fresh hinput' => rw [Option.some.inj (hinput.symm.trans hinput')]

/-- A trigger of a separated list is put where its sequence says, and the
sequence goes on from there. -/
theorem Straight.putPass (hsep : KeptApart All) (h : Straight O T) {pass : LoopPass}
    {input : InputEvent} (hinput : pass.trigger.triggerToInput = some input)
    (hpre : O ++ [⟨owner, s, pass, input, p⟩] <+: All)
    (hput : Trie.putPass H s owner (T, p) pass = .ok (T', p')) :
    Straight (O ++ [⟨owner, s, pass, input, p⟩]) T' ∧
      (pass.final = false → p' = Occurrence.next ⟨owner, s, pass, input, p⟩) := by
  obtain ⟨x, hx, hpair⟩ := Exits.bind_eq_ok.mp hput
  cases hpair
  have hputs := Trie.puts_of_put hx
  have hxo : x.toOccurrence = ⟨owner, s, pass, input, p⟩ := hputs.toOccurrence_eq hinput
  have hall : ∀ y ∈ T, y.toOccurrence ∈ All := fun y hy ↦
    hpre.subset (List.mem_append_left _ (h.mem hy))
  have hxall : x.toOccurrence ∈ All := hpre.subset (by simp [hxo])
  have hpairwise := hsep.endsApart.sublist hpre.sublist
  rw [← hxo] at hpairwise hpre ⊢
  have happs : ∀ y ∈ T, y.src = x.src → y.input.eq x.input = true →
      y.input.symbol = x.input.symbol :=
    fun y hy hsrc heq ↦ hsep.appsApart _ (hall y hy) _ hxall hsrc heq
  have hends : ∀ y ∈ T, y.dest = x.dest → y.pass.isLast = true → x.pass.isLast = false →
      x.sequence.behavior ≠ .default :=
    fun y hy hdest hlast ↦ (List.pairwise_append.mp hpairwise).2.2 _ (h.mem hy) _
      (by simp) hdest hlast
  have happend := h.append hputs happs hends
  refine ⟨happend, fun hfinal ↦ ?_⟩
  have hxfinal : x.pass.final = false := by
    rw [← hfinal]
    exact congrArg (fun o : Occurrence ↦ o.pass.final) hxo
  apply h.next_eq (happend.tgt x (by simp)) hxfinal
  intro hmid o ho
  exact hsep.waitsOpen hpre hmid (h.agrees_of_puts hputs happs hends) o ho

/-- The placements of a sequence are straight when its occurrences are
separated from each other and from those before. -/
theorem straight_of_putPasses (hsep : KeptApart All) {passes : List LoopPass}
    (hfinal : passes.Pairwise fun pass _ ↦ pass.final = false) (hstraight : Straight O T)
    (hpre : O ++ occurrencesFrom owner s p passes <+: All)
    (h : passes.foldlM (Trie.putPass H s owner) (T, p) = .ok (T', p')) :
    Straight (O ++ occurrencesFrom owner s p passes) T' := by
  induction passes generalizing O T p with
  | nil =>
      cases h
      simpa [occurrencesFrom] using hstraight
  | cons pass passes ih =>
      obtain ⟨⟨T₁, p₁⟩, hput, hrest⟩ := Exits.foldlM_cons_eq_ok.mp h
      obtain ⟨x, hx, -⟩ := Exits.bind_eq_ok.mp hput
      obtain ⟨input, hinput⟩ : ∃ input, pass.trigger.triggerToInput = some input := by
        cases Trie.puts_of_put hx with
        | shared hinput => exact ⟨_, hinput⟩
        | fresh hinput => exact ⟨_, hinput⟩
      rw [occurrencesFrom_cons hinput] at hpre ⊢
      have hpre' : (O ++ [⟨owner, s, pass, input, p⟩]) ++ occurrencesFrom owner s
          (Occurrence.next ⟨owner, s, pass, input, p⟩) passes <+: All := by simpa using hpre
      obtain ⟨happend, hnext⟩ :=
        hstraight.putPass hsep hinput ((List.prefix_append _ _).trans hpre') hput
      cases passes with
      | nil =>
          cases hrest
          simpa [occurrencesFrom] using happend
      | cons pass' passes =>
          obtain rfl := hnext ((List.pairwise_cons.mp hfinal).1 pass' (by simp))
          simpa using ih (List.pairwise_cons.mp hfinal).2 happend hpre' hrest

theorem straight_of_trie {layer : Layer} (hsep : KeptApart layer.occurrences)
    (h : layer.trie H = .ok T) :
    Straight layer.occurrences T := by
  have hfold : ∀ (ss : List (SequenceTrigger × ℕ)) (O : List Occurrence) (T₀ : Trie),
      Straight O T₀ → O ++ ss.flatMap (fun (s, owner) ↦ s.occurrences owner) <+: layer.occurrences →
      ss.foldlM (Trie.putSequence H) T₀ = .ok T →
      Straight (O ++ ss.flatMap fun (s, owner) ↦ s.occurrences owner) T := by
    intro ss
    induction ss with
    | nil =>
        intro O T₀ hT₀ _ h
        cases h
        simpa using hT₀
    | cons owned ss ih =>
        intro O T₀ hT₀ hpre h
        obtain ⟨s, owner⟩ := owned
        obtain ⟨T₁, hs, hrest⟩ := Exits.foldlM_cons_eq_ok.mp h
        obtain ⟨⟨T₂, p₂⟩, hpasses, hT₂⟩ := Exits.bind_eq_ok.mp hs
        cases hT₂
        simp only [List.flatMap_cons, ← List.append_assoc] at hpre ⊢
        have hT₁ := straight_of_putPasses hsep (pairwise_loopPasses [] s.sequence) hT₀
          ((List.prefix_append _ _).trans hpre) hpasses
        exact ih _ T₁ hT₁ hpre hrest
  exact hfold _ [] [] .nil (List.prefix_refl _) h

end Trie

end Keybinder

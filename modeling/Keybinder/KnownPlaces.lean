import Keybinder.Interpreter

/-!
# Places that are not lost

A place is lost when a minimum wait has run out, its sequence goes on, and
an event arrives that it does not expect.  Where no sequence goes on after a
minimum wait the interpreter always knows its place, and the mapper does what
the interpreter does whatever happens.
-/

namespace Keybinder

namespace Layer

/-- No sequence goes on after a minimum wait. -/
def WaitsLast (layer : Layer) : Prop := ∀ o ∈ layer.occurrences, o.pass.midWait = false

instance (layer : Layer) : Decidable layer.WaitsLast :=
  inferInstanceAs (Decidable (∀ o ∈ layer.occurrences, o.pass.midWait = false))

/-- HOME, or a place that a trigger leads to. -/
def Knows (layer : Layer) (p : Place) : Prop :=
  p = [] ∨ (firstAt layer.occurrences p).isSome = true

variable {H : QHash} {layer : Layer} {p : Place} {e : InputEvent}

theorem mismatch_place (hp : layer.Knows p) : (layer.mismatch p).place = some [] := by
  unfold mismatch
  split
  · rfl
  · rename_i hne
    obtain ⟨o, ho⟩ := Option.isSome_iff_exists.mp (hp.resolve_left hne)
    rw [ho]

theorem reactTo_place (hp : layer.Knows p) :
    ∃ p', (layer.reactTo p H e).place = some p' ∧ layer.Knows p' := by
  unfold reactTo
  cases hfind : H.find ((layer.readAt p).map fun o ↦ (o.input, o.response)) e with
  | none => exact ⟨[], mismatch_place hp, .inl rfl⟩
  | some response =>
      obtain ⟨k, hk, -⟩ := H.find_eq_some hfind
      obtain ⟨o, ho, hpair⟩ := List.mem_map.mp hk
      obtain ⟨rfl, rfl⟩ := Prod.mk.inj hpair
      refine ⟨_, rfl, ?_⟩
      split
      · exact .inl rfl
      · right
        have hfirst : firstAt layer.occurrences o.dest = some o := by
          have hread := (List.mem_filter.mp ho).2
          rw [Bool.and_eq_true] at hread
          exact of_decide_eq_true hread.2
        rw [hfirst]
        rfl

theorem timeout_place (hwaits : layer.WaitsLast) (hp : layer.Knows p) {response : Response}
    (h : layer.timeout p = some response) :
    ∃ p', response.place = some p' ∧ layer.Knows p' := by
  obtain ⟨o, ho, rfl⟩ := Option.map_eq_some_iff.mp h
  have hmid := hwaits o (List.mem_of_find?_eq_some ho)
  split
  · rename_i ms htimer
    have hfinal : o.pass.final = true := by simpa [LoopPass.midWait, htimer] using hmid
    rw [if_pos hfinal]
    exact ⟨[], rfl, .inl rfl⟩
  · exact ⟨[], mismatch_place hp, .inl rfl⟩

end Layer

namespace Interpreter

/-- The interpreter knows its place, and no layer can make it lose it. -/
structure Located (i : Interpreter) : Prop where
  waits : ∀ layer ∈ i.layers, layer.WaitsLast
  place : ∃ p, i.place = some p ∧ ∀ layer, i.layers[i.curLayerIdx]? = some layer → layer.Knows p

namespace Located

variable {env : Env} {H : QHash} {i : Interpreter} {fuel : ℕ}

theorem queueOutput (h : i.Located) (e : OutputEvent) (delay : ℕ) :
    (i.queueOutput env e delay).Located :=
  ⟨h.waits, h.place⟩

theorem vectorAt_avoids {α : Type} {bad : Exit} (hrange : .outOfRange ≠ bad) (v : List α) (n : ℕ) :
    Exits.Avoids bad (fun a ↦ v[n]? = some a) (vectorAt v n) := by
  unfold vectorAt
  split
  · assumption
  · exact hrange

theorem setLayerInner (hwaits : ∀ layer ∈ i.layers, layer.WaitsLast) (newLayer : ℕ) :
    Exits.Avoids .unassigned Located (i.setLayerInner newLayer) := by
  have hhome : ∃ p, some ([] : Place) = some p ∧
      ∀ layer, i.layers[newLayer]? = some layer → layer.Knows p := ⟨[], rfl, fun _ _ ↦ .inl rfl⟩
  unfold Interpreter.setLayerInner
  dsimp only
  split
  · exact (vectorAt_avoids (by decide) _ _).bind fun layer _ ↦ ⟨hwaits, hhome⟩
  · exact ⟨hwaits, hhome⟩

theorem queueBinds (h : i.Located) (binds : List Bind) :
    Exits.Avoids .unassigned Located (i.queueBinds env binds) := by
  refine Exits.Avoids.bind (P := fun c ↦ c.1.Located) ?_ fun c hc ↦ hc
  refine Exits.Avoids.foldlM (Q := fun c : Interpreter × ℕ ↦ c.1.Located) ?_ h
  rintro ⟨i, delay⟩ b - hi
  cases b with
  | pressKey keyCode => exact hi.queueOutput _ _
  | releaseKey keyCode => exact hi.queueOutput _ _
  | swapLayer newLayer => exact (setLayerInner hi.waits newLayer).bind fun _ hi' ↦ hi'
  | wait ms => exact hi
  | runScript s => exact hi.queueOutput _ _

theorem translate (h : i.Located) (e : InputEvent) :
    Exits.Avoids .unassigned Located (i.translate env H e) := by
  refine (vectorAt_avoids (by decide) _ _).bind fun layer _ ↦ ?_
  split
  · exact h.queueBinds _
  · exact h.queueOutput _ _
  · exact h

theorem runOutput (h : i.Located) (prevEvent : Option InputEvent) (redo : List InputEvent)
    (output : StateMachineOutputEvent) :
    Exits.Avoids .unassigned (fun c ↦ c.1.Located)
      (Interpreter.runOutput env H prevEvent (i, redo) output) := by
  cases output with
  | proccessInput event => exact h
  | basicTranlation event =>
      simp only [Interpreter.runOutput]
      split
      · exact h
      · exact (h.translate _).bind fun _ hi ↦ hi
  | bind b => exact (h.queueBinds [b]).bind fun _ hi ↦ hi

theorem respond (h : i.Located) {response : Response}
    (hplace : ∃ p, response.place = some p ∧
      ∀ layer, i.layers[i.curLayerIdx]? = some layer → layer.Knows p)
    (prevEvent : Option InputEvent) :
    Exits.Avoids .unassigned (fun c ↦ c.1.Located) (i.respond env H response prevEvent) :=
  Exits.Avoids.foldlM (Q := fun c : Interpreter × List InputEvent ↦ c.1.Located)
    (fun c output _ hc ↦ hc.runOutput prevEvent c.2 output) ⟨h.waits, hplace⟩

theorem position (h : i.Located) : Exits.Avoids .unassigned
    (fun c ↦ i.layers[i.curLayerIdx]? = some c.1 ∧ c.1.Knows c.2) i.position := by
  refine (vectorAt_avoids (by decide) _ _).bind fun layer hlayer ↦ ?_
  obtain ⟨p, hp, hknows⟩ := h.place
  rw [hp]
  exact ⟨hlayer, hknows layer hlayer⟩

theorem react (h : i.Located) (e : InputEvent) :
    Exits.Avoids .unassigned (fun c ↦ c.1.Located) (i.react env H e) := by
  unfold Interpreter.react
  split
  · cases e with
    | key e => exact ⟨h.waits, h.place⟩
    | app appName => exact h
  · refine h.position.bind ?_
    rintro ⟨layer, p⟩ ⟨hlayer, hknows⟩
    obtain ⟨p', hp', hknows'⟩ := Layer.reactTo_place (H := H) (e := e) hknows
    refine h.respond ⟨p', hp', fun layer' hlayer' ↦ ?_⟩ _
    obtain rfl := Option.some.inj (hlayer.symm.trans hlayer')
    exact hknows'

theorem processInput (h : i.Located) (e : InputEvent) :
    Exits.Avoids .unassigned Located (i.processInput env H fuel e) :=
  Refeed.run_avoids (by decide) (fun e hs ↦ hs.react e) fuel h e

theorem checkTimer (h : i.Located) : Exits.Avoids .unassigned Located (i.checkTimer env H fuel) := by
  refine h.position.bind ?_
  rintro ⟨layer, p⟩ ⟨hlayer, hknows⟩
  have hchecked : Located { i with instant := i.instant + 1 } := ⟨h.waits, h.place⟩
  dsimp only
  split
  · rename_i response htimeout
    split
    · obtain ⟨p', hp', hknows'⟩ :=
        Layer.timeout_place (h.waits layer (List.mem_of_getElem? hlayer)) hknows htimeout
      refine Exits.Avoids.bind (hchecked.respond ⟨p', hp', fun layer' hlayer' ↦ ?_⟩ none) ?_
      · obtain rfl := Option.some.inj (hlayer.symm.trans hlayer')
        exact hknows'
      · rintro ⟨i₁, redo⟩ hi₁
        exact Exits.Avoids.foldlM (fun i₂ e _ hi₂ ↦ hi₂.processInput e) hi₁
    · exact hchecked
  · exact hchecked

theorem checkQueuedEvents (h : i.Located) : (i.checkQueuedEvents env).Located := by
  unfold Interpreter.checkQueuedEvents
  split <;> exact ⟨h.waits, h.place⟩

theorem countKey (h : i.Located) (e : InputEvent) : (i.countKey env e).Located := by
  unfold Interpreter.countKey
  split
  · split <;> exact ⟨h.waits, h.place⟩
  · exact h

theorem loopBody (h : i.Located) (keyOpt : Option InputEvent) :
    Exits.Avoids .unassigned Located (i.loopBody env H fuel keyOpt) := by
  refine h.checkTimer.bind fun i₁ hi₁ ↦ ?_
  cases keyOpt with
  | none => exact hi₁.checkQueuedEvents
  | some e => exact ((hi₁.countKey e).processInput e).bind fun i₂ hi₂ ↦ hi₂.checkQueuedEvents

theorem setProfile (h : i.Located) {p : Profile} (hwaits : ∀ layer ∈ p.layers, layer.WaitsLast) :
    Exits.Avoids .unassigned Located (i.setProfile p) := by
  unfold Interpreter.setProfile
  split
  · exact setLayerInner (i := { i with layers := p.layers }) hwaits _
  · exact h

theorem operate (h : i.Located) {operation : Operation}
    (hwaits : ∀ p, operation.profile? = some p → ∀ layer ∈ p.layers, layer.WaitsLast) :
    Exits.Avoids .unassigned Located (i.operate env H fuel operation) := by
  cases operation with
  | setProfile p => exact h.setProfile (hwaits p rfl)
  | setLayer newLayer =>
      simp only [Interpreter.operate, Interpreter.setLayer]
      split
      · exact h
      · exact setLayerInner h.waits newLayer
  | pause => exact ⟨h.waits, h.place⟩
  | resume => exact ⟨h.waits, h.place⟩
  | stop => exact ⟨h.waits, h.place⟩
  | iteration keyOpt => exact h.loopBody keyOpt

theorem of_new {profile : Profile} {layerChangedCallback : Bool}
    (hwaits : ∀ layer ∈ profile.layers, layer.WaitsLast)
    (h : Interpreter.new profile layerChangedCallback = .ok i) : i.Located := by
  have hstart : Interpreter.Located { layerChangedCallback } :=
    ⟨by simp, [], rfl, fun _ _ ↦ .inl rfl⟩
  exact (hstart.setProfile hwaits).of_ok h

theorem operates (h : i.Located) {operations : List Operation}
    (hwaits : ∀ p ∈ operations.filterMap Operation.profile?, ∀ layer ∈ p.layers,
      layer.WaitsLast) :
    Exits.Avoids .unassigned Located (operations.foldlM (Interpreter.operate env H fuel) i) :=
  Exits.Avoids.foldlM (fun _ operation hmem hi ↦ hi.operate fun p hp ↦
    hwaits p (List.mem_filterMap.mpr ⟨operation, hmem, hp⟩)) h

end Located

end Interpreter

namespace Mapper

/-- When moreover no sequence goes on after a minimum wait, the mapper and
the interpreter do the same for good. -/
theorem life_interpreted_throughout (env : Env) (H : QHash) (fuel : ℕ) (profile : Profile)
    (layerChangedCallback : Bool) (operations : List Operation)
    (hsep : ∀ p ∈ profile :: operations.filterMap Operation.profile?,
      ∀ layer ∈ p.layers, layer.Separated)
    (hwaits : ∀ p ∈ profile :: operations.filterMap Operation.profile?,
      ∀ layer ∈ p.layers, layer.WaitsLast)
    {m₀ : Mapper} (hnew : Mapper.new H profile layerChangedCallback = .ok m₀) :
    ∃ i₀, Interpreter.new profile layerChangedCallback = .ok i₀ ∧
      Exits.Related Interpreter.Shows (operations.foldlM (Interpreter.operate env H fuel) i₀)
        (operations.foldlM (Mapper.operate env H fuel) m₀) := by
  rw [List.forall_mem_cons] at hsep hwaits
  obtain ⟨i₀, hi₀, hfollows⟩ := Follows.of_new hsep.1 hnew
  have hlocated := Interpreter.Located.of_new hwaits.1 hi₀
  exact ⟨i₀, hi₀, ((hfollows.operates hsep.2).related (hlocated.operates hwaits.2)).mono
    fun _ _ h ↦ h.shows⟩

def pairProfile : Profile :=
  ⟨"pair", [⟨"pair", [], [⟨.default, [.keyPress .a, .keyPress .b], [.pressKey .y]⟩]⟩], 0⟩

def pairKeys : List Operation := [.iteration (some (.key ⟨.a, .press⟩))]

theorem life_interpreted_throughout_pair : ∃ (m₀ m : Mapper) (i : Interpreter),
    Mapper.new (.first _) pairProfile false = .ok m₀ ∧
    pairKeys.foldlM (Mapper.operate .still (.first _) 2) m₀ = .ok m ∧
    i.place = some [.sym (.key ⟨.a, .press⟩)] ∧ i.Shows m := by
  obtain ⟨i₀, hi₀, hrel⟩ := life_interpreted_throughout .still (.first _) 2 pairProfile false
    pairKeys (by decide) (by decide) rfl
  cases hi₀
  obtain ⟨m, hm, hshows⟩ := hrel.ok_left
  exact ⟨_, m, _, rfl, hm, rfl, hshows⟩

end Mapper

end Keybinder

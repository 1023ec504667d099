import Keybinder.MapperThread

/-!
# Basic remappings behind the channel

Under a profile without sequences and waits the thread of the mapper is an
interpreter of the basic maps: whoever sends events and whenever the loop gets
to them, it executes their binds in the order they were sent.
-/

namespace Keybinder

namespace MapperThread

/-- The thread has executed some of the events that were sent, and the others
are pending. -/
structure Remaps (env : Env) (H : QHash) (p : Profile) (sent handled : List InputEvent)
    (s : MapperThread) : Prop where
  sent_eq : sent = handled ++ s.pending
  mapper : s.mapper.FollowsTo env p (handled.foldl (interpret H p) (p.defaultLayer, []))
  queue : s.mapper.queuedEvents = []

variable {env : Env} {H : QHash} {p : Profile} {sent handled : List InputEvent}
  {s : MapperThread}

theorem Remaps.frame (h : s.Remaps env H p sent handled) {s' : MapperThread}
    {more : List InputEvent} (hmapper : s'.mapper = s.mapper)
    (hpending : s'.pending = s.pending ++ more) : s'.Remaps env H p (sent ++ more) handled := by
  refine ⟨?_, hmapper ▸ h.mapper, hmapper ▸ h.queue⟩
  rw [h.sent_eq, hpending, List.append_assoc]

/-- No step of the loop or of a sender fails. -/
theorem Remaps.exists_step (h : s.Remaps env H p sent handled) (fuel : ℕ) (hbasic : p.Basic)
    (hexist : p.LayersExist) {x : ThreadStep} (hx : x.call? = none) :
    ∃ s', s.step env H (fuel + 1) x = .ok s' := by
  cases x with
  | sendKey e => exact ⟨_, rfl⟩
  | call c => cases hx
  | close => exact ⟨_, rfl⟩
  | requestInterruption => exact ⟨_, rfl⟩
  | advance =>
      simp only [MapperThread.step]
      split
      · exact ⟨_, rfl⟩
      · split <;> exact ⟨_, rfl⟩
      · rename_i keyOpt _
        obtain ⟨m', hbody, -⟩ := h.mapper.loopBody (H := H) fuel hbasic hexist keyOpt
        exact ⟨_, by rw [hbody]; rfl⟩
      · exact ⟨_, rfl⟩
  | timeOut =>
      simp only [MapperThread.step]
      split <;> exact ⟨_, rfl⟩

theorem Remaps.does (h : s.Remaps env H p sent handled) {fuel : ℕ} (hbasic : p.Basic)
    (hexist : p.LayersExist) {x : ThreadStep} (hx : x.call? = none) {s' : MapperThread}
    (hdoes : Does env H (fuel + 1) s x s') :
    ∃ handled', s'.Remaps env H p (sent ++ sends [x]) handled' := by
  have hsame : sends [x] = [] → s'.mapper = s.mapper → s'.pending = s.pending →
      ∃ handled', s'.Remaps env H p (sent ++ sends [x]) handled' := by
    intro hsends hmapper hpending
    exact ⟨handled, h.frame hmapper (by rw [hpending, hsends, List.append_nil])⟩
  cases hdoes with
  | idle x hidle => rcases hidle with ⟨rfl, -⟩ | rfl <;> exact hsame rfl rfl rfl
  | sendKey e =>
      refine ⟨handled, h.frame rfl ?_⟩
      simp [pending, Channel.sendKey, KeyQueue.sendKey, ThreadStep.key?]
  | call => cases hx
  | close => exact hsame rfl rfl rfl
  | interrupt => exact hsame rfl rfl rfl
  | leave hhead => exact hsame rfl rfl (by simp [pending, MapperPhase.inFlight, hhead])
  | wait hhead => exact hsame rfl rfl (by simp [pending, MapperPhase.inFlight, hhead])
  | take x hx hwaiting =>
      rcases hx with rfl | rfl <;> exact hsame rfl rfl (pending_take hwaiting)
  | @iterate keyOpt mapper hawake hbody =>
      obtain ⟨m', hbody', hm', hqueue⟩ := h.mapper.loopBody (H := H) fuel hbasic hexist keyOpt
      obtain rfl : mapper = m' := Except.ok.inj (hbody.symm.trans hbody')
      refine ⟨handled ++ keyOpt.toList, ?_, ?_, hqueue⟩
      · rw [h.sent_eq]
        simp [pending, MapperPhase.inFlight, hawake, ThreadStep.key?]
      · rw [List.foldl_append]
        exact hm'

theorem Remaps.run (h : s.Remaps env H p sent handled) (fuel : ℕ) (hbasic : p.Basic)
    (hexist : p.LayersExist) {steps : List ThreadStep} (hcalls : calls steps = []) :
    ∃ s' handled', MapperThread.run env H (fuel + 1) s steps = .ok s' ∧
      s'.Remaps env H p (sent ++ sends steps) handled' := by
  induction steps generalizing s sent handled with
  | nil => exact ⟨s, handled, rfl, by simpa using h⟩
  | cons x steps ih =>
      have hsplit : x :: steps = [x] ++ steps := rfl
      rw [hsplit, calls_append, List.append_eq_nil_iff] at hcalls
      have hx : x.call? = none := by simpa using hcalls.1
      obtain ⟨s₁, hstep⟩ := h.exists_step fuel hbasic hexist hx
      obtain ⟨handled₁, hs₁⟩ := h.does hbasic hexist hx (does_of_step hstep)
      obtain ⟨s', handled', hrun, hs'⟩ := ih hs₁ hcalls.2
      refine ⟨s', handled', Exits.foldlM_cons_eq_ok.mpr ⟨s₁, hstep, hrun⟩, ?_⟩
      rw [hsplit, sends_append, ← List.append_assoc]
      exact hs'

/-- However the senders and the loop are interleaved, under an accepted
profile without sequences and waits whose layers exist, no step fails; the
thread has executed what was sent but for what is pending, as many events as
the mapper counts, and has given the daemon the output of the interpreter on
them; if nothing is remapped, these are the key events.  What was pending at
some point is handled after three more steps of the loop for each of it. -/
theorem run_remaps (env : Env) (H : QHash) (fuel : ℕ) {p : Profile} (haccepted : p.Accepted H)
    (hbasic : p.Basic) (hexist : p.LayersExist) (layerChangedCallback : Bool)
    (steps : List ThreadStep) (hcalls : calls steps = [])
    (hinterrupt : .requestInterruption ∉ steps) (hclose : .close ∉ steps) : ∃ m₀ s handled,
      Mapper.new H p layerChangedCallback = .ok m₀ ∧
      MapperThread.run env H (fuel + 1) { mapper := m₀ } steps = .ok s ∧
      sends steps = handled ++ s.pending ∧
      s.mapper.processedEventsCount = handled.length ∧
      s.mapper.sent.flatten = (handled.foldl (interpret H p) (p.defaultLayer, [])).2 ∧
      ((∀ layer ∈ p.layers, layer.basicRemappings = []) →
        s.mapper.sent.flatten = handled.flatMap passedOn) ∧
      ∀ before after s₁, steps = before ++ after →
        MapperThread.run env H (fuel + 1) { mapper := m₀ } before = .ok s₁ →
        3 * s₁.pending.length < after.count .advance → s.pending <:+ sends after := by
  obtain ⟨m₀, hnew, hm₀, hqueue⟩ :=
    Mapper.followsTo_of_new env hbasic hexist haccepted layerChangedCallback
  have hstart : ({ mapper := m₀ } : MapperThread).Remaps env H p [] [] := ⟨rfl, hm₀, hqueue⟩
  obtain ⟨s, handled, hrun, hs⟩ := hstart.run fuel hbasic hexist hcalls
  have hsent : s.mapper.sent.flatten =
      (handled.foldl (interpret H p) (p.defaultLayer, [])).2 := by
    rw [← hs.mapper.out, hs.queue, List.map_nil, List.append_nil]
  refine ⟨m₀, s, handled, hnew, hrun, hs.sent_eq, ?_, hsent, fun hnone ↦ ?_, ?_⟩
  · obtain ⟨operations, hlife, -, hsends⟩ := lives_of_run hnew hrun
    have hhandled : operations.filterMap Operation.handled = handled :=
      List.append_cancel_right (hsends.trans hs.sent_eq)
    rw [Mapper.processed_of_life hlife, hhandled]
  · rw [hsent, interpret_of_noRemapping hnone, List.nil_append]
  · rintro before after s₁ rfl hbefore hcount
    have hstop : .call .stop ∉ before ++ after := by
      intro hmem
      have hcall : MapperCall.stop ∈ calls (before ++ after) :=
        List.mem_filterMap.mpr ⟨_, hmem, rfl⟩
      rw [hcalls] at hcall
      cases hcall
    simp only [List.mem_append, not_or] at hstop hinterrupt hclose
    have hrunning := ((running_of_new hnew).run hbefore hstop.1 hinterrupt.1 hclose.1).1
    rw [MapperThread.run, List.foldlM_append, ← MapperThread.run, hbefore, Exits.ok_bind] at hrun
    exact (hrunning.run hrun hstop.2 hinterrupt.2 hclose.2).2.suffix hcount

/-- A swaps the layer, and B is passed on there; B is sent while A is
handled. -/
def swapSteps : List ThreadStep :=
  [.sendKey (.key ⟨.a, .press⟩), .advance, .advance, .sendKey (.key ⟨.b, .press⟩), .advance,
    .advance, .advance, .advance, .advance]

theorem run_remaps_swap : ∃ m₀ s handled,
    Mapper.new (.first _) Mapper.swapProfile false = .ok m₀ ∧
    MapperThread.run .still (.first _) 1 { mapper := m₀ } swapSteps = .ok s ∧
    handled = [.key ⟨.a, .press⟩, .key ⟨.b, .press⟩] ∧ s.pending = [] ∧
    s.mapper.processedEventsCount = handled.length ∧ s.mapper.curLayerIdx = 1 ∧
    s.mapper.sent.flatten = (handled.foldl (interpret (.first _) Mapper.swapProfile) (0, [])).2 ∧
    s.mapper.sent.flatten = [.key ⟨.b, .press⟩] := by
  have hbasic : Mapper.swapProfile.Basic := by
    refine ⟨by decide, ?_⟩
    simp [Mapper.swapProfile, Mapper.emptyLayer, Layer.binds]
  have hexist : Mapper.swapProfile.LayersExist := by
    refine ⟨by decide, ?_⟩
    simp [Mapper.swapProfile, Mapper.emptyLayer, Layer.binds, Bind.InRange]
  obtain ⟨m₀, s, handled, hnew, hrun, hsends, hcount, hsent, -, -⟩ :=
    run_remaps .still (.first _) 0 ⟨_, rfl⟩ hbasic hexist false swapSteps rfl (by decide)
      (by decide)
  obtain rfl : swapThread.mapper = m₀ := Except.ok.inj hnew
  obtain ⟨s', hrun', hpending, hlayer⟩ : ∃ s',
      MapperThread.run .still (.first _) 1 swapThread swapSteps = .ok s' ∧ s'.pending = [] ∧
        s'.mapper.curLayerIdx = 1 :=
    ⟨_, rfl, rfl, rfl⟩
  obtain rfl : s' = s := Except.ok.inj (hrun'.symm.trans hrun)
  obtain rfl : sends swapSteps = handled := by rw [hsends, hpending, List.append_nil]
  exact ⟨_, _, _, hnew, hrun, rfl, hpending, hcount, hlayer, hsent, hsent⟩

end MapperThread

end Keybinder

import Mathlib.Data.Finset.Card
import Keybinder.KeyMaps
import Keybinder.Daemons
import Keybinder.Library.LastWrites
import Keybinder.MapperThread

/-!
# The system on macOS

The daemon gives the mapper the keys of the keyboards it has seized.  A key
that the mapper sends is not injected as such: the daemon posts a report of
all keys that are held, which the library of the driver keeps.
-/

namespace Keybinder

open LastWrites

/-- The code of the key that an effect is about. -/
def DaemonEffect.code? : DaemonEffect → Option ℕ
  | .key code _ => some code
  | _ => none

namespace Mac

/-- The keys of a report, with room for some codes; zero is no code. -/
structure ReportKeys where
  Keys : Type
  room : ℕ
  codes : Keys → Finset ℕ
  none : Keys
  insert : Keys → ℕ → Keys
  erase : Keys → ℕ → Keys
  codes_none : codes none = ∅
  codes_insert : ∀ {keys : Keys} {code : ℕ}, code ≠ 0 →
    (Insert.insert code (codes keys)).card ≤ room →
    codes (insert keys code) = Insert.insert code (codes keys)
  codes_erase : ∀ {keys : Keys} {code : ℕ}, codes (erase keys code) = (codes keys).erase code

inductive Post (K : ReportKeys) where
  | report (keys : K.Keys)
  | script (s : RunScript)

/-- One pass of the loop of `send_outputs`, with the report and what was
posted. -/
def visitOutput (K : ReportKeys) (keyMap : KeyMap) : K.Keys × List (Post K) → OutputEvent →
    Except Exit (K.Keys × List (Post K))
  | (report, posts), .key key => do
      let rawKeycode ← keyMap.code key.keycode
      let report := match key.type with
        | .press => K.insert report rawKeycode
        | .release => K.erase report rawKeycode
      return (report, posts ++ [.report report])
  | (report, posts), .script script => return (report, posts ++ [.script script])

def sendOutputs (K : ReportKeys) (keyMap : KeyMap) (d : K.Keys × List (Post K))
    (events : List OutputEvent) : Except Exit (K.Keys × List (Post K)) :=
  events.foldlM (visitOutput K keyMap) d

/-- The arguments of `handle_input_event`, which does not look at the page. -/
structure HidValue where
  value : ℕ
  page : ℕ
  code : ℕ
  deriving DecidableEq

def handleInputEvent (keyMap : KeyMap) (channel : Channel) (v : HidValue) : Channel :=
  if v.code > 1000 ∨ v.code < 2 then channel
  else
    match keyMap.findForward v.code with
    | none => channel
    -- `send_key` returns true, so that the event is not sent on from here.
    | some keycode => channel.sendKey (.key ⟨keycode, if v.value ≠ 0 then .press else .release⟩)

structure System (K : ReportKeys) where
  thread : MapperThread
  report : K.Keys := K.none
  posts : List (Post K) := []

inductive SystemStep where
  | inputEvent (v : HidValue)
  | thread (x : ThreadStep) (h : x.key? = none)

namespace System

variable {K : ReportKeys}

def step (keyMap : KeyMap) (env : Env) (H : QHash) (fuel : ℕ) (s : System K) :
    SystemStep → Except Exit (System K)
  | .inputEvent v =>
      return { s with
        thread := { s.thread with channel := handleInputEvent keyMap s.thread.channel v } }
  | .thread x _ => do
      let thread ← s.thread.step env H fuel x
      let sent := thread.mapper.sent.drop s.thread.mapper.sent.length
      let (report, posts) ← sent.foldlM (sendOutputs K keyMap) (s.report, s.posts)
      return { thread, report, posts }

def run (keyMap : KeyMap) (env : Env) (H : QHash) (fuel : ℕ) (s : System K)
    (steps : List SystemStep) : Except Exit (System K) :=
  steps.foldlM (step keyMap env H fuel) s

end System

/-! ## The keys that are held -/

def hold (held : Finset ℕ) : DaemonEffect → Finset ℕ
  | .key code .press => insert code held
  | .key code .release => held.erase code
  | _ => held

/-- The codes that some effects leave held. -/
def heldCodes (effects : List DaemonEffect) : Finset ℕ := effects.foldl hold ∅

theorem heldCodes_concat (effects : List DaemonEffect) (effect : DaemonEffect) :
    heldCodes (effects ++ [effect]) = hold (heldCodes effects) effect := by
  rw [heldCodes, List.foldl_append]
  rfl

/-- A code is held when its last event is a press. -/
theorem mem_heldCodes {effects : List DaemonEffect} {code : ℕ} :
    code ∈ heldCodes effects ↔ LastBy DaemonEffect.code? effects (.key code .press) := by
  induction effects using List.reverseRecOn with
  | nil => simp [heldCodes]
  | append_singleton effects effect ih =>
      rw [heldCodes_concat, lastBy_concat]
      cases effect with
      | key code' type =>
          cases type with
          | press =>
              rw [hold, Finset.mem_insert, ih]
              by_cases hcode : code = code'
              · simp [hcode]
              · simp [DaemonEffect.code?, hcode, Ne.symm hcode]
          | release =>
              rw [hold, Finset.mem_erase, ih]
              simp [DaemonEffect.code?, and_comm, eq_comm]
      | mouse => simp [hold, ih, DaemonEffect.code?]
      | script s => simp [hold, ih, DaemonEffect.code?]

/-- A report for a key event, and a script as it is. -/
inductive Answers {K : ReportKeys} : DaemonEffect → Post K → Prop
  | key (code : ℕ) (type : KeyEventType) (keys : K.Keys) : Answers (.key code type) (.report keys)
  | script (s : RunScript) : Answers (.script s) (.script s)

/-- What is posted for some effects: a script as it is, and for a key a report
of the keys whose last event up to there is a press. -/
inductive Posts (K : ReportKeys) : List DaemonEffect → List (Post K) → Prop
  | nil : Posts K [] []
  | script {effects : List DaemonEffect} {posts : List (Post K)} (h : Posts K effects posts)
      (s : RunScript) : Posts K (effects ++ [.script s]) (posts ++ [.script s])
  | key {effects : List DaemonEffect} {posts : List (Post K)} (h : Posts K effects posts)
      {code : ℕ} {type : KeyEventType} {keys : K.Keys}
      (hkeys : ∀ c, c ∈ K.codes keys ↔
        LastBy DaemonEffect.code? (effects ++ [.key code type]) (.key c .press)) :
      Posts K (effects ++ [.key code type]) (posts ++ [.report keys])

/-- At no time more keys are held than a report has room for. -/
def ReportKeys.Fits (K : ReportKeys) (effects : List DaemonEffect) : Prop :=
  ∀ before, before <+: effects → (heldCodes before).card ≤ K.room

theorem ReportKeys.Fits.of_prefix {K : ReportKeys} {effects more : List DaemonEffect}
    (h : K.Fits (effects ++ more)) : K.Fits effects :=
  fun before hbefore ↦ h before (hbefore.trans (List.prefix_append effects more))

/-- Some effects were answered by the posts; as long as they fit, the reports
are theirs. -/
structure Posted (K : ReportKeys) (effects : List DaemonEffect) (d : K.Keys × List (Post K)) :
    Prop where
  answers : List.Forall₂ Answers effects d.2
  fits : K.Fits effects → K.codes d.1 = heldCodes effects ∧ Posts K effects d.2

namespace Posted

variable {K : ReportKeys} {keyMap : KeyMap} {effects : List DaemonEffect}
  {d d' : K.Keys × List (Post K)} {output : OutputEvent}

theorem start : Posted K [] (K.none, []) := ⟨.nil, fun _ ↦ ⟨K.codes_none, .nil⟩⟩

theorem script (h : Posted K effects d) (s : RunScript) :
    Posted K (effects ++ [.script s]) (d.1, d.2 ++ [.script s]) := by
  refine ⟨List.rel_append h.answers (.cons (.script s) .nil), fun hfits ↦ ?_⟩
  obtain ⟨hcodes, hposts⟩ := h.fits hfits.of_prefix
  refine ⟨?_, .script hposts s⟩
  rw [heldCodes_concat, hcodes]
  rfl

/-- A key is posted with the report that it leaves. -/
theorem key (h : Posted K effects d) {code : ℕ} (hcode : code ≠ 0) {type : KeyEventType}
    {keys : K.Keys}
    (hkeys : keys = match type with
      | .press => K.insert d.1 code
      | .release => K.erase d.1 code) :
    Posted K (effects ++ [.key code type]) (keys, d.2 ++ [.report keys]) := by
  refine ⟨List.rel_append h.answers (.cons (.key code type keys) .nil), fun hfits ↦ ?_⟩
  obtain ⟨hcodes, hposts⟩ := h.fits hfits.of_prefix
  have hheld : K.codes keys = heldCodes (effects ++ [.key code type]) := by
    rw [heldCodes_concat, ← hcodes, hkeys]
    cases type with
    | press =>
        refine K.codes_insert hcode ?_
        have hroom := hfits _ List.prefix_rfl
        rwa [heldCodes_concat, ← hcodes] at hroom
    | release => exact K.codes_erase
  exact ⟨hheld, .key hposts fun c ↦ by rw [hheld, mem_heldCodes]⟩

theorem visit (hcodes : ∀ keyCode, keyMap.findBackward keyCode ≠ some 0) (h : Posted K effects d)
    (hvisit : visitOutput K keyMap d output = .ok d') :
    ∃ effect, Performs keyMap output effect ∧ Posted K (effects ++ [effect]) d' := by
  cases output with
  | script s =>
      cases hvisit
      exact ⟨_, .script s, h.script s⟩
  | key e =>
      obtain ⟨code, hcode, hvisit⟩ := Exits.bind_eq_ok.mp hvisit
      have hfind := KeyMap.findBackward_of_code hcode
      cases hvisit
      refine ⟨_, .key hfind, h.key ?_ rfl⟩
      rintro rfl
      exact hcodes e.keycode hfind

theorem sendOutputs (hcodes : ∀ keyCode, keyMap.findBackward keyCode ≠ some 0)
    {lists : List (List OutputEvent)} (h : Posted K effects d)
    (hsend : lists.foldlM (sendOutputs K keyMap) d = .ok d') :
    ∃ added, List.Forall₂ (Performs keyMap) lists.flatten added ∧
      Posted K (effects ++ added) d' := by
  induction lists generalizing effects d with
  | nil =>
      cases hsend
      exact ⟨[], .nil, (List.append_nil effects).symm ▸ h⟩
  | cons outputs lists ih =>
      obtain ⟨d₁, hfirst, hrest⟩ := Exits.foldlM_cons_eq_ok.mp hsend
      obtain ⟨added₁, hadded₁, h₁⟩ := Exits.exists_forall₂_of_foldlM (visit hcodes) hfirst h
      obtain ⟨added, hadded, h'⟩ := ih h₁ hrest
      exact ⟨added₁ ++ added, List.rel_append hadded₁ hadded, by rwa [← List.append_assoc]⟩

end Posted

/-! ## Runs of the system -/

/-- The event that the mapper is given for a value. -/
def HidValue.keyEvent? (keyMap : KeyMap) (v : HidValue) : Option KeyEvent :=
  if 2 ≤ v.code ∧ v.code ≤ 1000 then
    (keyMap.findForward v.code).map fun keycode ↦
      ⟨keycode, if v.value = 0 then .release else .press⟩
  else none

theorem handleInputEvent_eq (keyMap : KeyMap) (channel : Channel) (v : HidValue) :
    handleInputEvent keyMap channel v = { channel with
      queue := channel.queue ++ ((v.keyEvent? keyMap).map InputEvent.key).toList } := by
  unfold handleInputEvent HidValue.keyEvent?
  by_cases hcode : v.code > 1000 ∨ v.code < 2
  · have hrange : ¬ (2 ≤ v.code ∧ v.code ≤ 1000) := by omega
    rw [if_pos hcode, if_neg hrange]
    simp
  · have hrange : 2 ≤ v.code ∧ v.code ≤ 1000 := by omega
    rw [if_neg hcode, if_pos hrange]
    cases keyMap.findForward v.code with
    | none => simp
    | some keycode =>
        by_cases hvalue : v.value = 0 <;> simp [hvalue, Channel.sendKey, KeyQueue.sendKey]

namespace SystemStep

def received? (keyMap : KeyMap) : SystemStep → Option InputEvent
  | inputEvent v => (v.keyEvent? keyMap).map .key
  | _ => none

def call? : SystemStep → Option MapperCall
  | thread x _ => x.call?
  | _ => none

end SystemStep

namespace System

variable {K : ReportKeys} {keyMap : KeyMap} {env : Env} {H : QHash} {fuel : ℕ} {s s' : System K}
  {x : SystemStep} {steps : List SystemStep} {m₀ : Mapper}

/-- After some steps the thread of the mapper has run on what they gave it, and
what it has sent was posted. -/
structure Accounts (keyMap : KeyMap) (env : Env) (H : QHash) (fuel : ℕ) (m₀ : Mapper)
    (steps : List SystemStep) (s : System K) : Prop where
  thread : MapperThread.Ran env H fuel m₀ (steps.filterMap SystemStep.call?)
    (steps.filterMap (SystemStep.received? keyMap)) s.thread
  posted : ∃ effects, List.Forall₂ (Performs keyMap) s.thread.mapper.sent.flatten effects ∧
    Posted K effects (s.report, s.posts)

namespace Accounts

theorem start (hsent : m₀.sent = []) :
    Accounts keyMap env H fuel m₀ [] ({ thread := { mapper := m₀ } } : System K) := by
  refine ⟨.start, [], ?_, Posted.start⟩
  rw [hsent]
  exact .nil

theorem step (hcodes : ∀ keyCode, keyMap.findBackward keyCode ≠ some 0)
    (h : Accounts keyMap env H fuel m₀ steps s) (hstep : s.step keyMap env H fuel x = .ok s') :
    Accounts keyMap env H fuel m₀ (steps ++ [x]) s' := by
  obtain ⟨hran, effects, hperforms, hposted⟩ := h
  cases x with
  | inputEvent v =>
      cases hstep
      refine ⟨?_, effects, hperforms, hposted⟩
      rw [LastWrites.filterMap_concat, LastWrites.filterMap_concat, handleInputEvent_eq]
      exact (List.append_nil _).symm ▸ hran.receive _
  | thread x hx =>
      obtain ⟨thread, hthread, hstep⟩ := Exits.bind_eq_ok.mp hstep
      obtain ⟨⟨report, posts⟩, hsend, hstep⟩ := Exits.bind_eq_ok.mp hstep
      cases hstep
      obtain ⟨added, hadded, hposted'⟩ := hposted.sendOutputs hcodes hsend
      refine ⟨?_, effects ++ added, ?_, hposted'⟩
      · rw [LastWrites.filterMap_concat, LastWrites.filterMap_concat]
        exact (List.append_nil _).symm ▸ hran.step hx hthread
      · rw [← MapperThread.sent_append_drop hthread, List.flatten_append]
        exact List.rel_append hperforms hadded

theorem of_run (hcodes : ∀ keyCode, keyMap.findBackward keyCode ≠ some 0) (hsent : m₀.sent = [])
    (h : run keyMap env H fuel ({ thread := { mapper := m₀ } } : System K) steps = .ok s) :
    Accounts keyMap env H fuel m₀ steps s :=
  Exits.foldlM_induction (start hsent) (fun _ _ _ _ hs hstep ↦ hs.step hcodes hstep) h

end Accounts

/-- However the values of the keyboards and the thread of the mapper are
interleaved, the mapper lives one life, in which it handles the keys in their
order.  For every key it sends one report is posted and every script is
started, in their order; as long as no more keys are held than a report has
room for, each report shows those whose last event is a press. -/
theorem run_posts (K : ReportKeys) (keyMap : KeyMap) (env : Env) (H : QHash) (fuel : ℕ)
    (profile : Profile) (layerChangedCallback : Bool) (steps : List SystemStep) {m₀ : Mapper}
    {s : System K} (hcodes : ∀ keyCode, keyMap.findBackward keyCode ≠ some 0)
    (hnew : Mapper.new H profile layerChangedCallback = .ok m₀)
    (h : run keyMap env H fuel { thread := { mapper := m₀ } } steps = .ok s) :
    ∃ operations effects,
      Mapper.life env H fuel profile layerChangedCallback operations = .ok s.thread.mapper ∧
      operations.filterMap MapperThread.called =
        (steps.filterMap SystemStep.call?).map MapperCall.operation ∧
      operations.filterMap Operation.handled ++ s.thread.pending =
        steps.filterMap (SystemStep.received? keyMap) ∧
      List.Forall₂ (Performs keyMap) s.thread.mapper.sent.flatten effects ∧
      List.Forall₂ Answers effects s.posts ∧
      (K.Fits effects → K.codes s.report = heldCodes effects ∧ Posts K effects s.posts) := by
  obtain ⟨hran, effects, hperforms, hposted⟩ :=
    Accounts.of_run hcodes (Mapper.fresh_of_new hnew).sent h
  obtain ⟨operations, hlife, hcalled, hhandled⟩ := hran.lives hnew
  exact ⟨operations, effects, hlife, hcalled, hhandled, hperforms, hposted.answers,
    hposted.fits⟩

def boundedKeys (room : ℕ) : ReportKeys where
  Keys := Finset ℕ
  room
  codes := id
  none := ∅
  insert keys code :=
    if code ≠ 0 ∧ (insert code keys).card ≤ room then insert code keys else keys
  erase keys code := keys.erase code
  codes_none := rfl
  codes_insert hcode hroom := if_pos ⟨hcode, hroom⟩
  codes_erase := rfl

/-- The mapper is paused while A and B are pressed and A is released. -/
def chordSteps : List SystemStep :=
  let advance := .thread .advance ThreadStep.key?_advance
  [.thread (.call .pause) (ThreadStep.key?_call _), .inputEvent ⟨1, 7, 4⟩, .inputEvent ⟨1, 7, 5⟩,
    .inputEvent ⟨0, 7, 4⟩, .inputEvent ⟨1, 7, 1⟩, advance, advance, advance, advance, advance,
    advance, advance, advance, advance]

def mapAB : KeyMap := .ofList [(4, .a), (5, .b)]

theorem run_posts_chord : ∃ (m₀ : Mapper) (s : System (boundedKeys 32)),
    Mapper.new (.first _) Mapper.swapProfile false = .ok m₀ ∧
    run mapAB .still (.first _) 1 { thread := { mapper := m₀ } } chordSteps = .ok s ∧
    s.posts.length = 3 ∧
    Posts (boundedKeys 32) [.key 4 .press, .key 5 .press, .key 4 .release] s.posts := by
  have hcodes : ∀ keyCode, mapAB.findBackward keyCode ≠ some 0 := by
    intro keyCode hfind
    have hmem := (BiMap.findBackward_ofList.mp hfind).mem
    simp at hmem
  obtain ⟨s, hrun, hsent⟩ : ∃ s : System (boundedKeys 32),
      run mapAB .still (.first _) 1 { thread := MapperThread.swapThread } chordSteps = .ok s ∧
      s.thread.mapper.sent.flatten =
        [.key ⟨.a, .press⟩, .key ⟨.b, .press⟩, .key ⟨.a, .release⟩] := ⟨_, rfl, rfl⟩
  obtain ⟨operations, effects, -, -, -, hperforms, hanswers, hposts⟩ :=
    run_posts (boundedKeys 32) mapAB .still (.first _) 1 Mapper.swapProfile false chordSteps
      hcodes rfl hrun
  rw [hsent] at hperforms
  rcases hperforms with _ | ⟨⟨h₁⟩, _ | ⟨⟨h₂⟩, _ | ⟨⟨h₃⟩, ⟨⟩⟩⟩⟩
  cases h₁
  cases h₂
  cases h₃
  refine ⟨_, s, rfl, hrun, hanswers.length_eq.symm, (hposts fun before hbefore ↦ ?_).2⟩
  have hall : ∀ before ∈ List.inits [DaemonEffect.key 4 .press, .key 5 .press, .key 4 .release],
      (heldCodes before).card ≤ 32 := by decide
  exact hall before ((List.mem_inits _ _).mpr hbefore)

end System

end Mac

end Keybinder

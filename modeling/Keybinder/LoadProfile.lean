import Keybinder.MapperLife
import Keybinder.ReadProfile

/-!
# Loading profiles

A `load_profile` message is parsed, which also writes the latest-profile
file, and is then given to the mapper.  The response does not depend on what
the mapper made of it, and the next start reads whatever was written.
-/

namespace Keybinder

/-- The object that `send_response` writes. -/
def sendResponse (status error : String) : JsonObject :=
  ("status", .string status) :: if status = "fail" then [("error", .string error)] else []

/-- The profile in a message; anything but an object counts as an empty one. -/
def profileObject (msg : JsonObject) : JsonObject :=
  ((msg.lookup "profile").bind Json.toObject?).getD []

/-- The branch of `read_data` for a `load_profile` message, with the mapper
and the response, and the latest-profile file.  Of the exceptions only
`std::invalid_argument` is caught. -/
def loadProfile (unassigned : UnassignedRead) (H : QHash) (wild : ℚ → ℕ) (m : Mapper)
    (latest : Option JsonObject) (msg : JsonObject) :
    Except Exit (Mapper × JsonObject) × Option JsonObject :=
  match Profile.fromJson wild (profileObject msg) latest with
  | (.ok p, latest) =>
      let loaded := do
        let (_, m) ← m.setProfileReading unassigned H p
        return (m, sendResponse "ok" "")
      (loaded, latest)
  | (.error what, latest) => (.ok (m, sendResponse "fail" what), latest)

/-- The mapper has the machines and the maps of a profile, and is at HOME of
its default layer. -/
structure Mapper.RunsProfile (unassigned : UnassignedRead) (H : QHash) (p : Profile)
    (m : Mapper) : Prop where
  profile_eq : m.profile = p
  compiled : ∃ compiled, p.layers.mapM (Mapper.compileLayerReading unassigned H) = .ok compiled ∧
    m.states = compiled.map Prod.snd ∧ m.basicMaps = compiled.map Prod.fst
  layer_eq : m.curLayerIdx = p.defaultLayer
  layer_lt : p.defaultLayer < p.layers.length
  home : m.curStateIdx = homeStateIdx
  timer : m.currentTimer = none

/-- The message is answered, with ok exactly when the mapper runs its
profile, and else with fail and the mapper as it was. -/
def LoadsTruthfully (unassigned : UnassignedRead) (H : QHash) (wild : ℚ → ℕ) (m : Mapper)
    (latest : Option JsonObject) (msg : JsonObject) : Prop :=
  ∃ m' response, (loadProfile unassigned H wild m latest msg).1 = .ok (m', response) ∧
    (response.lookup "status" = some (.string "ok") ↔
      ∃ p, Profile.parse wild (profileObject msg) = .ok p ∧ m'.RunsProfile unassigned H p) ∧
    (response.lookup "status" ≠ some (.string "ok") →
      response.lookup "status" = some (.string "fail") ∧ m' = m)

/-- The layers of the profile compile, for which a `next_state_idx` that is
read although it was never assigned has to be the index of a state, and the
default layer exists. -/
structure Profile.Startable (unassigned : UnassignedRead) (H : QHash) (p : Profile) : Prop where
  accepted : ∃ compiled, p.layers.mapM (Mapper.compileLayerReading unassigned H) = .ok compiled
  default_lt : p.defaultLayer < p.layers.length

/-- A message with a profile that parses but cannot be started is not
clean. -/
def LoadsCleanly (unassigned : UnassignedRead) (H : QHash) (wild : ℚ → ℕ) (msg : JsonObject) :
    Prop :=
  ∀ p, Profile.parse wild (profileObject msg) = .ok p → p.Startable unassigned H

/-! ## Messages and the mapper -/

section

variable {unassigned : UnassignedRead} {H : QHash} {wild : ℚ → ℕ} {m m' : Mapper}
  {latest : Option JsonObject} {msg obj : JsonObject} {p : Profile} {what : String}

theorem Profile.fromJson_of_ok (h : Profile.parse wild obj = .ok p) :
    Profile.fromJson wild obj latest = (.ok p, some obj) := by
  rw [Profile.fromJson, h]

theorem Profile.fromJson_of_error (h : Profile.parse wild obj = .error what) :
    Profile.fromJson wild obj latest = (.error what, latest) := by
  rw [Profile.fromJson, h]

theorem Mapper.setProfile_of_startable (h : p.Startable unassigned H) (m : Mapper) :
    ∃ m', m.setProfileReading unassigned H p = .ok (true, m') ∧
      m'.RunsProfile unassigned H p := by
  obtain ⟨compiled, hcompiled⟩ := h.accepted
  obtain ⟨m', hset⟩ : ∃ m', Mapper.setLayerInner { m with
      profile := p
      states := compiled.map Prod.snd
      basicMaps := compiled.map Prod.fst } p.defaultLayer = .ok m' :=
    Mapper.setLayerInner_of_lt h.default_lt
  refine ⟨m', ?_, ?_⟩
  · simp [Mapper.setProfileReading, hcompiled, hset]
  · obtain ⟨announced, rfl⟩ := Mapper.setLayerInner_spec hset
    exact ⟨rfl, ⟨compiled, hcompiled, rfl, rfl⟩, rfl, h.default_lt, rfl, rfl⟩

theorem Mapper.RunsProfile.startable (h : m.RunsProfile unassigned H p) :
    p.Startable unassigned H := by
  obtain ⟨compiled, hcompiled, -⟩ := h.compiled
  exact ⟨⟨compiled, hcompiled⟩, h.layer_lt⟩

theorem loadProfile_of_ok (h : Profile.parse wild (profileObject msg) = .ok p) :
    (loadProfile unassigned H wild m latest msg).1 = do
      let (_, m) ← m.setProfileReading unassigned H p
      return (m, sendResponse "ok" "") := by
  rw [loadProfile, Profile.fromJson_of_ok h]

theorem loadProfile_of_error (h : Profile.parse wild (profileObject msg) = .error what) :
    (loadProfile unassigned H wild m latest msg).1 = .ok (m, sendResponse "fail" what) := by
  rw [loadProfile, Profile.fromJson_of_error h]

theorem loadsCleanly_of_truthful (h : LoadsTruthfully unassigned H wild m latest msg) :
    LoadsCleanly unassigned H wild msg := by
  intro p hp
  obtain ⟨m', response, hload, hok, -⟩ := h
  rw [loadProfile_of_ok hp] at hload
  obtain ⟨⟨accepted, m₁⟩, hset, hload⟩ := Exits.bind_eq_ok.mp hload
  cases hload
  obtain ⟨p', hp', hruns⟩ := hok.mp rfl
  obtain rfl : p = p' := Except.ok.inj (hp.symm.trans hp')
  exact hruns.startable

/-- A message is answered truthfully, whatever the mapper was doing, exactly
when it is clean. -/
theorem loadsTruthfully_iff (unassigned : UnassignedRead) (H : QHash) (wild : ℚ → ℕ) (m : Mapper)
    (latest : Option JsonObject) (msg : JsonObject) :
    LoadsTruthfully unassigned H wild m latest msg ↔ LoadsCleanly unassigned H wild msg := by
  refine ⟨loadsCleanly_of_truthful, fun hclean ↦ ?_⟩
  cases hparse : Profile.parse wild (profileObject msg) with
  | error what =>
      refine ⟨m, _, loadProfile_of_error hparse, ?_, fun _ ↦ ⟨rfl, rfl⟩⟩
      simp [sendResponse, hparse]
  | ok p =>
      obtain ⟨m', hset, hruns⟩ := Mapper.setProfile_of_startable (hclean p hparse) m
      refine ⟨m', sendResponse "ok" "", ?_, ?_, fun hne ↦ (hne rfl).elim⟩
      · rw [loadProfile_of_ok hparse, hset]
        rfl
      · exact ⟨fun _ ↦ ⟨p, hparse, hruns⟩, fun _ ↦ rfl⟩

end

/-- A key remapped twice. -/
def twiceMessage : JsonObject :=
  let remapping : Json := .object
    [("trigger", .object [("type", .string "key_press"), ("value", .string "A")]),
      ("binds", .array [])]
  [("type", .string "load_profile"), ("profile", .object
    [("profile_name", .string "twice"), ("default_layer", .number 0), ("layers", .array
      [.object [("layer_name", .string "layer"), ("remappings", .array [remapping, remapping])]])])]

theorem twiceMessage_not_cleanly (wild : ℚ → ℕ) :
    ¬ LoadsCleanly .home (.first _) wild twiceMessage := by
  intro h
  obtain ⟨compiled, hcompiled⟩ := (h _ rfl).accepted
  cases hcompiled

/-- The mapper rejects it, and the response is ok. -/
theorem twiceMessage_not_truthful : ¬ ∀ m latest,
    LoadsTruthfully .home (.first _) (fun _ ↦ 0) m latest twiceMessage := by
  intro h
  exact twiceMessage_not_cleanly _
    (loadsCleanly_of_truthful (h { profile := .defaultProfile, layerChangedCallback := true } none))

/-! ## The latest profile -/

/-- Nothing when there is no file; a file that does not parse throws. -/
def Profile.loadLatest (wild : ℚ → ℕ) :
    Option JsonObject → Except String (Option Profile) × Option JsonObject
  | none => (.ok none, none)
  | some obj =>
      let (result, latest) := Profile.fromJson wild obj (some obj)
      (some <$> result, latest)

/-- The profile that `main` starts with, and the file after it was read. -/
def startProfile (wild : ℚ → ℕ) (latest : Option JsonObject) : Profile × Option JsonObject :=
  match Profile.loadLatest wild latest with
  | (.ok (some p), latest) => (p, latest)
  | (.ok none, latest) => (.defaultProfile, latest)
  | (.error _, latest) => (.defaultProfile, latest)

/-- The constructor that `main` calls: `set_profile` succeeds, and the
current layer exists. -/
def Restarts (unassigned : UnassignedRead) (H : QHash) (wild : ℚ → ℕ)
    (latest : Option JsonObject) : Prop :=
  let p := (startProfile wild latest).1
  ∃ m, Mapper.setProfileReading unassigned H { profile := p, layerChangedCallback := true } p =
      .ok (true, m) ∧ m.curLayerIdx < m.profile.layers.length

inductive LatestStep where
  | load (msg : JsonObject)
  | restart

/-- What a step leaves in the latest-profile file. -/
def LatestStep.save (wild : ℚ → ℕ) (latest : Option JsonObject) : LatestStep → Option JsonObject
  | load msg => (Profile.fromJson wild (profileObject msg) latest).2
  | restart => (startProfile wild latest).2

section

variable {unassigned : UnassignedRead} {H : QHash} {wild : ℚ → ℕ} {latest : Option JsonObject}
  {msg obj : JsonObject} {p : Profile} {what : String}

theorem startProfile_of_ok (h : Profile.parse wild obj = .ok p) :
    startProfile wild (some obj) = (p, some obj) := by
  simp only [startProfile, Profile.loadLatest, Profile.fromJson_of_ok h]
  rfl

theorem startProfile_snd (wild : ℚ → ℕ) (latest : Option JsonObject) :
    (startProfile wild latest).2 = latest := by
  cases latest with
  | none => rfl
  | some obj =>
      cases hparse : Profile.parse wild obj with
      | ok p => rw [startProfile_of_ok hparse]
      | error what =>
          simp only [startProfile, Profile.loadLatest, Profile.fromJson_of_error hparse]
          rfl

theorem restarts_iff : Restarts unassigned H wild latest ↔
    (startProfile wild latest).1.Startable unassigned H := by
  constructor
  · rintro ⟨m, hset, hlt⟩
    obtain ⟨compiled, hcompiled, hset⟩ := Mapper.setProfileReading_true hset
    obtain ⟨announced, rfl⟩ := Mapper.setLayerInner_spec hset
    exact ⟨⟨compiled, hcompiled⟩, hlt⟩
  · intro h
    obtain ⟨m, hset, hruns⟩ := Mapper.setProfile_of_startable h
      { profile := (startProfile wild latest).1, layerChangedCallback := true }
    refine ⟨m, hset, ?_⟩
    rw [hruns.layer_eq, hruns.profile_eq]
    exact hruns.layer_lt

/-- A clean message is saved, or it leaves the file as it is. -/
theorem restarts_save (h : Restarts unassigned H wild latest) {x : LatestStep}
    (hclean : ∀ msg, x = .load msg → LoadsCleanly unassigned H wild msg) :
    Restarts unassigned H wild (x.save wild latest) := by
  cases x with
  | restart =>
      rw [LatestStep.save, startProfile_snd]
      exact h
  | load msg =>
      cases hparse : Profile.parse wild (profileObject msg) with
      | error what =>
          rw [LatestStep.save, Profile.fromJson_of_error hparse]
          exact h
      | ok p =>
          rw [LatestStep.save, Profile.fromJson_of_ok hparse, restarts_iff,
            startProfile_of_ok hparse]
          exact hclean msg rfl p hparse

theorem restarts_foldl (h : Restarts unassigned H wild latest) {steps : List LatestStep}
    (hclean : ∀ msg, .load msg ∈ steps → LoadsCleanly unassigned H wild msg) :
    Restarts unassigned H wild (steps.foldl (LatestStep.save wild) latest) := by
  induction steps generalizing latest with
  | nil => exact h
  | cons x steps ih =>
      apply ih (restarts_save h ?_)
      · exact fun msg hmsg ↦ hclean msg (List.mem_cons_of_mem _ hmsg)
      · rintro msg rfl
        exact hclean msg List.mem_cons_self

theorem loadsCleanly_of_restarts
    (h : Restarts unassigned H wild ((LatestStep.load msg).save wild latest)) :
    LoadsCleanly unassigned H wild msg := by
  intro p hparse
  rw [LatestStep.save, Profile.fromJson_of_ok hparse, restarts_iff, startProfile_of_ok hparse] at h
  exact h

end

/-- The rejected profile was saved. -/
theorem twiceMessage_not_restarts : ¬ ∀ steps : List LatestStep,
    Restarts .home (.first _) (fun _ ↦ 0) (steps.foldl (LatestStep.save fun _ ↦ 0) none) := by
  intro h
  have hsaved : Restarts .home (.first _) (fun _ ↦ 0)
      ((LatestStep.load twiceMessage).save (fun _ ↦ 0) none) :=
    h [.load twiceMessage]
  exact twiceMessage_not_cleanly _ (loadsCleanly_of_restarts hsaved)

theorem restarts_throughout_iff (unassigned : UnassignedRead) (H : QHash) (wild : ℚ → ℕ)
    (latest : Option JsonObject) (steps : List LatestStep) :
    (∀ before, before <+: steps →
      Restarts unassigned H wild (before.foldl (LatestStep.save wild) latest)) ↔
    (startProfile wild latest).1.Startable unassigned H ∧
      ∀ msg, .load msg ∈ steps → LoadsCleanly unassigned H wild msg := by
  constructor
  · intro h
    refine ⟨restarts_iff.mp (h [] List.nil_prefix), fun msg hmsg ↦ ?_⟩
    obtain ⟨before, after, rfl⟩ := List.append_of_mem hmsg
    have hsaved := h (before ++ [.load msg]) ⟨after, by simp⟩
    rw [List.foldl_append] at hsaved
    exact loadsCleanly_of_restarts hsaved
  · rintro ⟨hstart, hclean⟩ before hbefore
    apply restarts_foldl (restarts_iff.mpr hstart)
    exact fun msg hmsg ↦ hclean msg (hbefore.subset hmsg)

end Keybinder

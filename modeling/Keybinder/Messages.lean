import Keybinder.KeyLogging
import Keybinder.Library.LastWrites
import Keybinder.LoadProfile
import Keybinder.Server

/-!
# The messages of the clients

What `read_data` does with a line: the object in it names a type, which
decides what is called and what is answered.  Behind any number of clients
the mapper lives one life, the settings and the latest profile are what was
last sent, and an answer depends on its line alone, but for the frequencies.
-/

namespace Keybinder

/-- The mapper, the latest-profile file, and the settings with the counter. -/
structure Program where
  mapper : Mapper
  latest : Option JsonObject
  logging : KeyLogging

def Json.toBool? : Json → Option Bool
  | bool b => some b
  | _ => none

def KeyCounter.toJson (c : KeyCounter) : JsonObject :=
  c.counts.map fun (name, count) ↦ (name, .number count)

/-- `obj.value("type").toString()`. -/
def messageType (obj : JsonObject) : String :=
  ((obj.lookup "type").bind Json.toString?).getD ""

/-- `obj["settings"].toObject()`. -/
def settingsObject (obj : JsonObject) : JsonObject :=
  ((obj.lookup "settings").bind Json.toObject?).getD []

/-- The flag in some settings, if there is one and it is a flag. -/
def loggingFlag? (settings : JsonObject) : Option Bool :=
  (settings.lookup "log_key_frequency").bind Json.toBool?

/-- The three parts of `load_from_json`. -/
def KeyLogging.loadFromJson (s : KeyLogging) (obj : JsonObject) : Bool × KeyLogging :=
  let flag := loggingFlag? obj
  (flag.isSome, ((s.step (.writeFlag flag)).step .saveSettings).step .settingsChanged)

namespace Program

/-- `main` up to its event loop, without a profile argument. -/
def start (unassigned : UnassignedRead) (H : QHash) (wild : ℚ → ℕ) (latest : Option JsonObject)
    (settingsFile : Option Bool) (countFile : Option KeyCounts) : Except Exit Program := do
  let started := startProfile wild latest
  let mapper ← Mapper.newReading unassigned H started.1 true
  return { mapper, latest := started.2, logging := .start settingsFile countFile }

def handleMessage (unassigned : UnassignedRead) (H : QHash) (wild : ℚ → ℕ) (s : Program)
    (obj : JsonObject) : Except Exit (Program × JsonObject) :=
  let msgType := messageType obj
  if msgType = "load_profile" then do
    let (loaded, latest) := loadProfile unassigned H wild s.mapper s.latest obj
    let (mapper, response) ← loaded
    return ({ s with mapper, latest }, response)
  else if msgType = "set_settings" then
    let (successful, logging) := s.logging.loadFromJson (settingsObject obj)
    return ({ s with logging },
      if successful then sendResponse "ok" "" else sendResponse "fail" "invalid settings JSON")
  else if msgType = "get_frequencies" then
    return (s, sendResponse "success" "" ++ [("frequencies", .object s.logging.counter.toJson)])
  else if msgType = "pause" then
    return ({ s with mapper := s.mapper.pause }, sendResponse "success" "")
  else if msgType = "resume" then
    return ({ s with mapper := s.mapper.resume }, sendResponse "success" "")
  else return (s, sendResponse "fail" ("unknown message_type: " ++ msgType))

/-- `fromJson` is the JSON parser; it gives the object of a document that is
one. -/
def handleLine (unassigned : UnassignedRead) (H : QHash) (wild : ℚ → ℕ)
    (fromJson : List UInt8 → Option JsonObject) (line : List UInt8) (s : Program) :
    Except Exit (Program × JsonObject) :=
  match fromJson line with
  | none => return (s, sendResponse "fail" "invalid json")
  | some obj => s.handleMessage unassigned H wild obj

/-- What other threads and timers do: they operate the mapper, count a key in
two steps, and save the counts. -/
inductive Act where
  | operate (operation : Operation)
  | readFlag (key : KeyCode)
  | increment
  | saveCounts

def act (env : Env) (H : QHash) (fuel : ℕ) : Act → Program → Except Exit Program
  | .operate operation, s => do
      let mapper ← s.mapper.operate env H fuel operation
      return { s with mapper }
  | .readFlag key, s => return { s with logging := s.logging.step (.readFlag key) }
  | .increment, s => return { s with logging := s.logging.step .increment }
  | .saveCounts, s => return { s with logging := s.logging.step .saveCounts }

end Program

/-! ## What a line says -/

section

variable (wild : ℚ → ℕ) (obj : JsonObject)

/-- The profile that a message loads. -/
def messageProfile? : Option Profile :=
  if messageType obj = "load_profile" then (Profile.parse wild (profileObject obj)).toOption
  else none

/-- What a message does to the mapper. -/
def messageOperation? : Option Operation :=
  if messageType obj = "pause" then some .pause
  else if messageType obj = "resume" then some .resume
  else (messageProfile? wild obj).map .setProfile

/-- The flag that a message sets. -/
def messageFlag? : Option Bool :=
  if messageType obj = "set_settings" then loggingFlag? (settingsObject obj) else none

/-- The answer to a message, without the frequencies. -/
def messageAnswer : JsonObject :=
  if messageType obj = "load_profile" then
    match Profile.parse wild (profileObject obj) with
    | .ok _ => sendResponse "ok" ""
    | .error what => sendResponse "fail" what
  else if messageType obj = "set_settings" then
    if (messageFlag? obj).isSome then sendResponse "ok" ""
    else sendResponse "fail" "invalid settings JSON"
  else if messageType obj ∈ ["get_frequencies", "pause", "resume"] then sendResponse "success" ""
  else sendResponse "fail" ("unknown message_type: " ++ messageType obj)

end

def withoutFrequencies (response : JsonObject) : JsonObject :=
  response.filter (·.1 ≠ "frequencies")

def lineAnswer (wild : ℚ → ℕ) (fromJson : List UInt8 → Option JsonObject) (line : List UInt8) :
    JsonObject :=
  match fromJson line with
  | none => sendResponse "fail" "invalid json"
  | some obj => messageAnswer wild obj

theorem withoutFrequencies_sendResponse (status error : String) :
    withoutFrequencies (sendResponse status error) = sendResponse status error := by
  unfold withoutFrequencies sendResponse
  split <;> rfl

namespace Program

/-- What a message has done, with its answer. -/
structure Handled (H : QHash) (wild : ℚ → ℕ) (s : Program) (obj : JsonObject) (s' : Program)
    (response : JsonObject) : Prop where
  mapper : ∀ env fuel,
    (messageOperation? wild obj).toList.foldlM (Mapper.operate env H fuel) s.mapper = .ok s'.mapper
  profile : (startProfile wild s'.latest).1 =
    (messageProfile? wild obj).getD (startProfile wild s.latest).1
  idle : s.logging.phase = .idle → s'.logging.phase = .idle
  flag : s.logging.phase = .idle →
    s'.logging.logKeyFrequency = (messageFlag? obj).getD s.logging.logKeyFrequency
  stored : s.logging.phase = .idle →
    s.logging.settingsFile.getD false = s.logging.logKeyFrequency →
    s'.logging.settingsFile.getD false = s'.logging.logKeyFrequency
  answer : withoutFrequencies response = messageAnswer wild obj

section

variable {unassigned : UnassignedRead} {H : QHash} {wild : ℚ → ℕ} {s s' : Program}
  {obj response : JsonObject}

theorem handled_loadProfile (htype : messageType obj = "load_profile")
    (h : s.handleMessage unassigned H wild obj = .ok (s', response)) :
    Handled H wild s obj s' response := by
  have hprofile? : messageProfile? wild obj =
      (Profile.parse wild (profileObject obj)).toOption := by simp [messageProfile?, htype]
  have hflag? : messageFlag? obj = none := by simp [messageFlag?, htype]
  simp only [handleMessage, htype, if_true] at h
  obtain ⟨⟨mapper, answer⟩, hload, h⟩ := Exits.bind_eq_ok.mp h
  cases h
  cases hparse : Profile.parse wild (profileObject obj) with
  | error what =>
      rw [loadProfile_of_error hparse] at hload
      cases hload
      refine ⟨fun env fuel ↦ ?_, ?_, id, fun _ ↦ ?_, fun _ ↦ id, ?_⟩
      · simp [messageOperation?, htype, hprofile?, hparse, Except.toOption]
      · simp [loadProfile, Profile.fromJson_of_error hparse, hprofile?, hparse, Except.toOption]
      · simp [hflag?]
      · simp [messageAnswer, htype, hparse, withoutFrequencies_sendResponse]
  | ok p =>
      rw [loadProfile_of_ok hparse] at hload
      obtain ⟨⟨accepted, m⟩, hset, hload⟩ := Exits.bind_eq_ok.mp hload
      cases hload
      have hset := Mapper.setProfile_of_reading hset
      refine ⟨fun env fuel ↦ ?_, ?_, id, fun _ ↦ ?_, fun _ ↦ id, ?_⟩
      · simp [messageOperation?, htype, hprofile?, hparse, Except.toOption, Mapper.operate, hset]
      · simp [loadProfile, Profile.fromJson_of_ok hparse, startProfile_of_ok hparse, hprofile?,
          hparse, Except.toOption]
      · simp [hflag?]
      · simp [messageAnswer, htype, hparse, withoutFrequencies_sendResponse]

theorem handled_settings (htype : messageType obj = "set_settings")
    (h : s.handleMessage unassigned H wild obj = .ok (s', response)) :
    Handled H wild s obj s' response := by
  have hflag? : messageFlag? obj = loggingFlag? (settingsObject obj) := by
    simp [messageFlag?, htype]
  have hprofile? : messageProfile? wild obj = none := by simp [messageProfile?, htype]
  simp only [handleMessage, htype, if_true] at h
  cases h
  refine ⟨fun env fuel ↦ ?_, ?_, fun hidle ↦ ?_, fun hidle ↦ ?_, fun hidle _ ↦ ?_, ?_⟩
  · simp [messageOperation?, htype, hprofile?]
  · simp [hprofile?]
  · simp [KeyLogging.loadFromJson, KeyLogging.step, hidle]
  · simp [KeyLogging.loadFromJson, KeyLogging.step, hidle, hflag?]
  · simp [KeyLogging.loadFromJson, KeyLogging.step, hidle]
  · cases hsome : (loggingFlag? (settingsObject obj)).isSome <;>
      simp [messageAnswer, htype, hflag?, KeyLogging.loadFromJson, hsome,
        withoutFrequencies_sendResponse]

/-- A message of any other type touches nothing but the pause of the
mapper. -/
theorem handled_other (hload : messageType obj ≠ "load_profile")
    (hset : messageType obj ≠ "set_settings")
    (h : s.handleMessage unassigned H wild obj = .ok (s', response)) :
    Handled H wild s obj s' response := by
  have hflag? : messageFlag? obj = none := by simp [messageFlag?, hset]
  have hprofile? : messageProfile? wild obj = none := by simp [messageProfile?, hload]
  have hquiet : ∀ {m : Mapper}, s' = { s with mapper := m } →
      (∀ env fuel, (messageOperation? wild obj).toList.foldlM (Mapper.operate env H fuel) s.mapper =
        .ok m) →
      withoutFrequencies response = messageAnswer wild obj →
      Handled H wild s obj s' response := by
    rintro m rfl hmapper hanswer
    exact ⟨hmapper, by simp [hprofile?], id, fun _ ↦ by simp [hflag?], fun _ ↦ id, hanswer⟩
  simp only [handleMessage, hload, hset, if_false] at h
  by_cases hfrequencies : messageType obj = "get_frequencies"
  · rw [if_pos hfrequencies] at h
    cases h
    refine hquiet rfl (fun env fuel ↦ ?_) ?_
    · simp [messageOperation?, hfrequencies, hprofile?]
    · simp [messageAnswer, hfrequencies, withoutFrequencies, sendResponse]
  rw [if_neg hfrequencies] at h
  by_cases hpause : messageType obj = "pause"
  · rw [if_pos hpause] at h
    cases h
    refine hquiet rfl (fun env fuel ↦ ?_) ?_
    · simp [messageOperation?, hpause, Mapper.operate]
    · simp [messageAnswer, hpause, withoutFrequencies_sendResponse]
  rw [if_neg hpause] at h
  by_cases hresume : messageType obj = "resume"
  · rw [if_pos hresume] at h
    cases h
    refine hquiet rfl (fun env fuel ↦ ?_) ?_
    · simp [messageOperation?, hresume, Mapper.operate]
    · simp [messageAnswer, hresume, withoutFrequencies_sendResponse]
  · rw [if_neg hresume] at h
    cases h
    refine hquiet rfl (fun env fuel ↦ ?_) ?_
    · simp [messageOperation?, hpause, hresume, hprofile?]
    · simp [messageAnswer, hload, hset, hfrequencies, hpause, hresume,
        withoutFrequencies_sendResponse]

theorem handled (h : s.handleMessage unassigned H wild obj = .ok (s', response)) :
    Handled H wild s obj s' response := by
  by_cases hload : messageType obj = "load_profile"
  · exact handled_loadProfile hload h
  by_cases hset : messageType obj = "set_settings"
  · exact handled_settings hset h
  · exact handled_other hload hset h

end

/-! ## Runs of the program -/

/-- What the other threads leave as it is. -/
structure Framed (s s' : Program) : Prop where
  latest : s'.latest = s.latest
  phase : s'.logging.phase = s.logging.phase
  flag : s'.logging.logKeyFrequency = s.logging.logKeyFrequency
  file : s'.logging.settingsFile = s.logging.settingsFile

theorem framed_of_act {env : Env} {H : QHash} {fuel : ℕ} {s s' : Program} {a : Act}
    (h : act env H fuel a s = .ok s') : Framed s s' := by
  cases a with
  | operate operation =>
      obtain ⟨m, -, h⟩ := Exits.bind_eq_ok.mp h
      cases h
      exact ⟨rfl, rfl, rfl, rfl⟩
  | readFlag key =>
      cases h
      refine ⟨rfl, ?_, ?_, ?_⟩ <;> simp only [KeyLogging.step] <;> split <;> rfl
  | increment =>
      cases h
      refine ⟨rfl, ?_, ?_, ?_⟩ <;> simp only [KeyLogging.step] <;> split <;> rfl
  | saveCounts =>
      cases h
      refine ⟨rfl, ?_, ?_, ?_⟩ <;> simp only [KeyLogging.step] <;> split <;> rfl

section

variable {κ : Type} (wild : ℚ → ℕ) (fromJson : List UInt8 → Option JsonObject)

def operation? : Request κ Act → Option Operation
  | .line _ line => (fromJson line).bind (messageOperation? wild)
  | .act (.operate operation) => some operation
  | .act _ => none

def profile? : Request κ Act → Option Profile
  | .line _ line => (fromJson line).bind (messageProfile? wild)
  | .act _ => none

def flag? : Request κ Act → Option Bool
  | .line _ line => (fromJson line).bind messageFlag?
  | .act _ => none

def answer? : Request κ Act → Option (κ × JsonObject)
  | .line client line => some (client, lineAnswer wild fromJson line)
  | .act _ => none

theorem mapper_of_act {wild : ℚ → ℕ} {fromJson : List UInt8 → Option JsonObject} {env : Env}
    {H : QHash} {fuel : ℕ} {s s' : Program} {a : Act} (h : act env H fuel a s = .ok s') :
    (operation? wild fromJson (.act a : Request κ Act)).toList.foldlM (Mapper.operate env H fuel)
      s.mapper = .ok s'.mapper := by
  cases a with
  | operate operation =>
      obtain ⟨m, hm, h⟩ := Exits.bind_eq_ok.mp h
      cases h
      exact Exits.foldlM_cons_eq_ok.mpr ⟨m, hm, rfl⟩
  | readFlag key =>
      cases h
      rfl
  | increment =>
      cases h
      rfl
  | saveCounts =>
      cases h
      rfl

/-- What requests leave of a program, and what was sent. -/
structure Replays (env : Env) (H : QHash) (fuel : ℕ) (program₀ : Program)
    (requests : List (Request κ Act)) (s : Program × List (κ × JsonObject)) : Prop where
  mapper : (requests.filterMap (operation? wild fromJson)).foldlM (Mapper.operate env H fuel)
    program₀.mapper = .ok s.1.mapper
  profile : (startProfile wild s.1.latest).1 =
    (requests.filterMap (profile? wild fromJson)).getLast?.getD (startProfile wild program₀.latest).1
  idle : s.1.logging.phase = .idle
  flag : s.1.logging.logKeyFrequency =
    (requests.filterMap (flag? fromJson)).getLast?.getD program₀.logging.logKeyFrequency
  stored : s.1.logging.settingsFile.getD false = s.1.logging.logKeyFrequency
  answers : s.2.map (Prod.map id withoutFrequencies) = requests.filterMap (answer? wild fromJson)

end

namespace Replays

variable {κ : Type} {unassigned : UnassignedRead} {wild : ℚ → ℕ}
  {fromJson : List UInt8 → Option JsonObject} {env : Env} {H : QHash} {fuel : ℕ}
  {program₀ : Program} {requests : List (Request κ Act)} {s s' : Program × List (κ × JsonObject)}

theorem extend (h : Replays wild fromJson env H fuel program₀ requests s) {r : Request κ Act}
    (hmapper : (operation? wild fromJson r).toList.foldlM (Mapper.operate env H fuel) s.1.mapper =
      .ok s'.1.mapper)
    (hprofile : (startProfile wild s'.1.latest).1 =
      (profile? wild fromJson r).getD (startProfile wild s.1.latest).1)
    (hidle : s'.1.logging.phase = .idle)
    (hflag : s'.1.logging.logKeyFrequency =
      (flag? fromJson r).getD s.1.logging.logKeyFrequency)
    (hstored : s'.1.logging.settingsFile.getD false = s'.1.logging.logKeyFrequency)
    (hanswers : s'.2.map (Prod.map id withoutFrequencies) =
      s.2.map (Prod.map id withoutFrequencies) ++ (answer? wild fromJson r).toList) :
    Replays wild fromJson env H fuel program₀ (requests ++ [r]) s' := by
  refine ⟨?_, ?_, hidle, ?_, hstored, ?_⟩
  · rw [LastWrites.filterMap_concat, List.foldlM_append, h.mapper, Exits.ok_bind, hmapper]
  · rw [LastWrites.lastWritten_concat, ← h.profile, hprofile]
  · rw [LastWrites.lastWritten_concat, ← h.flag, hflag]
  · rw [LastWrites.filterMap_concat, ← h.answers, hanswers]

theorem line (h : Replays wild fromJson env H fuel program₀ requests s) {client : κ}
    {line : List UInt8}
    (hserve : serve (handleLine unassigned H wild fromJson) (act env H fuel) s
      (.line client line) = .ok s') :
    Replays wild fromJson env H fuel program₀ (requests ++ [.line client line]) s' := by
  obtain ⟨program, sent⟩ := s
  obtain ⟨⟨program', response⟩, hhandle, hserve⟩ := Exits.bind_eq_ok.mp hserve
  cases hserve
  rw [handleLine] at hhandle
  cases hjson : fromJson line with
  | none =>
      rw [hjson] at hhandle
      cases hhandle
      refine h.extend ?_ ?_ h.idle ?_ h.stored ?_
      · simp [operation?, hjson]
      · simp [profile?, hjson]
      · simp [flag?, hjson]
      · simp [answer?, lineAnswer, hjson, withoutFrequencies_sendResponse]
  | some obj =>
      rw [hjson] at hhandle
      have hmsg := handled hhandle
      refine h.extend ?_ ?_ (hmsg.idle h.idle) ?_ (hmsg.stored h.idle h.stored) ?_
      · simpa [operation?, hjson] using hmsg.mapper env fuel
      · simpa [profile?, hjson] using hmsg.profile
      · simpa [flag?, hjson] using hmsg.flag h.idle
      · simp [answer?, lineAnswer, hjson, hmsg.answer]


theorem act (h : Replays wild fromJson env H fuel program₀ requests s) {a : Act}
    (hserve : serve (handleLine unassigned H wild fromJson) (act env H fuel) s (.act a) = .ok s') :
    Replays wild fromJson env H fuel program₀ (requests ++ [.act a]) s' := by
  obtain ⟨program, sent⟩ := s
  obtain ⟨program', hact, hserve⟩ := Exits.bind_eq_ok.mp hserve
  cases hserve
  have hframe := framed_of_act hact
  refine h.extend (mapper_of_act hact) ?_ ?_ ?_ ?_ ?_
  · exact congrArg (fun latest ↦ (startProfile wild latest).1) hframe.latest
  · exact hframe.phase.trans h.idle
  · exact hframe.flag
  · exact (congrArg (·.getD false) hframe.file).trans (h.stored.trans hframe.flag.symm)
  · exact (List.append_nil _).symm

theorem serve (h : Replays wild fromJson env H fuel program₀ requests s) (r : Request κ Act)
    (hserve : serve (handleLine unassigned H wild fromJson) (Program.act env H fuel) s r = .ok s') :
    Replays wild fromJson env H fuel program₀ (requests ++ [r]) s' := by
  cases r with
  | line client line => exact h.line hserve
  | act a => exact h.act hserve

theorem of_start {latest : Option JsonObject} {settingsFile : Option Bool}
    {countFile : Option KeyCounts}
    (hstart : start unassigned H wild latest settingsFile countFile = .ok program₀) :
    Replays wild fromJson env H fuel program₀ ([] : List (Request κ Act)) (program₀, []) := by
  obtain ⟨m, -, hstart⟩ := Exits.bind_eq_ok.mp hstart
  cases hstart
  exact ⟨rfl, rfl, rfl, rfl, rfl, rfl⟩

theorem of_served
    (hstart : Replays wild fromJson env H fuel program₀ ([] : List (Request κ Act)) (program₀, []))
    (hserved : requests.foldlM
      (Keybinder.serve (handleLine unassigned H wild fromJson) (Program.act env H fuel))
        (program₀, []) =
        .ok s) :
    Replays wild fromJson env H fuel program₀ requests s :=
  Exits.foldlM_induction hstart (fun _ r _ _ h hserve ↦ h.serve r hserve) hserved

end Replays

/-- What was answered to a client, without the frequencies. -/
def answersTo {κ : Type} [DecidableEq κ] (client : κ) (sent : List (κ × JsonObject)) :
    List JsonObject :=
  sent.filterMap fun (recipient, response) ↦
    if recipient = client then some (withoutFrequencies response) else none

theorem Replays.answersTo_eq {κ : Type} [DecidableEq κ] {wild : ℚ → ℕ}
    {fromJson : List UInt8 → Option JsonObject} {env : Env} {H : QHash} {fuel : ℕ}
    {program₀ : Program} {requests : List (Request κ Act)} {s : Program × List (κ × JsonObject)}
    (h : Replays wild fromJson env H fuel program₀ requests s) (client : κ) :
    answersTo client s.2 =
      (requests.filterMap (Request.lineOf client)).map (lineAnswer wild fromJson) := by
  have hsent : answersTo client s.2 = (s.2.map (Prod.map id withoutFrequencies)).filterMap
      fun (recipient, response) ↦ if recipient = client then some response else none := by
    rw [List.filterMap_map]
    rfl
  rw [hsent, h.answers, List.filterMap_filterMap, List.map_filterMap]
  congr 1
  funext r
  cases r with
  | line recipient line =>
      by_cases hclient : recipient = client <;> simp [answer?, Request.lineOf, hclient]
  | act a => rfl

section

variable {κ : Type} [DecidableEq κ] {unassigned : UnassignedRead} {wild : ℚ → ℕ} {H : QHash}
  {latest : Option JsonObject} {settingsFile : Option Bool} {countFile : Option KeyCounts}
  {program : Program}

theorem replayed_of_run (env : Env) (fuel : ℕ) (fromJson : List UInt8 → Option JsonObject)
    (hstart : start unassigned H wild latest settingsFile countFile = .ok program)
    {steps : List (ServerStep κ Act)} (hshort : ∀ client,
      ∀ l ∈ Framing.pieces newline (steps.flatMap (ServerStep.bytesOf client)),
      l.length < intMax) :
    Exits.Avoids none (fun s ↦ ∃ requests,
      Server.Serves (handleLine unassigned H wild fromJson) (act env H fuel) program steps requests s ∧
      Replays wild fromJson env H fuel program requests (s.program, s.sent))
      (Server.run (handleLine unassigned H wild fromJson) (act env H fuel) { program } steps) := by
  have hnone : Server.Serves (handleLine unassigned H wild fromJson) (act env H fuel) program
      ([] : List (ServerStep κ Act)) [] { program } := .start program
  have hserves := hnone.run steps (by simpa using hshort)
  refine hserves.mono fun s hs ↦ ?_
  obtain ⟨requests, hs⟩ := hs
  rw [List.nil_append, List.nil_append] at hs
  exact ⟨requests, hs, .of_served (.of_start hstart) hs.served⟩

/-- Whatever other clients send and other threads do, a client has been
answered what its own lines say, each line once and in their order, but for
the lines that are not served yet. -/
theorem run_answers (env : Env) (fuel : ℕ) (fromJson : List UInt8 → Option JsonObject)
    (hstart : start unassigned H wild latest settingsFile countFile = .ok program)
    (steps : List (ServerStep κ Act)) (hshort : ∀ client,
      ∀ l ∈ Framing.pieces newline (steps.flatMap (ServerStep.bytesOf client)),
      l.length < intMax) :
    Exits.Avoids none (fun s ↦ ∀ client, answersTo client s.sent ++
        (streamLines (s.unserved client)).map (lineAnswer wild fromJson) =
      (streamLines (steps.flatMap (ServerStep.bytesOf client))).map (lineAnswer wild fromJson))
      (Server.run (handleLine unassigned H wild fromJson) (act env H fuel) { program } steps) := by
  refine (replayed_of_run env fuel fromJson hstart hshort).mono fun s hs client ↦ ?_
  obtain ⟨requests, hserves, hreplays⟩ := hs
  rw [hreplays.answersTo_eq client, ← List.map_append, hserves.streamLines_eq]

/-- The message that loads a profile with B for A. -/
def loadMessage : JsonObject :=
  let bind : Json := .object [("type", .string "press_key"), ("value", .string "B")]
  let remapping : Json := .object
    [("trigger", .object [("type", .string "key_press"), ("value", .string "A")]),
      ("binds", .array [bind])]
  [("type", .string "load_profile"), ("profile", .object
    [("profile_name", .string "B for A"), ("default_layer", .number 0), ("layers", .array
      [.object [("layer_name", .string "layer"), ("remappings", .array [remapping])]])])]

/-- The lines of a client that pauses and of one that loads a profile, and the
line of one that switches the logging on. -/
def pauseAndLog : List UInt8 → Option JsonObject
  | [80] => some [("type", .string "pause")]
  | [83] => some loadMessage
  | [76] => some [("type", .string "set_settings"),
      ("settings", .object [("log_key_frequency", .bool true)])]
  | _ => none

/-- The mapper thread reads the flag before it is set and again after.  Of the
lines of the first client the second one is no object. -/
def pauseAndLogSteps : List (ServerStep Bool Act) :=
  [.arrive true [76, 10], .readyRead true, .arrive false [80, 13, 10, 63], .act (.readFlag .a),
    .round, .round, .readyRead false, .act (.readFlag .a), .round, .act (.operate .resume),
    .arrive false [10, 83, 10], .act .increment, .round, .readyRead false, .round, .round]

theorem run_answers_pauseAndLog : ∃ program, ∃ s : Server Bool Program JsonObject,
    start .home (.first _) (fun _ ↦ 0) none none none = .ok program ∧
    Server.run (handleLine .home (.first _) (fun _ ↦ 0) pauseAndLog) (act .still (.first _) 0)
      { program } pauseAndLogSteps = .ok s ∧
    s.unserved false = [] ∧
    answersTo false s.sent =
      [sendResponse "success" "", sendResponse "fail" "invalid json", sendResponse "ok" ""] := by
  obtain ⟨program, s, hstart, hrun, hunserved⟩ : ∃ program, ∃ s : Server Bool Program JsonObject,
      start .home (.first _) (fun _ ↦ 0) none none none = .ok program ∧
      Server.run (handleLine .home (.first _) (fun _ ↦ 0) pauseAndLog) (act .still (.first _) 0)
        { program } pauseAndLogSteps = .ok s ∧ s.unserved false = [] := ⟨_, _, rfl, rfl, rfl⟩
  refine ⟨program, s, hstart, hrun, hunserved, ?_⟩
  have hanswers :=
    (run_answers .still 0 pauseAndLog hstart pauseAndLogSteps (by decide)).of_ok hrun false
  rw [hunserved] at hanswers
  exact (List.append_nil _).symm.trans hanswers

/-- The mapper lives one life, in which the messages of the clients and the
acts of the other threads are merged, and the next start finds the profile
that was loaded last and the flag that was set last. -/
theorem run_remembers (env : Env) (fuel : ℕ) (fromJson : List UInt8 → Option JsonObject)
    (hstart : start unassigned H wild latest settingsFile countFile = .ok program)
    (steps : List (ServerStep κ Act)) (hshort : ∀ client,
      ∀ l ∈ Framing.pieces newline (steps.flatMap (ServerStep.bytesOf client)),
      l.length < intMax) :
    Exits.Avoids none (fun s ↦ ∃ requests : List (Request κ Act),
      requests.filterMap Request.act? = steps.filterMap ServerStep.act? ∧
      (∀ client, requests.filterMap (Request.lineOf client) ++ streamLines (s.unserved client) =
        streamLines (steps.flatMap (ServerStep.bytesOf client))) ∧
      Mapper.life env H fuel (startProfile wild latest).1 true
        (requests.filterMap (operation? wild fromJson)) = .ok s.program.mapper ∧
      (startProfile wild s.program.latest).1 =
        (requests.filterMap (profile? wild fromJson)).getLast?.getD (startProfile wild latest).1 ∧
      s.program.logging.settingsFile.getD false =
        (requests.filterMap (flag? fromJson)).getLast?.getD (settingsFile.getD false) ∧
      s.program.logging.logKeyFrequency = s.program.logging.settingsFile.getD false)
      (Server.run (handleLine unassigned H wild fromJson) (act env H fuel) { program } steps) := by
  refine (replayed_of_run env fuel fromJson hstart hshort).mono fun s hs ↦ ?_
  obtain ⟨requests, hserves, hreplays⟩ := hs
  obtain ⟨m, hnew, hprogram⟩ := Exits.bind_eq_ok.mp hstart
  cases hprogram
  refine ⟨requests, hserves.acts, hserves.streamLines_eq, ?_, ?_, ?_, hreplays.stored.symm⟩
  · exact Exits.bind_eq_ok.mpr ⟨m, Mapper.new_of_reading hnew, hreplays.mapper⟩
  · have hprofile := hreplays.profile
    rwa [startProfile_snd] at hprofile
  · exact hreplays.stored.trans hreplays.flag

/-- The flag and the profile that are found at the next start, and the mapper
that has been paused, resumed and given the profile. -/
theorem run_remembers_pauseAndLog : ∃ program, ∃ s : Server Bool Program JsonObject,
    start .home (.first _) (fun _ ↦ 0) none none none = .ok program ∧
    Server.run (handleLine .home (.first _) (fun _ ↦ 0) pauseAndLog) (act .still (.first _) 0)
      { program } pauseAndLogSteps = .ok s ∧
    s.program.logging.counter.counts = [("A", 1)] ∧ s.program.mapper.paused = false ∧
    (startProfile (fun _ ↦ 0) s.program.latest).1 = s.program.mapper.profile ∧
    s.program.mapper.profile.layers = [⟨"layer", [(.keyPress .a, [.pressKey .b])], []⟩] ∧
    s.program.logging.settingsFile = some true ∧
    ∃ requests : List (Request Bool Act),
      Mapper.life .still (.first _) 0 .defaultProfile true
        (requests.filterMap (operation? (fun _ ↦ 0) pauseAndLog)) = .ok s.program.mapper ∧
      (requests.filterMap (profile? (fun _ ↦ 0) pauseAndLog)).getLast?.getD .defaultProfile =
        s.program.mapper.profile ∧
      (requests.filterMap (flag? pauseAndLog)).getLast?.getD false = true := by
  obtain ⟨program, s, hstart, hrun, hcounts, hpaused, hlatest, hlayers, hflag⟩ :
      ∃ program, ∃ s : Server Bool Program JsonObject,
      start .home (.first _) (fun _ ↦ 0) none none none = .ok program ∧
      Server.run (handleLine .home (.first _) (fun _ ↦ 0) pauseAndLog) (act .still (.first _) 0)
        { program } pauseAndLogSteps = .ok s ∧
      s.program.logging.counter.counts = [("A", 1)] ∧ s.program.mapper.paused = false ∧
      (startProfile (fun _ ↦ 0) s.program.latest).1 = s.program.mapper.profile ∧
      s.program.mapper.profile.layers = [⟨"layer", [(.keyPress .a, [.pressKey .b])], []⟩] ∧
      s.program.logging.settingsFile = some true := ⟨_, _, rfl, rfl, rfl, rfl, rfl, rfl, rfl⟩
  obtain ⟨requests, -, -, hlife, hprofile, hset, -⟩ :=
    (run_remembers .still 0 pauseAndLog hstart pauseAndLogSteps (by decide)).of_ok hrun
  rw [hflag] at hset
  rw [hlatest] at hprofile
  exact ⟨program, s, hstart, hrun, hcounts, hpaused, hlatest, hlayers, hflag, requests, hlife,
    hprofile.symm, hset.symm⟩

end

end Program

end Keybinder

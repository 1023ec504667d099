import Mathlib.Logic.Function.Basic
import Keybinder.LineFraming
import Keybinder.Library.Exits

/-!
# The local server

The main thread handles the lines of the connections: it reads what has
arrived on one of them and then handles the lines in its buffer one by one.
Between two lines other threads act on the same program.  Whatever the
clients send and when, the program serves requests one after the other, and
those of a client are the lines it sent.
-/

namespace Keybinder

/-- What arrived on each socket and is not read yet, the buffers of the
connections, the connection whose `read_data` is running, the program, and the
responses in the order they were sent. -/
structure Server (κ σ ρ : Type) where
  sockets : κ → List UInt8 := fun _ ↦ []
  buffers : κ → List UInt8 := fun _ ↦ []
  reading : Option κ := none
  program : σ
  sent : List (κ × ρ) := []

/-- Bytes arrive from a client, `read_data` of its connection is called, its
loop goes round, or another thread acts. -/
inductive ServerStep (κ τ : Type) where
  | arrive (client : κ) (bytes : List UInt8)
  | readyRead (client : κ)
  | round
  | act (x : τ)

/-- What the program serves. -/
inductive Request (κ τ : Type) where
  | line (client : κ) (line : List UInt8)
  | act (x : τ)

section

variable {κ σ ρ χ τ : Type} [DecidableEq κ]

/-- The bytes that a client has sent. -/
def ServerStep.bytesOf (client : κ) : ServerStep κ τ → List UInt8
  | arrive client' bytes => if client' = client then bytes else []
  | _ => []

def ServerStep.act? : ServerStep κ τ → Option τ
  | act x => some x
  | _ => none

def ServerStep.isRound : ServerStep κ τ → Bool
  | round => true
  | _ => false

def Request.lineOf (client : κ) : Request κ τ → Option (List UInt8)
  | .line client' bytes => if client' = client then some bytes else none
  | .act _ => none

def Request.act? : Request κ τ → Option τ
  | .line _ _ => none
  | .act x => some x

variable (handle : List UInt8 → σ → Except χ (σ × ρ)) (act : τ → σ → Except χ σ)

/-- Serves a request, with the responses so far. -/
def serve : σ × List (κ × ρ) → Request κ τ → Except χ (σ × List (κ × ρ))
  | (program, sent), .line client line => do
      let (program, response) ← handle line program
      return (program, sent ++ [(client, response)])
  | (program, sent), .act x => do
      let program ← act x program
      return (program, sent)

namespace Server

/-- A step that is not due does nothing.  Without an exit of the program, a
run ends where `newline_index + 1` overflows. -/
def step (s : Server κ σ ρ) : ServerStep κ τ → Except (Option χ) (Server κ σ ρ)
  | .arrive client bytes =>
      return { s with sockets := Function.update s.sockets client (s.sockets client ++ bytes) }
  | .readyRead client =>
      match s.reading with
      | some _ => return s
      | none =>
          return { s with
            sockets := Function.update s.sockets client []
            buffers := Function.update s.buffers client (s.buffers client ++ s.sockets client)
            reading := some client }
  | .round =>
      match s.reading with
      | none => return s
      | some client =>
          let buffer := s.buffers client
          let idx := newlineIndex buffer
          if idx = -1 then return { s with reading := none }
          else
            let line := chopLine (buffer.take idx.toNat)
            match handle line s.program with
            | .error e => throw (some e)
            | .ok (program, response) =>
                if idx = intMax then throw none
                else
                  return { s with
                    program
                    sent := s.sent ++ [(client, response)]
                    buffers := Function.update s.buffers client (buffer.drop (idx + 1).toNat) }
  | .act x =>
      match act x s.program with
      | .error e => throw (some e)
      | .ok program => return { s with program }

def run (s : Server κ σ ρ) (steps : List (ServerStep κ τ)) :
    Except (Option χ) (Server κ σ ρ) :=
  steps.foldlM (step handle act) s

/-- What a client has sent and the program has not served. -/
def unserved (s : Server κ σ ρ) (client : κ) : List UInt8 := s.buffers client ++ s.sockets client

/-- The program has served the requests, which are the acts of the other
threads and the first lines of every client. -/
structure Serves (program₀ : σ) (steps : List (ServerStep κ τ)) (requests : List (Request κ τ))
    (s : Server κ σ ρ) : Prop where
  served : requests.foldlM (serve handle act) (program₀, []) = .ok (s.program, s.sent)
  acts : requests.filterMap Request.act? = steps.filterMap ServerStep.act?
  lines : ∀ client, ∃ first, requests.filterMap (Request.lineOf client) = first.map chopLine ∧
    Framing.pieces newline (steps.flatMap (ServerStep.bytesOf client)) =
      first ++ Framing.pieces newline (s.unserved client)
  rest : ∀ client, Framing.remainder newline (steps.flatMap (ServerStep.bytesOf client)) =
    Framing.remainder newline (s.unserved client)

variable {handle act} {program₀ : σ} {steps : List (ServerStep κ τ)} {requests : List (Request κ τ)}
  {s : Server κ σ ρ}

theorem Serves.start (program : σ) :
    Serves handle act program [] [] ({ program } : Server κ σ ρ) :=
  ⟨rfl, rfl, fun _ ↦ ⟨[], rfl, rfl⟩, fun _ ↦ rfl⟩

namespace Serves

theorem lines_arrive (h : Serves handle act program₀ steps requests s) (client : κ)
    (bytes : List UInt8) : ∃ first,
      requests.filterMap (Request.lineOf client) = first.map chopLine ∧
      Framing.pieces newline (steps.flatMap (ServerStep.bytesOf client) ++ bytes) =
        first ++ Framing.pieces newline (s.unserved client ++ bytes) := by
  obtain ⟨first, hfirst, hpieces⟩ := h.lines client
  refine ⟨first, hfirst, ?_⟩
  rw [Framing.pieces_append, hpieces, h.rest client, Framing.pieces_append (s.unserved client),
    List.append_assoc]

theorem rest_arrive (h : Serves handle act program₀ steps requests s) (client : κ)
    (bytes : List UInt8) :
    Framing.remainder newline (steps.flatMap (ServerStep.bytesOf client) ++ bytes) =
      Framing.remainder newline (s.unserved client ++ bytes) := by
  rw [Framing.remainder_append, h.rest client, ← Framing.remainder_append]

/-- A step by which nothing arrives serves some requests more. -/
theorem extend (h : Serves handle act program₀ steps requests s) (more : List (Request κ τ))
    {s' : Server κ σ ρ} {x : ServerStep κ τ} (hbytes : ∀ client, x.bytesOf client = [])
    (hserve : more.foldlM (serve handle act) (s.program, s.sent) = .ok (s'.program, s'.sent))
    (hacts : more.filterMap Request.act? = x.act?.toList)
    (hlines : ∀ client, ∃ first, more.filterMap (Request.lineOf client) = first.map chopLine ∧
      Framing.pieces newline (s.unserved client) =
        first ++ Framing.pieces newline (s'.unserved client) ∧
      Framing.remainder newline (s.unserved client) =
        Framing.remainder newline (s'.unserved client)) :
    Serves handle act program₀ (steps ++ [x]) (requests ++ more) s' := by
  refine ⟨?_, ?_, fun client ↦ ?_, fun client ↦ ?_⟩
  · rw [List.foldlM_append, h.served, Exits.ok_bind, hserve]
  · rw [List.filterMap_append, hacts, h.acts]
    cases hact : x.act? <;> simp [hact]
  · obtain ⟨first, hfirst, hpieces⟩ := h.lines client
    obtain ⟨next, hnext, hpieces', -⟩ := hlines client
    refine ⟨first ++ next, by rw [List.filterMap_append, hfirst, hnext, List.map_append], ?_⟩
    rw [List.flatMap_append, List.flatMap_singleton, hbytes, List.append_nil, hpieces, hpieces',
      List.append_assoc]
  · obtain ⟨-, -, -, hremainder⟩ := hlines client
    rw [List.flatMap_append, List.flatMap_singleton, hbytes, List.append_nil, h.rest, hremainder]

/-- A step that leaves the program and what is unserved. -/
theorem frame (h : Serves handle act program₀ steps requests s) {s' : Server κ σ ρ}
    {x : ServerStep κ τ} (hbytes : ∀ client, x.bytesOf client = []) (hact : x.act? = none)
    (hprogram : s'.program = s.program) (hsent : s'.sent = s.sent)
    (hunserved : ∀ client, s'.unserved client = s.unserved client) :
    Serves handle act program₀ (steps ++ [x]) requests s' := by
  have hserves : Serves handle act program₀ (steps ++ [x]) (requests ++ []) s' :=
    h.extend [] hbytes (by rw [hprogram, hsent]; rfl) (by rw [hact]; rfl)
      fun client ↦ ⟨[], rfl, by rw [hunserved]; exact ⟨rfl, rfl⟩⟩
  rwa [List.append_nil] at hserves

theorem arrive (h : Serves handle act program₀ steps requests s) (client : κ) (bytes : List UInt8) :
    Serves handle act program₀ (steps ++ [.arrive client bytes]) requests
      { s with sockets := Function.update s.sockets client (s.sockets client ++ bytes) } := by
  have hunserved : ∀ client', unserved
      { s with sockets := Function.update s.sockets client (s.sockets client ++ bytes) } client' =
        s.unserved client' ++ (ServerStep.arrive client bytes : ServerStep κ τ).bytesOf client' := by
    intro client'
    by_cases hclient : client' = client
    · subst hclient
      simp [unserved, ServerStep.bytesOf]
    · simp [unserved, ServerStep.bytesOf, hclient, Ne.symm hclient]
  have hact : (ServerStep.arrive client bytes : ServerStep κ τ).act? = none := rfl
  refine ⟨h.served, by simpa [hact] using h.acts, fun client' ↦ ?_, fun client' ↦ ?_⟩
  · rw [hunserved, List.flatMap_append, List.flatMap_singleton]
    exact h.lines_arrive client' _
  · rw [hunserved, List.flatMap_append, List.flatMap_singleton]
    exact h.rest_arrive client' _

theorem readyRead (h : Serves handle act program₀ steps requests s) (client : κ) :
    Serves handle act program₀ (steps ++ [.readyRead client]) requests { s with
      sockets := Function.update s.sockets client []
      buffers := Function.update s.buffers client (s.buffers client ++ s.sockets client)
      reading := some client } := by
  refine h.frame (fun _ ↦ rfl) rfl rfl rfl fun client' ↦ ?_
  by_cases hclient : client' = client
  · subst hclient
    simp [unserved]
  · simp [unserved, hclient]

theorem acted (h : Serves handle act program₀ steps requests s) {x : τ} {program : σ}
    (hprogram : act x s.program = .ok program) :
    Serves handle act program₀ (steps ++ [.act x]) (requests ++ [.act x])
      { s with program } := by
  refine h.extend _ (fun _ ↦ rfl) ?_ rfl fun client ↦ ⟨[], rfl, rfl, rfl⟩
  rw [List.foldlM_cons, serve, hprogram]
  rfl

/-- The first line of a buffer is served. -/
theorem line (h : Serves handle act program₀ steps requests s) {client : κ}
    {l rest : List UInt8} (hbuffer : s.buffers client = l ++ newline :: rest)
    (hl : newline ∉ l) {program : σ} {response : ρ}
    (hhandle : handle (chopLine l) s.program = .ok (program, response)) :
    Serves handle act program₀ (steps ++ [.round]) (requests ++ [.line client (chopLine l)])
      { s with
        program
        sent := s.sent ++ [(client, response)]
        buffers := Function.update s.buffers client rest } := by
  refine h.extend _ (fun _ ↦ rfl) ?_ rfl fun client' ↦ ?_
  · rw [List.foldlM_cons, serve, hhandle]
    rfl
  · by_cases hclient : client' = client
    · subst hclient
      refine ⟨[l], by simp [Request.lineOf], ?_⟩
      have hunserved : s.unserved client' = l ++ newline :: (rest ++ s.sockets client') := by
        simp [unserved, hbuffer]
      rw [hunserved, Framing.pieces_append_cons hl, Framing.remainder_append_cons hl]
      simp [unserved]
    · exact ⟨[], by simp [Request.lineOf, Ne.symm hclient], by simp [unserved, hclient]⟩

/-- A round of the loop serves the first line of the buffer and stays on the
connection. -/
theorem round_line (h : Serves handle act program₀ steps requests s) {client : κ}
    (hreading : s.reading = some client) {l rest : List UInt8}
    (hbuffer : s.buffers client = l ++ newline :: rest) (hl : newline ∉ l)
    (hshort : ∀ client, ∀ l ∈ Framing.pieces newline (steps.flatMap (ServerStep.bytesOf client)),
      l.length < intMax) :
    Exits.Avoids none (fun s' ↦ s'.reading = some client ∧ s'.buffers client = rest ∧
      Serves handle act program₀ (steps ++ [.round]) (requests ++ [.line client (chopLine l)]) s')
      (s.step handle act .round) := by
  have hmem : l ∈ Framing.pieces newline (steps.flatMap (ServerStep.bytesOf client)) := by
    obtain ⟨first, -, hpieces⟩ := h.lines client
    have hunserved : s.unserved client = l ++ newline :: (rest ++ s.sockets client) := by
      simp [unserved, hbuffer]
    rw [hpieces, hunserved, Framing.pieces_append_cons hl]
    simp
  have hidx : newlineIndex (l ++ newline :: rest) = l.length := by
    rw [newlineIndex_append_cons hl, bmod_of_lt_intMax (hshort client l hmem)]
  have hfirst : (l.length : ℤ) ≠ -1 := by omega
  have hmax : (l.length : ℤ) ≠ intMax := by
    have hlt := hshort client l hmem
    omega
  have hdrop : (l ++ newline :: rest).drop ((l.length : ℤ) + 1).toNat = rest := by
    have hnat : ((l.length : ℤ) + 1).toNat = l.length + 1 := by omega
    rw [hnat, ← List.drop_drop, List.drop_left]
    rfl
  simp only [step, hreading, hbuffer, hidx, hfirst, hmax, if_false, Int.toNat_natCast,
    List.take_left, hdrop]
  split
  · simp
  · rename_i program response hhandle
    have hline := h.line hbuffer hl hhandle
    rw [hreading] at hline
    exact ⟨rfl, Function.update_self .., hline⟩

theorem round (h : Serves handle act program₀ steps requests s)
    (hshort : ∀ client, ∀ l ∈ Framing.pieces newline (steps.flatMap (ServerStep.bytesOf client)),
      l.length < intMax) :
    Exits.Avoids none (fun s' ↦ ∃ served,
      Serves handle act program₀ (steps ++ [.round]) (requests ++ served) s')
      (s.step handle act .round) := by
  have hidle : ∀ reading, Serves handle act program₀ (steps ++ [.round]) (requests ++ [])
      { s with reading } := by
    intro reading
    rw [List.append_nil]
    exact h.frame (fun _ ↦ rfl) rfl rfl rfl fun _ ↦ rfl
  cases hreading : s.reading with
  | none =>
      simp only [step, hreading]
      exact ⟨[], hidle s.reading⟩
  | some client =>
      rcases Framing.stream_cases newline (s.buffers client) with hnone | ⟨l, rest, hbuffer, hl⟩
      · simp only [step, hreading, newlineIndex_of_notMem hnone, if_true]
        exact ⟨[], hidle none⟩
      · exact (h.round_line hreading hbuffer hl hshort).mono fun s' hs' ↦ ⟨_, hs'.2.2⟩

theorem step (h : Serves handle act program₀ steps requests s) (x : ServerStep κ τ)
    (hshort : ∀ client, ∀ l ∈ Framing.pieces newline (steps.flatMap (ServerStep.bytesOf client)),
      l.length < intMax) :
    Exits.Avoids none (fun s' ↦ ∃ served,
      Serves handle act program₀ (steps ++ [x]) (requests ++ served) s')
      (s.step handle act x) := by
  cases x with
  | arrive client bytes => exact ⟨[], by simpa using h.arrive client bytes⟩
  | readyRead client =>
      simp only [Server.step]
      split
      · exact ⟨[], by simpa using h.frame (fun _ ↦ rfl) rfl rfl rfl fun _ ↦ rfl⟩
      · exact ⟨[], by simpa using h.readyRead client⟩
  | round => exact h.round hshort
  | act x =>
      simp only [Server.step]
      split
      · simp
      · rename_i program hprogram
        exact ⟨_, h.acted hprogram⟩

/-- The lines of the earlier steps are among those of all steps. -/
theorem short_of_append {steps more : List (ServerStep κ τ)}
    (hshort : ∀ client,
      ∀ l ∈ Framing.pieces newline ((steps ++ more).flatMap (ServerStep.bytesOf client)),
      l.length < intMax) (client : κ) :
    ∀ l ∈ Framing.pieces newline (steps.flatMap (ServerStep.bytesOf client)),
      l.length < intMax := by
  intro l hl
  apply hshort client l
  rw [List.flatMap_append, Framing.pieces_append]
  exact List.mem_append_left _ hl

theorem run (h : Serves handle act program₀ steps requests s) (more : List (ServerStep κ τ))
    (hshort : ∀ client,
      ∀ l ∈ Framing.pieces newline ((steps ++ more).flatMap (ServerStep.bytesOf client)),
      l.length < intMax) :
    Exits.Avoids none (fun s' ↦ ∃ served,
      Serves handle act program₀ (steps ++ more) (requests ++ served) s')
      (s.run handle act more) := by
  induction more generalizing steps requests s with
  | nil => exact ⟨[], by simpa using h⟩
  | cons x more ih =>
      have hnow := h.step x (short_of_append hshort)
      rw [List.append_cons] at hshort ⊢
      rw [Server.run, List.foldlM_cons]
      refine hnow.bind fun s' hs' ↦ ?_
      obtain ⟨served, hs'⟩ := hs'
      refine (ih hs' hshort).mono fun s'' hs'' ↦ ?_
      obtain ⟨served', hs''⟩ := hs''
      exact ⟨served ++ served', by rwa [← List.append_assoc]⟩

/-- While a connection is read each round serves a line of its buffer, as
long as there is one, and no other step takes one out. -/
theorem drains (h : Serves handle act program₀ steps requests s) {client : κ}
    (hreading : s.reading = some client) {n : ℕ}
    (hn : n ≤ (Framing.pieces newline (s.buffers client)).length) (more : List (ServerStep κ τ))
    (hrounds : n ≤ more.countP ServerStep.isRound)
    (hshort : ∀ client,
      ∀ l ∈ Framing.pieces newline ((steps ++ more).flatMap (ServerStep.bytesOf client)),
      l.length < intMax) :
    Exits.Avoids none (fun s' ↦ ∃ served,
      Serves handle act program₀ (steps ++ more) (requests ++ served) s' ∧
      n ≤ (served.filterMap (Request.lineOf client)).length) (s.run handle act more) := by
  induction more generalizing steps requests s n with
  | nil => exact ⟨[], by simpa using h, by simpa using hrounds⟩
  | cons x more ih =>
      have hnow := short_of_append hshort
      have hwait : ∀ s₁ : Server κ σ ρ, ∀ served₁,
          Serves handle act program₀ (steps ++ [x]) (requests ++ served₁) s₁ →
          s₁.reading = some client → ∀ k ≤ (served₁.filterMap (Request.lineOf client)).length,
          n ≤ k + (Framing.pieces newline (s₁.buffers client)).length →
          n ≤ k + more.countP ServerStep.isRound →
          Exits.Avoids none (fun s' ↦ ∃ served,
            Serves handle act program₀ (steps ++ x :: more) (requests ++ served) s' ∧
            n ≤ (served.filterMap (Request.lineOf client)).length) (s₁.run handle act more) := by
        intro s₁ served₁ h₁ hreading₁ k hk hn₁ hrounds₁
        rw [List.append_cons] at hshort ⊢
        have hrest := ih h₁ hreading₁ (n := n - k) (by omega) (by omega) hshort
        refine hrest.mono fun s' hs' ↦ ?_
        obtain ⟨served, hs', hserved⟩ := hs'
        refine ⟨served₁ ++ served, by rwa [← List.append_assoc], ?_⟩
        rw [List.filterMap_append, List.length_append]
        omega
      rw [Server.run, List.foldlM_cons]
      cases x with
      | arrive client' bytes =>
          exact hwait _ [] (by simpa using h.arrive client' bytes) hreading 0 (by simp)
            (by simpa using hn) (by simpa [ServerStep.isRound] using hrounds)
      | readyRead client' =>
          have hstep : s.step handle act (.readyRead client') = .ok s := by
            simp [Server.step, hreading]
          rw [hstep, Exits.ok_bind]
          exact hwait s [] (by simpa using h.frame (fun _ ↦ rfl) rfl rfl rfl fun _ ↦ rfl) hreading 0
            (by simp) (by simpa using hn) (by simpa [ServerStep.isRound] using hrounds)
      | act a =>
          simp only [Server.step]
          split
          · simp
          · rename_i program hprogram
            exact hwait _ _ (h.acted hprogram) hreading 0 (Nat.zero_le _)
              (by simpa using hn) (by simpa [ServerStep.isRound] using hrounds)
      | round =>
          rcases Framing.stream_cases newline (s.buffers client) with hnone | ⟨l, rest, hbuffer, hl⟩
          · -- There is no line left to serve.
            rw [Framing.pieces_of_notMem hnone] at hn
            obtain rfl : n = 0 := by simpa using hn
            have hrun := h.run (.round :: more) hshort
            rw [Server.run, List.foldlM_cons] at hrun
            exact hrun.mono fun s' ⟨served, hs'⟩ ↦ ⟨served, hs', Nat.zero_le _⟩
          · refine (h.round_line hreading hbuffer hl hnow).bind fun s₁ hs₁ ↦ ?_
            obtain ⟨hreading₁, hbuffer₁, h₁⟩ := hs₁
            rw [hbuffer, Framing.pieces_append_cons hl, List.length_cons] at hn
            refine hwait s₁ _ h₁ hreading₁ 1 (by simp [Request.lineOf]) ?_ ?_
            · rw [hbuffer₁]
              omega
            · rw [List.countP_cons_of_pos rfl] at hrounds
              omega

/-- The lines of a client are those that were served, and then those that
were not. -/
theorem streamLines_eq (h : Serves handle act program₀ steps requests s) (client : κ) :
    requests.filterMap (Request.lineOf client) ++ streamLines (s.unserved client) =
      streamLines (steps.flatMap (ServerStep.bytesOf client)) := by
  obtain ⟨first, hfirst, hpieces⟩ := h.lines client
  rw [streamLines, streamLines, hfirst, hpieces, List.map_append]

end Serves

/-- Whatever the clients send and when, and whatever other threads do between
two lines, the program serves requests one after the other and answers each:
they are the acts in their order and, for each client, the lines it sent in
their order, but for those that are not served yet. -/
theorem run_serves (handle : List UInt8 → σ → Except χ (σ × ρ)) (act : τ → σ → Except χ σ)
    (program : σ) (steps : List (ServerStep κ τ))
    (hshort : ∀ client,
      ∀ l ∈ Framing.pieces newline (steps.flatMap (ServerStep.bytesOf client)),
      l.length < intMax) :
    Exits.Avoids none (fun s ↦ ∃ requests : List (Request κ τ),
      requests.foldlM (serve handle act) (program, []) = .ok (s.program, s.sent) ∧
      requests.filterMap Request.act? = steps.filterMap ServerStep.act? ∧
      ∀ client, requests.filterMap (Request.lineOf client) ++ streamLines (s.unserved client) =
        streamLines (steps.flatMap (ServerStep.bytesOf client)))
      (run handle act { program } steps) := by
  have hstart : Serves handle act program [] [] ({ program } : Server κ σ ρ) := .start program
  have hrun := hstart.run steps (by simpa using hshort)
  refine hrun.mono fun s hs ↦ ?_
  obtain ⟨requests, hs⟩ := hs
  rw [List.nil_append] at hs
  exact ⟨requests, hs.served, hs.acts, hs.streamLines_eq⟩

/-- A started `read_data` serves what has arrived: once a connection is read,
while no other one is, and its loop has gone round as often as the client has
lines that are not served, every line that the client had sent by then is
served, whatever has come in between. -/
theorem run_drains (handle : List UInt8 → σ → Except χ (σ × ρ)) (act : τ → σ → Except χ σ)
    (program : σ) (before after : List (ServerStep κ τ)) (client : κ) {s₀ : Server κ σ ρ}
    (hshort : ∀ client', ∀ l ∈ Framing.pieces newline
      ((before ++ .readyRead client :: after).flatMap (ServerStep.bytesOf client')),
      l.length < intMax)
    (hbefore : run handle act { program } before = .ok s₀) (hidle : s₀.reading = none)
    (hrounds : (streamLines (s₀.unserved client)).length ≤ after.countP ServerStep.isRound) :
    Exits.Avoids none (fun s ↦ ∃ requests : List (Request κ τ),
      requests.foldlM (serve handle act) (program, []) = .ok (s.program, s.sent) ∧
      streamLines (before.flatMap (ServerStep.bytesOf client)) <+:
        requests.filterMap (Request.lineOf client))
      (run handle act { program } (before ++ .readyRead client :: after)) := by
  have hstart : Serves handle act program [] [] ({ program } : Server κ σ ρ) := .start program
  obtain ⟨requests₀, h₀⟩ := (hstart.run before (Serves.short_of_append hshort)).of_ok hbefore
  rw [List.nil_append, List.nil_append] at h₀
  have hread := h₀.readyRead client
  have hstep : s₀.step handle act (.readyRead client) = .ok { s₀ with
      sockets := Function.update s₀.sockets client []
      buffers := Function.update s₀.buffers client (s₀.buffers client ++ s₀.sockets client)
      reading := some client } := by
    simp [step, hidle]
  rw [List.append_cons] at hshort ⊢
  rw [run, List.foldlM_append, List.foldlM_append, ← run, hbefore, Exits.ok_bind,
    List.foldlM_cons, hstep, Exits.ok_bind, List.foldlM_nil, Exits.pure_eq_ok, Exits.ok_bind, ← run]
  refine (hread.drains rfl ?_ after hrounds hshort).mono fun s ⟨served, hs, hserved⟩ ↦ ?_
  · simp [streamLines, unserved]
  refine ⟨requests₀ ++ served, hs.served, ?_⟩
  have hlines₀ := h₀.streamLines_eq client
  have hlines := hs.streamLines_eq client
  have hprefix : streamLines (before.flatMap (ServerStep.bytesOf client)) <+:
      streamLines ((before ++ [ServerStep.readyRead client] ++ after).flatMap
        (ServerStep.bytesOf client)) := by
    rw [List.flatMap_append, List.flatMap_append, List.append_assoc, streamLines, streamLines,
      Framing.pieces_append, List.map_append]
    exact List.prefix_append _ _
  refine List.prefix_of_prefix_length_le hprefix ⟨_, hlines⟩ ?_
  rw [← hlines₀, List.filterMap_append, List.length_append, List.length_append]
  omega

end Server

end

/-- Two connections, the second of which sends a line while the first is being
read. -/
def twoClients : List (ServerStep Bool ℕ) :=
  [.arrive false [65, 10, 66], .readyRead false, .arrive true [67, 10], .round, .act 1,
    .arrive false [10], .round, .readyRead true, .round, .round, .readyRead false, .round]

/-- Keeps the lines, and answers with their number. -/
def numberLine (line : List UInt8) (lines : List (List UInt8)) :
    Except Unit (List (List UInt8) × ℕ) :=
  .ok (lines ++ [line], lines.length + 1)

theorem Server.run_serves_twoClients : ∃ s : Server Bool (List (List UInt8)) ℕ,
    Server.run numberLine (fun n lines ↦ .ok (lines.drop n)) { program := [] } twoClients = .ok s ∧
    s.program = [[67], [66]] ∧ s.sent = [(false, 1), (true, 1), (false, 2)] ∧
    ∃ requests : List (Request Bool ℕ), requests.filterMap Request.act? = [1] ∧
      requests.filterMap (Request.lineOf false) = [[65], [66]] := by
  obtain ⟨s, hrun, hprogram, hsent⟩ : ∃ s : Server Bool (List (List UInt8)) ℕ,
      Server.run numberLine (fun n lines ↦ .ok (lines.drop n)) { program := [] } twoClients =
        .ok s ∧ s.program = [[67], [66]] ∧ s.sent = [(false, 1), (true, 1), (false, 2)] :=
    ⟨_, rfl, rfl, rfl⟩
  obtain ⟨requests, -, hacts, hlines⟩ :=
    (run_serves numberLine (fun n lines ↦ .ok (lines.drop n)) [] twoClients (by decide)).of_ok hrun
  refine ⟨s, hrun, hprogram, hsent, requests, hacts, ?_⟩
  have hrest : s.unserved false = [] := by
    cases hrun
    rfl
  have hserved := hlines false
  rw [hrest] at hserved
  exact (List.append_nil _).symm.trans hserved

/-- The client has sent three lines when its connection is read, and one more
comes in while they are served. -/
theorem Server.run_drains_twoClients : ∃ s : Server Bool (List (List UInt8)) ℕ,
    Server.run numberLine (fun n lines ↦ .ok (lines.drop n)) { program := [] }
      ([.arrive false [65, 10, 66, 10], .arrive true [67, 10], .arrive false [68, 10]] ++
        .readyRead false :: [.round, .act 1, .arrive false [69, 10], .readyRead true, .round,
          .round]) = .ok s ∧
    s.program = [[66], [68]] ∧ s.sent = [(false, 1), (false, 1), (false, 2)] ∧
    ∃ requests : List (Request Bool ℕ),
      requests.foldlM (serve numberLine fun n lines ↦ .ok (lines.drop n)) ([], []) =
        .ok (s.program, s.sent) ∧
      [[65], [66], [68]] <+: requests.filterMap (Request.lineOf false) := by
  obtain ⟨s₀, hbefore, hidle, hunserved⟩ : ∃ s₀ : Server Bool (List (List UInt8)) ℕ,
      Server.run numberLine (fun n lines ↦ .ok (lines.drop n)) { program := [] }
        [.arrive false [65, 10, 66, 10], .arrive true [67, 10], .arrive false [68, 10]] =
          .ok s₀ ∧ s₀.reading = none ∧
      (streamLines (s₀.unserved false)).length = 3 := ⟨_, rfl, rfl, by decide⟩
  obtain ⟨s, hrun, hprogram, hsent⟩ : ∃ s : Server Bool (List (List UInt8)) ℕ,
      Server.run numberLine (fun n lines ↦ .ok (lines.drop n)) { program := [] }
        ([.arrive false [65, 10, 66, 10], .arrive true [67, 10], .arrive false [68, 10]] ++
          .readyRead false :: [.round, .act 1, .arrive false [69, 10], .readyRead true, .round,
            .round]) = .ok s ∧
      s.program = [[66], [68]] ∧ s.sent = [(false, 1), (false, 1), (false, 2)] :=
    ⟨_, rfl, rfl, rfl⟩
  refine ⟨s, hrun, hprogram, hsent, ?_⟩
  exact (run_drains numberLine (fun n lines ↦ .ok (lines.drop n)) [] _ _ false (by decide) hbefore
    hidle (by rw [hunserved]; decide)).of_ok hrun

end Keybinder

import Mathlib.Algebra.Order.Group.Unbundled.Int
import Mathlib.Data.List.Infix
import Keybinder.Library.Framing

/-!
# The lines of a client

A connection appends what it receives to a buffer and handles the buffer
line by line.  The index of a newline is kept in an `int`, which the index
of a buffer need not fit: the lines are handled as they were sent exactly
when each is short enough, however the stream was cut.
-/

namespace Keybinder

def newline : UInt8 := 10

def carriageReturn : UInt8 := 13

/-- The number of values of an `int`. -/
def intSize : ℕ := 4294967296

def intMax : ℕ := 2147483647

/-- The result of `indexOf`, converted to an `int`. -/
def newlineIndex (buffer : List UInt8) : ℤ :=
  match buffer.idxOf? newline with
  | none => -1
  | some i => Int.bmod i intSize

/-- A line without the carriage return at its end. -/
def chopLine (line : List UInt8) : List UInt8 :=
  if line.getLast? = some carriageReturn then line.dropLast else line

/-- What a connection keeps, with the state of the program and the responses
sent so far. -/
structure ClientConnection (σ ρ : Type) where
  buffer : List UInt8 := []
  program : σ
  responses : List ρ := []

namespace ClientConnection

variable {σ ρ : Type} (handle : List UInt8 → σ → σ × ρ)

def respond (c : ClientConnection σ ρ) (line : List UInt8) : ClientConnection σ ρ :=
  { c with
    program := (handle line c.program).1
    responses := c.responses ++ [(handle line c.program).2] }

/-- The loop of `read_data`, for at most the given number of rounds.  Without
a result the loop goes on, or the sum `newline_index + 1` overflowed.
`left` and `remove` take a negative count for zero. -/
def readLines : ℕ → ClientConnection σ ρ → Option (ClientConnection σ ρ)
  | 0, _ => none
  | fuel + 1, c =>
      let idx := newlineIndex c.buffer
      if idx = -1 then some c
      else
        let line := chopLine (c.buffer.take idx.toNat)
        if idx = intMax then none
        else readLines fuel
          { c.respond handle line with buffer := c.buffer.drop (idx + 1).toNat }

/-- `read_data`, when the socket has the given bytes. -/
def readData (fuel : ℕ) (c : ClientConnection σ ρ) (bytes : List UInt8) :
    Option (ClientConnection σ ρ) :=
  readLines handle fuel { c with buffer := c.buffer ++ bytes }

end ClientConnection

def streamLines (stream : List UInt8) : List (List UInt8) :=
  (Framing.pieces newline stream).map chopLine

/-- However a stream is cut, its lines are handled in their order, with one
response each, and the bytes after the last newline are kept. -/
def FramedByLines (stream : List UInt8) : Prop :=
  ∀ {σ ρ : Type} (handle : List UInt8 → σ → σ × ρ) (program : σ) (deliveries : List (List UInt8)),
    deliveries.flatten = stream → ∃ fuel,
      deliveries.foldlM (ClientConnection.readData handle fuel) { program } =
        some { (streamLines stream).foldl (ClientConnection.respond handle) { program } with
          buffer := Framing.remainder newline stream }

/-! ## One round of the loop -/

theorem newlineIndex_of_notMem {s : List UInt8} (h : newline ∉ s) : newlineIndex s = -1 := by
  rw [newlineIndex, List.idxOf?_eq_none_iff.mpr h]

theorem newlineIndex_append_cons {l : List UInt8} (h : newline ∉ l) (s : List UInt8) :
    newlineIndex (l ++ newline :: s) = Int.bmod l.length intSize := by
  have hidx : (l ++ newline :: s).idxOf? newline = some l.length := by
    induction l with
    | nil => simp [List.idxOf?_cons]
    | cons byte l ih =>
        rw [List.mem_cons, not_or] at h
        obtain ⟨hne, hl⟩ := h
        have hbyte : (byte == newline) = false := beq_eq_false_iff_ne.mpr (Ne.symm hne)
        simp [List.idxOf?_cons, hbyte, ih hl]
  rw [newlineIndex, hidx]

theorem bmod_of_lt_intMax {n : ℕ} (h : n < intMax) : Int.bmod n intSize = n := by
  rw [Int.bmod_def]
  unfold intSize intMax at *
  split <;> omega

theorem bmod_cases {n : ℕ} (h : intMax ≤ n) : Int.bmod n intSize = intMax ∨
    Int.bmod n intSize < 0 ∨ 0 ≤ Int.bmod n intSize ∧ Int.bmod n intSize + 1 < n := by
  rw [Int.bmod_def]
  unfold intSize intMax at *
  split <;> omega

namespace ClientConnection

variable {σ ρ : Type} {handle : List UInt8 → σ → σ × ρ} {c c' : ClientConnection σ ρ}
  {l s : List UInt8} {fuel : ℕ}

theorem readLines_of_notMem (h : newline ∉ c.buffer) : readLines handle (fuel + 1) c = some c := by
  simp [readLines, newlineIndex_of_notMem h]

theorem readLines_append_cons (hc : c.buffer = l ++ newline :: s) (hl : newline ∉ l)
    (hshort : l.length < intMax) : readLines handle (fuel + 1) c =
      readLines handle fuel { c.respond handle (chopLine l) with buffer := s } := by
  have hidx : newlineIndex (l ++ newline :: s) = l.length := by
    rw [newlineIndex_append_cons hl, bmod_of_lt_intMax hshort]
  have hfirst : (l.length : ℤ) ≠ -1 := by omega
  have hmax : (l.length : ℤ) ≠ intMax := by omega
  have hnat : ((l.length : ℤ) + 1).toNat = l.length + 1 := by omega
  rw [readLines]
  simp only [hc, hidx, hfirst, hmax, if_false, Int.toNat_natCast, hnat, List.take_left',
    List.drop_append, Nat.add_sub_cancel_left, List.drop_one, List.tail_cons]
  rw [List.drop_eq_nil_of_le (Nat.le_succ _), List.nil_append]

theorem foldl_respond_buffer (lines : List (List UInt8)) (c : ClientConnection σ ρ)
    (b b' : List UInt8) : { lines.foldl (respond handle) { c with buffer := b } with buffer := b' } =
      { lines.foldl (respond handle) c with buffer := b' } := by
  induction lines generalizing c with
  | nil => rfl
  | cons line lines ih => exact ih (c.respond handle line)

theorem readLines_of_short (s : List UInt8)
    (hshort : ∀ l ∈ Framing.pieces newline s, l.length < intMax)
    (hc : c.buffer = s) (hfuel : (Framing.pieces newline s).length < fuel) :
    readLines handle fuel c = some { (streamLines s).foldl (respond handle) c with
      buffer := Framing.remainder newline s } := by
  induction s using Framing.stream_induction newline generalizing c fuel with
  | hnone s h =>
      obtain ⟨fuel, rfl⟩ := Nat.exists_eq_add_one_of_ne_zero (Nat.ne_zero_of_lt hfuel)
      rw [readLines_of_notMem (hc ▸ h), streamLines, Framing.pieces_of_notMem h,
        Framing.remainder_of_notMem h, ← hc]
      rfl
  | hpiece l s hl ih =>
      obtain ⟨fuel, rfl⟩ := Nat.exists_eq_add_one_of_ne_zero (Nat.ne_zero_of_lt hfuel)
      rw [Framing.pieces_append_cons hl] at hshort hfuel
      rw [readLines_append_cons hc hl (hshort l (by simp)),
        ih (fun l' hl' ↦ hshort l' (List.mem_cons_of_mem _ hl')) rfl (by simpa using hfuel),
        streamLines, streamLines, Framing.pieces_append_cons hl, Framing.remainder_append_cons hl,
        foldl_respond_buffer]
      rfl

variable (handle) in
def arrived (c : ClientConnection σ ρ) (s : List UInt8) : ClientConnection σ ρ :=
  { (streamLines s).foldl (respond handle) c with buffer := Framing.remainder newline s }

theorem readData_arrived (s bytes : List UInt8)
    (hshort : ∀ l ∈ Framing.pieces newline (s ++ bytes), l.length < intMax)
    (hfuel : (Framing.pieces newline (s ++ bytes)).length < fuel) :
    readData handle fuel (arrived handle c s) bytes = some (arrived handle c (s ++ bytes)) := by
  rw [Framing.pieces_append] at hshort hfuel
  have hfuel' : (Framing.pieces newline (Framing.remainder newline s ++ bytes)).length < fuel := by
    rw [List.length_append] at hfuel
    omega
  rw [readData, readLines_of_short (Framing.remainder newline s ++ bytes)
    (fun l hl ↦ hshort l (List.mem_append_right _ hl)) rfl hfuel', foldl_respond_buffer]
  have hlines : streamLines (s ++ bytes) =
      streamLines s ++ streamLines (Framing.remainder newline s ++ bytes) := by
    rw [streamLines, Framing.pieces_append, List.map_append, streamLines, streamLines]
  rw [arrived, arrived, foldl_respond_buffer, hlines, List.foldl_append, ← Framing.remainder_append]

theorem deliveries_arrived (deliveries : List (List UInt8)) (s : List UInt8)
    (hshort : ∀ l ∈ Framing.pieces newline (s ++ deliveries.flatten), l.length < intMax)
    (hfuel : (Framing.pieces newline (s ++ deliveries.flatten)).length < fuel) :
    deliveries.foldlM (readData handle fuel) (arrived handle c s) =
      some (arrived handle c (s ++ deliveries.flatten)) := by
  induction deliveries generalizing s with
  | nil => simp
  | cons bytes deliveries ih =>
      rw [List.flatten_cons, ← List.append_assoc] at hshort hfuel ⊢
      have hsplit := Framing.pieces_append (d := newline) (s ++ bytes) deliveries.flatten
      have hfuel' : (Framing.pieces newline (s ++ bytes)).length < fuel := by
        rw [hsplit, List.length_append] at hfuel
        omega
      rw [List.foldlM_cons, readData_arrived s bytes
        (fun l hl ↦ hshort l (hsplit ▸ List.mem_append_left _ hl)) hfuel']
      exact ih (s ++ bytes) hshort hfuel

/-! ## Lines that are too long -/

/-- With an index below -1 the loop stays where it is. -/
theorem readLines_of_negative (h : newlineIndex c.buffer < -1) : readLines handle fuel c = none := by
  induction fuel generalizing c with
  | zero => rfl
  | succ fuel ih =>
      have hne : newlineIndex c.buffer ≠ -1 := by omega
      have hmax : newlineIndex c.buffer ≠ intMax := by omega
      have hstay : (newlineIndex c.buffer + 1).toNat = 0 := by omega
      rw [readLines]
      simp only [hne, hmax, if_false, hstay, List.drop_zero]
      exact ih h

end ClientConnection

/-- A handler that keeps the lines it is given. -/
def keepLine (line : List UInt8) (kept : List (List UInt8)) : List (List UInt8) × Unit :=
  (kept ++ [line], ())

theorem length_chopLine_le (line : List UInt8) : (chopLine line).length ≤ line.length := by
  unfold chopLine
  split
  · rw [List.length_dropLast]
    exact Nat.sub_le _ _
  · exact Nat.le_refl _

theorem le_length_chopLine (line : List UInt8) : line.length ≤ (chopLine line).length + 1 := by
  unfold chopLine
  split
  · rw [List.length_dropLast]
    omega
  · exact Nat.le_succ _

namespace ClientConnection

variable {c c' : ClientConnection (List (List UInt8)) Unit} {l s : List UInt8} {fuel : ℕ}

theorem foldl_keepLine (lines : List (List UInt8)) (c : ClientConnection (List (List UInt8)) Unit) :
    (lines.foldl (respond keepLine) c).program = c.program ++ lines := by
  induction lines generalizing c with
  | nil => simp
  | cons line lines ih =>
      rw [List.foldl_cons, ih]
      simp [respond, keepLine]

theorem kept_of_readLines (h : readLines keepLine fuel c = some c') : c.program <+: c'.program := by
  induction fuel generalizing c with
  | zero => cases h
  | succ fuel ih =>
      rw [readLines] at h
      simp only at h
      split at h
      · cases h
        exact List.prefix_rfl
      · split at h
        · cases h
        · exact (List.prefix_append _ _).trans (ih h)

/-- On a long line the loop stops, or it handles a shorter one. -/
theorem readLines_of_long (hc : c.buffer = l ++ newline :: s) (hl : newline ∉ l)
    (hlong : intMax ≤ l.length) (h : readLines keepLine fuel c = some c') :
    c'.program = c.program ∨
      ∃ line, line.length + 1 < l.length ∧ c.program ++ [line] <+: c'.program := by
  cases fuel with
  | zero => cases h
  | succ fuel =>
      have hidx : newlineIndex c.buffer = Int.bmod l.length intSize := by
        rw [hc, newlineIndex_append_cons hl]
      rcases bmod_cases hlong with hmax | hneg | ⟨hnonneg, hlt⟩
      · have hne : (intMax : ℤ) ≠ -1 := by decide
        rw [readLines] at h
        simp [hidx, hmax, hne] at h
      · by_cases hlast : newlineIndex c.buffer = -1
        · rw [readLines] at h
          simp only [hlast, if_true] at h
          cases h
          exact .inl rfl
        · rw [readLines_of_negative (by omega)] at h
          cases h
      · have hne : newlineIndex c.buffer ≠ -1 := by omega
        rw [readLines] at h
        simp only [hne, if_false] at h
        split at h
        · cases h
        · refine .inr ⟨_, ?_, kept_of_readLines h⟩
          have hchop := length_chopLine_le (c.buffer.take (newlineIndex c.buffer).toNat)
          rw [List.length_take] at hchop
          omega

theorem short_of_readLines (s : List UInt8) (hc : c.buffer = s)
    (h : readLines keepLine fuel c = some c') (hlines : c'.program = c.program ++ streamLines s) :
    ∀ l ∈ Framing.pieces newline s, l.length < intMax := by
  induction s using Framing.stream_induction newline generalizing c fuel with
  | hnone s hs => simp [Framing.pieces_of_notMem hs]
  | hpiece l s hl ih =>
      have hfirst : streamLines (l ++ newline :: s) = chopLine l :: streamLines s := by
        rw [streamLines, Framing.pieces_append_cons hl, List.map_cons, streamLines]
      rw [hfirst] at hlines
      have hshort : l.length < intMax := by
        by_contra hlong
        rcases readLines_of_long hc hl (Nat.le_of_not_lt hlong) h with hnone | ⟨line, hlt, hbefore⟩
        · rw [hnone] at hlines
          simpa using congrArg List.length hlines
        · rw [hlines] at hbefore
          obtain rfl : line = chopLine l := by
            simpa using (List.prefix_append_right_inj _).mp hbefore
          have hchop := le_length_chopLine l
          omega
      rw [Framing.pieces_append_cons hl]
      intro l' hl'
      rcases List.mem_cons.mp hl' with rfl | hl'
      · exact hshort
      · cases fuel with
        | zero => cases h
        | succ fuel =>
            rw [readLines_append_cons hc hl hshort] at h
            refine ih rfl h ?_ l' hl'
            rw [hlines]
            simp [respond, keepLine]

end ClientConnection

/-! ## When the lines are those of the stream -/

/-- A stream of one line that is two gibibytes long. -/
def longLine : List UInt8 := List.replicate intMax 0 ++ [newline]

theorem longLine_pieces : Framing.pieces newline longLine = [List.replicate intMax 0] := by
  have hnot : newline ∉ List.replicate intMax (0 : UInt8) := by
    intro h
    exact absurd (List.eq_of_mem_replicate h) (by decide)
  rw [longLine, Framing.pieces_append_cons hnot, Framing.pieces_of_notMem List.not_mem_nil]

theorem short_of_framedByLines {stream : List UInt8} (h : FramedByLines stream) :
    ∀ line ∈ Framing.pieces newline stream, line.length < intMax := by
  obtain ⟨fuel, hread⟩ := h keepLine [] [stream] (by simp)
  simp only [List.foldlM_cons, List.foldlM_nil, bind_pure] at hread
  refine ClientConnection.short_of_readLines stream (List.nil_append _) hread ?_
  exact ClientConnection.foldl_keepLine _ _

theorem longLine_not_framedByLines : ¬ FramedByLines longLine := by
  intro h
  have hshort := short_of_framedByLines h (List.replicate intMax 0) (by simp [longLine_pieces])
  rw [List.length_replicate] at hshort
  exact Nat.lt_irrefl _ hshort

/-- The lines of a stream are handled as they were sent, however the stream
is cut, exactly when the index after each of them is an `int`. -/
theorem framedByLines_iff (stream : List UInt8) : FramedByLines stream ↔
    ∀ line ∈ Framing.pieces newline stream, line.length < intMax := by
  refine ⟨fun h ↦ short_of_framedByLines h, ?_⟩
  rintro hshort σ ρ handle program deliveries rfl
  let c : ClientConnection σ ρ := { program }
  have hstart : c.arrived handle [] = c := rfl
  refine ⟨(Framing.pieces newline deliveries.flatten).length + 1, ?_⟩
  have hall : deliveries.foldlM (ClientConnection.readData handle _) (c.arrived handle []) =
      some (c.arrived handle ([] ++ deliveries.flatten)) :=
    ClientConnection.deliveries_arrived deliveries [] hshort (Nat.lt_succ_self _)
  rw [hstart] at hall
  exact hall

end Keybinder

import Mathlib.Data.List.TakeWhile
import Keybinder.LineFraming

/-!
# The focus of applications on macOS

The daemon listens to a program that writes a line whenever another
application comes to the front, and looks in the line for the quoted name of
the application.
-/

namespace Keybinder

namespace AppFocusListener

def bufferSize : ℕ := 512

def quote : UInt8 := 34

/-- `affectedASN="` -/
def asnPrefix : List UInt8 := [97, 102, 102, 101, 99, 116, 101, 100, 65, 83, 78, 61, 34]

/-- `fgets` with room for some characters and the final zero. -/
def fgets : ℕ → List UInt8 → List UInt8 × List UInt8
  | 0, stream => ([], stream)
  | _ + 1, [] => ([], [])
  | n + 1, b :: stream =>
      if b = newline then ([b], stream)
      else
        let (buffer, rest) := fgets n stream
        (b :: buffer, rest)

/-- The group of a match of `affectedASN="([^"]+)"` at the front. -/
def asnAt (s : List UInt8) : Option (List UInt8) :=
  if asnPrefix <+: s then
    let rest := s.drop asnPrefix.length
    -- A quote can only follow the longest run of other characters.
    let name := rest.takeWhile (· ≠ quote)
    if name = [] ∨ rest.dropWhile (· ≠ quote) = [] then none else some name
  else none

/-- `regex_search` -/
def searchAsn : List UInt8 → Option (List UInt8)
  | [] => none
  | b :: bs => (asnAt (b :: bs)).or (searchAsn bs)

/-- The names that the callback is called with, when `stopFlag` is set after
some rounds. -/
def run : ℕ → List UInt8 → List (List UInt8)
  | 0, _ => []
  | _ + 1, [] => []
  | n + 1, b :: stream =>
      let (buffer, rest) := fgets (bufferSize - 1) (b :: stream)
      let line := buffer.takeWhile (· ≠ 0)
      (searchAsn line).toList ++ run n rest

/-! ## The name in a line -/

/-- After some characters a name stands in quotes behind `affectedASN=`. -/
def Quotes (line before name : List UInt8) : Prop :=
  (∃ after, line = before ++ asnPrefix ++ name ++ quote :: after) ∧ name ≠ [] ∧ quote ∉ name

/-- The name that stands first in a line, or that there is none. -/
def Gives (line : List UInt8) : Option (List UInt8) → Prop
  | some name => ∃ before, Quotes line before name ∧
      ∀ before' name', Quotes line before' name' → before.length ≤ before'.length
  | none => ∀ before name, ¬ Quotes line before name

variable {s line stream rest before name : List UInt8} {b b' : UInt8} {n : ℕ}

theorem asnAt_eq_some : asnAt s = some name ↔ Quotes s [] name := by
  unfold asnAt
  constructor
  · intro h
    split at h
    · rename_i hprefix
      obtain ⟨rest, rfl⟩ := hprefix
      rw [List.drop_left] at h
      dsimp only at h
      split at h
      · cases h
      · rename_i hname
        rw [not_or] at hname
        cases h
        refine ⟨?_, hname.1, fun hmem ↦ by simpa using List.mem_takeWhile_imp hmem⟩
        obtain ⟨c, after, hafter⟩ := List.exists_cons_of_ne_nil hname.2
        have hquote : c = quote := by
          have hhead := List.head?_dropWhile_not (· ≠ quote) rest
          rw [hafter] at hhead
          simpa using hhead
        rw [hquote] at hafter
        refine ⟨after, ?_⟩
        rw [List.nil_append, List.append_assoc, ← hafter, List.takeWhile_append_dropWhile]
    · cases h
  · rintro ⟨⟨after, rfl⟩, hname, hquote⟩
    have hrun : ∀ b ∈ name, decide (b ≠ quote) = true := by
      intro b hb
      rw [decide_eq_true_eq]
      rintro rfl
      exact hquote hb
    rw [List.nil_append, List.append_assoc, if_pos (List.prefix_append _ _), List.drop_left]
    dsimp only
    rw [List.takeWhile_append_of_pos hrun, List.dropWhile_append_of_pos hrun]
    simp [hname]

theorem quotes_cons_cons :
    Quotes (b :: s) (b' :: before) name ↔ b = b' ∧ Quotes s before name := by
  simp only [Quotes, List.cons_append, List.cons.injEq, exists_and_left, and_assoc]

/-- The search finds the first match. -/
theorem gives_searchAsn (line : List UInt8) : Gives line (searchAsn line) := by
  induction line with
  | nil =>
      rintro before name ⟨⟨after, h⟩, -⟩
      simp at h
  | cons b s ih =>
      rw [searchAsn]
      cases hfront : asnAt (b :: s) with
      | some name => exact ⟨[], asnAt_eq_some.mp hfront, fun _ _ _ ↦ Nat.zero_le _⟩
      | none =>
          have hno : ∀ name, ¬ Quotes (b :: s) [] name := by
            intro name h
            rw [asnAt_eq_some.mpr h] at hfront
            cases hfront
          rw [Option.none_or]
          cases hrest : searchAsn s with
          | none =>
              rw [hrest] at ih
              rintro (_ | ⟨b', before⟩) name h
              · exact hno name h
              · exact ih before name (quotes_cons_cons.mp h).2
          | some name =>
              rw [hrest] at ih
              obtain ⟨before, hquotes, hfirst⟩ := ih
              refine ⟨b :: before, quotes_cons_cons.mpr ⟨rfl, hquotes⟩, ?_⟩
              rintro (_ | ⟨b', before'⟩) name' h
              · exact (hno name' h).elim
              · exact Nat.succ_le_succ (hfirst before' name' (quotes_cons_cons.mp h).2)

/-- The newline that `fgets` keeps does not matter. -/
theorem quotes_newline : Quotes (line ++ [newline]) before name ↔ Quotes line before name := by
  refine and_congr_left fun _ ↦ ⟨?_, ?_⟩
  · rintro ⟨after, h⟩
    rcases List.eq_nil_or_concat' after with rfl | ⟨after, c, rfl⟩
    · have hlast := (List.append_inj' h rfl).2
      cases hlast
    · rw [← List.cons_append, ← List.append_assoc] at h
      exact ⟨after, (List.append_inj' h rfl).1⟩
  · rintro ⟨after, rfl⟩
    exact ⟨after ++ [newline], by simp⟩

theorem gives_newline {given : Option (List UInt8)} :
    Gives (line ++ [newline]) given ↔ Gives line given := by
  cases given <;> simp only [Gives, quotes_newline]

/-! ## Reading lines -/

/-- The lines of a stream, the last one also when no newline ends it. -/
def fileLines (stream : List UInt8) : List (List UInt8) :=
  let last := Framing.remainder newline stream
  Framing.pieces newline stream ++ if last = [] then [] else [last]

theorem fgets_line (rest : List UInt8) (hline : newline ∉ line) (hlength : line.length < n) :
    fgets n (line ++ newline :: rest) = (line ++ [newline], rest) := by
  induction line generalizing n with
  | nil =>
      cases n with
      | zero => cases hlength
      | succ n => rfl
  | cons b line ih =>
      cases n with
      | zero => cases hlength
      | succ n =>
          rw [List.mem_cons, not_or] at hline
          rw [List.cons_append, fgets, if_neg (Ne.symm hline.1),
            ih hline.2 (Nat.lt_of_succ_lt_succ hlength)]
          rfl

theorem fgets_last (hline : newline ∉ line) (hlength : line.length < n) :
    fgets n line = (line, []) := by
  induction line generalizing n with
  | nil => cases n <;> rfl
  | cons b line ih =>
      cases n with
      | zero => cases hlength
      | succ n =>
          rw [List.mem_cons, not_or] at hline
          rw [fgets, if_neg (Ne.symm hline.1), ih hline.2 (Nat.lt_of_succ_lt_succ hlength)]

/-- A round of the loop that reads a whole line. -/
theorem run_succ {buffer : List UInt8} (hstream : stream ≠ []) (hzero : 0 ∉ buffer)
    (hread : fgets (bufferSize - 1) stream = (buffer, rest)) :
    run (n + 1) stream = (searchAsn buffer).toList ++ run n rest := by
  obtain ⟨b, stream, rfl⟩ := List.exists_cons_of_ne_nil hstream
  have hline : buffer.takeWhile (· ≠ 0) = buffer := by
    rw [List.takeWhile_eq_self_iff]
    intro b hb
    rw [decide_eq_true_eq]
    rintro rfl
    exact hzero hb
  rw [run, hread]
  dsimp only
  rw [hline]

theorem fileLines_of_notMem (h : newline ∉ stream) :
    fileLines stream = if stream = [] then [] else [stream] := by
  rw [fileLines, Framing.pieces_of_notMem h, Framing.remainder_of_notMem h, List.nil_append]

theorem fileLines_append_cons (h : newline ∉ line) (rest : List UInt8) :
    fileLines (line ++ newline :: rest) = line :: fileLines rest := by
  rw [fileLines, Framing.pieces_append_cons h, Framing.remainder_append_cons h]
  rfl

theorem reduceOption_cons_toList {α : Type} (a : Option α) (as : List (Option α)) :
    (a :: as).reduceOption = a.toList ++ as.reduceOption := by
  cases a <;> rfl

/-- As long as no line fills the buffer, the callback is called with the name
that stands first in each line, for the lines read before `stop`. -/
theorem run_names (n : ℕ) (stream : List UInt8) (hzero : 0 ∉ stream)
    (hshort : ∀ line ∈ fileLines stream, line.length + 1 < bufferSize) :
    ∃ given, List.Forall₂ Gives ((fileLines stream).take n) given ∧
      run n stream = given.reduceOption := by
  induction stream using Framing.stream_induction newline generalizing n with
  | hnone stream hline =>
      rw [fileLines_of_notMem hline] at hshort ⊢
      cases n with
      | zero => exact ⟨[], .nil, rfl⟩
      | succ n =>
          split at hshort
          · rename_i hstream
            subst hstream
            exact ⟨[], .nil, rfl⟩
          · rename_i hstream
            have hread := fgets_last hline (Nat.lt_sub_of_add_lt (hshort stream (by simp)))
            refine ⟨[searchAsn stream], ?_, ?_⟩
            · rw [if_neg hstream, List.take_succ_cons, List.take_nil]
              exact .cons (gives_searchAsn stream) .nil
            · rw [run_succ hstream hzero hread, reduceOption_cons_toList]
              cases n <;> rfl
  | hpiece line rest hline ih =>
      rw [fileLines_append_cons hline, List.forall_mem_cons] at hshort
      rw [fileLines_append_cons hline]
      cases n with
      | zero => exact ⟨[], .nil, rfl⟩
      | succ n =>
          simp only [List.mem_append, List.mem_cons, not_or] at hzero
          obtain ⟨given, hgiven, hrun⟩ := ih n hzero.2.2 hshort.2
          have hread := fgets_line rest hline (Nat.lt_sub_of_add_lt hshort.1)
          have hbuffer : 0 ∉ line ++ [newline] := by simpa using ⟨hzero.1, hzero.2.1⟩
          refine ⟨searchAsn (line ++ [newline]) :: given, ?_, ?_⟩
          · rw [List.take_succ_cons]
            exact .cons (gives_newline.mp (gives_searchAsn _)) hgiven
          · rw [run_succ (by simp) hbuffer hread, reduceOption_cons_toList, hrun]

/-- A line with a name, and one without. -/
def twoLines : List UInt8 :=
  [105, 58, 32] ++ asnPrefix ++ [84, 101, 114, 109, quote, newline, 105, 58, newline]

theorem run_names_twoLines : ∃ given,
    List.Forall₂ Gives [[105, 58, 32] ++ asnPrefix ++ [84, 101, 114, 109, quote], [105, 58]]
      given ∧
    run 5 twoLines = given.reduceOption :=
  run_names 5 twoLines (by decide) (by decide)

end AppFocusListener

end Keybinder

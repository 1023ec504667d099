import Mathlib.Data.List.Basic
import Mathlib.Logic.Function.Basic

/-!
# Writers that share a sink

Every writer has a queue of what it still has to write, and all write to one
sink, one item at a time and in any order.  In the sink the items of a writer
stand in the order they were queued; when everything is written, the sink ends
with an item that ends a block.
-/

variable {ι α β : Type}

/-- What each writer has still to write, and what was written and by whom. -/
structure Outbox (ι α : Type) where
  pending : ι → List α := fun _ ↦ []
  written : List (ι × α) := []

namespace Outbox

variable [DecidableEq ι] {o : Outbox ι α} {i j : ι} {xs : List α}

def enqueue (o : Outbox ι α) (i : ι) (xs : List α) : Outbox ι α :=
  { o with pending := Function.update o.pending i (o.pending i ++ xs) }

/-- A writer writes its next item, if it has one. -/
def write (o : Outbox ι α) (i : ι) : Outbox ι α :=
  match o.pending i with
  | [] => o
  | x :: rest => { pending := Function.update o.pending i rest, written := o.written ++ [(i, x)] }

/-- What was written by a writer. -/
def writtenBy (o : Outbox ι α) (i : ι) : List α :=
  o.written.filterMap fun x ↦ if x.1 = i then some x.2 else none

/-- Everything that was queued by a writer. -/
def queuedBy (o : Outbox ι α) (i : ι) : List α := o.writtenBy i ++ o.pending i

@[simp] theorem pending_enqueue_self : (o.enqueue i xs).pending i = o.pending i ++ xs :=
  Function.update_self ..

@[simp] theorem pending_enqueue_of_ne (h : j ≠ i) : (o.enqueue i xs).pending j = o.pending j :=
  Function.update_of_ne h ..

@[simp] theorem queuedBy_enqueue_self : (o.enqueue i xs).queuedBy i = o.queuedBy i ++ xs := by
  rw [queuedBy, pending_enqueue_self, ← List.append_assoc]
  rfl

@[simp] theorem queuedBy_enqueue_of_ne (h : j ≠ i) :
    (o.enqueue i xs).queuedBy j = o.queuedBy j := by
  rw [queuedBy, pending_enqueue_of_ne h]
  rfl

theorem write_of_nil (h : o.pending i = []) : o.write i = o := by
  unfold write
  rw [h]

theorem pending_write_self {x : α} {rest : List α} (h : o.pending i = x :: rest) :
    (o.write i).pending i = rest := by
  unfold write
  rw [h]
  exact Function.update_self ..

theorem pending_write_of_ne (h : j ≠ i) : (o.write i).pending j = o.pending j := by
  unfold write
  split
  · rfl
  · exact Function.update_of_ne h ..

theorem written_write {x : α} {rest : List α} (h : o.pending i = x :: rest) :
    (o.write i).written = o.written ++ [(i, x)] := by
  unfold write
  rw [h]

@[simp] theorem queuedBy_write : (o.write i).queuedBy j = o.queuedBy j := by
  cases hpending : o.pending i with
  | nil => rw [write_of_nil hpending]
  | cons x rest =>
      by_cases hj : j = i
      · subst hj
        simp [queuedBy, writtenBy, pending_write_self hpending, written_write hpending, hpending]
      · simp [queuedBy, writtenBy, pending_write_of_ne hj, written_write hpending, Ne.symm hj]

/-! ## Blocks -/

/-- The last item that `f` shows, if there is one, ends a block. -/
def Ended (f : α → Option β) (mark : β) (xs : List α) : Prop :=
  ∀ b ∈ (xs.filterMap f).getLast?, b = mark

variable {f : α → Option β} {mark : β} {x : α} {ys : List α}

theorem ended_nil : Ended f mark ([] : List α) := by simp [Ended]

theorem Ended.append (hxs : Ended f mark xs) (hys : Ended f mark ys) :
    Ended f mark (xs ++ ys) := by
  intro b hb
  rw [List.filterMap_append, List.getLast?_append, Option.mem_def, Option.or_eq_some_iff] at hb
  rcases hb with hb | ⟨-, hb⟩
  · exact hys b hb
  · exact hxs b hb

theorem ended_append_of_shown (xs : List α) (h : ys.filterMap f ≠ []) :
    Ended f mark (xs ++ ys) ↔ Ended f mark ys := by
  rw [Ended, Ended, List.filterMap_append, List.getLast?_append_of_ne_nil _ h]

theorem Ended.tail (h : Ended f mark (x :: xs)) : Ended f mark xs := by
  by_cases hxs : xs.filterMap f = []
  · simp [Ended, hxs]
  · exact (ended_append_of_shown [x] hxs).mp h

/-- Every queue ends with the end of a block, and so does the sink unless a
writer is inside a block. -/
structure Blocks (f : α → Option β) (mark : β) (o : Outbox ι α) : Prop where
  pending : ∀ i, Ended f mark (o.pending i)
  written : Ended f mark (o.written.map Prod.snd) ∨ ∃ i, (o.pending i).filterMap f ≠ []

omit [DecidableEq ι] in
theorem Blocks.start : Blocks f mark ({} : Outbox ι α) := ⟨fun _ ↦ ended_nil, .inl ended_nil⟩

theorem Blocks.enqueue (h : Blocks f mark o) (i : ι) (hxs : Ended f mark xs) :
    Blocks f mark (o.enqueue i xs) := by
  have hpending : ∀ j, (o.enqueue i xs).pending j = o.pending j ∨
      j = i ∧ (o.enqueue i xs).pending j = o.pending j ++ xs := by
    intro j
    by_cases hj : j = i
    · subst hj
      exact .inr ⟨rfl, pending_enqueue_self⟩
    · exact .inl (pending_enqueue_of_ne hj)
  constructor
  · intro j
    rcases hpending j with heq | ⟨-, heq⟩
    · rw [heq]
      exact h.pending j
    · rw [heq]
      exact (h.pending j).append hxs
  · refine h.written.imp id ?_
    rintro ⟨j, hj⟩
    refine ⟨j, ?_⟩
    rcases hpending j with heq | ⟨-, heq⟩
    · rwa [heq]
    · rw [heq, List.filterMap_append]
      exact List.append_ne_nil_of_left_ne_nil hj _

theorem Blocks.write (h : Blocks f mark o) (i : ι) : Blocks f mark (o.write i) := by
  cases hpending : o.pending i with
  | nil => rwa [write_of_nil hpending]
  | cons x rest =>
      have hblock := h.pending i
      rw [hpending] at hblock
      constructor
      · intro j
        by_cases hj : j = i
        · subst hj
          rw [pending_write_self hpending]
          exact hblock.tail
        · rw [pending_write_of_ne hj]
          exact h.pending j
      · rw [written_write hpending, List.map_append, List.map_singleton]
        by_cases hrest : rest.filterMap f = []
        · cases hx : f x with
          | none =>
              refine h.written.imp (fun hwritten ↦ hwritten.append (by simp [Ended, hx])) ?_
              rintro ⟨j, hj⟩
              have hne : j ≠ i := by
                rintro rfl
                simp [hpending, hx, hrest] at hj
              exact ⟨j, by rwa [pending_write_of_ne hne]⟩
          | some b =>
              left
              have hb : [x].filterMap f ≠ [] := by simp [hx]
              rw [ended_append_of_shown _ hb]
              have hmark := hblock b (by simp [hx, hrest])
              simp [Ended, hx, hmark]
        · exact .inr ⟨i, by rwa [pending_write_self hpending]⟩

omit [DecidableEq ι] in
/-- When nobody has anything to write the sink ends with the end of a
block. -/
theorem Blocks.ended (h : Blocks f mark o) (hquiet : ∀ i, o.pending i = []) :
    Ended f mark (o.written.map Prod.snd) :=
  h.written.resolve_right fun ⟨i, hi⟩ ↦ hi (by rw [hquiet i, List.filterMap_nil])

end Outbox

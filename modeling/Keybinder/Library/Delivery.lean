import Mathlib.Algebra.Order.Group.Multiset
import Mathlib.Tactic.Abel

/-!
# Queues with due times

Entries with a due time are queued, checks hand over the entries that are
due, and now and then the queue is discarded.  The fate of an entry is told
by the steps after it alone: the first check at or after its time, if no
discard comes before that.  Every queue that hands over exactly what is due,
in whatever order, gives each entry its fate.
-/

namespace Delivery

/-- A step, with what a check handed over and what a discard dropped. -/
inductive Step (α : Type) where
  | queue (x : α)
  | check (now : ℕ) (ready : List α)
  | discard (dropped : List α)
  | other

namespace Step

variable {α : Type}

def queued : Step α → List α
  | .queue x => [x]
  | _ => []

def handed : Step α → List α
  | .check _ ready => ready
  | _ => []

def dropped : Step α → List α
  | .discard dropped => dropped
  | _ => []

end Step

/-- What becomes of an entry; steps are numbered. -/
inductive Fate where
  | waiting
  | sent (step : ℕ)
  | discarded (step : ℕ)
  deriving DecidableEq

variable {α : Type} (due : α → ℕ)

/-- What the steps from number `n` on make of an entry that waits. -/
def fate (x : α) : List (Step α) → ℕ → Fate
  | [], _ => .waiting
  | .check now _ :: steps, n => if due x ≤ now then .sent n else fate x steps (n + 1)
  | .discard _ :: _, n => .discarded n
  | _ :: steps, n => fate x steps (n + 1)

/-- The entries that the steps from number `n` on queue, with their fates. -/
def accounts : List (Step α) → ℕ → List (α × Fate)
  | [], _ => []
  | .queue x :: steps, n => (x, fate due x steps (n + 1)) :: accounts steps (n + 1)
  | _ :: steps, n => accounts steps (n + 1)

def withFate (f : Fate) (all : List (α × Fate)) : List α :=
  (all.filter fun a ↦ a.2 = f).map Prod.fst

/-- A check splits the queue into what waits and what is due. -/
structure Splits (now : ℕ) (queue waiting ready : List α) : Prop where
  perm : (waiting ++ ready).Perm queue
  waiting : ∀ x ∈ waiting, now < due x
  ready : ∀ x ∈ ready, due x ≤ now

/-- The steps lead from one queue to another. -/
inductive Run : List α → List (Step α) → List α → Prop
  | nil (q : List α) : Run q [] q
  | queue {q q' : List α} {x : α} {steps : List (Step α)} (hrun : Run (q ++ [x]) steps q') :
      Run q (.queue x :: steps) q'
  | check {q q' waiting ready : List α} {now : ℕ} {steps : List (Step α)}
      (hsplits : Splits due now q waiting ready) (hrun : Run waiting steps q') :
      Run q (.check now ready :: steps) q'
  | discard {q q' : List α} {steps : List (Step α)} (hrun : Run [] steps q') :
      Run q (.discard q :: steps) q'
  | other {q q' : List α} {steps : List (Step α)} (hrun : Run q steps q') :
      Run q (.other :: steps) q'

variable {due} {q q' q'' : List α} {steps steps' : List (Step α)} {n k : ℕ} {x : α} {f : Fate}

theorem Run.append (h : Run due q steps q') (h' : Run due q' steps' q'') :
    Run due q (steps ++ steps') q'' := by
  induction h with
  | nil => exact h'
  | queue _ ih => exact .queue (ih h')
  | check hsplits _ ih => exact .check hsplits (ih h')
  | discard _ ih => exact .discard (ih h')
  | other _ ih => exact .other (ih h')

theorem Run.queues (q queued : List α) : Run due q (queued.map .queue) (q ++ queued) := by
  induction queued generalizing q with
  | nil =>
      rw [List.append_nil]
      exact .nil q
  | cons x queued ih =>
      have hrest := ih (q ++ [x])
      rw [List.append_assoc] at hrest
      exact .queue hrest

theorem Run.others (q : List α) (steps : List (Step α)) (h : ∀ s ∈ steps, s = .other) :
    Run due q steps q := by
  induction steps with
  | nil => exact .nil q
  | cons s steps ih =>
      obtain rfl := h s List.mem_cons_self
      exact .other (ih fun s hs ↦ h s (List.mem_cons_of_mem _ hs))

@[simp] theorem withFate_nil : withFate f ([] : List (α × Fate)) = [] := rfl

@[simp] theorem withFate_append (all all' : List (α × Fate)) :
    withFate f (all ++ all') = withFate f all ++ withFate f all' := by
  simp [withFate]

theorem withFate_perm {all all' : List (α × Fate)} (h : all.Perm all') :
    (withFate f all).Perm (withFate f all') :=
  (h.filter _).map _

theorem withFate_same (xs : List α) (g : Fate) :
    withFate f (xs.map fun x ↦ (x, g)) = if g = f then xs else [] := by
  by_cases h : g = f <;> simp [withFate, h, List.filter_map, Function.comp_def]

theorem le_of_fate (h : fate due x steps n = .sent k ∨ fate due x steps n = .discarded k) :
    n ≤ k := by
  induction steps generalizing n with
  | nil => rcases h with h | h <;> cases h
  | cons s steps ih =>
      cases s with
      | queue y => exact Nat.le_of_succ_le (ih h)
      | check now ready =>
          rw [fate] at h
          split at h
          · rcases h with h | h
            · cases h
              exact Nat.le_refl _
            · cases h
          · exact Nat.le_of_succ_le (ih h)
      | discard dropped =>
          rcases h with h | h
          · cases h
          · cases h
            exact Nat.le_refl _
      | other => exact Nat.le_of_succ_le (ih h)

variable (due) in
/-- The entries of a queue and those that the steps queue, with their
fates. -/
def book (q : List α) (steps : List (Step α)) (n : ℕ) : List (α × Fate) :=
  q.map (fun x ↦ (x, fate due x steps n)) ++ accounts due steps n

theorem le_of_mem_accounts {a : α × Fate} (ha : a ∈ accounts due steps n)
    (h : a.2 = .sent k ∨ a.2 = .discarded k) : n ≤ k := by
  induction steps generalizing n with
  | nil => cases ha
  | cons s steps ih =>
      cases s with
      | queue x =>
          rcases List.mem_cons.mp ha with rfl | ha
          · exact Nat.le_of_succ_le (le_of_fate h)
          · exact Nat.le_of_succ_le (ih ha)
      | check now ready => exact Nat.le_of_succ_le (ih ha)
      | discard dropped => exact Nat.le_of_succ_le (ih ha)
      | other => exact Nat.le_of_succ_le (ih ha)

theorem withFate_book_of_lt (hk : k < n) (hf : f = .sent k ∨ f = .discarded k) :
    withFate f (book due q steps n) = [] := by
  have hnone : ∀ a ∈ book due q steps n, a.2 ≠ f := by
    rintro a ha rfl
    apply Nat.not_le_of_lt hk
    rcases List.mem_append.mp ha with ha | ha
    · obtain ⟨x, -, rfl⟩ := List.mem_map.mp ha
      exact le_of_fate hf
    · exact le_of_mem_accounts ha hf
  rw [withFate, List.filter_eq_nil_iff.mpr fun a ha ↦ by simpa using hnone a ha, List.map_nil]

theorem book_queue (q : List α) (x : α) (steps : List (Step α)) (n : ℕ) :
    book due q (.queue x :: steps) n = book due (q ++ [x]) steps (n + 1) := by
  simp [book, fate, accounts]

/-- What a check hands over is sent by it; the rest waits on. -/
theorem book_check {waiting ready : List α} {now : ℕ} (h : Splits due now q waiting ready)
    (steps : List (Step α)) (n : ℕ) : (book due q (.check now ready :: steps) n).Perm
      (book due waiting steps (n + 1) ++ ready.map fun x ↦ (x, .sent n)) := by
  have hq := h.perm.symm.map fun x ↦ (x, fate due x (.check now ready :: steps) n)
  have hwaiting : waiting.map (fun x ↦ (x, fate due x (.check now ready :: steps) n)) =
      waiting.map fun x ↦ (x, fate due x steps (n + 1)) := by
    apply List.map_congr_left
    intro x hx
    rw [fate, if_neg (Nat.not_le_of_lt (h.waiting x hx))]
  have hready : ready.map (fun x ↦ (x, fate due x (.check now ready :: steps) n)) =
      ready.map fun x ↦ (x, .sent n) := by
    apply List.map_congr_left
    intro x hx
    rw [fate, if_pos (h.ready x hx)]
  rw [List.map_append, hwaiting, hready] at hq
  have haccounts : accounts due (.check now ready :: steps) n = accounts due steps (n + 1) := rfl
  rw [book, book, haccounts]
  refine (hq.append_right _).trans ?_
  rw [List.append_assoc, List.append_assoc]
  exact List.perm_append_comm.append_left _

theorem book_discard (q : List α) (steps : List (Step α)) (n : ℕ) :
    book due q (.discard q :: steps) n =
      (q.map fun x ↦ (x, .discarded n)) ++ book due [] steps (n + 1) := by
  simp [book, fate, accounts]

theorem book_other (q : List α) (steps : List (Step α)) (n : ℕ) :
    book due q (.other :: steps) n = book due q steps (n + 1) := rfl

/-- A list of entries with their fates accounts for what is still queued,
and for what each step from number `n` on handed over or dropped. -/
structure Accounted (all : List (α × Fate)) (q' : List α) (steps : List (Step α)) (n : ℕ) :
    Prop where
  waiting : q'.Perm (withFate .waiting all)
  sent : ∀ (j now : ℕ) (ready : List α), steps[j]? = some (.check now ready) →
    ready.Perm (withFate (.sent (n + j)) all)
  discarded : ∀ (j : ℕ) (dropped : List α), steps[j]? = some (.discard dropped) →
    dropped.Perm (withFate (.discarded (n + j)) all)

theorem Accounted.cons {all all' : List (α × Fate)} {s : Step α}
    (h : Accounted all q' steps (n + 1))
    (hrest : ∀ f, f ≠ .sent n → f ≠ .discarded n → (withFate f all).Perm (withFate f all'))
    (hcheck : ∀ now ready, s = .check now ready → ready.Perm (withFate (.sent n) all'))
    (hdiscard : ∀ dropped, s = .discard dropped → dropped.Perm (withFate (.discarded n) all')) :
    Accounted all' q' (s :: steps) n := by
  refine ⟨h.waiting.trans (hrest _ (by simp) (by simp)), ?_, ?_⟩
  · intro j now ready hj
    cases j with
    | zero => exact hcheck now ready (Option.some.inj hj)
    | succ j =>
        have hperm := (h.sent j now ready hj).trans
          (hrest _ (by simp [Nat.add_assoc]) (by simp))
        rwa [Nat.add_assoc, Nat.add_comm 1 j] at hperm
  · intro j dropped hj
    cases j with
    | zero => exact hdiscard dropped (Option.some.inj hj)
    | succ j =>
        have hperm := (h.discarded j dropped hj).trans
          (hrest _ (by simp) (by simp [Nat.add_assoc]))
        rwa [Nat.add_assoc, Nat.add_comm 1 j] at hperm

/-- Every queue, every check and every discard has the entries of its fate. -/
theorem Run.accounted (h : Run due q steps q') (n : ℕ) :
    Accounted (book due q steps n) q' steps n := by
  induction h generalizing n with
  | nil q =>
      have hbook : book due q [] n = q.map fun x ↦ (x, .waiting) := by simp [book, fate, accounts]
      refine ⟨?_, by simp, by simp⟩
      rw [hbook, withFate_same, if_pos rfl]
  | queue hrun ih =>
      rw [book_queue]
      exact (ih (n + 1)).cons (fun f _ _ ↦ .refl _) (by simp) (by simp)
  | @check q q' waiting ready now steps hsplits hrun ih =>
      have hbook : ∀ f, (withFate f (book due waiting steps (n + 1)) ++
          if .sent n = f then ready else []).Perm
            (withFate f (book due q (.check now ready :: steps) n)) := by
        intro f
        have hperm := (withFate_perm (f := f) (book_check hsplits steps n)).symm
        rwa [withFate_append, withFate_same] at hperm
      refine (ih (n + 1)).cons ?_ ?_ (by simp)
      · intro f hsent _
        simpa [Ne.symm hsent] using hbook f
      · intro now' ready' hs
        obtain ⟨-, rfl⟩ := Step.check.inj hs
        have hsent := hbook (.sent n)
        rwa [withFate_book_of_lt (Nat.lt_succ_self n) (.inl rfl), if_pos rfl] at hsent
  | @discard q q' steps hrun ih =>
      have hbook : ∀ f, withFate f (book due q (.discard q :: steps) n) =
          (if .discarded n = f then q else []) ++ withFate f (book due [] steps (n + 1)) := by
        intro f
        rw [book_discard, withFate_append, withFate_same]
      refine (ih (n + 1)).cons ?_ (by simp) ?_
      · intro f _ hdiscarded
        rw [hbook, if_neg (Ne.symm hdiscarded), List.nil_append]
      · intro dropped hs
        obtain rfl := Step.discard.inj hs
        rw [hbook, withFate_book_of_lt (Nat.lt_succ_self n) (.inr rfl), if_pos rfl, List.append_nil]
  | other hrun ih =>
      rw [book_other]
      exact (ih (n + 1)).cons (fun f _ _ ↦ .refl _) (by simp) (by simp)

theorem accounts_fst (steps : List (Step α)) (n : ℕ) :
    (accounts due steps n).map Prod.fst = steps.flatMap Step.queued := by
  induction steps generalizing n with
  | nil => rfl
  | cons s steps ih =>
      cases s <;> simp [accounts, Step.queued, ih]

theorem Run.conserved (h : Run due q steps q') : (q ++ steps.flatMap Step.queued).Perm
    (q' ++ (steps.flatMap Step.handed ++ steps.flatMap Step.dropped)) := by
  induction h with
  | nil q => simp
  | queue hrun ih => simpa [Step.queued, Step.handed, Step.dropped] using ih
  | @check q q' waiting ready now steps hsplits hrun ih =>
      have hq := Multiset.coe_eq_coe.mpr hsplits.perm
      have hrest := Multiset.coe_eq_coe.mpr ih
      apply Multiset.coe_eq_coe.mp
      simp only [← Multiset.coe_add, List.flatMap_cons, Step.queued, Step.handed, Step.dropped,
        List.nil_append] at hq hrest ⊢
      rw [← hq, add_right_comm, hrest]
      abel
  | @discard q q' steps hrun ih =>
      have hrest := Multiset.coe_eq_coe.mpr ih
      apply Multiset.coe_eq_coe.mp
      simp only [← Multiset.coe_add, List.flatMap_cons, Step.queued, Step.handed, Step.dropped,
        List.nil_append] at hrest ⊢
      rw [hrest]
      abel
  | other hrun ih => simpa [Step.queued, Step.handed, Step.dropped] using ih

end Delivery

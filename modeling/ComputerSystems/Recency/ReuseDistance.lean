import Mathlib.Data.List.Basic
import ComputerSystems.Recency.Order

/-!
# Reuse distance

The reuse distance of an element is the number of different elements used since its last
use. Among the `k` most recently used elements are exactly those that were used and have
a reuse distance below `k`, so the uses that a least recently used cache of `k` places
answers are counted from the history alone.
-/

namespace ComputerSystems.Recency

universe u

variable {α : Type u} [DecidableEq α]

/-- The number of different elements used since the last use of `x`, or ever if there was
none. -/
def reuseDistance (x : α) (history : List α) : Nat :=
  (recents (history.takeWhile (· ≠ x))).length

/-- The number of uses in a history that find their element among the `capacity` most
recently used ones. -/
def recentUses (capacity : Nat) : List α → Nat
  | [] => 0
  | x :: history =>
      recentUses capacity history +
        if x ∈ history ∧ reuseDistance x history < capacity then 1 else 0

theorem recentUses_cons (capacity : Nat) (x : α) (history : List α) :
    recentUses capacity (x :: history) =
      recentUses capacity history +
        if x ∈ history ∧ reuseDistance x history < capacity then 1 else 0 :=
  rfl

/-- What was used since the last use of an element stands before it in the order. -/
theorem recents_eq_append_of_mem {x : α} {history : List α} (used : x ∈ history) :
    ∃ older, recents history = recents (history.takeWhile (· ≠ x)) ++ x :: older := by
  induction history with
  | nil => exact absurd used List.not_mem_nil
  | cons y history ih =>
      by_cases same : y = x
      · subst same
        exact ⟨(recents history).filter (· ≠ y), by simp [recents_cons, promote]⟩
      · have earlier : x ∈ history := (List.mem_cons.mp used).resolve_left (Ne.symm same)
        rcases ih earlier with ⟨older, split⟩
        have since : (y :: history).takeWhile (· ≠ x) = y :: history.takeWhile (· ≠ x) := by
          simp [same]
        refine ⟨older.filter (· ≠ y), ?_⟩
        rw [since, recents_cons, recents_cons, split]
        simp [promote, Ne.symm same]

theorem mem_take_recents_iff {x : α} {history : List α} {k : Nat} :
    x ∈ (recents history).take k ↔ x ∈ history ∧ reuseDistance x history < k := by
  constructor
  · intro front
    have used : x ∈ history := mem_recents_iff.mp (List.mem_of_mem_take front)
    refine ⟨used, ?_⟩
    rcases recents_eq_append_of_mem used with ⟨older, split⟩
    by_contra far
    have distinct := nodup_recents history
    rw [split] at front distinct
    rw [List.take_append_of_le_length (Nat.le_of_not_lt far)] at front
    exact (List.nodup_append.mp distinct).2.2 x (List.mem_of_mem_take front) x
      List.mem_cons_self rfl
  · rintro ⟨used, near⟩
    rcases recents_eq_append_of_mem used with ⟨older, split⟩
    rw [split, List.mem_take_iff_getElem]
    refine ⟨reuseDistance x history, ?_, ?_⟩
    · simp only [reuseDistance, List.length_append, List.length_cons] at near ⊢
      omega
    · simp [reuseDistance]

theorem recents_filter (keep : α → Bool) (history : List α) :
    (recents history).filter keep = recents (history.filter keep) := by
  induction history with
  | nil => rfl
  | cons x history ih =>
      by_cases kept : keep x = true
      · rw [List.filter_cons_of_pos kept, recents_cons, recents_cons, ← ih, promote, promote,
          List.filter_cons_of_pos kept, List.filter_filter, List.filter_filter]
        simp only [Bool.and_comm]
      · rw [List.filter_cons_of_neg kept, recents_cons, promote, List.filter_cons_of_neg kept,
          ← ih, List.filter_filter]
        apply List.filter_congr
        intro y _
        by_cases same : y = x
        · simp [same, kept]
        · simp [same]

end ComputerSystems.Recency

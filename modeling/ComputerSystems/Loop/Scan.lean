import Mathlib.Logic.Function.Basic

/-!
# Loops over array indices

An array is a function on indices; a `for` loop over a range of them is a
structural recursion on the number of iterations left. Two loops recur: the
search that leaves at the first index whose cell holds a key, and the search
for the first index with the largest cell.
-/

namespace ComputerSystems.Loop

universe u

variable {α : Type u} [DecidableEq α]

/-- The index at which `for (i = from; i < from + count; i++)` breaks when it
looks for `key`. -/
def firstIndex (cells : Nat → α) (key : α) : Nat → Nat → Option Nat
  | _, 0 => none
  | i, count + 1 => if cells i = key then some i else firstIndex cells key (i + 1) count

theorem firstIndex_eq_none_iff {cells : Nat → α} {key : α} {i count : Nat} :
    firstIndex cells key i count = none ↔ ∀ j, i ≤ j → j < i + count → cells j ≠ key := by
  induction count generalizing i with
  | zero =>
      simp only [firstIndex, true_iff]
      intro j lower upper
      omega
  | succ count ih =>
      simp only [firstIndex]
      split
      · rename_i found
        simp only [reduceCtorEq, false_iff]
        intro absent
        exact absent i (Nat.le_refl i) (by omega) found
      · rename_i missing
        rw [ih]
        constructor
        · intro absent j lower upper
          rcases Nat.eq_or_lt_of_le lower with rfl | later
          · exact missing
          · exact absent j later (by omega)
        · intro absent j lower upper
          exact absent j (by omega) (by omega)

theorem firstIndex_eq_some {cells : Nat → α} {key : α} {i count found : Nat}
    (search : firstIndex cells key i count = some found) :
    i ≤ found ∧ found < i + count ∧ cells found = key ∧
      ∀ j, i ≤ j → j < found → cells j ≠ key := by
  induction count generalizing i with
  | zero => simp [firstIndex] at search
  | succ count ih =>
      simp only [firstIndex] at search
      split at search
      · rename_i here
        obtain rfl := Option.some.inj search
        refine ⟨Nat.le_refl i, by omega, here, ?_⟩
        intro j lower upper
        omega
      · rename_i missing
        rcases ih search with ⟨lower, upper, here, before⟩
        refine ⟨by omega, by omega, here, ?_⟩
        intro j from_i to_found
        rcases Nat.eq_or_lt_of_le from_i with rfl | later
        · exact missing
        · exact before j later to_found

theorem exists_firstIndex {cells : Nat → α} {key : α} {count j : Nat}
    (inside : j < count) (here : cells j = key) :
    ∃ found, firstIndex cells key 0 count = some found := by
  cases search : firstIndex cells key 0 count with
  | some found => exact ⟨found, rfl⟩
  | none => exact absurd here (firstIndex_eq_none_iff.mp search j (Nat.zero_le j) (by omega))

end ComputerSystems.Loop

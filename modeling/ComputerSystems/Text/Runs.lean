import Mathlib.Data.List.Basic

/-!
# Pairs in runs

A scan that looks at two neighbours, takes both when they satisfy a predicate and
moves on by one otherwise, takes the pairs of the longest runs of such elements:
each run is cut into pairs from its start, and an odd last element is left over.
-/

namespace ComputerSystems.Text

universe u

variable {α : Type u} (p : α → Bool)

/-- Cut a list into pairs. -/
def pairs : List α → List (α × α)
  | first :: second :: rest => (first, second) :: pairs rest
  | _ => []

/-- The pairs that the scan takes. -/
def slide : List α → List (α × α)
  | first :: second :: rest =>
      if p first && p second then (first, second) :: slide rest else slide (second :: rest)
  | _ => []

/-- The longest runs of elements that satisfy a predicate, with empty ones between
neighbours that do not. -/
def runs (text : List α) : List (List α) :=
  text.splitOnP fun a => !p a

variable {p}

theorem runs_cons_of_neg {a : α} (outside : p a = false) (rest : List α) :
    runs p (a :: rest) = [] :: runs p rest := by
  rw [runs, List.splitOnP_cons_eq_if_modifyHead, outside]
  rfl

theorem runs_cons_of_pos {a : α} (inside : p a = true) (rest : List α) :
    runs p (a :: rest) = (runs p rest).modifyHead (List.cons a) := by
  rw [runs, List.splitOnP_cons_eq_if_modifyHead, inside]
  rfl

theorem exists_runs (text : List α) : ∃ run later, runs p text = run :: later :=
  List.exists_cons_of_ne_nil (List.splitOnP_ne_nil _ _)

/-- The scan takes the pairs of the runs. -/
theorem slide_eq (text : List α) : slide p text = (runs p text).flatMap pairs := by
  induction text using slide.induct p with
  | case1 first second rest both ih =>
      have inside := Bool.and_eq_true_iff.mp both
      rcases exists_runs (p := p) rest with ⟨run, later, split⟩
      rw [slide, if_pos both, ih, runs_cons_of_pos inside.1, runs_cons_of_pos inside.2, split]
      rfl
  | case2 first second rest neither ih =>
      rw [slide, if_neg neither, ih]
      cases start : p first with
      | false =>
          rw [runs_cons_of_neg start]
          rfl
      | true =>
          have outside : p second = false := by
            rw [start, Bool.true_and] at neither
            exact (Bool.not_eq_true _).mp neither
          rw [runs_cons_of_pos start, runs_cons_of_neg outside]
          rfl
  | case3 text short =>
      cases text with
      | nil => rfl
      | cons first rest =>
          cases rest with
          | cons second rest => exact absurd rfl (short first second rest)
          | nil =>
              cases start : p first with
              | false =>
                  rw [runs_cons_of_neg start]
                  rfl
              | true =>
                  rw [runs_cons_of_pos start]
                  rfl

end ComputerSystems.Text

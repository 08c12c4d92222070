import ComputerSystems.Concurrency.Mutex
import Mathlib.Logic.Relation

/-!
# The calls of a run

A run is logged by the calls that the threads are in and by those that have returned. What a
call does is compared with what it does when its thread runs alone.
-/

namespace ComputerSystems.Concurrency

open ComputerSystems.Transition

variable {τ σ π ο : Type*} [DecidableEq τ]

/-- The call that each thread is in, and the calls that have returned, in this order, with
the points from which they did. -/
structure CallLog (τ π ο : Type*) where
  pending : τ → Option ο
  returned : List (τ × ο × π)

namespace CallLog

/-- No thread has called anything. -/
def empty : CallLog τ π ο := ⟨fun _ => none, []⟩

/-- A thread calls an operation. -/
def call (log : CallLog τ π ο) (thread : τ) (op : ο) : CallLog τ π ο :=
  { log with pending := Function.update log.pending thread (some op) }

/-- A thread returns from its call. -/
def leave (log : CallLog τ π ο) (thread : τ) (op : ο) (point : π) : CallLog τ π ο :=
  ⟨Function.update log.pending thread none, log.returned ++ [(thread, op, point)]⟩

end CallLog

namespace Program

variable (program : Program σ π ο)

/-- The log after a turn. -/
def note (log : CallLog τ π ο) (state next : ThreadState τ σ π) : Turn τ ο → CallLog τ π ο
  | .call thread op => log.call thread op
  | .run thread =>
      match log.pending thread, program.code (next.points thread) with
      | some op, none => log.leave thread op (state.points thread)
      | _, _ => log

/-- A turn with the log. -/
def loggedStep : ThreadState τ σ π × CallLog τ π ο → Turn τ ο →
    Option (ThreadState τ σ π × CallLog τ π ο) :=
  fun (state, log) turn =>
    (program.step state turn).map fun next => (next, program.note log state next turn)

/-- The calls that have returned in a run. -/
def returned (start : ThreadState τ σ π) (turns : List (Turn τ ο)) : List (τ × ο × π) :=
  match exec program.loggedStep (start, .empty) turns with
  | some (_, log) => log.returned
  | none => []

/-- One step of a thread that runs alone. -/
def advance : σ × π → Option (σ × π) :=
  fun (shared, point) =>
    match program.code point with
    | none => none
    | some (.acquire next) | some (.release next) => some (shared, next)
    | some (.access effect) | some (.other effect) => effect shared

/-- A thread that runs alone leads from one memory and point to another. -/
def Alone (before after : σ × π) : Prop :=
  Relation.ReflTransGen (fun now next => program.advance now = some next) before after

/-- The log does not change the run. -/
theorem exec_loggedStep_fst (state : ThreadState τ σ π) (log : CallLog τ π ο)
    (turns : List (Turn τ ο)) :
    (exec program.loggedStep (state, log) turns).map Prod.fst = exec program.step state turns := by
  induction turns generalizing state log with
  | nil => rfl
  | cons turn rest ih =>
      cases stepped : program.step state turn with
      | none => simp [exec, loggedStep, stepped]
      | some next => simpa [exec, loggedStep, stepped] using ih next _

variable {program} {state after : ThreadState τ σ π} {log : CallLog τ π ο} {thread : τ}

theorem note_run_inside (busy : program.code (after.points thread) ≠ none) :
    program.note log state after (.run thread) = log := by
  simp only [note]
  split
  · rename_i outside
    exact absurd outside busy
  · rfl

end Program

end ComputerSystems.Concurrency

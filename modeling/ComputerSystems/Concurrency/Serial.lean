import ComputerSystems.Concurrency.Preambles

/-!
# Calls that are one critical section

Where no call looks around before it takes the mutex, whatever it does is done with the mutex.
-/

namespace ComputerSystems.Concurrency

open ComputerSystems.Transition

variable {τ σ π ο : Type*} [DecidableEq τ]

namespace Program

variable (program : Program σ π ο)

/-- Calls that run alone, one after the other. -/
inductive Serial (start : σ) : List (τ × ο × π) → σ → Prop
  | nil : Serial start [] start
  | snoc {calls : List (τ × ο × π)} {before after : σ} {point next : π} (thread : τ) (op : ο)
      (earlier : Serial start calls before)
      (runs : program.Alone (before, program.entry op) (after, point))
      (releases : program.code point = some (.release next)) (outside : program.code next = none) :
      Serial start (calls ++ [(thread, op, point)]) after

/-- In this turn a thread with the mutex uses the memory or returns from its call. -/
def Sectioned (guarded : π → Bool) (state : ThreadState τ σ π) : Turn τ ο → Prop
  | .call _ _ => True
  | .run thread =>
      match program.code (state.points thread) with
      | some (.release next) =>
          guarded (state.points thread) = true ∧ program.code next = none
      | some (.access _) => guarded (state.points thread) = true
      | some (.other _) => False
      | _ => True

/-- The next instruction at a point takes the mutex. -/
def Enters (_shared : σ) (point : π) : Prop :=
  ∃ inside, program.code point = some (.acquire inside)

variable {program} {guarded : π → Bool} {start : σ} {state : ThreadState τ σ π}

omit [DecidableEq τ] in
/-- A call that is one critical section has no preamble. -/
theorem prepared_of_sectioned {turn : Turn τ ο}
    (sectioned : program.Sectioned guarded state turn) :
    program.Prepared guarded (fun _ => True) program.Enters state turn := by
  cases turn with
  | call thread op => trivial
  | run thread =>
      simp only [Sectioned] at sectioned
      simp only [Prepared]
      cases code : program.code (state.points thread) with
      | none => trivial
      | some instruction =>
          rw [code] at sectioned
          cases instruction with
          | acquire point => exact fun _ => ⟨point, code⟩
          | release point => exact sectioned
          | access effect => exact ⟨sectioned, fun _ _ => trivial⟩
          | other effect => exact sectioned.elim

omit [DecidableEq τ] in
/-- Calls that all take the mutex at once. -/
theorem Consecutive.serial {calls : List (τ × ο × π)} {after : σ}
    (consecutive : program.Consecutive program.Enters start calls after) :
    program.Serial start calls after := by
  induction consecutive with
  | nil => exact .nil
  | pass thread op _ _ looks admitted =>
      rcases admitted with ⟨inside, enters⟩
      cases looks.symm.trans enters
  | @hold calls before after entrance inside _ _ thread op _ arrives enters _ runs releases
      outside ih =>
      have locked : program.advance (before, entrance) = some (before, inside) := by
        simp [advance, enters]
      exact .snoc thread op ih ((arrives.tail locked).trans runs) releases outside

/-- Run rule. Where every call is one critical section, the memory with the mutex free is
that of the calls that have returned, one after the other. -/
theorem run_serial {idle : π} {shared : σ} {turns : List (Turn τ ο)}
    (guards : program.Guards guarded) (outside : program.code idle = none)
    (sectioned : EveryStep program.step (program.Sectioned guarded) (init idle shared) turns)
    (ran : Transition.exec program.step (init idle shared) turns = some state)
    (free : state.mutex = none) :
    program.Serial shared (program.returned (init idle shared) turns) state.shared := by
  have same := exec_loggedStep_fst program (init idle shared) .empty turns
  rw [ran] at same
  rcases Option.map_eq_some_iff.mp same with ⟨⟨final, log⟩, logged, rfl⟩
  have prepared := sectioned.imp (fun _ => True) trivial
    (fun _ _ _ => prepared_of_sectioned) fun _ _ _ _ _ _ => trivial
  rw [returned, logged]
  exact (((Ordered.init guards outside trivial).exec guards prepared logged).settled free).serial

end Program

end ComputerSystems.Concurrency

import Mathlib.Logic.Relation
import Mathlib.Tactic.TypeStar

/-!
# While loops

An iteration of a loop ends the loop, goes on with another state, or crashes. A
loop is run with fuel; more fuel never changes an outcome other than running
out of it, so a computation has at most one result and does not both complete
and crash.
-/

namespace ComputerSystems.Loop

universe u

variable {σ α β : Type*}

/-- What one iteration of a loop does. -/
inductive Iteration (σ : Type*)
  | exit
  | next (state : σ)
  | crash

/-- What a computation with some fuel has done. -/
inductive Outcome (α : Type*)
  | done (result : α)
  | crash
  | running

/-- Apply a function to a result. -/
def Outcome.map (f : α → β) : Outcome α → Outcome β
  | done result => done (f result)
  | crash => crash
  | running => running

/-- Go on with a result; a computation that has not returned one ends there. -/
def Outcome.bind (outcome : Outcome α) (next : α → Outcome β) : Outcome β :=
  match outcome with
  | done result => next result
  | crash => crash
  | running => running

instance : Monad Outcome where
  pure := .done
  bind := Outcome.bind

/-- What follows a call that has not returned is not reached. -/
@[simp]
theorem Outcome.running_bind {γ δ : Type u} (next : γ → Outcome δ) :
    (Outcome.running >>= next) = .running :=
  rfl

/-- Run a loop with some fuel. Its result is the state in which it exits. -/
def loop (body : σ → Iteration σ) : Nat → σ → Outcome σ
  | 0, _ => .running
  | fuel + 1, state =>
      match body state with
      | .exit => .done state
      | .next following => loop body fuel following
      | .crash => .crash

/-- With enough fuel the computation returns a result. -/
def Completes (computation : Nat → Outcome α) (result : α) : Prop :=
  ∃ fuel, computation fuel = .done result

/-- With enough fuel the computation crashes. -/
def Crashes (computation : Nat → Outcome α) : Prop :=
  ∃ fuel, computation fuel = .crash

/-- With enough fuel the computation returns or ends the program. -/
def Halts (computation : Nat → Outcome α) : Prop :=
  ∃ fuel, computation fuel ≠ .running

/-- More fuel never changes an outcome. -/
def Stable (computation : Nat → Outcome α) : Prop :=
  ∀ fuel more, computation fuel ≠ .running → computation (fuel + more) = computation fuel

theorem loop_stable (body : σ → Iteration σ) (state : σ) :
    Stable fun fuel => loop body fuel state := by
  intro fuel more
  induction fuel generalizing state with
  | zero =>
      intro finished
      exact absurd rfl finished
  | succ fuel ih =>
      intro finished
      have succ : fuel + 1 + more = (fuel + more) + 1 := by omega
      cases step : body state with
      | exit => simp only [succ, loop, step]
      | crash => simp only [succ, loop, step]
      | next following =>
          simp only [loop, step] at finished
          simp only [succ, loop, step]
          exact ih following finished

theorem Stable.map {computation : Nat → Outcome α} (stable : Stable computation) (f : α → β) :
    Stable fun fuel => (computation fuel).map f := by
  intro fuel more finished
  have same := stable fuel more (fun running => finished (by simp only [running, Outcome.map]))
  simp only [same]

theorem Stable.agree {computation : Nat → Outcome α} (stable : Stable computation)
    {first second : Nat} (firstDone : computation first ≠ .running)
    (secondDone : computation second ≠ .running) : computation first = computation second := by
  calc
    computation first = computation (first + second) := (stable first second firstDone).symm
    _ = computation (second + first) := by rw [Nat.add_comm]
    _ = computation second := stable second first secondDone

theorem Outcome.ne_running_of_done {outcome : Outcome α} {result : α}
    (done : outcome = .done result) : outcome ≠ .running := by
  rw [done]
  nofun

theorem Outcome.ne_running_of_crash {outcome : Outcome α} (crash : outcome = .crash) :
    outcome ≠ .running := by
  rw [crash]
  nofun

theorem Stable.unique {computation : Nat → Outcome α} (stable : Stable computation)
    {left right : α} (leftDone : Completes computation left)
    (rightDone : Completes computation right) : left = right := by
  rcases leftDone with ⟨first, firstDone⟩
  rcases rightDone with ⟨second, secondDone⟩
  have same := stable.agree (Outcome.ne_running_of_done firstDone)
    (Outcome.ne_running_of_done secondDone)
  rw [firstDone, secondDone] at same
  exact Outcome.done.inj same

theorem Stable.not_completes {computation : Nat → Outcome α} (stable : Stable computation)
    (crashes : Crashes computation) (result : α) : ¬ Completes computation result := by
  rintro ⟨second, done⟩
  rcases crashes with ⟨first, crashed⟩
  have same := stable.agree (Outcome.ne_running_of_crash crashed)
    (Outcome.ne_running_of_done done)
  rw [crashed, done] at same
  cases same

theorem Completes.map {computation : Nat → Outcome α} {result : α}
    (completes : Completes computation result) (f : α → β) :
    Completes (fun fuel => (computation fuel).map f) (f result) := by
  rcases completes with ⟨fuel, done⟩
  exact ⟨fuel, by simp only [done, Outcome.map]⟩

/-- Two computations one after the other, with the same fuel. -/
theorem Completes.bind {first : Nat → Outcome α} {second : α → Nat → Outcome β} {middle : α}
    {result : β} (front : Completes first middle) (back : Completes (second middle) result)
    (stable : Stable first) (stable' : Stable (second middle)) :
    Completes (fun fuel => (first fuel).bind fun middle => second middle fuel) result := by
  rcases front with ⟨fuel, reached⟩
  rcases back with ⟨more, done⟩
  have early : first (fuel + more) = .done middle := by
    rw [stable fuel more (Outcome.ne_running_of_done reached), reached]
  have late : second middle (fuel + more) = .done result := by
    rw [Nat.add_comm, stable' more fuel (Outcome.ne_running_of_done done), done]
  exact ⟨fuel + more, by simp only [early, Outcome.bind, late]⟩

theorem stable_const (outcome : Outcome α) : Stable fun _ => outcome :=
  fun _ _ _ => rfl

theorem Stable.bind {first : Nat → Outcome α} {second : α → Nat → Outcome β}
    (stable : Stable first) (stable' : ∀ middle, Stable (second middle)) :
    Stable fun fuel => (first fuel).bind fun middle => second middle fuel := by
  intro fuel more finished
  dsimp only at finished ⊢
  cases reached : first fuel with
  | running =>
      rw [reached] at finished
      exact absurd rfl finished
  | crash => rw [stable fuel more (Outcome.ne_running_of_crash reached), reached]; rfl
  | done middle =>
      rw [reached] at finished
      rw [stable fuel more (Outcome.ne_running_of_done reached), reached]
      exact stable' middle fuel more finished

theorem Crashes.map {computation : Nat → Outcome α} (crashes : Crashes computation) (f : α → β) :
    Crashes fun fuel => (computation fuel).map f := by
  rcases crashes with ⟨fuel, crashed⟩
  exact ⟨fuel, by simp only [crashed, Outcome.map]⟩

/-! ## Loop rules -/

section Rules

variable {body : σ → Iteration σ} {state following : σ}

theorem loop_exit (step : body state = .exit) :
    Completes (fun fuel => loop body fuel state) state :=
  ⟨1, by simp only [loop, step]⟩

theorem loop_crash (step : body state = .crash) : Crashes fun fuel => loop body fuel state :=
  ⟨1, by simp only [loop, step]⟩

theorem loop_next (step : body state = .next following) {result : σ}
    (rest : Completes (fun fuel => loop body fuel following) result) :
    Completes (fun fuel => loop body fuel state) result := by
  rcases rest with ⟨fuel, done⟩
  exact ⟨fuel + 1, by simp only [loop, step, done]⟩

theorem loop_next_crash (step : body state = .next following)
    (rest : Crashes fun fuel => loop body fuel following) :
    Crashes fun fuel => loop body fuel state := by
  rcases rest with ⟨fuel, crashed⟩
  exact ⟨fuel + 1, by simp only [loop, step, crashed]⟩

end Rules

/-! ## The states of a loop -/

/-- A loop that starts in one state gets to another, whether or not it ends. -/
def Visits (body : σ → Iteration σ) : σ → σ → Prop :=
  Relation.ReflTransGen fun state following => body state = .next following

/-- A loop that gets to a state in which it exits returns that state. -/
theorem Visits.completes {body : σ → Iteration σ} {start state : σ}
    (visits : Visits body start state) (exits : body state = .exit) :
    Completes (fun fuel => loop body fuel start) state := by
  induction visits using Relation.ReflTransGen.head_induction_on with
  | refl => exact loop_exit exits
  | head steps _ ih => exact loop_next steps ih

/-- What every iteration keeps that a loop gets to holds of its result. -/
theorem Completes.kept (holds : σ → Prop) {body : σ → Iteration σ} {state result : σ}
    (completes : Completes (fun fuel => loop body fuel state) result) (initially : holds state)
    (keeps : ∀ current following, Visits body state current → body current = .next following →
      holds current → holds following) : holds result := by
  rcases completes with ⟨fuel, done⟩
  induction fuel generalizing state with
  | zero => cases done
  | succ fuel ih =>
      cases step : body state with
      | exit =>
          simp only [loop, step, Outcome.done.injEq] at done
          rwa [← done]
      | crash => simp only [loop, step, reduceCtorEq] at done
      | next following =>
          simp only [loop, step] at done
          refine ih (keeps state following .refl step initially) ?_ done
          intro current later visits
          exact keeps current later (.head step visits)

/-! ## Partial correctness -/

/-- The computation has not crashed, and its result has a property if it has
returned one. -/
def Outcome.Ensures (holds : α → Prop) : Outcome α → Prop
  | done result => holds result
  | crash => False
  | running => True

theorem Outcome.Ensures.bind {outcome : Outcome α} {holds : α → Prop} {next : α → Outcome β}
    {after : β → Prop} (ensures : outcome.Ensures holds)
    (each : ∀ result, holds result → (next result).Ensures after) :
    (outcome.bind next).Ensures after := by
  cases outcome with
  | done result => exact each result ensures
  | crash => exact ensures
  | running => trivial

theorem Outcome.Ensures.map {outcome : Outcome α} {holds : α → Prop} {f : α → β}
    {after : β → Prop} (ensures : outcome.Ensures holds)
    (each : ∀ result, holds result → after (f result)) : (outcome.map f).Ensures after := by
  cases outcome with
  | done result => exact each result ensures
  | crash => exact ensures
  | running => trivial

theorem Outcome.Ensures.of_completes {computation : Nat → Outcome α} {holds : α → Prop}
    {result : α} (ensures : ∀ fuel, (computation fuel).Ensures holds)
    (completes : Completes computation result) : holds result := by
  rcases completes with ⟨fuel, done⟩
  have kept := ensures fuel
  rw [done] at kept
  exact kept

/-- A `for` loop over a list: what holds of the part passed over holds of the
whole list in the end. -/
theorem ensures_foldlM {γ : Type u} (step : γ → α → Outcome γ) (inv : List α → γ → Prop)
    (passed todo : List α) {state : γ} (initially : inv passed state)
    (keeps : ∀ before x after current, passed ++ todo = before ++ x :: after →
      inv before current → (step current x).Ensures (inv (before ++ [x]))) :
    (todo.foldlM step state).Ensures (inv (passed ++ todo)) := by
  induction todo generalizing passed state with
  | nil => rwa [List.append_nil]
  | cons x todo ih =>
      rw [List.foldlM_cons]
      refine (keeps passed x todo state rfl initially).bind ?_
      intro following holds
      have rest := ih (passed ++ [x]) holds
      rw [List.append_assoc] at rest
      exact rest keeps

/-! ## Loops over a list whose iterations are loops -/

instance : LawfulMonad Outcome :=
  LawfulMonad.mk' Outcome (fun outcome => by cases outcome <;> rfl) (fun _ _ => rfl)
    (fun outcome _ _ => by cases outcome <;> rfl)

/-- A nested loop is a loop over all of its indices. -/
theorem foldlM_flatMap {γ : Type u} {ι : Type*} (step : γ → α → Outcome γ) (part : ι → List α)
    (indices : List ι) (state : γ) :
    (indices.flatMap part).foldlM step state =
      indices.foldlM (fun current i => (part i).foldlM step current) state := by
  induction indices generalizing state with
  | nil => rfl
  | cons i indices ih =>
      rw [List.flatMap_cons, List.foldlM_append, List.foldlM_cons]
      simp only [ih]

section Indexed

variable {γ : Type u} {step : Nat → γ → α → Outcome γ}

theorem stable_foldlM (stable : ∀ current x, Stable fun fuel => step fuel current x)
    (todo : List α) (state : γ) : Stable fun fuel => todo.foldlM (step fuel) state := by
  induction todo generalizing state with
  | nil => exact stable_const (.done state)
  | cons x todo ih =>
      simp only [List.foldlM_cons]
      exact (stable state x).bind ih

/-- A `for` loop over a list each of whose iterations completes: what holds of the part
passed over holds of the whole list in the end. -/
theorem exists_completes_foldlM (stable : ∀ current x, Stable fun fuel => step fuel current x)
    (inv : List α → γ → Prop) (passed todo : List α) {state : γ} (initially : inv passed state)
    (keeps : ∀ before x after current, passed ++ todo = before ++ x :: after →
      inv before current →
        ∃ next, Completes (fun fuel => step fuel current x) next ∧ inv (before ++ [x]) next) :
    ∃ final, Completes (fun fuel => todo.foldlM (step fuel) state) final ∧
      inv (passed ++ todo) final := by
  induction todo generalizing passed state with
  | nil =>
      rw [List.append_nil]
      exact ⟨state, ⟨0, rfl⟩, initially⟩
  | cons x todo ih =>
      rcases keeps passed x todo state rfl initially with ⟨next, front, holds⟩
      have rest := ih (passed ++ [x]) holds
      rw [List.append_assoc] at rest
      rcases rest keeps with ⟨final, back, after⟩
      refine ⟨final, ?_, after⟩
      simp only [List.foldlM_cons]
      exact front.bind back (stable state x) (stable_foldlM stable todo next)

end Indexed

end ComputerSystems.Loop

import ComputerSystems.Transition.Run
import Mathlib.Logic.Function.Basic

/-!
# Threads and one mutex

Threads run the same program over shared memory and one mutex. The mutex is
taken by one thread at a time, but any thread may release it, so mutual
exclusion is a property of the program: of the points at which it needs the
mutex, and of the releases on its paths.
-/

namespace ComputerSystems.Concurrency

open ComputerSystems.Transition

/-- What a program does at one of its points. -/
inductive Instruction (σ π : Type*)
  /-- Take the mutex, once it is free. -/
  | acquire (next : π)
  /-- Release the mutex. -/
  | release (next : π)
  /-- Read or write what the mutex protects, or end the whole program. -/
  | access (effect : σ → Option (σ × π))
  /-- Read or write anything else. -/
  | other (effect : σ → Option (σ × π))

/-- The code of a function for each kind of call. Outside all calls there is no
instruction. -/
structure Program (σ π ο : Type*) where
  code : π → Option (Instruction σ π)
  entry : ο → π

/-- The threads, the mutex and the shared memory. -/
structure ThreadState (τ σ π : Type*) where
  points : τ → π
  mutex : Option τ
  shared : σ

/-- The next turn: a thread makes a call, or it goes on with its call. -/
inductive Turn (τ ο : Type*)
  | call (thread : τ) (op : ο)
  | run (thread : τ)

/-- The thread whose turn it is. -/
def Turn.thread {τ ο : Type*} : Turn τ ο → τ
  | .call thread _ => thread
  | .run thread => thread

variable {τ σ π ο : Type*} [DecidableEq τ]

/-- Move one thread to a point. -/
def ThreadState.goto (state : ThreadState τ σ π) (thread : τ) (point : π) : ThreadState τ σ π :=
  { state with points := Function.update state.points thread point }

namespace Program

variable (program : Program σ π ο)

/-- The state after a turn, when the thread can take it. -/
def step (state : ThreadState τ σ π) : Turn τ ο → Option (ThreadState τ σ π)
  | .call thread op =>
      match program.code (state.points thread) with
      | none => some (state.goto thread (program.entry op))
      | some _ => none
  | .run thread =>
      match program.code (state.points thread) with
      | none => none
      | some (.acquire next) =>
          if state.mutex.isNone then some { state.goto thread next with mutex := thread } else none
      | some (.release next) => some { state.goto thread next with mutex := none }
      | some (.access effect) | some (.other effect) =>
          (effect state.shared).map fun result =>
            { state.goto thread result.2 with shared := result.1 }

/-- The points that read or write what the mutex protects, or release it. -/
def needs (point : π) : Bool :=
  match program.code point with
  | some (.access _) | some (.release _) => true
  | _ => false

/-- The law of the mutex for a turn: the thread that reads or writes what the mutex
protects, or releases the mutex, is its holder. -/
def Lawful (state : ThreadState τ σ π) : Turn τ ο → Prop
  | .call _ _ => True
  | .run thread => program.needs (state.points thread) = true → state.mutex = some thread

instance (state : ThreadState τ σ π) : (turn : Turn τ ο) → Decidable (program.Lawful state turn)
  | .call _ _ => isTrue trivial
  | .run thread => inferInstanceAs
      (Decidable (program.needs (state.points thread) = true → state.mutex = some thread))

/-- The point that a thread may reach next from a point. -/
def Leads (point : π) (shared : σ) (next : π) : Prop :=
  match program.code point with
  | none => ∃ op, next = program.entry op
  | some (.acquire following) | some (.release following) => next = following
  | some (.access effect) | some (.other effect) => ∃ written, effect shared = some (written, next)

/-- The points at which the thread is meant to hold the mutex, as the instructions
have it. -/
structure Guards (guarded : π → Bool) : Prop where
  outside : ∀ point, program.code point = none → guarded point = false
  entry : ∀ op, guarded (program.entry op) = false
  acquire : ∀ point next, program.code point = some (.acquire next) → guarded next = true
  release : ∀ point next, program.code point = some (.release next) → guarded next = false
  access : ∀ point effect shared result, program.code point = some (.access effect) →
    effect shared = some result → guarded result.2 = guarded point
  other : ∀ point effect shared result, program.code point = some (.other effect) →
    effect shared = some result → guarded result.2 = guarded point

/-- In this turn the thread is not at one of some points. -/
def Avoids (points : π → Bool) (state : ThreadState τ σ π) : Turn τ ο → Prop
  | .call _ _ => True
  | .run thread => points (state.points thread) = false

/-- The threads at guarded points are the holder of the mutex. -/
def Owned (guarded : π → Bool) (state : ThreadState τ σ π) : Prop :=
  ∀ thread, guarded (state.points thread) = true ↔ state.mutex = some thread

/-- A release in this turn is made by the holder, or while nobody holds the
mutex. -/
def Releases (guarded : π → Bool) (state : ThreadState τ σ π) : Turn τ ο → Prop
  | .call _ _ => True
  | .run thread =>
      match program.code (state.points thread) with
      | some (.release _) => guarded (state.points thread) = true ∨ state.mutex = none
      | _ => True

variable {program} {guarded : π → Bool} {state next : ThreadState τ σ π} {thread : τ}

/-- A thread moves between two guarded or two unguarded points. -/
theorem Owned.goto (owned : Owned guarded state) {point : π} {shared : σ}
    (same : guarded point = guarded (state.points thread)) :
    Owned guarded { state.goto thread point with shared := shared } := by
  intro other
  by_cases equal : other = thread
  · subst equal
    simp only [ThreadState.goto, Function.update_self, same]
    exact owned other
  · simp only [ThreadState.goto, Function.update_of_ne equal]
    exact owned other

theorem Owned.acquire (owned : Owned guarded state) {point : π} (free : state.mutex = none)
    (inside : guarded point = true) :
    Owned guarded { state.goto thread point with mutex := thread } := by
  intro other
  by_cases equal : other = thread
  · subst equal
    simp [ThreadState.goto, inside]
  · have outside := owned other
    simp only [ThreadState.goto, Function.update_of_ne equal]
    simp only [free, reduceCtorEq, iff_false] at outside
    simp [outside, Ne.symm equal]

theorem Owned.release (owned : Owned guarded state) {point : π} (outside : guarded point = false)
    (holder : guarded (state.points thread) = true ∨ state.mutex = none) :
    Owned guarded { state.goto thread point with mutex := none } := by
  intro other
  by_cases equal : other = thread
  · subst equal
    simp [ThreadState.goto, outside]
  · simp only [ThreadState.goto, Function.update_of_ne equal, reduceCtorEq, iff_false]
    rw [owned other]
    rcases holder with inside | free
    · rw [(owned thread).mp inside]
      simpa using Ne.symm equal
    · simp [free]

/-- Step lemma: a turn keeps the mutex with the thread at a guarded point. -/
theorem Owned.step (owned : Owned guarded state) (guards : program.Guards guarded)
    {turn : Turn τ ο} (releases : program.Releases guarded state turn)
    (stepped : program.step state turn = some next) : Owned guarded next := by
  cases turn with
  | call thread op =>
      simp only [Program.step] at stepped
      split at stepped
      · rename_i outside
        cases stepped
        exact owned.goto (by rw [guards.entry, guards.outside _ outside])
      · cases stepped
  | run thread =>
      simp only [Program.step] at stepped
      simp only [Releases] at releases
      split at stepped
      · cases stepped
      · rename_i point code
        split at stepped
        · rename_i free
          cases stepped
          exact owned.acquire (Option.isNone_iff_eq_none.mp free) (guards.acquire _ _ code)
        · cases stepped
      · rename_i point code
        cases stepped
        rw [code] at releases
        exact owned.release (guards.release _ _ code) releases
      · rename_i effect code
        rcases Option.map_eq_some_iff.mp stepped with ⟨result, ran, rfl⟩
        exact owned.goto (guards.access _ _ _ _ code ran)
      · rename_i effect code
        rcases Option.map_eq_some_iff.mp stepped with ⟨result, ran, rfl⟩
        exact owned.goto (guards.other _ _ _ _ code ran)

omit [DecidableEq τ] in
/-- While the threads at guarded points are the holder, a turn is lawful unless its
point needs the mutex and is not guarded. -/
theorem Owned.lawful_iff (owned : Owned guarded state) (turn : Turn τ ο) :
    program.Lawful state turn ↔
      Avoids (fun point => program.needs point && !guarded point) state turn := by
  cases turn with
  | call thread op => exact Iff.rfl
  | run thread =>
      have holder := owned thread
      cases needs : program.needs (state.points thread) with
      | false => simp [Lawful, Avoids, needs]
      | true => simp [Lawful, Avoids, needs, ← holder]

omit [DecidableEq τ] in
/-- The holder may release. -/
theorem Lawful.releases {turn : Turn τ ο} (lawful : program.Lawful state turn)
    (owned : Owned guarded state) : program.Releases guarded state turn := by
  cases turn with
  | call thread op => exact trivial
  | run thread =>
      simp only [Lawful, needs, Releases] at lawful ⊢
      split
      · rename_i next code
        simp only [code, forall_const] at lawful
        exact Or.inl ((owned thread).mpr lawful)
      · exact trivial

/-- A turn moves its thread to a point that may follow, and no other thread. -/
theorem step_leads {turn : Turn τ ο} (stepped : program.step state turn = some next) :
    program.Leads (state.points turn.thread) state.shared (next.points turn.thread) ∧
      ∀ other, other ≠ turn.thread → next.points other = state.points other := by
  have moved : ∀ (thread : τ) (point : π) (other : τ), other ≠ thread →
      (state.goto thread point).points other = state.points other :=
    fun _ _ _ apart => Function.update_of_ne apart _ _
  have here : ∀ (thread : τ) (point : π), (state.goto thread point).points thread = point :=
    fun _ _ => Function.update_self _ _ _
  cases turn with
  | call thread op =>
      simp only [Program.step] at stepped
      split at stepped
      · rename_i code
        cases stepped
        exact ⟨by simp [Turn.thread, Leads, code, here], moved thread _⟩
      · cases stepped
  | run thread =>
      simp only [Program.step] at stepped
      split at stepped
      · cases stepped
      · rename_i point code
        split at stepped
        · cases stepped
          exact ⟨by simp [Turn.thread, Leads, code, here], moved thread _⟩
        · cases stepped
      · rename_i point code
        cases stepped
        exact ⟨by simp [Turn.thread, Leads, code, here], moved thread _⟩
      · rename_i effect code
        rcases Option.map_eq_some_iff.mp stepped with ⟨result, ran, rfl⟩
        exact ⟨by simpa [Turn.thread, Leads, code, here] using ⟨result.1, ran⟩, moved thread _⟩
      · rename_i effect code
        rcases Option.map_eq_some_iff.mp stepped with ⟨result, ran, rfl⟩
        exact ⟨by simpa [Turn.thread, Leads, code, here] using ⟨result.1, ran⟩, moved thread _⟩

/-! ## Runs -/

/-- All threads outside, the mutex free. -/
def init (idle : π) (shared : σ) : ThreadState τ σ π := ⟨fun _ => idle, none, shared⟩

omit [DecidableEq τ] in
theorem owned_init {idle : π} (outside : guarded idle = false) (shared : σ) :
    Owned guarded (init idle shared : ThreadState τ σ π) := by
  intro thread
  simp [init, outside]

end Program

end ComputerSystems.Concurrency

import ComputerSystems.BoundedBuffer.Core
import ComputerSystems.Concurrency.WakeUp

/-!
# No lost wake-up

An item in the buffer is a unit of `notEmpty`, a free slot one of `notFull`.
Every body takes one unit of the condition its operation waits on and gives one
to the condition it signals.
-/

namespace ComputerSystems.BoundedBuffer

open ComputerSystems.Concurrency
open ComputerSystems.Transition

variable {τ : Type*}

/-- How many operations could proceed on a condition. -/
def available (capacity : Nat) : Condition → Shared τ → Nat
  | .notFull, shared => capacity - shared.buffer.count
  | .notEmpty, shared => shared.buffer.count

/-- The buffer holds at most as many items as it has slots. -/
def WithinCapacity (capacity : Nat) (shared : Shared τ) : Prop :=
  shared.buffer.count ≤ capacity

section Bodies

variable {names : ThreadNames τ} {random : Nat → Fin 89999} {capacity : Nat} {shared : Shared τ}

/-- `deposit` runs its body only while a slot is free. -/
theorem not_full {data : String} (within : WithinCapacity capacity shared)
    (free : (monitor names random capacity).blocked (.deposit data) shared = false) :
    shared.buffer.count < capacity :=
  Nat.lt_of_le_of_ne within (beq_eq_false_iff_ne.mp free)

/-- `fetch` runs its body only while there is an item. -/
theorem not_empty (free : (monitor names random capacity).blocked .fetch shared = false) :
    0 < shared.buffer.count :=
  Nat.pos_of_ne_zero (beq_eq_false_iff_ne.mp free)

theorem deposit_count (thread : τ) (data : String) :
    (deposit names random capacity thread data shared).buffer.count = shared.buffer.count + 1 :=
  rfl

theorem fetch_count : (fetch capacity shared).buffer.count = shared.buffer.count - 1 :=
  rfl

end Bodies

theorem unitResource (names : ThreadNames τ) (random : Nat → Fin 89999) (capacity : Nat) :
    (monitor names random capacity).UnitResource (WithinCapacity capacity)
      (available capacity) where
  keeps := by
    intro thread op shared free within
    cases op with
    | deposit data => exact not_full within free
    | fetch => exact Nat.le_trans (Nat.sub_le _ _) within
  blocked_iff := by
    intro op shared within
    cases op with
    | deposit data =>
        have full :
            (shared.buffer.count == capacity) = true ↔ capacity - shared.buffer.count = 0 := by
          rw [beq_iff_eq, Nat.sub_eq_zero_iff_le]
          exact ⟨fun same => Nat.le_of_eq same.symm, Nat.le_antisymm within⟩
        exact full
    | fetch => exact beq_iff_eq
  takes := by
    intro thread op shared free within
    cases op with
    | deposit data =>
        have room := not_full within free
        simp only [monitor, available, deposit_count]
        omega
    | fetch =>
        have item := not_empty free
        simp only [monitor, available, fetch_count]
        omega
  gives := by
    intro thread op shared free within
    cases op with
    | deposit data => exact Nat.le_refl _
    | fetch =>
        simp only [monitor, available, fetch_count]
        omega
  others := by
    intro thread op shared c free within
    cases op with
    | deposit data => cases c <;> simp [monitor]
    | fetch => cases c <;> simp [monitor]
  apart := by
    intro op
    cases op <;> simp [monitor]

section Counts

variable [Fintype τ] (names : ThreadNames τ) (random : Nat → Fin 89999) (capacity : Nat)

/-- Some thread waits on a condition, not signalled. -/
def Waits (c : Condition) (state : MonitorState τ (Shared τ) Operation) : Prop :=
  ∃ thread, (monitor names random capacity).waitsOn c (state.phases thread) = true

/-- The number of threads signalled on a condition that have not taken the lock
again. -/
def signalled (c : Condition) (state : MonitorState τ (Shared τ) Operation) : Nat :=
  (Finset.univ.filter fun thread =>
    (monitor names random capacity).signalledOn c (state.phases thread)).card

end Counts

/-- With the lock free, the items are at most the threads signalled on `notEmpty`
while a thread waits there, the free slots at most those signalled on `notFull`
while one waits there, and it never happens that all threads wait while one of
them could proceed. -/
theorem no_lost_wake_up [Fintype τ] [DecidableEq τ] (names : ThreadNames τ)
    (random : Nat → Fin 89999) (capacity : Nat) (actions : List (MonitorAction τ Operation))
    (state : MonitorState τ (Shared τ) Operation)
    (ran : exec (monitor names random capacity).step start actions = some state)
    (free : state.owner = none) :
    (Waits names random capacity .notEmpty state →
      state.shared.buffer.count ≤ signalled names random capacity .notEmpty state) ∧
    (Waits names random capacity .notFull state →
      capacity ≤ state.shared.buffer.count + signalled names random capacity .notFull state) ∧
    ¬ ((∀ thread, ∃ op, state.phases thread = .waiting op) ∧
      ∃ thread op, state.phases thread = .waiting op ∧
        (monitor names random capacity).blocked op state.shared = false) := by
  have law := unitResource names random capacity
  have initially : WithinCapacity capacity (newBuffer : Shared τ) := Nat.zero_le capacity
  refine ⟨?_, ?_, ?_⟩
  · exact Monitor.available_le_signalled law initially ran free .notEmpty
  · intro waits
    have covered := Monitor.available_le_signalled law initially ran free .notFull waits
    exact Nat.sub_le_iff_le_add'.mp covered
  · rintro ⟨waiting, thread, op, waits, proceeds⟩
    have blocked := Monitor.blocked_of_all_waiting law initially ran waiting thread op waits
    rw [proceeds] at blocked
    cases blocked

/-- Two threads wait in `fetch`, a third deposits and signals one of them. -/
def twoFetchesOneDeposit : List (MonitorAction (Fin 3) Operation) :=
  [.call 0 .fetch, .acquire 0, .test 0, .call 1 .fetch, .acquire 1, .test 1,
    .call 2 (.deposit "item"), .acquire 2, .test 2, .perform 2, .signal 2 (some 0), .unlock 2]

/-- The names of threads that only differ in their number. -/
def numbered : ThreadNames (Fin 3) := ⟨fun _ => "Thread", fun thread => thread⟩

theorem no_lost_wake_up_one_signal :
    ∃ state, exec (monitor numbered (fun _ => 0) 1).step start twoFetchesOneDeposit = some state ∧
      state.owner = none ∧ Waits numbered (fun _ => 0) 1 .notEmpty state ∧
      state.shared.buffer.count ≤ signalled numbered (fun _ => 0) 1 .notEmpty state :=
  ⟨_, rfl, rfl, ⟨1, rfl⟩,
    (no_lost_wake_up numbered (fun _ => 0) 1 twoFetchesOneDeposit _ rfl rfl).1 ⟨1, rfl⟩⟩

end ComputerSystems.BoundedBuffer

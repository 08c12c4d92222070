import ComputerSystems.BoundedBuffer.Order
import ComputerSystems.Concurrency.Completed

/-!
# The counters of the buffer

Whenever the lock is free, `front`, `rear` and `count` describe a ring that holds one item
for each completed deposit that no completed fetch has taken. A deposit stores its item
in a slot that holds none.
-/

namespace ComputerSystems.BoundedBuffer

open ComputerSystems.Concurrency
open ComputerSystems.Recency
open ComputerSystems.Transition

variable {τ : Type*}

/-- A call of `deposit`. -/
def Operation.deposits : Operation → Bool
  | deposit _ => true
  | fetch => false

/-- The number of deposits among some calls. -/
def depositCount (calls : List (τ × Operation)) : Nat :=
  calls.countP fun call => call.2.deposits

/-- The number of fetches among some calls. -/
def fetchCount (calls : List (τ × Operation)) : Nat :=
  calls.countP fun call => !call.2.deposits

/-- A slot that holds an item. -/
def Buffer.Occupied (buffer : Buffer) (capacity i : Nat) : Prop :=
  ∃ k < buffer.count, i = (buffer.front + k) % capacity

/-- The counters of a buffer after some calls. -/
structure Counters (capacity : Nat) (buffer : Buffer) (calls : List (τ × Operation)) : Prop where
  within : buffer.count ≤ capacity
  front : buffer.front < capacity
  rear : buffer.rear = (buffer.front + buffer.count) % capacity
  count : (buffer.count : Int) = depositCount calls - fetchCount calls

/-- The ring of the deposits and fetches among some calls. -/
structure RingOf (capacity : Nat) (calls : List (τ × Operation)) (shared : Shared τ) : Prop where
  ring : Ring capacity shared
  deposits : shared.deposits.length = depositCount calls
  fetched : shared.fetched.length = fetchCount calls

section Ring

variable {names : ThreadNames τ} {random : Nat → Fin 89999} {capacity : Nat} {shared : Shared τ}
  {calls : List (τ × Operation)}

theorem Ring.front_lt (ring : Ring capacity shared) (positive : 0 < capacity) :
    shared.buffer.front < capacity := by
  rw [ring.front]
  exact Nat.mod_lt _ positive

theorem Ring.rear_eq (ring : Ring capacity shared) :
    shared.buffer.rear = (shared.buffer.front + shared.buffer.count) % capacity := by
  rw [ring.rear, ring.front, ring.count, Nat.mod_add_mod]

/-- There is an item in no slot but those behind `front`, so a buffer that is not full
has none at `rear`. -/
theorem Ring.rear_free (ring : Ring capacity shared) (room : shared.buffer.count ≠ capacity) :
    ¬ shared.buffer.Occupied capacity shared.buffer.rear := by
  rintro ⟨k, inside, same⟩
  have within := ring.within
  have apart : shared.buffer.count = k + (shared.buffer.count - k) := by omega
  rw [ring.rear_eq, apart, ← Nat.add_assoc] at same
  exact mod_ne_of_apart (by omega) (by omega) same.symm

theorem Ring.front_occupied (ring : Ring capacity shared) (positive : 0 < capacity)
    (nonempty : shared.buffer.count ≠ 0) :
    shared.buffer.Occupied capacity shared.buffer.front :=
  ⟨0, Nat.pos_of_ne_zero nonempty, (Nat.mod_eq_of_lt (ring.front_lt positive)).symm⟩

theorem ringOf_newBuffer : RingOf capacity [] (newBuffer : Shared τ) :=
  ⟨ring_newBuffer, rfl, rfl⟩

theorem depositCount_snoc (calls : List (τ × Operation)) (thread : τ) (op : Operation) :
    depositCount (calls ++ [(thread, op)]) =
      depositCount calls + if op.deposits then 1 else 0 := by
  rw [depositCount, List.countP_append, List.countP_singleton]
  rfl

theorem fetchCount_snoc (calls : List (τ × Operation)) (thread : τ) (op : Operation) :
    fetchCount (calls ++ [(thread, op)]) =
      fetchCount calls + if !op.deposits then 1 else 0 := by
  rw [fetchCount, List.countP_append, List.countP_singleton]
  rfl

theorem RingOf.perform (calls : List (τ × Operation)) (thread : τ) (op : Operation)
    (shared : Shared τ) (free : (monitor names random capacity).blocked op shared = false)
    (ringOf : RingOf capacity calls shared) :
    RingOf capacity (calls ++ [(thread, op)])
      ((monitor names random capacity).perform thread op shared) := by
  cases op with
  | deposit data =>
      have room : shared.buffer.count ≠ capacity := by simpa [monitor] using free
      constructor
      · exact ringOf.ring.deposit room thread data
      · rw [depositCount_snoc, ← ringOf.deposits]
        exact List.length_append
      · rw [fetchCount_snoc, ← ringOf.fetched]
        rfl
  | fetch =>
      have some : shared.buffer.count ≠ 0 := by simpa [monitor] using free
      constructor
      · exact ringOf.ring.fetch some
      · rw [depositCount_snoc, ← ringOf.deposits]
        rfl
      · rw [fetchCount_snoc, ← ringOf.fetched]
        exact List.length_append

theorem RingOf.counters (ringOf : RingOf capacity calls shared) (positive : 0 < capacity) :
    Counters capacity shared.buffer calls where
  within := ringOf.ring.within
  front := ringOf.ring.front_lt positive
  rear := ringOf.ring.rear_eq
  count := by
    have count := ringOf.ring.count
    rw [ringOf.deposits, ringOf.fetched] at count
    omega

end Ring

section Runs

variable {names : ThreadNames τ} {random : Nat → Fin 89999} {capacity : Nat} [Fintype τ]
  [DecidableEq τ] {actions : List (MonitorAction τ Operation)}
  {state : MonitorState τ (Shared τ) Operation}

/-- In every state of a run in which the lock is free the counters are those of the
completed calls. A deposit that is about to store its item finds an index inside the
array and no item there, and a fetch finds an item at an index inside the array. -/
theorem run_counters (positive : 0 < capacity)
    (ran : exec (monitor names random capacity).step start actions = some state) :
    (state.owner = none →
      Counters capacity state.shared.buffer
        ((monitor names random capacity).completed newBuffer actions)) ∧
    (∀ thread data, state.phases thread = .body (.deposit data) →
      state.shared.buffer.rear < capacity ∧
        ¬ state.shared.buffer.Occupied capacity state.shared.buffer.rear) ∧
    ∀ thread, state.phases thread = .body .fetch →
      state.shared.buffer.front < capacity ∧
        state.shared.buffer.Occupied capacity state.shared.buffer.front := by
  have ring := (run_valid ran).ring
  have ready := (Monitor.run_exclusive ran).ready
  refine ⟨?_, ?_, ?_⟩
  · intro free
    exact (Monitor.run_completed ringOf_newBuffer RingOf.perform ran free).counters positive
  · intro thread data body
    have room : state.shared.buffer.count ≠ capacity := by
      simpa [monitor] using ready thread _ body
    constructor
    · rw [ring.rear]
      exact Nat.mod_lt _ positive
    · exact ring.rear_free room
  · intro thread body
    have nonempty : state.shared.buffer.count ≠ 0 := by
      simpa [monitor] using ready thread _ body
    exact ⟨ring.front_lt positive, ring.front_occupied positive nonempty⟩

end Runs

/-- Behind two deposits and a fetch of one thread. -/
theorem counters_twoDepositsOneFetch :
    ∃ state, exec (monitor ⟨fun _ => "main", fun _ => 1⟩ (fun _ => 0) 2).step start
        twoDepositsOneFetch = some state ∧ state.owner = none ∧
      Counters 2 state.shared.buffer
        ((monitor ⟨fun _ => "main", fun _ => 1⟩ (fun _ => 0) 2).completed newBuffer
          twoDepositsOneFetch) :=
  ⟨_, rfl, rfl, (run_counters (by decide) rfl).1 rfl⟩

end ComputerSystems.BoundedBuffer

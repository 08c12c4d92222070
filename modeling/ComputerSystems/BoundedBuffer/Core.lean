import ComputerSystems.Concurrency.Monitor

/-!
# The bounded buffer

The class of `A6/src/main/java/boundedBuffer.java`: a ring of `capacity` slots
behind one lock with the conditions `notFull` and `notEmpty`. Printing is left
out. The random numbers that `deposit` draws are one sequence, of which each
drawing takes the next.
-/

namespace ComputerSystems.BoundedBuffer

open ComputerSystems.Concurrency

/-- The mutable fields of the class. A slot that was never written holds `null`. -/
structure Buffer where
  arr : Nat → Option String
  front : Nat
  rear : Nat
  count : Nat

/-- The buffer, how many random numbers have been drawn, and what the deposits and
fetches have done so far, in the order in which they held the lock. -/
structure Shared (τ : Type*) where
  buffer : Buffer
  drawn : Nat
  deposits : List (τ × String)
  fetched : List (Option String)

/-- `Thread.getName` and `Thread.getId`. -/
structure ThreadNames (τ : Type*) where
  name : τ → String
  id : τ → Nat

/-- The two operations. -/
inductive Operation
  | deposit (data : String)
  | fetch
  deriving DecidableEq

/-- The two condition variables. -/
inductive Condition
  | notFull
  | notEmpty
  deriving DecidableEq

variable {τ : Type*}

/-- The string that the loop of `deposit` leaves in a slot. -/
def filler (names : ThreadNames τ) (thread : τ) (random : Fin 89999) : String :=
  names.name thread ++ " Current Thread ID: " ++ toString (names.id thread) ++
    " Random number:" ++ toString (10000 + random.val)

/-- The loop of `deposit` from slot `i` on, with the iterations left: each slot is
given the data and then another string. -/
def fillSlots (data : String) (other : Nat → String) (i : Nat) (arr : Nat → Option String) :
    Nat → Nat → Option String
  | 0 => arr
  | left + 1 =>
      fillSlots data other (i + 1)
        (Function.update (Function.update arr i (some data)) i (some (other i))) left

/-- The body of `deposit`. -/
def deposit (names : ThreadNames τ) (random : Nat → Fin 89999) (capacity : Nat) (thread : τ)
    (data : String) (shared : Shared τ) : Shared τ :=
  let filled := fillSlots data (fun i => filler names thread (random (shared.drawn + i))) 0
    shared.buffer.arr capacity
  { buffer := {
      arr := Function.update filled shared.buffer.rear (some data)
      front := shared.buffer.front
      rear := (shared.buffer.rear + 1) % capacity
      count := shared.buffer.count + 1 }
    drawn := shared.drawn + capacity
    deposits := shared.deposits ++ [(thread, data)]
    fetched := shared.fetched }

/-- The body of `fetch`. -/
def fetch (capacity : Nat) (shared : Shared τ) : Shared τ :=
  { shared with
    buffer := { shared.buffer with
      front := (shared.buffer.front + 1) % capacity
      count := shared.buffer.count - 1 }
    fetched := shared.fetched ++ [shared.buffer.arr shared.buffer.front] }

/-- `deposit` waits on `notFull` while the buffer is full and signals `notEmpty`;
`fetch` waits on `notEmpty` while it is empty and signals `notFull`. -/
def monitor (names : ThreadNames τ) (random : Nat → Fin 89999) (capacity : Nat) :
    Monitor τ (Shared τ) Operation Condition where
  blocked
    | .deposit _, shared => shared.buffer.count == capacity
    | .fetch, shared => shared.buffer.count == 0
  condition
    | .deposit _ => .notFull
    | .fetch => .notEmpty
  perform
    | thread, .deposit data => deposit names random capacity thread data
    | _, .fetch => fetch capacity
  wakes
    | .deposit _ => .notEmpty
    | .fetch => .notFull

/-- The state that the constructor makes. -/
def newBuffer : Shared τ where
  buffer := ⟨fun _ => none, 0, 0, 0⟩
  drawn := 0
  deposits := []
  fetched := []

/-- The state before any thread has called an operation. -/
def start : MonitorState τ (Shared τ) Operation := Monitor.init newBuffer

end ComputerSystems.BoundedBuffer

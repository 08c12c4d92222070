import ComputerSystems.BoundedBuffer.Counters
import ComputerSystems.BoundedBuffer.WakeUp
import ComputerSystems.Concurrency.Programs

/-!
# The four threads of main

`main` of `A6/src/main/java/boundedBuffer.java`: one thread deposits, the other three
fetch and then deposit. In whatever order they run, the buffer never holds more than one
item, every fetch returns the string that was deposited, and all four threads return.
-/

namespace ComputerSystems.BoundedBuffer

open ComputerSystems.Concurrency
open ComputerSystems.Transition

/-- The threads that `main` starts and joins. -/
inductive MainThread
  | thread1
  | thread2
  | thread3
  | thread4
  deriving DecidableEq

/-- All of them. -/
def threads : Finset MainThread := {.thread1, .thread2, .thread3, .thread4}

theorem mem_threads (thread : MainThread) : thread ∈ threads := by
  cases thread <;> decide

instance : Fintype MainThread := ⟨threads, mem_threads⟩

/-- The string `str` of `main`. -/
def str : String := "hello world angus dei"

/-- The capacity `cap` of `main`. -/
def cap : Nat := 30

/-- The calls in the `run` methods of the threads. -/
def run : MainThread → List Operation
  | .thread1 => [.deposit str]
  | .thread2 | .thread3 | .thread4 => [.fetch, .deposit str]

/-- One step of one of the four threads. -/
def mainStep (names : ThreadNames MainThread) (random : Nat → Fin 89999) :
    ProgramState MainThread (Shared MainThread) Operation →
      MonitorAction MainThread Operation →
      Option (ProgramState MainThread (Shared MainThread) Operation) :=
  (monitor names random cap).programStep

/-- The threads before their first steps. -/
def mainStart : ProgramState MainThread (Shared MainThread) Operation :=
  Monitor.load newBuffer run

/-- The deposits among some operations, less the fetches. -/
def balance (ops : List Operation) : ℤ :=
  ops.countP Operation.deposits - ops.countP fun op => !op.deposits

section Programs

@[simp]
theorem deposits_deposit (data : String) : (Operation.deposit data).deposits = true := rfl

@[simp]
theorem deposits_fetch : Operation.fetch.deposits = false := rfl

theorem balance_deposit (data : String) (rest : List Operation) :
    balance (.deposit data :: rest) = balance rest + 1 := by
  simp [balance, List.countP_cons]
  omega

theorem balance_fetch (rest : List Operation) : balance (.fetch :: rest) = balance rest - 1 := by
  simp [balance]
  omega

/-- What may be ahead of a thread. -/
theorem suffix_run {thread : MainThread} {ops : List Operation} (suffix : ops <:+ run thread) :
    ops = [] ∨ ops = [.deposit str] ∨ ops = [.fetch, .deposit str] := by
  cases thread <;> simp only [run, List.suffix_cons_iff, List.suffix_nil] at suffix <;> tauto

theorem balance_suffix_run {thread : MainThread} {ops : List Operation}
    (suffix : ops <:+ run thread) : 0 ≤ balance ops := by
  rcases suffix_run suffix with rfl | rfl | rfl <;> decide

end Programs

section Runs

variable {names : ThreadNames MainThread} {random : Nat → Fin 89999}
  {actions : List (MonitorAction MainThread Operation)}
  {state : ProgramState MainThread (Shared MainThread) Operation}

/-- The items of the buffer and the deposits that are still ahead exceed the fetches that
are still ahead by one. -/
theorem count_add_balance (ran : exec (mainStep names random) mainStart actions = some state) :
    (state.monitor.shared.buffer.count : ℤ) + ∑ thread, balance (state.ahead thread) = 1 := by
  have account := Monitor.program_account
    (fun shared : Shared MainThread => (shared.buffer.count : ℤ)) balance
    (by
      intro thread op data rest free
      cases op with
      | deposit item =>
          simp only [monitor, deposit_count, balance_deposit]
          omega
      | fetch =>
          have item := not_empty free
          simp only [monitor, fetch_count, balance_fetch]
          omega) ran
  rw [account]
  decide

/-- The buffer never holds more than one item. -/
theorem count_le_one (ran : exec (mainStep names random) mainStart actions = some state) :
    state.monitor.shared.buffer.count ≤ 1 := by
  have account := count_add_balance ran
  have nonneg : 0 ≤ ∑ thread, balance (state.ahead thread) := by
    apply Finset.sum_nonneg
    intro thread _
    exact balance_suffix_run (Monitor.ahead_suffix ran thread)
  omega

/-- Every string that was deposited is `str`. -/
theorem deposits_str (ran : exec (mainStep names random) mainStart actions = some state) :
    ∀ deposited ∈ state.monitor.shared.deposits, deposited.2 = str := by
  refine Monitor.program_shared (fun shared : Shared MainThread =>
    ∀ deposited ∈ shared.deposits, deposited.2 = str) (by simp [newBuffer]) ?_ ran
  intro past before thread op earlier body held
  have suffix := Monitor.ahead_suffix earlier thread
  cases op with
  | deposit data =>
      have same : data = str := by
        rw [ProgramState.ahead, body, unperformed] at suffix
        rcases suffix_run suffix with none | one | two
        · exact absurd none (List.cons_ne_nil _ _)
        · injection (List.cons.inj one).1
        · injection (List.cons.inj two).1
      intro deposited member
      rcases List.mem_append.mp member with old | new
      · exact held deposited old
      · cases List.mem_singleton.mp new
        exact same
  | fetch => exact held

theorem inOrder_newBuffer : InOrder (newBuffer : Shared MainThread) := List.nil_prefix

/-- The fetches return the deposited strings in their order. -/
theorem main_inOrder (ran : exec (mainStep names random) mainStart actions = some state) :
    InOrder state.monitor.shared := by
  refine Monitor.program_shared InOrder inOrder_newBuffer ?_ ran
  intro past before thread op earlier body inOrder
  cases op with
  | deposit data => exact inOrder.deposit thread data
  | fetch =>
      have valid := run_valid (Monitor.exec_of_programStep earlier)
      have free := (Monitor.program_exclusive earlier).ready thread .fetch body
      have item := not_empty free
      have single := count_le_one earlier
      exact inOrder.fetch valid.ring valid.last (by omega)

theorem fetched_str (ran : exec (mainStep names random) mainStart actions = some state) :
    ∀ item ∈ state.monitor.shared.fetched, item = some str := by
  intro item member
  have deposited := (main_inOrder ran).subset member
  rcases List.mem_map.mp deposited with ⟨entry, found, rfl⟩
  rw [deposits_str ran entry found]

/-- In every interleaving of the four threads the buffer holds at most one item, and each
fetch so far has returned the string that `main` deposits. -/
theorem main_hands_over (names : ThreadNames MainThread) (random : Nat → Fin 89999)
    (actions : List (MonitorAction MainThread Operation))
    (state : ProgramState MainThread (Shared MainThread) Operation)
    (ran : exec (mainStep names random) mainStart actions = some state) :
    state.monitor.shared.buffer.count ≤ 1 ∧
      ∀ item ∈ state.monitor.shared.fetched, item = some str :=
  ⟨count_le_one ran, fetched_str ran⟩

/-- The deposits and fetches when all programs are finished. -/
theorem finished_lengths (ran : exec (mainStep names random) mainStart actions = some state)
    (finished : state.Finished) :
    state.monitor.shared.deposits.length = 4 ∧ state.monitor.shared.fetched.length = 3 ∧
      state.monitor.shared.buffer.count = 1 := by
  have none : ∀ thread, state.ahead thread = [] := by
    intro thread
    rw [ProgramState.ahead, (finished thread).1, (finished thread).2]
    rfl
  have deposits := Monitor.program_account
    (fun shared : Shared MainThread => (shared.deposits.length : ℤ))
    (fun ops => (ops.countP Operation.deposits : ℕ))
    (by
      intro thread op data rest free
      cases op with
      | deposit item =>
          simp [monitor, deposit, List.countP_cons]
          omega
      | fetch => simp [monitor, fetch]) ran
  have count := count_add_balance ran
  have ring := (run_valid (Monitor.exec_of_programStep ran)).ring.count
  have four : ∑ thread, ((run thread).countP Operation.deposits : ℤ) = 4 := by decide
  have left : ∑ thread, balance (state.ahead thread) = 0 := by
    simp only [none]
    decide
  simp [none, four, newBuffer] at deposits
  omega

/-- Where no thread can go on, all have returned: a thread that still waited would wait in
`fetch` with the buffer empty, but the deposits exceed the fetches by one. -/
theorem finished_of_stopped (ran : exec (mainStep names random) mainStart actions = some state)
    (stopped : (monitor names random cap).Stopped state) : state.Finished := by
  have initially : WithinCapacity cap (newBuffer : Shared MainThread) := Nat.zero_le cap
  have most := count_le_one ran
  have waits : ∀ thread, (state.monitor.phases thread = .idle ∧ state.rest thread = []) ∨
      (state.monitor.phases thread = .waiting .fetch ∧
        state.monitor.shared.buffer.count = 0) := by
    intro thread
    rcases Monitor.stopped_blocked (unitResource names random cap) initially ran stopped thread
      with done | ⟨op, waiting, blocked⟩
    · exact Or.inl done
    · right
      cases op with
      | deposit data =>
          have full : state.monitor.shared.buffer.count = 30 := beq_iff_eq.mp blocked
          omega
      | fetch => exact ⟨waiting, beq_iff_eq.mp blocked⟩
  have nothing : ∑ thread, balance (state.ahead thread) = 0 := by
    apply Finset.sum_eq_zero
    intro thread _
    rcases waits thread with ⟨idle, program⟩ | ⟨waiting, _⟩
    · rw [ProgramState.ahead, idle, program]
      rfl
    · have suffix := Monitor.ahead_suffix ran thread
      rw [ProgramState.ahead, waiting, unperformed] at suffix ⊢
      rcases suffix_run suffix with none | one | two
      · exact absurd none (List.cons_ne_nil _ _)
      · cases (List.cons.inj one).1
      · rw [two]
        decide
  have count := count_add_balance ran
  intro thread
  rcases waits thread with done | ⟨_, empty⟩
  · exact done
  · omega

/-- A run is at most 56 steps long, and three steps for each time that a thread leaves its
queue without a reason; the threads come to a stop only when all four have returned, and
then one item is left and each of the three fetches has returned the string. -/
theorem main_completes (names : ThreadNames MainThread) (random : Nat → Fin 89999)
    (actions : List (MonitorAction MainThread Operation))
    (state : ProgramState MainThread (Shared MainThread) Operation)
    (ran : exec (mainStep names random) mainStart actions = some state) :
    actions.length ≤ 56 + 3 * actions.countP MonitorAction.spurious ∧
    ((monitor names random cap).Stopped state ↔ state.Finished) ∧
    (state.Finished → state.monitor.shared.buffer.count = 1 ∧
      state.monitor.shared.deposits.length = 4 ∧
      state.monitor.shared.fetched = [some str, some str, some str]) := by
  refine ⟨?_, ⟨finished_of_stopped ran, Monitor.stopped_of_finished⟩, ?_⟩
  · have bound := Monitor.exec_programStep_length ran
    have start : ∑ thread, mainStart.work thread = 56 := by decide
    rw [start] at bound
    omega
  · intro finished
    rcases finished_lengths ran finished with ⟨deposits, fetched, count⟩
    refine ⟨count, deposits, ?_⟩
    exact List.eq_replicate_iff.mpr ⟨fetched, fetched_str ran⟩

/-- A call that nobody holds up. -/
def passing (thread : MainThread) (op : Operation) : List (MonitorAction MainThread Operation) :=
  [.call thread op, .acquire thread, .test thread, .perform thread, .signal thread none,
    .unlock thread]

/-- The four threads one after the other. -/
def oneByOne : List (MonitorAction MainThread Operation) :=
  passing .thread1 (.deposit str) ++ passing .thread2 .fetch ++
    passing .thread2 (.deposit str) ++ passing .thread3 .fetch ++
    passing .thread3 (.deposit str) ++ passing .thread4 .fetch ++ passing .thread4 (.deposit str)

/-- The names of the threads. -/
def mainNames : ThreadNames MainThread := ⟨fun _ => "Thread", fun _ => 0⟩

theorem main_hands_over_oneByOne :
    ∃ state, exec (mainStep mainNames fun _ => 0) mainStart oneByOne = some state ∧
      state.monitor.shared.buffer.count ≤ 1 ∧
      ∀ item ∈ state.monitor.shared.fetched, item = some str :=
  ⟨_, rfl, main_hands_over mainNames (fun _ => 0) oneByOne _ rfl⟩

theorem main_completes_oneByOne :
    ∃ state, exec (mainStep mainNames fun _ => 0) mainStart oneByOne = some state ∧
      ((monitor mainNames (fun _ => 0) cap).Stopped state ↔ state.Finished) :=
  ⟨_, rfl, (main_completes mainNames (fun _ => 0) oneByOne _ rfl).2.1⟩

end Runs

end ComputerSystems.BoundedBuffer

import ComputerSystems.BoundedBuffer.Core
import ComputerSystems.Recency.Rotation

/-!
# What fetches return

The counters of the buffer describe a ring that loses nothing, but the loop of
`deposit` overwrites every slot with another string before it writes its own, so
only the item deposited last is still there. Fetches return what was deposited
exactly when each of them takes the only item of the buffer.
-/

namespace ComputerSystems.BoundedBuffer

open ComputerSystems.Concurrency
open ComputerSystems.Recency
open ComputerSystems.Transition

variable {τ : Type*}

/-- The strings fetched so far are a prefix of the strings deposited so far. -/
def InOrder (shared : Shared τ) : Prop :=
  shared.fetched <+: shared.deposits.map fun deposited => some deposited.2

/-- Each body of `fetch` in a run of these actions finds exactly one item. -/
def FetchesSingle [Fintype τ] [DecidableEq τ] (names : ThreadNames τ) (capacity : Nat)
    (actions : List (MonitorAction τ Operation)) : Prop :=
  ∀ random past thread rest, actions = past ++ .perform thread :: rest →
    ∀ state, exec (monitor names random capacity).step start past = some state →
      state.phases thread = .body .fetch → state.shared.buffer.count = 1

/-! ## The ring -/

/-- The counters after some deposits and fetches. -/
structure Ring (capacity : Nat) (shared : Shared τ) : Prop where
  count : shared.deposits.length = shared.fetched.length + shared.buffer.count
  within : shared.buffer.count ≤ capacity
  front : shared.buffer.front = shared.fetched.length % capacity
  rear : shared.buffer.rear = shared.deposits.length % capacity

/-- The slots after the last deposit: its item, and its other strings everywhere
else. -/
structure LastDeposit (names : ThreadNames τ) (random : Nat → Fin 89999) (capacity : Nat)
    (shared : Shared τ) : Prop where
  item : ∀ past thread data, shared.deposits = past ++ [(thread, data)] →
    shared.buffer.arr (past.length % capacity) = some data
  others : ∀ past thread data, shared.deposits = past ++ [(thread, data)] →
    ∀ i, i < capacity → i ≠ past.length % capacity →
      ∃ k, shared.buffer.arr i = some (filler names thread (random k))

/-- The counters and the slots are those of the deposits and fetches so far. -/
structure Valid (names : ThreadNames τ) (random : Nat → Fin 89999) (capacity : Nat)
    (shared : Shared τ) : Prop where
  ring : Ring capacity shared
  last : LastDeposit names random capacity shared

section Slots

variable {names : ThreadNames τ} {random : Nat → Fin 89999} {capacity : Nat} {shared : Shared τ}

theorem fillSlots_of_lt {data : String} {other : Nat → String} {arr : Nat → Option String}
    {i left j : Nat} (outside : j < i) : fillSlots data other i arr left j = arr j := by
  induction left generalizing i arr with
  | zero => rfl
  | succ left ih =>
      rw [fillSlots, ih (by omega), Function.update_of_ne (by omega),
        Function.update_of_ne (by omega)]

theorem fillSlots_inside {data : String} {other : Nat → String} {arr : Nat → Option String}
    {i left j : Nat} (lower : i ≤ j) (upper : j < i + left) :
    fillSlots data other i arr left j = some (other j) := by
  induction left generalizing i arr with
  | zero => omega
  | succ left ih =>
      rw [fillSlots]
      rcases Nat.eq_or_lt_of_le lower with rfl | later
      · rw [fillSlots_of_lt (Nat.lt_succ_self i), Function.update_self]
      · exact ih later (by omega)

theorem ring_newBuffer : Ring capacity (newBuffer : Shared τ) := by
  constructor
  · rfl
  · exact Nat.zero_le capacity
  · exact (Nat.zero_mod capacity).symm
  · exact (Nat.zero_mod capacity).symm

theorem Ring.deposit (ring : Ring capacity shared) (room : shared.buffer.count ≠ capacity)
    (thread : τ) (data : String) :
    Ring capacity (deposit names random capacity thread data shared) := by
  have count := ring.count
  have within := ring.within
  constructor
  · simp only [BoundedBuffer.deposit, List.length_append, List.length_singleton]
    omega
  · simp only [BoundedBuffer.deposit]
    omega
  · exact ring.front
  · simp only [BoundedBuffer.deposit, List.length_append, List.length_singleton, ring.rear,
      Nat.mod_add_mod]

theorem Ring.fetch (ring : Ring capacity shared) (some : shared.buffer.count ≠ 0) :
    Ring capacity (fetch capacity shared) := by
  have count := ring.count
  have within := ring.within
  constructor
  · simp only [BoundedBuffer.fetch, List.length_append, List.length_singleton]
    omega
  · simp only [BoundedBuffer.fetch]
    omega
  · simp only [BoundedBuffer.fetch, List.length_append, List.length_singleton, ring.front,
      Nat.mod_add_mod]
  · exact ring.rear

theorem lastDeposit_newBuffer : LastDeposit names random capacity newBuffer := by
  constructor
  · intro past thread data split
    simp [newBuffer] at split
  · intro past thread data split
    simp [newBuffer] at split

theorem lastDeposit_deposit (ring : Ring capacity shared) (thread : τ) (data : String) :
    LastDeposit names random capacity (deposit names random capacity thread data shared) := by
  constructor
  · intro past other item split
    rcases List.append_inj' split rfl with ⟨rfl, same⟩
    cases same
    simp only [deposit, ring.rear, Function.update_self]
  · intro past other item split i inside apart
    rcases List.append_inj' split rfl with ⟨rfl, same⟩
    cases same
    refine ⟨shared.drawn + i, ?_⟩
    simp only [deposit, ring.rear, Function.update_of_ne apart]
    exact fillSlots_inside (Nat.zero_le i) (by omega)

theorem LastDeposit.fetch (last : LastDeposit names random capacity shared) :
    LastDeposit names random capacity (fetch capacity shared) :=
  ⟨last.item, last.others⟩

/-- A fetch from a buffer of one item returns the item deposited last. -/
theorem InOrder.fetch (inOrder : InOrder shared) (ring : Ring capacity shared)
    (last : LastDeposit names random capacity shared) (single : shared.buffer.count = 1) :
    InOrder (BoundedBuffer.fetch capacity shared) := by
  have count := ring.count
  rw [single] at count
  cases deposits : shared.deposits using List.reverseRecOn with
  | nil => simp [deposits] at count
  | append_singleton past deposited =>
      rcases deposited with ⟨thread, data⟩
      rw [deposits, List.length_append, List.length_singleton] at count
      have taken := last.item past thread data deposits
      have earlier : shared.fetched = past.map fun deposited => some deposited.2 := by
        rw [InOrder, deposits, List.map_append, List.map_singleton] at inOrder
        have sameLength : shared.fetched.length =
            (past.map fun deposited => some deposited.2).length := by
          rw [List.length_map]
          omega
        have shorter := List.prefix_of_prefix_length_le inOrder (List.prefix_append _ _)
          (Nat.le_of_eq sameLength)
        exact shorter.eq_of_length sameLength
      have slot : shared.buffer.arr shared.buffer.front = some data := by
        rw [ring.front, ← taken]
        congr 2
        omega
      simp only [InOrder, BoundedBuffer.fetch, deposits, slot, earlier, List.map_append,
        List.map_singleton]
      exact List.prefix_refl _

theorem InOrder.deposit (inOrder : InOrder shared) (thread : τ) (data : String) :
    InOrder (BoundedBuffer.deposit names random capacity thread data shared) := by
  simp only [InOrder, BoundedBuffer.deposit, List.map_append]
  exact inOrder.trans (List.prefix_append _ _)

/-- A fetch from a buffer of more than one item returns a string that the deposit
after it left in its slot. -/
theorem Ring.fetched_filler (ring : Ring capacity shared)
    (last : LastDeposit names random capacity shared) {past : List (τ × String)} {thread : τ}
    {data : String} (deposits : shared.deposits = past ++ [(thread, data)])
    (several : 1 < shared.buffer.count) :
    ∃ k, shared.buffer.arr shared.buffer.front = some (filler names thread (random k)) := by
  have count := ring.count
  have within := ring.within
  rw [deposits, List.length_append, List.length_singleton] at count
  apply last.others past thread data deposits
  · rw [ring.front]
    exact Nat.mod_lt _ (by omega)
  · have distance : past.length = shared.fetched.length + (shared.buffer.count - 1) := by omega
    rw [ring.front, distance]
    exact mod_ne_of_apart (by omega) (by omega)

/-- What a fetch returned is what was deposited at its place. -/
theorem InOrder.last_fetched {shared' : Shared τ} (inOrder : InOrder shared') {item : Option String}
    (fetched : shared'.fetched = shared.fetched ++ [item]) :
    (shared'.deposits.map fun deposited => some deposited.2)[shared.fetched.length]? =
      some item := by
  rw [InOrder, fetched] at inOrder
  rcases inOrder with ⟨rest, split⟩
  rw [← split, List.append_assoc, List.getElem?_append_right (Nat.le_refl _), Nat.sub_self]
  rfl

end Slots

/-! ## Runs -/

section Runs

variable {names : ThreadNames τ} {random : Nat → Fin 89999} {capacity : Nat}

theorem valid_newBuffer : Valid names random capacity newBuffer :=
  ⟨ring_newBuffer, lastDeposit_newBuffer⟩

theorem Valid.perform (thread : τ) (op : Operation) (shared : Shared τ)
    (free : (monitor names random capacity).blocked op shared = false)
    (valid : Valid names random capacity shared) :
    Valid names random capacity ((monitor names random capacity).perform thread op shared) := by
  cases op with
  | deposit data =>
      have room : shared.buffer.count ≠ capacity := by simpa [monitor] using free
      exact ⟨valid.ring.deposit room thread data, lastDeposit_deposit valid.ring thread data⟩
  | fetch =>
      have some : shared.buffer.count ≠ 0 := by simpa [monitor] using free
      exact ⟨valid.ring.fetch some, valid.last.fetch⟩

/-- Two buffers that differ at most in the strings of their slots. -/
structure SameCourse (shared shared' : Shared τ) : Prop where
  front : shared'.buffer.front = shared.buffer.front
  rear : shared'.buffer.rear = shared.buffer.rear
  count : shared'.buffer.count = shared.buffer.count
  drawn : shared'.drawn = shared.drawn
  deposits : shared'.deposits = shared.deposits
  fetched : shared'.fetched.length = shared.fetched.length

/-- The random numbers decide what the slots hold and nothing else. -/
theorem inStep_random (random' : Nat → Fin 89999) :
    Monitor.InStep (monitor names random capacity) (monitor names random' capacity)
      SameCourse := by
  constructor
  · rfl
  · rfl
  · intro op shared shared' same
    cases op with
    | deposit data => simp only [monitor, same.count]
    | fetch => simp only [monitor, same.count]
  · intro thread op shared shared' same
    cases op with
    | deposit data =>
        constructor <;> simp [monitor, deposit, same.front, same.rear, same.count, same.drawn,
          same.deposits, same.fetched]
    | fetch =>
        constructor <;> simp [monitor, fetch, same.front, same.rear, same.count, same.drawn,
          same.deposits, same.fetched]

theorem filler_ne (thread : τ) : filler names thread 0 ≠ filler names thread 1 := by
  intro same
  have digits :
      toString (10000 + (0 : Fin 89999).val) ≠ toString (10000 + (1 : Fin 89999).val) := by
    decide
  simp only [filler, String.append_right_inj] at same
  exact digits same

variable [Fintype τ] [DecidableEq τ] {actions : List (MonitorAction τ Operation)}
  {state : MonitorState τ (Shared τ) Operation}

theorem run_valid (ran : exec (monitor names random capacity).step start actions = some state) :
    Valid names random capacity state.shared :=
  Monitor.run_shared (Valid names random capacity) valid_newBuffer Valid.perform ran

/-- The same actions with the random numbers replaced by one number. -/
theorem run_constant (ran : exec (monitor names random capacity).step start actions = some state)
    (number : Fin 89999) :
    ∃ state', exec (monitor names (fun _ => number) capacity).step start actions = some state' ∧
      state'.phases = state.phases ∧ SameCourse state.shared state'.shared := by
  have same : SameCourse (newBuffer : Shared τ) newBuffer := by
    constructor <;> rfl
  rcases (inStep_random fun _ => number).run same ran with ⟨state', ran', phases, _, course⟩
  exact ⟨state', ran', phases, course⟩

/-- A fetch that takes one of several items returns the string that the last
depositor left there, for whichever number it drew. -/
theorem run_fetch_filler
    (ran : exec (monitor names random capacity).step start actions = some state) {thread : τ}
    (body : state.phases thread = .body .fetch) (several : 1 < state.shared.buffer.count)
    (number : Fin 89999) {past : List (τ × String)} {depositor : τ} {data : String}
    (deposits : state.shared.deposits = past ++ [(depositor, data)])
    (inOrder : ∀ next, exec (monitor names (fun _ => number) capacity).step start
      (actions ++ [.perform thread]) = some next → InOrder next.shared) :
    (state.shared.deposits.map fun deposited => some deposited.2)[state.shared.fetched.length]? =
      some (some (filler names depositor number)) := by
  rcases run_constant ran number with ⟨state', ran', phases, course⟩
  have valid := run_valid ran'
  rw [← course.deposits] at deposits
  rw [← course.count] at several
  rcases valid.ring.fetched_filler valid.last deposits several with ⟨_, slot⟩
  have stepped : exec (monitor names (fun _ => number) capacity).step start
      (actions ++ [.perform thread]) = some { state'.move thread (.signalling .fetch) with
        shared := fetch capacity state'.shared } := by
    rw [exec_snoc, ran', Option.bind_some, Monitor.step, phases, body]
    rfl
  have grown : (fetch capacity state'.shared).fetched =
      state'.shared.fetched ++ [state'.shared.buffer.arr state'.shared.buffer.front] := rfl
  have after := (inOrder _ stepped).last_fetched grown
  rw [slot] at after
  rw [← course.deposits, ← course.fetched]
  exact after

/-- Whatever random numbers are drawn, the strings fetched after every part of a run
are a prefix of the strings deposited, exactly when each fetch of the run finds
one item in the buffer. -/
theorem fetched_prefix_iff (names : ThreadNames τ) (capacity : Nat)
    (actions : List (MonitorAction τ Operation)) :
    (∀ random past, past <+: actions → ∀ state,
      exec (monitor names random capacity).step start past = some state →
        state.shared.fetched <+: state.shared.deposits.map fun deposited => some deposited.2) ↔
    FetchesSingle names capacity actions := by
  constructor
  · intro inOrder random past thread rest split state ran body
    have valid := run_valid ran
    have ready := (Monitor.run_exclusive ran).ready thread .fetch body
    have some : state.shared.buffer.count ≠ 0 := by simpa [monitor] using ready
    by_contra notSingle
    have several : 1 < state.shared.buffer.count := by omega
    have count := valid.ring.count
    have part : past ++ [.perform thread] <+: actions := by
      rw [split, List.prefix_append_right_inj]
      exact ⟨rest, rfl⟩
    cases deposits : state.shared.deposits using List.reverseRecOn with
    | nil =>
        simp [deposits] at count
        omega
    | append_singleton earlier deposited =>
        rcases deposited with ⟨depositor, data⟩
        have zero := run_fetch_filler ran body several 0 deposits (inOrder _ _ part)
        have one := run_fetch_filler ran body several 1 deposits (inOrder _ _ part)
        rw [zero] at one
        exact filler_ne depositor (Option.some.inj (Option.some.inj one))
  · intro single random past part state ran
    have both : (monitor names random capacity).Exclusive state ∧ InOrder state.shared := by
      apply exec_prefix_invariant _ _ past part state ran
      · exact ⟨Monitor.exclusive_init _, List.prefix_refl _⟩
      · rintro earlier action rest split before reached ⟨exclusive, inOrder⟩ next stepped
        refine ⟨exclusive.step stepped, ?_⟩
        rcases Monitor.shared_cases exclusive stepped with
          same | ⟨thread, op, rfl, body, _, changed⟩
        · rwa [same]
        · rw [changed]
          cases op with
          | deposit data => exact inOrder.deposit thread data
          | fetch =>
              have valid := run_valid reached
              exact inOrder.fetch valid.ring valid.last
                (single random earlier thread rest split before reached body)
    exact both.2

end Runs

/-- One thread deposits two strings and fetches one. -/
def twoDepositsOneFetch : List (MonitorAction (Fin 1) Operation) :=
  [.call 0 (.deposit "first"), .acquire 0, .test 0, .perform 0, .signal 0 none, .unlock 0,
    .call 0 (.deposit "second"), .acquire 0, .test 0, .perform 0, .signal 0 none, .unlock 0,
    .call 0 .fetch, .acquire 0, .test 0, .perform 0, .signal 0 none, .unlock 0]

theorem fetched_not_prefix :
    ∃ state, exec (monitor ⟨fun _ => "main", fun _ => 1⟩ (fun _ => 0) 2).step start
        twoDepositsOneFetch = some state ∧ state.owner = none ∧
      state.shared.fetched = [some "main Current Thread ID: 1 Random number:10000"] ∧
      ¬ state.shared.fetched <+: state.shared.deposits.map fun deposited => some deposited.2 := by
  refine ⟨_, rfl, rfl, rfl, ?_⟩
  decide

end ComputerSystems.BoundedBuffer

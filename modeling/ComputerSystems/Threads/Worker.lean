import ComputerSystems.Concurrency.Mutex
import ComputerSystems.Concurrency.Programs
import Mathlib.Logic.Function.Basic

/-!
# The workers

`worker` and `main` of `A4/EzeokekeC.cs5600.S23.c`: five threads fill one array, each with
ten passes of two critical sections. The sections move the index by one and by two, so all
passes together need three times as many elements as the array has. Output and sleeping
are left out, and so are the two `hello` threads, which share nothing.
-/

namespace ComputerSystems.Threads.Worker

open ComputerSystems.Concurrency
open ComputerSystems.Transition

/-- `NOTHREADS`. -/
def noThreads : Nat := 5

/-- The number of elements of `arr`. -/
def arrSize : Nat := 10 * noThreads

/-- `arr` and `aindex`, and the elements that have been assigned so far with the values
they were given, the latest first. -/
structure Shared where
  arr : Nat → Int
  aindex : Nat
  assigned : List (Nat × Int)

/-- Where a worker is, with its `id` and its `i`: before and after each lock call, behind
each assignment to the array, and behind each change of the index. -/
inductive Point
  | outside
  | lockFirst (id i : Nat)
  | storeFirst (id i : Nat)
  | moveFirst (id i : Nat)
  | unlockFirst (id i : Nat)
  | lockSecond (id i : Nat)
  | storeSecond (id i : Nat)
  | moveSecond (id i : Nat)
  | unlockSecond (id i : Nat)
  | done
  deriving DecidableEq

/-- `arr[aindex] = value`, which is undefined behind the array. -/
def store (value : Int) (shared : Shared) : Option Shared :=
  if shared.aindex < arrSize then
    some { shared with
      arr := Function.update shared.arr shared.aindex value
      assigned := (shared.aindex, value) :: shared.assigned }
  else none

/-- `aindex = aindex + step`. -/
def move (step : Nat) (shared : Shared) : Option Shared :=
  some { shared with aindex := shared.aindex + step }

/-- The next pass of the loop, or its end. -/
def nextPass (id i : Nat) : Point :=
  if i + 1 ≤ 10 then .lockFirst id (i + 1) else .done

/-- `worker`. -/
def code : Point → Option (Instruction Shared Point)
  | .outside | .done => none
  | .lockFirst id i => some (.acquire (.storeFirst id i))
  | .storeFirst id i => some (.access fun shared =>
      (store (id * 100 + i) shared).map fun shared => (shared, .moveFirst id i))
  | .moveFirst id i => some (.access fun shared =>
      (move 1 shared).map fun shared => (shared, .unlockFirst id i))
  | .unlockFirst id i => some (.release (.lockSecond id i))
  | .lockSecond id i => some (.acquire (.storeSecond id i))
  | .storeSecond id i => some (.access fun shared =>
      (store (id * (i * 2)) shared).map fun shared => (shared, .moveSecond id i))
  | .moveSecond id i => some (.access fun shared =>
      (move 2 shared).map fun shared => (shared, .unlockSecond id i))
  | .unlockSecond id i => some (.release (nextPass id i))

/-- The workers as a program, which is called with an `id`. -/
def program : Program Shared Point Nat where
  code := code
  entry id := .lockFirst id 1

/-- The workers before `main` creates them. -/
def start : ThreadState (Fin noThreads) Shared Point :=
  Program.init .outside ⟨fun _ => 0, 0, []⟩

/-- What `main` lets a thread do: to start with its `id` of the array `ids`, or to go on. -/
inductive Action
  | create (thread : Fin noThreads)
  | run (thread : Fin noThreads)

/-- A step. `main` creates each worker once. -/
def step (state : ThreadState (Fin noThreads) Shared Point) :
    Action → Option (ThreadState (Fin noThreads) Shared Point)
  | .create thread =>
      if state.points thread = .outside then program.step state (.call thread (thread + 1))
      else none
  | .run thread => program.step state (.run thread)

/-- The points at which a worker holds the mutex. -/
def Point.guarded : Point → Bool
  | .storeFirst _ _ | .moveFirst _ _ | .unlockFirst _ _ => true
  | .storeSecond _ _ | .moveSecond _ _ | .unlockSecond _ _ => true
  | .outside | .lockFirst _ _ | .lockSecond _ _ | .done => false

/-- By how much a worker has moved the index. -/
def Point.moved : Point → Nat
  | .outside => 0
  | .lockFirst _ i | .storeFirst _ i | .moveFirst _ i => 3 * (i - 1)
  | .unlockFirst _ i | .lockSecond _ i | .storeSecond _ i | .moveSecond _ i => 3 * (i - 1) + 1
  | .unlockSecond _ i => 3 * i
  | .done => 30

/-- The passes of a worker are numbered from 1 to 10. -/
def Point.pass : Point → Option Nat
  | .outside | .done => none
  | .lockFirst _ i | .storeFirst _ i | .moveFirst _ i | .unlockFirst _ i => some i
  | .lockSecond _ i | .storeSecond _ i | .moveSecond _ i | .unlockSecond _ i => some i

/-- A worker that is about to move the index has assigned the element there. -/
def Point.stored : Point → Bool
  | .moveFirst _ _ | .moveSecond _ _ => true
  | _ => false

/-- The elements that have been assigned: each once, inside the array, in ascending order up
to a bound, and they still hold what they were given. -/
structure Filled (bound : Nat) (shared : Shared) : Prop where
  ascending : (shared.assigned.map Prod.fst).Pairwise (· > ·)
  below : ∀ entry ∈ shared.assigned, entry.1 < bound
  inside : ∀ entry ∈ shared.assigned, entry.1 < arrSize
  kept : ∀ entry ∈ shared.assigned, shared.arr entry.1 = entry.2

/-! ## What a step does -/

/-- The memory after `arr[aindex] = value`. -/
def assign (value : Int) (shared : Shared) : Shared :=
  { shared with
    arr := Function.update shared.arr shared.aindex value
    assigned := (shared.aindex, value) :: shared.assigned }

/-- What one worker does to its point and to the memory. -/
inductive Advance : Point → Shared → Point → Shared → Prop
  | create (id : Nat) {shared} : Advance .outside shared (.lockFirst id 1) shared
  | lockFirst (id i : Nat) {shared} :
      Advance (.lockFirst id i) shared (.storeFirst id i) shared
  | storeFirst (id i : Nat) (value : Int) {shared} (room : shared.aindex < arrSize) :
      Advance (.storeFirst id i) shared (.moveFirst id i) (assign value shared)
  | moveFirst (id i : Nat) {shared} :
      Advance (.moveFirst id i) shared (.unlockFirst id i)
        { shared with aindex := shared.aindex + 1 }
  | unlockFirst (id i : Nat) {shared} :
      Advance (.unlockFirst id i) shared (.lockSecond id i) shared
  | lockSecond (id i : Nat) {shared} :
      Advance (.lockSecond id i) shared (.storeSecond id i) shared
  | storeSecond (id i : Nat) (value : Int) {shared} (room : shared.aindex < arrSize) :
      Advance (.storeSecond id i) shared (.moveSecond id i) (assign value shared)
  | moveSecond (id i : Nat) {shared} :
      Advance (.moveSecond id i) shared (.unlockSecond id i)
        { shared with aindex := shared.aindex + 2 }
  | unlockSecond (id i : Nat) {shared} :
      Advance (.unlockSecond id i) shared (nextPass id i) shared

variable {state next final : ThreadState (Fin noThreads) Shared Point} {action : Action}

theorem store_eq_some {value : Int} {shared after : Shared}
    (stored : store value shared = some after) :
    shared.aindex < arrSize ∧ after = assign value shared := by
  unfold store at stored
  split at stored
  · rename_i room
    exact ⟨room, (Option.some.inj stored).symm⟩
  · cases stored

/-- The mutex is taken and given back between unguarded and guarded points, and stays as it
is everywhere else. -/
theorem guards : program.Guards Point.guarded := by
  constructor
  · intro point outside
    cases point with
    | outside | done => rfl
    | _ => cases outside
  · intro id
    rfl
  · intro point following here
    cases point with
    | lockFirst id i | lockSecond id i =>
        cases here
        rfl
    | _ => cases here
  · intro point following here
    cases point with
    | unlockFirst id i =>
        cases here
        rfl
    | unlockSecond id i =>
        simp only [program, code, Option.some.injEq, Instruction.release.injEq] at here
        rw [← here, nextPass]
        split <;> rfl
    | _ => cases here
  · intro point effect shared result here ran
    cases point with
    | storeFirst id i | storeSecond id i =>
        cases here
        rcases Option.map_eq_some_iff.mp ran with ⟨after, _, rfl⟩
        rfl
    | moveFirst id i | moveSecond id i =>
        cases here
        cases ran
        rfl
    | _ => cases here
  · intro point effect shared result here ran
    cases point with
    | _ => cases here

/-- Every step moves one worker. -/
theorem step_cases (stepped : step state action = some next) :
    ∃ thread point owner shared,
      Advance (state.points thread) state.shared point shared ∧
      next = ⟨Function.update state.points thread point, owner, shared⟩ := by
  cases action with
  | create thread =>
      simp only [step] at stepped
      split at stepped
      · rename_i here
        simp only [Program.step, program, here, code, Option.some.injEq] at stepped
        exact ⟨thread, _, _, _, here ▸ .create (thread + 1), stepped.symm⟩
      · cases stepped
  | run thread =>
      simp only [step, Program.step, program] at stepped
      cases here : state.points thread with
      | outside | done => simp [here, code] at stepped
      | lockFirst id i =>
          simp only [here, code] at stepped
          split at stepped
          · cases stepped
            exact ⟨thread, _, _, _, here ▸ .lockFirst id i, rfl⟩
          · cases stepped
      | lockSecond id i =>
          simp only [here, code] at stepped
          split at stepped
          · cases stepped
            exact ⟨thread, _, _, _, here ▸ .lockSecond id i, rfl⟩
          · cases stepped
      | unlockFirst id i =>
          simp only [here, code, Option.some.injEq] at stepped
          exact ⟨thread, _, _, _, here ▸ .unlockFirst id i, stepped.symm⟩
      | unlockSecond id i =>
          simp only [here, code, Option.some.injEq] at stepped
          exact ⟨thread, _, _, _, here ▸ .unlockSecond id i, stepped.symm⟩
      | moveFirst id i =>
          simp only [here, code, move, Option.map_some, Option.some.injEq] at stepped
          exact ⟨thread, _, _, _, here ▸ .moveFirst id i, stepped.symm⟩
      | moveSecond id i =>
          simp only [here, code, move, Option.map_some, Option.some.injEq] at stepped
          exact ⟨thread, _, _, _, here ▸ .moveSecond id i, stepped.symm⟩
      | storeFirst id i =>
          simp only [here, code, Option.map_map, Option.map_eq_some_iff] at stepped
          rcases stepped with ⟨after, stored, rfl⟩
          rcases store_eq_some stored with ⟨room, rfl⟩
          exact ⟨thread, _, _, _, here ▸ .storeFirst id i _ room, rfl⟩
      | storeSecond id i =>
          simp only [here, code, Option.map_map, Option.map_eq_some_iff] at stepped
          rcases stepped with ⟨after, stored, rfl⟩
          rcases store_eq_some stored with ⟨room, rfl⟩
          exact ⟨thread, _, _, _, here ▸ .storeSecond id i _ room, rfl⟩

/-- The law of the mutex. -/
theorem owned_step (owned : Program.Owned Point.guarded state)
    (stepped : step state action = some next) : Program.Owned Point.guarded next := by
  have releases : ∀ thread, program.Releases Point.guarded state
      (.run thread : Turn (Fin noThreads) Nat) := by
    intro thread
    simp only [Program.Releases, program]
    cases here : state.points thread <;> simp [code, Point.guarded]
  cases action with
  | create thread =>
      have calls : program.Releases Point.guarded state (.call thread (thread + 1)) := trivial
      simp only [step] at stepped
      split at stepped
      · exact owned.step guards calls stepped
      · cases stepped
  | run thread => exact owned.step guards (releases thread) stepped

/-! ## The index and the array -/

theorem filled_assign {value : Int} {shared : Shared} (filled : Filled shared.aindex shared)
    (room : shared.aindex < arrSize) : Filled (shared.aindex + 1) (assign value shared) := by
  constructor
  · simp only [assign, List.map_cons, List.pairwise_cons]
    refine ⟨?_, filled.ascending⟩
    intro slot member
    rcases List.mem_map.mp member with ⟨entry, found, rfl⟩
    exact filled.below entry found
  · intro entry member
    rcases List.mem_cons.mp member with rfl | old
    · exact Nat.lt_succ_self _
    · exact Nat.lt_succ_of_lt (filled.below entry old)
  · intro entry member
    rcases List.mem_cons.mp member with rfl | old
    · exact room
    · exact filled.inside entry old
  · intro entry member
    rcases List.mem_cons.mp member with rfl | old
    · exact Function.update_self _ _ _
    · have apart : entry.1 ≠ shared.aindex := Nat.ne_of_lt (filled.below entry old)
      simp only [assign, Function.update_of_ne apart]
      exact filled.kept entry old

theorem Filled.mono {bound bound' : Nat} {shared : Shared} (filled : Filled bound shared)
    (more : bound ≤ bound') : Filled bound' shared :=
  ⟨filled.ascending, fun entry member => Nat.lt_of_lt_of_le (filled.below entry member) more,
    filled.inside, filled.kept⟩

/-- Between two steps the index is where the workers have moved it, and the elements before
it are filled. A worker that is about to move it has filled the element there as well. -/
structure Consistent (state : ThreadState (Fin noThreads) Shared Point) : Prop where
  owned : Program.Owned Point.guarded state
  pass : ∀ thread i, (state.points thread).pass = some i → 1 ≤ i ∧ i ≤ 10
  index : state.shared.aindex = ∑ thread, (state.points thread).moved
  bounded : state.shared.aindex ≤ arrSize + 1
  filled : (∀ thread, (state.points thread).stored = false) →
    Filled state.shared.aindex state.shared
  stored : ∀ thread, (state.points thread).stored = true →
    state.shared.aindex < arrSize ∧ Filled (state.shared.aindex + 1) state.shared

theorem consistent_start : Consistent start where
  owned := Program.owned_init rfl _
  pass := by
    intro thread i found
    cases found
  index := by simp [start, Program.init, Point.moved]
  bounded := Nat.zero_le _
  filled _ := by
    constructor <;> simp [start, Program.init]
  stored := by
    intro thread stored
    cases stored

/-- A step leaves the memory alone, assigns the element at the index, or moves the index
behind the element that was assigned. -/
inductive Effect (old point : Point) (shared : Shared) : Shared → Prop
  | quiet (moved : point.moved = old.moved) (before : old.stored = false)
      (behind : point.stored = false) : Effect old point shared shared
  | assigned (value : Int) (room : shared.aindex < arrSize) (moved : point.moved = old.moved)
      (inside : old.guarded = true) (before : old.stored = false) (behind : point.stored = true) :
      Effect old point shared (assign value shared)
  | moved (steps : Nat) (positive : 1 ≤ steps) (atMost : steps ≤ 2)
      (moved : point.moved = old.moved + steps) (before : old.stored = true)
      (behind : point.stored = false) :
      Effect old point shared { shared with aindex := shared.aindex + steps }

theorem Advance.effect {old point : Point} {shared after : Shared}
    (advance : Advance old shared point after)
    (pass : ∀ i, old.pass = some i → 1 ≤ i ∧ i ≤ 10) : Effect old point shared after := by
  cases advance with
  | create id => exact .quiet rfl rfl rfl
  | lockFirst id i | unlockFirst id i | lockSecond id i => exact .quiet rfl rfl rfl
  | unlockSecond id i =>
      have bounds := pass i rfl
      unfold nextPass
      split
      · exact .quiet (by simp [Point.moved]) rfl rfl
      · refine .quiet ?_ rfl rfl
        simp only [Point.moved]
        omega
  | storeFirst id i value room | storeSecond id i value room =>
      exact .assigned value room rfl rfl rfl rfl
  | moveFirst id i => exact .moved 1 le_rfl (by decide) rfl rfl rfl
  | moveSecond id i =>
      have bounds := pass i rfl
      refine .moved 2 (by decide) le_rfl ?_ rfl rfl
      simp only [Point.moved]
      omega

theorem Advance.pass {old point : Point} {shared after : Shared}
    (advance : Advance old shared point after)
    (pass : ∀ i, old.pass = some i → 1 ≤ i ∧ i ≤ 10) (i : Nat) (found : point.pass = some i) :
    1 ≤ i ∧ i ≤ 10 := by
  cases advance with
  | create id =>
      cases found
      decide
  | unlockSecond id j =>
      have bounds := pass j rfl
      unfold nextPass at found
      split at found
      · cases found
        omega
      · cases found
  | _ => exact pass i found

theorem Point.guarded_of_stored {point : Point} (stored : point.stored = true) :
    point.guarded = true := by
  cases point with
  | moveFirst id i | moveSecond id i => rfl
  | _ => cases stored

/-- Step lemma. -/
theorem Consistent.step (consistent : Consistent state) (stepped : step state action = some next) :
    Consistent next := by
  have owned := owned_step consistent.owned stepped
  rcases step_cases stepped with ⟨thread, point, owner, after, advance, rfl⟩
  have pass := consistent.pass thread
  have others : ∀ other, other ≠ thread →
      Function.update state.points thread point other = state.points other :=
    fun other apart => Function.update_of_ne apart _ _
  have sums : ∑ other, (Function.update state.points thread point other).moved +
      (state.points thread).moved = ∑ other, (state.points other).moved + point.moved := by
    have frame : ∀ other, other ≠ thread →
        (Function.update state.points thread point other).moved = (state.points other).moved := by
      intro other apart
      rw [others other apart]
    simpa only [Function.update_self] using sum_of_frame frame
  have index := consistent.index
  have bounded := consistent.bounded
  have passes : ∀ other i, (Function.update state.points thread point other).pass = some i →
      1 ≤ i ∧ i ≤ 10 := by
    intro other i found
    by_cases same : other = thread
    · subst same
      rw [Function.update_self] at found
      exact advance.pass pass i found
    · rw [others other same] at found
      exact consistent.pass other i found
  -- two workers that have assigned and not moved would both hold the mutex
  have alone : (state.points thread).guarded = true → ∀ other, other ≠ thread →
      (state.points other).stored = false := by
    intro inside other apart
    rw [Bool.eq_false_iff]
    intro also
    have first := (consistent.owned thread).mp inside
    have second := (consistent.owned other).mp (Point.guarded_of_stored also)
    exact apart (Option.some.inj (second.symm.trans first))
  have effect := advance.effect pass
  constructor
  · exact owned
  · exact passes
  · cases effect with
    | quiet moved before behind =>
        simp only
        omega
    | assigned value room moved inside before behind =>
        simp only [assign]
        omega
    | moved steps positive atMost moved before behind =>
        simp only
        omega
  · cases effect with
    | quiet moved before behind => exact bounded
    | assigned value room moved inside before behind => exact bounded
    | moved steps positive atMost moved before behind =>
        have room := (consistent.stored thread before).1
        simp only
        omega
  · intro none
    dsimp only at none
    have here := none thread
    rw [Function.update_self] at here
    cases effect with
    | quiet moved before behind =>
        apply consistent.filled
        intro other
        by_cases same : other = thread
        · rw [same, before]
        · rw [← others other same]
          exact none other
    | assigned value room moved inside before behind =>
        rw [here] at behind
        cases behind
    | moved steps positive atMost moved before behind =>
        have filled := (consistent.stored thread before).2.mono (Nat.add_le_add_left positive _)
        exact ⟨filled.ascending, filled.below, filled.inside, filled.kept⟩
  · intro other stored
    dsimp only at stored
    cases effect with
    | quiet moved before behind =>
        have apart : other ≠ thread := by
          rintro rfl
          rw [Function.update_self, behind] at stored
          cases stored
        rw [others other apart] at stored
        exact consistent.stored other stored
    | assigned value room moved inside before behind =>
        refine ⟨room, filled_assign (consistent.filled ?_) room⟩
        intro another
        by_cases same : another = thread
        · rw [same, before]
        · exact alone inside another same
    | moved steps positive atMost moved before behind =>
        exfalso
        by_cases same : other = thread
        · rw [same, Function.update_self, behind] at stored
          cases stored
        · rw [others other same, alone (Point.guarded_of_stored before) other same] at stored
          cases stored

theorem run_consistent {actions : List Action} (ran : exec step start actions = some final) :
    Consistent final :=
  exec_invariant consistent_start (fun _ _ _ stepped consistent => consistent.step stepped) ran

/-! ## Where the workers stop -/

/-- The mutex is with a worker that is about to assign an element behind the array. -/
def Overruns (state : ThreadState (Fin noThreads) Shared Point) : Prop :=
  arrSize ≤ state.shared.aindex ∧ ∃ thread id i, state.mutex = some thread ∧
    (state.points thread = .storeFirst id i ∨ state.points thread = .storeSecond id i)

/-- A worker with the mutex can take a step, unless it would assign an element behind the
array. -/
theorem holder_steps {thread : Fin noThreads} (inside : (state.points thread).guarded = true)
    (held : state.mutex = some thread) :
    Overruns state ∨ ∃ next, step state (.run thread) = some next := by
  cases here : state.points thread with
  | storeFirst id i =>
      by_cases room : state.shared.aindex < arrSize
      · right
        simp [step, Program.step, program, here, code, store, room]
      · exact Or.inl ⟨Nat.le_of_not_lt room, thread, id, i, held, Or.inl here⟩
  | storeSecond id i =>
      by_cases room : state.shared.aindex < arrSize
      · right
        simp [step, Program.step, program, here, code, store, room]
      · exact Or.inl ⟨Nat.le_of_not_lt room, thread, id, i, held, Or.inr here⟩
  | moveFirst id i | moveSecond id i =>
      right
      simp [step, Program.step, program, here, code, move]
  | unlockFirst id i | unlockSecond id i =>
      right
      simp [step, Program.step, program, here, code]
  | _ =>
      rw [here] at inside
      cases inside

/-- The index cannot get as far as five complete workers would move it. -/
theorem exists_not_done (consistent : Consistent state) :
    ∃ thread, state.points thread ≠ .done := by
  by_contra none
  simp only [not_exists, not_not] at none
  have index := consistent.index
  have bounded := consistent.bounded
  simp only [none, Point.moved, Finset.sum_const, Finset.card_univ, Fintype.card_fin,
    smul_eq_mul] at index
  rw [index] at bounded
  exact absurd bounded (by decide)

/-- As long as no worker is about to assign an element behind the array, one of them can
take a step. -/
theorem exists_step (consistent : Consistent state)
    (unfinished : ∃ thread, state.points thread ≠ .done) :
    Overruns state ∨ ∃ action next, step state action = some next := by
  cases held : state.mutex with
  | some thread =>
      rcases holder_steps ((consistent.owned thread).mpr held) held with overruns | ⟨next, stepped⟩
      · exact Or.inl overruns
      · exact Or.inr ⟨_, next, stepped⟩
  | none =>
      right
      rcases unfinished with ⟨thread, busy⟩
      have outside := consistent.owned thread
      rw [held] at outside
      cases here : state.points thread with
      | outside => exact ⟨.create thread, _, by simp [step, Program.step, program, here, code]; rfl⟩
      | lockFirst id i | lockSecond id i =>
          exact ⟨.run thread, _, by simp [step, Program.step, program, here, code, held]; rfl⟩
      | done => exact absurd here busy
      | _ => simp [here, Point.guarded] at outside

/-- The elements that have been assigned. -/
theorem Consistent.assigned (consistent : Consistent state) :
    (state.shared.assigned.map Prod.fst).Nodup ∧
      ∀ entry ∈ state.shared.assigned, entry.1 < arrSize ∧ state.shared.arr entry.1 = entry.2 := by
  have filled : ∃ bound, Filled bound state.shared := by
    by_cases stored : ∃ thread, (state.points thread).stored = true
    · rcases stored with ⟨thread, stored⟩
      exact ⟨_, (consistent.stored thread stored).2⟩
    · refine ⟨_, consistent.filled ?_⟩
      simpa using stored
  rcases filled with ⟨bound, filled⟩
  refine ⟨?_, fun entry member => ⟨filled.inside entry member, filled.kept entry member⟩⟩
  exact filled.ascending.imp fun greater => Nat.ne_of_gt greater

/-- In every interleaving of the five workers the index is the sum of what they have added,
each element before it is assigned at most once and keeps its value, and as long as no worker
is about to write behind the array some worker can take a step; but the workers never get
to their ends. -/
theorem workers_overrun (actions : List Action)
    (state : ThreadState (Fin noThreads) Shared Point)
    (ran : exec step start actions = some state) :
    state.shared.aindex = ∑ thread, (state.points thread).moved ∧
    (state.shared.assigned.map Prod.fst).Nodup ∧
    (∀ entry ∈ state.shared.assigned, entry.1 < arrSize ∧ state.shared.arr entry.1 = entry.2) ∧
    (Overruns state ∨ ∃ action next, step state action = some next) ∧
    ∃ thread, state.points thread ≠ .done := by
  have consistent := run_consistent ran
  have unfinished := exists_not_done consistent
  refine ⟨consistent.index, ?_, ?_, exists_step consistent unfinished, unfinished⟩
  · exact consistent.assigned.1
  · exact consistent.assigned.2

theorem noThreads_pos : 0 < noThreads := by decide

/-- The worker with the id 1. -/
def firstWorker : Fin noThreads := ⟨0, noThreads_pos⟩

/-- The first pass of the first worker. -/
def firstPass : List Action :=
  .create firstWorker :: List.replicate 8 (.run firstWorker)

theorem workers_overrun_firstPass :
    ∃ state, exec step start firstPass = some state ∧
      state.shared.aindex = ∑ thread, (state.points thread).moved :=
  ⟨_, rfl, (workers_overrun firstPass _ rfl).1⟩

example : ((exec step start firstPass).map fun state => state.shared.assigned) =
    some [(1, 2), (0, 101)] := by
  decide

end ComputerSystems.Threads.Worker

import ComputerSystems.Concurrency.Serial
import ComputerSystems.LockedHeap.Exclusion
import ComputerSystems.Loop.While

/-!
# One call after the other

`pm_malloc_lock` and `pm_free_lock` of `A8/malloc.c` as functions, for calls with no other
thread in between. In a run in which no call finds the array without a first block, the
calls of all threads act on the array like these functions, one after the other in the
order in which they return.
-/

namespace ComputerSystems.LockedHeap.A8

open ComputerSystems.Concurrency
open ComputerSystems.Heap (size setFree sizeofBlock searchBody allocateAt mergeBody)
open ComputerSystems.Loop
open ComputerSystems.Transition

/-- The part of `pm_malloc_lock` before the search. -/
def prepare (freeList : BitVec 64) (memory : Memory) : Memory :=
  if size memory freeList = 0#64 then initBlock freeList memory else memory

/-- `pm_malloc_lock`: the memory it leaves and the pointer it returns. -/
def pmMallocLock (freeList : BitVec 64) (memory : Memory) (noOfBytes : BitVec 64) (fuel : Nat) :
    Outcome (Memory × BitVec 64) :=
  (loop (searchBody (prepare freeList memory) noOfBytes) fuel freeList).map
    (allocateAt (prepare freeList memory) noOfBytes)

/-- `pm_free_lock`. -/
def pmFreeLock (freeList : BitVec 64) (memory : Memory) (ptr : BitVec 64) (fuel : Nat) :
    Outcome Memory :=
  if freeList ≤ ptr ∧ ptr ≤ freeList + pageSize then
    (loop mergeBody fuel (setFree memory (ptr - sizeofBlock) 1#32, freeList)).map Prod.fst
  else .done memory

/-- What a call does that returns from a point: `pm_malloc_lock` returns the pointer that it
holds there. -/
def Serves (freeList : BitVec 64) (before : Memory) : Request → Point → Memory → Prop
  | .malloc noOfBytes, .unlockMalloc res _ _, after =>
      Completes (pmMallocLock freeList before noOfBytes) (after, res)
  | .free ptr, .unlockFree, after => Completes (pmFreeLock freeList before ptr) after
  | _, _, _ => False

/-- Calls of the two functions, one after the other. -/
inductive OneByOne {τ : Type*} (freeList : BitVec 64) (start : Memory) :
    List (τ × Request × Point) → Memory → Prop
  | nil : OneByOne freeList start [] start
  | snoc {calls : List (τ × Request × Point)} {before after : Memory} (thread : τ)
      (request : Request) (point : Point) (earlier : OneByOne freeList start calls before)
      (serves : Serves freeList before request point after) :
      OneByOne freeList start (calls ++ [(thread, request, point)]) after

/-! ## A call alone -/

/-- How far a call has come that started on some memory. -/
inductive Reached (freeList : BitVec 64) (before : Memory) : Request → Memory × Point → Prop
  | lockMalloc (noOfBytes : BitVec 64) :
      Reached freeList before (.malloc noOfBytes) (before, .lockMalloc noOfBytes)
  | checkSize (noOfBytes : BitVec 64) :
      Reached freeList before (.malloc noOfBytes) (before, .checkSize noOfBytes)
  | callInit (noOfBytes : BitVec 64) (zero : size before freeList = 0#64) :
      Reached freeList before (.malloc noOfBytes) (before, .callInit noOfBytes)
  | unlockFirst (noOfBytes : BitVec 64) :
      Reached freeList before (.malloc noOfBytes) (prepare freeList before, .unlockFirst noOfBytes)
  | search (noOfBytes current : BitVec 64) (unlocked : Bool)
      (visits : Visits (searchBody (prepare freeList before) noOfBytes) freeList current) :
      Reached freeList before (.malloc noOfBytes)
        (prepare freeList before, .search noOfBytes current unlocked)
  | allocate (noOfBytes current : BitVec 64) (unlocked : Bool)
      (found : Completes
        (fun fuel => loop (searchBody (prepare freeList before) noOfBytes) fuel freeList) current) :
      Reached freeList before (.malloc noOfBytes)
        (prepare freeList before, .allocate noOfBytes current unlocked)
  | unlockMalloc {after : Memory} (noOfBytes res : BitVec 64) (unlocked : Bool)
      (returns : Completes (pmMallocLock freeList before noOfBytes) (after, res)) :
      Reached freeList before (.malloc noOfBytes) (after, .unlockMalloc res none unlocked)
  | lockFree (ptr : BitVec 64) : Reached freeList before (.free ptr) (before, .lockFree ptr)
  | markFree (ptr : BitVec 64) : Reached freeList before (.free ptr) (before, .markFree ptr)
  | merge {memory : Memory} (ptr curr : BitVec 64)
      (valid : freeList ≤ ptr ∧ ptr ≤ freeList + pageSize)
      (visits : Visits mergeBody (setFree before (ptr - sizeofBlock) 1#32, freeList)
        (memory, curr)) :
      Reached freeList before (.free ptr) (memory, .merge curr)
  | unlockFree {after : Memory} (ptr : BitVec 64)
      (returns : Completes (pmFreeLock freeList before ptr) after) :
      Reached freeList before (.free ptr) (after, .unlockFree)
  | idle {memory : Memory} (request : Request) : Reached freeList before request (memory, .idle)

variable {freeList : BitVec 64} {before : Memory}

theorem reached_entry (request : Request) :
    Reached freeList before request (before, (program version freeList).entry request) := by
  cases request with
  | malloc noOfBytes => exact .lockMalloc noOfBytes
  | free ptr => exact .lockFree ptr

theorem pmMallocLock_completes {noOfBytes current : BitVec 64}
    (found : Completes
      (fun fuel => loop (searchBody (prepare freeList before) noOfBytes) fuel freeList) current) :
    Completes (pmMallocLock freeList before noOfBytes)
      (allocateAt (prepare freeList before) noOfBytes current) := by
  unfold pmMallocLock
  exact found.map _

theorem pmFreeLock_completes {ptr curr : BitVec 64} {after : Memory}
    (valid : freeList ≤ ptr ∧ ptr ≤ freeList + pageSize)
    (found : Completes
      (fun fuel => loop mergeBody fuel (setFree before (ptr - sizeofBlock) 1#32, freeList))
      (after, curr)) : Completes (pmFreeLock freeList before ptr) after := by
  unfold pmFreeLock
  simp only [if_pos valid]
  exact found.map Prod.fst

/-- What the choice of the block leaves and returns. -/
theorem allocateStep_eq (noOfBytes current : BitVec 64) (unlocked : Bool) (memory : Memory) :
    allocateStep version noOfBytes current unlocked memory =
      some ((allocateAt memory noOfBytes current).1,
        .unlockMalloc (allocateAt memory noOfBytes current).2 none unlocked) := by
  simp only [allocateStep, allocateAt]
  split
  · rfl
  · split <;> rfl

theorem Reached.advance {request : Request} {now next : Memory × Point}
    (reached : Reached freeList before request now)
    (advanced : (program version freeList).advance now = some next) :
    Reached freeList before request next := by
  cases reached with
  | lockMalloc noOfBytes =>
      cases advanced
      exact .checkSize noOfBytes
  | checkSize noOfBytes =>
      simp only [Program.advance, program, code, Option.some.injEq] at advanced
      subst advanced
      split
      · rename_i zero
        exact .callInit noOfBytes zero
      · rename_i nonzero
        have ready : prepare freeList before = before := if_neg nonzero
        have searches := @Reached.search freeList before noOfBytes freeList false .refl
        rwa [ready] at searches
  | callInit noOfBytes zero =>
      have ready : prepare freeList before = initBlock freeList before := if_pos zero
      simp only [Program.advance, program, code, version, init, Option.map_some,
        Option.some.injEq] at advanced
      rw [← advanced, ← ready]
      exact .unlockFirst noOfBytes
  | unlockFirst noOfBytes =>
      simp only [Program.advance, program, code, Option.some.injEq] at advanced
      rw [← advanced]
      exact .search noOfBytes freeList true .refl
  | search noOfBytes current unlocked visits =>
      simp only [Program.advance, program, code, searchStep] at advanced
      split at advanced
      · rename_i moves
        rw [← Option.some.inj advanced]
        refine .search noOfBytes _ unlocked (visits.tail ?_)
        simp only [searchBody, if_pos moves]
      · rename_i stays
        rw [← Option.some.inj advanced]
        refine .allocate noOfBytes current unlocked (visits.completes ?_)
        simp only [searchBody, if_neg stays]
  | allocate noOfBytes current unlocked found =>
      have returns := pmMallocLock_completes found
      simp only [Program.advance, program, code, allocateStep_eq] at advanced
      generalize allocateAt (prepare freeList before) noOfBytes current = result at returns advanced
      rcases result with ⟨after, res⟩
      rw [← Option.some.inj advanced]
      exact .unlockMalloc noOfBytes res unlocked returns
  | unlockMalloc noOfBytes res unlocked returns =>
      simp only [Program.advance, program, code, Option.some.injEq] at advanced
      rw [← advanced]
      exact .idle _
  | lockFree ptr =>
      cases advanced
      exact .markFree ptr
  | markFree ptr =>
      simp only [Program.advance, program, code, markFreeStep] at advanced
      split at advanced
      · rename_i valid
        rw [← Option.some.inj advanced]
        exact .merge ptr freeList valid .refl
      · rename_i invalid
        rw [← Option.some.inj advanced]
        refine .unlockFree ptr ⟨0, ?_⟩
        rw [pmFreeLock, if_neg invalid]
  | @merge memory ptr curr valid visits =>
      simp only [Program.advance, program, code, mergeStep] at advanced
      split at advanced
      · cases advanced
      · rename_i exits
        rw [← Option.some.inj advanced]
        exact .unlockFree ptr (pmFreeLock_completes valid (visits.completes exits))
      · rename_i merged following steps
        rw [← Option.some.inj advanced]
        exact .merge ptr following valid (visits.tail steps)
  | unlockFree ptr returns =>
      simp only [Program.advance, program, code, version, Bool.false_eq_true, if_false,
        Option.some.injEq] at advanced
      rw [← advanced]
      exact .idle _
  | idle request => cases advanced

theorem reached_of_alone {request : Request} {now : Memory × Point}
    (runs : (program version freeList).Alone (before, (program version freeList).entry request)
      now) : Reached freeList before request now := by
  induction runs with
  | refl => exact reached_entry request
  | tail _ advanced ih => exact ih.advance advanced

/-- A call that is about to return. -/
theorem Reached.serves {request : Request} {now : Memory × Point} {next : Point}
    (reached : Reached freeList before request now)
    (releases : (program version freeList).code now.2 = some (.release next))
    (outside : (program version freeList).code next = none) :
    Serves freeList before request now.2 now.1 := by
  cases reached with
  | unlockMalloc noOfBytes res unlocked returns => exact returns
  | unlockFree ptr returns => exact returns
  | unlockFirst noOfBytes =>
      simp only [program, code, Option.some.injEq, Instruction.release.injEq] at releases
      rw [← releases] at outside
      simp [program, code] at outside
  | _ => simp [program, code] at releases

/-- Serial calls are calls of the two functions, one after the other. -/
theorem oneByOne_of_serial {τ : Type*} {start after : Memory} {calls : List (τ × Request × Point)}
    (serial : (program version freeList).Serial start calls after) :
    OneByOne freeList start calls after := by
  induction serial with
  | nil => exact .nil
  | snoc thread request _ runs releases outside ih =>
      exact .snoc thread request _ ih ((reached_of_alone runs).serves releases outside)

/-! ## Runs -/

/-- The points of a run in which no call finds the array without a first block. -/
def Plain : Point → Bool
  | .callInit _ | .unlockFirst _ | .fill _ _ | .unlockAgain => false
  | .search _ _ unlocked | .allocate _ _ unlocked => !unlocked
  | .unlockMalloc _ filled unlocked => filled.isNone && !unlocked
  | .idle | .lockMalloc _ | .checkSize _ | .lockFree _ | .markFree _ | .merge _ => true
  | .unlockFree => true

section Runs

variable {τ : Type*} [DecidableEq τ] {state next : ThreadState τ Memory Point}

theorem leads_plain {memory : Memory} {point following : Point} (plain : Plain point = true)
    (ready : ∀ noOfBytes, point = .checkSize noOfBytes → size memory freeList ≠ 0#64)
    (leads : (program version freeList).Leads point memory following) :
    Plain following = true := by
  cases point with
  | idle =>
      rcases leads with ⟨request, rfl⟩
      cases request <;> rfl
  | lockMalloc noOfBytes | lockFree ptr =>
      simp only [Program.Leads, program, code] at leads
      rw [leads]
      rfl
  | checkSize noOfBytes =>
      simp only [Program.Leads, program, code, if_neg (ready noOfBytes rfl)] at leads
      rcases leads with ⟨written, ran⟩
      cases ran
      rfl
  | search noOfBytes current unlocked =>
      simp only [Program.Leads, program, code, searchStep] at leads
      rcases leads with ⟨written, ran⟩
      split at ran <;> cases ran <;> exact plain
  | allocate noOfBytes current unlocked =>
      simp only [Program.Leads, program, code, allocateStep_eq] at leads
      rcases leads with ⟨written, ran⟩
      have same := congrArg Prod.snd (Option.some.inj ran)
      rw [show following = _ from same.symm]
      exact plain
  | unlockMalloc res filled unlocked =>
      cases filled with
      | none =>
          simp only [Program.Leads, program, code] at leads
          rw [leads]
          rfl
      | some noOfBytes => cases plain
  | markFree ptr =>
      simp only [Program.Leads, program, code, markFreeStep] at leads
      rcases leads with ⟨written, ran⟩
      split at ran <;> cases ran <;> rfl
  | merge curr =>
      simp only [Program.Leads, program, code, mergeStep] at leads
      rcases leads with ⟨written, ran⟩
      split at ran
      · cases ran
      · cases ran
        rfl
      · cases ran
        rfl
  | unlockFree =>
      simp only [Program.Leads, program, code] at leads
      rw [leads]
      rfl
  | callInit noOfBytes | unlockFirst noOfBytes | fill res noOfBytes | unlockAgain => cases plain

omit [DecidableEq τ] in
/-- Every call is one critical section. -/
theorem sectioned {turn : Turn τ Request} (plain : ∀ thread, Plain (state.points thread) = true) :
    (program version freeList).Sectioned Point.guarded state turn := by
  cases turn with
  | call thread request => exact trivial
  | run thread =>
      have here := plain thread
      simp only [Program.Sectioned, program]
      cases point : state.points thread with
      | search noOfBytes current unlocked | allocate noOfBytes current unlocked =>
          rw [point] at here
          exact here
      | unlockMalloc res filled unlocked =>
          rw [point] at here
          cases filled with
          | none => exact ⟨here, rfl⟩
          | some noOfBytes => cases here
      | callInit noOfBytes | unlockFirst noOfBytes | fill res noOfBytes | unlockAgain =>
          rw [point] at here
          cases here
      | unlockFree => exact ⟨rfl, rfl⟩
      | checkSize noOfBytes | markFree ptr | merge curr => rfl
      | idle | lockMalloc noOfBytes | lockFree ptr => trivial

theorem plain_step {turn : Turn τ Request} (sound : Sound freeList state turn)
    (stepped : (program version freeList).step state turn = some next)
    (plain : ∀ thread, Plain (state.points thread) = true) (thread : τ) :
    Plain (next.points thread) = true := by
  rcases Program.step_leads stepped with ⟨leads, others⟩
  by_cases same : thread = turn.thread
  · rw [same]
    refine leads_plain (plain turn.thread) ?_ leads
    intro noOfBytes here
    cases turn with
    | call caller request =>
        rw [Turn.thread] at here
        simp [Program.step, program, code, here] at stepped
    | run runner =>
        rw [Turn.thread] at here
        simpa only [Sound, here] using sound
  · rw [others thread same]
    exact plain thread

/-- In a run in which no call finds the array without a first block, the array holds
whenever the mutex is free what the calls that have returned make of it one after the
other, and each of them has returned what it returns then. -/
theorem run_oneByOne (freeList : BitVec 64) (memory : Memory) (turns : List (Turn τ Request))
    (sound : EveryStep (program version freeList).step (Sound freeList) (start memory) turns)
    (state : ThreadState τ Memory Point)
    (ran : exec (program version freeList).step (start memory) turns = some state)
    (free : state.mutex = none) :
    OneByOne freeList memory ((program version freeList).returned (start memory) turns)
      state.shared := by
  have each : EveryStep (program version freeList).step
      ((program version freeList).Sectioned Point.guarded) (start memory) turns := by
    refine sound.imp (fun state => ∀ thread, Plain (state.points thread) = true)
      (fun _ => rfl) ?_ ?_
    · intro state turn plain _
      exact sectioned plain
    · intro state turn next sound stepped plain
      exact plain_step sound stepped plain
  exact oneByOne_of_serial (Program.run_serial (guards version freeList) rfl each ran free)

/-- A block of 16 bytes is allocated, a second thread that waits for the mutex allocates 32
bytes, and the first block is freed. -/
def allocateAndFree : List (Turn Nat Request) :=
  [.call 0 (.malloc 16#64), .run 0, .call 1 (.malloc 32#64), .run 0, .run 0, .run 0, .run 0,
    .run 1, .run 1, .run 1, .run 1, .run 1, .run 1, .call 0 (.free 0x1018#64), .run 0, .run 0,
    .run 0, .run 0, .run 0, .run 0]

theorem run_oneByOne_allocateAndFree :
    ∃ state, exec (program version 0x1000#64).step (start (initBlock 0x1000#64 fun _ => 0#8))
        allocateAndFree = some state ∧ state.mutex = none ∧
      OneByOne 0x1000#64 (initBlock 0x1000#64 fun _ => 0#8)
        ((program version 0x1000#64).returned (start (initBlock 0x1000#64 fun _ => 0#8))
          allocateAndFree) state.shared := by
  have reached : (exec (program version 0x1000#64).step
      (start (initBlock 0x1000#64 fun _ => 0#8)) allocateAndFree).map
        (fun state => state.mutex) = some none := by decide +kernel
  rcases Option.map_eq_some_iff.mp reached with ⟨state, ran, free⟩
  have sound : EveryStep (program version 0x1000#64).step (Sound 0x1000#64)
      (start (initBlock 0x1000#64 fun _ => 0#8)) allocateAndFree := by
    decide +kernel
  exact ⟨state, ran, free, run_oneByOne 0x1000#64 _ allocateAndFree sound state ran free⟩

example : ((program version 0x1000#64).returned (start (initBlock 0x1000#64 fun _ => 0#8))
      allocateAndFree).map (fun call => (call.1, call.2.2)) =
    [(0, .unlockMalloc 0x1018#64 none false), (1, .unlockMalloc 0x1040#64 none false),
      (0, .unlockFree)] := by
  decide +kernel

end Runs

end ComputerSystems.LockedHeap.A8

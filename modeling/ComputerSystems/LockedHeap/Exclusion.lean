import ComputerSystems.LockedHeap.Core

/-!
# Mutual exclusion of the thread-safe heaps

Both versions of `pm_malloc_lock` give the mutex back after `init` and then walk
the block list without it. The version of `pm_free_lock` in `PracticumI/malloc.c`
unlocks a second time, when another thread may hold the mutex. Away from these
two places the threads inside the list code hold the mutex.
-/

namespace ComputerSystems.LockedHeap

open ComputerSystems.Concurrency
open ComputerSystems.Heap (size)
open ComputerSystems.Transition

variable {τ : Type*} [DecidableEq τ] {version : Version} {freeList : BitVec 64}
  {state next : ThreadState τ Memory Point} {memory : Memory}

/-! ## Points that threads reach -/

/-- The points after `checkSize` has found an array that is not initialised. -/
def Point.firstUse : Point → Bool
  | .callInit _ | .unlockFirst _ => true
  | .search _ _ unlocked | .allocate _ _ unlocked | .unlockMalloc _ _ unlocked => unlocked
  | .idle | .lockMalloc _ | .checkSize _ | .fill _ _ | .lockFree _ | .markFree _ | .merge _ => false
  | .unlockFree | .unlockAgain => false

/-- A step from one point to another takes or gives back the mutex, fills the block
it has returned, or accesses the block list. -/
theorem leads_cases {point following : Point}
    (leads : (program version freeList).Leads point memory following) :
    (∃ request, following = (program version freeList).entry request) ∨
      (program version freeList).code point = some (.acquire following) ∨
      (program version freeList).code point = some (.release following) ∨
      following = .idle ∨ Follows freeList memory point following := by
  simp only [Program.Leads] at leads
  split at leads
  · exact Or.inl leads
  · rename_i code
    exact Or.inr (Or.inl (leads ▸ code))
  · rename_i code
    exact Or.inr (Or.inr (Or.inl (leads ▸ code)))
  · rename_i effect code
    rcases leads with ⟨written, ran⟩
    exact Or.inr (Or.inr (Or.inr (Or.inr (access_follows code ran))))
  · rename_i effect access
    rcases leads with ⟨written, ran⟩
    cases point with
    | fill res noOfBytes =>
        simp only [program, code, Option.some.injEq, Instruction.other.injEq] at access
        subst access
        exact Or.inr (Or.inr (Or.inr (Or.inl (congrArg Prod.snd (Option.some.inj ran)).symm)))
    | _ => simp [program, code] at access

/-- Only the unlock in a branch of `pm_free_lock` leads to another one. -/
theorem leads_unlockAgain {point : Point}
    (leads : (program version freeList).Leads point memory .unlockAgain) :
    version.unlocksAgain = true := by
  rcases leads_cases leads with ⟨request, same⟩ | acquires | releases | same | follows
  · cases request <;> cases same
  · cases point <;> simp [program, code] at acquires
  · cases point with
    | unlockMalloc res filled unlocked => cases filled <;> simp [program, code] at releases
    | unlockFree =>
        cases again : version.unlocksAgain with
        | true => rfl
        | false => simp [program, code, again] at releases
    | _ => simp [program, code] at releases
  · cases same
  · cases follows

/-- Only an array whose first block has size 0 leads to the first-use path. -/
theorem leads_firstUse {point following : Point}
    (leads : (program version freeList).Leads point memory following)
    (later : following.firstUse = true) :
    point.firstUse = true ∨
      (∃ noOfBytes, point = .checkSize noOfBytes) ∧ size memory freeList = 0#64 := by
  rcases leads_cases leads with ⟨request, rfl⟩ | acquires | releases | rfl | follows
  · cases request <;> cases later
  · cases point with
    | lockMalloc noOfBytes | lockFree ptr =>
        simp only [program, code, Option.some.injEq, Instruction.acquire.injEq] at acquires
        subst acquires
        cases later
    | _ => simp [program, code] at acquires
  · cases point with
    | unlockFirst noOfBytes => exact Or.inl rfl
    | unlockMalloc res filled unlocked =>
        cases filled <;> simp [program, code] at releases <;> subst releases <;> cases later
    | unlockFree =>
        cases again : version.unlocksAgain <;> simp [program, code, again] at releases <;>
          subst releases <;> cases later
    | unlockAgain =>
        simp [program, code] at releases
        subst releases
        cases later
    | _ => simp [program, code] at releases
  · cases later
  · cases follows with
    | empty noOfBytes zero => exact Or.inr ⟨⟨noOfBytes, rfl⟩, zero⟩
    | initialized noOfBytes => exact Or.inl rfl
    | passed _ _ _ unlocked | stopped _ _ unlocked | allocated _ _ _ _ unlocked =>
        exact Or.inl later
    | ready _ _ | marked _ | rejected _ | merged _ _ | finished _ => cases later

theorem step_no_unlockAgain {turn : Turn τ Request} (once : version.unlocksAgain = false)
    (stepped : (program version freeList).step state turn = some next)
    (before : ∀ thread, state.points thread ≠ .unlockAgain) (thread : τ) :
    next.points thread ≠ .unlockAgain := by
  rcases Program.step_leads stepped with ⟨leads, others⟩
  intro again
  by_cases same : thread = turn.thread
  · rw [← same, again] at leads
    rw [leads_unlockAgain leads] at once
    cases once
  · rw [others thread same] at again
    exact before thread again

/-! ## The law of the mutex -/

/-- A run of `A8/malloc.c` obeys the law of the mutex exactly when no thread takes a
step of `pm_malloc_lock` after the unlock that follows `init`. -/
theorem lawful_iff_stops_after_init (freeList : BitVec 64) (memory : Memory)
    (turns : List (Turn τ Request)) :
    EveryStep (program A8.version freeList).step (program A8.version freeList).Lawful
        (start memory) turns ↔
      EveryStep (program A8.version freeList).step (Program.Avoids Point.unlocked)
        (start memory) turns := by
  have initially : Program.Owned Point.guarded (start memory : ThreadState τ Memory Point) :=
    Program.owned_init rfl memory
  apply everyStep_iff fun state =>
    Program.Owned Point.guarded state ∧ ∀ thread, state.points thread ≠ .unlockAgain
  · exact ⟨initially, fun _ => nofun⟩
  · rintro state turn ⟨owned, once⟩
    rw [owned.lawful_iff turn]
    cases turn with
    | call thread request => exact Iff.rfl
    | run thread =>
        have other : (state.points thread == .unlockAgain) = false := by simpa using once thread
        simp only [Program.Avoids, needs_unguarded, other, Bool.or_false]
  · rintro state turn next lawful stepped ⟨owned, once⟩
    exact ⟨owned.step (guards A8.version freeList) (lawful.releases owned) stepped,
      step_no_unlockAgain rfl stepped once⟩

/-- The thread of a program with one. -/
def mainThread : Fin 1 := ⟨0, Nat.one_pos⟩

/-- One thread allocates from the zeroed array. -/
def firstRequest : List (Turn (Fin 1) Request) :=
  [.call mainThread (.malloc 16#64), .run mainThread, .run mainThread, .run mainThread,
    .run mainThread, .run mainThread]

theorem first_request_unlawful :
    ¬ EveryStep (program A8.version 0x1000#64).step (program A8.version 0x1000#64).Lawful
      (start fun _ => 0#8) firstRequest := by
  decide

/-! ## Two threads inside -/

/-- What keeps a turn of `PracticumI/malloc.c` sound: the last unlock of
`pm_free_lock` does not find the mutex with another thread, and
`pm_malloc_lock` does not find the array without a first block. -/
def Sound (freeList : BitVec 64) (state : ThreadState τ Memory Point) : Turn τ Request → Prop
  | .call _ _ => True
  | .run thread =>
      match state.points thread with
      | .unlockAgain => state.mutex = none ∨ state.mutex = some thread
      | .checkSize _ => size state.shared freeList ≠ 0#64
      | _ => True

instance (freeList : BitVec 64) (state : ThreadState τ Memory Point) :
    (turn : Turn τ Request) → Decidable (Sound freeList state turn)
  | .call _ _ => isTrue trivial
  | .run thread => by
      unfold Sound
      dsimp only
      split <;> infer_instance

theorem Point.guarded_of_inside {point : Point} (inside : point.inside = true)
    (initialized : point.firstUse = false) : point.guarded = true := by
  cases point <;> simp_all [Point.inside, Point.firstUse, Point.guarded]

/-- What holds of every state of a sound run. -/
structure Sheltered (state : ThreadState τ Memory Point) : Prop where
  owned : Program.Owned Point.guarded state
  initialized : ∀ thread, (state.points thread).firstUse = false

omit [DecidableEq τ] in
theorem Sheltered.releases {turn : Turn τ Request} (sheltered : Sheltered state)
    (sound : Sound freeList state turn) :
    (program version freeList).Releases Point.guarded state turn := by
  cases turn with
  | call thread request => exact trivial
  | run thread =>
      have initialized := sheltered.initialized thread
      have owner := sheltered.owned thread
      simp only [Sound] at sound
      simp only [Program.Releases]
      split
      · rename_i following releases
        cases point : state.points thread with
        | unlockFirst noOfBytes => simp [point, Point.firstUse] at initialized
        | unlockMalloc res filled unlocked =>
            simp only [point, Point.firstUse] at initialized
            simp [Point.guarded, initialized]
        | unlockFree => simp [Point.guarded]
        | unlockAgain =>
            rw [point] at sound owner
            rcases sound with free | own
            · exact Or.inr free
            · exact Or.inl (owner.mpr own)
        | _ => simp [program, code, point] at releases
      · exact trivial

theorem Sheltered.step {turn : Turn τ Request} (sheltered : Sheltered state)
    (sound : Sound freeList state turn)
    (stepped : (program version freeList).step state turn = some next) : Sheltered next := by
  refine ⟨sheltered.owned.step (guards version freeList) (sheltered.releases sound) stepped, ?_⟩
  rcases Program.step_leads stepped with ⟨leads, others⟩
  intro thread
  by_cases same : thread = turn.thread
  · rw [Bool.eq_false_iff]
    intro later
    rw [same] at later
    rcases leads_firstUse leads later with earlier | ⟨⟨noOfBytes, point⟩, zero⟩
    · rw [sheltered.initialized] at earlier
      cases earlier
    · cases turn with
      | call caller request =>
          rw [Turn.thread] at point
          simp [Program.step, program, code, point] at stepped
      | run runner =>
          rw [Turn.thread] at point
          simp only [Sound, point] at sound
          exact sound zero
  · rw [others thread same]
    exact sheltered.initialized thread

/-- In a run of `PracticumI/malloc.c` whose steps are sound, at most one thread is
inside the list code. -/
theorem inside_unique (surroundings : PracticumI.Surroundings) (freeList : BitVec 64)
    (memory : Memory) (turns : List (Turn τ Request))
    (sound : EveryStep (program (PracticumI.version surroundings) freeList).step (Sound freeList)
      (start memory) turns)
    (past : List (Turn τ Request)) (part : past <+: turns) (state : ThreadState τ Memory Point)
    (ran : exec (program (PracticumI.version surroundings) freeList).step (start memory) past =
      some state)
    (first second : τ) (firstInside : (state.points first).inside = true)
    (secondInside : (state.points second).inside = true) : first = second := by
  have initially : Sheltered (start memory : ThreadState τ Memory Point) :=
    ⟨Program.owned_init rfl memory, fun _ => rfl⟩
  have sheltered : Sheltered state := by
    apply sound.invariant Sheltered initially _ part ran
    intro state turn next sound stepped before
    exact before.step sound stepped
  have holds : ∀ thread, (state.points thread).inside = true → state.mutex = some thread := by
    intro thread inside
    rw [← sheltered.owned thread]
    exact Point.guarded_of_inside inside (sheltered.initialized thread)
  exact Option.some.inj ((holds first firstInside).symm.trans (holds second secondInside))

/-- The array at address 0x1000 after `init` and two allocations of 16 bytes. -/
def twoUsedBlocks : Memory :=
  PracticumI.frag (PracticumI.frag (initBlock 0x1000#64 fun _ => 0#8) 0x1000#64 16#64)
    0x1028#64 16#64

/-- The first thread frees the first block and unlocks. -/
def freeFirst : List (Turn (Fin 2) Request) :=
  [.call 0 (.free 0x1018#64), .run 0, .run 0, .run 0, .run 0, .run 0, .run 0]

/-- The second thread allocates, up to its search loop. -/
def mallocSecond : List (Turn (Fin 2) Request) := [.call 1 (.malloc 16#64), .run 1, .run 1]

theorem inside_unique_after_both_unlocks :
    ∃ state, exec (program (PracticumI.version ⟨true, 0#64⟩) 0x1000#64).step (start twoUsedBlocks)
        (freeFirst ++ [.run 0] ++ mallocSecond) = some state ∧
      (state.points 1).inside = true ∧
      ∀ other, (state.points other).inside = true → other = 1 := by
  have reached : (exec (program (PracticumI.version ⟨true, 0#64⟩) 0x1000#64).step
      (start twoUsedBlocks) (freeFirst ++ [.run 0] ++ mallocSecond)).map
        (fun state => (state.points 1).inside) = some true := by decide +kernel
  rcases Option.map_eq_some_iff.mp reached with ⟨state, ran, inside⟩
  have sound : EveryStep (program (PracticumI.version ⟨true, 0#64⟩) 0x1000#64).step
      (Sound 0x1000#64) (start twoUsedBlocks) (freeFirst ++ [.run 0] ++ mallocSecond) := by
    decide +kernel
  refine ⟨state, ran, inside, ?_⟩
  intro other otherInside
  exact inside_unique ⟨true, 0#64⟩ 0x1000#64 twoUsedBlocks _ sound _ (List.prefix_refl _) state ran
    other 1 otherInside inside

/-- The last unlock of the first thread releases the mutex of the second, and the
first thread walks the list at the same time. -/
theorem two_inside :
    size twoUsedBlocks 0x1000#64 ≠ 0#64 ∧
    (exec (program (PracticumI.version ⟨true, 0#64⟩) 0x1000#64).step (start twoUsedBlocks)
        (freeFirst ++ mallocSecond ++ [.run 0, .call 0 (.malloc 16#64), .run 0, .run 0])).map
      (fun state => (state.points 0, state.points 1)) =
        some (.search 16#64 0x1000#64 false, .search 16#64 0x1000#64 false) := by
  decide +kernel

end ComputerSystems.LockedHeap

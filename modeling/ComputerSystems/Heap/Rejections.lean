import ComputerSystems.Heap.Requests

/-!
# Which pointers `pm_free` rejects

The only test of `pm_free` is that the pointer is not outside `mem`. For any other
pointer it overwrites the four bytes where the flag of a header would be, which lie in a
payload, in another header or in front of `mem`, and goes on with the coalescing pass.
-/

namespace ComputerSystems.Heap

open ComputerSystems.Allocation
open ComputerSystems.Loop

/-- The bytes that an iteration of the loop of `mergefrag` stores to. -/
def joinBytes : Memory × BitVec 64 → Set Nat
  | (memory, curr) => {i |
      (curr ≠ 0#64 ∧ next memory curr ≠ 0#64 ∧
        free memory curr ≠ 0#32 ∧ free memory (next memory curr) ≠ 0#32) ∧
      (i ∈ Set.Ico curr.toNat (curr.toNat + 8) ∨
        i ∈ Set.Ico (curr.toNat + 16) (curr.toNat + 24))}

/-- The bytes that `pm_free` stores to, whether or not it returns. -/
def freeBytes (place : Placement) (memory : Memory) (ptr : BitVec 64) : Set Nat :=
  {i | (place.mem ≤ ptr ∧ ptr ≤ place.mem + her) ∧ (i ∈ flagBytes ptr ∨ ∃ state,
    Visits mergeBody (setFree memory (ptr - sizeofBlock) 1#32, place.mem) state ∧
      i ∈ joinBytes state)}

/-- Unless a pointer leads to the payload of a used block on the list, `pm_free` stores to no
byte; so it changes memory for such pointers only. -/
structure Rejects (place : Placement) (memory : Memory) (ptr : BitVec 64) : Prop where
  changes : ∀ after, Completes (pmFree place memory ptr) after → after ≠ memory →
    UsedOnList place memory ptr
  stores : ¬ UsedOnList place memory ptr → ∀ i, i ∉ freeBytes place memory ptr

variable {place : Placement} {memory after : Memory} {ptr : BitVec 64} {i : Nat}

/-! ## Bytes that are not stored to -/

theorem setFree_unstored (outside : i ∉ flagBytes ptr) :
    setFree memory (ptr - sizeofBlock) 1#32 i = memory i := by
  rw [flagBytes, Set.mem_Ico] at outside
  exact Memory.store_of_outside (by omega)

theorem join_unstored {curr : BitVec 64}
    (apart : ¬ (curr.toNat ≤ i ∧ i < curr.toNat + 8 ∨
      curr.toNat + 16 ≤ i ∧ i < curr.toNat + 24)) : join memory curr i = memory i := by
  rw [join, setNext, setSize, Memory.store_of_outside (by omega),
    Memory.store_of_outside (by omega)]

theorem mergeBody_unstored {state following : Memory × BitVec 64}
    (step : mergeBody state = .next following) (outside : i ∉ joinBytes state) :
    following.1 i = state.1 i := by
  rcases state with ⟨memory, curr⟩
  rw [joinBytes, Set.mem_ofPred_eq, Set.mem_Ico, Set.mem_Ico] at outside
  by_cases null : curr = 0#64
  · rw [mergeBody_crash null] at step
    cases step
  · by_cases last : next memory curr = 0#64
    · rw [mergeBody_exit null last] at step
      cases step
    · rw [mergeBody_next null last] at step
      split at step
      · rename_i both
        obtain rfl := Iteration.next.inj step
        have apart := not_and.mp outside ⟨null, last, both⟩
        exact join_unstored apart
      · obtain rfl := Iteration.next.inj step
        rfl

/-- A call of `pm_free` changes only bytes that it stores to. -/
theorem pmFree_unstored (returns : Completes (pmFree place memory ptr) after)
    (outside : i ∉ freeBytes place memory ptr) : after i = memory i := by
  by_cases inside : place.mem ≤ ptr ∧ ptr ≤ place.mem + her
  · rw [freeBytes, Set.mem_ofPred_eq] at outside
    have apart := not_or.mp (not_and.mp outside inside)
    rcases returns with ⟨fuel, done⟩
    rw [pmFree, if_pos inside, mergefrag] at done
    cases ended : loop mergeBody fuel (setFree memory (ptr - sizeofBlock) 1#32, place.mem) with
    | done last =>
        rw [ended] at done
        obtain rfl := Outcome.done.inj done
        apply Completes.kept (fun state => state.1 i = memory i) ⟨fuel, ended⟩
        · exact setFree_unstored apart.1
        · intro current following visits step same
          rw [mergeBody_unstored step fun stored => apart.2 ⟨current, visits, stored⟩]
          exact same
    | crash =>
        rw [ended] at done
        cases done
    | running =>
        rw [ended] at done
        cases done
  · rcases returns with ⟨fuel, done⟩
    rw [pmFree, if_neg inside] at done
    rw [Outcome.done.inj done]

theorem flag_stored : (ptr - sizeofBlock).toNat + 8 ∈ flagBytes ptr :=
  ⟨Nat.le_refl _, by omega⟩

/-! ## Rejected pointers -/

/-- `pm_free` rejects a pointer, or it is that of a used block, exactly when it is outside
`mem` or that of a used block. -/
theorem rejects_iff (place : Placement) (memory : Memory) (ptr : BitVec 64) :
    Rejects place memory ptr ↔
      ¬ (place.mem ≤ ptr ∧ ptr ≤ place.mem + her) ∨ UsedOnList place memory ptr := by
  constructor
  · intro rejects
    by_contra neither
    rw [not_or, not_not] at neither
    exact rejects.stores neither.2 _ ⟨neither.1, Or.inl flag_stored⟩
  · intro fine
    have stores : ¬ UsedOnList place memory ptr → ∀ i, i ∉ freeBytes place memory ptr :=
      fun unused i stored => (fine.resolve_right unused) stored.1
    refine ⟨fun after returns changed => ?_, stores⟩
    by_contra unused
    exact changed (funext fun i => pmFree_unstored returns (stores unused i))

/-- After a request for 400 bytes, `pm_free` of `mem` itself stores in front of the array. -/
theorem not_rejects_mem :
    ¬ ∀ (place : Placement) calls live memory, Run place OnLive calls live memory →
      ∀ ptr, Rejects place memory ptr := by
  intro always
  rcases first_request with ⟨memory, ptr, done, _, heap⟩
  have run : Run samplePlacement OnLive [.malloc 400#64] _ memory :=
    .malloc (.start (zeroMemory_zeroed samplePlacement)) trivial done
  have unused : ¬ UsedOnList samplePlacement memory samplePlacement.mem := by
    intro used
    rcases heap.usedOnList_iff.mp used with ⟨before, block, rest, _, _, payload⟩
    omega
  exact (always samplePlacement _ _ memory run samplePlacement.mem).stores unused _
    ⟨by decide, Or.inl flag_stored⟩

end ComputerSystems.Heap

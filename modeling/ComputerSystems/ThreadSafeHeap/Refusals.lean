import ComputerSystems.ThreadSafeHeap.Payloads

/-!
# When `thread_safe_malloc` returns NULL

A request for which no block is free and large enough returns NULL and changes nothing.
A request that splits a block returns what the `data` field of the block holds, so it
returns NULL for a block that was never handed out, after the list has been changed.
-/

namespace ComputerSystems.ThreadSafeHeap

open ComputerSystems.Allocation
open ComputerSystems.Heap (size free next Node Walk nodes)
open ComputerSystems.Loop

/-- The headers of the list hold what they held. -/
def Spares (place : Placement) (memory other : Memory) : Prop :=
  ∃ nodes, Walk memory place.head nodes ∧ ∀ node ∈ nodes, ∀ i ∈ header node, other i = memory i

/-- Requests of any size, frees of blocks on the list, and calls and assignments of any
kind that leave the headers of the list as they are. -/
def SparesHeaders (place : Placement) (state : State) (_live : List Allocation) : Call → Prop
  | .malloc _ => True
  | .free ptr => OnList place state.memory ptr ∨
      ∀ after, threadSafeFree state ptr = some after → Spares place state.memory after.memory
  | .put ptr bytes noOfBytes =>
      Spares place state.memory (pmPut state ptr bytes noOfBytes).memory
  | .get ptr noOfBytes => ∀ after out, pmGet state ptr noOfBytes = some (after, out) →
      Spares place state.memory after.memory
  | .assign address byte =>
      Spares place state.memory (Function.update state.memory address byte)

/-- A block of the list is free and large enough. -/
def Servable (place : Placement) (memory : Memory) (bytes : BitVec 64) : Prop :=
  ∃ nodes node, Walk memory place.head nodes ∧ node ∈ nodes ∧ node.free = true ∧
    bytes ≤ node.size

/-- The list has the same blocks, and their headers have the same fields. -/
def SameList (place : Placement) (memory other : Memory) : Prop :=
  ∃ nodes, Walk memory place.head nodes ∧ Walk other place.head nodes ∧
    ∀ node ∈ nodes, size other node.address = size memory node.address ∧
      free other node.address = free memory node.address ∧
      next other node.address = next memory node.address

/-- A request returns NULL exactly when no block is free and large enough, and leaves the
list as it was when it does. -/
def RefusesExactly (place : Placement) (state : State) (bytes : BitVec 64) : Prop :=
  ∃ after ptr, Completes (threadSafeMalloc place state bytes) (after, ptr) ∧
    (ptr = 0#64 ↔ ¬ Servable place state.memory bytes) ∧
    (ptr = 0#64 → SameList place state.memory after.memory)

/-- A request splits a block only while the `data` field of this block is not NULL. -/
def SplitsSet (place : Placement) (memory : Memory) (bytes : BitVec 64) : Prop :=
  ∀ node, FirstFit place memory bytes node → bytes + sizeofBlock < node.size →
    data memory node.address ≠ 0#64

variable {place : Placement} {memory other : Memory} {state after : State} {blocks : List Block}
  {live : List Allocation} {bytes ptr : BitVec 64}

/-! ## Runs -/

/-- Where the headers are spared, the block list stays. -/
theorem Spares.heapHolds (spares : Spares place memory other)
    (heap : HeapHolds place memory blocks) : HeapHolds place other blocks := by
  rcases spares with ⟨walked, walk, same⟩
  rw [walk.unique heap.walk] at same
  exact heap.congr_headers same

/-- In every run of calls that spare the headers the region holds a block list. -/
theorem run_sparesHeaders (run : Run place (SparesHeaders place) live state) :
    ∃ blocks, HeapHolds place state.memory blocks := by
  induction run with
  | start fresh => exact ⟨_, initHeap_holds place _⟩
  | malloc _ _ returns ih =>
      rcases ih with ⟨blocks, heap⟩
      exact (malloc_returns heap returns).heap heap
  | free _ allowed returns ih =>
      rcases ih with ⟨blocks, heap⟩
      rcases allowed with onList | spared
      · rcases heap.onList_iff.mp onList with ⟨before, block, rest, rfl, payload⟩
        exact ⟨_, (free_returns heap payload returns).1⟩
      · exact ⟨blocks, (spared _ returns).heapHolds heap⟩
  | put _ allowed ih =>
      rcases ih with ⟨blocks, heap⟩
      exact ⟨blocks, allowed.heapHolds heap⟩
  | get _ allowed returns ih =>
      rcases ih with ⟨blocks, heap⟩
      exact ⟨blocks, (allowed _ _ returns).heapHolds heap⟩
  | assign _ allowed ih =>
      rcases ih with ⟨blocks, heap⟩
      exact ⟨blocks, allowed.heapHolds heap⟩

/-! ## One request -/

/-- A block serves exactly when the search stops at one. -/
theorem servable_iff :
    Servable place memory bytes ↔ ∃ node, FirstFit place memory bytes node := by
  constructor
  · rintro ⟨walked, node, walk, member, unused, enough⟩
    have serving : serves bytes node = true := by
      rw [serves, unused, decide_eq_true enough]
      rfl
    rcases Option.isSome_iff_exists.mp (List.find?_isSome.mpr ⟨node, member, serving⟩) with
      ⟨first, found⟩
    exact ⟨first, walked, walk, found⟩
  · rintro ⟨node, walked, walk, found⟩
    have serving := List.find?_some found
    rw [serves, Bool.and_eq_true, decide_eq_true_eq] at serving
    exact ⟨walked, node, walk, List.mem_of_find?_eq_some found, serving.1, serving.2⟩

/-- The search stops nowhere when no block fits. -/
theorem HeapHolds.not_firstFit (heap : HeapHolds place memory blocks)
    (none : ∀ block ∈ blocks, ¬ Fits bytes.toNat block) (node : Node) :
    ¬ FirstFit place memory bytes node := by
  intro stops
  rcases heap.firstFit_iff.mp stops with ⟨before, block, rest, first, _⟩
  have member : block ∈ blocks := by
    rw [first.split]
    exact List.mem_append_right _ List.mem_cons_self
  exact none block member first.fits

/-- The block at which the search stops, as the program sees it. -/
theorem HeapHolds.firstFit_eq (heap : HeapHolds place memory blocks) {before rest : List Block}
    {block : Block} (first : FitsFirst bytes.toNat blocks before block rest) {node : Node}
    (stops : FirstFit place memory bytes node) :
    node = ⟨BitVec.ofNat 64 (place.head.toNat + span 32 before), BitVec.ofNat 64 block.size,
      block.free⟩ := by
  rcases stops with ⟨walked, walk, found⟩
  rw [walk.unique heap.walk, serves_eq, Heap.find_nodes_of_fitsFirst heap.bound first] at found
  exact (Option.some.inj found).symm

/-- The size of the block at which the search stops is compared without wrapping around. -/
theorem HeapHolds.splits_iff {before rest : List Block} {block : Block}
    (heap : HeapHolds place memory (before ++ block :: rest))
    (enough : bytes.toNat ≤ block.size) :
    bytes + sizeofBlock < BitVec.ofNat 64 block.size ↔ bytes.toNat + 32 < block.size := by
  have inside := heap.block_inside
  have fits := place.fits
  rw [BitVec.lt_def, BitVec.toNat_add, BitVec.toNat_ofNat, sizeofBlock_toNat]
  omega

/-- A request returns NULL as it should exactly when it splits no block with a NULL `data`
field. -/
theorem HeapHolds.refuses_iff (heap : HeapHolds place state.memory blocks)
    (bytes : BitVec 64) :
    RefusesExactly place state bytes ↔ SplitsSet place state.memory bytes := by
  rcases exists_malloc heap bytes with ⟨after, ptr, completes, outcome⟩
  have unique : ∀ other otherPtr, Completes (threadSafeMalloc place state bytes)
      (other, otherPtr) → (other, otherPtr) = (after, ptr) := fun _ _ also =>
    (threadSafeMalloc_stable place state bytes).unique also completes
  cases outcome with
  | refused none same null =>
      have stops := heap.not_firstFit none
      refine iff_of_true ⟨after, ptr, completes, iff_of_true null ?_, fun _ => ?_⟩ ?_
      · rw [servable_iff]
        exact not_exists.mpr stops
      · rw [same]
        exact ⟨_, heap.walk, heap.walk, fun _ _ => ⟨rfl, rfl, rfl⟩⟩
      · exact fun node first => absurd first (stops node)
  | split before block rest first larger returned _ _ =>
      have stops := heap.firstFit_iff.mpr ⟨before, block, rest, first, rfl⟩
      have servable : Servable place state.memory bytes := servable_iff.mpr ⟨_, stops⟩
      constructor
      · rintro ⟨other, otherPtr, also, null, _⟩ node found _
        cases unique _ _ also
        rw [heap.firstFit_eq first found]
        dsimp only
        rw [← returned]
        exact fun zero => null.mp zero servable
      · intro set
        obtain rfl := first.split
        have notNull := set _ stops ((heap.splits_iff first.fits.2).mpr larger)
        dsimp only at notNull
        rw [← returned] at notNull
        exact ⟨after, ptr, completes, iff_of_false notNull fun none => none servable,
          fun null => absurd null notNull⟩
  | taken before block rest first fitting returned _ _ _ =>
      have stops := heap.firstFit_iff.mpr ⟨before, block, rest, first, rfl⟩
      have servable : Servable place state.memory bytes := servable_iff.mpr ⟨_, stops⟩
      have notNull := payload_ne_null returned
      refine iff_of_true ⟨after, ptr, completes, iff_of_false notNull fun none => none servable,
        fun null => absurd null notNull⟩ ?_
      intro node found larger
      rw [heap.firstFit_eq first found] at larger
      obtain rfl := first.split
      have more := (heap.splits_iff first.fits.2).mp larger
      omega

/-- In every heap that is reached, a request returns NULL exactly when no block is free and
large enough, and leaves the list as it was when it does, exactly when it splits no block
whose `data` field is NULL. -/
theorem refusesExactly_iff (run : Run place (SparesHeaders place) live state)
    (bytes : BitVec 64) :
    RefusesExactly place state bytes ↔ SplitsSet place state.memory bytes := by
  rcases run_sparesHeaders run with ⟨blocks, heap⟩
  exact heap.refuses_iff bytes

/-- Beside a live allocation, a request for all bytes of the region is refused. -/
theorem refusesExactly_large_request :
    ∃ live state, Run samplePlacement (SparesHeaders samplePlacement) live state ∧ live ≠ [] ∧
      ¬ Servable samplePlacement state.memory 16777184#64 ∧
      RefusesExactly samplePlacement state 16777184#64 := by
  have run : Run samplePlacement (SparesHeaders samplePlacement) _ sampleLive :=
    sampleLive_run fun _ _ _ _ _ _ _ => trivial
  have none : ∀ node ∈ nodes 32 samplePlacement.head.toNat
      [⟨100, false⟩, ⟨100, true⟩, ⟨16776920, true⟩],
      ¬ (node.free = true ∧ 16777184#64 ≤ node.size) := by decide
  refine ⟨_, sampleLive, run, List.cons_ne_nil _ _, ?_, ?_⟩
  · rintro ⟨walked, node, walk, member, fits⟩
    rw [walk.unique sampleLive_holds.walk] at member
    exact none node member fits
  · refine (refusesExactly_iff run 16777184#64).mpr ?_
    rintro node ⟨walked, walk, found⟩ _
    rw [walk.unique sampleLive_holds.walk] at found
    cases found

/-- The first request for 100 bytes returns NULL although the region is free. -/
theorem not_refusesExactly_first_request :
    ¬ ∀ (place : Placement) live state bytes, Run place (SparesHeaders place) live state →
      RefusesExactly place state bytes := by
  intro always
  have refuses := always samplePlacement [] (initHeap samplePlacement sampleState) 100#64
    (.start sampleState_fresh)
  have set := (sample_holds.refuses_iff 100#64).mp refuses
  have first : FirstFit samplePlacement (initHeap samplePlacement sampleState).memory 100#64
      ⟨samplePlacement.head, 16777184#64, true⟩ :=
    sample_holds.firstFit_iff.mpr ⟨[], _, [], ⟨rfl, nofun, by decide⟩, rfl⟩
  exact set _ first (by decide) (by decide +kernel)

end ComputerSystems.ThreadSafeHeap

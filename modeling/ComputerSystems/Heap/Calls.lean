import ComputerSystems.Heap.Operations

/-!
# The calls on block lists

From the zeroed array on, memory holds a block list that takes `mem` whole; only
before the first `pm_malloc` it is the one empty block of the zeroed header. A
call of `pm_malloc` fits the block at which the search stops, a call of `pm_free`
on a block of the list releases it and runs the coalescing pass.
-/

namespace ComputerSystems.Heap

open ComputerSystems.Allocation
open ComputerSystems.Loop

variable {place : Placement} {memory after : Memory} {blocks : List Block}

/-- The block list of the allocator takes `mem` whole, or is the one empty block
of an array that was never initialised. -/
structure HeapHolds (place : Placement) (memory : Memory) (blocks : List Block) : Prop where
  holds : Holds memory place.mem.toNat blocks
  extent : span 24 blocks = her.toNat ∨ ∃ flag, blocks = [⟨0, flag⟩]

theorem HeapHolds.span_le (heap : HeapHolds place memory blocks) : span 24 blocks ≤ her.toNat := by
  rcases heap.extent with whole | ⟨flag, rfl⟩
  · exact Nat.le_of_eq whole
  · exact show 24 ≤ 10000000 by decide

theorem HeapHolds.inhabited (heap : HeapHolds place memory blocks) : blocks ≠ [] := by
  rintro rfl
  rcases heap.extent with whole | ⟨flag, empty⟩
  · exact absurd whole (by decide)
  · cases empty

theorem HeapHolds.bound (heap : HeapHolds place memory blocks) :
    place.mem.toNat + span 24 blocks < 2 ^ 64 := by
  have extent := heap.span_le
  have fits := place.fits
  omega

/-- The program walks the block list. -/
theorem HeapHolds.walk (heap : HeapHolds place memory blocks) :
    Walk memory place.mem (layout place.mem.toNat blocks) :=
  heap.holds.walk heap.inhabited place.notNull heap.bound

theorem zeroed_holds (zeroed : Zeroed place memory) : HeapHolds place memory [⟨0, false⟩] where
  holds := by
    have extent : her.toNat = 10000000 := rfl
    refine ⟨⟨?_, ?_, ?_⟩, trivial⟩
    · exact Memory.load_eq_zero fun i lower upper => zeroed i (by omega) (by omega)
    · have unset : memory.load (place.mem.toNat + 8) 4 = 0 :=
        Memory.load_eq_zero fun i lower upper => zeroed i (by omega) (by omega)
      rw [unset]
      decide
    · exact Memory.load_eq_zero fun i lower upper => zeroed i (by omega) (by omega)
  extent := Or.inr ⟨false, rfl⟩

/-! ## `pm_malloc` -/

/-- The block list that `pm_malloc` searches: a list whose first block is empty is
set up anew. -/
def ready (blocks : List Block) : List Block :=
  if blocks.head?.map Block.size = some 0 then [⟨her.toNat - 24, true⟩] else blocks

theorem HeapHolds.size_mem (heap : HeapHolds place memory blocks) :
    size memory place.mem = 0#64 ↔ blocks.head?.map Block.size = some 0 := by
  have inhabited := heap.inhabited
  have holds := heap.holds
  cases blocks with
  | nil => exact absurd rfl inhabited
  | cons block rest =>
      have sizes : (size memory place.mem).toNat = block.size := size_toNat.trans holds.1.size
      rw [← BitVec.toNat_inj, sizes]
      simp

theorem HeapHolds.ready_span (heap : HeapHolds place memory blocks) :
    span 24 (ready blocks) = her.toNat := by
  unfold ready
  split
  · decide
  · rename_i first
    rcases heap.extent with whole | ⟨flag, rfl⟩
    · exact whole
    · exact absurd rfl first

/-- The memory in which `pm_malloc` searches. -/
def prepared (place : Placement) (memory : Memory) : Memory :=
  if size memory place.mem = 0#64 then init place memory else memory

theorem HeapHolds.ready (heap : HeapHolds place memory blocks) :
    HeapHolds place (prepared place memory) (ready blocks) where
  holds := by
    unfold prepared
    by_cases empty : blocks.head?.map Block.size = some 0
    · rw [if_pos (heap.size_mem.mpr empty), Heap.ready, if_pos empty]
      exact init_holds place memory
    · rw [if_neg (fun zero => empty (heap.size_mem.mp zero)), Heap.ready, if_neg empty]
      exact heap.holds
  extent := Or.inl heap.ready_span

theorem pmMalloc_stable (place : Placement) (memory : Memory) (noOfBytes : BitVec 64) :
    Stable (pmMalloc place memory noOfBytes) :=
  (loop_stable _ _).map _

/-- The parts of a fitted block take the room it took. -/
theorem span_placed {before rest parts : List Block} {block : Block} {request : Nat}
    (fits : fit 24 request block = some parts) :
    span 24 (before ++ (parts ++ rest)) = span 24 (before ++ block :: rest) := by
  rw [span_append, span_append, span_append, fit_span fits, span]

/-- How a call of `pm_malloc` ends: the block at which the search stops is fitted,
or NULL is returned. -/
inductive MallocOutcome (place : Placement) (blocks : List Block) (noOfBytes : BitVec 64)
    (after : Memory) (ptr : BitVec 64) : Prop
  | placed (before : List Block) (block : Block) (rest parts : List Block)
      (split : ready blocks = before ++ block :: rest)
      (stops : StopsAt noOfBytes.toNat before block rest)
      (fits : fit 24 noOfBytes.toNat block = some parts)
      (returned : ptr.toNat = place.mem.toNat + span 24 before + 24)
      (heap : HeapHolds place after (before ++ (parts ++ rest)))
  | refused (before : List Block) (block : Block) (rest : List Block)
      (split : ready blocks = before ++ block :: rest)
      (stops : StopsAt noOfBytes.toNat before block rest)
      (unfit : fit 24 noOfBytes.toNat block = none)
      (null : ptr = 0#64) (heap : HeapHolds place after (ready blocks))

/-- The search ends at the address of the block at which it stops. -/
theorem pmMalloc_completes (heap : HeapHolds place memory blocks) {noOfBytes : BitVec 64}
    {before rest : List Block} {block : Block} (split : Heap.ready blocks = before ++ block :: rest)
    (stops : StopsAt noOfBytes.toNat before block rest) :
    Completes (pmMalloc place memory noOfBytes) (allocateAt (prepared place memory) noOfBytes
      (BitVec.ofNat 64 (place.mem.toNat + span 24 before))) := by
  have holds := heap.ready.holds
  have bound := heap.ready.bound
  rw [split] at holds bound
  exact (search_completes holds bound stops).map _

/-- A call of `pm_malloc` whose search stops at a given block. -/
theorem malloc_spec (heap : HeapHolds place memory blocks) {noOfBytes : BitVec 64}
    (room : noOfBytes.toNat + 24 < 2 ^ 64) {before rest : List Block} {block : Block}
    (split : ready blocks = before ++ block :: rest)
    (stops : StopsAt noOfBytes.toNat before block rest) :
    (∀ parts, fit 24 noOfBytes.toNat block = some parts → ∃ after ptr,
      Completes (pmMalloc place memory noOfBytes) (after, ptr) ∧
      ptr.toNat = place.mem.toNat + span 24 before + 24 ∧
      HeapHolds place after (before ++ (parts ++ rest))) ∧
    (fit 24 noOfBytes.toNat block = none → ∃ after,
      Completes (pmMalloc place memory noOfBytes) (after, 0#64) ∧
      HeapHolds place after (ready blocks)) := by
  have completes := pmMalloc_completes heap split stops
  have readied := heap.ready
  have whole := heap.ready_span
  have holds := readied.holds
  have bound := readied.bound
  rw [split] at holds bound whole
  have current := address_toNat bound
  rw [span_append] at bound
  generalize BitVec.ofNat 64 (place.mem.toNat + span 24 before) = stop at completes current
  have blockHolds := holds.drop
  rw [← current] at blockHolds
  rcases allocateAt_holds blockHolds (by rw [current]; omega) room with ⟨placed, refused⟩
  generalize allocateAt (prepared place memory) noOfBytes stop = result at completes placed refused
  rcases result with ⟨after, ptr⟩
  dsimp only at placed
  constructor
  · intro parts fits
    rcases placed parts fits with ⟨pointer, written, same⟩
    rw [current] at written same
    refine ⟨after, ptr, completes, ?_, ?_, Or.inl ((span_placed fits).trans whole)⟩
    · rw [pointer, BitVec.toNat_add, current, sizeofBlock_toNat]
      rw [span] at bound
      omega
    · have filled : parts ++ rest ≠ [] := fun empty =>
        fit_ne_nil fits (List.append_eq_nil_iff.mp empty).1
      exact holds.replace (List.cons_ne_nil _ _) filled (fun i _ upper => same i upper) written
  · intro unfit
    rw [refused unfit] at completes
    exact ⟨_, completes, readied⟩

/-- A call of `pm_malloc` completes, whatever the block list. -/
theorem exists_malloc (heap : HeapHolds place memory blocks) {noOfBytes : BitVec 64}
    (room : noOfBytes.toNat + 24 < 2 ^ 64) :
    ∃ after ptr, Completes (pmMalloc place memory noOfBytes) (after, ptr) ∧
      MallocOutcome place blocks noOfBytes after ptr := by
  obtain ⟨before, block, rest, split, stops⟩ :=
    exists_stopsAt noOfBytes.toNat heap.ready.inhabited
  rcases malloc_spec heap room split stops with ⟨placed, refused⟩
  cases fits : fit 24 noOfBytes.toNat block with
  | none =>
      rcases refused fits with ⟨after, completes, holds⟩
      exact ⟨after, _, completes, .refused before block rest split stops fits rfl holds⟩
  | some parts =>
      rcases placed parts fits with ⟨after, ptr, completes, returned, holds⟩
      exact ⟨after, ptr, completes, .placed before block rest parts split stops fits returned holds⟩

theorem malloc_returns (heap : HeapHolds place memory blocks) {noOfBytes ptr : BitVec 64}
    (room : noOfBytes.toNat + 24 < 2 ^ 64)
    (returns : Completes (pmMalloc place memory noOfBytes) (after, ptr)) :
    MallocOutcome place blocks noOfBytes after ptr := by
  rcases exists_malloc heap room with ⟨same, samePtr, completes, outcome⟩
  obtain ⟨rfl, rfl⟩ := Prod.mk.inj
    ((pmMalloc_stable place memory noOfBytes).unique completes returns)
  exact outcome

/-! ## `pm_free` -/

theorem pmFree_stable (place : Placement) (memory : Memory) (ptr : BitVec 64) :
    Stable (pmFree place memory ptr) := by
  unfold pmFree
  split
  · exact (loop_stable _ _).map _
  · exact fun _ _ _ => rfl

section Free

variable {before rest : List Block} {block : Block} {ptr : BitVec 64}

/-- `pm_free` does not reject a pointer to the payload of a block. -/
theorem HeapHolds.accepted (heap : HeapHolds place memory (before ++ block :: rest))
    (payload : ptr.toNat = place.mem.toNat + span 24 before + 24) :
    place.mem ≤ ptr ∧ ptr ≤ place.mem + her := by
  have small := heap.span_le
  have fits := place.fits
  rw [span_append, span] at small
  rw [BitVec.le_def, BitVec.le_def, BitVec.toNat_add, Nat.mod_eq_of_lt fits]
  omega

/-- `pm_free` marks the block whose payload the pointer leads to. -/
theorem HeapHolds.marked (heap : HeapHolds place memory (before ++ block :: rest))
    (payload : ptr.toNat = place.mem.toNat + span 24 before + 24) :
    HeapHolds place (setFree memory (ptr - sizeofBlock) 1#32)
      (before ++ ⟨block.size, true⟩ :: rest) where
  holds := by
    have header : (ptr - sizeofBlock).toNat = place.mem.toNat + span 24 before := by
      rw [BitVec.toNat_sub, sizeofBlock_toNat]
      omega
    rcases heap.holds.drop with ⟨blockHeader, tail⟩
    rw [← header] at blockHeader tail
    refine heap.holds.replace (List.cons_ne_nil _ _) (List.cons_ne_nil _ _)
      (fun i _ upper => setFree_outside (Or.inl (by omega))) ?_
    rw [← header]
    refine ⟨setFree_header blockHeader (by decide), ?_⟩
    exact tail.congr fun i lower upper => setFree_outside (Or.inr (by omega))
  extent := by
    rcases heap.extent with whole | ⟨flag, single⟩
    · left
      rw [← whole, span_append, span_append, span, span]
    · right
      cases before with
      | nil =>
          rcases List.cons.inj single with ⟨rfl, rfl⟩
          exact ⟨true, rfl⟩
      | cons first before =>
          have empty := (List.cons.inj single).2
          exact absurd (List.append_eq_nil_iff.mp empty).2 (List.cons_ne_nil _ _)

/-- `mergefrag` is the coalescing pass. -/
theorem HeapHolds.coalesces (heap : HeapHolds place memory blocks) :
    (∀ merged, coalesce 24 blocks = some merged →
      ∃ after, Completes (mergefrag place memory) after ∧ HeapHolds place after merged) ∧
    (coalesce 24 blocks = none → Crashes (mergefrag place memory)) := by
  have passes := merge_spec heap.holds heap.inhabited place.notNull heap.bound
  constructor
  · intro merged pass
    rcases passes.done merged pass with ⟨after, last, completes, holds, _⟩
    refine ⟨after, completes.map Prod.fst, holds, ?_⟩
    rcases heap.extent with whole | ⟨flag, rfl⟩
    · exact Or.inl ((coalesce_span pass).trans whole)
    · cases pass
      exact Or.inr ⟨flag, rfl⟩
  · intro pass
    exact (passes.crash pass).map Prod.fst

theorem HeapHolds.merges (heap : HeapHolds place memory blocks)
    (returns : Completes (mergefrag place memory) after) :
    ∃ merged, coalesce 24 blocks = some merged ∧ HeapHolds place after merged := by
  have stable : Stable (mergefrag place memory) := (loop_stable _ _).map _
  rcases heap.coalesces with ⟨done, crash⟩
  cases pass : coalesce 24 blocks with
  | none => exact absurd returns (stable.not_completes (crash pass) after)
  | some merged =>
      rcases done merged pass with ⟨same, completes, holds⟩
      obtain rfl := stable.unique completes returns
      exact ⟨merged, rfl, holds⟩

theorem pmFree_of_accepted (accepted : place.mem ≤ ptr ∧ ptr ≤ place.mem + her) :
    pmFree place memory ptr = mergefrag place (setFree memory (ptr - sizeofBlock) 1#32) := by
  funext fuel
  rw [pmFree, if_pos accepted]

/-- `pm_free` of a block on the list is the coalescing pass after the release. -/
theorem free_spec (heap : HeapHolds place memory (before ++ block :: rest))
    (payload : ptr.toNat = place.mem.toNat + span 24 before + 24) :
    (∀ merged, coalesce 24 (before ++ ⟨block.size, true⟩ :: rest) = some merged →
      ∃ after, Completes (pmFree place memory ptr) after ∧ HeapHolds place after merged) ∧
    (coalesce 24 (before ++ ⟨block.size, true⟩ :: rest) = none →
      Crashes (pmFree place memory ptr)) := by
  rw [pmFree_of_accepted (heap.accepted payload)]
  exact (heap.marked payload).coalesces

theorem free_returns (heap : HeapHolds place memory (before ++ block :: rest))
    (payload : ptr.toNat = place.mem.toNat + span 24 before + 24)
    (returns : Completes (pmFree place memory ptr) after) :
    ∃ merged, coalesce 24 (before ++ ⟨block.size, true⟩ :: rest) = some merged ∧
      HeapHolds place after merged := by
  rw [pmFree_of_accepted (heap.accepted payload)] at returns
  exact (heap.marked payload).merges returns

end Free

/-! ## Blocks the program can free -/

/-- A pointer to the payload of a block that is on the list and marked used. -/
def UsedOnList (place : Placement) (memory : Memory) (ptr : BitVec 64) : Prop :=
  ∃ nodes node, Walk memory place.mem nodes ∧ node ∈ nodes ∧ node.free = false ∧
    ptr = node.address + sizeofBlock

/-- The used blocks the program sees are those of the block list. -/
theorem HeapHolds.usedOnList_iff (heap : HeapHolds place memory blocks) {ptr : BitVec 64} :
    UsedOnList place memory ptr ↔
      ∃ before block rest, blocks = before ++ block :: rest ∧ block.free = false ∧
        ptr.toNat = place.mem.toNat + span 24 before + 24 := by
  have bound := heap.bound
  have address : ∀ {before rest : List Block} {block : Block},
      blocks = before ++ block :: rest →
      (BitVec.ofNat 64 (place.mem.toNat + span 24 before) + sizeofBlock).toNat =
        place.mem.toNat + span 24 before + 24 := by
    rintro before rest block rfl
    rw [BitVec.toNat_add, address_toNat bound, sizeofBlock_toNat]
    rw [span_append, span] at bound
    omega
  constructor
  · rintro ⟨nodes, node, walk, member, used, rfl⟩
    obtain rfl := walk.unique heap.walk
    rcases mem_layout member with ⟨before, block, rest, split, rfl⟩
    exact ⟨before, block, rest, split, used, address split⟩
  · rintro ⟨before, block, rest, split, used, payload⟩
    refine ⟨_, ⟨BitVec.ofNat 64 (place.mem.toNat + span 24 before), BitVec.ofNat 64 block.size,
      block.free⟩, heap.walk, ?_, used, ?_⟩
    · rw [split, layout_append, layout]
      exact List.mem_append_right _ List.mem_cons_self
    · exact BitVec.eq_of_toNat_eq (payload.trans (address split).symm)

/-- The calls of a client: any request, and frees of live pointers. -/
def OnLive (_memory : Memory) (live : List Allocation) : Call → Prop
  | .malloc _ => True
  | .free ptr => ∃ allocation ∈ live, allocation.ptr = ptr

/-- The calls that keep to the block list: a request does not wrap around, and
what is freed is a used block of the list. -/
def Proper (place : Placement) (memory : Memory) (_live : List Allocation) : Call → Prop
  | .malloc noOfBytes => noOfBytes.toNat + sizeofBlock.toNat < 2 ^ 64
  | .free ptr => UsedOnList place memory ptr

/-- In every run of such calls memory holds a block list, which takes `mem` whole
once `pm_malloc` has been called. -/
theorem run_heapHolds {calls : List Call} {live : List Allocation}
    (run : Run place (Proper place) calls live memory) :
    ∃ blocks, HeapHolds place memory blocks ∧
      ((∃ noOfBytes, .malloc noOfBytes ∈ calls) → span 24 blocks = her.toNat) := by
  induction run with
  | start zeroed =>
      refine ⟨_, zeroed_holds zeroed, ?_⟩
      rintro ⟨_, member⟩
      exact absurd member List.not_mem_nil
  | malloc _ allowed returns ih =>
      rcases ih with ⟨blocks, heap, _⟩
      cases malloc_returns heap allowed returns with
      | placed before block rest parts split _ fits _ placed =>
          refine ⟨_, placed, fun _ => ?_⟩
          rw [span_placed fits, ← split]
          exact heap.ready_span
      | refused _ _ _ _ _ _ _ refused => exact ⟨_, refused, fun _ => heap.ready_span⟩
  | free _ allowed returns ih =>
      rcases ih with ⟨blocks, heap, whole⟩
      rcases heap.usedOnList_iff.mp allowed with ⟨before, block, rest, rfl, _, payload⟩
      rcases free_returns heap payload returns with ⟨merged, pass, mergedHeap⟩
      refine ⟨merged, mergedHeap, ?_⟩
      rintro ⟨noOfBytes, member⟩
      rw [List.mem_append, List.mem_singleton] at member
      have earlier := whole ⟨noOfBytes, member.resolve_right (fun same => nomatch same)⟩
      rw [coalesce_span pass, ← earlier, span_append, span_append, span, span]

end ComputerSystems.Heap

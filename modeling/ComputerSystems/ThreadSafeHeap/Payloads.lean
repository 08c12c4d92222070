import ComputerSystems.ThreadSafeHeap.Accounts
import Mathlib.Data.Set.BooleanAlgebra
import Mathlib.Order.CompletePartialOrder

/-!
# What `thread_safe_malloc` returns

In runs in which a block is split only while its `data` field is NULL, a request
returns NULL or the payload of a block that it has taken whole and marked used. A
block that was used before and is split is returned again although it stays marked
free.
-/

namespace ComputerSystems.ThreadSafeHeap

open ComputerSystems.Allocation
open ComputerSystems.Heap (Node Walk nodes)
open ComputerSystems.Loop

/-- The bytes of the payload of a block. -/
def payload (node : Node) : Set Nat :=
  Set.Ico (node.address.toNat + sizeofBlock.toNat)
    (node.address.toNat + sizeofBlock.toNat + node.size.toNat)

/-- A pointer leads to the payload of a block that is on the list, has at least the
bytes asked for and is marked used, and whose payload overlaps no live allocation. -/
def Allocates (place : Placement) (memory : Memory) (live : List Allocation)
    (bytes ptr : BitVec 64) : Prop :=
  ∃ nodes node, Walk memory place.head nodes ∧ node ∈ nodes ∧ ptr = node.address + sizeofBlock ∧
    bytes ≤ node.size ∧ node.free = false ∧
    ∀ allocation ∈ live, Disjoint (payload node) allocation.payload

variable {place : Placement} {memory : Memory} {state after : State}
  {before rest : List Block} {block : Block} {live : List Allocation} {bytes ptr : BitVec 64}

/-! ## Runs -/

/-- In every run in which only blocks with a NULL `data` field are split, the live
allocations are payloads of used blocks. -/
theorem run_accounted (run : Run place (Unreused place) live state) :
    ∃ blocks, HeapHolds place state.memory blocks ∧
      Accounted place state.memory blocks live := by
  induction run with
  | start fresh => exact ⟨_, initHeap_holds place _, accounted_nil⟩
  | malloc _ allowed returns ih =>
      rcases ih with ⟨blocks, heap, accounted⟩
      exact accounted.malloc heap (allowed.2 _ rfl) (malloc_returns heap returns)
  | free _ allowed returns ih =>
      rcases ih with ⟨blocks, heap, accounted⟩
      rcases allowed.1 with rfl | known
      · rw [threadSafeFree_null returns, accounted.free_null]
        exact ⟨blocks, heap, accounted⟩
      · exact (accounted.free heap known returns).1
  | @put _ _ _ noOfBytes bytes _ allowed ih =>
      rcases ih with ⟨blocks, heap, accounted⟩
      rcases allowed.1.1 with ⟨allocation, member, rfl⟩
      rcases accounted.used allocation member with ⟨range, listed, _⟩
      have same := pmPut_outside heap accounted member listed bytes noOfBytes
      refine ⟨blocks, heap.congr_payload listed same, ?_⟩
      apply (accounted.congr_payload listed same).map
      intro other
      split <;> rfl
  | get _ allowed returns ih =>
      rcases ih with ⟨blocks, heap, accounted⟩
      rcases allowed.1 with ⟨allocation, member, rfl⟩
      rw [pmGet_live heap accounted member] at returns
      rcases Prod.mk.inj (Option.some.inj returns) with ⟨rfl, _⟩
      exact ⟨blocks, heap, accounted⟩
  | @assign _ state _ byte _ allowed ih =>
      rcases ih with ⟨blocks, heap, accounted⟩
      rcases allowed.1 with ⟨allocation, member, inside⟩
      rcases accounted.used allocation member with ⟨range, listed, enough⟩
      have same := assign_outside inside enough state.memory byte
      refine ⟨blocks, heap.congr_payload listed same, ?_⟩
      apply (accounted.congr_payload listed same).map
      intro other
      split <;> rfl

/-- The payload of a block that has been taken whole is apart from the others. -/
theorem Accounted.allocates
    (heap : HeapHolds place memory (before ++ ⟨block.size, false⟩ :: rest))
    (accounted : Accounted place memory (before ++ ⟨block.size, false⟩ :: rest)
      (⟨⟨ptr, bytes⟩, none⟩ :: live))
    (returned : ptr.toNat = place.head.toNat + span 32 before + 32)
    (enough : bytes.toNat ≤ block.size) : Allocates place memory live bytes ptr := by
  have address := Heap.address_toNat heap.bound
  have inside := heap.block_inside
  have fits := place.fits
  have sizes : (BitVec.ofNat 64 block.size).toNat = block.size := by
    dsimp only at inside
    rw [BitVec.toNat_ofNat]
    exact Nat.mod_eq_of_lt (by omega)
  refine ⟨_, ⟨BitVec.ofNat 64 (place.head.toNat + span 32 before), BitVec.ofNat 64 block.size,
    false⟩, heap.walk, ?_, ?_, ?_, rfl, ?_⟩
  · rw [Heap.nodes_append, nodes]
    exact List.mem_append_right _ List.mem_cons_self
  · exact BitVec.eq_of_toNat_eq (returned.trans heap.payload_toNat.symm)
  · rw [BitVec.le_def, sizes]
    exact enough
  · intro allocation member
    rcases accounted.used allocation (List.mem_cons_of_mem _ member) with ⟨own, listed, most⟩
    have mine : (place.head.toNat + span 32 before + 32, block.size) ∈
        payloads 32 place.head.toNat (before ++ ⟨block.size, false⟩ :: rest) :=
      payload_mem_payloads _ before rest rfl
    have different : place.head.toNat + span 32 before + 32 ≠ allocation.ptr.toNat := by
      rw [← returned]
      intro same
      exact List.rel_of_pairwise_cons accounted.distinct member (BitVec.eq_of_toNat_eq same)
    have apart := payloads_apart mine listed different
    dsimp only at apart
    rw [payload, Heap.Allocation.payload, Set.Ico_disjoint_Ico, address, sizes,
      sizeofBlock_toNat]
    omega

/-- In every run in which only blocks with a NULL `data` field are split, a pointer
that `thread_safe_malloc` returns is that of a used block, apart from the live
allocations. -/
theorem malloc_allocates (run : Run place (Unreused place) live state)
    (allowed : Unreused place state live (.malloc bytes))
    (returns : Completes (threadSafeMalloc place state bytes) (after, ptr))
    (notNull : ptr ≠ 0#64) : Allocates place after.memory live bytes ptr := by
  rcases run_accounted run with ⟨blocks, heap, accounted⟩
  have outcome := malloc_returns heap returns
  have untouched := fun allocation (member : allocation ∈ live) =>
    outcome.untouched heap accounted member
  cases outcome with
  | refused _ _ null => exact absurd null notNull
  | split _ _ _ first larger returned _ _ =>
      exact absurd (returned.trans ((allowed.2 bytes rfl).null heap first larger)) notNull
  | taken before block rest first _ returned placed leads _ =>
      obtain rfl := first.split
      exact (accounted.take first.fits returned leads untouched).allocates placed returned
        first.fits.2

/-- The first block that serves a request is not split, or has a NULL `data` field. -/
theorem HeapHolds.splitsUnset {blocks : List Block} {node : Node}
    (heap : HeapHolds place memory blocks)
    (found : (nodes 32 place.head.toNat blocks).find? (serves bytes) = some node)
    (fine : ¬ bytes + sizeofBlock < node.size ∨ data memory node.address = 0#64) :
    SplitsUnset place memory bytes := by
  rintro first ⟨walked, walk, also⟩ larger
  rw [walk.unique heap.walk, found] at also
  cases also
  exact fine.resolve_left (not_not_intro larger)

/-- A run goes on with a request whose search stops at a known block. -/
theorem Run.request {proper : State → List Allocation → Call → Prop} {blocks : List Block}
    {curr : BitVec 64} (run : Run place proper live state)
    (heap : HeapHolds place state.memory blocks) (allowed : proper state live (.malloc bytes))
    (stops : stop bytes.toNat place.head.toNat blocks = curr)
    (returned : (finish place state bytes curr).2 = ptr) :
    Run place proper (allocated live bytes ptr) (finish place state bytes curr).1 := by
  subst stops returned
  exact run.malloc allowed (threadSafeMalloc_completes heap bytes)

/-! ## A block that is split again -/

/-- The search in a list of one block. -/
theorem fitsFirst_singleton {request : Nat} {only : Block}
    (first : FitsFirst request [only] before block rest) :
    before = [] ∧ block = only ∧ rest = [] := by
  rcases List.singleton_eq_append_iff.mp first.split with ⟨front, same⟩ | ⟨_, same⟩
  · rcases List.cons.inj same with ⟨rfl, behind⟩
    exact ⟨front, rfl, behind⟩
  · cases same

/-- A request for all the bytes of the one free block takes it whole. -/
theorem malloc_whole (heap : HeapHolds place state.memory [⟨bytes.toNat, true⟩]) :
    ∃ after ptr, Completes (threadSafeMalloc place state bytes) (after, ptr) ∧
      ptr.toNat = place.head.toNat + 32 ∧ HeapHolds place after.memory [⟨bytes.toNat, false⟩] ∧
      data after.memory place.head = ptr := by
  rcases exists_malloc heap bytes with ⟨after, ptr, completes, outcome⟩
  refine ⟨after, ptr, completes, ?_⟩
  cases outcome with
  | refused none _ _ => exact absurd ⟨rfl, Nat.le_refl _⟩ (none _ List.mem_cons_self)
  | split _ _ _ first larger _ _ _ =>
      rcases fitsFirst_singleton first with ⟨rfl, rfl, rfl⟩
      dsimp only at larger
      omega
  | taken _ _ _ first _ returned placed leads _ =>
      rcases fitsFirst_singleton first with ⟨rfl, rfl, rfl⟩
      rw [span, Nat.add_zero, BitVec.ofNat_toNat, BitVec.setWidth_eq] at leads
      exact ⟨returned, placed, leads⟩

/-- A request for less splits the one free block and returns what its `data` field
holds. -/
theorem malloc_split {whole : Nat} (heap : HeapHolds place state.memory [⟨whole, true⟩])
    (bytes : BitVec 64) (larger : bytes.toNat + 32 < whole) :
    ∃ after, Completes (threadSafeMalloc place state bytes) (after, data state.memory place.head) ∧
      HeapHolds place after.memory
        [⟨bytes.toNat, true⟩, ⟨whole - 32 - bytes.toNat, true⟩] := by
  rcases exists_malloc heap bytes with ⟨after, ptr, completes, outcome⟩
  cases outcome with
  | refused none _ _ =>
      exact absurd ⟨rfl, show bytes.toNat ≤ whole by omega⟩ (none _ List.mem_cons_self)
  | split _ _ _ first _ returned placed _ =>
      rcases fitsFirst_singleton first with ⟨rfl, rfl, rfl⟩
      rw [span, Nat.add_zero, BitVec.ofNat_toNat, BitVec.setWidth_eq] at returned
      rw [returned] at completes
      exact ⟨after, completes, placed⟩
  | taken _ _ _ first fitting _ _ _ _ =>
      rcases fitsFirst_singleton first with ⟨rfl, rfl, rfl⟩
      dsimp only at fitting
      omega

theorem enterPage_dirty (state : State) {result : BitVec 64}
    (clean : ∀ page, state.dirty page = 0#32) (page : Int) :
    (enterPage place state result bytes).dirty page = 0#32 := by
  unfold enterPage
  dsimp only
  split
  · exact clean page
  · split
    · dsimp only
      rw [Function.update_apply]
      split
      · rfl
      · exact clean page
    · exact clean page

/-- What a request leaves follows its search. -/
theorem malloc_finish (returns : Completes (threadSafeMalloc place state bytes) (after, ptr)) :
    ∃ curr, finish place state bytes curr = (after, ptr) := by
  rcases returns with ⟨fuel, done⟩
  unfold threadSafeMalloc at done
  cases ended : loop (searchBody state.memory bytes) fuel place.head with
  | running =>
      rw [ended] at done
      cases done
  | crash =>
      rw [ended] at done
      cases done
  | done curr =>
      rw [ended] at done
      exact ⟨curr, Outcome.done.inj done⟩

/-- A request changes the memory only, or enters the page of its result, too. -/
theorem malloc_cases (returns : Completes (threadSafeMalloc place state bytes) (after, ptr)) :
    ∃ memory, after = { state with memory } ∨
      after = enterPage place { state with memory } ptr bytes := by
  rcases malloc_finish returns with ⟨curr, finished⟩
  by_cases stopped : curr = 0#64
  · rw [finish, if_pos stopped] at finished
    exact ⟨state.memory, Or.inl (Prod.mk.inj finished).1.symm⟩
  · rw [finish, if_neg stopped] at finished
    generalize allocateAt state.memory bytes curr = placed at finished
    rcases placed with ⟨memory, result⟩
    dsimp only at finished
    by_cases null : result = 0#64
    · rw [if_pos null] at finished
      exact ⟨memory, Or.inl (Prod.mk.inj finished).1.symm⟩
    · rw [if_neg null] at finished
      rcases Prod.mk.inj finished with ⟨entered, rfl⟩
      exact ⟨memory, Or.inr entered.symm⟩

/-- As long as no page is dirty, requests leave it so. -/
theorem malloc_dirty (returns : Completes (threadSafeMalloc place state bytes) (after, ptr))
    (clean : ∀ page, state.dirty page = 0#32) (page : Int) : after.dirty page = 0#32 := by
  rcases malloc_cases returns with ⟨memory, rfl | rfl⟩
  · exact clean page
  · exact enterPage_dirty { state with memory } clean page

/-- As long as no page is dirty, a free does not exit. -/
theorem free_of_clean (clean : ∀ page, state.dirty page = 0#32) (ptr : BitVec 64) :
    ∃ after, threadSafeFree state ptr = some after := by
  unfold threadSafeFree
  split
  · exact ⟨state, rfl⟩
  · have saved : ∀ block, saveDirty state block = some state := fun block =>
      if_neg fun dirty => dirty (clean _)
    dsimp only
    rw [saved]
    exact ⟨_, rfl⟩

theorem sample_holds :
    HeapHolds samplePlacement (initHeap samplePlacement sampleState).memory
      [⟨(16777184#64).toNat, true⟩] :=
  initHeap_holds samplePlacement sampleState

/-- The heap after a request for 100 bytes whose search stops at a given block. -/
def sampleRequest (state : State) (curr : BitVec 64) : State :=
  (finish samplePlacement state 100#64 curr).1

/-- The heap after three requests for 100 bytes: the first and the third one have cut off a
block, and the second one has returned the first of the two. -/
def sampleLive : State :=
  sampleRequest (sampleRequest (sampleRequest (initHeap samplePlacement sampleState)
    0x1000#64) 0x1000#64) 0x1084#64

theorem sampleLive_holds :
    HeapHolds samplePlacement sampleLive.memory
      [⟨100, false⟩, ⟨100, true⟩, ⟨16776920, true⟩] := by
  refine ⟨⟨⟨?_, ?_, ?_⟩, ⟨?_, ?_, ?_⟩, ⟨?_, ?_, ?_⟩, trivial⟩, by decide⟩ <;> decide +kernel

/-- A run of the three requests. -/
theorem sampleLive_run {proper : State → List Allocation → Call → Prop}
    (allowed : ∀ state live blocks node, HeapHolds samplePlacement state.memory blocks →
      (nodes 32 samplePlacement.head.toNat blocks).find? (serves 100#64) = some node →
      (¬ 100#64 + sizeofBlock < node.size ∨ data state.memory node.address = 0#64) →
      proper state live (.malloc 100#64)) :
    Run samplePlacement proper [⟨⟨0x1020#64, 100#64⟩, none⟩] sampleLive := by
  have split : HeapHolds samplePlacement
      (sampleRequest (initHeap samplePlacement sampleState) 0x1000#64).memory
      [⟨100, true⟩, ⟨16777052, true⟩] := by
    refine ⟨⟨⟨?_, ?_, ?_⟩, ⟨?_, ?_, ?_⟩, trivial⟩, by decide⟩ <;> decide +kernel
  have taken : HeapHolds samplePlacement
      (sampleRequest (sampleRequest (initHeap samplePlacement sampleState) 0x1000#64)
        0x1000#64).memory [⟨100, false⟩, ⟨16777052, true⟩] := by
    refine ⟨⟨⟨?_, ?_, ?_⟩, ⟨?_, ?_, ?_⟩, trivial⟩, by decide⟩ <;> decide +kernel
  have first := (Run.start sampleState_fresh).request sample_holds
    (allowed _ [] _ _ sample_holds rfl (Or.inr (by decide +kernel))) rfl
    (show _ = 0#64 by decide +kernel)
  have second := first.request split (allowed _ _ _ _ split rfl (Or.inl (by decide))) rfl
    (show _ = 0x1020#64 by decide +kernel)
  exact second.request taken (allowed _ _ _ _ taken rfl (Or.inr (by decide +kernel))) rfl
    (show _ = 0#64 by decide +kernel)

/-- A second block of 100 bytes is allocated beside the first one. -/
theorem malloc_allocates_second_block :
    ∃ live state, ∃ after : State, ∃ ptr,
      Run samplePlacement (Unreused samplePlacement) live state ∧ live ≠ [] ∧
        Completes (threadSafeMalloc samplePlacement state 100#64) (after, ptr) ∧ ptr ≠ 0#64 ∧
        Allocates samplePlacement after.memory live 100#64 ptr := by
  have allowed : ∀ state live blocks node, HeapHolds samplePlacement state.memory blocks →
      (nodes 32 samplePlacement.head.toNat blocks).find? (serves 100#64) = some node →
      (¬ 100#64 + sizeofBlock < node.size ∨ data state.memory node.address = 0#64) →
      Unreused samplePlacement state live (.malloc 100#64) := by
    intro state live blocks node heap found fine
    refine ⟨trivial, ?_⟩
    rintro _ ⟨⟩
    exact heap.splitsUnset found fine
  have run := sampleLive_run allowed
  have stops : stop (100#64).toNat samplePlacement.head.toNat
      [⟨100, false⟩, ⟨100, true⟩, ⟨16776920, true⟩] = 0x1084#64 := rfl
  have returns := threadSafeMalloc_completes sampleLive_holds 100#64
  rw [stops] at returns
  have notNull : (finish samplePlacement sampleLive 100#64 0x1084#64).2 ≠ 0#64 := by
    decide +kernel
  have second := allowed sampleLive [⟨⟨0x1020#64, 100#64⟩, none⟩] _ _ sampleLive_holds rfl
    (Or.inl (by decide))
  generalize finish samplePlacement sampleLive 100#64 0x1084#64 = result at returns notNull
  rcases result with ⟨after, ptr⟩
  exact ⟨_, sampleLive, after, ptr, run, List.cons_ne_nil _ _, returns, notNull,
    malloc_allocates run second returns notNull⟩

/-- After a request for all bytes of the region and a free, a request for 100 bytes
returns a block that is marked free. -/
theorem not_allocates_after_free :
    ¬ ∀ (place : Placement) live state after bytes ptr, Run place Client live state →
      Completes (threadSafeMalloc place state bytes) (after, ptr) → ptr ≠ 0#64 →
      Allocates place after.memory live bytes ptr := by
  intro always
  rcases malloc_whole sample_holds with ⟨taken, ptr, completes, returned, held, leads⟩
  have notNull := payload_ne_null returned
  have clean := malloc_dirty completes fun _ => rfl
  rcases free_of_clean clean ptr with ⟨freed, frees⟩
  have start : Run samplePlacement Client [] (initHeap samplePlacement sampleState) :=
    .start sampleState_fresh
  have known : Live (allocated [] 16777184#64 ptr) ptr := by
    rw [allocated, if_neg notNull]
    exact ⟨_, List.mem_cons_self, rfl⟩
  have run := (start.malloc trivial completes).free (Or.inr known) frees
  have listed :
      HeapHolds samplePlacement taken.memory ([] ++ [⟨(16777184#64).toNat, false⟩]) := held
  rcases free_returns listed returned frees with ⟨marked, same⟩
  have kept : data freed.memory samplePlacement.head = ptr := by
    rw [← leads]
    exact data_congr fun i lower upper => same i (Or.inr lower)
  rcases malloc_split marked 100#64 (by decide) with ⟨after, again, holds⟩
  rw [kept] at again
  rcases always samplePlacement _ freed after 100#64 ptr run again notNull with
    ⟨walked, node, walk, member, _, _, used, _⟩
  rw [walk.unique holds.walk] at member
  have flag := List.mem_map_of_mem (f := Node.free) member
  rw [Heap.nodes_flags, used] at flag
  exact absurd flag (by decide)

end ComputerSystems.ThreadSafeHeap

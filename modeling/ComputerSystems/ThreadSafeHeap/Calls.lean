import ComputerSystems.ThreadSafeHeap.Operations

/-!
# The calls on the block list

From `init_heap` on the region holds a block list that takes it whole. A call of
`thread_safe_malloc` returns for every request: it finds no block, or splits one, or
takes one whole. A call of `thread_safe_free` marks the block of its pointer.
-/

namespace ComputerSystems.ThreadSafeHeap

open ComputerSystems.Allocation
open ComputerSystems.Heap (size free next setSize setFree setNext Header Listed Node Walk link nodes
  address_toNat setFree_header setFree_outside)
open ComputerSystems.Loop

variable {place : Placement} {memory other : Memory} {state after : State} {blocks : List Block}

/-- The region holds a block list. -/
structure HeapHolds (place : Placement) (memory : Memory) (blocks : List Block) : Prop where
  listed : Listed 32 memory place.head.toNat blocks
  whole : span 32 blocks = pageSize.toNat

theorem HeapHolds.inhabited (heap : HeapHolds place memory blocks) : blocks ≠ [] := by
  rintro rfl
  exact absurd heap.whole (by decide)

theorem HeapHolds.bound (heap : HeapHolds place memory blocks) :
    place.head.toNat + span 32 blocks < 2 ^ 64 := by
  rw [heap.whole]
  exact place.fits

/-- The program walks the block list. -/
theorem HeapHolds.walk (heap : HeapHolds place memory blocks) :
    Walk memory place.head (nodes 32 place.head.toNat blocks) :=
  heap.listed.walk (by decide) heap.inhabited place.notNull heap.bound

/-- Only the headers matter. -/
theorem HeapHolds.congr (heap : HeapHolds place memory blocks)
    (same : ∀ address ∈ headers 32 place.head.toNat blocks, ∀ i, address ≤ i → i < address + 24 →
      other i = memory i) : HeapHolds place other blocks where
  listed := heap.listed.congr same
  whole := heap.whole

/-- Only the region matters. -/
theorem HeapHolds.congr_region (heap : HeapHolds place memory blocks)
    (same : ∀ i, place.head.toNat ≤ i → i < place.head.toNat + pageSize.toNat →
      other i = memory i) : HeapHolds place other blocks := by
  apply heap.congr
  intro address member i lower upper
  have inside := headers_inside member
  have whole := heap.whole
  exact same i (by omega) (by omega)

/-- An address in the region is not NULL. -/
theorem address_ne_null {curr : BitVec 64} {behind : Nat}
    (address : curr.toNat = place.head.toNat + behind) : curr ≠ 0#64 := by
  rintro rfl
  apply place.notNull
  apply BitVec.eq_of_toNat_eq
  exact Nat.eq_zero_of_add_eq_zero_right address.symm

/-- A block of the list lies in the region. -/
theorem HeapHolds.block_inside {before rest : List Block} {block : Block}
    (heap : HeapHolds place memory (before ++ block :: rest)) :
    place.head.toNat + span 32 before + 32 + block.size ≤ place.head.toNat + pageSize.toNat := by
  have whole := heap.whole
  rw [span_append, span] at whole
  omega

/-! ## `init_heap` -/

/-- `init_heap` leaves one free block. -/
theorem initHeap_holds (place : Placement) (state : State) :
    HeapHolds place (initHeap place state).memory [⟨pageSize.toNat - 32, true⟩] where
  listed := ⟨writeHeader_header _ place.head (pageSize - sizeofBlock) 0#64 (by decide), trivial⟩
  whole := by decide

/-! ## Searching -/

/-- The address of the first block from which a request can be served, or NULL. -/
def stop (request : Nat) : Nat → List Block → BitVec 64
  | _, [] => 0#64
  | start, block :: rest =>
      if Fits request block then BitVec.ofNat 64 start
      else stop request (start + 32 + block.size) rest

theorem stop_of_none {request start : Nat} (none : ∀ block ∈ blocks, ¬ Fits request block) :
    stop request start blocks = 0#64 := by
  induction blocks generalizing start with
  | nil => rfl
  | cons block rest ih =>
      rcases List.forall_mem_cons.mp none with ⟨here, later⟩
      rw [stop, if_neg here, ih later]

theorem stop_of_fitsFirst {request start : Nat} {before rest : List Block} {block : Block}
    (first : FitsFirst request blocks before block rest) :
    stop request start blocks = BitVec.ofNat 64 (start + span 32 before) := by
  rcases first with ⟨rfl, passed, fits⟩
  induction before generalizing start with
  | nil => exact if_pos fits
  | cons other before ih =>
      rcases List.forall_mem_cons.mp passed with ⟨here, later⟩
      rw [List.cons_append, stop, if_neg here, ih later, span, Nat.add_assoc start,
        Nat.add_assoc start]

/-- The search loop ends, whatever the request. -/
theorem search_completes {start : Nat} (listed : Listed 32 memory start blocks)
    (bound : start + span 32 blocks < 2 ^ 64) (notNull : 0 < start) (bytes : BitVec 64) :
    Completes
      (fun fuel => loop (searchBody memory bytes) fuel (BitVec.ofNat 64 (link start blocks)))
      (stop bytes.toNat start blocks) := by
  induction blocks generalizing start with
  | nil => exact loop_exit (if_pos rfl)
  | cons block rest ih =>
      rcases listed with ⟨header, tail⟩
      rw [span] at bound
      rw [link, stop]
      have address : (BitVec.ofNat 64 start).toNat = start := by
        rw [BitVec.toNat_ofNat]
        exact Nat.mod_eq_of_lt (by omega)
      have curr : BitVec.ofNat 64 start ≠ 0#64 := by
        intro null
        rw [null] at address
        exact absurd address (Nat.ne_of_lt notNull)
      have checked : (free memory (BitVec.ofNat 64 start) ≠ 0#32 ∧
          bytes ≤ size memory (BitVec.ofNat 64 start)) ↔ Fits bytes.toNat block := by
        rw [Fits, ne_eq, Heap.free_eq_zero_iff, BitVec.le_def, Heap.size_toNat, address,
          header.size]
        exact and_congr_left fun _ => header.free
      by_cases fits : Fits bytes.toNat block
      · rw [if_pos fits]
        apply loop_exit
        rw [searchBody, if_neg curr, if_pos (checked.mpr fits)]
      · rw [if_neg fits]
        have following : next memory (BitVec.ofNat 64 start) =
            BitVec.ofNat 64 (link (start + 32 + block.size) rest) := by
          rw [next, address, header.next]
        have steps : searchBody memory bytes (BitVec.ofNat 64 start) =
            .next (next memory (BitVec.ofNat 64 start)) := by
          rw [searchBody, if_neg curr, if_neg fun found => fits (checked.mp found)]
        apply loop_next steps
        rw [following]
        exact ih tail (by omega) (by omega)

/-! ## `thread_safe_malloc` -/

theorem threadSafeMalloc_stable (place : Placement) (state : State) (bytes : BitVec 64) :
    Stable (threadSafeMalloc place state bytes) :=
  (loop_stable _ _).map _

theorem threadSafeMalloc_completes (heap : HeapHolds place state.memory blocks)
    (bytes : BitVec 64) :
    Completes (threadSafeMalloc place state bytes)
      (finish place state bytes (stop bytes.toNat place.head.toNat blocks)) := by
  have notNull : 0 < place.head.toNat := by
    apply Nat.pos_of_ne_zero
    intro zero
    exact place.notNull (BitVec.eq_of_toNat_eq zero)
  have search := search_completes heap.listed heap.bound notNull bytes
  rw [Heap.link_of_ne_nil heap.inhabited, BitVec.ofNat_toNat, BitVec.setWidth_eq] at search
  exact search.map _

/-- The copy into a page leaves the region as it was. -/
theorem enterPage_memory {result bytes : BitVec 64} (small : bytes.toNat ≤ pageSize.toNat) {i : Nat}
    (lower : place.head.toNat ≤ i) (upper : i < place.head.toNat + pageSize.toNat) :
    (enterPage place state result bytes).memory i = state.memory i := by
  have apart := place.apart state.pageNumber
  unfold enterPage
  dsimp only
  split
  · rfl
  · split
    · apply Memory.copy_of_outside
      rw [Memory.length_bytes]
      omega
    · rfl

/-- How a call of `thread_safe_malloc` ends on a block list. -/
inductive MallocOutcome (place : Placement) (state : State) (blocks : List Block)
    (bytes : BitVec 64) (after : State) (ptr : BitVec 64) : Prop
  /-- No block is large enough. -/
  | refused (none : ∀ block ∈ blocks, ¬ Fits bytes.toNat block) (same : after = state)
      (null : ptr = 0#64)
  /-- A block is split, and what its `data` field holds is returned. -/
  | split (before : List Block) (block : Block) (rest : List Block)
      (first : FitsFirst bytes.toNat blocks before block rest)
      (larger : bytes.toNat + 32 < block.size)
      (returned : ptr = data state.memory (BitVec.ofNat 64 (place.head.toNat + span 32 before)))
      (heap : HeapHolds place after.memory
        (before ++ ⟨bytes.toNat, true⟩ :: ⟨block.size - 32 - bytes.toNat, true⟩ :: rest))
      (same : ∀ i, place.head.toNat ≤ i → i < place.head.toNat + pageSize.toNat →
        i < place.head.toNat + span 32 before ∨
          place.head.toNat + span 32 before + 32 + block.size ≤ i → after.memory i = state.memory i)
  /-- A block is taken whole. -/
  | taken (before : List Block) (block : Block) (rest : List Block)
      (first : FitsFirst bytes.toNat blocks before block rest)
      (fitting : block.size ≤ bytes.toNat + 32)
      (returned : ptr.toNat = place.head.toNat + span 32 before + 32)
      (heap : HeapHolds place after.memory (before ++ ⟨block.size, false⟩ :: rest))
      (payload : data after.memory (BitVec.ofNat 64 (place.head.toNat + span 32 before)) = ptr)
      (same : ∀ i, place.head.toNat ≤ i → i < place.head.toNat + pageSize.toNat →
        i < place.head.toNat + span 32 before ∨ place.head.toNat + span 32 before + 32 ≤ i →
          after.memory i = state.memory i)

section Malloc

variable {bytes : BitVec 64} {before rest : List Block} {block : Block}

/-- `finish` at a block returns what placing the request there returns. -/
theorem finish_ptr {curr : BitVec 64} (notNull : curr ≠ 0#64) :
    (finish place state bytes curr).2 = (allocateAt state.memory bytes curr).2 := by
  rw [finish, if_neg notNull]
  rcases allocateAt state.memory bytes curr with ⟨memory, result⟩
  by_cases null : result = 0#64
  · rw [null]
    rfl
  · simp only [if_neg null]

/-- In the region, `finish` at a block changes what placing the request there
changes. -/
theorem finish_memory {curr : BitVec 64} (notNull : curr ≠ 0#64)
    (small : bytes.toNat ≤ pageSize.toNat) {i : Nat} (lower : place.head.toNat ≤ i)
    (upper : i < place.head.toNat + pageSize.toNat) :
    (finish place state bytes curr).1.memory i = (allocateAt state.memory bytes curr).1 i := by
  rw [finish, if_neg notNull]
  rcases allocateAt state.memory bytes curr with ⟨memory, result⟩
  by_cases null : result = 0#64
  · simp only [if_pos null]
  · simp only [if_neg null]
    exact enterPage_memory small lower upper

/-- The block list after a split. -/
theorem HeapHolds.split (heap : HeapHolds place memory (before ++ block :: rest)) {curr : BitVec 64}
    (address : curr.toNat = place.head.toNat + span 32 before) (unused : block.free = true)
    (larger : bytes.toNat + 32 < block.size) :
    HeapHolds place (ThreadSafeHeap.split memory curr bytes)
      (before ++ ⟨bytes.toNat, true⟩ :: ⟨block.size - 32 - bytes.toNat, true⟩ :: rest) where
  listed := by
    have inside := heap.block_inside
    have bound := heap.bound
    have fits := place.fits
    have tail := heap.listed.drop
    rw [← address] at tail
    rw [span_append] at bound
    apply heap.listed.replace (by decide) (List.cons_ne_nil _ _) (List.cons_ne_nil _ _)
    · intro i _ upper
      exact split_outside (by omega) (by omega) (by omega)
    · rw [← address]
      exact split_listed tail unused larger (by omega)
  whole := by
    rw [← heap.whole]
    simp only [span_append, span]
    omega

/-- The block list after a block has been taken whole. -/
theorem HeapHolds.take (heap : HeapHolds place memory (before ++ block :: rest)) {curr : BitVec 64}
    (address : curr.toNat = place.head.toNat + span 32 before) :
    HeapHolds place (ThreadSafeHeap.take memory curr) (before ++ ⟨block.size, false⟩ :: rest) where
  listed := by
    have tail := heap.listed.drop
    rw [← address] at tail
    apply heap.listed.replace (by decide) (List.cons_ne_nil _ _) (List.cons_ne_nil _ _)
    · intro i _ upper
      exact take_outside (by omega)
    · rw [← address]
      exact take_listed tail
  whole := by
    rw [← heap.whole, span_append, span_append, span, span]

/-- The block at which the search stops is split when a header fits in behind the
request. -/
theorem larger_iff (heap : HeapHolds place memory (before ++ block :: rest)) {curr : BitVec 64}
    (address : curr.toNat = place.head.toNat + span 32 before)
    (enough : bytes.toNat ≤ block.size) :
    bytes + sizeofBlock < size memory curr ↔ bytes.toNat + 32 < block.size := by
  have inside := heap.block_inside
  have fits := place.fits
  have header := heap.listed.drop.1
  rw [← address] at header
  rw [BitVec.lt_def, Heap.size_toNat, header.size, BitVec.toNat_add, sizeofBlock_toNat,
    Nat.mod_eq_of_lt (by omega)]

/-- The bytes of the region after a call that finds a block. -/
theorem finish_bytes (heap : HeapHolds place state.memory (before ++ block :: rest))
    {curr : BitVec 64} (address : curr.toNat = place.head.toNat + span 32 before)
    (enough : bytes.toNat ≤ block.size) {i : Nat} (lower : place.head.toNat ≤ i)
    (upper : i < place.head.toNat + pageSize.toNat) :
    (finish place state bytes curr).1.memory i =
      if bytes.toNat + 32 < block.size then ThreadSafeHeap.split state.memory curr bytes i
      else ThreadSafeHeap.take state.memory curr i := by
  have inside := heap.block_inside
  have larger_iff := larger_iff heap address enough
  rw [finish_memory (address_ne_null address) (by omega) lower upper, allocateAt]
  by_cases larger : bytes.toNat + 32 < block.size
  · rw [if_pos larger, if_pos (larger_iff.mpr larger)]
  · rw [if_neg larger, if_neg fun more => larger (larger_iff.mp more)]

/-- A call that finds a block. -/
theorem finish_outcome (heap : HeapHolds place state.memory blocks)
    (first : FitsFirst bytes.toNat blocks before block rest) :
    MallocOutcome place state blocks bytes
      (finish place state bytes (BitVec.ofNat 64 (place.head.toNat + span 32 before))).1
      (finish place state bytes (BitVec.ofNat 64 (place.head.toNat + span 32 before))).2 := by
  obtain rfl := first.split
  have address := address_toNat heap.bound
  have inside := heap.block_inside
  have fits := place.fits
  have enough := first.fits.2
  generalize stopAt : BitVec.ofNat 64 (place.head.toNat + span 32 before) = curr at address
  have notNull := address_ne_null address
  have larger_iff := larger_iff heap address enough
  by_cases larger : bytes.toNat + 32 < block.size
  · apply MallocOutcome.split before block rest first larger
    · rw [finish_ptr notNull, allocateAt, if_pos (larger_iff.mpr larger), split_data (by omega),
        stopAt]
    · apply (heap.split address first.fits.1 larger).congr_region
      intro i lower upper
      rw [finish_bytes heap address enough lower upper, if_pos larger]
    · intro i lower upper outside
      rw [finish_bytes heap address enough lower upper, if_pos larger]
      exact split_outside (by omega) (by omega) (by omega)
  · have returned : (finish place state bytes curr).2 = curr + sizeofBlock := by
      rw [finish_ptr notNull, allocateAt, if_neg fun more => larger (larger_iff.mp more), take_data]
    apply MallocOutcome.taken before block rest first (Nat.le_of_not_lt larger)
    · rw [returned, BitVec.toNat_add, address, sizeofBlock_toNat]
      omega
    · apply (heap.take address).congr_region
      intro i lower upper
      rw [finish_bytes heap address enough lower upper, if_neg larger]
    · rw [returned, stopAt, ← take_data state.memory]
      apply data_congr
      intro i lower upper
      rw [finish_bytes heap address enough (by omega) (by omega), if_neg larger]
    · intro i lower upper outside
      rw [finish_bytes heap address enough lower upper, if_neg larger]
      exact take_outside (by omega)

/-- A call of `thread_safe_malloc` returns, whatever the request. -/
theorem exists_malloc (heap : HeapHolds place state.memory blocks) (bytes : BitVec 64) :
    ∃ after ptr, Completes (threadSafeMalloc place state bytes) (after, ptr) ∧
      MallocOutcome place state blocks bytes after ptr := by
  have completes := threadSafeMalloc_completes heap bytes
  rcases none_fit_or_fitsFirst bytes.toNat blocks with none | ⟨before, block, rest, first⟩
  · rw [stop_of_none none] at completes
    exact ⟨_, _, completes, .refused none rfl rfl⟩
  · rw [stop_of_fitsFirst first] at completes
    exact ⟨_, _, completes, finish_outcome heap first⟩

theorem malloc_returns (heap : HeapHolds place state.memory blocks) {ptr : BitVec 64}
    (returns : Completes (threadSafeMalloc place state bytes) (after, ptr)) :
    MallocOutcome place state blocks bytes after ptr := by
  rcases exists_malloc heap bytes with ⟨same, samePtr, completes, outcome⟩
  rcases Prod.mk.inj ((threadSafeMalloc_stable place state bytes).unique completes returns) with
    ⟨rfl, rfl⟩
  exact outcome

/-- What a call that finds a block leaves in the region. -/
theorem malloc_memory (heap : HeapHolds place state.memory blocks) {ptr : BitVec 64}
    (first : FitsFirst bytes.toNat blocks before block rest)
    (returns : Completes (threadSafeMalloc place state bytes) (after, ptr)) {i : Nat}
    (lower : place.head.toNat ≤ i) (upper : i < place.head.toNat + pageSize.toNat) :
    after.memory i =
      let curr := BitVec.ofNat 64 (place.head.toNat + span 32 before)
      if bytes.toNat + 32 < block.size then ThreadSafeHeap.split state.memory curr bytes i
      else ThreadSafeHeap.take state.memory curr i := by
  have completes := threadSafeMalloc_completes heap bytes
  rw [stop_of_fitsFirst first] at completes
  obtain rfl := first.split
  have ended := (threadSafeMalloc_stable place state bytes).unique completes returns
  rw [← show (finish place state bytes (BitVec.ofNat 64 (place.head.toNat + span 32 before))).1 =
    after by rw [ended]]
  exact finish_bytes heap (address_toNat heap.bound) first.fits.2 lower upper

end Malloc

/-! ## `thread_safe_free` -/

/-- Saving a block does not change memory. -/
theorem saveDirty_memory {block : BitVec 64} (returns : saveDirty state block = some after) :
    after.memory = state.memory := by
  unfold saveDirty at returns
  dsimp only at returns
  split at returns
  · rcases Option.map_eq_some_iff.mp returns with ⟨_, _, rfl⟩
    rfl
  · rw [Option.some.inj returns]

theorem threadSafeFree_memory {ptr : BitVec 64} (notNull : ptr ≠ 0#64)
    (returns : threadSafeFree state ptr = some after) :
    after.memory = setFree state.memory (ptr - sizeofBlock) 1#32 := by
  rw [threadSafeFree, if_neg notNull] at returns
  rcases Option.map_eq_some_iff.mp returns with ⟨saved, saves, rfl⟩
  dsimp only
  rw [saveDirty_memory saves]

section Free

variable {ptr : BitVec 64} {before rest : List Block} {block : Block}

/-- What lies behind a header of the region is not NULL. -/
theorem payload_ne_null {address : Nat} (payload : ptr.toNat = address + 32) : ptr ≠ 0#64 := by
  rintro rfl
  exact absurd payload.symm (Nat.succ_ne_zero _)

/-- `thread_safe_free` marks the block whose payload the pointer leads to. -/
theorem free_returns (heap : HeapHolds place state.memory (before ++ block :: rest))
    (payload : ptr.toNat = place.head.toNat + span 32 before + 32)
    (returns : threadSafeFree state ptr = some after) :
    HeapHolds place after.memory (before ++ ⟨block.size, true⟩ :: rest) ∧
      ∀ i, i < place.head.toNat + span 32 before ∨ place.head.toNat + span 32 before + 24 ≤ i →
        after.memory i = state.memory i := by
  have address : (ptr - sizeofBlock).toNat = place.head.toNat + span 32 before := by
    rw [BitVec.toNat_sub, sizeofBlock_toNat]
    omega
  have memory := threadSafeFree_memory (payload_ne_null payload) returns
  have same : ∀ i, i < place.head.toNat + span 32 before ∨
      place.head.toNat + span 32 before + 24 ≤ i → after.memory i = state.memory i := by
    intro i outside
    rw [memory, setFree_outside (by omega)]
  have tail := heap.listed.drop
  rw [← address] at tail
  rcases tail with ⟨header, later⟩
  refine ⟨⟨?_, ?_⟩, same⟩
  · apply heap.listed.replace (by decide) (List.cons_ne_nil _ _) (List.cons_ne_nil _ _)
    · intro i _ upper
      exact same i (Or.inl upper)
    · rw [← address]
      constructor
      · rw [memory]
        exact setFree_header header (by decide)
      · apply later.congr_span (by decide)
        intro i lower upper
        exact same i (by omega)
  · rw [← heap.whole, span_append, span_append, span, span]

end Free

/-! ## The blocks the program sees -/

/-- A block is free and large enough. -/
def serves (bytes : BitVec 64) (node : Node) : Bool :=
  node.free && decide (bytes ≤ node.size)

/-- The first block on the list from which a request can be served. -/
def FirstFit (place : Placement) (memory : Memory) (bytes : BitVec 64) (node : Node) : Prop :=
  ∃ nodes, Walk memory place.head nodes ∧ nodes.find? (serves bytes) = some node

/-- A pointer to the payload of a block on the list. -/
def OnList (place : Placement) (memory : Memory) (ptr : BitVec 64) : Prop :=
  ∃ nodes node, Walk memory place.head nodes ∧ node ∈ nodes ∧ ptr = node.address + sizeofBlock

section Nodes

variable {bytes : BitVec 64} {before rest : List Block} {block : Block}

theorem serves_eq (bytes : BitVec 64) : serves bytes = Heap.serves bytes :=
  rfl

/-- The first block that serves a request is the one at which the search stops. -/
theorem HeapHolds.firstFit_iff (heap : HeapHolds place memory blocks) {node : Node} :
    FirstFit place memory bytes node ↔
      ∃ before block rest, FitsFirst bytes.toNat blocks before block rest ∧
        node = ⟨BitVec.ofNat 64 (place.head.toNat + span 32 before), BitVec.ofNat 64 block.size,
          block.free⟩ := by
  constructor
  · rintro ⟨walked, walk, served⟩
    rw [walk.unique heap.walk] at served
    rcases none_fit_or_fitsFirst bytes.toNat blocks with none | ⟨before, block, rest, first⟩
    · rw [serves_eq, Heap.find_nodes_of_none heap.bound none] at served
      cases served
    · rw [serves_eq, Heap.find_nodes_of_fitsFirst heap.bound first] at served
      exact ⟨before, block, rest, first, (Option.some.inj served).symm⟩
  · rintro ⟨before, block, rest, first, rfl⟩
    exact ⟨_, heap.walk, Heap.find_nodes_of_fitsFirst heap.bound first⟩

/-- The address of the payload of a block. -/
theorem HeapHolds.payload_toNat (heap : HeapHolds place memory (before ++ block :: rest)) :
    (BitVec.ofNat 64 (place.head.toNat + span 32 before) + sizeofBlock).toNat =
      place.head.toNat + span 32 before + 32 := by
  have inside := heap.block_inside
  have fits := place.fits
  rw [BitVec.toNat_add, address_toNat heap.bound, sizeofBlock_toNat]
  omega

/-- The pointers to payloads that the program sees are those of the block list. -/
theorem HeapHolds.onList_iff (heap : HeapHolds place memory blocks) {ptr : BitVec 64} :
    OnList place memory ptr ↔
      ∃ before block rest, blocks = before ++ block :: rest ∧
        ptr.toNat = place.head.toNat + span 32 before + 32 := by
  constructor
  · rintro ⟨walked, node, walk, member, rfl⟩
    rw [walk.unique heap.walk] at member
    rcases Heap.mem_nodes member with ⟨before, block, rest, rfl, rfl⟩
    exact ⟨before, block, rest, rfl, heap.payload_toNat⟩
  · rintro ⟨before, block, rest, rfl, payload⟩
    refine ⟨_, ⟨BitVec.ofNat 64 (place.head.toNat + span 32 before), BitVec.ofNat 64 block.size,
      block.free⟩, heap.walk, ?_, ?_⟩
    · rw [Heap.nodes_append, nodes]
      exact List.mem_append_right _ List.mem_cons_self
    · exact BitVec.eq_of_toNat_eq (payload.trans heap.payload_toNat.symm)

end Nodes

end ComputerSystems.ThreadSafeHeap

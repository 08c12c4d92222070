import ComputerSystems.Heap.Payloads

/-!
# Which requests are answered

The search of `pm_malloc` ends at the first free block that is large enough, which
is then taken only when its size is exact or leaves room for a header. So a request
can be refused although a later block suits it. A request for more than `HER` bytes
is refused, unless adding the size of a header wraps around: then the last block is
split.
-/

namespace ComputerSystems.Heap

open ComputerSystems.Allocation
open ComputerSystems.Loop

/-- A request wraps around with its header, and what is left is less than the size
of the last block that the search can reach. -/
def Overruns (place : Placement) (memory : Memory) (noOfBytes : BitVec 64) : Prop :=
  2 ^ 64 ≤ noOfBytes.toNat + sizeofBlock.toNat ∧
    ∃ nodes node, Walk (prepared place memory) place.mem nodes ∧
      nodes.getLast? = some node ∧ noOfBytes + sizeofBlock < node.size

/-- The bytes that `pm_free` overwrites. -/
def flagBytes (ptr : BitVec 64) : Set Nat :=
  Set.Ico ((ptr - sizeofBlock).toNat + 8) ((ptr - sizeofBlock).toNat + 12)

/-- The calls that leave a block list: requests that do not overrun, and frees that
mark a block on the list, are rejected, or overwrite no header. -/
def KeepsList (place : Placement) (memory : Memory) (_live : List Allocation) : Call → Prop
  | .malloc noOfBytes => ¬ Overruns place memory noOfBytes
  | .free ptr => ¬ (place.mem ≤ ptr ∧ ptr ≤ place.mem + her) ∨
      ∃ nodes, Walk memory place.mem nodes ∧
        ((∃ node ∈ nodes, ptr = node.address + sizeofBlock) ∨
          ∀ node ∈ nodes, Disjoint (flagBytes ptr) node.header)

/-- The first free block with enough bytes, on the list that `pm_malloc` searches. -/
def FirstFit (place : Placement) (memory : Memory) (noOfBytes : BitVec 64) (node : Node) : Prop :=
  ∃ nodes, Walk (prepared place memory) place.mem nodes ∧
    nodes.find? (serves noOfBytes) = some node

variable {place : Placement} {memory after : Memory} {blocks : List Block}
  {noOfBytes ptr : BitVec 64}

/-! ## Oversized requests -/

/-- No block of the list is larger than the array. -/
theorem HeapHolds.block_size (heap : HeapHolds place memory blocks) {block : Block}
    (member : block ∈ blocks) : block.size + 24 ≤ her.toNat := by
  have small := heap.span_le
  rcases List.append_of_mem member with ⟨before, rest, rfl⟩
  rw [span_append, span] at small
  omega

/-- The address at which a search ends that passes every block but the last. -/
def lastHeader (place : Placement) (front : List Block) : BitVec 64 :=
  BitVec.ofNat 64 (place.mem.toNat + span 24 front)

/-- The search for a request that no block can serve ends at the last block. -/
theorem HeapHolds.oversized (heap : HeapHolds place memory blocks) (large : her < noOfBytes) :
    ∃ front last, Heap.ready blocks = front ++ [last] ∧
      Completes (pmMalloc place memory noOfBytes) (allocateAt (prepared place memory) noOfBytes
        (lastHeader place front)) ∧
      (layout place.mem.toNat (Heap.ready blocks)).getLast? = some ⟨lastHeader place front,
        size (prepared place memory) (lastHeader place front), last.free⟩ ∧
      (size (prepared place memory) (lastHeader place front)).toNat + 24 ≤ her.toNat := by
  obtain ⟨front, last, rest, split, stops⟩ :=
    exists_stopsAt noOfBytes.toNat heap.ready.inhabited
  have small : last.size + 24 ≤ her.toNat :=
    heap.ready.block_size (split ▸ List.mem_append_right _ List.mem_cons_self)
  have ended : rest = [] := by
    by_contra more
    have enough := (stops.fits more).2
    rw [BitVec.lt_def] at large
    omega
  subst ended
  have bound := heap.ready.bound
  have header := heap.ready.holds
  rw [split] at header bound
  have held := header.drop.1.size
  rw [← address_toNat bound, ← size_toNat] at held
  have sizes : BitVec.ofNat 64 last.size =
      size (prepared place memory) (lastHeader place front) := by
    rw [← held, BitVec.ofNat_toNat, BitVec.setWidth_eq]
    rfl
  refine ⟨front, last, split, pmMalloc_completes heap split stops, ?_, ?_⟩
  · rw [split, layout_append, layout, ← sizes]
    exact List.getLast?_concat
  · rw [lastHeader, held]
    exact small

/-- The last block is split exactly for a request that overruns. -/
theorem HeapHolds.overruns_iff (heap : HeapHolds place memory blocks) (large : her < noOfBytes)
    {front : List Block} {last : Block}
    (found : (layout place.mem.toNat (Heap.ready blocks)).getLast? = some ⟨lastHeader place front,
      size (prepared place memory) (lastHeader place front), last.free⟩)
    (small : (size (prepared place memory) (lastHeader place front)).toNat + 24 ≤ her.toNat) :
    Overruns place memory noOfBytes ↔
      noOfBytes + sizeofBlock < size (prepared place memory) (lastHeader place front) := by
  constructor
  · rintro ⟨_, nodes, node, walk, lastNode, room⟩
    rw [walk.unique heap.ready.walk, found] at lastNode
    obtain rfl := Option.some.inj lastNode
    exact room
  · intro room
    refine ⟨?_, _, _, heap.ready.walk, found, room⟩
    by_contra exactly
    have sum : (noOfBytes + sizeofBlock).toNat = noOfBytes.toNat + sizeofBlock.toNat := by
      rw [BitVec.toNat_add]
      exact Nat.mod_eq_of_lt (Nat.lt_of_not_le exactly)
    rw [BitVec.lt_def, sum] at room
    rw [BitVec.lt_def] at large
    omega

/-- A request for more than `HER` bytes returns NULL and changes nothing, or overruns
and returns a pointer into the array. -/
theorem HeapHolds.oversized_cases (heap : HeapHolds place memory blocks)
    (large : her < noOfBytes) :
    (¬ Overruns place memory noOfBytes ∧
        Completes (pmMalloc place memory noOfBytes) (prepared place memory, 0#64)) ∨
      Overruns place memory noOfBytes ∧ ∃ after ptr,
        Completes (pmMalloc place memory noOfBytes) (after, ptr) ∧ ptr ≠ 0#64 := by
  rcases heap.oversized large with ⟨front, last, split, completes, found, small⟩
  have different : size (prepared place memory) (lastHeader place front) ≠ noOfBytes := by
    rintro same
    rw [same] at small
    rw [BitVec.lt_def] at large
    omega
  rw [heap.overruns_iff large found small]
  rw [allocateAt, if_neg different] at completes
  by_cases room : noOfBytes + sizeofBlock < size (prepared place memory) (lastHeader place front)
  · rw [if_pos room] at completes
    refine Or.inr ⟨room, _, _, completes, ne_null ?_⟩
    have bound := heap.ready.bound
    have whole := heap.ready_span
    have fits := place.fits
    rw [split] at bound whole
    have address : (lastHeader place front).toNat = place.mem.toNat + span 24 front :=
      address_toNat bound
    rw [span_append, span] at whole
    rw [BitVec.toNat_add, address, sizeofBlock_toNat]
    omega
  · rw [if_neg room] at completes
    exact Or.inl ⟨room, completes⟩

/-! ## Runs -/

theorem HeapHolds.onList (heap : HeapHolds place memory blocks) {nodes : List Node} {node : Node}
    (walk : Walk memory place.mem nodes) (member : node ∈ nodes) :
    ∃ before block rest, blocks = before ++ block :: rest ∧
      (node.address + sizeofBlock).toNat = place.mem.toNat + span 24 before + 24 := by
  rw [walk.unique heap.walk] at member
  rcases mem_layout member with ⟨before, block, rest, rfl, rfl⟩
  have bound := heap.bound
  refine ⟨before, block, rest, rfl, ?_⟩
  rw [BitVec.toNat_add, address_toNat bound, sizeofBlock_toNat]
  rw [span_append, span] at bound
  omega

/-- A request that does not overrun leaves a block list. -/
theorem HeapHolds.malloc (heap : HeapHolds place memory blocks)
    (fine : ¬ Overruns place memory noOfBytes)
    (returns : Completes (pmMalloc place memory noOfBytes) (after, ptr)) :
    ∃ blocks, HeapHolds place after blocks := by
  by_cases room : noOfBytes.toNat + 24 < 2 ^ 64
  · cases malloc_returns heap room returns with
    | placed _ _ _ _ _ _ _ _ placed => exact ⟨_, placed⟩
    | refused _ _ _ _ _ _ _ refused => exact ⟨_, refused⟩
  · have large : her < noOfBytes := by
      rw [BitVec.lt_def, her_toNat]
      omega
    rcases heap.oversized_cases large with ⟨_, completes⟩ | ⟨overruns, _⟩
    · have same := (pmMalloc_stable place memory noOfBytes).unique completes returns
      rw [← (Prod.mk.inj same).1]
      exact ⟨_, heap.ready⟩
    · exact absurd overruns fine

/-- A flag that overlaps no header can be set. -/
theorem HeapHolds.marks (heap : HeapHolds place memory blocks) {nodes : List Node}
    (walk : Walk memory place.mem nodes)
    (apart : ∀ node ∈ nodes, Disjoint (flagBytes ptr) node.header) :
    HeapHolds place (Heap.setFree memory (ptr - sizeofBlock) 1#32) blocks where
  holds := by
    apply holds_iff.mpr
    apply (holds_iff.mp heap.holds).congr
    intro address member i lower upper
    rw [walk.unique heap.walk, layout_eq] at apart
    rw [← nodes_addresses heap.bound] at member
    rcases List.mem_map.mp member with ⟨node, listed, rfl⟩
    have outside := apart node listed
    rw [flagBytes, Node.header, Set.Ico_disjoint_Ico, sizeofBlock_toNat] at outside
    exact Memory.store_of_outside (by omega)
  extent := heap.extent

/-- How a call of `pm_free` ends that keeps the block list: the pointer is rejected, no
header is overwritten before the coalescing pass, or a block is released before it. -/
inductive FreeOutcome (place : Placement) (blocks : List Block) (ptr : BitVec 64)
    (after : Memory) : Prop
  | rejected (outside : ¬ (place.mem ≤ ptr ∧ ptr ≤ place.mem + her))
      (heap : HeapHolds place after blocks)
  | spared (merged : List Block) (pass : coalesce 24 blocks = some merged)
      (apart : ptr ≠ place.mem + sizeofBlock) (heap : HeapHolds place after merged)
  | marked (before : List Block) (block : Block) (rest merged : List Block)
      (split : blocks = before ++ block :: rest)
      (payload : ptr.toNat = place.mem.toNat + span 24 before + 24)
      (pass : coalesce 24 (before ++ ⟨block.size, true⟩ :: rest) = some merged)
      (heap : HeapHolds place after merged)

/-- The flag of a block is in its header. -/
theorem payload_ne_of_apart {node : Node} (apart : Disjoint (flagBytes ptr) node.header) :
    node.address + sizeofBlock ≠ ptr := by
  rintro rfl
  rw [flagBytes, Node.header, Set.Ico_disjoint_Ico, BitVec.add_sub_cancel,
    sizeofBlock_toNat] at apart
  omega

theorem HeapHolds.apart_first (heap : HeapHolds place memory blocks) {nodes : List Node}
    (walk : Walk memory place.mem nodes)
    (apart : ∀ node ∈ nodes, Disjoint (flagBytes ptr) node.header) :
    ptr ≠ place.mem + sizeofBlock := by
  rcases List.exists_cons_of_ne_nil heap.inhabited with ⟨first, rest, split⟩
  have listed := heap.walk
  rw [split, layout, BitVec.ofNat_toNat, BitVec.setWidth_eq] at listed
  rw [walk.unique listed] at apart
  exact (payload_ne_of_apart (apart _ List.mem_cons_self)).symm

/-- A free that marks a block, is rejected or overwrites no header leaves a block
list. -/
theorem HeapHolds.free {live : List Allocation} (heap : HeapHolds place memory blocks)
    (kept : KeepsList place memory live (.free ptr))
    (returns : Completes (pmFree place memory ptr) after) :
    FreeOutcome place blocks ptr after := by
  by_cases inside : place.mem ≤ ptr ∧ ptr ≤ place.mem + her
  · rcases kept with rejected | ⟨nodes, walk, ⟨node, member, rfl⟩ | apart⟩
    · exact absurd inside rejected
    · rcases heap.onList walk member with ⟨before, block, rest, rfl, payload⟩
      rcases free_returns heap payload returns with ⟨merged, pass, mergedHeap⟩
      exact .marked before block rest merged rfl payload pass mergedHeap
    · rw [pmFree_of_accepted inside] at returns
      rcases (heap.marks walk apart).merges returns with ⟨merged, pass, mergedHeap⟩
      exact .spared merged pass (heap.apart_first walk apart) mergedHeap
  · rcases returns with ⟨fuel, done⟩
    rw [pmFree, if_neg inside] at done
    cases done
    exact .rejected inside heap

/-- In every run of calls that keep it, memory holds a block list. -/
theorem run_keepsList {calls : List Call} {live : List Allocation}
    (run : Run place (KeepsList place) calls live memory) :
    ∃ blocks, HeapHolds place memory blocks := by
  induction run with
  | start zeroed => exact ⟨_, zeroed_holds zeroed⟩
  | malloc _ allowed returns ih =>
      rcases ih with ⟨blocks, heap⟩
      exact heap.malloc allowed returns
  | free _ allowed returns ih =>
      rcases ih with ⟨blocks, heap⟩
      cases heap.free allowed returns with
      | rejected _ kept => exact ⟨_, kept⟩
      | spared merged _ _ kept => exact ⟨merged, kept⟩
      | marked _ _ _ merged _ _ _ kept => exact ⟨merged, kept⟩

/-! ## Suitable blocks -/

/-- A block can be taken whole for a request, or has room for it and a header. -/
def Suits (noOfBytes : BitVec 64) (node : Node) : Prop :=
  node.size = noOfBytes ∨ noOfBytes.toNat + sizeofBlock.toNat < node.size.toNat

/-- The first free block that is large enough, on the list that `pm_malloc`
searches. -/
theorem HeapHolds.firstFit (heap : HeapHolds place memory blocks) {before rest : List Block}
    {block : Block} (first : FitsFirst noOfBytes.toNat (Heap.ready blocks) before block rest)
    {node : Node} :
    FirstFit place memory noOfBytes node ↔
      node = ⟨BitVec.ofNat 64 (place.mem.toNat + span 24 before), BitVec.ofNat 64 block.size,
        block.free⟩ := by
  have walk := heap.ready.walk
  have found := find_nodes_of_fitsFirst heap.ready.bound first
  rw [layout_eq] at walk
  constructor
  · rintro ⟨walked, other, served⟩
    rw [other.unique walk, found] at served
    exact (Option.some.inj served).symm
  · rintro rfl
    exact ⟨_, walk, found⟩

/-- A block that suits a request is free and large enough on the list that
`pm_malloc` searches, also when this list is set up anew. -/
theorem HeapHolds.exists_fitsFirst (heap : HeapHolds place memory blocks) {block : Block}
    (member : block ∈ blocks) (fits : Fits noOfBytes.toNat block) :
    ∃ before block rest, FitsFirst noOfBytes.toNat (Heap.ready blocks) before block rest := by
  rcases none_fit_or_fitsFirst noOfBytes.toNat (Heap.ready blocks) with none | found
  · exfalso
    by_cases empty : blocks.head?.map Block.size = some 0
    · have small := heap.block_size member
      have enough := fits.2
      rw [Heap.ready, if_pos empty] at none
      exact none _ List.mem_cons_self ⟨rfl, by dsimp only; omega⟩
    · rw [Heap.ready, if_neg empty] at none
      exact none block member fits
  · exact found

/-- How a request is answered whose search ends at a free block that is large
enough. -/
theorem HeapHolds.answers_iff (heap : HeapHolds place memory blocks) {before rest : List Block}
    {block : Block} (first : FitsFirst noOfBytes.toNat (Heap.ready blocks) before block rest) :
    (∃ after ptr, Completes (pmMalloc place memory noOfBytes) (after, ptr) ∧ ptr ≠ 0#64) ↔
      block.size = noOfBytes.toNat ∨ noOfBytes.toNat + 24 < block.size := by
  have member : block ∈ Heap.ready blocks :=
    first.split ▸ List.mem_append_right _ List.mem_cons_self
  have small := heap.ready.block_size member
  have enough := first.fits.2
  rw [her_toNat] at small
  have room : noOfBytes.toNat + 24 < 2 ^ 64 := by omega
  have stops : StopsAt noOfBytes.toNat before block rest := ⟨first.passed, fun _ => first.fits⟩
  rcases malloc_spec heap room first.split stops with ⟨placed, refused⟩
  constructor
  · rintro ⟨after, ptr, completes, notNull⟩
    by_contra unsuited
    rw [not_or] at unsuited
    have unfit : fit 24 noOfBytes.toNat block = none := by
      rw [fit, if_neg unsuited.1, if_neg unsuited.2]
    rcases refused unfit with ⟨same, answered, _⟩
    have results := (pmMalloc_stable place memory noOfBytes).unique completes answered
    exact notNull (Prod.mk.inj results).2
  · intro suits
    have fits : ∃ parts, fit 24 noOfBytes.toNat block = some parts := by
      rcases suits with exactly | larger
      · exact ⟨_, if_pos exactly⟩
      · exact ⟨_, by rw [fit, if_neg (by omega), if_pos larger]⟩
    rcases fits with ⟨parts, fits⟩
    rcases placed parts fits with ⟨after, ptr, completes, payload, _⟩
    exact ⟨after, ptr, completes, ne_null (by rw [sizeofBlock_toNat]; omega)⟩

theorem suits_iff {address : BitVec 64} {block : Block} (small : block.size < 2 ^ 64) :
    Suits noOfBytes ⟨address, BitVec.ofNat 64 block.size, block.free⟩ ↔
      block.size = noOfBytes.toNat ∨ noOfBytes.toNat + 24 < block.size := by
  rw [Suits, ← BitVec.toNat_inj, BitVec.toNat_ofNat, Nat.mod_eq_of_lt small, sizeofBlock_toNat]

/-- When a free block on the list suits a request, the request is answered with a
pointer exactly when the first free block that is large enough suits it. -/
theorem pmMalloc_answers_iff {calls : List Call} {live : List Allocation}
    (run : Run place (KeepsList place) calls live memory) {nodes : List Node}
    (walk : Walk memory place.mem nodes)
    (suitable : ∃ node ∈ nodes, node.free = true ∧
      (node.size = noOfBytes ∨ noOfBytes.toNat + sizeofBlock.toNat < node.size.toNat)) :
    (∃ after ptr, Completes (pmMalloc place memory noOfBytes) (after, ptr) ∧ ptr ≠ 0#64) ↔
      ∀ node, FirstFit place memory noOfBytes node →
        node.size = noOfBytes ∨ noOfBytes.toNat + sizeofBlock.toNat < node.size.toNat := by
  rcases run_keepsList run with ⟨blocks, heap⟩
  have fits : ∃ block ∈ blocks, Fits noOfBytes.toNat block := by
    rcases suitable with ⟨node, member, unused, suits⟩
    rw [walk.unique heap.walk] at member
    rcases mem_layout member with ⟨front, block, back, split, rfl⟩
    have listed : block ∈ blocks := split ▸ List.mem_append_right _ List.mem_cons_self
    have small := heap.block_size listed
    rw [her_toNat] at small
    have suited := (suits_iff (by omega)).mp suits
    exact ⟨block, listed, unused, by omega⟩
  rcases fits with ⟨fitting, listed, fits⟩
  rcases heap.exists_fitsFirst listed fits with ⟨before, block, rest, first⟩
  have member : block ∈ Heap.ready blocks :=
    first.split ▸ List.mem_append_right _ List.mem_cons_self
  have small := heap.ready.block_size member
  rw [her_toNat] at small
  have suited : Suits noOfBytes ⟨BitVec.ofNat 64 (place.mem.toNat + span 24 before),
      BitVec.ofNat 64 block.size, block.free⟩ ↔ _ := suits_iff (by omega)
  rw [heap.answers_iff first, ← suited]
  constructor
  · intro suits node found
    rw [(heap.firstFit first).mp found]
    exact suits
  · intro always
    exact always _ ((heap.firstFit first).mpr rfl)

/-- After a first request for 400 bytes, a second one is answered from the block
behind. -/
theorem pmMalloc_answers_second_request :
    ∃ calls live memory after ptr,
      Run samplePlacement (KeepsList samplePlacement) calls live memory ∧
        Completes (pmMalloc samplePlacement memory 400#64) (after, ptr) ∧ ptr ≠ 0#64 := by
  rcases first_request with ⟨memory, ptr, done, _, heap⟩
  have fine : ¬ Overruns samplePlacement zeroMemory 400#64 := fun overruns =>
    absurd overruns.1 (by decide)
  have run : Run samplePlacement (KeepsList samplePlacement) _ _ memory :=
    .malloc (.start (zeroMemory_zeroed samplePlacement)) fine done
  have passed : ∀ other ∈ [(⟨400, false⟩ : Block)], ¬ Fits (400#64).toNat other := by
    decide
  have first : FitsFirst (400#64).toNat (ready [⟨400, false⟩, ⟨9999552, true⟩])
      [⟨400, false⟩] ⟨9999552, true⟩ [] := ⟨rfl, passed, by decide⟩
  have answers : ∀ node, FirstFit samplePlacement memory 400#64 node →
      node.size = 400#64 ∨ (400#64).toNat + sizeofBlock.toNat < node.size.toNat := by
    intro node found
    rw [(heap.firstFit first).mp found]
    exact Or.inr (by decide)
  rcases (pmMalloc_answers_iff run heap.walk ⟨_, List.mem_cons_of_mem _ List.mem_cons_self, rfl,
    Or.inr (by decide)⟩).mpr answers with ⟨after, second, completes, notNull⟩
  exact ⟨_, _, memory, after, second, run, completes, notNull⟩

/-- Behind a free block of 400 bytes, a request for 390 bytes is refused although the
last block has room for it. -/
theorem not_answered_behind_larger_block :
    ¬ ∀ (place : Placement) calls live memory, Run place OnLive calls live memory →
      ∀ nodes, Walk memory place.mem nodes → ∀ noOfBytes : BitVec 64,
        (∃ node ∈ nodes, node.free = true ∧
          (node.size = noOfBytes ∨ noOfBytes.toNat + sizeofBlock.toNat < node.size.toNat)) →
        ∃ after ptr, Completes (pmMalloc place memory noOfBytes) (after, ptr) ∧ ptr ≠ 0#64 := by
  intro always
  rcases first_freed with ⟨memory, _, run, _, heap⟩
  have passed : ∀ other ∈ ([] : List Block), ¬ Fits (390#64).toNat other := by
    decide
  have first : FitsFirst (390#64).toNat (ready [⟨400, true⟩, ⟨400, false⟩, ⟨9999128, true⟩])
      [] ⟨400, true⟩ [⟨400, false⟩, ⟨9999128, true⟩] := ⟨rfl, passed, by decide⟩
  have answered := always samplePlacement _ _ memory run _ heap.walk 390#64
    ⟨_, List.mem_cons_of_mem _ (List.mem_cons_of_mem _ List.mem_cons_self), rfl,
      Or.inr (by decide)⟩
  exact absurd ((heap.answers_iff first).mp answered) (by decide)

/-! ## Refused requests -/

/-- A request returns NULL and leaves every header on the list as it was. -/
def RefusesUnchanged (place : Placement) (memory : Memory) (noOfBytes : BitVec 64) : Prop :=
  ∃ after, Completes (pmMalloc place memory noOfBytes) (after, 0#64) ∧
    ∀ nodes, Walk memory place.mem nodes → ∀ node ∈ nodes,
      size after node.address = size memory node.address ∧
      free after node.address = free memory node.address ∧
      next after node.address = next memory node.address

/-- A request for more than `HER` bytes is refused without a change exactly when the
array is initialised and the request does not overrun. -/
theorem pmMalloc_refuses_iff {calls : List Call} {live : List Allocation}
    (run : Run place (KeepsList place) calls live memory) (large : her < noOfBytes) :
    RefusesUnchanged place memory noOfBytes ↔
      size memory place.mem ≠ 0#64 ∧ ¬ Overruns place memory noOfBytes := by
  rcases run_keepsList run with ⟨blocks, heap⟩
  have stable := pmMalloc_stable place memory noOfBytes
  rcases heap.oversized_cases large with ⟨fine, completes⟩ | ⟨overruns, after, ptr, completes, set⟩
  · constructor
    · rintro ⟨after, refused, kept⟩
      refine ⟨?_, fine⟩
      intro unset
      -- The list is set up anew, so the size of the first block changes.
      rcases List.exists_cons_of_ne_nil heap.inhabited with ⟨first, rest, split⟩
      have walk := heap.walk
      rw [split, layout] at walk
      have same := (kept _ walk _ List.mem_cons_self).1
      have results := (Prod.mk.inj (stable.unique completes refused)).1
      dsimp only at same
      rw [BitVec.ofNat_toNat, BitVec.setWidth_eq, unset, ← results, prepared, if_pos unset] at same
      have header := (init_holds place memory).1.size
      rw [← size_toNat, same] at header
      exact absurd header (by decide)
    · rintro ⟨initialised, _⟩
      rw [prepared, if_neg initialised] at completes
      exact ⟨memory, completes, fun _ _ _ _ => ⟨rfl, rfl, rfl⟩⟩
  · constructor
    · rintro ⟨after, refused, _⟩
      exact absurd (Prod.mk.inj (stable.unique completes refused)).2 set
    · rintro ⟨_, fine⟩
      exact absurd overruns fine

/-- After a first request for 400 bytes, one for 10000001 bytes is refused. -/
theorem pmMalloc_refuses_second_request :
    ∃ calls live memory, Run samplePlacement (KeepsList samplePlacement) calls live memory ∧
      RefusesUnchanged samplePlacement memory 10000001#64 := by
  rcases first_request with ⟨memory, ptr, done, _, heap⟩
  have fine : ∀ {memory noOfBytes}, noOfBytes.toNat + sizeofBlock.toNat < 2 ^ 64 →
      ¬ Overruns samplePlacement memory noOfBytes := fun room overruns =>
    absurd overruns.1 (Nat.not_le_of_lt room)
  have room : ¬ Overruns samplePlacement zeroMemory 400#64 := fine (by decide)
  have run : Run samplePlacement (KeepsList samplePlacement) _ _ memory :=
    .malloc (.start (zeroMemory_zeroed samplePlacement)) room done
  have initialised : size memory samplePlacement.mem ≠ 0#64 := fun unset =>
    absurd (heap.size_mem.mp unset) (by decide)
  exact ⟨_, _, memory, run,
    (pmMalloc_refuses_iff run (by decide)).mpr ⟨initialised, fine (by decide)⟩⟩

/-- After a first request for 400 bytes, one for 2^64 - 1 bytes returns a pointer. -/
theorem not_refused_at_word_size :
    ¬ ∀ (place : Placement) calls live memory, Run place OnLive calls live memory →
      size memory place.mem ≠ 0#64 → ∀ noOfBytes, her < noOfBytes →
        RefusesUnchanged place memory noOfBytes := by
  intro always
  rcases first_request with ⟨memory, ptr, done, _, heap⟩
  have run : Run samplePlacement OnLive _ _ memory :=
    .malloc (.start (zeroMemory_zeroed samplePlacement)) trivial done
  have initialised : size memory samplePlacement.mem ≠ 0#64 := fun unset =>
    absurd (heap.size_mem.mp unset) (by decide)
  have overruns : Overruns samplePlacement memory (BitVec.allOnes 64) :=
    ⟨by decide, _, _, heap.ready.walk, rfl, by decide⟩
  rcases always samplePlacement _ _ memory run initialised (BitVec.allOnes 64) (by decide) with
    ⟨same, refused, _⟩
  rcases heap.oversized_cases (show her < BitVec.allOnes 64 by decide) with
    ⟨fine, _⟩ | ⟨_, after, second, completes, notNull⟩
  · exact fine overruns
  · have results := (pmMalloc_stable _ _ _).unique completes refused
    exact notNull (Prod.mk.inj results).2

end ComputerSystems.Heap

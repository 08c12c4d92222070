import ComputerSystems.ThreadSafeHeap.VmTableFilling

/-!
# What a failing `createVMtable` leaves allocated

When an array is missing, `createVMtable` frees the table and nothing else, so it leaves the
used blocks as they were only when no other block was taken: when no other block could serve
even the first request for an array. A first request that splits a block does not mark it,
but the second one takes the part that the split has left in front.
-/

namespace ComputerSystems.ThreadSafeHeap

open ComputerSystems.Allocation
open ComputerSystems.Heap (Node nodes)
open ComputerSystems.Loop

variable {place : Placement} {memory other origin : Memory} {state after final : State}
  {blocks kept before rest : List Block} {block : Block} {node first : Node}
  {found : List Node} {bytes table : BitVec 64} {length : BitVec 32}

/-! ## Used blocks -/

theorem HeapHolds.usedBlocks_eq (heap : HeapHolds place memory blocks) :
    usedBlocks place memory = usedNodes place blocks := by
  ext node
  constructor
  · rintro ⟨used, walked, walk, member⟩
    rw [walk.unique heap.walk] at member
    exact ⟨member, used⟩
  · rintro ⟨member, used⟩
    exact ⟨used, _, heap.walk, member⟩

/-- A free block and a used one have different addresses. -/
theorem HeapHolds.address_ne (heap : HeapHolds place memory blocks)
    (member : first ∈ nodes 32 place.head.toNat blocks) (free : first.free = true)
    (also : node ∈ nodes 32 place.head.toNat blocks) (used : node.free = false) :
    node.address ≠ first.address := by
  intro same
  obtain rfl := heap.node_unique member also same
  exact absurd (used.symm.trans free) Bool.false_ne_true

/-- Freeing a block takes it from the used ones. -/
theorem usedNodes_freed
    (freed : HeapHolds place other (before ++ ⟨block.size, true⟩ :: rest)) :
    usedNodes place (before ++ ⟨block.size, true⟩ :: rest) =
      {node | node ∈ usedNodes place (before ++ block :: rest) ∧
        node.address ≠ (nodeOf place.head.toNat before block).address} := by
  have released := nodeOf_mem place.head.toNat before ⟨block.size, true⟩ rest
  have others : ∀ node, node.address ≠ (nodeOf place.head.toNat before block).address →
      (node ∈ nodes 32 place.head.toNat (before ++ ⟨block.size, true⟩ :: rest) ↔
        node ∈ nodes 32 place.head.toNat (before ++ block :: rest)) := by
    intro node different
    have apart : node ≠ nodeOf place.head.toNat before block := fun same => different (same ▸ rfl)
    have beside : node ≠ nodeOf place.head.toNat before ⟨block.size, true⟩ :=
      fun same => different (same ▸ rfl)
    rw [nodes_split, nodes_split, List.mem_append, List.mem_append, List.mem_cons, List.mem_cons,
      or_iff_right apart, or_iff_right beside]
  ext node
  constructor
  · rintro ⟨member, used⟩
    have different := freed.address_ne released rfl member used
    exact ⟨⟨(others node different).mp member, used⟩, different⟩
  · rintro ⟨⟨member, used⟩, different⟩
    exact ⟨(others node different).mpr member, used⟩

/-- Freeing the table leaves the other used blocks. -/
theorem Tabled.freed (tabled : Tabled place origin state table bytes blocks)
    (frees : threadSafeFree state table = some after) :
    usedBlocks place after.memory =
      {node | node ∈ usedNodes place blocks ∧ node.address ≠ table - sizeofBlock} := by
  have behind := tabled.table_toNat
  rcases tabled.own with ⟨own, listed, address, _⟩
  rcases Heap.mem_nodes listed with ⟨before, block, rest, rfl, rfl⟩
  have payload : table.toNat = place.head.toNat + span 32 before + 32 := by
    rw [behind.1, ← address]
    exact congrArg (· + 32) (Heap.address_toNat tabled.heap.bound)
  have freed := (free_returns tabled.heap payload frees).1
  rw [freed.usedBlocks_eq, usedNodes_freed freed, ← address]
  rfl

/-! ## The three arrays -/

/-- The arrays of a table are allocated, and when one of them is missing, the other used
blocks are those there were before. -/
def ArraysUnchanged (place : Placement) (state : State) (table : BitVec 64) (length : BitVec 32)
    (blocks : List Block) : Prop :=
  ∀ after, Completes (createArrays place table length state) (after, 0#64) →
    usedBlocks place after.memory =
      {node | node ∈ usedNodes place blocks ∧ node.address ≠ table - sizeofBlock}

/-- What the allocation of the arrays leaves. -/
structure ArraysAllocated (place : Placement) (origin : Memory) (state : State)
    (table : BitVec 64) (length : BitVec 32) (blocks : List Block) (final : State)
    (kept : List Block) : Prop where
  tabled : Tabled place origin final table (arrayBytes length) kept
  list : nodes 32 place.head.toNat kept =
    requested (arrayBytes length) (requested (arrayBytes length)
      (requested (arrayBytes length) (nodes 32 place.head.toNat blocks)))
  first : pageNumArr final.memory table =
    answer state.memory (arrayBytes length) (nodes 32 place.head.toNat blocks)
  complete : (pageNumArr final.memory table ≠ 0#64 ∧ frameNumArr final.memory table ≠ 0#64 ∧
      entryAgeArr final.memory table ≠ 0#64) ↔
    AllAnswered origin (arrayBytes length)
      (candidates (arrayBytes length) (nodes 32 place.head.toNat blocks))
  exits : saveDirty final (table - sizeofBlock) = none ↔
    saveDirty state (table - sizeofBlock) = none
  creates : ∀ result, Completes (createArrays place table length state) result ↔
    fillTable final table length = some result

/-- An array that takes a block beside that of the table lies beside the table. -/
theorem Tabled.clearsBeside (tabled : Tabled place origin state table (arrayBytes length) blocks)
    (found : first ∈ candidates (arrayBytes length) (nodes 32 place.head.toNat blocks))
    (other : first.address ≠ table - sizeofBlock) :
    ClearsBeside (first.address + sizeofBlock) table length := by
  rcases List.mem_filter.mp found with ⟨onList, served⟩
  have inside := tabled.heap.node_inside onList
  have apart := (tabled.apart onList).resolve_left fun own => other own.1
  have behind := tabled.table_toNat
  have room := arrayBytes_le length
  have fits := place.fits
  have enough := (serves_iff.mp served).2
  rw [BitVec.le_def] at enough
  rw [ClearsBeside, BitVec.toNat_add, sizeofBlock_toNat]
  omega

/-- With its three arrays a table is not missing, when the first one was not placed over the
pointers of the table by a split. -/
theorem ArraysAllocated.notNull
    (tabled : Tabled place origin state table (arrayBytes length) blocks)
    (arrays : ArraysAllocated place origin state table length blocks final kept)
    (answered : AllAnswered origin (arrayBytes length)
      (candidates (arrayBytes length) (nodes 32 place.head.toNat blocks)))
    (beside : ∀ first ∈
      (candidates (arrayBytes length) (nodes 32 place.head.toNat blocks)).head?,
        Whole (arrayBytes length) first ∨ ClearsBeside (data origin first.address) table length) :
    ∀ after, fillTable final table length ≠ some (after, 0#64) := by
  rcases arrays.complete.mpr answered with ⟨notNull, frames, ages⟩
  have behind := tabled.table_toNat
  refine fillTable_notNull (payload_ne_null behind.1) notNull frames ages ?_
  have leads := arrays.first
  rw [answer] at leads
  cases found : candidates (arrayBytes length) (nodes 32 place.head.toNat blocks) with
  | nil => rw [found] at answered; exact absurd answered id
  | cons first others =>
      have candidate : first ∈ candidates (arrayBytes length) (nodes 32 place.head.toNat blocks) :=
        found ▸ List.mem_cons_self
      rcases mem_of_found found with ⟨onList, served⟩
      rcases serves_iff.mp served with ⟨unused, enough⟩
      rw [found] at leads beside
      dsimp only at leads
      have kept : ClearsBeside (pageNumArr final.memory table) table length →
          OthersKept table final.memory (clearedTable final.memory table length) :=
        fun clears i lower upper => clearedTable_beside rfl clears i (by omega) upper
      by_cases whole : Whole (arrayBytes length) first
      · rw [if_pos whole] at leads
        by_cases own : first.address = table - sizeofBlock
        · have same : pageNumArr final.memory table = table := by
            rw [leads, own, BitVec.sub_add_cancel]
          have inside := tabled.heap.node_inside onList
          have fits := place.fits
          have room := arrayBytes_le length
          have region : pageSize.toNat = 16777216 := rfl
          rw [BitVec.le_def] at enough
          rw [own] at inside
          exact clearedTable_overwritten same (by omega)
        · exact Or.inr (kept (leads ▸ tabled.clearsBeside candidate own))
      · rw [if_neg whole] at leads
        have set := tabled.unused first onList unused (tabled.not_own candidate whole)
        rw [data_congr fun i lower upper => set i lower (by omega)] at leads
        exact Or.inr (kept (leads ▸ (beside first rfl).resolve_left whole))

/-! ## The table is freed -/

/-- A free exits where saving the block does. -/
theorem threadSafeFree_eq_none_iff (notNull : table ≠ 0#64) :
    threadSafeFree state table = none ↔ saveDirty state (table - sizeofBlock) = none := by
  rw [threadSafeFree, if_neg notNull, Option.map_eq_none_iff]

/-- The arrays are in no block that was free before exactly when no other block than that of
the table could serve them. -/
theorem ArraysAllocated.sameUsed_iff
    (tabled : Tabled place origin state table (arrayBytes length) blocks)
    (arrays : ArraysAllocated place origin state table length blocks final kept) :
    {node | node ∈ usedNodes place kept ∧ node.address ≠ table - sizeofBlock} =
        {node | node ∈ usedNodes place blocks ∧ node.address ≠ table - sizeofBlock} ↔
      ∀ node ∈ candidates (arrayBytes length) (nodes 32 place.head.toNat blocks),
        node.address = table - sizeofBlock := by
  have reserved : ∀ node ∈ candidates (arrayBytes length) (nodes 32 place.head.toNat blocks),
      node.address = table - sizeofBlock → Whole (arrayBytes length) node := by
    intro node member own
    by_contra larger
    exact tabled.not_own member larger own
  constructor
  · intro same node member
    by_contra different
    have distinct := (Heap.nodes_increasing (by omega) tabled.heap.bound).imp
      (S := fun left right : Node => left.address ≠ right.address)
      fun less same => absurd (same ▸ less) (Nat.lt_irrefl _)
    rcases exists_taken tabled.heap.node_small (distinct.filter _) reserved
      ⟨node, member, different⟩ with ⟨taken, listed, used, apart, first, served, address⟩
    rw [← arrays.list] at listed
    have leaked : taken ∈ {node | node ∈ usedNodes place blocks ∧
        node.address ≠ table - sizeofBlock} := same ▸ ⟨⟨listed, used⟩, apart⟩
    rcases List.mem_filter.mp served with ⟨onList, serving⟩
    exact tabled.heap.address_ne onList (serves_iff.mp serving).1 leaked.1.1 used address.symm
  · intro own
    have onlyOwn : OnlyOwn (arrayBytes length) (table - sizeofBlock)
        (nodes 32 place.head.toNat blocks) :=
      fun node member => ⟨own node member, reserved node member (own node member)⟩
    rcases onlyOwn.requested with ⟨second, one⟩
    rcases second.requested with ⟨third, two⟩
    ext node
    refine and_congr_left fun different => and_congr_left fun used => ?_
    rw [arrays.list]
    constructor
    · intro listed
      exact one node (two node (third.requested.2 node listed used different) used different)
        used different
    · exact fun listed => used_requested used (used_requested used (used_requested used listed))

/-- When an array is missing, the used blocks are as before exactly when the table cannot be
freed, or no other block could serve the arrays. -/
theorem ArraysAllocated.missing
    (tabled : Tabled place origin state table (arrayBytes length) blocks)
    (arrays : ArraysAllocated place origin state table length blocks final kept)
    (unanswered : ¬ AllAnswered origin (arrayBytes length)
      (candidates (arrayBytes length) (nodes 32 place.head.toNat blocks))) :
    ArraysUnchanged place state table length blocks ↔
      saveDirty state (table - sizeofBlock) = none ∨
        ∀ node ∈ candidates (arrayBytes length) (nodes 32 place.head.toNat blocks),
          node.address = table - sizeofBlock := by
  have notNull : table ≠ 0#64 := payload_ne_null tabled.table_toNat.1
  have missing : pageNumArr final.memory table = 0#64 ∨ frameNumArr final.memory table = 0#64 ∨
      entryAgeArr final.memory table = 0#64 := by
    have some := mt arrays.complete.mp unanswered
    simpa only [Classical.not_and_iff_not_or_not, Classical.not_not, ne_eq] using some
  have only : ∀ result, Completes (createArrays place table length state) result ↔
      (threadSafeFree final table).map (·, 0#64) = some result := by
    intro result
    rw [arrays.creates, fillTable_missing missing]
  rw [← arrays.exits, ← threadSafeFree_eq_none_iff notNull, ← arrays.sameUsed_iff tabled]
  cases frees : threadSafeFree final table with
  | none =>
      refine iff_of_true ?_ (Or.inl rfl)
      intro after returned
      rw [only, frees] at returned
      cases returned
  | some after =>
      rw [or_iff_right (Option.some_ne_none after), ← arrays.tabled.freed frees]
      constructor
      · exact fun always => always after ((only _).mpr (by rw [frees]; rfl))
      · intro same result returned
        rw [only, frees] at returned
        cases returned
        exact same

end ComputerSystems.ThreadSafeHeap

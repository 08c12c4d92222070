import ComputerSystems.LockedHeap.Splitting

/-!
# Requests that no block serves

The search of `pm_malloc_lock` in `PracticumI/malloc.c` ends at the last block, not behind
it, so the heap never grows: a request that no block serves gets NULL or the bytes of the
last block, whether this one is free or not.
-/

namespace ComputerSystems.LockedHeap.PracticumI

open ComputerSystems.Allocation
open ComputerSystems.Heap
open ComputerSystems.Loop

/-- None of some bytes belongs to a block or its header. -/
def Apart (node : Node) (address bytes : Nat) : Prop :=
  ∀ i, address ≤ i → i < address + bytes →
    i < node.address.toNat ∨ node.address.toNat + 24 + node.size.toNat ≤ i

/-- The heap has grown: the blocks that were on the list are still there, behind them are
blocks in other memory, and the pointer is one to bytes that touch no earlier block. -/
def Grown (freeList : BitVec 64) (memory : Memory) (noOfBytes : BitVec 64) (after : Memory)
    (res : BitVec 64) : Prop :=
  ∃ earlier kept added, Walk memory freeList earlier ∧ Walk after freeList (kept ++ added) ∧
    kept.map Node.address = earlier.map Node.address ∧ added ≠ [] ∧
    (∀ node ∈ earlier, ∀ new ∈ added, Apart node new.address.toNat (24 + new.size.toNat)) ∧
    res ≠ 0#64 ∧ ∀ node ∈ earlier, Apart node res.toNat noOfBytes.toNat

/-- An initialised list of which no block serves a request. -/
structure Full (freeList : BitVec 64) (memory : Memory) (noOfBytes : BitVec 64)
    (blocks : List Block) : Prop where
  list : BlockList freeList memory blocks
  initialised : size memory freeList ≠ 0#64
  unfit : ∀ block ∈ blocks, ¬ Fits noOfBytes.toNat block

variable {freeList noOfBytes current : BitVec 64} {memory after : Memory}
  {blocks before : List Block} {block : Block}

theorem Full.prepare (full : Full freeList memory noOfBytes blocks)
    (surroundings : Surroundings) : prepare surroundings freeList memory = some memory :=
  if_neg full.initialised

/-- The search stops at the last block. -/
theorem Full.stopsAt (full : Full freeList memory noOfBytes blocks) :
    ∃ before block, blocks = before ++ [block] ∧ StopsAt noOfBytes.toNat before block [] := by
  rcases exists_stopsAt noOfBytes.toNat full.list.inhabited with ⟨before, block, rest, rfl, stops⟩
  cases rest with
  | nil => exact ⟨before, block, rfl, stops⟩
  | cons second rest =>
      have member : block ∈ before ++ block :: second :: rest :=
        List.mem_append_right _ List.mem_cons_self
      exact absurd (stops.fits (List.cons_ne_nil _ _)) (full.unfit block member)

/-! ## What the program walks -/

theorem BlockList.walk (list : BlockList freeList memory blocks) :
    Walk memory freeList (layout freeList.toNat blocks) :=
  list.holds.walk list.inhabited list.notNull list.bound

/-- The last node of a list. -/
theorem layout_snoc (start : Nat) (before : List Block) (block : Block) :
    layout start (before ++ [block]) = layout start before ++
      [⟨BitVec.ofNat 64 (start + span 24 before), BitVec.ofNat 64 block.size, block.free⟩] := by
  rw [layout_append]
  rfl

theorem length_layout (start : Nat) (blocks : List Block) :
    (layout start blocks).length = blocks.length := by
  have lengths := congrArg List.length (@layout_flags start blocks)
  rwa [flags, List.length_map, List.length_map] at lengths

/-- The last node of a list stands behind all others. -/
theorem layout_drop_snoc (start : Nat) (before : List Block) (block : Block) :
    (layout start (before ++ [block])).drop before.length =
      [⟨BitVec.ofNat 64 (start + span 24 before), BitVec.ofNat 64 block.size, block.free⟩] := by
  rw [layout_snoc, ← length_layout start before, List.drop_left]

/-- The nodes behind the earlier ones are the blocks by which a heap has grown. -/
theorem Grown.added {res : BitVec 64} {later : List Node}
    (grown : Grown freeList memory noOfBytes after res)
    (list : BlockList freeList memory blocks) (walk : Walk after freeList later) :
    later.drop blocks.length ≠ [] ∧
      ∀ node ∈ layout freeList.toNat blocks, ∀ new ∈ later.drop blocks.length,
        Apart node new.address.toNat (24 + new.size.toNat) := by
  rcases grown with ⟨earlier, kept, added, before, behind, same, more, apart, _, _⟩
  obtain rfl := before.unique list.walk
  obtain rfl := walk.unique behind
  have lengths := congrArg List.length same
  rw [List.length_map, List.length_map, length_layout] at lengths
  rw [← lengths, List.drop_left]
  exact ⟨more, apart⟩

/-- The pointer of a heap that has grown. -/
theorem Grown.pointer {res : BitVec 64} (grown : Grown freeList memory noOfBytes after res)
    (list : BlockList freeList memory blocks) :
    res ≠ 0#64 ∧ ∀ node ∈ layout freeList.toNat blocks, Apart node res.toNat noOfBytes.toNat := by
  rcases grown with ⟨earlier, kept, added, before, _, _, _, _, notNull, apart⟩
  obtain rfl := before.unique list.walk
  exact ⟨notNull, apart⟩

/-! ## The last block -/

section Last

variable (list : BlockList freeList memory (before ++ [block]))
  (address : current.toNat = freeList.toNat + span 24 before)
include list address

/-- Its payload is not apart from it. -/
theorem not_apart_last (bytes : Nat) (large : 0 < block.size) (positive : 0 < bytes) :
    ¬ ∀ node ∈ layout freeList.toNat (before ++ [block]),
      Apart node (current.toNat + 24) bytes := by
  intro apart
  have bound := list.bound
  have start := address_toNat bound
  rw [span_append, span, span] at bound
  have member := List.mem_append_right (layout freeList.toNat before) (List.mem_singleton_self
    (Node.mk (BitVec.ofNat 64 (freeList.toNat + span 24 before)) (BitVec.ofNat 64 block.size)
      block.free))
  rw [← layout_snoc] at member
  have payload := apart _ member (current.toNat + 24) (Nat.le_refl _) (by omega)
  rw [start, BitVec.toNat_ofNat, Nat.mod_eq_of_lt (by omega)] at payload
  omega

theorem payload_toNat (large : 0 < block.size) :
    (current + sizeofBlock).toNat = current.toNat + 24 := by
  have bound := list.bound
  rw [span_append, span, span] at bound
  rw [BitVec.toNat_add, sizeofBlock_toNat]
  omega

/-- Marking it used leaves as many blocks as there were. -/
theorem setFree_last :
    BlockList freeList (setFree memory current 0#32) (before ++ [⟨block.size, false⟩]) where
  holds := by
    refine list.holds.replace (List.cons_ne_nil _ _) (List.cons_ne_nil _ _) ?_ ?_
    · intro i lower upper
      exact setFree_outside (Or.inl (by omega))
    · have header := list.holds.drop.1
      rw [← address] at header ⊢
      exact ⟨setFree_header header (by decide), trivial⟩
  inhabited := List.append_ne_nil_of_right_ne_nil _ (List.cons_ne_nil _ _)
  notNull := list.notNull
  bound := by
    have bound := list.bound
    rw [span_append, span] at bound ⊢
    exact bound

/-- Splitting it puts a block on the list that takes its own bytes. -/
theorem not_grown_frag {res : BitVec 64} (room : noOfBytes.toNat + 24 < block.size)
    (none : noOfBytes.toNat = 0) :
    ¬ Grown freeList memory noOfBytes (frag memory current noOfBytes) res := by
  intro grown
  have split := list.frag address room
  have parts : before ++ splitOff 24 noOfBytes.toNat block [] =
      (before ++ [⟨noOfBytes.toNat, false⟩]) ++ [⟨block.size - noOfBytes.toNat - 24, true⟩] := by
    rw [List.append_assoc]
    rfl
  have lengths : (before ++ [block]).length =
      (before ++ [Block.mk noOfBytes.toNat false]).length := by
    rw [List.length_append, List.length_append]
    rfl
  have start : freeList.toNat + span 24 (before ++ [⟨noOfBytes.toNat, false⟩]) =
      current.toNat + 24 := by
    rw [span_append, span, span, none, address]
    dsimp only
    omega
  rw [parts] at split
  have tail := address_toNat split.bound
  have added := (grown.added list split.walk).2
  rw [lengths, layout_drop_snoc, start] at added
  rw [start] at tail
  have inside : ∀ node ∈ layout freeList.toNat (before ++ [block]),
      Apart node (current.toNat + 24)
        (24 + (BitVec.ofNat 64 (block.size - noOfBytes.toNat - 24)).toNat) := by
    intro node member
    have apart := added node member _ List.mem_cons_self
    rwa [tail] at apart
  exact not_apart_last list address _ (by omega) (Nat.add_pos_left (by decide) _) inside

/-- What `pm_malloc_lock` does with the last block does not let the heap grow. -/
theorem not_grown_place :
    ¬ Grown freeList memory noOfBytes (place memory noOfBytes current).1
      (place memory noOfBytes current).2 := by
  intro grown
  have sizes := list.size_at address
  rcases grown.pointer list with ⟨notNull, apart⟩
  by_cases whole : size memory current = noOfBytes
  · rw [place, if_pos whole] at grown apart
    dsimp only at grown apart
    rcases Nat.eq_zero_or_pos block.size with empty | large
    · have none : noOfBytes.toNat = 0 := by
        rw [← whole, sizes, empty]
      rw [none, List.replicate_zero] at grown
      refine (grown.added list (setFree_last list address).walk).1 (List.drop_eq_nil_of_le ?_)
      rw [length_layout, List.length_append, List.length_append]
      exact Nat.le_refl _
    · rw [payload_toNat list address large] at apart
      refine not_apart_last list address _ large ?_ apart
      rw [← whole, sizes]
      exact large
  · rw [place, if_neg whole] at grown apart notNull
    by_cases larger : noOfBytes + sizeofBlock < size memory current
    · rw [if_pos larger] at grown apart
      dsimp only at grown apart
      rw [BitVec.lt_def, sizes] at larger
      have large : 0 < block.size := by omega
      rcases Nat.eq_zero_or_pos noOfBytes.toNat with none | positive
      · have room : noOfBytes.toNat + 24 < block.size := by
          rw [BitVec.toNat_add, none, sizeofBlock_toNat] at larger
          omega
        exact not_grown_frag list address room none grown
      · rw [payload_toNat list address large] at apart
        exact not_apart_last list address _ large positive apart
    · rw [if_neg larger] at notNull
      exact notNull rfl

end Last

/-- A call that no block serves does not let the heap grow. -/
theorem Full.not_grown {surroundings : Surroundings} {mmap : BitVec 64 → Option (BitVec 64)}
    {res : BitVec 64} (full : Full freeList memory noOfBytes blocks)
    (returns : Completes (pmMallocLock surroundings mmap freeList memory noOfBytes) (after, res)) :
    ¬ Grown freeList memory noOfBytes after res := by
  rcases full.stopsAt with ⟨before, block, rfl, stops⟩
  have placed := (pmMallocLock_completes mmap (full.prepare surroundings) full.list stops).2
  have same := (pmMallocLock_stable _ _ _ _ _).unique returns placed
  have never := @not_grown_place _ noOfBytes _ _ _ _ full.list (address_toNat full.list.bound)
  rw [← same] at never
  exact never

/-- Whatever `mmap` answers, a call that no block serves returns without a grown heap. -/
theorem pmMallocLock_never_grows (surroundings : Surroundings)
    (mmap : BitVec 64 → Option (BitVec 64)) (full : Full freeList memory noOfBytes blocks) :
    ∃ after res, Completes (pmMallocLock surroundings mmap freeList memory noOfBytes)
        (after, res) ∧ ¬ Grown freeList memory noOfBytes after res := by
  rcases full.stopsAt with ⟨before, block, split, stops⟩
  have list := full.list
  rw [split] at list
  have returns := (pmMallocLock_completes mmap (full.prepare surroundings) list stops).2
  generalize place memory noOfBytes _ = result at returns
  exact ⟨result.1, result.2, returns, full.not_grown returns⟩

/-- The request of the second test, for twice the bytes of all pages. -/
theorem sampleMemory_full : Full 4096#64 sampleMemory 131072#64 [⟨4072, true⟩] where
  list := sampleMemory_list
  initialised := by
    intro empty
    have sizes := size_toNat.trans sampleMemory_list.holds.1.size
    rw [empty] at sizes
    exact absurd sizes (by decide)
  unfit := by decide

theorem pmMallocLock_never_grows_second_test :
    ∃ after res, Completes (pmMallocLock ⟨true, 0#64⟩ (fun _ => some 65536#64) 4096#64
        sampleMemory 131072#64) (after, res) ∧
      ¬ Grown 4096#64 sampleMemory 131072#64 after res :=
  pmMallocLock_never_grows _ _ sampleMemory_full

/-- The heap does not grow by the request of the second test, although `mmap` would have
memory for it. -/
theorem not_grown_second_test :
    ¬ ∀ (surroundings : Surroundings) (mmap : BitVec 64 → Option (BitVec 64))
      (freeList : BitVec 64) (memory : Memory) (noOfBytes : BitVec 64) (blocks : List Block),
      (∀ bytes, (mmap bytes).isSome) → Full freeList memory noOfBytes blocks →
      ∃ after res, Completes (pmMallocLock surroundings mmap freeList memory noOfBytes)
        (after, res) ∧ Grown freeList memory noOfBytes after res := by
  intro always
  rcases always ⟨true, 0#64⟩ (fun _ => some 65536#64) _ _ _ _ (fun _ => rfl) sampleMemory_full with
    ⟨after, res, returns, grown⟩
  exact sampleMemory_full.not_grown returns grown

end ComputerSystems.LockedHeap.PracticumI

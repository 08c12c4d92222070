import ComputerSystems.Heap.Payloads
import ComputerSystems.ThreadSafeHeap.Tiling

/-!
# Live allocations are used blocks

`thread_safe_malloc` returns what the `data` field of a block holds. Only a block that
is taken whole has the field set and is marked used. As long as a block is split only
while the field is NULL, every live allocation is the payload of a used block of its
own, and nothing that a client may do to one allocation touches another one.
-/

namespace ComputerSystems.ThreadSafeHeap

open ComputerSystems.Allocation
open ComputerSystems.Heap (size free Node Walk nodes)

/-- A pointer that has not been freed. -/
def Live (live : List Allocation) (ptr : BitVec 64) : Prop :=
  ∃ allocation ∈ live, allocation.ptr = ptr

/-- The calls of a client: any request, calls for live pointers with a buffer of the
size that is named, and assignments to live payloads. -/
def Client (_state : State) (live : List Allocation) : Call → Prop
  | .malloc _ => True
  | .free ptr => ptr = 0#64 ∨ Live live ptr
  | .put ptr bytes noOfBytes => Live live ptr ∧ bytes.length = noOfBytes.toNat
  | .get ptr _ => Live live ptr
  | .assign address _ => ∃ allocation ∈ live, address ∈ allocation.payload

/-- A request splits a block only while the `data` field of this block is NULL. -/
def SplitsUnset (place : Placement) (memory : Memory) (bytes : BitVec 64) : Prop :=
  ∀ node, FirstFit place memory bytes node → bytes + sizeofBlock < node.size →
    data memory node.address = 0#64

/-- The calls of a client whose requests split no block but one whose `data` field is
NULL. -/
def Unreused (place : Placement) (state : State) (live : List Allocation) (call : Call) : Prop :=
  Client state live call ∧ ∀ bytes, call = .malloc bytes → SplitsUnset place state.memory bytes

/-- The live allocations are payloads of used blocks, each of another one, and the
`data` fields of these blocks lead to them. -/
structure Accounted (place : Placement) (memory : Memory) (blocks : List Block)
    (live : List Allocation) : Prop where
  distinct : live.Pairwise fun first second => first.ptr ≠ second.ptr
  used : ∀ allocation ∈ live, ∃ size,
    (allocation.ptr.toNat, size) ∈ payloads 32 place.head.toNat blocks ∧
      allocation.noOfBytes.toNat ≤ size
  data : ∀ allocation ∈ live, data memory (allocation.ptr - sizeofBlock) = allocation.ptr

/-- The bytes of an allocation and of the header in front of it are the same. -/
def Untouched (memory other : Memory) (allocation : Allocation) : Prop :=
  ∀ i, allocation.ptr.toNat ≤ i + 32 → i < allocation.ptr.toNat + allocation.noOfBytes.toNat →
    other i = memory i

variable {place : Placement} {memory other : Memory} {state after : State}
  {blocks before rest : List Block} {block : Block} {live : List Allocation}
  {allocation : Allocation} {bytes ptr : BitVec 64}

/-! ## Used blocks -/

/-- The address of the header in front of a payload. -/
theorem header_toNat {address : Nat} (behind : ptr.toNat = address + 32) :
    (ptr - sizeofBlock).toNat = address := by
  rw [BitVec.toNat_sub, sizeofBlock_toNat]
  omega

/-- What the program reads from the header of a used block. -/
theorem HeapHolds.used_fields (heap : HeapHolds place memory blocks) {bytes : Nat}
    (member : (ptr.toNat, bytes) ∈ payloads 32 place.head.toNat blocks) :
    size memory (ptr - sizeofBlock) = BitVec.ofNat 64 bytes ∧
      free memory (ptr - sizeofBlock) = 0#32 := by
  rcases mem_payloads member with ⟨before, block, rest, rfl, used, same⟩
  rcases Prod.mk.inj same with ⟨behind, rfl⟩
  have header := heap.listed.drop.1
  have address := header_toNat behind
  rw [← address] at header
  constructor
  · rw [size, header.size]
  · rw [Heap.free_eq_zero_iff]
    by_contra marked
    rw [header.free.mp marked] at used
    cases used

theorem Accounted.address (accounted : Accounted place memory blocks live)
    (member : allocation ∈ live) : place.head.toNat + 32 ≤ allocation.ptr.toNat := by
  rcases accounted.used allocation member with ⟨_, listed, _⟩
  exact (payloads_inside listed).1

/-- Nothing is live. -/
theorem accounted_nil : Accounted place memory blocks [] where
  distinct := List.Pairwise.nil
  used _ member := absurd member List.not_mem_nil
  data _ member := absurd member List.not_mem_nil

/-- Where the data of the allocations is noted does not matter. -/
theorem Accounted.map (accounted : Accounted place memory blocks live)
    {note : Allocation → Allocation} (kept : ∀ allocation,
      (note allocation).toAllocation = allocation.toAllocation) :
    Accounted place memory blocks (live.map note) where
  distinct := by
    rw [List.pairwise_map]
    exact accounted.distinct.imp fun different => by rwa [kept, kept]
  used := by
    intro allocation member
    rcases List.mem_map.mp member with ⟨earlier, listed, rfl⟩
    rw [kept]
    exact accounted.used earlier listed
  data := by
    intro allocation member
    rcases List.mem_map.mp member with ⟨earlier, listed, rfl⟩
    rw [kept]
    exact accounted.data earlier listed

/-! ## Changes to one block -/

theorem Untouched.data (untouched : Untouched memory other allocation)
    (behind : 32 ≤ allocation.ptr.toNat) :
    data other (allocation.ptr - sizeofBlock) = data memory (allocation.ptr - sizeofBlock) := by
  have address : (allocation.ptr - sizeofBlock).toNat = allocation.ptr.toNat - 32 :=
    header_toNat (Nat.sub_add_cancel behind).symm
  apply data_congr
  intro i lower upper
  exact untouched i (by omega) (by omega)

/-- A change to a block leaves the allocations alone whose block is another one. -/
theorem Accounted.untouched (heap : HeapHolds place memory (before ++ block :: rest))
    (accounted : Accounted place memory (before ++ block :: rest) live)
    (same : ∀ i, place.head.toNat ≤ i → i < place.head.toNat + pageSize.toNat →
      i < place.head.toNat + span 32 before ∨
        place.head.toNat + span 32 before + 32 + block.size ≤ i → other i = memory i)
    (member : allocation ∈ live)
    (apart : block.free = true ∨
      allocation.ptr.toNat ≠ place.head.toNat + span 32 before + 32) :
    Untouched memory other allocation := by
  rcases accounted.used allocation member with ⟨bytes, listed, enough⟩
  have whole := heap.whole
  rw [span_append, span] at whole
  intro i lower upper
  rcases payloads_beside listed apart with front | behind
  · have inside := payloads_inside front
    exact same i (by omega) (by omega) (by omega)
  · have inside := payloads_inside behind
    exact same i (by omega) (by omega) (by omega)

/-- A block is replaced by others that take the same room; the allocations that stay
live are those of other blocks. -/
theorem Accounted.replace {fewer : List Allocation} (parts : List Block)
    (accounted : Accounted place memory (before ++ block :: rest) live)
    (sublist : fewer.Sublist live) (room : span 32 parts = 32 + block.size)
    (apart : ∀ allocation ∈ fewer, block.free = true ∨
      allocation.ptr.toNat ≠ place.head.toNat + span 32 before + 32)
    (untouched : ∀ allocation ∈ fewer, Untouched memory other allocation) :
    Accounted place other (before ++ (parts ++ rest)) fewer where
  distinct := accounted.distinct.sublist sublist
  used := by
    intro allocation member
    rcases accounted.used allocation (sublist.subset member) with ⟨bytes, listed, enough⟩
    exact ⟨bytes, mem_payloads_replace room (payloads_beside listed (apart allocation member)),
      enough⟩
  data := by
    intro allocation member
    have behind := accounted.address (sublist.subset member)
    rw [(untouched allocation member).data (by omega)]
    exact accounted.data allocation (sublist.subset member)

/-! ## Requests -/

/-- A request leaves the live allocations alone. -/
theorem MallocOutcome.untouched (heap : HeapHolds place state.memory blocks)
    (accounted : Accounted place state.memory blocks live)
    (outcome : MallocOutcome place state blocks bytes after ptr) (member : allocation ∈ live) :
    Untouched state.memory after.memory allocation := by
  cases outcome with
  | refused _ same _ =>
      intro i _ _
      rw [same]
  | split before block rest first _ _ _ same =>
      obtain rfl := first.split
      exact accounted.untouched heap same member (Or.inl first.fits.1)
  | taken before block rest first _ _ _ _ same =>
      obtain rfl := first.split
      apply accounted.untouched heap _ member (Or.inl first.fits.1)
      intro i lower upper outside
      exact same i lower upper (by omega)

/-- Taking a block whole adds its payload. -/
theorem Accounted.take (accounted : Accounted place memory (before ++ block :: rest) live)
    (first : Fits bytes.toNat block)
    (returned : ptr.toNat = place.head.toNat + span 32 before + 32)
    (leads : ThreadSafeHeap.data other
      (BitVec.ofNat 64 (place.head.toNat + span 32 before)) = ptr)
    (untouched : ∀ allocation ∈ live, Untouched memory other allocation) :
    Accounted place other (before ++ ⟨block.size, false⟩ :: rest)
      (⟨⟨ptr, bytes⟩, none⟩ :: live) := by
  have kept := accounted.replace [⟨block.size, false⟩] (List.Sublist.refl live) rfl
    (fun _ _ => Or.inl first.1) untouched
  constructor
  · refine List.Pairwise.cons ?_ kept.distinct
    intro allocation member same
    rcases accounted.used allocation member with ⟨size, earlier, _⟩
    rcases payloads_beside earlier (Or.inl first.1) with front | behind
    · have inside := payloads_inside front
      rw [← same] at inside
      dsimp only at inside
      omega
    · have inside := payloads_inside behind
      rw [← same] at inside
      dsimp only at inside
      omega
  · refine List.forall_mem_cons.mpr ⟨⟨block.size, ?_, first.2⟩, kept.used⟩
    rw [returned]
    exact payload_mem_payloads _ _ _ rfl
  · refine List.forall_mem_cons.mpr ⟨?_, kept.data⟩
    have address : ptr - sizeofBlock = BitVec.ofNat 64 (place.head.toNat + span 32 before) := by
      rw [← header_toNat returned, BitVec.ofNat_toNat, BitVec.setWidth_eq]
    dsimp only
    rw [address, leads]

/-- Splitting a free block adds nothing. -/
theorem Accounted.split (accounted : Accounted place memory (before ++ block :: rest) live)
    (first : Fits bytes.toNat block) (larger : bytes.toNat + 32 < block.size)
    (untouched : ∀ allocation ∈ live, Untouched memory other allocation) :
    Accounted place other
      (before ++ ⟨bytes.toNat, true⟩ :: ⟨block.size - 32 - bytes.toNat, true⟩ :: rest) live := by
  apply accounted.replace [⟨bytes.toNat, true⟩, ⟨block.size - 32 - bytes.toNat, true⟩]
    (List.Sublist.refl live) _ (fun _ _ => Or.inl first.1) untouched
  simp only [span]
  omega

/-- A block that is split while its `data` field is NULL gives NULL. -/
theorem SplitsUnset.null (unset : SplitsUnset place memory bytes)
    (heap : HeapHolds place memory blocks)
    (first : FitsFirst bytes.toNat blocks before block rest)
    (larger : bytes.toNat + 32 < block.size) :
    ThreadSafeHeap.data memory (BitVec.ofNat 64 (place.head.toNat + span 32 before)) = 0#64 := by
  have stops := heap.firstFit_iff.mpr ⟨before, block, rest, first, rfl⟩
  obtain rfl := first.split
  have inside := heap.block_inside
  have fits := place.fits
  apply unset _ stops
  rw [BitVec.lt_def, BitVec.toNat_add, BitVec.toNat_ofNat, sizeofBlock_toNat]
  omega

/-- A request that splits no block but one whose `data` field is NULL. -/
theorem Accounted.malloc (heap : HeapHolds place state.memory blocks)
    (accounted : Accounted place state.memory blocks live)
    (unset : SplitsUnset place state.memory bytes)
    (outcome : MallocOutcome place state blocks bytes after ptr) :
    ∃ blocks, HeapHolds place after.memory blocks ∧
      Accounted place after.memory blocks (allocated live bytes ptr) := by
  have untouched := fun allocation (member : allocation ∈ live) =>
    outcome.untouched heap accounted member
  cases outcome with
  | refused _ same null =>
      rw [same, null, allocated, if_pos rfl]
      exact ⟨blocks, heap, accounted⟩
  | split before block rest first larger returned placed _ =>
      have null := returned.trans (unset.null heap first larger)
      obtain rfl := first.split
      rw [null, allocated, if_pos rfl]
      exact ⟨_, placed, accounted.split first.fits larger untouched⟩
  | taken before block rest first _ returned placed leads _ =>
      obtain rfl := first.split
      rw [allocated, if_neg (payload_ne_null returned)]
      exact ⟨_, placed, accounted.take first.fits returned leads untouched⟩

/-! ## Frees -/

/-- A live pointer is that of a used block, and freeing it marks this block. -/
theorem Accounted.free (heap : HeapHolds place state.memory blocks)
    (accounted : Accounted place state.memory blocks live) (known : Live live ptr)
    (returns : threadSafeFree state ptr = some after) :
    (∃ blocks, HeapHolds place after.memory blocks ∧
        Accounted place after.memory blocks (released live ptr)) ∧
      ∀ allocation ∈ released live ptr, Untouched state.memory after.memory allocation := by
  rcases known with ⟨freed, member, rfl⟩
  rcases accounted.used freed member with ⟨bytes, listed, _⟩
  rcases mem_payloads listed with ⟨before, block, rest, rfl, used, same⟩
  rcases Prod.mk.inj same with ⟨payload, rfl⟩
  rcases free_returns heap payload returns with ⟨marked, unchanged⟩
  have apart : ∀ allocation ∈ released live freed.ptr, block.free = true ∨
      allocation.ptr.toNat ≠ place.head.toNat + span 32 before + 32 := by
    intro allocation remains
    right
    rw [← payload]
    intro shared
    exact of_decide_eq_true (List.mem_filter.mp remains).2 (BitVec.eq_of_toNat_eq shared)
  have untouched : ∀ allocation ∈ released live freed.ptr,
      Untouched state.memory after.memory allocation := by
    intro allocation remains
    apply accounted.untouched heap _ (List.mem_filter.mp remains).1 (apart allocation remains)
    intro i lower upper outside
    exact unchanged i (by omega)
  exact ⟨⟨_, marked,
      accounted.replace [⟨block.size, true⟩] List.filter_sublist rfl apart untouched⟩,
    untouched⟩

/-- Freeing NULL releases nothing. -/
theorem Accounted.free_null (accounted : Accounted place memory blocks live) :
    released live 0#64 = live := by
  apply List.filter_eq_self.mpr
  intro allocation member
  apply decide_eq_true
  intro null
  have behind := accounted.address member
  rw [null] at behind
  exact absurd behind (Nat.not_succ_le_zero _)

/-! ## Changes to a payload -/

/-- A payload overlaps no header. -/
theorem payload_outside {range : Nat × Nat}
    (member : range ∈ payloads 32 place.head.toNat blocks) {address i : Nat}
    (listed : address ∈ headers 32 place.head.toNat blocks) (lower : address ≤ i)
    (upper : i < address + 32) : i < range.1 ∨ range.1 + range.2 ≤ i := by
  have outside := payloads_headers member listed
  omega

/-- Writing to a payload leaves the block list as it was. -/
theorem HeapHolds.congr_payload (heap : HeapHolds place memory blocks) {range : Nat × Nat}
    (member : range ∈ payloads 32 place.head.toNat blocks)
    (same : ∀ i, i < range.1 ∨ range.1 + range.2 ≤ i → other i = memory i) :
    HeapHolds place other blocks := by
  apply heap.congr
  intro address listed i lower upper
  exact same i (payload_outside member listed lower (by omega))

/-- Writing to a payload leaves the allocations alone that have another pointer. -/
theorem Accounted.untouched_payload (accounted : Accounted place memory blocks live)
    {range : Nat × Nat} (listed : range ∈ payloads 32 place.head.toNat blocks)
    (same : ∀ i, i < range.1 ∨ range.1 + range.2 ≤ i → other i = memory i)
    (member : allocation ∈ live) (different : allocation.ptr.toNat ≠ range.1) :
    Untouched memory other allocation := by
  rcases accounted.used allocation member with ⟨bytes, own, enough⟩
  have apart := payloads_apart own listed different
  dsimp only at apart
  intro i lower upper
  exact same i (by omega)

/-- Writing to a payload keeps the account. -/
theorem Accounted.congr_payload (accounted : Accounted place memory blocks live)
    {range : Nat × Nat} (listed : range ∈ payloads 32 place.head.toNat blocks)
    (same : ∀ i, i < range.1 ∨ range.1 + range.2 ≤ i → other i = memory i) :
    Accounted place other blocks live where
  distinct := accounted.distinct
  used := accounted.used
  data := by
    intro allocation member
    have behind := accounted.address member
    rcases accounted.used allocation member with ⟨bytes, own, enough⟩
    have address := header_toNat (Nat.sub_add_cancel (show 32 ≤ allocation.ptr.toNat by omega)).symm
    refine Eq.trans (data_congr ?_) (accounted.data allocation member)
    intro i lower upper
    apply same
    by_cases shared : allocation.ptr.toNat = range.1
    · omega
    · have apart := payloads_apart own listed shared
      dsimp only at apart
      omega

/-! ## Storing and retrieving -/

/-- `pm_put` with a live pointer writes to the payload of its block. -/
theorem pmPut_outside (heap : HeapHolds place state.memory blocks)
    (accounted : Accounted place state.memory blocks live) (member : allocation ∈ live)
    {range : Nat} (listed : (allocation.ptr.toNat, range) ∈ payloads 32 place.head.toNat blocks)
    (written : List (BitVec 8)) (bytes : BitVec 64) (i : Nat)
    (outside : i < allocation.ptr.toNat ∨ allocation.ptr.toNat + range ≤ i) :
    (pmPut state allocation.ptr written bytes).memory i = state.memory i := by
  unfold pmPut
  dsimp only
  split
  · rfl
  · rename_i same
    have inside := payloads_inside listed
    have whole := heap.whole
    have fits := place.fits
    have sizes := (heap.used_fields listed).1
    rw [Classical.not_not, sizes] at same
    have amount : bytes.toNat = range := by
      rw [← same, BitVec.toNat_ofNat]
      exact Nat.mod_eq_of_lt (by omega)
    have short := List.length_take_le bytes.toNat written
    rw [accounted.data allocation member]
    apply Memory.copy_of_outside
    omega

/-- `pm_get` with a live pointer changes nothing. -/
theorem pmGet_live (heap : HeapHolds place state.memory blocks)
    (accounted : Accounted place state.memory blocks live) (member : allocation ∈ live) :
    pmGet state allocation.ptr bytes =
      some (state, if size state.memory (allocation.ptr - sizeofBlock) ≠ bytes then none
        else some (state.memory.bytes allocation.ptr.toNat bytes.toNat)) := by
  rcases accounted.used allocation member with ⟨range, listed, _⟩
  have unmarked : loadFree state (allocation.ptr - sizeofBlock) = some state := by
    rw [loadFree, if_neg]
    exact fun marked => marked (heap.used_fields listed).2
  unfold pmGet
  dsimp only
  split
  · rfl
  · rw [unmarked, Option.map_some, accounted.data allocation member]

/-- An assignment to the payload of an allocation. -/
theorem assign_outside {address range : Nat} (inside : address ∈ allocation.payload)
    (enough : allocation.noOfBytes.toNat ≤ range) (memory : Memory) (byte : BitVec 8) (i : Nat)
    (outside : i < allocation.ptr.toNat ∨ allocation.ptr.toNat + range ≤ i) :
    Function.update memory address byte i = memory i := by
  rcases inside with ⟨lower, upper⟩
  apply Function.update_of_ne
  omega

end ComputerSystems.ThreadSafeHeap

import ComputerSystems.Heap.Tiling
import Mathlib.Order.CompletePartialOrder
import Mathlib.Order.Interval.Set.Disjoint

/-!
# Live payloads stay apart

As long as every request is served from a free block, the live allocations are
the payloads of the used blocks. `pm_malloc` does not see to it: its search also
ends at the last block when that is used, and only its size is looked at then; and
a first block of size 0 has the whole array set up anew.
-/

namespace ComputerSystems.Heap

open ComputerSystems.Allocation
open ComputerSystems.Loop

/-- The bytes `[p, p + n)` of an allocation. -/
def Allocation.payload (allocation : Allocation) : Set Nat :=
  Set.Ico allocation.ptr.toNat (allocation.ptr.toNat + allocation.noOfBytes.toNat)

/-- The bytes of a block header. -/
def Node.header (node : Node) : Set Nat :=
  Set.Ico node.address.toNat (node.address.toNat + sizeofBlock.toNat)

/-- The payloads of the live allocations are pairwise disjoint, lie inside `mem`
and overlap no header on the list. -/
structure PayloadsApart (place : Placement) (memory : Memory) (live : List Allocation) : Prop where
  disjoint : live.Pairwise fun first second => Disjoint first.payload second.payload
  inside : ∀ allocation ∈ live, place.mem.toNat ≤ allocation.ptr.toNat ∧
    allocation.ptr.toNat + allocation.noOfBytes.toNat ≤ place.mem.toNat + her.toNat
  headers : ∃ nodes, Walk memory place.mem nodes ∧
    ∀ allocation ∈ live, ∀ node ∈ nodes, Disjoint allocation.payload node.header

/-- Requests for at most `HER` bytes, and frees of live pointers. -/
def WithinHeap (_memory : Memory) (live : List Allocation) : Call → Prop
  | .malloc noOfBytes => noOfBytes ≤ her
  | .free ptr => ∃ allocation ∈ live, allocation.ptr = ptr

/-- A request does no harm: the array is set up only while nothing is live, and
otherwise a free block is large enough, or the last block is free, or it is neither
of the requested size nor large enough to be split. -/
def Servable (place : Placement) (memory : Memory) (live : List Allocation)
    (noOfBytes : BitVec 64) : Prop :=
  (size memory place.mem = 0#64 → live = []) ∧
    (size memory place.mem ≠ 0#64 → ∃ nodes, Walk memory place.mem nodes ∧
      ((∃ node ∈ nodes, node.free = true ∧ noOfBytes ≤ node.size) ∨
        ∀ node, nodes.getLast? = some node →
          node.free = true ∨ node.size ≠ noOfBytes ∧ node.size ≤ noOfBytes + sizeofBlock))

/-- The calls within the heap whose requests are servable. -/
def Served (place : Placement) (memory : Memory) (live : List Allocation) (call : Call) : Prop :=
  WithinHeap memory live call ∧ ∀ noOfBytes, call = .malloc noOfBytes →
    Servable place memory live noOfBytes

/-- Address and size of an allocation. -/
def Allocation.extent (allocation : Allocation) : Nat × Nat :=
  (allocation.ptr.toNat, allocation.noOfBytes.toNat)

/-- The live allocations are the payloads of the used blocks. -/
def Accounted (place : Placement) (blocks : List Block) (live : List Allocation) : Prop :=
  (live.map Allocation.extent).Perm (payloads 24 place.mem.toNat blocks)

variable {place : Placement} {memory after : Memory} {blocks : List Block}
  {live : List Allocation} {noOfBytes ptr : BitVec 64}

/-! ## Accounted allocations are apart -/

theorem Accounted.apart (accounted : Accounted place blocks live)
    (heap : HeapHolds place memory blocks) : PayloadsApart place memory live where
  disjoint := by
    have ordered : (payloads 24 place.mem.toNat blocks).Pairwise fun left right =>
        left.1 + left.2 ≤ right.1 ∨ right.1 + right.2 ≤ left.1 :=
      (payloads_pairwise _ _).imp fun before => Or.inl (by omega)
    have permuted := (accounted.pairwise_iff fun either => either.symm).mpr ordered
    refine (List.pairwise_map.mp permuted).imp fun {first second} either => ?_
    rw [Allocation.payload, Allocation.payload, Set.Ico_disjoint_Ico]
    simp only [Allocation.extent] at either
    omega
  inside := by
    intro allocation member
    have inside := payloads_inside (accounted.subset (List.mem_map_of_mem member))
    have extent := heap.span_le
    simp only [Allocation.extent] at inside
    omega
  headers := by
    refine ⟨_, heap.walk, ?_⟩
    intro allocation member node nodeMember
    rw [layout_eq] at nodeMember
    have outside := payloads_headers (accounted.subset (List.mem_map_of_mem member))
      (nodes_header heap.bound nodeMember)
    rw [Allocation.payload, Node.header, Set.Ico_disjoint_Ico,
      sizeofBlock_toNat]
    simp only [Allocation.extent] at outside
    omega

/-! ## Calls -/

/-- A request for at most `HER` bytes does not wrap around with its header. -/
theorem request_room (small : noOfBytes ≤ her) : noOfBytes.toNat + sizeofBlock.toNat < 2 ^ 64 :=
  Nat.lt_of_le_of_lt (Nat.add_le_add_right (BitVec.le_def.mp small) _) (by decide)

/-- Setting up the array loses no live allocation. -/
theorem accounted_ready (heap : HeapHolds place memory blocks)
    (known : Accounted place blocks live ∨ size memory place.mem = 0#64 ∧ live = [])
    (servable : Servable place memory live noOfBytes) : Accounted place (ready blocks) live := by
  by_cases unset : size memory place.mem = 0#64
  · rw [servable.1 unset, ready, if_pos (heap.size_mem.mp unset)]
    exact List.Perm.nil
  · rw [ready, if_neg fun zero => unset (heap.size_mem.mpr zero)]
    exact known.resolve_right fun empty => unset empty.1

/-- A servable request is placed in a free block. -/
theorem Servable.free (servable : Servable place memory live noOfBytes)
    (heap : HeapHolds place memory blocks) (small : noOfBytes ≤ her)
    {before rest parts : List Block}
    {block : Block} (split : Heap.ready blocks = before ++ block :: rest)
    (stops : StopsAt noOfBytes.toNat before block rest)
    (fits : fit 24 noOfBytes.toNat block = some parts) : block.free = true := by
  by_cases unset : size memory place.mem = 0#64
  · rw [ready, if_pos (heap.size_mem.mp unset)] at split
    rcases List.singleton_eq_append_iff.mp split with ⟨rfl, same⟩ | ⟨_, same⟩
    · rw [(List.cons.inj same).1]
    · cases same
  · rw [ready, if_neg fun zero => unset (heap.size_mem.mpr zero)] at split
    subst split
    by_contra used
    have ended : rest = [] := by
      by_contra more
      exact used (stops.fits more).1
    subst ended
    rcases servable.2 unset with ⟨nodes, walk, fitting | last⟩
    · -- A free block that is large enough would have stopped the search.
      rcases fitting with ⟨node, member, nodeFree, enough⟩
      rw [walk.unique heap.walk] at member
      rcases mem_layout member with ⟨front, found, back, same, rfl⟩
      have large : noOfBytes.toNat ≤ found.size :=
        (BitVec.le_def.mp enough).trans (BitVec.toNat_ofNat _ _ ▸ Nat.mod_le _ _)
      have onList : found ∈ before ++ [block] := by
        rw [same]
        exact List.mem_append_right _ List.mem_cons_self
      rcases List.mem_append.mp onList with passed | here
      · exact stops.passed found passed ⟨nodeFree, large⟩
      · rw [List.mem_singleton.mp here] at nodeFree
        exact used nodeFree
    · have bound := heap.bound
      rw [span_append, span] at bound
      rw [walk.unique heap.walk, layout_append, layout] at last
      rcases last _ List.getLast?_concat with lastFree | ⟨different, short⟩
      · exact used lastFree
      · rw [BitVec.le_def, her_toNat] at small
        rw [BitVec.le_def, BitVec.toNat_add, BitVec.toNat_ofNat, sizeofBlock_toNat] at short
        rw [fit, if_neg, if_neg (by omega)] at fits
        · cases fits
        · intro exactly
          exact different (by rw [exactly, BitVec.ofNat_toNat, BitVec.setWidth_eq])

/-- A request served from a free block adds its payload. -/
theorem Accounted.malloc {before rest parts : List Block} {block : Block}
    (accounted : Accounted place (before ++ block :: rest) live) (unused : block.free = true)
    (fits : fit 24 noOfBytes.toNat block = some parts)
    (returned : ptr.toNat = place.mem.toNat + span 24 before + 24) :
    Accounted place (before ++ (parts ++ rest)) (⟨ptr, noOfBytes⟩ :: live) := by
  have added : Allocation.extent ⟨ptr, noOfBytes⟩ =
      (place.mem.toNat + span 24 before + 24, noOfBytes.toNat) := by
    rw [Allocation.extent, returned]
  have behind : place.mem.toNat + span 24 before + span 24 parts =
      place.mem.toNat + span 24 before + 24 + block.size := by
    rw [fit_span fits]
    omega
  unfold Accounted at accounted ⊢
  rw [payloads_append, payloads, if_pos unused] at accounted
  rw [payloads_append, payloads_append, fit_payloads fits, behind, List.map_cons, added]
  exact (accounted.cons _).trans List.perm_middle.symm

/-- A live pointer is that of a used block, and freeing it marks this block. -/
theorem Accounted.free (accounted : Accounted place blocks live)
    (known : ∃ allocation ∈ live, allocation.ptr = ptr) :
    ∃ before block rest, blocks = before ++ block :: rest ∧ block.free = false ∧
      ptr.toNat = place.mem.toNat + span 24 before + 24 ∧
      Accounted place (before ++ ⟨block.size, true⟩ :: rest) (released live ptr) := by
  rcases known with ⟨allocation, member, same⟩
  rcases List.exists_of_eraseP (p := fun other => decide (other.ptr = ptr)) member
    (decide_eq_true same) with ⟨freed, newer, older, _, found, rfl, erased⟩
  have freedPtr : freed.ptr = ptr := of_decide_eq_true found
  have listed : freed.extent ∈ payloads 24 place.mem.toNat blocks :=
    accounted.subset (List.mem_map_of_mem (List.mem_append_right _ List.mem_cons_self))
  rcases mem_payloads listed with ⟨before, block, rest, rfl, used, extent⟩
  have address : ptr.toNat = place.mem.toNat + span 24 before + 24 := by
    rw [← freedPtr]
    exact congrArg Prod.fst extent
  refine ⟨before, block, rest, rfl, used, address, ?_⟩
  unfold Accounted at accounted ⊢
  rw [payloads_append, payloads, if_neg (by rw [used]; exact Bool.false_ne_true), ← extent,
    List.map_append, List.map_cons] at accounted
  rw [released, erased, payloads_append, payloads, if_pos rfl, List.map_append]
  exact (List.perm_middle.symm.trans (accounted.trans List.perm_middle)).cons_inv

/-! ## Runs -/

/-- In every run of served calls the live allocations are the payloads of the used
blocks, or nothing was allocated yet. -/
theorem run_accounted {calls : List Call} (run : Run place (Served place) calls live memory) :
    ∃ blocks, HeapHolds place memory blocks ∧
      (Accounted place blocks live ∨ size memory place.mem = 0#64 ∧ live = []) := by
  induction run with
  | start zeroed =>
      have heap := zeroed_holds zeroed
      exact ⟨_, heap, Or.inr ⟨heap.size_mem.mpr rfl, rfl⟩⟩
  | @malloc _ _ _ _ _ ptr _ allowed returns ih =>
      rcases ih with ⟨blocks, heap, known⟩
      rcases allowed with ⟨small, servable⟩
      have servable := servable _ rfl
      have accounted := accounted_ready heap known servable
      cases malloc_returns heap (request_room small) returns with
      | placed before block rest parts split stops fits returned placed =>
          have unused := servable.free heap small split stops fits
          have notNull : ptr ≠ 0#64 := ne_null (by rw [sizeofBlock_toNat]; omega)
          rw [split] at accounted
          refine ⟨_, placed, Or.inl ?_⟩
          rw [allocated, if_neg notNull]
          exact accounted.malloc unused fits returned
      | refused _ _ _ _ _ _ null refused =>
          subst null
          exact ⟨_, refused, Or.inl accounted⟩
  | free _ allowed returns ih =>
      rcases ih with ⟨blocks, heap, accounted | ⟨_, rfl⟩⟩
      · rcases accounted.free allowed.1 with ⟨before, block, rest, rfl, _, payload, accounted⟩
        rcases free_returns heap payload returns with ⟨merged, pass, mergedHeap⟩
        refine ⟨merged, mergedHeap, Or.inl ?_⟩
        rw [Accounted, coalesce_payloads pass]
        exact accounted
      · rcases allowed.1 with ⟨_, member, _⟩
        exact absurd member List.not_mem_nil

/-- In every run of served calls the payloads of the live allocations stay apart. -/
theorem run_payloadsApart {calls : List Call}
    (run : Run place (Served place) calls live memory) : PayloadsApart place memory live := by
  rcases run_accounted run with ⟨blocks, heap, accounted | ⟨_, rfl⟩⟩
  · exact accounted.apart heap
  · exact {
      disjoint := List.Pairwise.nil
      inside := fun _ member => absurd member List.not_mem_nil
      headers := ⟨_, heap.walk, fun _ member => absurd member List.not_mem_nil⟩ }

/-- In every run of served calls a live pointer is that of a used block on the
list. -/
theorem run_live_usedOnList {calls : List Call}
    (run : Run place (Served place) calls live memory)
    (known : ∃ allocation ∈ live, allocation.ptr = ptr) : UsedOnList place memory ptr := by
  rcases run_accounted run with ⟨blocks, heap, accounted | ⟨_, rfl⟩⟩
  · rcases accounted.free known with ⟨before, block, rest, split, used, payload, _⟩
    exact heap.usedOnList_iff.mpr ⟨before, block, rest, split, used, payload⟩
  · rcases known with ⟨_, member, _⟩
    exact absurd member List.not_mem_nil

/-- Served calls keep to the block list. -/
theorem run_proper_of_served {calls : List Call}
    (run : Run place (Served place) calls live memory) :
    Run place (Proper place) calls live memory := by
  induction run with
  | start zeroed => exact Run.start zeroed
  | malloc _ allowed returns ih => exact Run.malloc ih (request_room allowed.1) returns
  | free earlier allowed returns ih =>
      exact Run.free ih (run_live_usedOnList earlier allowed.1) returns

/-! ## Two requests on the zeroed array -/

/-- The first request, for 400 bytes. -/
theorem first_request :
    ∃ after ptr, Completes (pmMalloc samplePlacement zeroMemory 400#64) (after, ptr) ∧
      ptr.toNat = samplePlacement.mem.toNat + 24 ∧
      HeapHolds samplePlacement after [⟨400, false⟩, ⟨9999552, true⟩] := by
  have heap := zeroed_holds (zeroMemory_zeroed samplePlacement)
  exact (malloc_spec heap (by decide) rfl (stopsAt_singleton _ _)).1
    [⟨400, false⟩, ⟨9999552, true⟩] rfl

/-- A second request for 400 bytes. -/
theorem second_request (heap : HeapHolds samplePlacement memory [⟨400, false⟩, ⟨9999552, true⟩]) :
    ∃ after ptr, Completes (pmMalloc samplePlacement memory 400#64) (after, ptr) ∧
      ptr.toNat = samplePlacement.mem.toNat + 448 ∧
      HeapHolds samplePlacement after [⟨400, false⟩, ⟨400, false⟩, ⟨9999128, true⟩] := by
  have stops : StopsAt (400#64).toNat [⟨400, false⟩] ⟨9999552, true⟩ [] := by
    refine ⟨?_, fun more => absurd rfl more⟩
    intro other member
    obtain rfl := List.mem_singleton.mp member
    exact fun both => Bool.noConfusion both.1
  exact (malloc_spec heap (by decide) rfl stops).1 [⟨400, false⟩, ⟨9999128, true⟩] rfl

/-- The run of the two requests. -/
theorem two_requests (proper : Memory → List Allocation → Call → Prop)
    (unset : proper zeroMemory [] (.malloc 400#64))
    (behind : ∀ memory live, HeapHolds samplePlacement memory [⟨400, false⟩, ⟨9999552, true⟩] →
      proper memory live (.malloc 400#64)) :
    ∃ memory firstPtr secondPtr,
      Run samplePlacement proper [.malloc 400#64, .malloc 400#64]
        [⟨secondPtr, 400#64⟩, ⟨firstPtr, 400#64⟩] memory ∧
      firstPtr.toNat = samplePlacement.mem.toNat + 24 ∧
      secondPtr.toNat = samplePlacement.mem.toNat + 448 ∧
      HeapHolds samplePlacement memory [⟨400, false⟩, ⟨400, false⟩, ⟨9999128, true⟩] := by
  rcases first_request with ⟨first, firstPtr, firstDone, firstPayload, firstHeap⟩
  rcases second_request firstHeap with ⟨second, secondPtr, secondDone, secondPayload, heap⟩
  have run : Run samplePlacement proper [.malloc 400#64, .malloc 400#64]
      (allocated (allocated [] 400#64 firstPtr) 400#64 secondPtr) second :=
    .malloc (.malloc (.start (zeroMemory_zeroed _)) unset firstDone) (behind _ _ firstHeap)
      secondDone
  have firstNotNull : firstPtr ≠ 0#64 := ne_null (by rw [sizeofBlock_toNat]; omega)
  have secondNotNull : secondPtr ≠ 0#64 := ne_null (by rw [sizeofBlock_toNat]; omega)
  rw [allocated, if_neg secondNotNull, allocated, if_neg firstNotNull] at run
  exact ⟨second, firstPtr, secondPtr, run, firstPayload, secondPayload, heap⟩

/-- Freeing the first of the two blocks. -/
theorem first_free
    (heap : HeapHolds samplePlacement memory [⟨400, false⟩, ⟨400, false⟩, ⟨9999128, true⟩])
    (payload : ptr.toNat = samplePlacement.mem.toNat + 24) :
    ∃ after, Completes (pmFree samplePlacement memory ptr) after ∧
      HeapHolds samplePlacement after [⟨400, true⟩, ⟨400, false⟩, ⟨9999128, true⟩] :=
  (free_spec (show HeapHolds samplePlacement memory ([] ++ ⟨400, false⟩ :: _) from heap)
    payload).1 _ rfl

/-- Two requests, after which the first block is freed. -/
theorem first_freed :
    ∃ memory secondPtr,
      Run samplePlacement OnLive
        ([.malloc 400#64, .malloc 400#64] ++ [.free (samplePlacement.mem + sizeofBlock)])
        [⟨secondPtr, 400#64⟩] memory ∧
      secondPtr.toNat = samplePlacement.mem.toNat + 448 ∧
      HeapHolds samplePlacement memory [⟨400, true⟩, ⟨400, false⟩, ⟨9999128, true⟩] := by
  obtain ⟨second, firstPtr, secondPtr, requested, firstPayload, secondPayload, secondHeap⟩ :=
    two_requests OnLive trivial fun _ _ _ => trivial
  rcases first_free secondHeap firstPayload with ⟨third, thirdDone, heap⟩
  have distinct : secondPtr ≠ firstPtr := by
    rintro rfl
    exact absurd (firstPayload.symm.trans secondPayload) (by decide)
  have lastLive : released [⟨secondPtr, 400#64⟩, ⟨firstPtr, 400#64⟩] firstPtr =
      [⟨secondPtr, 400#64⟩] := by
    simp [released, distinct]
  have run := Run.free requested
    ⟨⟨firstPtr, 400#64⟩, List.mem_cons_of_mem _ List.mem_cons_self, rfl⟩ thirdDone
  have start : samplePlacement.mem + sizeofBlock = firstPtr :=
    BitVec.eq_of_toNat_eq (Eq.trans (by decide) firstPayload.symm)
  rw [lastLive] at run
  rw [start]
  exact ⟨third, secondPtr, run, secondPayload, heap⟩

/-- The payloads of two blocks of 400 bytes. -/
theorem run_payloadsApart_two_requests :
    ∃ first second memory,
      Run samplePlacement (Served samplePlacement) [.malloc 400#64, .malloc 400#64]
        [second, first] memory ∧
      PayloadsApart samplePlacement memory [second, first] := by
  have unset : Served samplePlacement zeroMemory [] (.malloc 400#64) := by
    refine ⟨show _ ≤ _ by decide, fun _ _ => ⟨fun _ => rfl, fun set => absurd ?_ set⟩⟩
    exact (zeroed_holds (zeroMemory_zeroed samplePlacement)).size_mem.mpr rfl
  have behind : ∀ memory live, HeapHolds samplePlacement memory [⟨400, false⟩, ⟨9999552, true⟩] →
      Served samplePlacement memory live (.malloc 400#64) := by
    rintro memory live heap
    refine ⟨show _ ≤ _ by decide, ?_⟩
    rintro _ ⟨⟩
    refine ⟨fun unset => absurd (heap.size_mem.mp unset) (by decide), fun _ => ?_⟩
    exact ⟨_, heap.walk, Or.inl ⟨_, List.mem_cons_of_mem _ List.mem_cons_self, rfl, by decide⟩⟩
  rcases two_requests (Served samplePlacement) unset behind with ⟨memory, _, _, run, _⟩
  exact ⟨_, _, memory, run, run_payloadsApart run⟩

/-- The first request, for the whole heap. -/
theorem whole_request :
    ∃ after ptr, Completes (pmMalloc samplePlacement zeroMemory 9999976#64) (after, ptr) ∧
      ptr.toNat = samplePlacement.mem.toNat + 24 ∧
      HeapHolds samplePlacement after [⟨9999976, false⟩] := by
  have heap := zeroed_holds (zeroMemory_zeroed samplePlacement)
  exact (malloc_spec heap (by decide) rfl (stopsAt_singleton _ _)).1 [⟨9999976, false⟩] rfl

/-- The whole heap can be requested twice, and both requests return the same
pointer. -/
theorem not_payloadsApart_after_two_whole_requests :
    ¬ ∀ (place : Placement) calls live memory, Run place WithinHeap calls live memory →
      PayloadsApart place memory live := by
  intro always
  rcases whole_request with ⟨first, firstPtr, firstDone, firstPayload, heap⟩
  have room : (9999976#64).toNat + 24 < 2 ^ 64 := by decide
  have again := (malloc_spec heap room rfl (stopsAt_singleton _ _)).1 [⟨9999976, false⟩] rfl
  rcases again with ⟨second, secondPtr, secondDone, secondPayload, _⟩
  have same : secondPtr = firstPtr :=
    BitVec.eq_of_toNat_eq (secondPayload.trans firstPayload.symm)
  subst same
  have notNull : secondPtr ≠ 0#64 := ne_null (by rw [sizeofBlock_toNat]; omega)
  have small : WithinHeap first (allocated [] 9999976#64 secondPtr) (.malloc 9999976#64) :=
    show _ ≤ _ by decide
  have apart := always samplePlacement _ _ second
    (.malloc (.malloc (.start (zeroMemory_zeroed samplePlacement)) (show _ ≤ _ by decide) firstDone)
      small secondDone)
  have disjoint := apart.disjoint
  rw [allocated, if_neg notNull, allocated, if_neg notNull] at disjoint
  have overlap := List.rel_of_pairwise_cons disjoint List.mem_cons_self
  have shared : secondPtr.toNat ∈ Allocation.payload ⟨secondPtr, 9999976#64⟩ :=
    ⟨Nat.le_refl _, Nat.lt_add_of_pos_right (show 0 < (9999976#64).toNat by decide)⟩
  exact Set.disjoint_left.mp overlap shared shared

end ComputerSystems.Heap

import ComputerSystems.ThreadSafeHeap.Payloads

/-!
# Reading back what was stored

`pm_put` and `pm_get` compare their size with that of the block, which may be larger
than what was asked for, and `pm_get` takes a block that is marked free from the page
file. As long as every block that a request takes has exactly the bytes asked for and
none is split that was used before, `pm_get` returns what the latest `pm_put` with the
same pointer has stored.
-/

namespace ComputerSystems.ThreadSafeHeap

open ComputerSystems.Allocation
open ComputerSystems.Heap (size free Node Walk nodes)
open ComputerSystems.Loop

/-- A request takes no block whole but one of exactly the bytes asked for. -/
def TakesExact (place : Placement) (memory : Memory) (bytes : BitVec 64) : Prop :=
  ∀ node, FirstFit place memory bytes node → node.size ≤ bytes + sizeofBlock → node.size = bytes

/-- The calls of a client whose requests split no block but one whose `data` field is
NULL, and take no block whole but one of exactly the bytes asked for. -/
def Matched (place : Placement) (state : State) (live : List Allocation) (call : Call) : Prop :=
  Unreused place state live call ∧
    ∀ bytes, call = .malloc bytes → TakesExact place state.memory bytes

/-- The block of an allocation has the size asked for, and its payload is what was
stored last. -/
structure ReadsBack (memory : Memory) (allocation : Allocation) : Prop where
  size : size memory (allocation.ptr - sizeofBlock) = allocation.noOfBytes
  latest : ∀ bytes, allocation.latest = some bytes →
    memory.bytes allocation.ptr.toNat allocation.noOfBytes.toNat = bytes

variable {place : Placement} {memory other : Memory} {state after : State}
  {blocks before rest : List Block} {block : Block} {live : List Allocation}
  {allocation : Allocation} {bytes ptr : BitVec 64}

/-- Runs of some calls are runs of more calls. -/
theorem Run.mono {proper weaker : State → List Allocation → Call → Prop}
    (run : Run place proper live state)
    (implied : ∀ state live call, proper state live call → weaker state live call) :
    Run place weaker live state := by
  induction run with
  | start fresh => exact .start fresh
  | malloc _ allowed returns ih => exact ih.malloc (implied _ _ _ allowed) returns
  | free _ allowed returns ih => exact ih.free (implied _ _ _ allowed) returns
  | put _ allowed ih => exact ih.put (implied _ _ _ allowed)
  | get _ allowed returns ih => exact ih.get (implied _ _ _ allowed) returns
  | assign _ allowed ih => exact ih.assign (implied _ _ _ allowed)

/-! ## What the calls keep -/

theorem size_congr {block : BitVec 64}
    (same : ∀ i, block.toNat ≤ i → i < block.toNat + 8 → other i = memory i) :
    size other block = size memory block := by
  rw [size, size, Memory.load_congr same]

theorem ReadsBack.untouched (reads : ReadsBack memory allocation)
    (behind : 32 ≤ allocation.ptr.toNat) (untouched : Untouched memory other allocation) :
    ReadsBack other allocation where
  size := by
    have address := header_toNat (Nat.sub_add_cancel behind).symm
    rw [← reads.size]
    apply size_congr
    intro i lower upper
    exact untouched i (by omega) (by omega)
  latest := by
    intro bytes stored
    rw [← reads.latest bytes stored]
    apply Memory.bytes_congr
    intro i lower upper
    exact untouched i (by omega) (by omega)

/-- A block that is taken whole has the bytes asked for. -/
theorem TakesExact.size (exact : TakesExact place memory bytes)
    (heap : HeapHolds place memory blocks) (first : FitsFirst bytes.toNat blocks before block rest)
    (fitting : block.size ≤ bytes.toNat + 32) : BitVec.ofNat 64 block.size = bytes := by
  have stops := heap.firstFit_iff.mpr ⟨before, block, rest, first, rfl⟩
  obtain rfl := first.split
  have inside := heap.block_inside
  have fits := place.fits
  have enough := first.fits.2
  apply exact _ stops
  rw [BitVec.le_def, BitVec.toNat_add, BitVec.toNat_ofNat, sizeofBlock_toNat]
  omega

theorem readsBack_malloc (heap : HeapHolds place state.memory blocks)
    (accounted : Accounted place state.memory blocks live)
    (all : ∀ allocation ∈ live, ReadsBack state.memory allocation)
    (unset : SplitsUnset place state.memory bytes) (exact : TakesExact place state.memory bytes)
    (outcome : MallocOutcome place state blocks bytes after ptr) :
    ∀ allocation ∈ allocated live bytes ptr, ReadsBack after.memory allocation := by
  have kept : ∀ allocation ∈ live, ReadsBack after.memory allocation := by
    intro allocation member
    have behind := accounted.address member
    exact (all allocation member).untouched (by omega) (outcome.untouched heap accounted member)
  cases outcome with
  | refused _ _ null =>
      rw [null, allocated, if_pos rfl]
      exact kept
  | split _ _ _ first larger returned _ _ =>
      rw [returned, unset.null heap first larger, allocated, if_pos rfl]
      exact kept
  | taken before block rest first fitting returned placed _ _ =>
      rw [allocated, if_neg (payload_ne_null returned)]
      refine List.forall_mem_cons.mpr ⟨⟨?_, ?_⟩, kept⟩
      · have header := placed.listed.drop.1
        have address := header_toNat returned
        rw [← address] at header
        have sizes : after.memory.load (ptr - sizeofBlock).toNat 8 = block.size := header.size
        dsimp only
        rw [Heap.size, sizes]
        exact exact.size heap first fitting
      · intro stored none
        cases none

theorem readsBack_free (heap : HeapHolds place state.memory blocks)
    (accounted : Accounted place state.memory blocks live)
    (all : ∀ allocation ∈ live, ReadsBack state.memory allocation) (known : Live live ptr)
    (returns : threadSafeFree state ptr = some after) :
    ∀ allocation ∈ released live ptr, ReadsBack after.memory allocation := by
  intro allocation remains
  have member := (List.mem_filter.mp remains).1
  have behind := accounted.address member
  have untouched := (accounted.free heap known returns).2 allocation remains
  exact (all allocation member).untouched (by omega) untouched

theorem pmPut_refused {written : List (BitVec 8)}
    (different : size state.memory (ptr - sizeofBlock) ≠ bytes) :
    pmPut state ptr written bytes = state := by
  rw [pmPut, if_pos different]

theorem pmPut_memory (accounted : Accounted place state.memory blocks live)
    (member : allocation ∈ live)
    (same : size state.memory (allocation.ptr - sizeofBlock) = bytes)
    {written : List (BitVec 8)} (full : written.length = bytes.toNat) :
    (pmPut state allocation.ptr written bytes).memory =
      state.memory.copy allocation.ptr.toNat written := by
  rw [pmPut, if_neg (Classical.not_not.mpr same), accounted.data allocation member,
    List.take_of_length_le (Nat.le_of_eq full)]

/-- What `pm_put` stores with the pointer of an allocation is read back. -/
theorem readsBack_stored (accounted : Accounted place state.memory blocks live)
    (member : allocation ∈ live) (reads : ReadsBack state.memory allocation)
    {written : List (BitVec 8)} (full : written.length = allocation.noOfBytes.toNat) :
    ReadsBack (pmPut state allocation.ptr written allocation.noOfBytes).memory
      { allocation with latest := some written } := by
  have behind := accounted.address member
  have address :=
    header_toNat (Nat.sub_add_cancel (Nat.le_trans (Nat.le_add_left 32 _) behind)).symm
  rw [pmPut_memory accounted member reads.size full]
  constructor
  · refine Eq.trans (size_congr ?_) reads.size
    intro i lower upper
    dsimp only at lower upper
    exact Memory.copy_of_outside (Or.inl (by omega))
  · rintro bytes ⟨⟩
    dsimp only
    rw [← full]
    exact Memory.bytes_copy_same _ _ _

/-- `pm_put` with a live pointer. -/
theorem readsBack_put (heap : HeapHolds place state.memory blocks)
    (accounted : Accounted place state.memory blocks live)
    (all : ∀ allocation ∈ live, ReadsBack state.memory allocation) (known : Live live ptr)
    {written : List (BitVec 8)} (full : written.length = bytes.toNat) :
    ∀ allocation ∈ stored live ptr written bytes,
      ReadsBack (pmPut state ptr written bytes).memory allocation := by
  rcases known with ⟨target, member, rfl⟩
  rcases accounted.used target member with ⟨range, listed, _⟩
  have same := pmPut_outside heap accounted member listed written bytes
  intro allocation noted
  rcases List.mem_map.mp noted with ⟨earlier, present, rfl⟩
  have reads := all earlier present
  have behind := accounted.address present
  by_cases shared : earlier.ptr = target.ptr
  · by_cases amount : earlier.noOfBytes = bytes
    · subst amount
      rw [if_pos ⟨shared, rfl⟩, ← shared]
      exact readsBack_stored accounted present reads full
    · have refused := reads.size
      rw [shared] at refused
      rw [if_neg fun both => amount both.2, pmPut_refused (by rwa [refused])]
      exact reads
  · rw [if_neg fun both => shared both.1]
    apply reads.untouched (by omega)
    apply accounted.untouched_payload listed same present
    intro address
    exact shared (BitVec.eq_of_toNat_eq address)

/-- An assignment to a live payload. -/
theorem readsBack_assign (accounted : Accounted place memory blocks live)
    (all : ∀ allocation ∈ live, ReadsBack memory allocation) {address : Nat} (byte : BitVec 8)
    (known : ∃ allocation ∈ live, address ∈ allocation.payload) :
    ∀ allocation ∈ assigned live address,
      ReadsBack (Function.update memory address byte) allocation := by
  rcases known with ⟨target, member, inside⟩
  rcases accounted.used target member with ⟨range, listed, enough⟩
  have same := assign_outside inside enough memory byte
  intro allocation noted
  rcases List.mem_map.mp noted with ⟨earlier, present, rfl⟩
  have reads := all earlier present
  have behind := accounted.address present
  by_cases own : earlier.ptr.toNat ≤ address ∧
      address < earlier.ptr.toNat + earlier.noOfBytes.toNat
  · have header :=
      header_toNat (Nat.sub_add_cancel (Nat.le_trans (Nat.le_add_left 32 _) behind)).symm
    rw [if_pos own]
    constructor
    · refine Eq.trans (size_congr ?_) reads.size
      intro i lower upper
      dsimp only at lower upper
      exact Function.update_of_ne (by omega) _ _
    · intro stored none
      cases none
  · rw [if_neg own]
    apply reads.untouched (by omega)
    by_cases shared : earlier.ptr.toNat = target.ptr.toNat
    · intro i lower upper
      have behindTarget : target.ptr.toNat ≤ address := inside.1
      exact Function.update_of_ne (by omega) _ _
    · exact accounted.untouched_payload listed same present shared

/-! ## Runs -/

/-- In every run of matched calls every allocation reads back what was stored. -/
theorem run_readsBack (run : Run place (Matched place) live state) :
    ∀ allocation ∈ live, ReadsBack state.memory allocation := by
  induction run with
  | start fresh => exact fun _ member => absurd member List.not_mem_nil
  | malloc earlier allowed returns ih =>
      rcases run_accounted (earlier.mono fun _ _ _ matched => matched.1) with
        ⟨blocks, heap, accounted⟩
      exact readsBack_malloc heap accounted ih (allowed.1.2 _ rfl) (allowed.2 _ rfl)
        (malloc_returns heap returns)
  | free earlier allowed returns ih =>
      rcases run_accounted (earlier.mono fun _ _ _ matched => matched.1) with
        ⟨blocks, heap, accounted⟩
      rcases allowed.1.1 with rfl | known
      · rw [threadSafeFree_null returns, accounted.free_null]
        exact ih
      · exact readsBack_free heap accounted ih known returns
  | put earlier allowed ih =>
      rcases run_accounted (earlier.mono fun _ _ _ matched => matched.1) with
        ⟨blocks, heap, accounted⟩
      exact readsBack_put heap accounted ih allowed.1.1.1 allowed.1.1.2
  | get earlier allowed returns ih =>
      rcases run_accounted (earlier.mono fun _ _ _ matched => matched.1) with
        ⟨blocks, heap, accounted⟩
      rcases allowed.1.1 with ⟨allocation, member, rfl⟩
      rw [pmGet_live heap accounted member] at returns
      rcases Prod.mk.inj (Option.some.inj returns) with ⟨rfl, _⟩
      exact ih
  | @assign _ _ _ byte earlier allowed ih =>
      rcases run_accounted (earlier.mono fun _ _ _ matched => matched.1) with
        ⟨blocks, heap, accounted⟩
      exact readsBack_assign accounted ih byte allowed.1.1

/-- In every run of matched calls `pm_get` copies out the bytes of the latest
`pm_put`. -/
theorem pmGet_latest (run : Run place (Matched place) live state) (member : allocation ∈ live)
    {written : List (BitVec 8)} (latest : allocation.latest = some written) :
    pmGet state allocation.ptr allocation.noOfBytes = some (state, some written) := by
  rcases run_accounted (run.mono fun _ _ _ matched => matched.1) with ⟨blocks, heap, accounted⟩
  have reads := run_readsBack run allocation member
  rw [pmGet_live heap accounted member, if_neg (Classical.not_not.mpr reads.size),
    reads.latest written latest]

/-! ## A second request -/

/-- The variable `data` of the first header is NULL at the start. -/
theorem sample_unset :
    data (initHeap samplePlacement sampleState).memory samplePlacement.head = 0#64 := by
  decide +kernel

/-- A first request for 100 bytes splits the region and returns NULL. -/
theorem first_request :
    ∃ after, Completes (threadSafeMalloc samplePlacement (initHeap samplePlacement sampleState)
        100#64) (after, 0#64) ∧
      HeapHolds samplePlacement after.memory [⟨100, true⟩, ⟨16777052, true⟩] := by
  rcases malloc_split sample_holds 100#64 (by decide) with ⟨after, completes, holds⟩
  rw [sample_unset] at completes
  exact ⟨after, completes, holds⟩

/-- Requests for at most as many bytes find the block in front. -/
theorem fitsFirst_front {request : Nat} (less : request ≤ 100)
    (first : FitsFirst request [⟨100, true⟩, ⟨16777052, true⟩] before block rest) :
    before = [] ∧ block = ⟨100, true⟩ := by
  cases before with
  | nil => exact ⟨rfl, (List.cons.inj first.split).1.symm⟩
  | cons passed before =>
      have unfit := first.passed passed List.mem_cons_self
      rw [← (List.cons.inj first.split).1] at unfit
      exact absurd ⟨rfl, less⟩ unfit

/-- A second request for almost as many bytes takes the block in front. -/
theorem second_request
    (heap : HeapHolds samplePlacement state.memory [⟨100, true⟩, ⟨16777052, true⟩])
    (bytes : BitVec 64) (less : bytes.toNat ≤ 100) (almost : 100 ≤ bytes.toNat + 32) :
    ∃ after ptr, Completes (threadSafeMalloc samplePlacement state bytes) (after, ptr) ∧
      ptr ≠ 0#64 ∧ size after.memory (ptr - sizeofBlock) = 100#64 := by
  rcases exists_malloc heap bytes with ⟨after, ptr, completes, outcome⟩
  refine ⟨after, ptr, completes, ?_⟩
  cases outcome with
  | refused none _ _ => exact absurd ⟨rfl, less⟩ (none _ List.mem_cons_self)
  | split _ _ _ first larger _ _ _ =>
      rcases fitsFirst_front less first with ⟨rfl, rfl⟩
      dsimp only at larger
      omega
  | taken _ _ _ first _ returned placed _ _ =>
      rcases fitsFirst_front less first with ⟨rfl, rfl⟩
      have header := placed.listed.drop.1
      rw [← header_toNat returned] at header
      have sizes : after.memory.load (ptr - sizeofBlock).toNat 8 = 100 := header.size
      exact ⟨payload_ne_null returned, by rw [size, sizes]⟩

/-- What is stored with the one live pointer is noted. -/
theorem stored_singleton (ptr bytes : BitVec 64) (written : List (BitVec 8)) :
    stored [⟨⟨ptr, bytes⟩, none⟩] ptr written bytes = [⟨⟨ptr, bytes⟩, some written⟩] := by
  rw [stored, List.map_singleton, if_pos ⟨rfl, rfl⟩]

theorem first_request_matched :
    Matched samplePlacement (initHeap samplePlacement sampleState) [] (.malloc 100#64) := by
  have first : ∀ node, FirstFit samplePlacement (initHeap samplePlacement sampleState).memory
      100#64 node → node = ⟨samplePlacement.head, 16777184#64, true⟩ := by
    intro node fits
    rcases sample_holds.firstFit_iff.mp fits with ⟨before, block, rest, found, rfl⟩
    rcases fitsFirst_singleton found with ⟨rfl, rfl, rfl⟩
    rfl
  refine ⟨⟨trivial, ?_⟩, ?_⟩
  · rintro bytes ⟨⟩ node fits _
    rw [first node fits, sample_unset]
  · rintro bytes ⟨⟩ node fits small
    rw [first node fits] at small
    exact absurd small (by decide)

theorem second_request_matched
    (heap : HeapHolds samplePlacement state.memory [⟨100, true⟩, ⟨16777052, true⟩]) :
    Matched samplePlacement state [] (.malloc 100#64) := by
  have first : ∀ node, FirstFit samplePlacement state.memory 100#64 node →
      node.size = 100#64 := by
    intro node fits
    rcases heap.firstFit_iff.mp fits with ⟨before, block, rest, found, rfl⟩
    rcases fitsFirst_front (by decide) found with ⟨rfl, rfl⟩
    rfl
  refine ⟨⟨trivial, ?_⟩, ?_⟩
  · rintro bytes ⟨⟩ node fits larger
    rw [first node fits] at larger
    exact absurd larger (by decide)
  · rintro bytes ⟨⟩ node fits _
    exact first node fits

/-- After two requests for 100 bytes what is stored is read back. -/
theorem pmGet_latest_second_request :
    ∃ live state ptr, Run samplePlacement (Matched samplePlacement) live state ∧
      pmGet state ptr 100#64 = some (state, some (List.replicate 100 7#8)) := by
  rcases first_request with ⟨first, firstDone, holds⟩
  rcases second_request holds 100#64 (by decide) (by decide) with
    ⟨second, ptr, secondDone, notNull, _⟩
  have start : Run samplePlacement (Matched samplePlacement) []
      (initHeap samplePlacement sampleState) := .start sampleState_fresh
  have run := (start.malloc first_request_matched firstDone).malloc
    (second_request_matched holds) secondDone
  rw [allocated, allocated, if_pos rfl, if_neg notNull] at run
  have known : Live [⟨⟨ptr, 100#64⟩, none⟩] ptr := ⟨_, List.mem_cons_self, rfl⟩
  have full : (List.replicate 100 7#8).length = (100#64).toNat := List.length_replicate
  have matched : Matched samplePlacement second [⟨⟨ptr, 100#64⟩, none⟩]
      (.put ptr (List.replicate 100 7#8) 100#64) :=
    ⟨⟨⟨known, full⟩, fun _ same => by cases same⟩, fun _ same => by cases same⟩
  have put := run.put matched
  rw [stored_singleton] at put
  exact ⟨_, _, ptr, put, pmGet_latest put List.mem_cons_self rfl⟩

/-- A request for 90 bytes may be served from a block of 100 bytes, which `pm_put` and
`pm_get` with 90 bytes refuse. -/
theorem pmGet_refused_second_request :
    ¬ ∀ (place : Placement) live state (allocation : Allocation) written,
      Run place Client live state → allocation ∈ live → allocation.latest = some written →
      ∃ after, pmGet state allocation.ptr allocation.noOfBytes = some (after, some written) := by
  intro always
  rcases first_request with ⟨first, firstDone, holds⟩
  rcases second_request holds 90#64 (by decide) (by decide) with
    ⟨second, ptr, secondDone, notNull, sizes⟩
  have start : Run samplePlacement Client [] (initHeap samplePlacement sampleState) :=
    .start sampleState_fresh
  have run := (start.malloc trivial firstDone).malloc trivial secondDone
  rw [allocated, allocated, if_pos rfl, if_neg notNull] at run
  have known : Live [⟨⟨ptr, 90#64⟩, none⟩] ptr := ⟨_, List.mem_cons_self, rfl⟩
  have full : (List.replicate 90 7#8).length = (90#64).toNat := List.length_replicate
  have proper : Client second [⟨⟨ptr, 90#64⟩, none⟩] (.put ptr (List.replicate 90 7#8) 90#64) :=
    ⟨known, full⟩
  have different : size second.memory (ptr - sizeofBlock) ≠ 90#64 := by
    rw [sizes]
    decide
  have put := run.put proper
  rw [stored_singleton, pmPut_refused different] at put
  rcases always samplePlacement _ second _ _ put List.mem_cons_self rfl with ⟨after, returned⟩
  have refused : pmGet second ptr 90#64 = some (second, none) := by
    rw [pmGet, if_pos different]
  have same := refused.symm.trans returned
  cases same

end ComputerSystems.ThreadSafeHeap

import ComputerSystems.ThreadSafeHeap.SwapOut

/-!
# What `pm_get` returns for a released block

No page is ever dirty, so that `thread_safe_free` saves nothing. A released block is read
behind what the page file holds from its start on: it is what was put there when the page
file exists and agrees with it.
-/

namespace ComputerSystems.ThreadSafeHeap

open ComputerSystems.Allocation
open ComputerSystems.Heap (size free setFree)
open ComputerSystems.Loop

variable {place : Placement} {memory other : Memory} {state after : State}
  {blocks before rest : List Block} {block : Block} {given : List Given} {entry : Given}
  {bytes ptr : BitVec 64} {written : List (BitVec 8)} {pagefile : Option File}

/-! ## Storing and releasing -/

/-- A change to the block of a pointer that leaves the list. -/
theorem Swaps.note {change : Given → Given} {flag : Bool}
    (swaps : Swaps place memory (before ++ block :: rest) given)
    (heap : HeapHolds place memory (before ++ block :: rest)) (member : entry ∈ given)
    (placed : entry.ptr.toNat = place.head.toNat + span 32 before + 32)
    (keeps : ∀ fellow, (change fellow).ptr = fellow.ptr)
    (same : ∀ i, i < place.head.toNat + span 32 before ∨
      place.head.toNat + span 32 before + 32 + block.size ≤ i → other i = memory i)
    (intact : ∀ fellow, Intact memory (place.head.toNat + span 32 before) block fellow →
      Intact other (place.head.toNat + span 32 before) ⟨block.size, flag⟩ (change fellow)) :
    Swaps place other (before ++ ([⟨block.size, flag⟩] ++ rest))
      (ThreadSafeHeap.note entry.ptr change given) := by
  have listed : (place.head.toNat + span 32 before, block) ∈
      cells 32 place.head.toNat (before ++ block :: rest) := cell_mem_cells _ before rest block
  apply swaps.replace heap rfl fun i _ _ outside => same i outside
  · intro fellow elsewhere
    have different : fellow.ptr ≠ entry.ptr := by
      intro equal
      rw [equal] at elsewhere
      exact elsewhere placed
    constructor
    · intro noted
      rcases List.mem_map.mp noted with ⟨earlier, known, rfl⟩
      by_cases equal : earlier.ptr = entry.ptr
      · rw [if_pos equal, keeps] at different
        exact absurd equal different
      · rwa [if_neg equal]
    · intro known
      exact List.mem_map.mpr ⟨fellow, known, if_neg different⟩
  · intro fellow noted here
    refine ⟨(place.head.toNat + span 32 before, ⟨block.size, flag⟩), List.mem_cons_self, ?_⟩
    rcases List.mem_map.mp noted with ⟨earlier, known, rfl⟩
    by_cases equal : earlier.ptr = entry.ptr
    · rw [if_pos equal]
      exact intact earlier (swaps.own known listed ((congrArg BitVec.toNat equal).trans placed))
    · rw [if_neg equal] at here
      exact absurd (BitVec.eq_of_toNat_eq (here.trans placed.symm)) equal
  · intro cell part
    rw [cells, cells, List.mem_singleton] at part
    subst part
    refine Or.inr ⟨change entry, List.mem_map.mpr ⟨entry, member, if_pos rfl⟩, ?_⟩
    rw [keeps]
    exact placed

/-- The block of an entry. -/
theorem Swaps.exists_block (swaps : Swaps place memory blocks given) (member : entry ∈ given) :
    ∃ before block rest, blocks = before ++ block :: rest ∧
      Intact memory (place.head.toNat + span 32 before) block entry := by
  rcases swaps.owned entry member with ⟨⟨address, block⟩, listed, intact⟩
  rcases mem_cells listed with ⟨before, rest, split, rfl⟩
  exact ⟨before, block, rest, split, intact⟩

/-- The size in the header of a block that was given. -/
theorem Swaps.size_eq (heap : HeapHolds place memory (before ++ block :: rest))
    (intact : Intact memory (place.head.toNat + span 32 before) block entry) :
    (size memory (entry.ptr - sizeofBlock)).toNat = block.size := by
  have header := heap.listed.drop.1
  rw [← intact.header] at header
  exact Heap.size_toNat.trans header.size

/-- A call of `pm_put` with as many bytes as the block has. -/
theorem Swaps.put (swaps : Swaps place state.memory blocks given)
    (heap : HeapHolds place state.memory blocks) (member : entry ∈ given)
    (live : entry.released = false)
    (exact : size state.memory (entry.ptr - sizeofBlock) = bytes)
    (full : written.length = bytes.toNat) :
    HeapHolds place (pmPut state entry.ptr written bytes).memory blocks ∧
      Swaps place (pmPut state entry.ptr written bytes).memory blocks
        (ThreadSafeHeap.note entry.ptr (Given.fill written) given) := by
  rcases swaps.exists_block member with ⟨before, ⟨size, flag⟩, rest, rfl, intact⟩
  have amount := Swaps.size_eq heap intact
  have behind := intact.ptr
  have header := intact.header
  obtain rfl : flag = false := intact.released.trans live
  rw [exact, ← full] at amount
  have stored : (pmPut state entry.ptr written bytes).memory =
      state.memory.copy entry.ptr.toNat written := by
    rw [pmPut, if_neg (Classical.not_not.mpr exact), intact.data, ← full, List.take_length]
  have same : ∀ i, i < entry.ptr.toNat ∨ entry.ptr.toNat + size ≤ i →
      (pmPut state entry.ptr written bytes).memory i = state.memory i := by
    intro i outside
    rw [stored]
    exact Memory.copy_of_outside (by dsimp only at amount; omega)
  have listed : (entry.ptr.toNat, size) ∈
      payloads 32 place.head.toNat (before ++ ⟨size, false⟩ :: rest) := by
    rw [behind]
    exact payload_mem_payloads _ before rest rfl
  have keeps : ∀ fellow, (Given.fill written fellow).ptr = fellow.ptr := fun _ => rfl
  refine ⟨heap.congr_payload listed same, ?_⟩
  apply swaps.note heap member behind keeps
  · intro i outside
    exact same i (by dsimp only at outside; omega)
  · intro fellow known
    have equal : fellow.ptr = entry.ptr := BitVec.eq_of_toNat_eq (known.ptr.trans behind.symm)
    have address := known.header
    have kept : data (pmPut state entry.ptr written bytes).memory (fellow.ptr - sizeofBlock) =
        data state.memory (fellow.ptr - sizeofBlock) :=
      data_congr fun i lower upper => same i (by omega)
    refine ⟨known.ptr, known.released, fun i lower upper => ?_, kept.trans known.data, ?_⟩
    · rw [same i (by omega)]
      exact known.number i lower upper
    · intro put latest
      obtain rfl := Option.some.inj latest
      rw [Given.fill, equal, stored, ← amount]
      exact Memory.bytes_copy_same _ _ _

/-- A block that was given is not saved when it is released. -/
theorem Intact.freed (clean : PagesClean state) {address : Nat}
    (intact : Intact state.memory address block entry)
    (returns : threadSafeFree state entry.ptr = some after) :
    after.pagefile = state.pagefile ∧
      after.memory = setFree state.memory (entry.ptr - sizeofBlock) 1#32 := by
  have notNull := payload_ne_null intact.ptr
  have number := intact.pageNum
  have saved : saveDirty state (entry.ptr - sizeofBlock) = some state :=
    saveDirty_inBounds clean (by rw [number]; decide) (by rw [number]; decide)
  refine ⟨?_, threadSafeFree_memory notNull returns⟩
  rw [threadSafeFree, if_neg notNull] at returns
  dsimp only at returns
  rw [saved, Option.map_some] at returns
  rw [← Option.some.inj returns]

/-- A call of `thread_safe_free` for a block that is not released. -/
theorem Swaps.free (swaps : Swaps place state.memory blocks given)
    (heap : HeapHolds place state.memory blocks) (clean : PagesClean state)
    (member : entry ∈ given) (returns : threadSafeFree state entry.ptr = some after) :
    after.pagefile = state.pagefile ∧ ∃ blocks, HeapHolds place after.memory blocks ∧
      Swaps place after.memory blocks (ThreadSafeHeap.note entry.ptr Given.release given) := by
  rcases swaps.exists_block member with ⟨before, block, rest, rfl, intact⟩
  have behind := intact.ptr
  have header := intact.header
  rcases intact.freed clean returns with ⟨file, memory⟩
  have same : ∀ i, i < place.head.toNat + span 32 before + 8 ∨
      place.head.toNat + span 32 before + 12 ≤ i → after.memory i = state.memory i := by
    intro i outside
    rw [memory, setFree, Memory.store_of_outside (by omega)]
  refine ⟨file, _, (free_returns heap behind returns).1, ?_⟩
  have keeps : ∀ fellow, (Given.release fellow).ptr = fellow.ptr := fun _ => rfl
  apply swaps.note heap member behind keeps fun i outside => same i (by omega)
  intro fellow known
  have address := known.header
  have start := known.ptr
  have kept : data after.memory (fellow.ptr - sizeofBlock) =
      data state.memory (fellow.ptr - sizeofBlock) :=
    data_congr fun i lower upper => same i (by omega)
  refine ⟨known.ptr, rfl, fun i lower upper => ?_, kept.trans known.data, fun put latest => ?_⟩
  · rw [same i (by omega)]
    exact known.number i lower upper
  · rw [← known.latest put latest]
    exact Memory.bytes_congr fun i lower upper => same i (by rw [keeps] at lower; omega)

/-! ## Reading -/

/-- A call of `pm_get` for a block that is not released changes nothing. -/
theorem Swaps.get_live (heap : HeapHolds place state.memory (before ++ block :: rest))
    (intact : Intact state.memory (place.head.toNat + span 32 before) block entry)
    (live : entry.released = false) {out : Option (List (BitVec 8))}
    (returns : pmGet state entry.ptr bytes = some (after, out)) : after = state := by
  have header := heap.listed.drop.1
  rw [← intact.header] at header
  have unmarked : Heap.free state.memory (entry.ptr - sizeofBlock) = 0#32 := by
    rw [Heap.free_eq_zero_iff]
    by_contra marked
    have free := header.free.mp marked
    rw [intact.released, live] at free
    cases free
  have unloaded : loadFree state (entry.ptr - sizeofBlock) = some state :=
    if_neg fun marked => marked unmarked
  unfold pmGet at returns
  dsimp only at returns
  split at returns
  · exact (Prod.mk.inj (Option.some.inj returns)).1.symm
  · rw [unloaded, Option.map_some] at returns
    exact (Prod.mk.inj (Option.some.inj returns)).1.symm

/-- What `pm_get` leaves and returns for a released block, with its size. -/
theorem Swaps.get_released (heap : HeapHolds place state.memory (before ++ block :: rest))
    (intact : Intact state.memory (place.head.toNat + span 32 before) block entry)
    (released : entry.released = true) (exact : bytes.toNat = block.size) :
    pmGet state entry.ptr bytes = state.pagefile.map fun file =>
      let loaded := state.memory.copy entry.ptr.toNat (file.read 0 pageSize.toNat)
      ({ state with memory := loaded }, some (loaded.bytes entry.ptr.toNat bytes.toNat)) := by
  have header := heap.listed.drop.1
  have behind := intact.ptr
  rw [← intact.header] at header
  have marked : Heap.free state.memory (entry.ptr - sizeofBlock) ≠ 0#32 := by
    rw [Ne, Heap.free_eq_zero_iff]
    exact header.free.mpr (intact.released.trans released)
  have sized : ¬ size state.memory (entry.ptr - sizeofBlock) ≠ bytes := by
    rw [Classical.not_not, ← BitVec.toNat_inj, Heap.size_toNat, header.size, exact]
  have zero : position state.memory (entry.ptr - sizeofBlock) = some 0 := by
    rw [position, intact.pageNum]
    rfl
  unfold pmGet loadFree
  dsimp only
  rw [if_neg sized, if_pos marked, zero, intact.data]
  cases state.pagefile with
  | none => rfl
  | some file =>
      have leads : data (state.memory.copy entry.ptr.toNat (file.read 0 pageSize.toNat))
          (entry.ptr - sizeofBlock) = entry.ptr := by
        refine Eq.trans (data_congr fun i lower upper => ?_) intact.data
        have address := intact.header
        exact Memory.copy_of_outside (Or.inl (by omega))
      simp only [Option.bind_some, Option.map_some, leads]

/-- A buffer that is overwritten from its start on stays as it was exactly when what is
written agrees with it. -/
theorem overwritten_eq_iff (data : List (BitVec 8)) :
    data.take written.length ++ written.drop data.length = written ↔
      data.take written.length <+: written := by
  have cut : written.drop (data.take written.length).length = written.drop data.length := by
    rw [List.length_take]
    by_cases short : data.length ≤ written.length
    · rw [Nat.min_eq_right short]
    · rw [Nat.min_eq_left (by omega), List.drop_length, List.drop_eq_nil_of_le (by omega)]
  rw [List.prefix_iff_eq_append, cut, eq_comm]

/-- The bytes put into a released block are read exactly when the page file exists and what it
holds from its start on agrees with them. -/
theorem Swaps.reads_iff (heap : HeapHolds place state.memory (before ++ block :: rest))
    (intact : Intact state.memory (place.head.toNat + span 32 before) block entry)
    (released : entry.released = true) (latest : entry.latest = some written) :
    (∃ after, pmGet state entry.ptr (BitVec.ofNat 64 written.length) =
      some (after, some written)) ↔
      ∃ file, state.pagefile = some file ∧ file.read 0 written.length <+: written := by
  have inside := heap.block_inside
  have fits := place.fits
  have held := intact.latest written latest
  have amount : written.length = block.size := by
    rw [← held, Memory.length_bytes]
  have exact : (BitVec.ofNat 64 written.length).toNat = block.size := by
    rw [BitVec.toNat_ofNat, amount]
    exact Nat.mod_eq_of_lt (by omega)
  have less : written.length ≤ pageSize.toNat := by omega
  rw [Swaps.get_released heap intact released exact]
  cases state.pagefile with
  | none =>
      constructor
      · rintro ⟨_, returned⟩
        cases returned
      · rintro ⟨_, missing, _⟩
        cases missing
  | some file =>
      have loaded : (state.memory.copy entry.ptr.toNat (file.read 0 pageSize.toNat)).bytes
          entry.ptr.toNat (BitVec.ofNat 64 written.length).toNat =
            (file.read 0 pageSize.toNat).take written.length ++
              written.drop (file.read 0 pageSize.toNat).length := by
        rw [exact, Memory.bytes_copy_front, held, amount]
      rw [Option.map_some]
      dsimp only
      rw [loaded]
      constructor
      · rintro ⟨_, returned⟩
        refine ⟨file, rfl, ?_⟩
        rw [← File.read_take less, ← overwritten_eq_iff]
        exact Option.some.inj (Prod.mk.inj (Option.some.inj returned)).2
      · rintro ⟨_, same, agrees⟩
        rw [← Option.some.inj same, ← File.read_take less, ← overwritten_eq_iff] at agrees
        exact ⟨_, by rw [agrees]⟩

/-! ## Runs -/

/-- The steps are calls of the heap. -/
theorem SwapRun.run (run : SwapRun place pagefile given state) :
    ∃ live, Run place (fun _ _ _ => True) live state := by
  induction run with
  | start fresh _ => exact ⟨_, .start fresh⟩
  | malloc _ returns _ ih =>
      rcases ih with ⟨live, run⟩
      exact ⟨_, run.malloc trivial returns⟩
  | put _ _ _ _ _ ih =>
      rcases ih with ⟨live, run⟩
      exact ⟨_, run.put trivial⟩
  | free _ _ _ returns ih =>
      rcases ih with ⟨live, run⟩
      exact ⟨_, run.free trivial returns⟩
  | get _ _ returns ih =>
      rcases ih with ⟨live, run⟩
      exact ⟨_, run.get trivial returns⟩

theorem SwapRun.pagesClean (run : SwapRun place pagefile given state) : PagesClean state := by
  rcases run.run with ⟨_, calls⟩
  exact run_pagesClean calls

theorem enterPage_pagefile (state : State) (result : BitVec 64) :
    (enterPage place state result bytes).pagefile = state.pagefile := by
  unfold enterPage
  dsimp only
  split
  · rfl
  · split <;> rfl

theorem malloc_pagefile
    (returns : Completes (threadSafeMalloc place state bytes) (after, ptr)) :
    after.pagefile = state.pagefile := by
  rcases malloc_cases returns with ⟨memory, rfl | rfl⟩
  · rfl
  · exact enterPage_pagefile { state with memory } ptr

theorem pmPut_pagefile (state : State) (ptr : BitVec 64) (written : List (BitVec 8))
    (bytes : BitVec 64) : (pmPut state ptr written bytes).pagefile = state.pagefile := by
  rcases pmPut_eq state ptr written bytes with ⟨memory, same⟩
  rw [same]

/-- With an empty page file `pm_get` changes nothing. -/
theorem Swaps.get_unchanged (swaps : Swaps place state.memory blocks given)
    (heap : HeapHolds place state.memory blocks) (member : entry ∈ given)
    (empty : ∀ file, state.pagefile = some file → file.size = 0)
    {out : Option (List (BitVec 8))}
    (returns : pmGet state entry.ptr bytes = some (after, out)) : after = state := by
  rcases swaps.exists_block member with ⟨before, block, rest, rfl, intact⟩
  cases released : entry.released with
  | false => exact Swaps.get_live heap intact released returns
  | true =>
      by_cases exact : bytes.toNat = block.size
      · rw [Swaps.get_released heap intact released exact] at returns
        rcases Option.map_eq_some_iff.mp returns with ⟨file, known, same⟩
        rw [File.read_empty (empty file known)] at same
        exact (Prod.mk.inj same).1.symm
      · have sized : size state.memory (entry.ptr - sizeofBlock) ≠ bytes := by
          intro same
          rw [← same] at exact
          exact exact (Swaps.size_eq heap intact)
        rw [pmGet, if_pos sized] at returns
        exact (Prod.mk.inj (Option.some.inj returns)).1.symm

/-- In every run with an empty page file, the page file stays, and the blocks that were given
are as the client has left them. -/
theorem run_swaps (run : SwapRun place pagefile given state)
    (empty : ∀ file, pagefile = some file → file.size = 0) :
    state.pagefile = pagefile ∧ ∃ blocks, HeapHolds place state.memory blocks ∧
      Swaps place state.memory blocks given := by
  induction run with
  | start _ file => exact ⟨file, _, initHeap_holds place _, initHeap_swaps place _⟩
  | malloc _ returns anew ih =>
      rcases ih with ⟨file, blocks, heap, swaps⟩
      exact ⟨(malloc_pagefile returns).trans file, swaps.malloc heap returns anew⟩
  | put _ member live exact full ih =>
      rcases ih with ⟨file, blocks, heap, swaps⟩
      exact ⟨(pmPut_pagefile _ _ _ _).trans file, blocks, swaps.put heap member live exact full⟩
  | free run member _ returns ih =>
      rcases ih with ⟨file, blocks, heap, swaps⟩
      rcases swaps.free heap run.pagesClean member returns with ⟨kept, marked⟩
      exact ⟨kept.trans file, marked⟩
  | get _ member returns ih =>
      rcases ih with ⟨file, blocks, heap, swaps⟩
      rw [← file] at empty
      rw [swaps.get_unchanged heap member empty returns]
      exact ⟨file, blocks, heap, swaps⟩

/-! ## All bytes of the region -/

/-- A run that fills one block with all bytes of the region and releases it. -/
theorem exists_released (place : Placement) (pagefile : Option File)
    (full : written.length = 16777184) :
    ∃ given state entry blocks, SwapRun place pagefile given state ∧ entry ∈ given ∧
      entry.released = true ∧ entry.latest = some written ∧ state.pagefile = pagefile ∧
      HeapHolds place state.memory blocks ∧ Swaps place state.memory blocks given := by
  let start : State := { sampleState with pagefile }
  have begun : SwapRun place pagefile [] (initHeap place start) :=
    .start ⟨fun _ _ _ => rfl, rfl, rfl⟩ rfl
  have region : HeapHolds place (initHeap place start).memory [⟨(16777184#64).toNat, true⟩] :=
    initHeap_holds place start
  rcases malloc_whole region with ⟨taken, ptr, completes, returned, held, _⟩
  have notNull : ptr ≠ 0#64 := payload_ne_null returned
  have header := held.listed.1
  rw [← header_toNat returned] at header
  have exact : size taken.memory (ptr - sizeofBlock) = 16777184#64 :=
    BitVec.eq_of_toNat_eq (Heap.size_toNat.trans header.size)
  have asked := begun.malloc completes nofun
  rcases (initHeap_swaps place start).malloc region completes nofun with ⟨blocks, heap, swaps⟩
  rw [handedOut, if_neg notNull] at asked swaps
  have put := asked.put List.mem_cons_self rfl exact full
  rcases swaps.put heap List.mem_cons_self rfl exact full with ⟨filledHeap, filled⟩
  have clean : ∀ page, (pmPut taken ptr written 16777184#64).dirty page = 0#32 := by
    rw [pmPut_dirty]
    exact malloc_dirty completes fun _ => rfl
  rcases free_of_clean clean ptr with ⟨freed, frees⟩
  have noted : note ptr (Given.fill written) [⟨ptr, none, false⟩] =
      [⟨ptr, some written, false⟩] := by
    rw [note, List.map_singleton, if_pos rfl]
    rfl
  have marked : note ptr Given.release [⟨ptr, some written, false⟩] =
      [⟨ptr, some written, true⟩] := by
    rw [note, List.map_singleton, if_pos rfl]
    rfl
  rw [noted] at put filled
  have ended := put.free List.mem_cons_self rfl frees
  rcases filled.free filledHeap put.pagesClean List.mem_cons_self frees with
    ⟨kept, last, freedHeap, released⟩
  rw [marked] at ended released
  have file : freed.pagefile = pagefile :=
    kept.trans ((pmPut_pagefile _ _ _ _).trans (malloc_pagefile completes))
  exact ⟨_, freed, _, last, ended, List.mem_cons_self, rfl, rfl, file, freedHeap, released⟩

/-- Whatever was put into a released block, the page file agrees with it. -/
theorem RoundTrips.agrees (round : RoundTrips place pagefile) (full : written.length = 16777184) :
    ∃ file, pagefile = some file ∧ file.read 0 written.length <+: written := by
  rcases exists_released place pagefile full with
    ⟨given, state, entry, blocks, run, member, released, latest, same, heap, swaps⟩
  rcases swaps.exists_block member with ⟨before, block, rest, rfl, intact⟩
  rw [← same, ← Swaps.reads_iff heap intact released latest]
  exact round given state entry written run member released latest

/-- What was put into a released block is read in every run exactly when there is a page file
and it is empty. -/
theorem roundTrips_iff (place : Placement) (pagefile : Option File) :
    RoundTrips place pagefile ↔ ∃ file, pagefile = some file ∧ file.size = 0 := by
  constructor
  · intro round
    have full : ∀ byte : BitVec 8, (List.replicate 16777184 byte).length = 16777184 :=
      fun _ => List.length_replicate
    rcases round.agrees (full 0#8) with ⟨file, known, _⟩
    refine ⟨file, known, ?_⟩
    by_contra inhabited
    -- Bytes that differ from the first one of the file are not read back.
    rcases round.agrees (full (file.contents 0 + 1#8)) with ⟨_, also, rest, same⟩
    rw [known] at also
    rcases Nat.exists_eq_succ_of_ne_zero
      (show min 16777184 file.size ≠ 0 by omega) with ⟨count, amount⟩
    rw [← Option.some.inj also, File.read, full, Nat.sub_zero, amount, Memory.bytes] at same
    have member : file.contents 0 ∈ List.replicate 16777184 (file.contents 0 + 1#8) := by
      rw [← same]
      exact List.mem_append_left _ List.mem_cons_self
    have next := congrArg BitVec.toNat (List.eq_of_mem_replicate member)
    rw [BitVec.toNat_add, BitVec.toNat_ofNat] at next
    omega
  · rintro ⟨file, known, empty⟩ given state entry written run member released latest
    rcases run_swaps run fun other also => by
        rw [known] at also
        rw [← Option.some.inj also]
        exact empty with ⟨same, blocks, heap, swaps⟩
    rcases swaps.exists_block member with ⟨before, block, rest, rfl, intact⟩
    rw [Swaps.reads_iff heap intact released latest, same]
    refine ⟨file, known, ?_⟩
    rw [File.read_empty empty]
    exact List.nil_prefix

/-- Without a page file `pm_get` ends the program. -/
theorem not_roundTrips_missing :
    ¬ ∀ (place : Placement) (pagefile : Option File), RoundTrips place pagefile := by
  intro always
  have full : (List.replicate 16777184 7#8).length = 16777184 := List.length_replicate
  rcases (always samplePlacement none).agrees full with ⟨_, missing, _⟩
  cases missing

end ComputerSystems.ThreadSafeHeap

import ComputerSystems.Heap.Representation

/-!
# The operations on block lists

Each function of the allocator, run on memory that holds a block list, does to
that list what its abstract counterpart does: the search loop stops where
`StopsAt` says, the block it stops at is fitted, and `mergefrag` is the
coalescing pass, which crashes where the pass is undefined.
-/

namespace ComputerSystems.Heap

open ComputerSystems.Allocation
open ComputerSystems.Loop

variable {memory : Memory}

/-! ## Assignments to a header -/

/-- Assign all fields of a header. -/
def writeHeader (memory : Memory) (block bytes : BitVec 64) (flag : BitVec 32)
    (behind : BitVec 64) : Memory :=
  setNext (setFree (setSize memory block bytes) block flag) block behind

theorem writeHeader_outside {block bytes behind : BitVec 64} {flag : BitVec 32} {i : Nat}
    (outside : i < block.toNat ∨ block.toNat + 24 ≤ i) :
    writeHeader memory block bytes flag behind i = memory i := by
  rw [writeHeader, setNext, setFree, setSize, Memory.store_of_outside (by omega),
    Memory.store_of_outside (by omega), Memory.store_of_outside (by omega)]

theorem writeHeader_header (memory : Memory) (block bytes behind : BitVec 64) {flag : BitVec 32}
    {free : Bool} (marks : flag.toNat ≠ 0 ↔ free = true) :
    Header (writeHeader memory block bytes flag behind) block.toNat ⟨bytes.toNat, free⟩
      behind.toNat := by
  unfold writeHeader setNext setFree setSize
  constructor
  · rw [Memory.load_store_of_disjoint (by omega), Memory.load_store_of_disjoint (by omega),
      load_store_word]
  · rw [Memory.load_store_of_disjoint (by omega), load_store_flag]
    exact marks
  · rw [load_store_word]

/-! ## Initialisation -/

theorem init_eq (place : Placement) (memory : Memory) :
    init place memory = writeHeader memory place.mem (her - sizeofBlock) 1#32 0#64 :=
  rfl

theorem init_holds (place : Placement) (memory : Memory) :
    Holds (init place memory) place.mem.toNat [⟨her.toNat - 24, true⟩] := by
  rw [init_eq]
  exact ⟨writeHeader_header memory place.mem (her - sizeofBlock) 0#64 (by decide), trivial⟩

/-! ## Splitting -/

section Split

variable {slot bytes : BitVec 64} {held : Block} {rest : List Block}

/-- The address of the header that `frag` writes behind the first bytes. -/
theorem split_toNat (room : slot.toNat + bytes.toNat + 24 < 2 ^ 64) :
    (slot + bytes + sizeofBlock).toNat = slot.toNat + 24 + bytes.toNat := by
  rw [BitVec.toNat_add, BitVec.toNat_add, sizeofBlock_toNat]
  omega

/-- `frag` writes two headers. -/
theorem frag_eq (room : slot.toNat + bytes.toNat + 24 < 2 ^ 64) :
    frag memory slot bytes =
      writeHeader (writeHeader memory (slot + bytes + sizeofBlock)
        (size memory slot - bytes - sizeofBlock) 1#32 (next memory slot)) slot bytes 0#32
        (slot + bytes + sizeofBlock) := by
  have address := split_toNat room
  have kept : next (setFree (setSize memory (slot + bytes + sizeofBlock)
      (size memory slot - bytes - sizeofBlock)) (slot + bytes + sizeofBlock) 1#32) slot =
      next memory slot := by
    rw [next, next, setFree, setSize, Memory.load_store_of_disjoint (by omega),
      Memory.load_store_of_disjoint (by omega)]
  rw [frag, kept]
  rfl

/-- Splitting a block. -/
theorem frag_holds (holds : Holds memory slot.toNat (held :: rest))
    (room : bytes.toNat + 24 < held.size)
    (bound : slot.toNat + span 24 (held :: rest) < 2 ^ 64) :
    Holds (frag memory slot bytes) slot.toNat
      (⟨bytes.toNat, false⟩ :: ⟨held.size - bytes.toNat - 24, true⟩ :: rest) := by
  rcases holds with ⟨header, tail⟩
  rw [span] at bound
  have inside : slot.toNat + bytes.toNat + 24 < 2 ^ 64 := by omega
  have address := split_toNat inside
  have remaining : (size memory slot - bytes - sizeofBlock).toNat =
      held.size - bytes.toNat - 24 := by
    have sizes : (size memory slot).toNat = held.size := size_toNat.trans header.size
    rw [BitVec.toNat_sub, BitVec.toNat_sub, sizes, sizeofBlock_toNat]
    omega
  have following : (next memory slot).toNat = link (slot.toNat + 24 + held.size) rest :=
    next_toNat.trans header.next
  have ending : slot.toNat + 24 + bytes.toNat + 24 + (held.size - bytes.toNat - 24) =
      slot.toNat + 24 + held.size := by omega
  rw [frag_eq inside]
  refine ⟨?_, ?_, ?_⟩
  · have written := writeHeader_header (writeHeader memory (slot + bytes + sizeofBlock)
      (size memory slot - bytes - sizeofBlock) 1#32 (next memory slot)) slot bytes
      (slot + bytes + sizeofBlock) (show (0#32).toNat ≠ 0 ↔ false = true by decide)
    rw [address] at written
    exact written
  · have written := writeHeader_header memory (slot + bytes + sizeofBlock)
      (size memory slot - bytes - sizeofBlock) (next memory slot)
      (show (1#32).toNat ≠ 0 ↔ true = true by decide)
    rw [address, remaining, following] at written
    rw [ending]
    exact written.congr fun i lower upper => writeHeader_outside (by omega)
  · rw [ending]
    refine tail.congr fun i lower upper => ?_
    rw [writeHeader_outside (by omega), writeHeader_outside (by omega)]

theorem frag_outside (room : bytes.toNat + 24 < held.size)
    (bound : slot.toNat + 24 + held.size < 2 ^ 64) {i : Nat} (outside : i < slot.toNat) :
    frag memory slot bytes i = memory i := by
  have inside : slot.toNat + bytes.toNat + 24 < 2 ^ 64 := by omega
  have address := split_toNat inside
  rw [frag_eq inside, writeHeader_outside (by omega), writeHeader_outside (by omega)]

end Split

/-! ## Searching -/

/-- The search loop stops at the block that `StopsAt` describes. -/
theorem search_completes {noOfBytes ptr : BitVec 64} {before after : List Block} {block : Block}
    (holds : Holds memory ptr.toNat (before ++ block :: after))
    (bound : ptr.toNat + span 24 (before ++ block :: after) < 2 ^ 64)
    (stops : StopsAt noOfBytes.toNat before block after) :
    Completes (fun fuel => loop (searchBody memory noOfBytes) fuel ptr)
      (BitVec.ofNat 64 (ptr.toNat + span 24 before)) := by
  induction before generalizing ptr with
  | nil =>
      rcases holds with ⟨header, _⟩
      rw [span, Nat.add_zero, BitVec.ofNat_toNat, BitVec.setWidth_eq]
      apply loop_exit
      apply if_neg
      rintro ⟨unfit, more⟩
      cases after with
      | nil => exact more (next_eq_zero_iff.mpr header.next)
      | cons second after =>
          rcases stops.fits (List.cons_ne_nil _ _) with ⟨free, large⟩
          rcases unfit with small | used
          · rw [BitVec.lt_def, size_toNat, header.size] at small
            omega
          · exact header.free.mpr free (free_eq_zero_iff.mp used)
  | cons first before ih =>
      rw [List.cons_append] at holds bound
      rw [span] at bound
      rcases holds with ⟨header, tail⟩
      have address : (next memory ptr).toNat = ptr.toNat + 24 + first.size := by
        rw [next_toNat, header.next]
        exact link_of_ne_nil (List.append_ne_nil_of_right_ne_nil _ (List.cons_ne_nil _ _))
      have unfit : size memory ptr < noOfBytes ∨ free memory ptr = 0#32 := by
        rw [BitVec.lt_def, size_toNat, header.size, free_eq_zero_iff]
        by_contra fits
        rw [not_or] at fits
        exact stops.passed first List.mem_cons_self ⟨header.free.mp fits.2, Nat.le_of_not_lt fits.1⟩
      have more : next memory ptr ≠ 0#64 := ne_null (by rw [sizeofBlock_toNat]; omega)
      have laterStops : StopsAt noOfBytes.toNat before block after :=
        ⟨fun other member => stops.passed other (List.mem_cons_of_mem _ member), stops.fits⟩
      rw [← address] at tail
      have later := ih tail (by omega) laterStops
      have target : ptr.toNat + span 24 (first :: before) =
          (next memory ptr).toNat + span 24 before := by
        rw [address, span]
        omega
      rw [target]
      have steps : searchBody memory noOfBytes ptr = .next (next memory ptr) :=
        if_pos ⟨unfit, more⟩
      exact loop_next steps later

/-- What happens at the block at which the search stops. -/
theorem allocateAt_holds {noOfBytes current : BitVec 64} {block : Block} {after : List Block}
    (holds : Holds memory current.toNat (block :: after))
    (bound : current.toNat + span 24 (block :: after) < 2 ^ 64)
    (room : noOfBytes.toNat + 24 < 2 ^ 64) :
    (∀ parts, fit 24 noOfBytes.toNat block = some parts →
      (allocateAt memory noOfBytes current).2 = current + sizeofBlock ∧
      Holds (allocateAt memory noOfBytes current).1 current.toNat (parts ++ after) ∧
      ∀ i, i < current.toNat → (allocateAt memory noOfBytes current).1 i = memory i) ∧
    (fit 24 noOfBytes.toNat block = none →
      allocateAt memory noOfBytes current = (memory, 0#64)) := by
  rcases holds with ⟨header, tail⟩
  have sizes : (size memory current).toNat = block.size := size_toNat.trans header.size
  have whole : size memory current = noOfBytes ↔ block.size = noOfBytes.toNat := by
    rw [← BitVec.toNat_inj, sizes]
  have larger : noOfBytes + sizeofBlock < size memory current ↔
      noOfBytes.toNat + 24 < block.size := by
    rw [BitVec.lt_def, sizes, BitVec.toNat_add, sizeofBlock_toNat,
      Nat.mod_eq_of_lt room]
  unfold allocateAt fit
  by_cases taken : block.size = noOfBytes.toNat
  · rw [if_pos (whole.mpr taken), if_pos taken]
    refine ⟨?_, fun none => absurd none (Option.some_ne_none _)⟩
    rintro parts ⟨⟩
    refine ⟨rfl, ⟨?_, ?_⟩, fun i below => setFree_outside (Or.inl below)⟩
    · have marked := setFree_header header (show (0#32).toNat ≠ 0 ↔ false = true by decide)
      rw [taken] at marked
      exact marked
    · rw [taken] at tail
      exact tail.congr fun i lower upper => setFree_outside (Or.inr (by omega))
  · rw [if_neg (fun same => taken (whole.mp same)), if_neg taken]
    by_cases large : noOfBytes.toNat + 24 < block.size
    · rw [if_pos (larger.mpr large), if_pos large]
      refine ⟨?_, fun none => absurd none (Option.some_ne_none _)⟩
      rintro parts ⟨⟩
      rw [span] at bound
      exact ⟨rfl, frag_holds ⟨header, tail⟩ large bound,
        fun i below => frag_outside large (by omega) below⟩
    · rw [if_neg (fun more => large (larger.mp more)), if_neg large]
      exact ⟨fun parts some => absurd some.symm (Option.some_ne_none parts), fun _ => rfl⟩

/-! ## Merging -/

section Merge

variable {curr : BitVec 64} {first second : Block}

theorem join_outside {i : Nat} (outside : i < curr.toNat ∨ curr.toNat + 24 ≤ i) :
    join memory curr i = memory i := by
  rw [join, setNext, setSize, Memory.store_of_outside (by omega),
    Memory.store_of_outside (by omega)]

/-- Joining a block with the one behind it. -/
theorem join_header {behind : Nat}
    (header : Header memory curr.toNat first (curr.toNat + 24 + first.size))
    (successor : Header memory (curr.toNat + 24 + first.size) second behind)
    (bound : curr.toNat + 24 + first.size + 24 + second.size < 2 ^ 64) :
    Header (join memory curr) curr.toNat ⟨first.size + (second.size + 24), first.free⟩ behind := by
  have following : (next memory curr).toNat = curr.toNat + 24 + first.size :=
    next_toNat.trans header.next
  have total : (size memory curr + (size memory (next memory curr) + sizeofBlock)).toNat =
      first.size + (second.size + 24) := by
    rw [BitVec.toNat_add, BitVec.toNat_add, size_toNat, size_toNat, following, header.size,
      successor.size, sizeofBlock_toNat]
    omega
  have kept : ∀ value, next (setSize memory curr value) curr = next memory curr := by
    intro value
    rw [next, next, setSize, Memory.load_store_of_disjoint (by omega)]
  have last : ∀ value, (next (setSize memory curr value) (next memory curr)).toNat = behind := by
    intro value
    rw [next_toNat, setSize, Memory.load_store_of_disjoint (by omega), following]
    exact successor.next
  rw [join, kept]
  unfold setNext
  constructor
  · rw [Memory.load_store_of_disjoint (by omega), setSize, Memory.load_store_same, total]
    exact Nat.mod_eq_of_lt (by omega)
  · rw [Memory.load_store_of_disjoint (by omega), setSize,
      Memory.load_store_of_disjoint (by omega)]
    exact header.free
  · rw [Memory.load_store_same, last]
    have small : behind < 2 ^ 64 := by
      rw [← last 0#64]
      exact BitVec.isLt _
    exact Nat.mod_eq_of_lt small

/-- The flags of two neighbours as `mergefrag` reads them. -/
theorem both_free_iff {behind : Nat}
    (header : Header memory curr.toNat first (curr.toNat + 24 + first.size))
    (successor : Header memory (curr.toNat + 24 + first.size) second behind) :
    (free memory curr ≠ 0#32 ∧ free memory (next memory curr) ≠ 0#32) ↔
      first.free = true ∧ second.free = true := by
  have following : (next memory curr).toNat = curr.toNat + 24 + first.size :=
    next_toNat.trans header.next
  rw [ne_eq, ne_eq, free_eq_zero_iff, free_eq_zero_iff, following]
  exact and_congr header.free successor.free

/-- Behind the end of the list the loop of `mergefrag` crashes. -/
theorem mergeBody_crash (null : curr = 0#64) : mergeBody (memory, curr) = .crash := by
  rw [mergeBody, if_pos null]

/-- The last block ends the loop of `mergefrag`. -/
theorem mergeBody_exit (notNull : curr ≠ 0#64) (last : next memory curr = 0#64) :
    mergeBody (memory, curr) = .exit := by
  rw [mergeBody, if_neg notNull, if_pos last]

theorem mergeBody_next (notNull : curr ≠ 0#64) (more : next memory curr ≠ 0#64) :
    mergeBody (memory, curr) =
      if free memory curr ≠ 0#32 ∧ free memory (next memory curr) ≠ 0#32 then
        .next (join memory curr, next (join memory curr) curr)
      else .next (memory, next memory curr) := by
  rw [mergeBody, if_neg notNull, if_neg more]
  split <;> rfl

end Merge

/-- From a block on, the loop of `mergefrag` does what the coalescing pass does to
the blocks from there on, and crashes where the pass is undefined. -/
structure Coalesces (memory : Memory) (curr : BitVec 64) (blocks : List Block) : Prop where
  done : ∀ merged, coalesce 24 blocks = some merged → ∃ after last,
    Completes (fun fuel => loop mergeBody fuel (memory, curr)) (after, last) ∧
      Holds after curr.toNat merged ∧ ∀ i, i < curr.toNat → after i = memory i
  crash : coalesce 24 blocks = none → Crashes fun fuel => loop mergeBody fuel (memory, curr)

section Pass

variable {curr : BitVec 64} {first second : Block} {rest : List Block}

/-- The last block is left as it is. -/
theorem coalesces_last (holds : Holds memory curr.toNat [first]) (notNull : curr ≠ 0#64) :
    Coalesces memory curr [first] where
  done := by
    have last : next memory curr = 0#64 := next_eq_zero_iff.mpr holds.1.next
    rintro merged ⟨⟩
    exact ⟨memory, curr, loop_exit (mergeBody_exit notNull last), holds, fun _ _ => rfl⟩
  crash := fun none => nomatch none

/-- Two free blocks are joined before the pass goes on behind both. -/
theorem mergeBody_join (holds : Holds memory curr.toNat (first :: second :: rest))
    (both : first.free = true ∧ second.free = true) (notNull : curr ≠ 0#64) :
    mergeBody (memory, curr) = .next (join memory curr, next (join memory curr) curr) := by
  rcases holds with ⟨header, successor, _⟩
  have following : (next memory curr).toNat = curr.toNat + 24 + first.size :=
    next_toNat.trans header.next
  have more : next memory curr ≠ 0#64 := ne_null (by rw [sizeofBlock_toNat]; omega)
  rw [mergeBody_next notNull more, if_pos ((both_free_iff header successor).mpr both)]

/-- Of two neighbours that are not both free the first is left as it is. -/
theorem mergeBody_skip (holds : Holds memory curr.toNat (first :: second :: rest))
    (neither : ¬ (first.free = true ∧ second.free = true)) (notNull : curr ≠ 0#64) :
    mergeBody (memory, curr) = .next (memory, next memory curr) := by
  rcases holds with ⟨header, successor, _⟩
  have following : (next memory curr).toNat = curr.toNat + 24 + first.size :=
    next_toNat.trans header.next
  have more : next memory curr ≠ 0#64 := ne_null (by rw [sizeofBlock_toNat]; omega)
  rw [mergeBody_next notNull more,
    if_neg fun free => neither ((both_free_iff header successor).mp free)]

/-- Joining the last two blocks takes the loop to NULL. -/
theorem coalesces_join_last (holds : Holds memory curr.toNat [first, second])
    (both : first.free = true ∧ second.free = true) (notNull : curr ≠ 0#64)
    (bound : curr.toNat + span 24 [first, second] < 2 ^ 64) :
    Coalesces memory curr [first, second] := by
  have steps := mergeBody_join holds both notNull
  rcases holds with ⟨header, successor, _⟩
  simp only [span] at bound
  have joined := join_header header successor (by omega)
  have null : next (join memory curr) curr = 0#64 := next_eq_zero_iff.mpr joined.next
  constructor
  · intro merged pass
    rw [coalesce, if_pos both] at pass
    cases pass
  · intro _
    exact loop_next_crash steps (loop_crash (mergeBody_crash null))

/-- Behind a join of two blocks that are not the last two, the pass goes on. -/
theorem coalesces_join (holds : Holds memory curr.toNat (first :: second :: rest))
    (both : first.free = true ∧ second.free = true) (notNull : curr ≠ 0#64)
    (address : (next (join memory curr) curr).toNat =
      curr.toNat + 24 + first.size + 24 + second.size)
    (joined : Header (join memory curr) curr.toNat ⟨first.size + (second.size + 24), first.free⟩
      (next (join memory curr) curr).toNat)
    (later : Coalesces (join memory curr) (next (join memory curr) curr) rest) :
    Coalesces memory curr (first :: second :: rest) := by
  have steps := mergeBody_join holds both notNull
  constructor
  · intro merged pass
    rw [coalesce, if_pos both] at pass
    rcases Option.map_eq_some_iff.mp pass with ⟨mergedTail, tailPass, rfl⟩
    rcases later.done mergedTail tailPass with ⟨after, last, completes, afterTail, same⟩
    have extent : curr.toNat + 24 + (first.size + (second.size + 24)) =
        (next (join memory curr) curr).toNat := by
      rw [address]
      omega
    refine ⟨after, last, loop_next steps completes, ⟨?_, ?_⟩, ?_⟩
    · rw [both.1] at joined
      rw [link_of_ne_nil (coalesce_ne_nil tailPass)]
      dsimp only
      rw [extent]
      exact joined.congr fun i lower upper => same i (by omega)
    · dsimp only
      rw [extent]
      exact afterTail
    · intro i below
      rw [same i (by omega), join_outside (Or.inl below)]
  · intro pass
    rw [coalesce, if_pos both] at pass
    exact loop_next_crash steps (later.crash (Option.map_eq_none_iff.mp pass))

/-- Behind a block that is not joined the pass goes on. -/
theorem coalesces_skip (holds : Holds memory curr.toNat (first :: second :: rest))
    (neither : ¬ (first.free = true ∧ second.free = true)) (notNull : curr ≠ 0#64)
    (later : Coalesces memory (next memory curr) (second :: rest)) :
    Coalesces memory curr (first :: second :: rest) := by
  have steps := mergeBody_skip holds neither notNull
  rcases holds with ⟨header, _⟩
  have following : (next memory curr).toNat = curr.toNat + 24 + first.size :=
    next_toNat.trans header.next
  constructor
  · intro merged pass
    rw [coalesce, if_neg neither] at pass
    rcases Option.map_eq_some_iff.mp pass with ⟨mergedTail, tailPass, rfl⟩
    rcases later.done mergedTail tailPass with ⟨after, last, completes, afterTail, same⟩
    refine ⟨after, last, loop_next steps completes, ⟨?_, ?_⟩, ?_⟩
    · rw [link_of_ne_nil (coalesce_ne_nil tailPass)]
      exact header.congr fun i lower upper => same i (by omega)
    · rw [← following]
      exact afterTail
    · intro i below
      exact same i (by omega)
  · intro pass
    rw [coalesce, if_neg neither] at pass
    exact loop_next_crash steps (later.crash (Option.map_eq_none_iff.mp pass))

end Pass

/-- The loop of `mergefrag` is the coalescing pass. -/
theorem merge_spec {blocks : List Block} {curr : BitVec 64}
    (holds : Holds memory curr.toNat blocks) (inhabited : blocks ≠ []) (notNull : curr ≠ 0#64)
    (bound : curr.toNat + span 24 blocks < 2 ^ 64) : Coalesces memory curr blocks := by
  induction blocks using coalesce.induct generalizing memory curr with
  | case1 => exact absurd rfl inhabited
  | case2 block => exact coalesces_last holds notNull
  | case3 first second rest both ih =>
      cases rest with
      | nil => exact coalesces_join_last holds both notNull bound
      | cons third rest =>
          have whole := holds
          rcases holds with ⟨header, successor, tail⟩
          simp only [span] at bound
          have joined := join_header header successor (by omega)
          have address : (next (join memory curr) curr).toNat =
              curr.toNat + 24 + first.size + 24 + second.size := next_toNat.trans joined.next
          have later : Holds (join memory curr) (next (join memory curr) curr).toNat
              (third :: rest) := by
            rw [address]
            exact tail.congr fun i lower upper => join_outside (Or.inr (by omega))
          refine coalesces_join whole both notNull address ?_
            (ih later (List.cons_ne_nil _ _) ?_ ?_)
          · rw [address]
            exact joined
          · exact ne_null (by rw [sizeofBlock_toNat]; omega)
          · rw [address, span]
            omega
  | case4 first second rest neither ih =>
      have following : (next memory curr).toNat = curr.toNat + 24 + first.size :=
        next_toNat.trans holds.1.next
      have tail := holds.2
      rw [← following] at tail
      rw [span] at bound
      have more : next memory curr ≠ 0#64 := ne_null (by rw [sizeofBlock_toNat]; omega)
      exact coalesces_skip holds neither notNull
        (ih tail (List.cons_ne_nil _ _) more (by omega))

/-- `mergefrag` changes nothing when no two neighbours are free. -/
theorem merge_separated {blocks : List Block} {curr : BitVec 64}
    (holds : Holds memory curr.toNat blocks) (inhabited : blocks ≠ []) (notNull : curr ≠ 0#64)
    (bound : curr.toNat + span 24 blocks < 2 ^ 64) (separated : Separated (flags blocks)) :
    ∃ last, Completes (fun fuel => loop mergeBody fuel (memory, curr)) (memory, last) := by
  induction blocks generalizing curr with
  | nil => exact absurd rfl inhabited
  | cons first rest ih =>
      rcases holds with ⟨header, tail⟩
      cases rest with
      | nil =>
          have last : next memory curr = 0#64 := next_eq_zero_iff.mpr header.next
          exact ⟨curr, loop_exit (mergeBody_exit notNull last)⟩
      | cons second rest =>
          have apart : ¬ (first.free = true ∧ second.free = true) := by
            rw [Separated, flags, List.map_cons, List.map_cons, List.isChain_cons_cons] at separated
            exact separated.1
          have steps := mergeBody_skip ⟨header, tail⟩ apart notNull
          have following : (next memory curr).toNat = curr.toNat + 24 + first.size :=
            next_toNat.trans header.next
          have more : next memory curr ≠ 0#64 := ne_null (by rw [sizeofBlock_toNat]; omega)
          rw [span] at bound
          rw [← following] at tail
          obtain ⟨last, completes⟩ :=
            ih tail (List.cons_ne_nil _ _) more (by omega) (List.IsChain.tail separated)
          exact ⟨last, loop_next steps completes⟩

end ComputerSystems.Heap

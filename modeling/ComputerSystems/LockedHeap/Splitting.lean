import ComputerSystems.LockedHeap.Practicum

/-!
# Splitting a block of the practicum's heap

`frag` of `PracticumI/malloc.c` splits a request off a block. It takes the block behind
into a tail that is smaller than a header, when that block is free.
-/

namespace ComputerSystems.LockedHeap.PracticumI

open ComputerSystems.Allocation
open ComputerSystems.Heap
open ComputerSystems.Loop

/-- The blocks of a list take all bytes of `phys_mem`. -/
structure Tiles (freeList : BitVec 64) (memory : Memory) (blocks : List Block) : Prop where
  list : BlockList freeList memory blocks
  whole : span 24 blocks = pageSize.toNat

/-- The second part of `frag`: a block smaller than a header takes in a free successor. -/
def absorbNext (memory : Memory) (new : BitVec 64) : Memory :=
  if size memory new < sizeofBlock ∧ next memory new ≠ 0#64 ∧
      free memory (next memory new) ≠ 0#32 then
    join memory new
  else memory

variable {freeList slot bytes new : BitVec 64} {memory ready : Memory} {held : Block}
  {blocks before rest : List Block}

theorem frag_eq_absorbNext (memory : Memory) (slot bytes : BitVec 64) :
    frag memory slot bytes =
      absorbNext (Heap.frag memory slot bytes) (slot + bytes + sizeofBlock) :=
  rfl

theorem absorbNext_outside {i : Nat} (outside : i < new.toNat ∨ new.toNat + 24 ≤ i) :
    absorbNext memory new i = memory i := by
  unfold absorbNext
  split
  · exact join_outside outside
  · rfl

/-- The test of `frag` on a block and what is behind it. -/
theorem absorbs_iff {block : Block} (holds : Holds memory new.toNat (held :: block :: rest)) :
    (size memory new < sizeofBlock ∧ next memory new ≠ 0#64 ∧
        free memory (next memory new) ≠ 0#32) ↔
      held.size < 24 ∧ block.free = true := by
  rcases holds with ⟨header, successor, _⟩
  have following : (next memory new).toNat = new.toNat + 24 + held.size :=
    next_toNat.trans header.next
  have more : next memory new ≠ 0#64 := ne_null (by rw [sizeofBlock_toNat]; omega)
  have small : size memory new < sizeofBlock ↔ held.size < 24 := by
    rw [BitVec.lt_def, size_toNat, header.size, sizeofBlock_toNat]
  have flag : free memory (next memory new) ≠ 0#32 ↔ block.free = true := by
    rw [ne_eq, free_eq_zero_iff, following]
    exact successor.free
  rw [small, flag]
  exact and_congr_right fun _ => and_iff_right more

/-- A block takes in its successor as `absorb` says. -/
theorem absorbNext_holds (holds : Holds memory new.toNat (held :: rest))
    (bound : new.toNat + span 24 (held :: rest) < 2 ^ 64) :
    Holds (absorbNext memory new) new.toNat (absorb 24 held rest) := by
  cases rest with
  | nil =>
      have last : next memory new = 0#64 := next_eq_zero_iff.mpr holds.1.next
      rw [absorbNext, if_neg fun test => test.2.1 last]
      exact holds
  | cons block rest =>
      rw [absorbNext, absorb]
      by_cases absorbed : held.size < 24 ∧ block.free = true
      · rw [if_pos ((absorbs_iff holds).mpr absorbed), if_pos absorbed]
        rcases holds with ⟨header, successor, tail⟩
        simp only [span] at bound
        have joined := join_header header successor (by omega)
        have address : new.toNat + 24 + held.size + 24 + block.size =
            new.toNat + 24 + (held.size + (block.size + 24)) := by omega
        rw [address] at joined tail
        exact ⟨joined, tail.congr fun i lower upper => join_outside (Or.inr (by omega))⟩
      · rw [if_neg fun test => absorbed ((absorbs_iff holds).mp test), if_neg absorbed]
        exact holds

theorem absorb_ne_nil (header : Nat) (block : Block) (rest : List Block) :
    absorb header block rest ≠ [] := by
  rcases @absorb_head header block rest with ⟨_, _, split, _⟩
  rw [split]
  exact List.cons_ne_nil _ _

/-- `frag` splits a block. -/
theorem frag_holds_splitOff (holds : Holds memory slot.toNat (held :: rest))
    (room : bytes.toNat + 24 < held.size)
    (bound : slot.toNat + span 24 (held :: rest) < 2 ^ 64) :
    Holds (frag memory slot bytes) slot.toNat (splitOff 24 bytes.toNat held rest) := by
  have extent := bound
  rw [span] at extent
  have address : (slot + bytes + sizeofBlock).toNat = slot.toNat + 24 + bytes.toNat :=
    split_toNat (by omega)
  rcases Heap.frag_holds holds room bound with ⟨header, split⟩
  dsimp only at header split
  rw [← address] at split header
  have tailBound : (slot + bytes + sizeofBlock).toNat +
      span 24 (⟨held.size - bytes.toNat - 24, true⟩ :: rest) < 2 ^ 64 := by
    rw [address, span]
    dsimp only
    omega
  rw [frag_eq_absorbNext]
  refine ⟨?_, ?_⟩
  · dsimp only
    rw [← address, link_of_ne_nil (absorb_ne_nil _ _ _)]
    refine header.congr fun i lower upper => absorbNext_outside (Or.inl ?_)
    omega
  · dsimp only
    rw [← address]
    exact absorbNext_holds split tailBound

theorem frag_outside_front (room : bytes.toNat + 24 < held.size)
    (bound : slot.toNat + 24 + held.size < 2 ^ 64) {i : Nat} (outside : i < slot.toNat) :
    frag memory slot bytes i = memory i := by
  have address : (slot + bytes + sizeofBlock).toNat = slot.toNat + 24 + bytes.toNat :=
    split_toNat (by omega)
  rw [frag_eq_absorbNext, absorbNext_outside (by omega)]
  exact Heap.frag_outside room bound outside

/-- Splitting a block of a list. -/
theorem BlockList.frag (list : BlockList freeList memory (before ++ held :: rest))
    (address : slot.toNat = freeList.toNat + span 24 before)
    (room : bytes.toNat + 24 < held.size) :
    BlockList freeList (frag memory slot bytes) (before ++ splitOff 24 bytes.toNat held rest) := by
  have total := list.bound
  rw [span_append, span] at total
  constructor
  · refine list.holds.replace (List.cons_ne_nil _ _) (List.cons_ne_nil _ _) ?_ ?_
    · intro i lower upper
      exact frag_outside_front room (by omega) (by omega)
    · have here := list.holds.drop
      rw [← address] at here ⊢
      refine frag_holds_splitOff here room ?_
      rw [address, span]
      omega
  · exact List.append_ne_nil_of_right_ne_nil _ (List.cons_ne_nil _ _)
  · exact list.notNull
  · rw [span_append, splitOff_span (by omega), ← span_append]
    exact list.bound

/-- In a list that tiles `phys_mem` the search stops at a block; where that is larger than
the request and a header, `pm_malloc_lock` returns its payload, the list still tiles
`phys_mem`, and the request is split off. -/
theorem pmMallocLock_splitsOff (surroundings : Surroundings)
    (mmap : BitVec 64 → Option (BitVec 64))
    (prepared : prepare surroundings freeList memory = some ready)
    (tiles : Tiles freeList ready blocks) (noOfBytes : BitVec 64) :
    ∃ before chosen rest address prev, blocks = before ++ chosen :: rest ∧
      address.toNat = freeList.toNat + span 24 before ∧
      Completes (fun fuel => loop (searchBody ready noOfBytes) fuel (freeList, freeList))
        (prev, address) ∧
      (noOfBytes.toNat + 24 < chosen.size →
        ∃ after split, Completes (pmMallocLock surroundings mmap freeList memory noOfBytes)
            (after, address + sizeofBlock) ∧
          Tiles freeList after split ∧
          SplitsOff 24 freeList.toNat noOfBytes.toNat before chosen rest split) := by
  rcases exists_stopsAt noOfBytes.toNat tiles.list.inhabited with ⟨before, chosen, rest, rfl, stops⟩
  have list := tiles.list
  have address := address_toNat list.bound
  rcases pmMallocLock_completes mmap prepared list stops with ⟨⟨prev, search⟩, returns⟩
  generalize BitVec.ofNat 64 (freeList.toNat + span 24 before) = current at address search returns
  refine ⟨before, chosen, rest, current, prev, rfl, address, search, ?_⟩
  intro room
  have total := list.bound
  rw [span_append, span] at total
  have sizes := list.size_at address
  have unequal : size ready current ≠ noOfBytes := by
    intro same
    rw [same] at sizes
    omega
  have larger : noOfBytes + sizeofBlock < size ready current := by
    rw [BitVec.lt_def, sizes, BitVec.toNat_add, sizeofBlock_toNat]
    omega
  rw [place, if_neg unequal, if_pos larger] at returns
  have split := @splitOff_splitsOff 24 freeList.toNat noOfBytes.toNat before chosen rest
    (Nat.le_of_lt room)
  exact ⟨_, _, returns, ⟨list.frag address room, split.span.trans tiles.whole⟩, split⟩

/-- A heap with a used block at each end and two free ones between them. -/
def sampleMixed : Memory :=
  writeHeader (writeHeader (writeHeader (writeHeader (fun _ => 0#8)
    4096#64 100#64 0#32 4220#64) 4220#64 450#64 1#32 4694#64)
    4694#64 1000#64 1#32 5718#64) 5718#64 2450#64 0#32 0#64

theorem sampleMixed_tiles : Tiles 4096#64 sampleMixed
    [⟨100, false⟩, ⟨450, true⟩, ⟨1000, true⟩, ⟨2450, false⟩] := by
  refine ⟨⟨?_, List.cons_ne_nil _ _, by decide, by decide⟩, rfl⟩
  refine ⟨⟨?_, ?_, ?_⟩, ⟨?_, ?_, ?_⟩, ⟨?_, ?_, ?_⟩, ⟨?_, ?_, ?_⟩, trivial⟩ <;> decide +kernel

/-- A request for 420 bytes leaves six behind it, which take in the free block of 1000. -/
theorem pmMallocLock_splitsOff_between_used :
    ∃ after split,
      Completes (pmMallocLock ⟨true, 0#64⟩ (fun _ => none) 4096#64 sampleMixed 420#64)
        (after, 4220#64 + sizeofBlock) ∧
      Tiles 4096#64 after split ∧
      SplitsOff 24 4096 420 [⟨100, false⟩] ⟨450, true⟩ [⟨1000, true⟩, ⟨2450, false⟩] split := by
  have prepared := sampleMixed_tiles.list.prepare (by decide) ⟨true, 0#64⟩
  have stops : StopsAt (420#64).toNat [⟨100, false⟩] ⟨450, true⟩ [⟨1000, true⟩, ⟨2450, false⟩] :=
    ⟨by decide, fun _ => by decide⟩
  rcases (pmMallocLock_completes (fun _ => none) prepared sampleMixed_tiles.list stops).1 with
    ⟨_, stopped⟩
  rcases pmMallocLock_splitsOff _ (fun _ => none) prepared sampleMixed_tiles 420#64 with
    ⟨before, chosen, rest, address, _, blocks, start, search, splits⟩
  obtain ⟨_, rfl⟩ := Prod.mk.inj ((loop_stable _ _).unique search stopped)
  -- the search stops behind the first block
  cases before with
  | nil => exact absurd start (by decide)
  | cons first before =>
      cases before with
      | nil =>
          cases blocks
          exact splits (by decide)
      | cons second before =>
          rcases List.cons.inj blocks with ⟨rfl, behind⟩
          rcases List.cons.inj behind with ⟨rfl, _⟩
          simp only [span, BitVec.toNat_ofNat] at start
          omega

end ComputerSystems.LockedHeap.PracticumI

import ComputerSystems.Heap.Requests

/-!
# When the array is set up again

`pm_malloc` sets up the array when the size of the first block is 0. A request for no
bytes that is placed in the first block by a split makes it so again. Until its pointer
is freed, every further request discards the block list; freeing it merges the empty
block with the free block behind.
-/

namespace ComputerSystems.Heap

open ComputerSystems.Allocation
open ComputerSystems.Loop

/-- A request for no bytes that was placed in the first block. -/
def emptyAtStart (place : Placement) : Allocation :=
  ⟨place.mem + sizeofBlock, 0#64⟩

/-- `pm_malloc` has been called, and the next call of it runs `init` again. -/
def Reinitialises (place : Placement) (calls : List Call) (memory : Memory) : Prop :=
  (∃ noOfBytes, .malloc noOfBytes ∈ calls) ∧ size memory place.mem = 0#64

/-- The calls on live pointers that leave a block list, with no request while one for no
bytes that was placed in the first block is live. -/
def KeepsFirst (place : Placement) (memory : Memory) (live : List Allocation) (call : Call) :
    Prop :=
  OnLive memory live call ∧ KeepsList place memory live call ∧
    ∀ noOfBytes, call = .malloc noOfBytes → emptyAtStart place ∉ live

/-- The first block is not empty, or it is the newest allocation and the block behind it
is free. -/
inductive FirstBlock (place : Placement) : List Block → List Allocation → Prop
  | filled {first : Block} {rest : List Block} {live : List Allocation} (filled : first.size ≠ 0)
      (none : emptyAtStart place ∉ live) : FirstBlock place (first :: rest) live
  | empty {second : Block} {rest : List Block} {older : List Allocation}
      (unused : second.free = true) (none : emptyAtStart place ∉ older) :
      FirstBlock place (⟨0, false⟩ :: second :: rest) (emptyAtStart place :: older)

variable {place : Placement} {memory after : Memory} {blocks : List Block}
  {live : List Allocation} {noOfBytes ptr : BitVec 64}

/-- The payload of the first block. -/
theorem pointer_first (payload : ptr.toNat = place.mem.toNat + span 24 [] + 24) :
    ptr = place.mem + sizeofBlock := by
  have small := place.fits
  rw [her_toNat] at small
  apply BitVec.eq_of_toNat_eq
  rw [payload, BitVec.toNat_add, sizeofBlock_toNat, span]
  omega

theorem FirstBlock.size_iff (first : FirstBlock place blocks live)
    (heap : HeapHolds place memory blocks) :
    size memory place.mem = 0#64 ↔ emptyAtStart place ∈ live := by
  rw [heap.size_mem]
  cases first with
  | filled filled none => simp [filled, none]
  | empty => simp

theorem FirstBlock.head_filled (first : FirstBlock place blocks live)
    (none : emptyAtStart place ∉ live) : blocks.head?.map Block.size ≠ some 0 := by
  cases first with
  | filled filled _ => simpa using filled
  | empty => exact absurd List.mem_cons_self none

theorem FirstBlock.ready (first : FirstBlock place blocks live)
    (none : emptyAtStart place ∉ live) : Heap.ready blocks = blocks :=
  if_neg (first.head_filled none)

/-! ## Requests -/

/-- Only a pointer to the first block starts behind the first header. -/
theorem ne_emptyAtStart {before : List Block} (later : before ≠ [])
    (returned : ptr.toNat = place.mem.toNat + span 24 before + 24) :
    (⟨ptr, noOfBytes⟩ : Allocation) ≠ emptyAtStart place := by
  intro same
  have address : ptr = place.mem + sizeofBlock := congrArg Allocation.ptr same
  have fits := place.fits
  rcases List.exists_cons_of_ne_nil later with ⟨first, rest, rfl⟩
  rw [address, BitVec.toNat_add, sizeofBlock_toNat, span] at returned
  rw [her_toNat] at fits
  omega

/-- The parts of the first block after a request was placed in it. -/
theorem FirstBlock.of_fit {block : Block} {rest parts : List Block} (filled : block.size ≠ 0)
    (fits : fit 24 noOfBytes.toNat block = some parts)
    (returned : ptr = place.mem + sizeofBlock) (none : emptyAtStart place ∉ live) :
    FirstBlock place (parts ++ rest) (⟨ptr, noOfBytes⟩ :: live) := by
  subst returned
  by_cases requested : noOfBytes = 0#64
  · subst requested
    rw [fit, if_neg (show block.size ≠ (0#64).toNat from filled)] at fits
    split at fits
    · cases fits
      exact .empty rfl none
    · cases fits
  · have positive : noOfBytes.toNat ≠ 0 := fun zero => requested (BitVec.eq_of_toNat_eq zero)
    have none : emptyAtStart place ∉ ⟨place.mem + sizeofBlock, noOfBytes⟩ :: live := by
      intro member
      rcases List.mem_cons.mp member with same | older
      · exact requested (congrArg Allocation.noOfBytes same).symm
      · exact none older
    unfold fit at fits
    split at fits
    · cases fits
      exact .filled positive none
    · split at fits
      · cases fits
        exact .filled positive none
      · cases fits

/-- A request on a list whose first block is not empty. -/
theorem FirstBlock.placed {before rest parts : List Block} {block : Block}
    (first : FirstBlock place (before ++ block :: rest) live) (none : emptyAtStart place ∉ live)
    (fits : fit 24 noOfBytes.toNat block = some parts)
    (returned : ptr.toNat = place.mem.toNat + span 24 before + 24) :
    FirstBlock place (before ++ (parts ++ rest)) (⟨ptr, noOfBytes⟩ :: live) := by
  have filled := first.head_filled none
  cases before with
  | nil =>
      have placed : FirstBlock place (parts ++ rest) (⟨ptr, noOfBytes⟩ :: live) :=
        .of_fit (by simpa using filled) fits (pointer_first returned) none
      exact placed
  | cons head before =>
      have added : emptyAtStart place ∉ ⟨ptr, noOfBytes⟩ :: live := by
        intro member
        rcases List.mem_cons.mp member with same | older
        · exact ne_emptyAtStart (List.cons_ne_nil head before) returned same.symm
        · exact none older
      exact .filled (by simpa using filled) added

/-- A request that does not overrun keeps the first block as long as no request for no bytes
is live in it. -/
theorem FirstBlock.malloc (first : FirstBlock place (Heap.ready blocks) live)
    (heap : HeapHolds place memory blocks) (none : emptyAtStart place ∉ live)
    (fine : ¬ Overruns place memory noOfBytes)
    (returns : Completes (pmMalloc place memory noOfBytes) (after, ptr)) :
    ∃ blocks, HeapHolds place after blocks ∧
      FirstBlock place blocks (allocated live noOfBytes ptr) := by
  by_cases room : noOfBytes.toNat + 24 < 2 ^ 64
  · cases malloc_returns heap room returns with
    | placed before block rest parts split _ fits returned placed =>
        have notNull : ptr ≠ 0#64 := ne_null (by rw [sizeofBlock_toNat]; omega)
        rw [split] at first
        rw [allocated, if_neg notNull]
        exact ⟨_, placed, first.placed none fits returned⟩
    | refused _ _ _ _ _ _ null refused =>
        subst null
        exact ⟨_, refused, first⟩
  · have large : her < noOfBytes := by
      rw [BitVec.lt_def, her_toNat]
      omega
    rcases heap.oversized_cases large with ⟨_, completes⟩ | ⟨overruns, _⟩
    · have same := (pmMalloc_stable place memory noOfBytes).unique completes returns
      rcases Prod.mk.inj same with ⟨rfl, rfl⟩
      exact ⟨_, heap.ready, first⟩
    · exact absurd overruns fine

/-! ## Frees -/

/-- The pass keeps a first block that is not empty so. -/
theorem FirstBlock.of_coalesce (block : Block) {rest merged : List Block}
    (filled : block.size ≠ 0) (none : emptyAtStart place ∉ live)
    (pass : coalesce 24 (block :: rest) = some merged) : FirstBlock place merged live := by
  rcases coalesce_head_size pass with ⟨first, tail, rfl, larger⟩
  exact .filled (by omega) none

/-- The pass leaves an empty used block in front. -/
theorem FirstBlock.coalesce_empty {second : Block} {rest merged : List Block}
    {older : List Allocation} (unused : second.free = true) (none : emptyAtStart place ∉ older)
    (pass : coalesce 24 (⟨0, false⟩ :: second :: rest) = some merged) :
    FirstBlock place merged (emptyAtStart place :: older) := by
  rw [coalesce, if_neg (by simp), Option.map_eq_some_iff] at pass
  rcases pass with ⟨tail, passed, rfl⟩
  rcases coalesce_head passed with ⟨head, following, rfl, free⟩
  exact .empty (free.trans unused) none

/-- Freeing the empty block merges it with the one behind. -/
theorem FirstBlock.coalesce_released {second : Block} {rest merged : List Block}
    (unused : second.free = true) (none : emptyAtStart place ∉ live)
    (pass : coalesce 24 (⟨0, true⟩ :: second :: rest) = some merged) :
    FirstBlock place merged live := by
  rw [coalesce, if_pos ⟨rfl, unused⟩, Option.map_eq_some_iff] at pass
  rcases pass with ⟨tail, passed, rfl⟩
  exact .filled (by dsimp only; omega) none

theorem released_of_ne {older : List Allocation} (different : ptr ≠ place.mem + sizeofBlock) :
    released (emptyAtStart place :: older) ptr = emptyAtStart place :: released older ptr :=
  List.eraseP_cons_of_neg (by rw [decide_eq_true_eq]; exact different.symm)

theorem released_emptyAtStart {older : List Allocation} :
    released (emptyAtStart place :: older) (place.mem + sizeofBlock) = older :=
  List.eraseP_cons_of_pos (decide_eq_true rfl)

/-- The start of the first payload is not rejected. -/
theorem start_inside (place : Placement) :
    place.mem ≤ place.mem + sizeofBlock ∧ place.mem + sizeofBlock ≤ place.mem + her := by
  have fits := place.fits
  rw [her_toNat] at fits
  rw [BitVec.le_def, BitVec.le_def, BitVec.toNat_add, BitVec.toNat_add, sizeofBlock_toNat,
    her_toNat]
  omega

/-- Releasing a block of a list that starts with an empty used one. -/
theorem FirstBlock.marked_empty {second block : Block} {tail before rest merged : List Block}
    {older : List Allocation} (unused : second.free = true)
    (none : emptyAtStart place ∉ released older ptr)
    (known : emptyAtStart place ∉ older)
    (split : ⟨0, false⟩ :: second :: tail = before ++ block :: rest)
    (payload : ptr.toNat = place.mem.toNat + span 24 before + 24)
    (pass : coalesce 24 (before ++ ⟨block.size, true⟩ :: rest) = some merged) :
    FirstBlock place merged (released (emptyAtStart place :: older) ptr) := by
  cases before with
  | nil =>
      rcases List.cons.inj split with ⟨rfl, rfl⟩
      obtain rfl : ptr = place.mem + sizeofBlock := pointer_first payload
      rw [released_emptyAtStart]
      exact .coalesce_released unused known pass
  | cons head before =>
      rcases List.cons.inj split with ⟨rfl, following⟩
      have different : ptr ≠ place.mem + sizeofBlock := fun same =>
        ne_emptyAtStart (List.cons_ne_nil _ before) payload
          (congrArg (Allocation.mk · 0#64) same)
      rw [released_of_ne different]
      cases before with
      | nil => exact .coalesce_empty rfl none pass
      | cons head before =>
          rcases List.cons.inj following with ⟨rfl, _⟩
          exact .coalesce_empty unused none pass

/-- A free that keeps the block list keeps what is known of the first block. -/
theorem FirstBlock.free (first : FirstBlock place blocks live)
    (outcome : FreeOutcome place blocks ptr after) :
    ∃ blocks, HeapHolds place after blocks ∧ FirstBlock place blocks (released live ptr) := by
  cases first with
  | filled filled none =>
      have none : emptyAtStart place ∉ released live ptr := fun member =>
        none (List.eraseP_subset member)
      cases outcome with
      | rejected _ heap => exact ⟨_, heap, .filled filled none⟩
      | spared merged pass _ heap => exact ⟨merged, heap, .of_coalesce _ filled none pass⟩
      | marked before block rest merged split _ pass heap =>
          refine ⟨merged, heap, ?_⟩
          cases before with
          | nil =>
              cases split
              exact .of_coalesce ⟨_, true⟩ filled none pass
          | cons head before =>
              cases split
              exact .of_coalesce _ filled none pass
  | @empty second tail older unused none =>
      have known := none
      have none : emptyAtStart place ∉ released older ptr := fun member =>
        none (List.eraseP_subset member)
      cases outcome with
      | rejected outside heap =>
          have different : ptr ≠ place.mem + sizeofBlock := by
            rintro rfl
            exact outside (start_inside place)
          rw [released_of_ne different]
          exact ⟨_, heap, .empty unused none⟩
      | spared merged pass different heap =>
          rw [released_of_ne different]
          exact ⟨merged, heap, .coalesce_empty unused none pass⟩
      | marked before block rest merged split payload pass heap =>
          exact ⟨merged, heap, .marked_empty unused none known split payload pass⟩

/-! ## Runs -/

/-- Before the first `pm_malloc` nothing is live, and afterwards the first block is not
empty, or is the newest allocation. -/
theorem run_firstBlock {calls : List Call} (run : Run place (KeepsFirst place) calls live memory) :
    ∃ blocks, HeapHolds place memory blocks ∧
      (calls = [] ∧ live = [] ∧ size memory place.mem = 0#64 ∨
        (∃ noOfBytes, .malloc noOfBytes ∈ calls) ∧ FirstBlock place blocks live) := by
  induction run with
  | start zeroed =>
      have heap := zeroed_holds zeroed
      exact ⟨_, heap, Or.inl ⟨rfl, rfl, heap.size_mem.mpr rfl⟩⟩
  | @malloc _ live memory _ noOfBytes _ _ allowed returns ih =>
      rcases ih with ⟨blocks, heap, known⟩
      rcases allowed with ⟨_, fine, none⟩
      have none := none _ rfl
      have first : FirstBlock place (ready blocks) live := by
        rcases known with ⟨_, rfl, unset⟩ | ⟨_, first⟩
        · rw [ready, if_pos (heap.size_mem.mp unset)]
          exact .filled (by decide) List.not_mem_nil
        · rw [first.ready none]
          exact first
      rcases first.malloc heap none fine returns with ⟨placed, holds, first⟩
      refine ⟨placed, holds, Or.inr ⟨⟨noOfBytes, ?_⟩, first⟩⟩
      exact List.mem_append_right _ (List.mem_singleton_self _)
  | free _ allowed returns ih =>
      rcases ih with ⟨blocks, heap, ⟨_, rfl, _⟩ | ⟨⟨noOfBytes, called⟩, first⟩⟩
      · rcases allowed.1 with ⟨_, member, _⟩
        exact absurd member List.not_mem_nil
      · rcases first.free (heap.free allowed.2.1 returns) with ⟨merged, holds, first⟩
        exact ⟨merged, holds, Or.inr ⟨⟨noOfBytes, List.mem_append_left _ called⟩, first⟩⟩

/-- After the first `pm_malloc` the next one runs `init` again exactly when a request for no
bytes that was placed in the first block is live. -/
theorem reinitialises_iff {calls : List Call}
    (run : Run place (KeepsFirst place) calls live memory) :
    ¬ Reinitialises place calls memory ↔ emptyAtStart place ∉ live := by
  rcases run_firstBlock run with ⟨blocks, heap, ⟨rfl, rfl, _⟩ | ⟨called, first⟩⟩
  · have never : ¬ Reinitialises place [] memory := by
      rintro ⟨⟨_, member⟩, _⟩
      exact absurd member List.not_mem_nil
    exact ⟨fun _ => List.not_mem_nil, fun _ => never⟩
  · rw [Reinitialises, and_iff_right called, first.size_iff heap]

/-- After a request for 400 bytes the array is not set up again. -/
theorem not_reinitialises_after_request :
    ∃ calls live memory, Run samplePlacement (KeepsFirst samplePlacement) calls live memory ∧
      calls ≠ [] ∧ ¬ Reinitialises samplePlacement calls memory := by
  rcases first_request with ⟨memory, ptr, done, payload, _⟩
  have fine : ¬ Overruns samplePlacement zeroMemory 400#64 := fun overruns =>
    absurd overruns.1 (by decide)
  have notNull : ptr ≠ 0#64 := ne_null (by rw [sizeofBlock_toNat]; omega)
  have run : Run samplePlacement (KeepsFirst samplePlacement) [.malloc 400#64] _ memory :=
    .malloc (.start (zeroMemory_zeroed samplePlacement))
      ⟨trivial, fine, fun _ _ => List.not_mem_nil⟩ done
  refine ⟨_, _, memory, run, List.cons_ne_nil _ _, (reinitialises_iff run).mpr ?_⟩
  rw [allocated, if_neg notNull]
  intro member
  have same : 0#64 = 400#64 := congrArg Allocation.noOfBytes (List.mem_singleton.mp member)
  exact absurd same (by decide)

/-- After a first request for no bytes the array is set up again. -/
theorem reinitialises_after_empty_request :
    ¬ ∀ (place : Placement) calls live memory, Run place OnLive calls live memory →
      ¬ Reinitialises place calls memory := by
  intro never
  have start := zeroed_holds (zeroMemory_zeroed samplePlacement)
  have room : (0#64).toNat + 24 < 2 ^ 64 := by decide
  rcases (malloc_spec start room rfl (stopsAt_singleton _ _)).1
    [⟨0, false⟩, ⟨9999952, true⟩] rfl with ⟨memory, ptr, done, _, heap⟩
  have run : Run samplePlacement OnLive [.malloc 0#64] _ memory :=
    .malloc (.start (zeroMemory_zeroed samplePlacement)) trivial done
  exact never samplePlacement _ _ memory run
    ⟨⟨0#64, List.mem_cons_self⟩, heap.size_mem.mpr rfl⟩

end ComputerSystems.Heap

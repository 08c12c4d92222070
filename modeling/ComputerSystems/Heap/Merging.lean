import ComputerSystems.Heap.Requests

/-!
# When `pm_free` completes, and when it leaves no free neighbours

Both depend on the flags of the list once the freed block is marked free.
`mergefrag` goes on behind the blocks it has merged: merging the last two makes
it follow the `next` field of NULL, and of three free neighbours it leaves two.
-/

namespace ComputerSystems.Heap

open ComputerSystems.Allocation
open ComputerSystems.Loop

/-- The nodes with the block of a pointer marked free. -/
def markFree (ptr : BitVec 64) (nodes : List Node) : List Node :=
  nodes.map fun node =>
    if node.address + sizeofBlock = ptr then { node with free := true } else node

/-- No two neighbours on the list are free, and `mergefrag` changes nothing. -/
def Coalesced (place : Placement) (memory : Memory) : Prop :=
  (∃ nodes, Walk memory place.mem nodes ∧ Separated (nodes.map Node.free)) ∧
    Completes (mergefrag place memory) memory

variable {place : Placement} {memory after : Memory} {blocks rest : List Block} {block : Block}
  {ptr : BitVec 64} {live : List Allocation} {calls : List Call} {nodes : List Node}

/-- Only the block of the pointer is marked. -/
theorem markFree_apart (others : ∀ node ∈ nodes, node.address + sizeofBlock ≠ ptr) :
    markFree ptr nodes = nodes := by
  unfold markFree
  rw [List.map_congr_left fun node member => if_neg (others node member)]
  exact List.map_id _

theorem markFree_outside {start : Nat} (bound : start + span 24 blocks < 2 ^ 64)
    (outside : ptr.toNat < start + 24 ∨ start + span 24 blocks < ptr.toNat) :
    markFree ptr (layout start blocks) = layout start blocks := by
  apply markFree_apart
  rintro node member rfl
  rw [layout_eq] at member
  have inside := nodes_inside bound member
  rw [BitVec.toNat_add, sizeofBlock_toNat] at outside
  omega

/-- The flags of the list with the block of a pointer marked free. -/
theorem markFree_flags (before : List Block) {start : Nat}
    (bound : start + span 24 (before ++ block :: rest) < 2 ^ 64)
    (payload : ptr.toNat = start + span 24 before + 24) :
    (markFree ptr (layout start (before ++ block :: rest))).map Node.free =
      flags (before ++ ⟨block.size, true⟩ :: rest) := by
  rw [span_append, span] at bound
  have front : markFree ptr (layout start before) = layout start before :=
    markFree_outside (by omega) (Or.inr (by omega))
  have back : markFree ptr (layout (start + span 24 before + 24 + block.size) rest) =
      layout (start + span 24 before + 24 + block.size) rest :=
    markFree_outside (by omega) (Or.inl (by omega))
  have here : BitVec.ofNat 64 (start + span 24 before) + sizeofBlock = ptr := by
    apply BitVec.eq_of_toNat_eq
    rw [BitVec.toNat_add, BitVec.toNat_ofNat, sizeofBlock_toNat]
    omega
  have split : markFree ptr (layout start (before ++ block :: rest)) =
      markFree ptr (layout start before) ++
        ⟨BitVec.ofNat 64 (start + span 24 before), BitVec.ofNat 64 block.size, true⟩ ::
          markFree ptr (layout (start + span 24 before + 24 + block.size) rest) := by
    rw [markFree, layout_append, List.map_append, layout, List.map_cons, if_pos here]
    rfl
  rw [split, front, back, List.map_append, List.map_cons, layout_flags, layout_flags]
  simp only [flags, List.map_append, List.map_cons]

/-- A free that keeps the list runs the coalescing pass on a list with these flags. -/
theorem HeapHolds.marks_flags (heap : HeapHolds place memory blocks)
    (kept : KeepsList place memory live (.free ptr))
    (accepted : place.mem ≤ ptr ∧ ptr ≤ place.mem + her) (walk : Walk memory place.mem nodes) :
    ∃ marked, HeapHolds place (setFree memory (ptr - sizeofBlock) 1#32) marked ∧
      flags marked = (markFree ptr nodes).map Node.free := by
  rcases kept with rejected | ⟨listed, again, ⟨node, member, rfl⟩ | apart⟩
  · exact absurd accepted rejected
  · rcases heap.onList again member with ⟨before, block, rest, rfl, payload⟩
    refine ⟨_, heap.marked payload, ?_⟩
    rw [walk.unique heap.walk, markFree_flags before heap.bound payload]
  · refine ⟨blocks, heap.marks again apart, ?_⟩
    have others : ∀ node ∈ nodes, node.address + sizeofBlock ≠ ptr := fun node member =>
      payload_ne_of_apart (apart node (walk.unique again ▸ member))
    rw [markFree_apart others, walk.unique heap.walk, layout_flags]

/-- Requests that do not wrap around and frees of used blocks keep the list. -/
theorem keepsList_of_proper {call : Call} (proper : Proper place memory live call) :
    KeepsList place memory live call := by
  cases call with
  | malloc noOfBytes => exact fun overruns => absurd overruns.1 (Nat.not_le_of_lt proper)
  | free ptr =>
      rcases proper with ⟨nodes, node, walk, member, _, same⟩
      exact Or.inr ⟨nodes, walk, Or.inl ⟨node, member, same⟩⟩

/-- After two requests the first pointer leads to a block of the list. -/
theorem two_blocks :
    ∃ memory ptr live,
      Run samplePlacement (KeepsList samplePlacement) [.malloc 400#64, .malloc 400#64] live memory ∧
      KeepsList samplePlacement memory live (.free ptr) ∧
      ptr.toNat = samplePlacement.mem.toNat + 24 ∧
      HeapHolds samplePlacement memory [⟨400, false⟩, ⟨400, false⟩, ⟨9999128, true⟩] := by
  have small : ∀ memory live, KeepsList samplePlacement memory live (.malloc 400#64) :=
    fun memory live => keepsList_of_proper (show _ < _ by decide)
  rcases two_requests (KeepsList samplePlacement) (small _ _) fun _ _ _ => small _ _ with
    ⟨memory, ptr, _, run, payload, _, heap⟩
  have used : UsedOnList samplePlacement memory ptr :=
    heap.usedOnList_iff.mpr ⟨[], _, _, rfl, rfl, payload⟩
  exact ⟨memory, ptr, _, run, keepsList_of_proper used, payload, heap⟩

/-! ## Completion -/

/-- A `pm_free` that keeps the list completes exactly when it rejects its pointer, or the
list, with the block of the pointer marked free, ends in no free block or in an odd number of
them. Otherwise it follows the `next` field of NULL. -/
theorem pmFree_completes_iff (run : Run place (KeepsList place) calls live memory)
    (kept : KeepsList place memory live (.free ptr)) (walk : Walk memory place.mem nodes) :
    ((∃ after, Completes (pmFree place memory ptr) after) ↔
      ¬ (place.mem ≤ ptr ∧ ptr ≤ place.mem + her) ∨
        freeAtEnd ((markFree ptr nodes).map Node.free) = 0 ∨
          freeAtEnd ((markFree ptr nodes).map Node.free) % 2 = 1) ∧
    ((∀ after, ¬ Completes (pmFree place memory ptr) after) →
      Crashes (pmFree place memory ptr)) := by
  by_cases accepted : place.mem ≤ ptr ∧ ptr ≤ place.mem + her
  · rcases run_keepsList run with ⟨blocks, heap⟩
    rcases heap.marks_flags kept accepted walk with ⟨marked, released, sameFlags⟩
    rcases released.coalesces with ⟨done, crash⟩
    rw [or_iff_right (not_not_intro accepted), ← sameFlags,
      ← coalesce_isSome_iff 24 released.inhabited]
    rw [← pmFree_of_accepted accepted] at done crash
    cases pass : coalesce 24 marked with
    | none =>
        have never := (pmFree_stable place memory ptr).not_completes (crash pass)
        constructor
        · simp only [Option.isSome_none, Bool.false_eq_true, iff_false, not_exists]
          exact never
        · intro _
          exact crash pass
    | some merged =>
        rcases done merged pass with ⟨after, completes, _⟩
        constructor
        · simp only [Option.isSome_some, iff_true]
          exact ⟨after, completes⟩
        · intro never
          exact absurd completes (never after)
  · have rejected : Completes (pmFree place memory ptr) memory := ⟨0, if_neg accepted⟩
    exact ⟨iff_of_true ⟨memory, rejected⟩ (Or.inl accepted), fun never =>
      absurd rejected (never memory)⟩

/-- After two requests `pm_free` of the first block returns. -/
theorem pmFree_completes_after_two_requests :
    ∃ calls live memory ptr, Run samplePlacement (KeepsList samplePlacement) calls live memory ∧
      ∃ after, Completes (pmFree samplePlacement memory ptr) after := by
  rcases two_blocks with ⟨memory, ptr, live, run, kept, payload, heap⟩
  refine ⟨_, _, memory, ptr, run, (pmFree_completes_iff run kept heap.walk).1.mpr ?_⟩
  have marked := markFree_flags [] heap.bound payload
  rw [List.nil_append] at marked
  rw [marked]
  exact Or.inr (Or.inr (by decide))

/-- After a single request for 400 bytes, `pm_free` of the pointer it returned does
not complete. -/
theorem pmFree_crashes_after_one_request :
    ¬ ∀ (place : Placement) calls live memory, Run place OnLive calls live memory →
      ∀ allocation ∈ live, ∃ after, Completes (pmFree place memory allocation.ptr) after := by
  intro always
  rcases first_request with ⟨memory, ptr, done, payload, heap⟩
  have run : Run samplePlacement OnLive [.malloc 400#64] (allocated [] 400#64 ptr) memory :=
    .malloc (.start (zeroMemory_zeroed _)) trivial done
  have notNull : ptr ≠ 0#64 := ne_null (by rw [sizeofBlock_toNat]; omega)
  have live : allocated [] 400#64 ptr = [⟨ptr, 400#64⟩] := if_neg notNull
  obtain ⟨after, completes⟩ := always samplePlacement _ _ memory run ⟨ptr, 400#64⟩
    (by rw [live]; exact List.mem_singleton_self _)
  have whole : HeapHolds samplePlacement memory ([] ++ ⟨400, false⟩ :: [⟨9999552, true⟩]) := heap
  have crashes := (free_spec whole payload).2 rfl
  exact (pmFree_stable samplePlacement memory ptr).not_completes crashes after completes

/-! ## Coalescing -/

/-- A list without free neighbours is left as it is. -/
theorem HeapHolds.coalesced_iff (heap : HeapHolds place memory blocks) :
    Coalesced place memory ↔ Separated (flags blocks) := by
  constructor
  · rintro ⟨⟨found, walk, separated⟩, _⟩
    rwa [walk.unique heap.walk, layout_flags] at separated
  · intro separated
    refine ⟨⟨_, heap.walk, ?_⟩, ?_⟩
    · rwa [layout_flags]
    · rcases merge_separated heap.holds heap.inhabited place.notNull heap.bound separated with
        ⟨last, completes⟩
      exact completes.map Prod.fst

/-- When a `pm_free` that keeps the list returns, the list is coalesced exactly when no three
neighbours were free once the block of the pointer was marked free, or, where the pointer is
rejected, no two neighbours were free before. -/
theorem pmFree_coalesced_iff (run : Run place (KeepsList place) calls live memory)
    (kept : KeepsList place memory live (.free ptr)) (walk : Walk memory place.mem nodes)
    (returns : Completes (pmFree place memory ptr) after) :
    Coalesced place after ↔
      if place.mem ≤ ptr ∧ ptr ≤ place.mem + her then
        NoTriple ((markFree ptr nodes).map Node.free)
      else Separated (nodes.map Node.free) := by
  rcases run_keepsList run with ⟨blocks, heap⟩
  by_cases accepted : place.mem ≤ ptr ∧ ptr ≤ place.mem + her
  · rcases heap.marks_flags kept accepted walk with ⟨marked, released, sameFlags⟩
    rw [pmFree_of_accepted accepted] at returns
    rcases released.merges returns with ⟨merged, pass, mergedHeap⟩
    rw [if_pos accepted, ← sameFlags, ← coalesce_separated_iff pass]
    exact mergedHeap.coalesced_iff
  · rcases returns with ⟨fuel, done⟩
    rw [pmFree, if_neg accepted] at done
    cases done
    rw [if_neg accepted, heap.coalesced_iff, walk.unique heap.walk, layout_flags]

/-- After two requests, `pm_free` of the first block leaves no free neighbours. -/
theorem pmFree_coalesced_after_two_requests :
    ∃ calls live memory ptr after,
      Run samplePlacement (KeepsList samplePlacement) calls live memory ∧
        Completes (pmFree samplePlacement memory ptr) after ∧ Coalesced samplePlacement after := by
  rcases two_blocks with ⟨memory, ptr, live, run, kept, payload, heap⟩
  rcases first_free heap payload with ⟨after, freed, _⟩
  refine ⟨_, _, memory, ptr, after, run, freed,
    (pmFree_coalesced_iff run kept heap.walk freed).mpr ?_⟩
  have front : HeapHolds samplePlacement memory ([] ++ ⟨400, false⟩ :: _) := heap
  have marked := markFree_flags [] heap.bound payload
  rw [List.nil_append] at marked
  rw [if_pos (front.accepted payload), marked]
  exact ⟨by decide, trivial⟩

/-- Freeing both of two blocks for 400 bytes leaves two free neighbours. -/
theorem not_coalesced_after_two_frees :
    ¬ ∀ (place : Placement) calls live memory, Run place OnLive calls live memory →
      ∀ allocation ∈ live, ∀ after, Completes (pmFree place memory allocation.ptr) after →
        Coalesced place after := by
  intro always
  rcases first_freed with ⟨third, secondPtr, run, secondPayload, heap⟩
  have split : HeapHolds samplePlacement third
      ([⟨400, true⟩] ++ ⟨400, false⟩ :: [⟨9999128, true⟩]) := heap
  obtain ⟨after, completes, merged⟩ :=
    (free_spec split secondPayload).1 [⟨824, true⟩, ⟨9999128, true⟩] rfl
  obtain ⟨⟨nodes, walk, separated⟩, _⟩ := always samplePlacement _ _ third run
    ⟨secondPtr, 400#64⟩ List.mem_cons_self after completes
  obtain rfl := walk.unique merged.walk
  rw [layout_flags] at separated
  exact absurd separated (by decide)

end ComputerSystems.Heap

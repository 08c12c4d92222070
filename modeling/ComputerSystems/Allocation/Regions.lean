import ComputerSystems.Allocation.BlockList

/-!
# Where the bytes of a block list go

Merging turns blocks into larger ones that take the same bytes: every free block of the
merged list is a union of free neighbours, with the headers between them. Splitting
makes a used block and a free tail of one block; a tail that is smaller than a header
takes in the block behind it when that one is free.
-/

namespace ComputerSystems.Allocation

variable {header start : Nat}

/-! ## Unions of free neighbours -/

/-- A cell takes the bytes of neighbours of a list that are all free. -/
def UnionOfFree (header start : Nat) (blocks : List Block) (cell : Nat × Block) : Prop :=
  ∃ before group rest, blocks = before ++ (group ++ rest) ∧ group ≠ [] ∧
    (∀ block ∈ group, block.free = true) ∧ cell.1 = start + span header before ∧
    header + cell.2.size = span header group

/-- One list takes the same bytes as another, with the same used blocks and with unions
of its free ones. -/
structure Merged (header start : Nat) (blocks merged : List Block) : Prop where
  span : span header merged = span header blocks
  used : payloads header start merged = payloads header start blocks
  free : ∀ cell ∈ cells header start merged, cell.2.free = true →
    UnionOfFree header start blocks cell

theorem unionOfFree_head {block : Block} (free : block.free = true) (rest : List Block) :
    UnionOfFree header start (block :: rest) (start, block) :=
  ⟨[], [block], rest, rfl, List.cons_ne_nil _ _, by simpa using free, rfl, rfl⟩

/-- Blocks in front of a list do not matter. -/
theorem UnionOfFree.behind {blocks : List Block} {cell : Nat × Block} (front : List Block)
    (union : UnionOfFree header (start + span header front) blocks cell) :
    UnionOfFree header start (front ++ blocks) cell := by
  rcases union with ⟨before, group, rest, rfl, inhabited, free, address, room⟩
  refine ⟨front ++ before, group, rest, (List.append_assoc _ _ _).symm, inhabited, free, ?_, room⟩
  rw [address, span_append, Nat.add_assoc]

theorem coalesce_unions {blocks merged : List Block}
    (pass : coalesce header blocks = some merged) :
    ∀ cell ∈ cells header start merged, cell.2.free = true →
      UnionOfFree header start blocks cell := by
  induction blocks using coalesce.induct generalizing merged start with
  | case1 => cases pass
  | case2 block =>
      obtain rfl := Option.some.inj pass
      intro cell member free
      obtain rfl := List.mem_singleton.mp member
      exact unionOfFree_head free []
  | case3 first second rest both ih =>
      rw [coalesce, if_pos both, Option.map_eq_some_iff] at pass
      rcases pass with ⟨tail, passed, rfl⟩
      intro cell member free
      rcases List.mem_cons.mp member with rfl | later
      · refine ⟨[], [first, second], rest, rfl, List.cons_ne_nil _ _, ?_, rfl, ?_⟩
        · simpa using both
        · simp only [span]
          omega
      · have address : start + header + (first.size + (second.size + header)) =
            start + span header [first, second] := by
          simp only [span]
          omega
        dsimp only at later
        rw [address] at later
        exact (ih passed cell later free).behind [first, second]
  | case4 first second rest neither ih =>
      rw [coalesce, if_neg neither, Option.map_eq_some_iff] at pass
      rcases pass with ⟨tail, passed, rfl⟩
      intro cell member free
      rcases List.mem_cons.mp member with rfl | later
      · exact unionOfFree_head free (second :: rest)
      · have address : start + header + first.size = start + span header [first] := by
          simp only [span]
          omega
        rw [address] at later
        exact (ih passed cell later free).behind [first]

/-- The coalescing pass merges. -/
theorem coalesce_merged {blocks merged : List Block} (start : Nat)
    (pass : coalesce header blocks = some merged) : Merged header start blocks merged where
  span := coalesce_span pass
  used := coalesce_payloads pass
  free := coalesce_unions pass

/-! ## Splitting off a request -/

/-- A block in front of others, which takes in the first of these when it is free and the
block is smaller than a header. -/
def absorb (header : Nat) (block : Block) : List Block → List Block
  | [] => [block]
  | next :: rest =>
      if block.size < header ∧ next.free = true then
        ⟨block.size + (next.size + header), block.free⟩ :: rest
      else block :: next :: rest

/-- A request is split off the front of a block. -/
def splitOff (header request : Nat) (block : Block) (rest : List Block) : List Block :=
  ⟨request, false⟩ :: absorb header ⟨block.size - request - header, true⟩ rest

/-- Where the tail ends that is left of a block. -/
def tailEnd (header ending tail : Nat) : List Block → Nat
  | [] => ending
  | next :: _ => if tail < header ∧ next.free = true then ending + header + next.size else ending

/-- In a list that is made from another one by splitting a request off one of its blocks,
the request has a used block, the other used blocks are still there, and a free block takes
the bytes behind the request. -/
structure SplitsOff (header start request : Nat) (before : List Block) (block : Block)
    (rest split : List Block) : Prop where
  span : span header split = span header (before ++ block :: rest)
  chosen : (start + Allocation.span header before + header, request) ∈ payloads header start split
  others : ∀ payload ∈ payloads header start (before ++ block :: rest),
    payload.1 ≠ start + Allocation.span header before + header →
      payload ∈ payloads header start split
  tail : ∃ size,
    (start + Allocation.span header before + header + request, ⟨size, true⟩) ∈
      cells header start split ∧
    start + Allocation.span header before + header + request + header + size =
      tailEnd header (start + Allocation.span header before + header + block.size)
        (block.size - request - header) rest

theorem absorb_span (block : Block) (rest : List Block) :
    span header (absorb header block rest) = span header (block :: rest) := by
  cases rest with
  | nil => rfl
  | cons next rest =>
      rw [absorb]
      split
      · simp only [span]
        omega
      · rfl

/-- A free block takes in no used one. -/
theorem absorb_payloads {block : Block} (free : block.free = true) (rest : List Block) :
    payloads header start (absorb header block rest) =
      payloads header (start + header + block.size) rest := by
  cases rest with
  | nil => simp [absorb, payloads, free]
  | cons next rest =>
      rw [absorb]
      split
      · rename_i both
        have address : start + header + (block.size + (next.size + header)) =
            start + header + block.size + header + next.size := by omega
        simp only [payloads, free, both.2, if_true, address]
      · rw [payloads, if_pos free]

/-- The block itself after it has taken in another one. -/
theorem absorb_head (block : Block) (rest : List Block) :
    ∃ size behind, absorb header block rest = ⟨size, block.free⟩ :: behind ∧
      ∀ address, address + header + size =
        tailEnd header (address + header + block.size) block.size rest := by
  cases rest with
  | nil => exact ⟨block.size, [], rfl, fun _ => rfl⟩
  | cons next rest =>
      rw [absorb]
      split
      · rename_i both
        refine ⟨_, rest, rfl, ?_⟩
        intro address
        rw [tailEnd, if_pos both]
        omega
      · rename_i neither
        refine ⟨_, next :: rest, rfl, ?_⟩
        intro address
        rw [tailEnd, if_neg neither]

theorem splitOff_span {request : Nat} {block : Block} (room : request + header ≤ block.size)
    (rest : List Block) :
    span header (splitOff header request block rest) = span header (block :: rest) := by
  rw [splitOff, span, absorb_span, span, span]
  dsimp only
  omega

/-- Splitting a request off a block that is larger leaves the other used blocks alone. -/
theorem splitOff_splitsOff {request : Nat} {before : List Block} {block : Block}
    (rest : List Block) (room : request + header ≤ block.size) :
    SplitsOff header start request before block rest
      (before ++ splitOff header request block rest) := by
  have ending : start + span header before + header + request + header +
      (block.size - request - header) = start + span header before + header + block.size := by
    omega
  have payloads_eq : payloads header start (before ++ splitOff header request block rest) =
      payloads header start before ++ (start + span header before + header, request) ::
        payloads header (start + span header before + header + block.size) rest := by
    rw [payloads_append, splitOff, payloads, if_neg Bool.false_ne_true, absorb_payloads rfl,
      ending]
  constructor
  · rw [span_append, span_append, splitOff_span room]
  · rw [payloads_eq]
    exact List.mem_append_right _ List.mem_cons_self
  · intro payload member other
    rw [payloads_eq, List.mem_append, List.mem_cons]
    rcases payloads_beside member (Or.inr other) with front | behind
    · exact Or.inl front
    · exact Or.inr (Or.inr behind)
  · rcases absorb_head ⟨block.size - request - header, true⟩ rest with
      ⟨size, behind, absorbed, ends⟩
    refine ⟨size, ?_, ?_⟩
    · rw [cells_append, splitOff, cells, absorbed, cells]
      exact List.mem_append_right _ (List.mem_cons_of_mem _ List.mem_cons_self)
    · rw [ends, ending]

end ComputerSystems.Allocation

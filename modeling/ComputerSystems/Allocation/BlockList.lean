import Mathlib.Algebra.Group.Nat.Even
import Mathlib.Data.List.Chain
import Mathlib.Data.List.DropRight
import Mathlib.Data.List.Perm.Basic

/-!
# Block lists

An allocator that keeps a header in front of every block is described by the
list of its blocks in address order. The blocks tile a range of addresses, a
request is placed in the first free block that is large enough or in the last
block, and released blocks are merged by one pass over the list. The pass looks
at a block and its successor; after a merge it goes on behind both, so it is
undefined when it has merged the last two blocks, and it leaves two free
neighbours where three were.
-/

namespace ComputerSystems.Allocation

/-- The payload size of a block, and whether it is free. -/
structure Block where
  size : Nat
  free : Bool

/-- The numbers of bytes that blocks take, each with its header. -/
def span (header : Nat) : List Block → Nat
  | [] => 0
  | block :: rest => header + block.size + span header rest

/-- Address and size of the payloads of the used blocks, from a start address
on. -/
def payloads (header : Nat) : Nat → List Block → List (Nat × Nat)
  | _, [] => []
  | start, block :: rest =>
      if block.free then payloads header (start + header + block.size) rest
      else (start + header, block.size) :: payloads header (start + header + block.size) rest

/-- The blocks of a list with the addresses of their headers, from a start address on. -/
def cells (header : Nat) : Nat → List Block → List (Nat × Block)
  | _, [] => []
  | start, block :: rest => (start, block) :: cells header (start + header + block.size) rest

/-- The header addresses of blocks from a start address on. -/
def headers (header : Nat) : Nat → List Block → List Nat
  | _, [] => []
  | start, block :: rest => start :: headers header (start + header + block.size) rest

/-- The pass that merges free neighbours, undefined where it runs off the end of
the list. -/
def coalesce (header : Nat) : List Block → Option (List Block)
  | [] => none
  | [block] => some [block]
  | first :: second :: rest =>
      if first.free ∧ second.free then
        (coalesce header rest).map (⟨first.size + (second.size + header), true⟩ :: ·)
      else (coalesce header (second :: rest)).map (first :: ·)

/-- The flags of blocks. -/
def flags (blocks : List Block) : List Bool :=
  blocks.map Block.free

/-- The number of free blocks at the end of the list. -/
def freeAtEnd (flags : List Bool) : Nat :=
  (flags.rtakeWhile id).length

/-- No two neighbours are free. -/
def Separated (flags : List Bool) : Prop :=
  flags.IsChain fun left right => ¬ (left = true ∧ right = true)

instance : DecidablePred Separated := fun flags =>
  inferInstanceAs (Decidable (flags.IsChain fun left right => ¬ (left = true ∧ right = true)))

/-- No three consecutive blocks are free. -/
def NoTriple : List Bool → Prop
  | first :: second :: third :: rest =>
      ¬ (first = true ∧ second = true ∧ third = true) ∧ NoTriple (second :: third :: rest)
  | _ => True

variable {header : Nat}

/-! ## Cells

A cell is a block with the address of its header. -/

theorem span_append (first second : List Block) :
    span header (first ++ second) = span header first + span header second := by
  induction first with
  | nil => simp [span]
  | cons block rest ih =>
      rw [List.cons_append, span, span, ih]
      omega

theorem cells_append (start : Nat) (first second : List Block) :
    cells header start (first ++ second) =
      cells header start first ++ cells header (start + span header first) second := by
  induction first generalizing start with
  | nil => rfl
  | cons block rest ih =>
      have address : start + header + block.size + span header rest =
          start + span header (block :: rest) := by
        rw [span]
        omega
      rw [List.cons_append, cells, cells, ih, address, List.cons_append]

/-- Every cell lies in the range of the list. -/
theorem cells_inside {start : Nat} {blocks : List Block} {cell : Nat × Block}
    (member : cell ∈ cells header start blocks) :
    start ≤ cell.1 ∧ cell.1 + header + cell.2.size ≤ start + span header blocks := by
  induction blocks generalizing start with
  | nil => exact absurd member List.not_mem_nil
  | cons block rest ih =>
      rw [cells, List.mem_cons] at member
      rw [span]
      rcases member with rfl | later
      · dsimp only
        omega
      · have inside := ih later
        omega

/-- Every cell is a block of the list. -/
theorem mem_cells {start : Nat} {blocks : List Block} {cell : Nat × Block}
    (member : cell ∈ cells header start blocks) :
    ∃ before rest, blocks = before ++ cell.2 :: rest ∧ cell.1 = start + span header before := by
  induction blocks generalizing start with
  | nil => exact absurd member List.not_mem_nil
  | cons block blocks ih =>
      rw [cells, List.mem_cons] at member
      rcases member with rfl | later
      · exact ⟨[], blocks, rfl, rfl⟩
      · rcases ih later with ⟨before, rest, split, address⟩
        refine ⟨block :: before, rest, ?_, ?_⟩
        · rw [split, List.cons_append]
        · rw [address, span]
          omega

/-- The cells follow one another. -/
theorem cells_pairwise (start : Nat) (blocks : List Block) :
    (cells header start blocks).Pairwise fun left right =>
      left.1 + header + left.2.size ≤ right.1 := by
  induction blocks generalizing start with
  | nil => exact List.Pairwise.nil
  | cons block rest ih =>
      refine List.Pairwise.cons ?_ (ih _)
      intro cell member
      exact (cells_inside member).1

/-- Two cells of a list are the same or do not overlap. -/
theorem cells_apart {start : Nat} {blocks : List Block} {left right : Nat × Block}
    (leftMember : left ∈ cells header start blocks)
    (rightMember : right ∈ cells header start blocks) :
    left = right ∨ left.1 + header + left.2.size ≤ right.1 ∨
      right.1 + header + right.2.size ≤ left.1 := by
  let apart : Nat × Block → Nat × Block → Prop := fun left right => left = right ∨
    left.1 + header + left.2.size ≤ right.1 ∨ right.1 + header + right.2.size ≤ left.1
  have symmetric : Std.Symm apart := ⟨fun _ _ either => either.imp Eq.symm Or.symm⟩
  have ordered : (cells header start blocks).Pairwise apart :=
    (cells_pairwise start blocks).imp fun before => Or.inr (Or.inl before)
  have same : ∀ cell ∈ cells header start blocks, apart cell cell := fun _ _ => Or.inl rfl
  exact ordered.forall_of_forall same leftMember rightMember

/-- The cells of a list in which a block was replaced by others that take the same room. -/
theorem mem_cells_replace {start : Nat} {before rest parts : List Block} {block : Block}
    {cell : Nat × Block} (room : span header parts = header + block.size) :
    cell ∈ cells header start (before ++ (parts ++ rest)) ↔
      cell ∈ cells header start before ∨ cell ∈ cells header (start + span header before) parts ∨
        cell ∈ cells header (start + span header before + header + block.size) rest := by
  rw [cells_append, cells_append, List.mem_append, List.mem_append, room,
    ← Nat.add_assoc (start + span header before)]

/-- The cells of a list beside one of its blocks. -/
theorem mem_cells_split {start : Nat} {before rest : List Block} {block : Block}
    {cell : Nat × Block} :
    cell ∈ cells header start (before ++ block :: rest) ↔
      cell ∈ cells header start before ∨ cell = (start + span header before, block) ∨
        cell ∈ cells header (start + span header before + header + block.size) rest := by
  rw [cells_append, cells, List.mem_append, List.mem_cons]

theorem cell_mem_cells (start : Nat) (before rest : List Block) (block : Block) :
    (start + span header before, block) ∈ cells header start (before ++ block :: rest) :=
  mem_cells_split.mpr (Or.inr (Or.inl rfl))

/-- An address is that of one cell only. -/
theorem cells_unique {start : Nat} {blocks : List Block} {cell other : Nat × Block}
    (behind : 0 < header) (member : cell ∈ cells header start blocks)
    (also : other ∈ cells header start blocks) (same : other.1 = cell.1) : other = cell := by
  rcases cells_apart also member with equal | before | after
  · exact equal
  · omega
  · omega

/-! ## Headers and payloads -/

theorem headers_eq (start : Nat) (blocks : List Block) :
    headers header start blocks = (cells header start blocks).map Prod.fst := by
  induction blocks generalizing start with
  | nil => rfl
  | cons block rest ih => rw [headers, cells, ih, List.map_cons]

theorem payloads_eq (start : Nat) (blocks : List Block) :
    payloads header start blocks =
      ((cells header start blocks).filter fun cell => !cell.2.free).map
        fun cell => (cell.1 + header, cell.2.size) := by
  induction blocks generalizing start with
  | nil => rfl
  | cons block rest ih =>
      rw [payloads, cells, ih, List.filter_cons]
      cases block.free <;> rfl

theorem payloads_append (start : Nat) (first second : List Block) :
    payloads header start (first ++ second) =
      payloads header start first ++ payloads header (start + span header first) second := by
  simp only [payloads_eq, cells_append, List.filter_append, List.map_append]

/-- Every header lies in the range of the list. -/
theorem headers_inside {start address : Nat} {blocks : List Block}
    (member : address ∈ headers header start blocks) :
    start ≤ address ∧ address + header ≤ start + span header blocks := by
  rw [headers_eq] at member
  rcases List.mem_map.mp member with ⟨cell, listed, rfl⟩
  have inside := cells_inside listed
  omega

/-- Every payload is that of a used cell. -/
theorem exists_payload_cell {start : Nat} {blocks : List Block} {payload : Nat × Nat}
    (member : payload ∈ payloads header start blocks) :
    ∃ cell ∈ cells header start blocks, cell.2.free = false ∧
      payload = (cell.1 + header, cell.2.size) := by
  rw [payloads_eq] at member
  rcases List.mem_map.mp member with ⟨cell, listed, rfl⟩
  rcases List.mem_filter.mp listed with ⟨known, used⟩
  exact ⟨cell, known, Bool.not_eq_true' _ ▸ used, rfl⟩

/-- Every payload of a used block lies in the range of the list, behind a
header. -/
theorem payloads_inside {start : Nat} {blocks : List Block} {payload : Nat × Nat}
    (member : payload ∈ payloads header start blocks) :
    start + header ≤ payload.1 ∧ payload.1 + payload.2 ≤ start + span header blocks := by
  rcases exists_payload_cell member with ⟨cell, listed, _, rfl⟩
  have inside := cells_inside listed
  dsimp only
  omega

/-- The payloads of used blocks follow one another, with a header between
them. -/
theorem payloads_pairwise (start : Nat) (blocks : List Block) :
    (payloads header start blocks).Pairwise fun left right =>
      left.1 + left.2 + header ≤ right.1 := by
  rw [payloads_eq, List.pairwise_map]
  apply ((cells_pairwise start blocks).filter _).imp
  intro left right before
  omega

/-- Every payload is that of a used block of the list. -/
theorem mem_payloads {start : Nat} {blocks : List Block} {payload : Nat × Nat}
    (member : payload ∈ payloads header start blocks) :
    ∃ before block after, blocks = before ++ block :: after ∧ block.free = false ∧
      payload = (start + span header before + header, block.size) := by
  rcases exists_payload_cell member with ⟨cell, listed, used, rfl⟩
  rcases mem_cells listed with ⟨before, after, split, address⟩
  exact ⟨before, cell.2, after, split, used, by rw [address]⟩

/-- No payload of a used block touches a header. -/
theorem payloads_headers {start address : Nat} {blocks : List Block} {payload : Nat × Nat}
    (member : payload ∈ payloads header start blocks)
    (headerMember : address ∈ headers header start blocks) :
    payload.1 + payload.2 ≤ address ∨ address + header ≤ payload.1 := by
  rcases exists_payload_cell member with ⟨cell, listed, _, rfl⟩
  rw [headers_eq] at headerMember
  rcases List.mem_map.mp headerMember with ⟨other, also, rfl⟩
  rcases cells_apart listed also with rfl | before | after
  · exact Or.inr (Nat.le_refl _)
  · exact Or.inl (by dsimp only; omega)
  · exact Or.inr (by dsimp only; omega)

/-- The payloads of a list but that of one block lie in front of this block or behind
it. -/
theorem payloads_beside {start : Nat} {before rest : List Block} {block : Block}
    {payload : Nat × Nat} (member : payload ∈ payloads header start (before ++ block :: rest))
    (other : block.free = true ∨ payload.1 ≠ start + span header before + header) :
    payload ∈ payloads header start before ∨
      payload ∈ payloads header (start + span header before + header + block.size) rest := by
  rw [payloads_append, payloads, List.mem_append] at member
  rcases member with front | behind
  · exact Or.inl front
  · split at behind
    · exact Or.inr behind
    · rename_i used
      rcases List.mem_cons.mp behind with rfl | later
      · exact absurd rfl (other.resolve_left used)
      · exact Or.inr later

/-- Payloads in front of a block and behind it stay where they are when the block is
replaced by others that take the same room. -/
theorem mem_payloads_replace {start : Nat} {before rest parts : List Block} {block : Block}
    {payload : Nat × Nat} (room : span header parts = header + block.size)
    (beside : payload ∈ payloads header start before ∨
      payload ∈ payloads header (start + span header before + header + block.size) rest) :
    payload ∈ payloads header start (before ++ (parts ++ rest)) := by
  rw [payloads_append, payloads_append, List.mem_append, List.mem_append, room, ← Nat.add_assoc]
  exact beside.imp_right Or.inr

/-- The payload of a used block. -/
theorem payload_mem_payloads (start : Nat) (before rest : List Block) {block : Block}
    (used : block.free = false) :
    (start + span header before + header, block.size) ∈
      payloads header start (before ++ block :: rest) := by
  rw [payloads_append, payloads, used]
  exact List.mem_append_right _ List.mem_cons_self

/-- Payloads at different addresses do not overlap. -/
theorem payloads_apart {start : Nat} {blocks : List Block} {left right : Nat × Nat}
    (leftMember : left ∈ payloads header start blocks)
    (rightMember : right ∈ payloads header start blocks) (different : left.1 ≠ right.1) :
    left.1 + left.2 + header ≤ right.1 ∨ right.1 + right.2 + header ≤ left.1 := by
  rcases exists_payload_cell leftMember with ⟨cell, listed, _, rfl⟩
  rcases exists_payload_cell rightMember with ⟨other, also, _, rfl⟩
  rcases cells_apart listed also with rfl | before | after
  · exact absurd rfl different
  · exact Or.inl (by dsimp only; omega)
  · exact Or.inr (by dsimp only; omega)

/-! ## Merging free neighbours -/

theorem coalesce_span {blocks merged : List Block} (pass : coalesce header blocks = some merged) :
    span header merged = span header blocks := by
  induction blocks using coalesce.induct generalizing merged with
  | case1 => cases pass
  | case2 block =>
      obtain rfl := Option.some.inj pass
      rfl
  | case3 first second rest both ih =>
      rw [coalesce, if_pos both, Option.map_eq_some_iff] at pass
      rcases pass with ⟨tail, passed, rfl⟩
      simp only [span, ih passed]
      omega
  | case4 first second rest neither ih =>
      rw [coalesce, if_neg neither, Option.map_eq_some_iff] at pass
      rcases pass with ⟨tail, passed, rfl⟩
      simp only [span, ih passed]

/-- The pass leaves every used block where it is. -/
theorem coalesce_payloads {blocks merged : List Block} {start : Nat}
    (pass : coalesce header blocks = some merged) :
    payloads header start merged = payloads header start blocks := by
  induction blocks using coalesce.induct generalizing merged start with
  | case1 => cases pass
  | case2 block =>
      obtain rfl := Option.some.inj pass
      rfl
  | case3 first second rest both ih =>
      rw [coalesce, if_pos both, Option.map_eq_some_iff] at pass
      rcases pass with ⟨tail, passed, rfl⟩
      have address : start + header + (first.size + (second.size + header)) =
          start + header + first.size + header + second.size := by omega
      simp only [payloads, both.1, both.2, if_true, address]
      exact ih passed
  | case4 first second rest neither ih =>
      rw [coalesce, if_neg neither, Option.map_eq_some_iff] at pass
      rcases pass with ⟨tail, passed, rfl⟩
      rw [payloads, payloads, ih passed]

theorem freeAtEnd_of_all {flags : List Bool} (all : ∀ flag ∈ flags, flag = true) :
    freeAtEnd flags = flags.length := by
  have whole : flags.rtakeWhile id = flags := List.rtakeWhile_eq_self_iff.mpr all
  rw [freeAtEnd, whole]

theorem freeAtEnd_cons_of_mem {flag : Bool} {rest : List Bool} (used : false ∈ rest) :
    freeAtEnd (flag :: rest) = freeAtEnd rest := by
  have partly : ¬ (rest.reverse.takeWhile id).length = rest.reverse.length := by
    intro same
    have whole := (List.takeWhile_prefix id).eq_of_length same
    have taken := List.takeWhile_eq_self_iff.mp whole false (List.mem_reverse.mpr used)
    cases taken
  rw [freeAtEnd, freeAtEnd, List.rtakeWhile, List.rtakeWhile, List.reverse_cons,
    List.takeWhile_append, if_neg partly]

/-- All flags are set, or one of them is not. -/
theorem all_or_mem_false (flags : List Bool) :
    (∀ flag ∈ flags, flag = true) ∨ false ∈ flags := by
  by_cases used : false ∈ flags
  · exact Or.inr used
  · refine Or.inl fun flag member => ?_
    cases flag with
    | true => rfl
    | false => exact absurd member used

theorem freeAtEnd_cons_false (rest : List Bool) : freeAtEnd (false :: rest) = freeAtEnd rest := by
  rcases all_or_mem_false rest with all | used
  · have reversed : ∀ flag ∈ rest.reverse, flag = true := fun flag member =>
      all flag (List.mem_reverse.mp member)
    have whole : (rest.reverse ++ [false]).takeWhile id = rest.reverse := by
      rw [List.takeWhile_append_of_pos (p := id) reversed]
      exact List.append_nil _
    rw [freeAtEnd_of_all all, freeAtEnd, List.rtakeWhile, List.reverse_cons, whole,
      List.reverse_reverse]
  · exact freeAtEnd_cons_of_mem used

/-- Two more free blocks in front do not change how the pass ends. -/
theorem freeAtEnd_cons_true_cons_true (rest : List Bool) :
    freeAtEnd (true :: true :: rest) = freeAtEnd rest ∨
      freeAtEnd (true :: true :: rest) = freeAtEnd rest + 2 ∧ freeAtEnd rest = rest.length := by
  rcases all_or_mem_false rest with all | used
  · have whole : ∀ flag ∈ true :: true :: rest, flag = true := by
      simpa using all
    rw [freeAtEnd_of_all whole, freeAtEnd_of_all all]
    exact Or.inr ⟨rfl, rfl⟩
  · have later : false ∈ true :: rest := List.mem_cons_of_mem _ used
    rw [freeAtEnd_cons_of_mem later, freeAtEnd_cons_of_mem used]
    exact Or.inl rfl

/-- The pass is defined when no free block or an odd number of them ends the
list. -/
theorem coalesce_isSome_iff (header : Nat) {blocks : List Block} (inhabited : blocks ≠ []) :
    (coalesce header blocks).isSome ↔
      freeAtEnd (flags blocks) = 0 ∨ freeAtEnd (flags blocks) % 2 = 1 := by
  induction blocks using coalesce.induct with
  | case1 => exact absurd rfl inhabited
  | case2 block =>
      simp only [coalesce, Option.isSome_some, true_iff, flags, List.map_cons, List.map_nil]
      cases block.free with
      | true => exact Or.inr rfl
      | false => exact Or.inl rfl
  | case3 first second rest both ih =>
      have marks : flags (first :: second :: rest) = true :: true :: flags rest := by
        rw [flags, List.map_cons, List.map_cons, both.1, both.2, flags]
      rw [coalesce, if_pos both, Option.isSome_map, marks]
      by_cases empty : rest = []
      · subst empty
        simp only [coalesce, Option.isSome_none, Bool.false_eq_true, false_iff]
        decide
      · rw [ih empty]
        have positive : 0 < (flags rest).length := by
          rw [flags, List.length_map]
          exact List.length_pos_of_ne_nil empty
        rcases freeAtEnd_cons_true_cons_true (flags rest) with same | ⟨more, whole⟩
        · rw [same]
        · omega
  | case4 first second rest neither ih =>
      rw [coalesce, if_neg neither, Option.isSome_map, ih (List.cons_ne_nil _ _)]
      have same : freeAtEnd (flags (first :: second :: rest)) =
          freeAtEnd (flags (second :: rest)) := by
        rw [flags, List.map_cons, flags]
        cases firstFree : first.free with
        | false => exact freeAtEnd_cons_false _
        | true =>
            have used : second.free = false := by
              simpa only [firstFree, true_and, Bool.not_eq_true] using neither
            apply freeAtEnd_cons_of_mem
            rw [List.map_cons, used]
            exact List.mem_cons_self
      rw [same]

/-- The pass keeps the flag of the first block. -/
theorem coalesce_head {block : Block} {rest merged : List Block}
    (pass : coalesce header (block :: rest) = some merged) :
    ∃ first tail, merged = first :: tail ∧ first.free = block.free := by
  cases rest with
  | nil =>
      obtain rfl := Option.some.inj pass
      exact ⟨block, [], rfl, rfl⟩
  | cons second rest =>
      rw [coalesce] at pass
      split at pass
      · rename_i both
        rcases Option.map_eq_some_iff.mp pass with ⟨tail, _, rfl⟩
        exact ⟨_, tail, rfl, both.1.symm⟩
      · rcases Option.map_eq_some_iff.mp pass with ⟨tail, _, rfl⟩
        exact ⟨block, tail, rfl, rfl⟩

/-- The pass makes the first block no smaller. -/
theorem coalesce_head_size {block : Block} {rest merged : List Block}
    (pass : coalesce header (block :: rest) = some merged) :
    ∃ first tail, merged = first :: tail ∧ block.size ≤ first.size := by
  cases rest with
  | nil =>
      obtain rfl := Option.some.inj pass
      exact ⟨block, [], rfl, Nat.le_refl _⟩
  | cons second rest =>
      rw [coalesce] at pass
      split at pass
      · rcases Option.map_eq_some_iff.mp pass with ⟨tail, _, rfl⟩
        exact ⟨_, tail, rfl, Nat.le_add_right _ _⟩
      · rcases Option.map_eq_some_iff.mp pass with ⟨tail, _, rfl⟩
        exact ⟨block, tail, rfl, Nat.le_refl _⟩

theorem coalesce_ne_nil {blocks merged : List Block} (pass : coalesce header blocks = some merged) :
    merged ≠ [] := by
  cases blocks with
  | nil => cases pass
  | cons block rest =>
      rcases coalesce_head pass with ⟨_, _, rfl, _⟩
      exact List.cons_ne_nil _ _

/-- The pass separates the free blocks unless three of them are neighbours. -/
theorem coalesce_separated_iff {blocks merged : List Block}
    (pass : coalesce header blocks = some merged) :
    Separated (flags merged) ↔ NoTriple (flags blocks) := by
  induction blocks using coalesce.induct generalizing merged with
  | case1 => cases pass
  | case2 block =>
      obtain rfl := Option.some.inj pass
      exact ⟨fun _ => trivial, fun _ => List.isChain_singleton _⟩
  | case3 first second rest both ih =>
      rw [coalesce, if_pos both, Option.map_eq_some_iff] at pass
      rcases pass with ⟨tail, passed, rfl⟩
      cases rest with
      | nil => cases passed
      | cons third rest =>
          rcases coalesce_head passed with ⟨head, following, rfl, headFree⟩
          have later := ih passed
          unfold Separated flags at later ⊢
          simp only [List.map_cons, List.isChain_cons_cons, NoTriple, both.1, both.2, true_and,
            headFree] at later ⊢
          cases thirdFree : third.free with
          | true => simp
          | false =>
              simp only [thirdFree] at later
              simp only [Bool.false_eq_true, not_false_eq_true, true_and, later]
              cases rest with
              | nil => simp [NoTriple]
              | cons fourth rest => simp [NoTriple]
  | case4 first second rest neither ih =>
      rw [coalesce, if_neg neither, Option.map_eq_some_iff] at pass
      rcases pass with ⟨tail, passed, rfl⟩
      rcases coalesce_head passed with ⟨head, following, rfl, headFree⟩
      have later := ih passed
      unfold Separated flags at later ⊢
      simp only [List.map_cons, List.isChain_cons_cons, headFree] at later ⊢
      rw [later]
      cases rest with
      | nil => simp [NoTriple, neither]
      | cons third rest =>
          simp only [List.map_cons, NoTriple, neither, not_false_eq_true, true_and]
          have pair : ¬ (first.free = true ∧ second.free = true ∧ third.free = true) :=
            fun all => neither ⟨all.1, all.2.1⟩
          simp only [pair, not_false_eq_true, true_and]

/-! ## Placing a request -/

/-- A search for a request stops at the first free block that is large enough,
or at the last block. -/
structure StopsAt (request : Nat) (before : List Block) (block : Block) (after : List Block) :
    Prop where
  passed : ∀ other ∈ before, ¬ (other.free = true ∧ request ≤ other.size)
  fits : after ≠ [] → block.free = true ∧ request ≤ block.size

/-- What becomes of the block at which a search stops: it is taken whole, or
split, or left alone. -/
def fit (header request : Nat) (block : Block) : Option (List Block) :=
  if block.size = request then some [⟨request, false⟩]
  else if request + header < block.size then
    some [⟨request, false⟩, ⟨block.size - request - header, true⟩]
  else none

/-- The search in a list of one block stops at it. -/
theorem stopsAt_singleton (request : Nat) (block : Block) : StopsAt request [] block [] where
  passed := fun _ member => absurd member List.not_mem_nil
  fits := fun more => absurd rfl more

theorem exists_stopsAt (request : Nat) {blocks : List Block} (inhabited : blocks ≠ []) :
    ∃ before block after, blocks = before ++ block :: after ∧
      StopsAt request before block after := by
  induction blocks with
  | nil => exact absurd rfl inhabited
  | cons first rest ih =>
      by_cases here : rest = [] ∨ first.free = true ∧ request ≤ first.size
      · refine ⟨[], first, rest, rfl, ?_, ?_⟩
        · intro other member
          exact absurd member List.not_mem_nil
        · intro more
          exact here.resolve_left more
      · rw [not_or] at here
        rcases ih here.1 with ⟨before, block, after, rfl, stops⟩
        refine ⟨first :: before, block, after, rfl, ?_, stops.fits⟩
        intro other member
        rcases List.mem_cons.mp member with rfl | later
        · exact here.2
        · exact stops.passed other later

theorem fit_span {request : Nat} {block : Block} {parts : List Block}
    (placed : fit header request block = some parts) :
    span header parts = header + block.size := by
  unfold fit at placed
  split at placed
  · rename_i same
    obtain rfl := Option.some.inj placed
    simp [span, same]
  · split at placed
    · obtain rfl := Option.some.inj placed
      simp only [span]
      omega
    · cases placed

theorem fit_ne_nil {request : Nat} {block : Block} {parts : List Block}
    (placed : fit header request block = some parts) : parts ≠ [] := by
  unfold fit at placed
  split at placed
  · obtain rfl := Option.some.inj placed
    exact List.cons_ne_nil _ _
  · split at placed
    · obtain rfl := Option.some.inj placed
      exact List.cons_ne_nil _ _
    · cases placed

/-- Of the parts only the first is used. -/
theorem fit_payloads {request start : Nat} {block : Block} {parts : List Block}
    (placed : fit header request block = some parts) :
    payloads header start parts = [(start + header, request)] := by
  unfold fit at placed
  split at placed
  · obtain rfl := Option.some.inj placed
    simp [payloads]
  · split at placed
    · obtain rfl := Option.some.inj placed
      simp [payloads]
    · cases placed

/-! ## First fit -/

/-- A request can be served from a block. -/
def Fits (request : Nat) (block : Block) : Prop :=
  block.free = true ∧ request ≤ block.size

instance (request : Nat) : DecidablePred (Fits request) := fun block =>
  inferInstanceAs (Decidable (block.free = true ∧ request ≤ block.size))

/-- A block is the first one of a list from which a request can be served. -/
structure FitsFirst (request : Nat) (blocks before : List Block) (block : Block)
    (after : List Block) : Prop where
  split : blocks = before ++ block :: after
  passed : ∀ other ∈ before, ¬ Fits request other
  fits : Fits request block

/-- No block serves a request, or there is a first one that does. -/
theorem none_fit_or_fitsFirst (request : Nat) (blocks : List Block) :
    (∀ block ∈ blocks, ¬ Fits request block) ∨
      ∃ before block after, FitsFirst request blocks before block after := by
  induction blocks with
  | nil => exact Or.inl fun block member => absurd member List.not_mem_nil
  | cons first rest ih =>
      by_cases here : Fits request first
      · have nothing : ∀ other ∈ [], ¬ Fits request other := fun other member =>
          absurd member List.not_mem_nil
        exact Or.inr ⟨[], first, rest, rfl, nothing, here⟩
      · rcases ih with none | ⟨before, block, after, found⟩
        · exact Or.inl (List.forall_mem_cons.mpr ⟨here, none⟩)
        · have passed : ∀ other ∈ first :: before, ¬ Fits request other :=
            List.forall_mem_cons.mpr ⟨here, found.passed⟩
          exact Or.inr ⟨first :: before, block, after, by rw [found.split, List.cons_append],
            passed, found.fits⟩

end ComputerSystems.Allocation

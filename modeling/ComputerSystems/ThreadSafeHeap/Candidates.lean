import ComputerSystems.ThreadSafeHeap.Refusals

/-!
# Requests one after the other

What a request does, as the program sees the list: it looks at the first of the blocks that
are free and large enough. A block that it takes whole is marked used. One that it splits
stays free and has exactly the bytes asked for, so that the next request for as many bytes
takes it whole.
-/

namespace ComputerSystems.ThreadSafeHeap

open ComputerSystems.Allocation
open ComputerSystems.Heap (Node Walk nodes)
open ComputerSystems.Loop

/-- The blocks from which a request can be served, in the order of the list. -/
def candidates (bytes : BitVec 64) (nodes : List Node) : List Node :=
  nodes.filter (serves bytes)

/-- A block that serves a request is taken whole. -/
def Whole (bytes : BitVec 64) (node : Node) : Prop :=
  ¬ bytes + sizeofBlock < node.size

instance (bytes : BitVec 64) : DecidablePred (Whole bytes) := fun node =>
  inferInstanceAs (Decidable (¬ bytes + sizeofBlock < node.size))

/-- A block that a request takes whole. -/
def marked (node : Node) : Node := ⟨node.address, node.size, false⟩

/-- The first bytes of a block that a request splits. -/
def front (bytes : BitVec 64) (node : Node) : Node := ⟨node.address, bytes, true⟩

/-- What is left behind them. -/
def remainder (bytes : BitVec 64) (node : Node) : Node :=
  ⟨node.address + sizeofBlock + bytes, node.size - sizeofBlock - bytes, true⟩

/-- What a request makes of the block that serves it. -/
def parts (bytes : BitVec 64) (node : Node) : List Node :=
  if Whole bytes node then [marked node] else [front bytes node, remainder bytes node]

/-- The list after a request. -/
def requested (bytes : BitVec 64) : List Node → List Node
  | [] => []
  | node :: rest =>
      if serves bytes node then parts bytes node ++ rest else node :: requested bytes rest

/-- The pointer that a request returns. -/
def answer (memory : Memory) (bytes : BitVec 64) (nodes : List Node) : BitVec 64 :=
  match candidates bytes nodes with
  | [] => 0#64
  | node :: _ => if Whole bytes node then node.address + sizeofBlock else data memory node.address

/-- A request does not split the block. -/
def Reserved (bytes : BitVec 64) (node : Node) : Prop :=
  serves bytes node → Whole bytes node

/-- A request that is served from a block returns a pointer. -/
def Answers (memory : Memory) (bytes : BitVec 64) (node : Node) : Prop :=
  Whole bytes node ∨ data memory node.address ≠ 0#64

/-- There is a first candidate, and it answers. -/
def FirstAnswers (memory : Memory) (bytes : BitVec 64) (found : List Node) : Prop :=
  ∃ node ∈ found.head?, Answers memory bytes node

/-- Two requests in a row return pointers. A block that the first one splits serves the
second. -/
def TwoAnswered (memory : Memory) (bytes : BitVec 64) : List Node → Prop
  | [] => False
  | first :: others =>
      Answers memory bytes first ∧ (Whole bytes first → FirstAnswers memory bytes others)

/-- Three requests in a row return pointers. A block that the first one splits serves the
second, and what is left behind it may serve the third. -/
def AllAnswered (memory : Memory) (bytes : BitVec 64) : List Node → Prop
  | [] => False
  | first :: others => Answers memory bytes first ∧
      if Whole bytes first then TwoAnswered memory bytes others
      else FirstAnswers memory bytes (candidates bytes [remainder bytes first] ++ others)

variable {place : Placement} {memory : Memory} {state after : State} {start : Nat}
  {blocks blocks' before rest : List Block} {block : Block} {bytes ptr : BitVec 64}
  {node first : Node} {listed others : List Node}

/-! ## The list after a request -/

theorem serves_iff : serves bytes node ↔ node.free = true ∧ bytes ≤ node.size := by
  rw [serves, Bool.and_eq_true, decide_eq_true_eq]

theorem requested_append (passed : ∀ node ∈ listed, ¬ serves bytes node) (others : List Node) :
    requested bytes (listed ++ others) = listed ++ requested bytes others := by
  induction listed with
  | nil => rfl
  | cons node listed ih =>
      rcases List.forall_mem_cons.mp passed with ⟨here, later⟩
      rw [List.cons_append, requested, if_neg here, ih later, List.cons_append]

theorem requested_of_none (none : candidates bytes listed = []) :
    requested bytes listed = listed := by
  have passed : ∀ node ∈ listed, ¬ serves bytes node := List.filter_eq_nil_iff.mp none
  have same := requested_append passed []
  rwa [requested, List.append_nil] at same

/-- The candidates after a request. -/
theorem candidates_requested (found : candidates bytes listed = first :: others) :
    candidates bytes (requested bytes listed) =
      candidates bytes (parts bytes first) ++ others := by
  induction listed with
  | nil => cases found
  | cons node listed ih =>
      rw [candidates, List.filter_cons] at found
      by_cases here : serves bytes node
      · rw [if_pos here] at found
        rcases List.cons.inj found with ⟨rfl, rfl⟩
        rw [requested, if_pos here, candidates, List.filter_append]
        rfl
      · rw [if_neg here] at found
        rw [requested, if_neg here, candidates, List.filter_cons_of_neg here]
        exact ih found

theorem candidates_whole (whole : Whole bytes first) :
    candidates bytes (parts bytes first) = [] := by
  rw [parts, if_pos whole]
  rfl

theorem candidates_split (larger : ¬ Whole bytes first) :
    candidates bytes (parts bytes first) =
      front bytes first :: candidates bytes [remainder bytes first] := by
  rw [parts, if_neg larger]
  exact List.filter_cons_of_pos (serves_iff.mpr ⟨rfl, BitVec.le_refl bytes⟩)

/-- The used blocks after a request. -/
theorem mem_requested_used (used : node.free = false) :
    node ∈ requested bytes listed ↔ node ∈ listed ∨
      ∃ first ∈ (candidates bytes listed).head?, Whole bytes first ∧ node = marked first := by
  induction listed with
  | nil => simp [requested, candidates]
  | cons head listed ih =>
      by_cases here : serves bytes head
      · have other : node ≠ head := by
          rintro rfl
          exact absurd ((serves_iff.mp here).1.symm.trans used) (by decide)
        have found : candidates bytes (head :: listed) = head :: candidates bytes listed :=
          List.filter_cons_of_pos here
        rw [requested, if_pos here, found, parts, List.mem_append, List.mem_cons]
        by_cases whole : Whole bytes head
        · simp [whole, other, or_comm]
        · have unused : node ≠ front bytes head ∧ node ≠ remainder bytes head := by
            constructor <;> (rintro rfl; cases used)
          simp [whole, other, unused.1, unused.2]
      · have found : candidates bytes (head :: listed) = candidates bytes listed :=
          List.filter_cons_of_neg here
        rw [requested, if_neg here, found, List.mem_cons, ih, List.mem_cons, or_assoc]

/-- The free blocks after a request are blocks from before or parts of the one that it split. -/
theorem mem_requested_free (unused : node.free = true) (member : node ∈ requested bytes listed) :
    node ∈ listed ∨ ∃ first ∈ (candidates bytes listed).head?,
      ¬ Whole bytes first ∧ (node = front bytes first ∨ node = remainder bytes first) := by
  induction listed with
  | nil => exact absurd member List.not_mem_nil
  | cons head listed ih =>
      by_cases here : serves bytes head
      · have found : candidates bytes (head :: listed) = head :: candidates bytes listed :=
          List.filter_cons_of_pos here
        rw [requested, if_pos here, parts, List.mem_append] at member
        rw [found]
        rcases member with member | later
        · by_cases whole : Whole bytes head
          · rw [if_pos whole, List.mem_singleton] at member
            subst member
            cases unused
          · rw [if_neg whole, List.mem_cons, List.mem_singleton] at member
            exact Or.inr ⟨head, rfl, whole, member⟩
        · exact Or.inl (List.mem_cons_of_mem _ later)
      · have found : candidates bytes (head :: listed) = candidates bytes listed :=
          List.filter_cons_of_neg here
        rw [requested, if_neg here, List.mem_cons] at member
        rw [found]
        rcases member with rfl | later
        · exact Or.inl List.mem_cons_self
        · exact (ih later).imp_left (List.mem_cons_of_mem _)

/-- A block that the request does not split stays on the list, maybe marked used. -/
theorem mem_requested_of_reserved (reserved : Reserved bytes node) (member : node ∈ listed) :
    ∃ flag, ⟨node.address, node.size, flag⟩ ∈ requested bytes listed ∧
      Reserved bytes ⟨node.address, node.size, flag⟩ := by
  induction listed with
  | nil => exact absurd member List.not_mem_nil
  | cons head listed ih =>
      rw [requested]
      by_cases here : serves bytes head
      · rw [if_pos here]
        rcases List.mem_cons.mp member with rfl | later
        · refine ⟨false, ?_, fun _ => reserved here⟩
          rw [parts, if_pos (reserved here)]
          exact List.mem_cons_self
        · exact ⟨node.free, List.mem_append_right _ later, reserved⟩
      · rw [if_neg here]
        rcases List.mem_cons.mp member with rfl | later
        · exact ⟨node.free, List.mem_cons_self, reserved⟩
        · rcases ih later with ⟨flag, listed, kept⟩
          exact ⟨flag, List.mem_cons_of_mem _ listed, kept⟩

/-! ## Requests in a row -/

section Row

variable {own : BitVec 64}

theorem candidates_of_whole (found : candidates bytes listed = first :: others)
    (whole : Whole bytes first) : candidates bytes (requested bytes listed) = others := by
  rw [candidates_requested found, candidates_whole whole, List.nil_append]

theorem candidates_of_split (found : candidates bytes listed = first :: others)
    (larger : ¬ Whole bytes first) :
    candidates bytes (requested bytes listed) =
      front bytes first :: (candidates bytes [remainder bytes first] ++ others) := by
  rw [candidates_requested found, candidates_split larger, List.cons_append]

/-- The first candidate is on the list, and serves the request. -/
theorem mem_of_found (found : candidates bytes listed = first :: others) :
    first ∈ listed ∧ serves bytes first = true := by
  have member : first ∈ candidates bytes listed := found ▸ List.mem_cons_self
  exact List.mem_filter.mp member

/-- After a split the next request takes the first part. -/
theorem whole_front (served : serves bytes first) (small : first.size.toNat + 32 < 2 ^ 64) :
    Whole bytes (front bytes first) := by
  have enough := (serves_iff.mp served).2
  rw [BitVec.le_def] at enough
  rw [Whole, BitVec.lt_def, BitVec.toNat_add, sizeofBlock_toNat]
  dsimp only [front]
  omega

/-- A used block stays on the list. -/
theorem used_requested (used : node.free = false) (member : node ∈ listed) :
    node ∈ requested bytes listed :=
  (mem_requested_used used).mpr (Or.inl member)

/-- The first candidate is marked used if it is taken whole. -/
theorem marked_requested (found : candidates bytes listed = first :: others)
    (whole : Whole bytes first) : marked first ∈ requested bytes listed := by
  refine (mem_requested_used rfl).mpr (Or.inr ⟨first, ?_, whole, rfl⟩)
  rw [found]
  rfl

/-- When there is a candidate beside a block that is not split, three requests take such a
one. -/
theorem exists_taken (small : ∀ node ∈ listed, node.size.toNat + 32 < 2 ^ 64)
    (distinct : (candidates bytes listed).Pairwise fun left right => left.address ≠ right.address)
    (reserved : ∀ node ∈ candidates bytes listed, node.address = own → Whole bytes node)
    (beside : ∃ node ∈ candidates bytes listed, node.address ≠ own) :
    ∃ node ∈ requested bytes (requested bytes (requested bytes listed)),
      node.free = false ∧ node.address ≠ own ∧
        ∃ first ∈ candidates bytes listed, first.address = node.address := by
  rcases beside with ⟨other, known, different⟩
  cases found : candidates bytes listed with
  | nil => rw [found] at known; cases known
  | cons first others =>
      rcases mem_of_found found with ⟨onList, served⟩
      rw [found] at known distinct reserved
      by_cases whole : Whole bytes first
      · by_cases here : first.address = own
        · -- the next request serves itself from another block
          have second := candidates_of_whole found whole
          have later := (List.mem_cons.mp known).resolve_left fun same => different (same ▸ here)
          cases others with
          | nil => cases later
          | cons next rest =>
              have listedNext : next ∈ candidates bytes listed :=
                found ▸ List.mem_cons_of_mem _ List.mem_cons_self
              rcases List.mem_filter.mp listedNext with ⟨nextListed, nextServes⟩
              have apart : next.address ≠ own := fun same =>
                List.rel_of_pairwise_cons distinct List.mem_cons_self (here.trans same.symm)
              refine ⟨⟨next.address, if Whole bytes next then next.size else bytes, false⟩, ?_, rfl,
                apart, next, List.mem_cons_of_mem _ List.mem_cons_self, rfl⟩
              by_cases taken : Whole bytes next
              · rw [if_pos taken]
                exact used_requested rfl (marked_requested second taken)
              · rw [if_neg taken]
                exact marked_requested (candidates_of_split second taken)
                  (whole_front nextServes (small next nextListed))
        · have kept : marked first ∈ requested bytes listed := marked_requested found whole
          exact ⟨marked first, used_requested rfl (used_requested rfl kept), rfl, here, first,
            List.mem_cons_self, rfl⟩
      · have apart : first.address ≠ own := fun same =>
          whole (reserved first List.mem_cons_self same)
        have second := marked_requested (candidates_of_split found whole)
          (whole_front served (small first onList))
        exact ⟨_, used_requested rfl second, rfl, apart, first, List.mem_cons_self, rfl⟩

/-- The candidates are one block that is not split. -/
def OnlyOwn (bytes own : BitVec 64) (listed : List Node) : Prop :=
  ∀ node ∈ candidates bytes listed, node.address = own ∧ Whole bytes node

/-- Then a request takes nothing else. -/
theorem OnlyOwn.requested (only : OnlyOwn bytes own listed) :
    OnlyOwn bytes own (requested bytes listed) ∧
      ∀ node ∈ ThreadSafeHeap.requested bytes listed, node.free = false → node.address ≠ own →
        node ∈ listed := by
  cases found : candidates bytes listed with
  | nil =>
      rw [requested_of_none found]
      exact ⟨only, fun _ member _ _ => member⟩
  | cons first others =>
      rcases only first (found ▸ List.mem_cons_self) with ⟨here, whole⟩
      constructor
      · intro node member
        rw [candidates_of_whole found whole] at member
        exact only node (found ▸ List.mem_cons_of_mem _ member)
      · intro node member used different
        rcases (mem_requested_used used).mp member with known | ⟨taken, front, _, rfl⟩
        · exact known
        · rw [found, List.head?_cons, Option.mem_some_iff] at front
          subst front
          exact absurd here different

end Row

/-! ## Candidates of a block list -/

/-- The block at which the search stops, as the program sees it. -/
def nodeOf (start : Nat) (before : List Block) (block : Block) : Node :=
  ⟨BitVec.ofNat 64 (start + span 32 before), BitVec.ofNat 64 block.size, block.free⟩

/-- The list up to the block at which the search stops, and from there on. -/
theorem nodes_split (start : Nat) (before : List Block) (block : Block) (rest : List Block) :
    nodes 32 start (before ++ block :: rest) = nodes 32 start before ++
      nodeOf start before block :: nodes 32 (start + span 32 before + 32 + block.size) rest := by
  rw [Heap.nodes_append, nodes]
  rfl

/-- The used blocks of a block list. -/
def usedNodes (place : Placement) (blocks : List Block) : Set Node :=
  {node | node ∈ nodes 32 place.head.toNat blocks ∧ node.free = false}

/-- What a request leaves: the list that `requested` says, and the bytes that it does not
write to. Those are the page numbers of all blocks, the payloads of the blocks that it does
not split, and what is in the blocks that are free behind it. -/
structure Requested (place : Placement) (state : State) (bytes : BitVec 64) (blocks : List Block)
    (after : State) (ptr : BitVec 64) (blocks' : List Block) : Prop where
  heap : HeapHolds place after.memory blocks'
  list : nodes 32 place.head.toNat blocks' = requested bytes (nodes 32 place.head.toNat blocks)
  answered : ptr = answer state.memory bytes (nodes 32 place.head.toNat blocks)
  pageNums : ∀ node ∈ nodes 32 place.head.toNat blocks,
    pageNum after.memory node.address = pageNum state.memory node.address
  payloads : ∀ node ∈ nodes 32 place.head.toNat blocks, Reserved bytes node →
    ∀ i, node.address.toNat + 32 ≤ i → i < node.address.toNat + 32 + node.size.toNat →
      after.memory i = state.memory i
  unused : ∀ node ∈ nodes 32 place.head.toNat blocks', node.free = true →
    ∀ i, node.address.toNat + 24 ≤ i → i < node.address.toNat + 32 + node.size.toNat →
      after.memory i = state.memory i

/-- The block at which the search stops is on the list. -/
theorem nodeOf_mem (start : Nat) (before : List Block) (block : Block) (rest : List Block) :
    nodeOf start before block ∈ nodes 32 start (before ++ block :: rest) := by
  rw [nodes_split]
  exact List.mem_append_right _ List.mem_cons_self

/-- A block of the list lies in the region. -/
theorem HeapHolds.node_inside (heap : HeapHolds place memory blocks)
    (member : node ∈ nodes 32 place.head.toNat blocks) :
    place.head.toNat ≤ node.address.toNat ∧
      node.address.toNat + 32 + node.size.toNat ≤ place.head.toNat + pageSize.toNat := by
  have inside := Heap.nodes_inside heap.bound member
  rwa [heap.whole] at inside

end ComputerSystems.ThreadSafeHeap

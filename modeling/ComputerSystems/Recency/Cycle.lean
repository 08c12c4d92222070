import ComputerSystems.Recency.Competitive

/-!
# References in a cycle

One page more than there are places, referenced in turn: a cache with a queue has a fault at
every reference. Giving up the page referenced last instead, which is the one that is not
needed for the longest time, leaves one fault in as many references as there are places. So
the bound for conservative caches is reached.
-/

namespace ComputerSystems.Recency

universe u

/-- The pages `0` to `places`, in turn, from the reference numbered `start` on. -/
def cycle (places start count : Nat) : List Nat :=
  (List.range' start count).map (· % (places + 1))

theorem cycle_append (places start first second : Nat) :
    cycle places start (first + second) =
      cycle places start first ++ cycle places (start + first) second := by
  rw [cycle, cycle, cycle, ← List.map_append, List.range'_append_1]

theorem cycle_succ (places start count : Nat) :
    cycle places start (count + 1) =
      cycle places start count ++ [(start + count) % (places + 1)] :=
  cycle_append places start count 1

theorem length_cycle (places start count : Nat) : (cycle places start count).length = count := by
  rw [cycle, List.length_map, List.length_range']

theorem mem_cycle_iff {places start count page : Nat} :
    page ∈ cycle places start count ↔
      ∃ i, start ≤ i ∧ i < start + count ∧ i % (places + 1) = page := by
  simp only [cycle, List.mem_map, List.mem_range'_1, and_assoc]

/-- The page after some turns is none of those of the last turns, one for each place. -/
theorem next_notMem_cycle {places start count : Nat} (few : count ≤ places) :
    (start + count) % (places + 1) ∉ cycle places start count := by
  intro member
  rcases mem_cycle_iff.mp member with ⟨i, late, early, same⟩
  have apart : (start + count - i) % (places + 1) = 0 := Nat.sub_mod_eq_zero_of_mod_eq same.symm
  rw [Nat.mod_eq_of_lt (by omega)] at apart
  omega

/-- A cache with a queue has a fault at every reference. -/
theorem FifoCache.serve_cycle {places : Nat} (positive : 0 < places) (count : Nat) :
    (serve places (cycle places 0 count)).queue = (cycle places 0 count).rtake places ∧
      (serve places (cycle places 0 count)).faults = count := by
  induction count with
  | zero =>
      rw [cycle, List.range'_zero, List.map_nil, List.rtake_nil]
      exact ⟨rfl, rfl⟩
  | succ count ih =>
      rcases ih with ⟨queue, faults⟩
      have last : (cycle places 0 count).rtake places =
          cycle places (count - places) (min count places) := by
        rw [List.rtake, length_cycle, cycle, ← List.map_drop, List.drop_range', cycle]
        congr 2 <;> omega
      have fault : (0 + count) % (places + 1) ∉ (serve places (cycle places 0 count)).queue := by
        rw [queue, last]
        have whole : 0 + count = count - places + min count places := by omega
        rw [whole]
        exact next_notMem_cycle (Nat.min_le_right count places)
      rw [cycle_succ, serve_append, access, if_neg fault, queue, enqueue_rtake positive, faults]
      exact ⟨rfl, rfl⟩

/-- The names of the pages do not matter to a cache with a queue. -/
theorem FifoCache.serve_map {α β : Type u} [DecidableEq α] [DecidableEq β] {name : α → β}
    (injective : name.Injective) (capacity : Nat) (references : List α) :
    (serve capacity (references.map name)).queue = (serve capacity references).queue.map name ∧
      (serve capacity (references.map name)).faults = (serve capacity references).faults := by
  induction references using List.reverseRecOn with
  | nil => exact ⟨rfl, rfl⟩
  | append_singleton references page ih =>
      rcases ih with ⟨queue, faults⟩
      rw [List.map_append, List.map_singleton, serve_append, serve_append, access, access, queue,
        faults]
      by_cases hit : page ∈ (serve capacity references).queue
      · rw [if_pos hit, if_pos ((List.mem_map_of_injective injective).mpr hit)]
        exact ⟨queue, faults⟩
      · rw [if_neg hit, if_neg (mt (List.mem_map_of_injective injective).mp hit)]
        refine ⟨?_, rfl⟩
        simp only [enqueue, List.length_map, ← List.map_tail]
        split <;> rw [List.map_append, List.map_singleton]

/-! ## Giving up the page referenced last -/

/-- All pages but the one that a turn references. -/
def allBut (places turn : Nat) : Finset Nat :=
  (Finset.range (places + 1)).erase (turn % (places + 1))

theorem mod_mem_range (places turn : Nat) : turn % (places + 1) ∈ Finset.range (places + 1) :=
  Finset.mem_range.mpr (Nat.mod_lt turn (Nat.succ_pos places))

theorem card_allBut (places turn : Nat) : (allBut places turn).card = places := by
  rw [allBut, Finset.card_erase_of_mem (mod_mem_range places turn), Finset.card_range]
  exact Nat.add_sub_cancel places 1

/-- A turn among those before another, one for each place, references a different page. -/
theorem mod_mem_allBut {places turn i : Nat} (early : i < turn) (late : turn ≤ i + places) :
    i % (places + 1) ∈ allBut places turn := by
  refine Finset.mem_erase.mpr ⟨?_, mod_mem_range places i⟩
  intro same
  have apart : (turn - i) % (places + 1) = 0 := Nat.sub_mod_eq_zero_of_mod_eq same.symm
  rw [Nat.mod_eq_of_lt (by omega)] at apart
  omega

/-- One fault in as many references as there are places. -/
theorem serves_round {places : Nat} (positive : 0 < places) (turn : Nat) :
    Serves places (allBut places turn) (cycle places turn places)
      (allBut places (turn + places)) 1 := by
  have first : turn % (places + 1) ∈ allBut places (turn + places) :=
    mod_mem_allBut (Nat.lt_add_of_pos_right positive) (Nat.le_refl _)
  have fits := (card_allBut places (turn + places)).le
  have loads : allBut places (turn + places) ⊆
      insert (turn % (places + 1)) (allBut places turn) := by
    rw [allBut, allBut, Finset.insert_erase (mod_mem_range places turn)]
    exact Finset.erase_subset _ _
  have rest : Serves places (allBut places (turn + places))
      (cycle places (turn + 1) (places - 1)) (allBut places (turn + places)) 0 := by
    apply Serves.quiet fits
    intro page member
    rcases mem_cycle_iff.mp member with ⟨i, late, early, rfl⟩
    exact mod_mem_allBut (by omega) (by omega)
  have whole : cycle places turn places =
      turn % (places + 1) :: cycle places (turn + 1) (places - 1) := by
    obtain ⟨others, rfl⟩ := Nat.exists_eq_add_of_lt positive
    rw [Nat.zero_add, Nat.add_sub_cancel, Nat.add_comm others 1, cycle_append]
    rfl
  have serves := Serves.access first loads fits rest
  rwa [← whole, if_neg (show _ ∉ allBut places turn from Finset.notMem_erase _ _)] at serves

/-- The first references load one page for each place. -/
theorem serves_first {places count : Nat} (few : count ≤ places) :
    Serves places ∅ (cycle places 0 count) (Finset.range count) count := by
  induction count with
  | zero => exact .nil ∅
  | succ count ih =>
      have page : (0 + count) % (places + 1) = count := by
        rw [Nat.zero_add, Nat.mod_eq_of_lt (by omega)]
      have serves := (ih (by omega)).snoc (Finset.self_mem_range_succ count)
        Finset.range_add_one.le (by rwa [Finset.card_range])
      rw [cycle_succ, page]
      rwa [if_neg Finset.notMem_range_self] at serves

/-- Some way to serve the cycle has, but for the faults that fill the places, one fault in as
many references as there are places. -/
theorem exists_serves_cycle {places : Nat} (positive : 0 < places) (rounds : Nat) :
    ∃ final, Serves places ∅ (cycle places 0 (places + places * rounds)) final
      (places + rounds) := by
  refine ⟨allBut places (places + places * rounds), ?_⟩
  induction rounds with
  | zero =>
      have all : Finset.range places = allBut places places := by
        rw [allBut, Nat.mod_eq_of_lt (Nat.lt_succ_self places), Finset.range_add_one,
          Finset.erase_insert Finset.notMem_range_self]
      have serves := @serves_first places places (Nat.le_refl places)
      rwa [all] at serves
  | succ rounds ih =>
      have serves := ih.append (serves_round positive _)
      rw [Nat.mul_succ, ← Nat.add_assoc, ← Nat.add_assoc, cycle_append, Nat.zero_add]
      exact serves

end ComputerSystems.Recency

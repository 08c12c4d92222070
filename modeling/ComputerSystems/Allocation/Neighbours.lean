import ComputerSystems.Allocation.BlockList

/-!
# Free neighbours

How far the free blocks of a list are from being merged is measured by the number of pairs
of free neighbours. A block that is released adds at most two of them, a placed request
none, and the pass that merges free neighbours leaves at most half of them. The pairs
bound the length of the list by the number of its used blocks.
-/

namespace ComputerSystems.Allocation

/-- The number of pairs of free neighbours. -/
def freePairs : List Bool → Nat
  | first :: second :: rest =>
      (if first = true ∧ second = true then 1 else 0) + freePairs (second :: rest)
  | _ => 0

variable {header request : Nat} {before rest parts blocks merged : List Block} {block : Block}

/-! ## Lists put together -/

@[simp]
theorem freePairs_false_cons (flags : List Bool) :
    freePairs (false :: flags) = freePairs flags := by
  cases flags <;> simp [freePairs]

@[simp]
theorem freePairs_true_true (flags : List Bool) :
    freePairs (true :: true :: flags) = 1 + freePairs (true :: flags) := by
  simp [freePairs]

@[simp]
theorem freePairs_true_false (flags : List Bool) :
    freePairs (true :: false :: flags) = freePairs flags := by
  simp [freePairs]

theorem freePairs_le_cons (flag : Bool) (flags : List Bool) :
    freePairs flags ≤ freePairs (flag :: flags) := by
  cases flags with
  | nil => exact Nat.zero_le _
  | cons second flags => exact Nat.le_add_left _ _

theorem freePairs_cons_le (flag : Bool) (flags : List Bool) :
    freePairs (flag :: flags) ≤ freePairs flags + 1 := by
  cases flags with
  | nil => exact Nat.zero_le _
  | cons second flags =>
      rw [freePairs, Nat.add_comm]
      apply Nat.add_le_add_left
      split <;> decide

/-- Two lists have at most one pair between them. -/
theorem freePairs_append (first second : List Bool) :
    freePairs first + freePairs second ≤ freePairs (first ++ second) ∧
      freePairs (first ++ second) ≤ freePairs first + freePairs second + 1 := by
  induction first with
  | nil => simp [freePairs]
  | cons flag flags ih =>
      cases flags with
      | nil =>
          have lower := freePairs_le_cons flag second
          have upper := freePairs_cons_le flag second
          simpa [freePairs] using ⟨lower, upper⟩
      | cons next flags =>
          simp only [List.cons_append, freePairs] at ih ⊢
          omega

/-- There is no pair at a used block. -/
theorem freePairs_append_false (first second : List Bool) :
    freePairs (first ++ false :: second) = freePairs first + freePairs second := by
  induction first with
  | nil => simp [freePairs]
  | cons flag flags ih =>
      cases flags with
      | nil => cases flag <;> simp [freePairs]
      | cons next flags =>
          simp only [List.cons_append, freePairs] at ih ⊢
          omega

/-! ## Blocks that change -/

theorem flags_replace (before rest parts : List Block) :
    flags (before ++ (parts ++ rest)) = flags before ++ (flags parts ++ flags rest) := by
  simp [flags]

/-- A block that is marked free adds the pairs with its neighbours. -/
theorem freePairs_release (used : block.free = false) :
    freePairs (flags (before ++ ⟨block.size, true⟩ :: rest)) ≤
      freePairs (flags (before ++ block :: rest)) + 2 := by
  have apart : freePairs (flags (before ++ block :: rest)) =
      freePairs (flags before) + freePairs (flags rest) := by
    simp only [flags, List.map_append, List.map_cons, used, freePairs_append_false]
  have front := (freePairs_append (flags before) (true :: flags rest)).2
  have back := freePairs_cons_le true (flags rest)
  have split : flags (before ++ ⟨block.size, true⟩ :: rest) =
      flags before ++ true :: flags rest := by
    simp [flags]
  rw [apart, split]
  calc freePairs (flags before ++ true :: flags rest)
      ≤ freePairs (flags before) + freePairs (true :: flags rest) + 1 := front
    _ ≤ freePairs (flags before) + (freePairs (flags rest) + 1) + 1 :=
        Nat.add_le_add_right (Nat.add_le_add_left back _) 1
    _ = freePairs (flags before) + freePairs (flags rest) + 2 := by omega

/-- A placed request adds no pair: a used block is only split at the end of the list. -/
theorem freePairs_fit (stops : StopsAt request before block rest)
    (placed : fit header request block = some parts) :
    freePairs (flags (before ++ (parts ++ rest))) ≤
      freePairs (flags (before ++ block :: rest)) := by
  have split : flags (before ++ block :: rest) = flags before ++ block.free :: flags rest := by
    simp [flags]
  have apart := (freePairs_append (flags before) (block.free :: flags rest)).1
  rw [flags_replace, split]
  unfold fit at placed
  split at placed
  · obtain rfl := Option.some.inj placed
    have behind := freePairs_le_cons block.free (flags rest)
    calc freePairs (flags before ++ false :: flags rest)
        = freePairs (flags before) + freePairs (flags rest) := freePairs_append_false _ _
      _ ≤ freePairs (flags before) + freePairs (block.free :: flags rest) :=
          Nat.add_le_add_left behind _
      _ ≤ freePairs (flags before ++ block.free :: flags rest) := apart
  · split at placed
    · obtain rfl := Option.some.inj placed
      have behind : freePairs (true :: flags rest) ≤ freePairs (block.free :: flags rest) := by
        by_cases last : rest = []
        · rw [last]
          exact Nat.zero_le _
        · rw [(stops.fits last).1]
      calc freePairs (flags before ++ false :: true :: flags rest)
          = freePairs (flags before) + freePairs (true :: flags rest) :=
            freePairs_append_false _ _
        _ ≤ freePairs (flags before) + freePairs (block.free :: flags rest) :=
            Nat.add_le_add_left behind _
        _ ≤ freePairs (flags before ++ block.free :: flags rest) := apart
    · cases placed

/-- The pass leaves at most half of the pairs. -/
theorem freePairs_coalesce (pass : coalesce header blocks = some merged) :
    freePairs (flags merged) ≤ freePairs (flags blocks) / 2 := by
  induction blocks using coalesce.induct generalizing merged with
  | case1 => cases pass
  | case2 block =>
      obtain rfl := Option.some.inj pass
      exact Nat.zero_le _
  | case3 first second rest both ih =>
      rw [coalesce, if_pos both, Option.map_eq_some_iff] at pass
      rcases pass with ⟨tail, passed, rfl⟩
      have later := ih passed
      cases rest with
      | nil => cases passed
      | cons third rest =>
          rcases coalesce_head passed with ⟨head, following, rfl, headFree⟩
          simp only [flags, List.map_cons, both.1, both.2, headFree] at later ⊢
          -- The pair of the merged block takes the place of two pairs.
          cases thirdFree : third.free with
          | true =>
              rw [thirdFree] at later
              simp only [freePairs_true_true]
              omega
          | false =>
              rw [thirdFree, freePairs_false_cons, freePairs_false_cons] at later
              simp only [freePairs_true_true, freePairs_true_false]
              omega
  | case4 first second rest neither ih =>
      rw [coalesce, if_neg neither, Option.map_eq_some_iff] at pass
      rcases pass with ⟨tail, passed, rfl⟩
      rcases coalesce_head passed with ⟨head, following, rfl, headFree⟩
      have later := ih passed
      simp only [flags, List.map_cons, freePairs, headFree, if_neg neither, Nat.zero_add] at later ⊢
      exact later

/-! ## The length of the list -/

/-- A list is as long as its used blocks, the gaps around them and its pairs; there is no
gap in front of a used block at its start. -/
theorem length_le_freePairs (flags : List Bool) :
    flags.length ≤ 2 * flags.count false + freePairs flags + 1 ∧
      (flags.head? = some false → flags.length ≤ 2 * flags.count false + freePairs flags) := by
  induction flags with
  | nil => simp
  | cons flag flags ih =>
      rcases ih with ⟨any, used⟩
      cases flag with
      | false =>
          simp only [List.length_cons, List.count_cons_self, freePairs_false_cons]
          omega
      | true =>
          refine ⟨?_, fun head => Bool.noConfusion (Option.some.inj head)⟩
          cases flags with
          | nil => simp
          | cons second flags =>
              cases second with
              | true =>
                  simp only [List.length_cons, freePairs_true_true] at any ⊢
                  simp only [List.count_cons] at any ⊢
                  omega
              | false =>
                  have further := used rfl
                  simp only [List.length_cons, freePairs_true_false, freePairs_false_cons]
                    at further ⊢
                  simp only [List.count_cons] at further ⊢
                  omega

end ComputerSystems.Allocation

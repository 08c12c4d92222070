import ComputerSystems.ThreadSafeHeap.VmTable

/-!
# Filling a table

When its three pointers are set, `createVMtable` sets the counters of a table and clears its
first array. It returns NULL after this only when the clearing has taken a pointer from the
table again. An array that lies beside the pointers takes none. An array that lies where the
table does takes its own pointer first, and then the loop goes on elsewhere: the pointer in
the table is the one that the loop writes through.
-/

namespace ComputerSystems.ThreadSafeHeap

open ComputerSystems.Loop

/-- The memory when the counters are set and the first array is cleared. -/
def clearedTable (memory : Memory) (table : BitVec 64) (length : BitVec 32) : Memory :=
  clearPageNums table 0 length.toInt.toNat
    (setIntAt (setIntAt (setIntAt memory table 28 0#32) table 32 0#32) table 36 0#32)

/-- The elements behind a pointer lie beside the pointers of the table. -/
def ClearsBeside (ptr table : BitVec 64) (length : BitVec 32) : Prop :=
  ptr.toNat + 4 * length.toInt.toNat ≤ 2 ^ 64 ∧
    (ptr.toNat + 4 * length.toInt.toNat ≤ table.toNat ∨ table.toNat + 24 ≤ ptr.toNat)

/-- The bytes of the second and the third pointer of a table are what they were. -/
def OthersKept (table : BitVec 64) (memory other : Memory) : Prop :=
  ∀ i, table.toNat + 8 ≤ i → i < table.toNat + 24 → other i = memory i

variable {memory : Memory} {state : State} {table ptr : BitVec 64} {length : BitVec 32}
  {i count : Nat}

/-- The arrays have room for their elements. -/
theorem arrayBytes_le (length : BitVec 32) :
    4 * length.toInt.toNat ≤ (arrayBytes length).toNat := by
  by_cases negative : length.toInt < 0
  · rw [Int.toNat_of_nonpos (Int.le_of_lt negative)]
    exact Nat.zero_le _
  · have same : (length.signExtend 64).toInt = length.toInt :=
      BitVec.toInt_signExtend_of_le (by decide)
    have below := length.toInt_lt
    rw [BitVec.toInt_eq_toNat_cond] at same
    have small := (length.signExtend 64).isLt
    rw [arrayBytes, BitVec.toNat_mul, BitVec.toNat_ofNat]
    split at same <;> omega

/-- What every iteration of the loop keeps holds after it. -/
theorem clearPageNums_keeps (holds : Nat → Memory → Prop)
    (step : ∀ j memory, i ≤ j → j < i + count → holds j memory →
      holds (j + 1)
        (memory.store (pageNumArr memory table + 4#64 * BitVec.ofNat 64 j).toNat 4 0))
    (initially : holds i memory) : holds (i + count) (clearPageNums table i count memory) := by
  induction count generalizing i memory with
  | zero => exact initially
  | succ count ih =>
      rw [clearPageNums, Nat.add_comm count, ← Nat.add_assoc]
      refine ih (fun j memory lower upper => step j memory (by omega) (by omega)) ?_
      exact step i memory (Nat.le_refl _) (by omega) initially

/-- Where the loop writes. -/
theorem element_toNat (i : Nat) (bound : ptr.toNat + 4 * i < 2 ^ 64) :
    (ptr + 4#64 * BitVec.ofNat 64 i).toNat = ptr.toNat + 4 * i := by
  rw [BitVec.toNat_add, BitVec.toNat_mul, BitVec.toNat_ofNat, BitVec.toNat_ofNat]
  omega

/-- The counters lie behind the pointers. -/
theorem counters_outside (memory : Memory) (table : BitVec 64) {i : Nat}
    (below : i < table.toNat + 28) :
    setIntAt (setIntAt (setIntAt memory table 28 0#32) table 32 0#32) table 36 0#32 i =
      memory i := by
  simp only [setIntAt]
  rw [Memory.store_of_outside (by omega), Memory.store_of_outside (by omega),
    Memory.store_of_outside (by omega)]

/-- An array beside the pointers of the table leaves them. -/
theorem clearedTable_beside (leads : pageNumArr memory table = ptr)
    (beside : ClearsBeside ptr table length) :
    ∀ i, table.toNat ≤ i → i < table.toNat + 24 →
      clearedTable memory table length i = memory i := by
  rcases beside with ⟨bound, apart⟩
  refine clearPageNums_keeps
    (fun _ other => ∀ i, table.toNat ≤ i → i < table.toNat + 24 → other i = memory i) ?_ ?_
  · intro j other _ upper kept i lower above
    have same : pageNumArr other table = ptr := by
      rw [← leads]
      exact arrayAt_congr fun i lower upper => kept i (by omega) (by omega)
    rw [same, Memory.store_of_outside, kept i lower above]
    rw [element_toNat j (by omega)]
    omega
  · exact fun i lower upper => counters_outside memory table (by omega)

/-! ## An array in the place of the table -/

/-- The two halves of a pointer. -/
theorem load_halves (memory : Memory) (address : Nat) :
    memory.load address 8 = memory.load address 4 + 2 ^ 32 * memory.load (address + 4) 4 :=
  memory.load_add address 4 4

theorem pageNumArr_toNat (memory : Memory) (table : BitVec 64) :
    (pageNumArr memory table).toNat = memory.load table.toNat 8 := by
  have below := memory.load_lt table.toNat 8
  rw [pageNumArr, arrayAt, BitVec.toNat_ofNat]
  exact Nat.mod_eq_of_lt (by omega)

/-- The table after the first iterations of the loop, when the array lies where the table does.
The first pointer is NULL; or the other two are what they were, and the low half of the
first one is cleared. While its high half is still that of the table the loop has only
cleared bytes behind it. -/
def Overwritten (memory : Memory) (table : BitVec 64) (i : Nat) (other : Memory) : Prop :=
  other.load table.toNat 8 = 0 ∨
    (OthersKept table memory other ∧ other.load table.toNat 4 = 0 ∧
      other.load (table.toNat + 4) 4 ≤ table.toNat / 2 ^ 32 ∧
      (other.load (table.toNat + 4) 4 = table.toNat / 2 ^ 32 →
        ∀ j, 2 ^ 32 * (table.toNat / 2 ^ 32) + 4 ≤ j →
          j < 2 ^ 32 * (table.toNat / 2 ^ 32) + 4 * i → other j = 0#8))

/-- The first iteration clears the low half of the pointer. -/
theorem Overwritten.first {other : Memory} (kept : OthersKept table memory other)
    (leads : other.load table.toNat 8 = table.toNat) :
    Overwritten memory table 1 (other.store table.toNat 4 0) := by
  have halves := load_halves other table.toNat
  have low := other.load_lt table.toNat 4
  refine Or.inr ⟨?_, ?_, ?_, fun _ j lower upper => by omega⟩
  · intro i lower upper
    rw [Memory.store_of_outside (by omega)]
    exact kept i lower upper
  · exact Memory.load_eq_zero fun i lower upper => Memory.store_zero_of_inside lower upper
  · rw [Memory.load_store_of_disjoint (by omega)]
    omega

/-- A later iteration. -/
theorem Overwritten.next {other : Memory} (later : 0 < i) (room : 4 * (i + 1) ≤ 2 ^ 32)
    (kept : OthersKept table memory other) (low : other.load table.toNat 4 = 0)
    (high : other.load (table.toNat + 4) 4 ≤ table.toNat / 2 ^ 32)
    (swept : other.load (table.toNat + 4) 4 = table.toNat / 2 ^ 32 →
      ∀ j, 2 ^ 32 * (table.toNat / 2 ^ 32) + 4 ≤ j →
        j < 2 ^ 32 * (table.toNat / 2 ^ 32) + 4 * i → other j = 0#8) :
    Overwritten memory table (i + 1) (other.store (other.load table.toNat 8 + 4 * i) 4 0) := by
  have halves := load_halves other table.toNat
  generalize start : other.load table.toNat 8 + 4 * i = address
  have less : ∀ j, other.store address 4 0 j ≤ other j := Memory.store_zero_le other address 4
  have lowHalf : (other.store address 4 0).load table.toNat 4 = 0 := by
    have smaller := Memory.load_mono table.toNat 4 fun j _ _ => less j
    omega
  have highHalf := Memory.load_mono (table.toNat + 4) 4 fun j _ _ => less j
  by_cases same : other.load (table.toNat + 4) 4 = table.toNat / 2 ^ 32
  · -- the bytes behind the high half of the table's address are cleared one after the other
    have zeros : ∀ j, 2 ^ 32 * (table.toNat / 2 ^ 32) + 4 ≤ j →
        j < 2 ^ 32 * (table.toNat / 2 ^ 32) + 4 * (i + 1) → other.store address 4 0 j = 0#8 := by
      intro j lower upper
      by_cases inside : address ≤ j
      · exact Memory.store_zero_of_inside inside (by omega)
      · rw [Memory.store_of_outside (by omega)]
        exact swept same j lower (by omega)
    by_cases reaches : table.toNat + 8 < address + 4
    · left
      have cleared : (other.store address 4 0).load (table.toNat + 4) 4 = 0 :=
        Memory.load_eq_zero fun j lower upper => zeros j (by omega) (by omega)
      rw [load_halves, lowHalf, cleared, Nat.mul_zero]
    · refine Or.inr ⟨?_, lowHalf, Nat.le_trans highHalf high, fun _ => zeros⟩
      intro j lower upper
      rw [Memory.store_of_outside (by omega)]
      exact kept j lower upper
  · -- the pointer is so small by now that the loop stays in front of the table
    have outside : ∀ j, table.toNat ≤ j → other.store address 4 0 j = other j := by
      intro j lower
      exact Memory.store_of_outside (by omega)
    have unchanged : (other.store address 4 0).load (table.toNat + 4) 4 =
        other.load (table.toNat + 4) 4 := Memory.load_congr fun j lower _ => outside j (by omega)
    refine Or.inr ⟨?_, lowHalf, Nat.le_trans highHalf high, ?_⟩
    · intro j lower upper
      rw [outside j (by omega)]
      exact kept j lower upper
    · intro again
      exact absurd (unchanged.symm.trans again) same

/-- An iteration behind the first one. -/
theorem Overwritten.step {other : Memory} (overwritten : Overwritten memory table i other)
    (later : 0 < i) (room : 4 * (i + 1) ≤ 2 ^ 32) :
    Overwritten memory table (i + 1)
      (other.store (pageNumArr other table + 4#64 * BitVec.ofNat 64 i).toNat 4 0) := by
  have pointer := pageNumArr_toNat other table
  rcases overwritten with null | ⟨kept, low, high, swept⟩
  · left
    have smaller := Memory.load_mono table.toNat 8 fun j _ _ => Memory.store_zero_le other
      (pageNumArr other table + 4#64 * BitVec.ofNat 64 i).toNat 4 j
    omega
  · have halves := load_halves other table.toNat
    rw [element_toNat i (by omega), pointer]
    exact Overwritten.next later room kept low high swept

/-- An array in the place of the table takes its own pointer, or leaves the other ones. -/
theorem clearedTable_overwritten (leads : pageNumArr memory table = table)
    (room : 4 * length.toInt.toNat ≤ 2 ^ 32) :
    pageNumArr (clearedTable memory table length) table = 0#64 ∨
      OthersKept table memory (clearedTable memory table length) := by
  unfold clearedTable
  generalize counted : setIntAt (setIntAt (setIntAt memory table 28 0#32) table 32 0#32) table 36
    0#32 = set
  have same : ∀ i, i < table.toNat + 28 → set i = memory i := by
    rw [← counted]
    exact fun i below => counters_outside memory table below
  have kept : OthersKept table memory set := fun i _ upper => same i (by omega)
  have start : pageNumArr set table = table :=
    (arrayAt_congr fun i lower upper => same i (by omega)).trans leads
  have loads : set.load table.toNat 8 = table.toNat := by
    rw [← pageNumArr_toNat, start]
  cases count : length.toInt.toNat with
  | zero => exact Or.inr kept
  | succ n =>
      rw [count] at room
      have first := Overwritten.first kept loads
      have ended : Overwritten memory table (1 + n)
          (clearPageNums table 1 n (set.store table.toNat 4 0)) :=
        clearPageNums_keeps (Overwritten memory table)
          (fun j other lower upper overwritten => overwritten.step lower (by omega)) first
      have address : (pageNumArr set table + 4#64 * BitVec.ofNat 64 0).toNat = table.toNat := by
        rw [start, element_toNat 0 (by omega)]
        rfl
      rw [clearPageNums, address]
      rcases ended with null | ⟨others, _⟩
      · left
        apply BitVec.eq_of_toNat_eq
        rw [pageNumArr_toNat, null]
        rfl
      · exact Or.inr others

/-! ## The result -/

/-- A table whose pointers are set is not missing. -/
theorem fillTable_notNull (notNull : table ≠ 0#64) (first : pageNumArr state.memory table ≠ 0#64)
    (second : frameNumArr state.memory table ≠ 0#64)
    (third : entryAgeArr state.memory table ≠ 0#64)
    (kept : pageNumArr (clearedTable state.memory table length) table = 0#64 ∨
      OthersKept table state.memory (clearedTable state.memory table length)) (after : State) :
    fillTable state table length ≠ some (after, 0#64) := by
  have filled : ¬ (pageNumArr state.memory table = 0#64 ∨ frameNumArr state.memory table = 0#64 ∨
      entryAgeArr state.memory table = 0#64) := by
    simp [first, second, third]
  intro returned
  rw [fillTable, if_neg filled] at returned
  dsimp only at returned
  rw [← clearedTable] at returned
  split at returned
  · cases returned
  · rename_i frames
    have leads := fun null => frames (Or.inr (Or.inl null))
    have others := kept.resolve_left leads
    have ages : entryAgeArr (clearedTable state.memory table length) table ≠ 0#64 := by
      rw [entryAgeArr, arrayAt_congr fun i lower upper => others i (by omega) (by omega)]
      exact third
    rw [if_neg fun missing => missing.elim leads fun missing =>
      missing.elim (fun null => frames (Or.inr (Or.inr null))) ages] at returned
    exact notNull (Prod.mk.inj (Option.some.inj returned)).2

/-- Without one of its arrays a table is freed. -/
theorem fillTable_missing
    (missing : pageNumArr state.memory table = 0#64 ∨ frameNumArr state.memory table = 0#64 ∨
      entryAgeArr state.memory table = 0#64) :
    fillTable state table length = (threadSafeFree state table).map fun state => (state, 0#64) :=
  if_pos missing

end ComputerSystems.ThreadSafeHeap

import ComputerSystems.Polybius.RoundTrip
import ComputerSystems.Text.Runs

/-!
# Decoding any text

The scan of `pbDecode` takes the pairs of digits of every run of digits. A pair that
is a number above 10 gives one character, whatever its digits are, and the result
buffer has room for one character in three.
-/

namespace ComputerSystems.Polybius

open ComputerSystems.Text

/-! ## The pairs of digits -/

/-- The pairs of digits that the loop of `pbDecode` reads as one number. -/
def digitPairs (ciphertext : List Char) : List (Char × Char) :=
  slide Char.isDigit ciphertext

/-- The pairs of a text: each run of digits cut into pairs from its start. -/
def pairsOfRuns (ciphertext : List Char) : List (Char × Char) :=
  (runs Char.isDigit ciphertext).flatMap pairs

/-- The number that `sscanf` reads from a pair. -/
def number (pair : Char × Char) : Nat := twoDigits pair.1 pair.2

/-- What the loop stores for a pair. -/
def stored (table : Table) (pair : Char × Char) : List (Option Char) :=
  if number pair > 10 then [getTableChar (number pair) table] else []

variable {table : Table} {ciphertext : List Char} {pair : Char × Char}

theorem digitPairs_eq (ciphertext : List Char) : digitPairs ciphertext = pairsOfRuns ciphertext :=
  slide_eq ciphertext

/-- The loop stores what its pairs give, one after another. -/
theorem pbDecode_eq_flatMap (table : Table) (ciphertext : List Char) :
    pbDecode table ciphertext = (digitPairs ciphertext).flatMap (stored table) := by
  unfold pbDecode digitPairs
  induction ciphertext using decodeFrom.induct with
  | case1 first second rest digits large ih =>
      rw [decodeFrom, if_pos digits, if_pos large, slide, if_pos digits, List.flatMap_cons, ih,
        stored, number, if_pos large, List.singleton_append]
  | case2 first second rest digits small ih =>
      rw [decodeFrom, if_pos digits, if_neg small, slide, if_pos digits, List.flatMap_cons, ih,
        stored, number, if_neg small, List.nil_append]
  | case3 first second rest apart ih =>
      rw [decodeFrom, if_neg apart, slide, if_neg apart, ih]
  | case4 text short =>
      rw [decodeFrom.eq_2 table text short, slide.eq_2 Char.isDigit text short, List.flatMap_nil]

/-- The number of characters stored is that of the pairs above 10. -/
theorem length_pbDecode (table : Table) (ciphertext : List Char) :
    (pbDecode table ciphertext).length =
      ((pairsOfRuns ciphertext).filter fun pair => 10 < number pair).length := by
  rw [pbDecode_eq_flatMap, digitPairs_eq]
  induction pairsOfRuns ciphertext with
  | nil => rfl
  | cons pair rest ih =>
      rw [List.flatMap_cons, List.length_append, ih, stored, List.filter_cons]
      by_cases large : number pair > 10
      · rw [if_pos large, if_pos (decide_eq_true large), List.length_singleton, List.length_cons,
          Nat.add_comm]
      · rw [if_neg large, if_neg (fun above => large (of_decide_eq_true above)), List.length_nil,
          Nat.zero_add]

/-! ## The result buffer -/

/-- What `pbDecode` stores and the terminating NUL fit into the result buffer of
`len / 3 + 1` bytes. -/
def Fits (table : Table) (ciphertext : List Char) : Prop :=
  (pbDecode table ciphertext).length + 1 ≤ ciphertext.length / 3 + 1

/-- What `getTableIndex` finds is the coordinate of a cell with the character. -/
theorem getTableIndex_cases (a : Char) (table : Table) :
    (∃ i j, a = table (cell i j) ∧ getTableIndex a table = coordinate i j) ∨
      (∀ i j, a ≠ table (cell i j)) ∧ getTableIndex a table = 0 := by
  unfold getTableIndex
  cases search : (List.finRange tableWidth).findSome? (fun i =>
      (List.finRange tableWidth).findSome? fun j =>
        if a = table (cell i j) then some (coordinate i j) else none) with
  | none =>
      refine Or.inr ⟨?_, rfl⟩
      intro i j here
      have row := List.findSome?_eq_none_iff.mp search i (List.mem_finRange i)
      have column := List.findSome?_eq_none_iff.mp row j (List.mem_finRange j)
      rw [if_pos here] at column
      cases column
  | some index =>
      rcases List.exists_of_findSome?_eq_some search with ⟨i, _, row⟩
      rcases List.exists_of_findSome?_eq_some row with ⟨j, _, column⟩
      split at column
      · rename_i here
        exact Or.inl ⟨i, j, here, (Option.some.inj column).symm⟩
      · cases column

theorem coordinate_ne_zero (i j : Fin tableWidth) : coordinate i j ≠ 0 := by
  simp [coordinate]

/-- Every number collected by `pbEncode` is the coordinate of a cell. -/
theorem exists_coordinate {plaintext : List Char} {index : Nat}
    (member : index ∈ coordinates table plaintext) : ∃ i j, index = coordinate i j := by
  rcases List.mem_filter.mp member with ⟨mapped, found⟩
  rcases List.mem_map.mp mapped with ⟨c, _, rfl⟩
  rcases getTableIndex_cases c.toUpper table with ⟨i, j, _, same⟩ | ⟨_, zero⟩
  · exact ⟨i, j, same⟩
  · exact absurd zero (of_decide_eq_true found)

/-- Nothing is collected from a text none of whose characters has a cell. -/
theorem coordinates_eq_nil_iff {plaintext : List Char} :
    coordinates table plaintext = [] ↔
      ∀ c ∈ plaintext, ∀ i j, c.toUpper ≠ table (cell i j) := by
  rw [coordinates, List.filter_eq_nil_iff, List.forall_mem_map]
  refine forall₂_congr fun c _ => ?_
  rcases getTableIndex_cases c.toUpper table with ⟨i, j, here, same⟩ | ⟨missing, zero⟩
  · have found := coordinate_ne_zero i j
    simp only [same, ne_eq, found, not_false_eq_true, decide_true, not_true_eq_false, false_iff]
    intro missing
    exact missing i j here
  · simp only [zero, ne_eq, not_true_eq_false, decide_false, Bool.false_eq_true,
      not_false_eq_true, true_iff]
    exact missing

/-- The number of characters that a group takes. -/
def width : TextType → Nat
  | .withBlank => 3
  | .noBlank => 2

theorem length_formatted (type : TextType) (i j : Fin tableWidth) :
    (formatted type (coordinate i j)).length = width type := by
  revert i j
  cases type <;> decide

theorem length_pbEncode (table : Table) (plaintext : List Char) (type : TextType) :
    (pbEncode table plaintext type).length = (coordinates table plaintext).length * width type := by
  have groups : ∀ index ∈ coordinates table plaintext,
      (formatted type index).length = width type := by
    intro index member
    rcases exists_coordinate member with ⟨i, j, rfl⟩
    exact length_formatted type i j
  rw [pbEncode_eq_flatMap, List.length_flatMap, List.map_congr_left groups, List.map_const',
    List.sum_replicate, smul_eq_mul]

/-- Each group of an encoded text is decoded to one character. -/
theorem length_pbDecode_pbEncode (table : Table) (plaintext : List Char) (type : TextType) :
    (pbDecode table (pbEncode table plaintext type)).length =
      (coordinates table plaintext).length := by
  have groups : ∀ index ∈ coordinates table plaintext, ∃ i j, index = coordinate i j :=
    fun _ member => exists_coordinate member
  rw [pbDecode, pbEncode_eq_flatMap]
  generalize coordinates table plaintext = indices at groups
  induction indices with
  | nil => rfl
  | cons index rest ih =>
      rcases groups index List.mem_cons_self with ⟨i, j, rfl⟩
      rw [List.flatMap_cons, decodeFrom_formatted, List.length_cons,
        ih fun later member => groups later (List.mem_cons_of_mem _ member), List.length_cons]

/-- `pbDecode` stays inside its result buffer exactly when the text has three
characters for every pair above 10. An encoded text with blanks always has; one
without blanks only when it is empty. -/
theorem pbDecode_fits_iff (table : Table) :
    (∀ ciphertext, Fits table ciphertext ↔
      3 * ((pairsOfRuns ciphertext).filter fun pair => 10 < number pair).length ≤
        ciphertext.length) ∧
    (∀ plaintext, Fits table (pbEncode table plaintext .withBlank)) ∧
    ∀ plaintext, Fits table (pbEncode table plaintext .noBlank) ↔
      ∀ c ∈ plaintext, ∀ i j, c.toUpper ≠ table (cell i j) := by
  refine ⟨?_, ?_, ?_⟩
  · intro ciphertext
    rw [Fits, length_pbDecode]
    omega
  · intro plaintext
    rw [Fits, length_pbDecode_pbEncode, length_pbEncode, width]
    omega
  · intro plaintext
    rw [Fits, length_pbDecode_pbEncode, length_pbEncode, width, ← coordinates_eq_nil_iff,
      ← List.length_eq_zero_iff]
    omega

/-- The text `hello`, encoded without blanks, is decoded past the end of the
buffer. -/
theorem not_fits_without_blanks :
    ¬ ∀ (table : Table) (ciphertext : List Char), Fits table ciphertext := by
  intro always
  have fits := always (default : Square).table
    (pbEncode (default : Square).table "hello".toList .noBlank)
  exact absurd fits (by unfold Fits; decide)

/-! ## The cells that are read -/

/-- The number that a digit stands for. -/
def digit (c : Char) : Nat := c.toNat - '0'.toNat

/-- Both digits of a pair name a row or a column of the table. -/
def InTable (pair : Char × Char) : Prop :=
  (1 ≤ digit pair.1 ∧ digit pair.1 ≤ tableWidth) ∧ 1 ≤ digit pair.2 ∧ digit pair.2 ≤ tableWidth

instance : DecidablePred InTable := fun pair =>
  inferInstanceAs (Decidable ((1 ≤ digit pair.1 ∧ digit pair.1 ≤ tableWidth) ∧
    1 ≤ digit pair.2 ∧ digit pair.2 ≤ tableWidth))

/-- The array index of the access in `getTableChar`. -/
def tablePosition (index : Nat) : Int :=
  ((index / 10 : Nat) - 1) * tableWidth + ((index % 10 : Nat) - 1)

/-- Every access of the scan lies in the table, at the row and the column that the
digits name, and the other pairs add nothing to the result. -/
structure SafeScan (table : Table) (ciphertext : List Char) : Prop where
  inside : ∀ pair ∈ digitPairs ciphertext, 10 < number pair →
    0 ≤ tablePosition (number pair) ∧ tablePosition (number pair) ≤ 24
  named : ∀ pair ∈ digitPairs ciphertext, 10 < number pair → ∃ i j : Fin tableWidth,
    digit pair.1 = i + 1 ∧ digit pair.2 = j + 1 ∧
      tablePosition (number pair) = (cell i j : Nat) ∧
      getTableChar (number pair) table = some (table (cell i j)).toLower
  ignored : pbDecode table ciphertext =
    ((digitPairs ciphertext).filter fun pair => InTable pair).flatMap (stored table)

/-- A pair in the table is the coordinate of its cell. -/
theorem InTable.coordinate (inTable : InTable pair) :
    ∃ i j : Fin tableWidth, digit pair.1 = i + 1 ∧ digit pair.2 = j + 1 ∧
      number pair = coordinate i j := by
  rcases inTable with ⟨⟨rowPositive, row⟩, columnPositive, column⟩
  refine ⟨⟨digit pair.1 - 1, by omega⟩, ⟨digit pair.2 - 1, by omega⟩, ?_, ?_, ?_⟩
  · dsimp only
    omega
  · dsimp only
    omega
  · simp only [number, twoDigits, Polybius.coordinate]
    unfold digit at rowPositive columnPositive ⊢
    omega

theorem tablePosition_coordinate (i j : Fin tableWidth) :
    tablePosition (coordinate i j) = (cell i j : Nat) := by
  revert i j
  decide

/-- Pairs that store nothing can be left out. -/
theorem flatMap_stored_filter {kept : List (Char × Char)}
    (small : ∀ pair ∈ kept, 10 < number pair → InTable pair) :
    kept.flatMap (stored table) =
      (kept.filter fun pair => InTable pair).flatMap (stored table) := by
  induction kept with
  | nil => rfl
  | cons pair rest ih =>
      have later := ih fun other member => small other (List.mem_cons_of_mem _ member)
      rw [List.flatMap_cons, later, List.filter_cons]
      by_cases inTable : InTable pair
      · rw [if_pos (decide_eq_true inTable), List.flatMap_cons]
      · have nothing : ¬ number pair > 10 := fun large =>
          inTable (small pair List.mem_cons_self large)
        rw [if_neg (fun true => inTable (of_decide_eq_true true)), stored, if_neg nothing,
          List.nil_append]

/-- The scan is safe exactly when every pair above 10 has both digits in 1..5. -/
theorem pbDecode_safe_iff (table : Table) (ciphertext : List Char) :
    SafeScan table ciphertext ↔
      ∀ pair ∈ pairsOfRuns ciphertext, 10 < number pair →
        (1 ≤ digit pair.1 ∧ digit pair.1 ≤ 5) ∧ 1 ≤ digit pair.2 ∧ digit pair.2 ≤ 5 := by
  rw [← digitPairs_eq]
  constructor
  · intro safe pair member large
    rcases safe.named pair member large with ⟨i, j, row, column, _⟩
    have rowBound : (i : Nat) < 5 := i.isLt
    have columnBound : (j : Nat) < 5 := j.isLt
    omega
  · intro inTable
    have named : ∀ pair ∈ digitPairs ciphertext, 10 < number pair → InTable pair := inTable
    constructor
    · intro pair member large
      rcases (named pair member large).coordinate with ⟨i, j, _, _, same⟩
      have bound : (cell i j : Nat) < 25 := (cell i j).isLt
      rw [same, tablePosition_coordinate]
      omega
    · intro pair member large
      rcases (named pair member large).coordinate with ⟨i, j, row, column, same⟩
      rw [same]
      exact ⟨i, j, row, column, tablePosition_coordinate i j, getTableChar_coordinate table i j⟩
    · rw [pbDecode_eq_flatMap]
      exact flatMap_stored_filter named

/-- The text `16` reads the cell in the second row and the first column. -/
theorem not_safeScan_one_six :
    ¬ ∀ (table : Table) (ciphertext : List Char), SafeScan table ciphertext := by
  intro always
  have safe := always (default : Square).table "16".toList
  rcases safe.named ('1', '6') (by decide) (by decide) with ⟨i, j, _, column, _⟩
  have bound : (j : Nat) < 5 := j.isLt
  have six : digit ('1', '6').2 = 6 := by decide
  omega

end ComputerSystems.Polybius

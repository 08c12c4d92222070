import ComputerSystems.Polybius.Core
import Mathlib

/-!
# Decoding an encoded text

Coordinates and cells of a table that is a permutation of the alphabet name each
other. The decoder meets the two digits of each coordinate together, since a
group is either these two digits or the two digits and one blank, which it
passes over alone. The facts on letter case come with the whole library only.
-/

namespace ComputerSystems.Polybius

/-! ## Letters -/

/-- A character that the tables have a letter for. -/
def encodable (c : Char) : Bool := c.isAlpha && c != 'j' && c != 'J'

/-- What is left of a text after encoding and decoding it. -/
def readable (plaintext : List Char) : List Char :=
  (plaintext.filter encodable).map Char.toLower

theorem nodup_alphabet : alphabet.Nodup := by decide

theorem mem_alphabet_iff {c : Char} : c ∈ alphabet ↔ c.isUpper ∧ c ≠ 'J' := by
  constructor
  · intro member
    have letters : alphabet.all fun c => c.isUpper && c != 'J' := by decide
    simpa using List.all_eq_true.mp letters c member
  · rintro ⟨upper, notJ⟩
    have range : 65 ≤ c.toNat ∧ c.toNat ≤ 90 := by
      simpa [Char.isUpper, UInt32.le_iff_toNat_le] using upper
    have letters : ∀ n : Fin 26, Char.ofNat (65 + n) ≠ 'J' → Char.ofNat (65 + n) ∈ alphabet := by
      decide
    have named := letters ⟨c.toNat - 65, by omega⟩
    rw [show 65 + (c.toNat - 65) = c.toNat by omega, Char.ofNat_toNat] at named
    exact named notJ

theorem toUpper_eq_J_iff {c : Char} : c.toUpper = 'J' ↔ c = 'j' ∨ c = 'J' := by
  constructor
  · intro upper
    by_cases lower : c.isLower
    · left
      have small := Char.toLower_eq_of_not_isUpper (c := c) (by
        intro isUpper
        simp [Char.isUpper, Char.isLower, UInt32.le_iff_toNat_le] at isUpper lower
        omega)
      rw [← small, ← Char.toLower_toUpper_eq_toLower, upper]
      rfl
    · right
      rwa [Char.toUpper_eq_of_not_isLower lower] at upper
  · rintro (rfl | rfl) <;> rfl

/-- A character has a cell after it is converted to upper case exactly when it is
encodable. -/
theorem toUpper_mem_alphabet (c : Char) : c.toUpper ∈ alphabet ↔ encodable c := by
  rw [mem_alphabet_iff, Char.isUpper_toUpper_eq_isAlpha, Ne, toUpper_eq_J_iff]
  simp [encodable, and_assoc]

/-! ## Cells and coordinates -/

theorem getTableChar_coordinate (table : Table) (i j : Fin tableWidth) :
    getTableChar (coordinate i j) table = some (table (cell i j)).toLower := by
  have places : ∀ i j : Fin tableWidth,
      ((coordinate i j / 10 : Nat) - 1 : Int) * tableWidth + ((coordinate i j % 10 : Nat) - 1) =
        (cell i j : Nat) := by decide
  simp only [getTableChar, places]
  rw [dif_pos ⟨Int.natCast_nonneg _, by simp⟩]
  rfl

theorem exists_cell (position : Fin (tableWidth * tableWidth)) : ∃ i j, position = cell i j := by
  revert position
  decide

theorem cell_injective {i j k l : Fin tableWidth} (same : cell i j = cell k l) :
    i = k ∧ j = l := by
  have cells : ∀ i j k l : Fin tableWidth, cell i j = cell k l → i = k ∧ j = l := by decide
  exact cells i j k l same

theorem Square.injective (square : Square) : Function.Injective square.table := by
  rw [← List.nodup_ofFn, square.perm.nodup_iff]
  exact nodup_alphabet

theorem Square.mem_iff (square : Square) {a : Char} :
    a ∈ alphabet ↔ ∃ i j, square.table (cell i j) = a := by
  rw [← square.perm.mem_iff, List.mem_ofFn]
  constructor
  · rintro ⟨position, rfl⟩
    rcases exists_cell position with ⟨i, j, rfl⟩
    exact ⟨i, j, rfl⟩
  · rintro ⟨i, j, rfl⟩
    exact ⟨cell i j, rfl⟩

/-- A search that only one index can end finds that index. -/
theorem findSome?_unique {n : Nat} {β : Type*} {f : Fin n → Option β} {i : Fin n} {b : β}
    (here : f i = some b) (others : ∀ k, k ≠ i → f k = none) :
    (List.finRange n).findSome? f = some b := by
  cases search : (List.finRange n).findSome? f with
  | none =>
      have missing := List.findSome?_eq_none_iff.mp search i (List.mem_finRange i)
      rw [here] at missing
      cases missing
  | some found =>
      rcases List.exists_of_findSome?_eq_some search with ⟨k, _, at_k⟩
      by_cases same : k = i
      · rw [← at_k, same, here]
      · rw [others k same] at at_k
        cases at_k

/-- Each cell of a square is named by the coordinate found for its letter. -/
theorem Square.getTableIndex_cell (square : Square) (i j : Fin tableWidth) :
    getTableIndex (square.table (cell i j)) square.table = coordinate i j := by
  rw [getTableIndex, findSome?_unique (i := i) (b := coordinate i j), Option.getD_some]
  · apply findSome?_unique (i := j)
    · exact if_pos rfl
    · intro k apart
      apply if_neg
      intro same
      exact apart (cell_injective (square.injective same)).2.symm
  · intro k apart
    rw [List.findSome?_eq_none_iff]
    intro l _
    apply if_neg
    intro same
    exact apart (cell_injective (square.injective same)).1.symm

theorem Square.getTableIndex_of_notMem (square : Square) {a : Char} (missing : a ∉ alphabet) :
    getTableIndex a square.table = 0 := by
  rw [getTableIndex, List.findSome?_eq_none_iff.mpr, Option.getD_none]
  intro i _
  rw [List.findSome?_eq_none_iff]
  intro j _
  apply if_neg
  rintro rfl
  exact missing (square.mem_iff.mpr ⟨i, j, rfl⟩)

/-! ## The scan -/

/-- An encoded text is its groups one after another. -/
theorem pbEncode_eq_flatMap (table : Table) (plaintext : List Char) (type : TextType) :
    pbEncode table plaintext type = (coordinates table plaintext).flatMap (formatted type) := by
  have appended : ∀ (indices : List Nat) (ciphertext : List Char),
      indices.foldl (fun text index => text ++ formatted type index) ciphertext =
        ciphertext ++ indices.flatMap (formatted type) := by
    intro indices
    induction indices with
    | nil => simp
    | cons index rest ih => simp [ih]
  rw [pbEncode, appended, List.nil_append]

/-- A blank is passed over alone. -/
theorem decodeFrom_blank (table : Table) (rest : List Char) :
    decodeFrom table (' ' :: rest) = decodeFrom table rest := by
  cases rest with
  | nil => rfl
  | cons second rest => simp [decodeFrom, Char.isDigit]

/-- One group gives one character, and the scan goes on right after it. -/
theorem decodeFrom_formatted (table : Table) (type : TextType) (i j : Fin tableWidth)
    (rest : List Char) :
    decodeFrom table (formatted type (coordinate i j) ++ rest) =
      some (table (cell i j)).toLower :: decodeFrom table rest := by
  have groups : ∀ i j : Fin tableWidth, ∃ first second,
      formatted .noBlank (coordinate i j) = [first, second] ∧
      formatted .withBlank (coordinate i j) = [first, second, ' '] ∧
      (first.isDigit && second.isDigit) = true ∧ twoDigits first second = coordinate i j ∧
      coordinate i j > 10 := by
    intro i j
    refine ⟨Nat.digitChar (i + 1), Nat.digitChar (j + 1), ?_⟩
    revert i j
    decide
  rcases groups i j with ⟨first, second, plain, padded, digits, number, large⟩
  cases type with
  | noBlank =>
      rw [plain]
      simp only [List.cons_append, List.nil_append, decodeFrom, digits, number, large, if_true,
        getTableChar_coordinate]
  | withBlank =>
      rw [padded]
      simp only [List.cons_append, List.nil_append, decodeFrom, digits, number, large, if_true,
        getTableChar_coordinate, decodeFrom_blank]

/-! ## The round trip -/

section RoundTrip

variable (square : Square) (type : TextType)

theorem coordinates_cons (table : Table) (c : Char) (rest : List Char) :
    coordinates table (c :: rest) =
      [getTableIndex c.toUpper table].filter (· ≠ 0) ++ coordinates table rest := by
  rw [coordinates, coordinates, List.map_cons, ← List.filter_append, List.singleton_append]

theorem coordinates_cons_of_not_encodable {c : Char} (skipped : ¬ encodable c)
    (rest : List Char) :
    coordinates square.table (c :: rest) = coordinates square.table rest := by
  have missing : c.toUpper ∉ alphabet := by rwa [toUpper_mem_alphabet]
  simp [coordinates, square.getTableIndex_of_notMem missing]

/-- An encodable character has a cell whose coordinate is collected. -/
theorem coordinates_cons_of_encodable {c : Char} (kept : encodable c) (rest : List Char) :
    ∃ i j, square.table (cell i j) = c.toUpper ∧
      coordinates square.table (c :: rest) = coordinate i j :: coordinates square.table rest := by
  rcases square.mem_iff.mp ((toUpper_mem_alphabet c).mpr kept) with ⟨i, j, here⟩
  refine ⟨i, j, here, ?_⟩
  have index := square.getTableIndex_cell i j
  have positive : coordinate i j ≠ 0 := by simp [coordinate]
  rw [here] at index
  simp [coordinates, index, positive]

theorem pbDecode_pbEncode (plaintext : List Char) :
    pbDecode square.table (pbEncode square.table plaintext type) =
      (readable plaintext).map some := by
  rw [pbDecode, pbEncode_eq_flatMap]
  induction plaintext with
  | nil => rfl
  | cons c rest ih =>
      by_cases kept : encodable c
      · rcases coordinates_cons_of_encodable square kept rest with ⟨i, j, here, collected⟩
        rw [collected, List.flatMap_cons, decodeFrom_formatted, ih, here,
          Char.toLower_toUpper_eq_toLower]
        simp [readable, kept]
      · rw [coordinates_cons_of_not_encodable square kept, ih]
        simp [readable, kept]

/-- The coordinates of a text are those of its readable part. -/
theorem coordinates_readable (plaintext : List Char) :
    coordinates square.table (readable plaintext) = coordinates square.table plaintext := by
  induction plaintext with
  | nil => rfl
  | cons c rest ih =>
      by_cases kept : encodable c
      · have split : readable (c :: rest) = c.toLower :: readable rest := by simp [readable, kept]
        rw [split, coordinates_cons, coordinates_cons, ih, Char.toUpper_toLower_eq_toUpper]
      · have split : readable (c :: rest) = readable rest := by simp [readable, kept]
        rw [split, ih, coordinates_cons_of_not_encodable square kept]

/-- Decoding an encoded text gives its encodable characters in lower case, and
encoding these again gives the same ciphertext. -/
theorem pbDecode_pbEncode_readable (plaintext : List Char) :
    ∃ result, pbDecode square.table (pbEncode square.table plaintext type) = result.map some ∧
      result = (plaintext.filter fun c => c.isAlpha && c != 'j' && c != 'J').map Char.toLower ∧
      pbEncode square.table result type = pbEncode square.table plaintext type := by
  refine ⟨readable plaintext, pbDecode_pbEncode square type plaintext, rfl, ?_⟩
  rw [pbEncode, pbEncode, coordinates_readable]

end RoundTrip

end ComputerSystems.Polybius

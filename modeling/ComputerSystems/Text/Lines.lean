import Mathlib.Data.List.TakeWhile

/-!
# Lines and numbers

`fgets` cuts a file into lines, and a line that does not fit into its buffer into
pieces of the size of the buffer. `atoi` reads the number at the start of a string.
-/

namespace ComputerSystems.Text

/-- The character that ends a line. -/
def newline : UInt8 := 10

/-- A character of a line. -/
def inLine (c : UInt8) : Bool := c != newline

/-- `fgets` into a buffer of a size above one: the string that it stores, and what is
left of the file. At the end of the file it returns NULL. -/
def fgets (size : Nat) (file : List UInt8) : Option (List UInt8 × List UInt8) :=
  let available := file.take (size - 1)
  let line := available.takeWhile inLine
  let length := if line.length < available.length then line.length + 1 else line.length
  if available = [] then none else some (file.take length, file.drop length)

/-- `isspace`. -/
def isspace (c : UInt8) : Bool := c == 32 || 9 ≤ c && c ≤ 13

/-- `isdigit`. -/
def isdigit (c : UInt8) : Bool := 48 ≤ c && c ≤ 57

/-- The value of decimal digits. -/
def decimalValue (digits : List UInt8) : Nat :=
  digits.foldl (fun value c => 10 * value + (c.toNat - 48)) 0

/-- `atoi` of a string whose number fits in an `int`. -/
def atoi (text : List UInt8) : BitVec 32 :=
  let magnitude (text : List UInt8) : BitVec 32 :=
    BitVec.ofNat 32 (decimalValue (text.takeWhile isdigit))
  match text.dropWhile isspace with
  | 45 :: rest => -magnitude rest
  | 43 :: rest => magnitude rest
  | text => magnitude text

variable {size : Nat} {file text rest digits : List UInt8}

/-! ## Reading a line -/

/-- A call of `fgets` that returns a string takes characters from the file. -/
theorem fgets_length (read : fgets size file = some (text, rest)) :
    rest.length < file.length := by
  unfold fgets at read
  dsimp only at read
  split at read
  · cases read
  · rename_i some
    cases read
    rw [List.length_drop]
    have available : 0 < (file.take (size - 1)).length := List.length_pos_iff.mpr some
    have part : (file.take (size - 1)).length ≤ file.length := List.length_take_le' _ _
    split
    · omega
    · rename_i whole
      omega

/-- At the end of the file there is nothing to read. -/
theorem fgets_nil (size : Nat) : fgets size [] = none := by
  rw [fgets, List.take_nil, if_pos rfl]

theorem takeWhile_line (line : ∀ c ∈ text, c ≠ newline) (rest : List UInt8) :
    (text ++ newline :: rest).takeWhile inLine = text := by
  have inside : ∀ c ∈ text, inLine c = true := fun c member => bne_iff_ne.mpr (line c member)
  rw [List.takeWhile_append_of_pos inside, List.takeWhile_cons_of_neg (by decide),
    List.append_nil]

/-- A line that fits into the buffer is read whole. -/
theorem fgets_line (line : ∀ c ∈ text, c ≠ newline) (fits : text.length + 1 < size) :
    fgets size (text ++ newline :: rest) = some (text ++ [newline], rest) := by
  have split : text ++ newline :: rest = (text ++ [newline]) ++ rest := by
    rw [List.append_assoc, List.singleton_append]
  have length : (text ++ [newline]).length = text.length + 1 := by
    rw [List.length_append, List.length_singleton]
  have available : (text ++ newline :: rest).take (size - 1) =
      text ++ newline :: rest.take (size - 1 - (text.length + 1)) := by
    rw [split, List.take_append, length, List.take_of_length_le (by omega), List.append_assoc,
      List.singleton_append]
  unfold fgets
  dsimp only
  rw [available, takeWhile_line line, if_neg (List.append_ne_nil_of_right_ne_nil _ (by simp)),
    if_pos (by rw [List.length_append, List.length_cons]; omega), split, ← length,
    List.take_left, List.drop_left]

/-- Of a longer line, as much is read as the buffer can hold. -/
theorem fgets_piece (large : 1 < size) (line : ∀ c ∈ text, c ≠ newline)
    (long : size - 1 ≤ text.length) :
    fgets size (text ++ newline :: rest) =
      some (text.take (size - 1), text.drop (size - 1) ++ newline :: rest) := by
  have available : (text ++ newline :: rest).take (size - 1) = text.take (size - 1) :=
    List.take_append_of_le_length long
  have length : (text.take (size - 1)).length = size - 1 := by
    rw [List.length_take]
    omega
  have whole : (text.take (size - 1)).takeWhile inLine = text.take (size - 1) := by
    apply List.takeWhile_eq_self_iff.mpr
    intro c member
    exact bne_iff_ne.mpr (line c (List.mem_of_mem_take member))
  have some : text.take (size - 1) ≠ [] := by
    rw [← List.length_pos_iff, length]
    omega
  unfold fgets
  dsimp only
  rw [available, whole, if_neg some, if_neg (Nat.lt_irrefl _), length, available,
    List.drop_append_of_le_length long]

/-! ## Reading a number -/

theorem isspace_of_digit {c : UInt8} (digit : isdigit c = true) : isspace c = false := by
  rw [isdigit, Bool.and_eq_true, decide_eq_true_eq, decide_eq_true_eq, UInt8.le_iff_toNat_le,
    UInt8.le_iff_toNat_le] at digit
  have apart : c ≠ 32 := by
    rintro rfl
    exact absurd digit.1 (by decide)
  have behind : ¬ c ≤ 13 := by
    rw [UInt8.le_iff_toNat_le]
    have lower : 48 ≤ c.toNat := digit.1
    have upper : (13 : UInt8).toNat = 13 := rfl
    omega
  rw [isspace, beq_eq_false_iff_ne.mpr apart, decide_eq_false behind, Bool.and_false,
    Bool.or_false]

/-- Digits in front of another character are read as their value. -/
theorem atoi_digits (some : digits ≠ []) (decimal : ∀ c ∈ digits, isdigit c = true)
    (ended : isdigit (rest.headD 0) = false) :
    atoi (digits ++ rest) = BitVec.ofNat 32 (decimalValue digits) := by
  have behind : rest.takeWhile isdigit = [] := by
    cases rest with
    | nil => rfl
    | cons c rest =>
        rw [List.headD_cons] at ended
        exact List.takeWhile_cons_of_neg (by rw [ended]; nofun)
  have front : (digits ++ rest).takeWhile isdigit = digits := by
    rw [List.takeWhile_append_of_pos decimal, behind, List.append_nil]
  cases digits with
  | nil => exact absurd rfl some
  | cons c digits =>
      have digit := decimal c List.mem_cons_self
      have starts : (c :: digits ++ rest).dropWhile isspace = c :: (digits ++ rest) := by
        rw [List.cons_append, List.dropWhile_cons_of_neg (by rw [isspace_of_digit digit]; nofun)]
      unfold atoi
      dsimp only
      rw [starts]
      split
      · rename_i same
        cases same
        exact absurd digit (by decide)
      · rename_i same
        cases same
        exact absurd digit (by decide)
      · rename_i same
        rw [List.cons_append] at front
        rw [front]

end ComputerSystems.Text

import Mathlib.Data.List.FinRange
import Mathlib.Data.List.OfFn

/-!
# The Polybius cipher

The functions of `A2/polybius.c` that encode and decode a text. A C string is
the list of its characters before the terminating NUL. `sprintf` into its own
argument appends; the capacities of the buffers are left out.
-/

namespace ComputerSystems.Polybius

/-- `TABLE_WIDTH`. -/
def tableWidth : Nat := 5

/-- `ALPHABET`: the letters of a table, J left out. -/
def alphabet : List Char := "ABCDEFGHIKLMNOPQRSTUVWXYZ".toList

/-- The cells of a table, row after row. -/
abbrev Table := Fin (tableWidth * tableWidth) → Char

/-- `enum TEXT_TYPE`. -/
inductive TextType
  | withBlank
  | noBlank
  deriving DecidableEq

/-- The cell in a row and a column. -/
def cell (i j : Fin tableWidth) : Fin (tableWidth * tableWidth) :=
  ⟨i * tableWidth + j, by
    have row := i.isLt
    have column := j.isLt
    simp only [tableWidth] at row column ⊢
    omega⟩

/-- The digits of a row and a column, counted from one, as one number. -/
def coordinate (i j : Fin tableWidth) : Nat := (i + 1) * 10 + (j + 1)

/-- `getTableIndex`: the coordinate of the first cell that holds a character, and
zero when there is none. -/
def getTableIndex (a : Char) (table : Table) : Nat :=
  ((List.finRange tableWidth).findSome? fun i =>
    (List.finRange tableWidth).findSome? fun j =>
      if a = table (cell i j) then some (coordinate i j) else none).getD 0

/-- `getTableChar`: the lowercased character at a coordinate, without a check that
the coordinate has a cell. A read outside the table has no value. -/
def getTableChar (index : Nat) (table : Table) : Option Char :=
  let i : Int := (index / 10 : Nat) - 1
  let j : Int := (index % 10 : Nat) - 1
  let position := i * tableWidth + j
  if inside : 0 ≤ position ∧ position.toNat < tableWidth * tableWidth then
    some (table ⟨position.toNat, inside.2⟩).toLower
  else
    none

/-- What `sprintf` appends for one coordinate: `%-3d` or `%d`. -/
def formatted (type : TextType) (index : Nat) : List Char :=
  match type with
  | .withBlank => (Nat.toDigits 10 index).rightpad 3 ' '
  | .noBlank => Nat.toDigits 10 index

/-- The array of coordinates that `pbEncode` collects: a character without one is
left out. -/
def coordinates (table : Table) (plaintext : List Char) : List Nat :=
  (plaintext.map fun c => getTableIndex c.toUpper table).filter (· ≠ 0)

/-- `pbEncode`. -/
def pbEncode (table : Table) (plaintext : List Char) (type : TextType) : List Char :=
  (coordinates table plaintext).foldl
    (fun ciphertext index => ciphertext ++ formatted type index) []

/-- What `sscanf` with `%2d` reads from two digits. -/
def twoDigits (first second : Char) : Nat :=
  10 * (first.toNat - '0'.toNat) + (second.toNat - '0'.toNat)

/-- The loop of `pbDecode` on the text from position `i` on, while two characters
are left: it passes over both when they are digits and over one otherwise. -/
def decodeFrom (table : Table) : List Char → List (Option Char)
  | first :: second :: rest =>
      if first.isDigit && second.isDigit then
        if twoDigits first second > 10 then
          getTableChar (twoDigits first second) table :: decodeFrom table rest
        else
          decodeFrom table rest
      else
        decodeFrom table (second :: rest)
  | _ => []

/-- `pbDecode`: the characters stored in the result, `none` for one that was read
from outside the table. -/
def pbDecode (table : Table) (ciphertext : List Char) : List (Option Char) :=
  decodeFrom table ciphertext

/-- A table that is a permutation of the alphabet. -/
structure Square where
  table : Table
  perm : (List.ofFn table).Perm alphabet

instance : Inhabited Square :=
  ⟨fun i => alphabet.get (i.cast (by decide)), by decide⟩

example :
    pbEncode (default : Square).table "Jazz, ok?".toList .withBlank =
      "11 55 55 34 25 ".toList := by
  decide

example : pbDecode (default : Square).table "11 5555 3425".toList = "azzok".toList.map some := by
  decide

end ComputerSystems.Polybius

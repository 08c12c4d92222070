import ComputerSystems.Memory.Bytes

/-!
# Files

A file is a size and a byte for every position below it. A read stops at the
end of the file; what a file is extended by reads as zero.
-/

namespace ComputerSystems

/-- An open file. -/
structure File where
  contents : Memory
  size : Nat

namespace File

variable {file : File} {offset count size : Nat}

/-- The contents, with zeros after the end. -/
def padded (file : File) : Memory :=
  fun i => if i < file.size then file.contents i else 0#8

/-- `ftruncate`. -/
def ftruncate (file : File) (size : Nat) : File where
  contents := file.padded
  size := size

/-- `read` of at most `count` bytes at an offset. -/
def read (file : File) (offset count : Nat) : List (BitVec 8) :=
  file.contents.bytes offset (min count (file.size - offset))

/-- `write` of some bytes at an offset. -/
def write (file : File) (offset : Nat) (data : List (BitVec 8)) : File where
  contents := file.padded.copy offset data
  size := max file.size (offset + data.length)

/-- A read is full when the file reaches far enough. -/
theorem read_eq_bytes (inside : offset + count ≤ file.size) :
    file.read offset count = file.contents.bytes offset count := by
  rw [read, Nat.min_eq_left (Nat.le_sub_of_add_le (Nat.add_comm _ _ ▸ inside))]

/-- The first bytes of what is read. -/
theorem read_take {first : Nat} (less : first ≤ count) :
    (file.read offset count).take first = file.read offset first := by
  rw [read, Memory.bytes_take, read, ← Nat.min_assoc, Nat.min_eq_left less]

/-- Nothing is read from an empty file. -/
theorem read_empty (empty : file.size = 0) : file.read offset count = [] := by
  rw [read, empty, Nat.zero_sub, Nat.min_zero, Memory.bytes]

/-- A write stores its bytes from its offset on. -/
theorem contents_write_inside (file : File) {data : List (BitVec 8)} {i : Nat}
    (lower : offset ≤ i) (upper : i < offset + data.length) :
    data[i - offset]? = some ((file.write offset data).contents i) := by
  have copied := Memory.bytes_copy_same file.padded offset data
  have cell := congrArg (·[i - offset]?) copied
  rw [← cell, Memory.getElem?_bytes _ (by omega), Nat.add_sub_cancel' lower]
  rfl

/-- A write leaves the other positions alone; those behind the old end are zero. -/
theorem contents_write_outside (file : File) {data : List (BitVec 8)} {i : Nat}
    (outside : i < offset ∨ offset + data.length ≤ i) :
    (file.write offset data).contents i = file.padded i :=
  Memory.copy_of_outside outside

end File

end ComputerSystems

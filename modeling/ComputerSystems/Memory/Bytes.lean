import Mathlib.Algebra.Group.Nat.Defs
import Mathlib.Logic.Function.Basic

/-!
# Byte memory

Memory is a byte for every address. A value of several bytes is loaded and
stored little end first; a store changes the bytes it covers and no others, so
what a load returns afterwards depends only on how the two ranges lie.
-/

namespace ComputerSystems

/-- One byte for every address. -/
abbrev Memory := Nat → BitVec 8

namespace Memory

/-- The value of `width` bytes, the least significant one first. -/
def load (memory : Memory) (address : Nat) : Nat → Nat
  | 0 => 0
  | width + 1 => (memory address).toNat + 256 * load memory (address + 1) width

/-- Store the low `width` bytes of a value, the least significant one first. -/
def store (memory : Memory) (address : Nat) : Nat → Nat → Memory
  | 0, _ => memory
  | width + 1, value =>
      store (Function.update memory address (BitVec.ofNat 8 value)) (address + 1) width
        (value / 256)

variable {memory other : Memory} {address start width span value i : Nat}

theorem load_lt (memory : Memory) (address width : Nat) :
    load memory address width < 256 ^ width := by
  induction width generalizing address with
  | zero => exact Nat.one_pos
  | succ width ih =>
      have low := (memory address).isLt
      have high := ih (address + 1)
      rw [load, Nat.pow_succ]
      omega

/-- A load reads only the bytes it covers. -/
theorem load_congr (same : ∀ i, address ≤ i → i < address + width → other i = memory i) :
    load other address width = load memory address width := by
  induction width generalizing address with
  | zero => rfl
  | succ width ih =>
      rw [load, load, same address (Nat.le_refl _) (by omega)]
      rw [ih fun i lower upper => same i (by omega) (by omega)]

theorem load_eq_zero (zero : ∀ i, address ≤ i → i < address + width → memory i = 0#8) :
    load memory address width = 0 := by
  induction width generalizing address with
  | zero => rfl
  | succ width ih =>
      rw [load, zero address (Nat.le_refl _) (by omega)]
      rw [ih fun i lower upper => zero i (by omega) (by omega)]
      rfl

/-- Smaller bytes make a smaller value. -/
theorem load_mono (address width : Nat)
    (le : ∀ i, address ≤ i → i < address + width → other i ≤ memory i) :
    load other address width ≤ load memory address width := by
  induction width generalizing address with
  | zero => exact Nat.le_refl _
  | succ width ih =>
      have low := BitVec.le_def.mp (le address (Nat.le_refl _) (by omega))
      have high := ih (address + 1) fun i lower upper => le i (by omega) (by omega)
      rw [load, load]
      omega

/-- The low and the high bytes of a value. -/
theorem load_add (memory : Memory) (address low high : Nat) :
    load memory address (low + high) =
      load memory address low + 256 ^ low * load memory (address + low) high := by
  induction low generalizing address with
  | zero => rw [Nat.zero_add, load, Nat.pow_zero, Nat.one_mul, Nat.zero_add, Nat.add_zero]
  | succ low ih =>
      rw [Nat.add_right_comm, load, load, ih, Nat.pow_succ', Nat.mul_add, Nat.mul_assoc,
        ← Nat.add_assoc, Nat.add_right_comm address, Nat.add_assoc address]

/-- A store changes only the bytes it covers. -/
theorem store_of_outside (outside : i < address ∨ address + width ≤ i) :
    store memory address width value i = memory i := by
  induction width generalizing memory address value with
  | zero => rfl
  | succ width ih =>
      rw [store, ih (by omega), Function.update_of_ne (by omega)]

/-- A store of zero clears the bytes it covers. -/
theorem store_zero_of_inside (lower : address ≤ i) (upper : i < address + width) :
    store memory address width 0 i = 0#8 := by
  induction width generalizing memory address with
  | zero => omega
  | succ width ih =>
      rw [store, Nat.zero_div]
      by_cases here : i = address
      · rw [here, store_of_outside (Or.inl (Nat.lt_succ_self address)), Function.update_self]
      · exact ih (by omega) (by omega)

/-- A store of zero makes no byte larger. -/
theorem store_zero_le (memory : Memory) (address width i : Nat) :
    store memory address width 0 i ≤ memory i := by
  by_cases inside : address ≤ i ∧ i < address + width
  · rw [store_zero_of_inside inside.1 inside.2]
    exact BitVec.le_def.mpr (Nat.zero_le _)
  · rw [store_of_outside (by omega)]
    exact BitVec.le_refl _

theorem load_store_of_disjoint (disjoint : address + width ≤ start ∨ start + span ≤ address) :
    load (store memory address width value) start span = load memory start span :=
  load_congr fun _ _ _ => store_of_outside (by omega)

theorem load_store_same :
    load (store memory address width value) address width = value % 256 ^ width := by
  induction width generalizing memory address value with
  | zero => rw [load, Nat.pow_zero, Nat.mod_one]
  | succ width ih =>
      have low : store memory address (width + 1) value address = BitVec.ofNat 8 value := by
        rw [store, store_of_outside (by omega), Function.update_self]
      have power : 256 ^ (width + 1) = 256 * 256 ^ width := Nat.pow_succ'
      rw [load, low, store, ih, BitVec.toNat_ofNat, power, Nat.mod_mul]

/-! ## Ranges of bytes -/

/-- The bytes of a range. -/
def bytes (memory : Memory) (address : Nat) : Nat → List (BitVec 8)
  | 0 => []
  | width + 1 => memory address :: bytes memory (address + 1) width

/-- Copy bytes to a range. -/
def copy (memory : Memory) (address : Nat) : List (BitVec 8) → Memory
  | [] => memory
  | byte :: rest => copy (Function.update memory address byte) (address + 1) rest

variable {data : List (BitVec 8)}

@[simp]
theorem length_bytes (memory : Memory) (address width : Nat) :
    (bytes memory address width).length = width := by
  induction width generalizing address with
  | zero => rfl
  | succ width ih => rw [bytes, List.length_cons, ih]

theorem bytes_congr (same : ∀ i, address ≤ i → i < address + width → other i = memory i) :
    bytes other address width = bytes memory address width := by
  induction width generalizing address with
  | zero => rfl
  | succ width ih =>
      rw [bytes, bytes, same address (Nat.le_refl _) (by omega)]
      rw [ih fun i lower upper => same i (by omega) (by omega)]

/-- A copy changes only the bytes it covers. -/
theorem copy_of_outside (outside : i < address ∨ address + data.length ≤ i) :
    copy memory address data i = memory i := by
  induction data generalizing memory address with
  | nil => rfl
  | cons byte rest ih =>
      rw [List.length_cons] at outside
      rw [copy, ih (by omega), Function.update_of_ne (by omega)]

theorem bytes_copy_of_disjoint
    (disjoint : address + data.length ≤ start ∨ start + span ≤ address) :
    bytes (copy memory address data) start span = bytes memory start span :=
  bytes_congr fun _ _ _ => copy_of_outside (by omega)

/-- Reading a range back gives what was copied there. -/
theorem bytes_copy_same (memory : Memory) (address : Nat) (data : List (BitVec 8)) :
    bytes (copy memory address data) address data.length = data := by
  induction data generalizing memory address with
  | nil => rfl
  | cons byte rest ih =>
      rw [List.length_cons, bytes, copy, ih]
      rw [copy_of_outside (Or.inl (Nat.lt_succ_self address)), Function.update_self]

/-- Reading a range whose first bytes were copied there. -/
theorem bytes_copy_front (memory : Memory) (address width : Nat) (data : List (BitVec 8)) :
    bytes (copy memory address data) address width =
      data.take width ++ (bytes memory address width).drop data.length := by
  induction data generalizing memory address width with
  | nil => rw [copy, List.take_nil, List.length_nil, List.drop_zero, List.nil_append]
  | cons byte rest ih =>
      cases width with
      | zero => rfl
      | succ width =>
          have behind : bytes (Function.update memory address byte) (address + 1) width =
              bytes memory (address + 1) width :=
            bytes_congr fun i lower _ => Function.update_of_ne (by omega) _ _
          rw [copy, bytes, ih, behind, copy_of_outside (Or.inl (Nat.lt_succ_self address)),
            Function.update_self, bytes, List.take_succ_cons, List.length_cons,
            List.drop_succ_cons, List.cons_append]

/-- The first bytes of a range. -/
theorem bytes_take (memory : Memory) (address width count : Nat) :
    (bytes memory address width).take count = bytes memory address (min count width) := by
  induction width generalizing address count with
  | zero => rw [Nat.min_zero, bytes, List.take_nil]
  | succ width ih =>
      cases count with
      | zero => rw [Nat.zero_min, List.take_zero, bytes]
      | succ count => rw [bytes, List.take_succ_cons, ih, Nat.succ_min_succ, bytes]

/-- One byte of a range. -/
theorem getElem?_bytes (memory : Memory) {address width i : Nat} (inside : i < width) :
    (bytes memory address width)[i]? = some (memory (address + i)) := by
  induction width generalizing address i with
  | zero => exact absurd inside (Nat.not_lt_zero i)
  | succ width ih =>
      cases i with
      | zero => rfl
      | succ i =>
          rw [bytes, List.getElem?_cons_succ, ih (Nat.lt_of_succ_lt_succ inside), Nat.add_assoc,
            Nat.add_comm 1]

end Memory

end ComputerSystems

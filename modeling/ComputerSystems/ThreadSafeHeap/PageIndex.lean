import ComputerSystems.ThreadSafeHeap.Core

/-!
# The index of a page

`thread_safe_malloc` divides the distance of its result from `phys_mem` by `PAGE_SIZE`,
of which only the first factor divides. So the index has a step of 16384 for every
kilobyte, and all but the first of those below the bound that is checked are out of
the bounds of `pageTab`.
-/

namespace ComputerSystems.ThreadSafeHeap

variable {place : Placement} {state : State} {result other bytes : BitVec 64} {index : Int}

/-- The distance of an address from `phys_mem`. -/
def distance (place : Placement) (result : BitVec 64) : Nat :=
  (result - place.physMem).toNat

/-- The indices at which `thread_safe_malloc` reads `pageTab` and writes `pageTab` and
`dirty` for the page of its result, in order. -/
def pageAccesses (place : Placement) (state : State) (result : BitVec 64) : List Int :=
  let pageNum := (pageIndex place result).toInt
  if 0 ≤ pageNum ∧ pageNum < 1024 * 1024 * 16 then
    if state.pageTab pageNum ≠ -1#32 then [pageNum]
    else if 0 ≤ pageNum ∧ pageNum < numPages then [pageNum, pageNum, pageNum]
    else [pageNum]
  else if 0 ≤ pageNum ∧ pageNum < numPages then [pageNum, pageNum]
  else []

/-- Two addresses lie in the same 16 MiB page relative to `phys_mem`. -/
def SamePage (place : Placement) (result other : BitVec 64) : Prop :=
  distance place result / pageSize.toNat = distance place other / pageSize.toNat

/-- Every access for a result is in the bounds of the arrays, and an address in the
same page has the same index. -/
def IndexedByPage (place : Placement) (state : State) (result other : BitVec 64) : Prop :=
  (∀ index ∈ pageAccesses place state result, 0 ≤ index ∧ index < numPages) ∧
    (SamePage place result other → pageIndex place result = pageIndex place other)

/-! ## Accesses -/

/-- The entries that are not accessed are not changed. -/
theorem enterPage_of_not_accessed (outside : index ∉ pageAccesses place state result) :
    (enterPage place state result bytes).pageTab index = state.pageTab index ∧
      (enterPage place state result bytes).dirty index = state.dirty index := by
  unfold pageAccesses at outside
  unfold enterPage
  dsimp only at outside ⊢
  generalize (pageIndex place result).toInt = pageNum at outside ⊢
  split
  · exact ⟨rfl, rfl⟩
  · rename_i absent
    split
    · rename_i inside
      have apart : index ≠ pageNum := by
        rintro rfl
        apply outside
        by_cases checked : 0 ≤ index ∧ index < 1024 * 1024 * 16
        · rw [if_pos checked, if_neg fun present => absent ⟨checked.1, checked.2, present⟩,
            if_pos inside]
          exact List.mem_cons_self
        · rw [if_neg checked, if_pos inside]
          exact List.mem_cons_self
      exact ⟨Function.update_of_ne apart _ _, Function.update_of_ne apart _ _⟩
    · exact ⟨rfl, rfl⟩

/-- The index is accessed exactly when it is below the bound that is checked first. -/
theorem mem_pageAccesses :
    index ∈ pageAccesses place state result ↔
      index = (pageIndex place result).toInt ∧ 0 ≤ index ∧ index < 1024 * 1024 * 16 := by
  unfold pageAccesses
  dsimp only
  generalize (pageIndex place result).toInt = pageNum
  by_cases checked : 0 ≤ pageNum ∧ pageNum < 1024 * 1024 * 16
  · have member : index ∈ [pageNum] ↔
        index = pageNum ∧ 0 ≤ index ∧ index < 1024 * 1024 * 16 := by
      rw [List.mem_singleton]
      constructor
      · rintro rfl
        exact ⟨rfl, checked⟩
      · exact And.left
    rw [if_pos checked]
    split
    · exact member
    · split
      · rw [← member]
        simp
      · exact member
  · have outside : ¬ (0 ≤ pageNum ∧ pageNum < numPages) := by
      rw [numPages]
      omega
    rw [if_neg checked, if_neg outside]
    constructor
    · exact fun member => absurd member List.not_mem_nil
    · rintro ⟨rfl, inside⟩
      exact absurd inside checked

/-- The entries that are not accessed do not matter. -/
theorem enterPage_of_agree {pageTab : Int → BitVec 32}
    (agree : ∀ index ∈ pageAccesses place state result, pageTab index = state.pageTab index) :
    enterPage place { state with pageTab } result bytes =
      { enterPage place state result bytes with
        pageTab := (enterPage place { state with pageTab } result bytes).pageTab } := by
  simp only [mem_pageAccesses] at agree
  unfold enterPage
  dsimp only
  generalize (pageIndex place result).toInt = pageNum at agree ⊢
  have same : 0 ≤ pageNum ∧ pageNum < 1024 * 1024 * 16 ∧ pageTab pageNum ≠ -1#32 ↔
      0 ≤ pageNum ∧ pageNum < 1024 * 1024 * 16 ∧ state.pageTab pageNum ≠ -1#32 := by
    refine and_congr_right fun lower => and_congr_right fun upper => ?_
    rw [agree pageNum ⟨rfl, lower, upper⟩]
  by_cases present : 0 ≤ pageNum ∧ pageNum < 1024 * 1024 * 16 ∧ state.pageTab pageNum ≠ -1#32
  · rw [if_pos present, if_pos (same.mpr present)]
  · rw [if_neg present, if_neg fun found => present (same.mp found)]
    split <;> rfl

/-! ## Indices -/

/-- The quotient that is left when only the first factor divides. -/
theorem pageIndex_toNat (place : Placement) (result : BitVec 64) :
    (pageIndex place result).toNat = distance place result / 1024 % 2 ^ 18 * 16384 := by
  have bounded := (result - place.physMem).isLt
  rw [pageIndex, BitVec.toNat_setWidth, BitVec.toNat_mul, BitVec.toNat_mul, BitVec.toNat_udiv,
    distance]
  have kilobytes : (1024#64).toNat = 1024 := rfl
  have last : (16#64).toNat = 16 := rfl
  rw [kilobytes, last]
  omega

/-- In the bounds of the arrays there is only the index zero. -/
theorem accesses_inside_iff (place : Placement) (state : State) (result : BitVec 64) :
    (∀ index ∈ pageAccesses place state result, 0 ≤ index ∧ index < numPages) ↔
      distance place result % 2 ^ 28 < 2 ^ 10 ∨ 2 ^ 20 ≤ distance place result % 2 ^ 28 := by
  have value := pageIndex_toNat place result
  have signed : (pageIndex place result).toInt = if 2 * (pageIndex place result).toNat < 2 ^ 32
      then ((pageIndex place result).toNat : Int)
      else ((pageIndex place result).toNat : Int) - 2 ^ 32 := BitVec.toInt_eq_toNat_cond ..
  rw [value] at signed
  simp only [mem_pageAccesses, numPages]
  constructor
  · intro inside
    by_contra outside
    rw [not_or] at outside
    have small : 2 * (distance place result / 1024 % 2 ^ 18 * 16384) < 2 ^ 32 := by omega
    rw [if_pos small] at signed
    have bounds := inside _ ⟨rfl, by omega, by omega⟩
    omega
  · rintro allowed index ⟨rfl, lower, upper⟩
    refine ⟨lower, ?_⟩
    split at signed
    · omega
    · omega

/-- In one page, the index tells the kilobytes apart. -/
theorem pageIndex_eq_iff (same : SamePage place result other) :
    pageIndex place result = pageIndex place other ↔
      distance place result / 1024 = distance place other / 1024 := by
  have size : pageSize.toNat = 16777216 := rfl
  rw [SamePage, size] at same
  rw [← BitVec.toNat_inj, pageIndex_toNat, pageIndex_toNat]
  omega

/-- The arrays are indexed by page exactly when the distance from `phys_mem`, modulo 256
MiB, is below 1 KiB or not below 1 MiB, and another address in the same page lies in the
same kilobyte. -/
theorem indexedByPage_iff (place : Placement) (state : State) (result other : BitVec 64) :
    IndexedByPage place state result other ↔
      (distance place result % 2 ^ 28 < 2 ^ 10 ∨ 2 ^ 20 ≤ distance place result % 2 ^ 28) ∧
        (SamePage place result other →
          distance place result / 1024 = distance place other / 1024) := by
  rw [IndexedByPage, accesses_inside_iff]
  exact and_congr_right fun _ => forall_congr' fun same => pageIndex_eq_iff same

/-- A placement with `phys_mem` at the address 0x100000. -/
def pagedPlacement : Placement where
  head := 0x1000000#64
  physMem := 0x100000#64
  page _ := 0x4000000#64
  notNull := by decide
  fits := by decide
  apart _ := Or.inr (by decide)

/-- A result two kilobytes behind `phys_mem` has the index 32768, a result at `phys_mem`
the index zero. -/
theorem not_indexedByPage_two_kilobytes :
    ¬ ∀ place state result other, IndexedByPage place state result other := by
  intro always
  let state : State := ⟨fun _ => 0#8, fun _ => 0#32, fun _ => 0#32, 0#32, [], none⟩
  rcases always pagedPlacement state 0x100800#64 0x100000#64 with ⟨inside, _⟩
  have accessed : (32768 : Int) ∈ pageAccesses pagedPlacement state 0x100800#64 := by decide
  exact absurd (inside _ accessed).2 (by decide)

end ComputerSystems.ThreadSafeHeap

import Mathlib.Tactic.NormNum
import ComputerSystems.VirtualMemory.Core

/-!
# What one translation can do

Page numbers and offsets of an address are in range, a translation touches the
TLB slots only through the insertion it calls, and the search before the
insertion ends in one of three ways: a TLB slot, a page table entry, or a page
fault.
-/

namespace ComputerSystems.VirtualMemory

open ComputerSystems.Loop
open ComputerSystems.Transition

/-! ## Masked addresses -/

theorem pageOf_range (virtualAddr : BitVec 32) :
    0 ≤ pageOf virtualAddr ∧ pageOf virtualAddr < 256 := by
  have masked : (virtualAddr &&& pageMask).toNat ≤ 0xFF00 := by
    rw [BitVec.toNat_and]
    exact Nat.and_le_right
  have nonnegative : (virtualAddr &&& pageMask).toInt = (virtualAddr &&& pageMask).toNat :=
    BitVec.toInt_eq_toNat_of_lt (by omega)
  rw [pageOf, getPageNumber, BitVec.toInt_sshiftRight, nonnegative, Int.shiftRight_eq_div_pow,
    shift]
  generalize (virtualAddr &&& pageMask).toNat = value at masked
  norm_num
  omega

theorem offsetOf_range (virtualAddr : BitVec 32) :
    0 ≤ offsetOf virtualAddr ∧ offsetOf virtualAddr < 256 := by
  have masked : (virtualAddr &&& offsetMask).toNat ≤ 0xFF := by
    rw [BitVec.toNat_and]
    exact Nat.and_le_right
  have nonnegative : (virtualAddr &&& offsetMask).toInt = (virtualAddr &&& offsetMask).toNat :=
    BitVec.toInt_eq_toNat_of_lt (by omega)
  rw [offsetOf, getOffset, nonnegative]
  generalize (virtualAddr &&& offsetMask).toNat = value at masked
  omega

/-! ## What the search leaves alone -/

/-- Two states with the same TLB slots and the same address under
translation. -/
structure SameSlots (after before : State) : Prop where
  pages : after.tlbTable.pageNumArr = before.tlbTable.pageNumArr
  frames : after.tlbTable.frameNumArr = before.tlbTable.frameNumArr
  ages : after.tlbTable.entryAgeArr = before.tlbTable.entryAgeArr
  length : after.tlbTable.length = before.tlbTable.length
  next : after.nextTLBentry = before.nextTLBentry
  page : after.pageNumber = before.pageNumber
  offset : after.offsetNumber = before.offsetNumber

theorem SameSlots.trans {first second third : State} (left : SameSlots first second)
    (right : SameSlots second third) : SameSlots first third :=
  ⟨left.pages.trans right.pages, left.frames.trans right.frames, left.ages.trans right.ages,
    left.length.trans right.length, left.next.trans right.next, left.page.trans right.page,
    left.offset.trans right.offset⟩

/-- Two states with the same page table and the same physical memory. -/
structure SameTable (after before : State) : Prop where
  table : after.pageTable = before.pageTable
  dram : after.dram = before.dram
  nextPage : after.nextPage = before.nextPage
  nextFrame : after.nextFrame = before.nextFrame

theorem SameTable.trans {first second third : State} (left : SameTable first second)
    (right : SameTable second third) : SameTable first third :=
  ⟨left.table.trans right.table, left.dram.trans right.dram,
    left.nextPage.trans right.nextPage, left.nextFrame.trans right.nextFrame⟩

theorem countHit_sameSlots (state : State) (pageNumber : Int) :
    SameSlots (countHit state pageNumber) state := by
  unfold countHit
  cases tlbSlot state pageNumber <;> exact ⟨rfl, rfl, rfl, rfl, rfl, rfl, rfl⟩

theorem countHit_sameTable (state : State) (pageNumber : Int) :
    SameTable (countHit state pageNumber) state := by
  unfold countHit
  cases tlbSlot state pageNumber <;> exact ⟨rfl, rfl, rfl, rfl⟩

theorem countMiss_sameSlots (state : State) : SameSlots (countMiss state) state :=
  ⟨rfl, rfl, rfl, rfl, rfl, rfl, rfl⟩

theorem countMiss_sameTable (state : State) : SameTable (countMiss state) state :=
  ⟨rfl, rfl, rfl, rfl⟩

theorem tableFrame_congr {after before : State} (same : SameTable after before)
    (pageNumber : Int) : tableFrame after pageNumber = tableFrame before pageNumber := by
  unfold tableFrame
  rw [same.table, same.nextPage]

/-! ## How the search ends -/

/-- `translateAddress` reaches its call of `readFromStore`. -/
def CallsReadFromStore (state : State) (pageNumber : Int) : Prop :=
  tlbFrame state pageNumber = -1 ∧ tableFrame state pageNumber = -1

/-- The frame number a search finds without a page fault. -/
def cachedFrame (state : State) (pageNumber : Int) : Int :=
  if tlbFrame state pageNumber = -1 then tableFrame state pageNumber
  else tlbFrame state pageNumber

/-- One page fault: an entry is appended to the page table and the frame of
the same number is filled from the backing store. -/
structure LoadsPage (store : BackingStore) (pageNumber : Int) (before after : State) : Prop where
  nextPage : after.nextPage = before.nextPage + 1
  nextFrame : after.nextFrame = before.nextFrame + 1
  length : after.pageTable.length = before.pageTable.length
  faults : after.pageTable.pageFaultCount = before.pageTable.pageFaultCount + 1
  pages : after.pageTable.pageNumArr =
    Function.update before.pageTable.pageNumArr before.nextPage pageNumber
  frames : after.pageTable.frameNumArr =
    Function.update before.pageTable.frameNumArr before.nextPage (before.nextFrame : Int)
  otherFrames : ∀ i, i ≠ before.nextFrame → after.dram i = before.dram i
  filled : ∀ k, k < pageReadSize → ∀ byte,
    storedByte store ((pageNumber * pageReadSize).toNat + k) = some byte →
      after.dram before.nextFrame k = byte

/-- Without a page fault the search changes only counters. -/
theorem resolve_of_cached (store : BackingStore) {state : State} {pageNumber : Int}
    (cached : ¬ CallsReadFromStore state pageNumber) :
    ∃ resolved, resolve store state pageNumber = some (cachedFrame state pageNumber, resolved) ∧
      SameSlots resolved state ∧ SameTable resolved state := by
  have slots := countHit_sameSlots state pageNumber
  have table := countHit_sameTable state pageNumber
  by_cases missed : tlbFrame state pageNumber = -1
  · have walked : tableFrame (countMiss (countHit state pageNumber)) pageNumber =
        tableFrame state pageNumber :=
      tableFrame_congr ((countMiss_sameTable _).trans table) pageNumber
    have found : tableFrame state pageNumber ≠ -1 := fun absent => cached ⟨missed, absent⟩
    refine ⟨countMiss (countHit state pageNumber), ?_, (countMiss_sameSlots _).trans slots,
      (countMiss_sameTable _).trans table⟩
    simp only [resolve, cachedFrame, missed, if_true, walked, found, if_false]
  · refine ⟨countHit state pageNumber, ?_, slots, table⟩
    simp only [resolve, cachedFrame, missed, if_false]

/-- A page fault with room in the page table and in physical memory. -/
theorem resolve_of_fault (store : BackingStore) {state : State} {pageNumber : Int}
    (fault : CallsReadFromStore state pageNumber)
    (frameRoom : state.nextFrame < totalFrameCount)
    (pageRoom : state.nextPage < state.pageTable.length) :
    ∃ resolved, resolve store state pageNumber = some ((state.nextFrame : Int), resolved) ∧
      SameSlots resolved state ∧ LoadsPage store pageNumber state resolved := by
  rcases fault with ⟨missed, absent⟩
  have slots := (countMiss_sameSlots _).trans (countHit_sameSlots state pageNumber)
  have same := (countMiss_sameTable _).trans (countHit_sameTable state pageNumber)
  have walked := (tableFrame_congr same pageNumber).trans absent
  generalize counted : countMiss (countHit state pageNumber) = searched at slots same walked
  rcases same with ⟨table, dram, nextPage, nextFrame⟩
  have room : (countFault searched).nextFrame < totalFrameCount ∧
      (countFault searched).nextPage < (countFault searched).pageTable.length := by
    simp only [countFault, nextFrame, nextPage, table]
    exact ⟨frameRoom, pageRoom⟩
  have resolved : resolve store state pageNumber =
      some (((loadPage store (countFault searched) pageNumber).nextFrame : Int) - 1,
        countCall (loadPage store (countFault searched) pageNumber)) := by
    simp only [resolve, missed, if_true, counted, walked, pageFault, readFromStore, if_pos room,
      Option.map_some]
  refine ⟨countCall (loadPage store (countFault searched) pageNumber), ?_, ?_, ?_⟩
  · rw [resolved]
    simp only [loadPage, countFault, nextFrame]
    push_cast
    rw [Int.add_sub_cancel]
  · exact ⟨slots.pages, slots.frames, slots.ages, slots.length, slots.next, slots.page,
      slots.offset⟩
  · constructor
    · simp only [countCall, loadPage, countFault, nextPage]
    · simp only [countCall, loadPage, countFault, nextFrame]
    · simp only [countCall, loadPage, countFault, VmTable.write, table]
    · simp only [countCall, loadPage, countFault, VmTable.write, table]
    · simp only [countCall, loadPage, countFault, VmTable.write, table, nextPage]
    · simp only [countCall, loadPage, countFault, VmTable.write, table, nextPage, nextFrame]
    · intro i other
      simp only [countCall, loadPage, countFault, nextFrame, dram, Function.update_of_ne other]
    · intro k inside byte stored
      simp only [countCall, loadPage, countFault, nextFrame, Function.update_self, inside,
        if_true, readPage, stored, Option.getD_some]

/-! ## What an insertion leaves alone -/

theorem tlbInsert_sameTable (algoChoice : Char) (state : State) (pageNumber frameNumber : Int) :
    SameTable (tlbInsert algoChoice state pageNumber frameNumber) state := by
  unfold tlbInsert
  split <;> exact ⟨rfl, rfl, rfl, rfl⟩

theorem tlbInsert_offset (algoChoice : Char) (state : State) (pageNumber frameNumber : Int) :
    (tlbInsert algoChoice state pageNumber frameNumber).offsetNumber = state.offsetNumber := by
  unfold tlbInsert
  split <;> rfl

theorem VmTable.moveOver_length (table : VmTable) (i count : Nat) :
    (table.moveOver i count).length = table.length := by
  induction count generalizing table i with
  | zero => rfl
  | succ count ih => exact ih _ _

theorem tlbInsert_length (algoChoice : Char) (state : State) (pageNumber frameNumber : Int) :
    (tlbInsert algoChoice state pageNumber frameNumber).tlbTable.length =
      state.tlbTable.length := by
  unfold tlbInsert
  split
  · unfold tlbFIFOinsert fifoSlots
    split <;> split <;> simp only [VmTable.write, VmTable.moveOver_length]
  · unfold tlbLRUinsert lruSlots
    dsimp only
    split
    · rfl
    · split <;> rfl

/-! ## One iteration of the reading loop -/

theorem readAddress_sameTable (state : State) (virtualAddr : BitVec 32) :
    SameTable (readAddress state virtualAddr) state :=
  ⟨rfl, rfl, rfl, rfl⟩

/-- The search of one iteration, on the state the iteration starts from. -/
theorem mainStep_eq (algoChoice : Char) (store : BackingStore) (state : State)
    (virtualAddr : BitVec 32) :
    mainStep algoChoice store state virtualAddr =
      (resolve store (readAddress state virtualAddr) (pageOf virtualAddr)).map
        fun (frameNumber, resolved) =>
          { insertAndRead algoChoice resolved frameNumber with
            translationCount :=
              (insertAndRead algoChoice resolved frameNumber).translationCount + 1 } := by
  simp only [mainStep, translateAddress, Option.map_map]
  rfl

end ComputerSystems.VirtualMemory

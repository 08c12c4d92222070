import Mathlib.Data.Finset.Card
import Mathlib.Order.Interval.Finset.Nat
import ComputerSystems.VirtualMemory.Steps

/-!
# The page table and physical memory

Nothing in `readFromStore` compares `nextPage` or `nextFrame` with a bound.
What keeps them inside their arrays is that a page is loaded only when the walk
of the page table has missed it: the loaded pages are distinct, there are 256
page numbers, and so there are at most 256 loads in a run of any length. The
TLB plays no part in this, whatever it answers.
-/

namespace ComputerSystems.VirtualMemory

open ComputerSystems.Loop
open ComputerSystems.Transition

/-- The state of the page table and of physical memory between two calls: the
first `nextPage` entries name distinct pages, and frame `i` is a copy of the
page of entry `i`. -/
structure Loaded (store : BackingStore) (state : State) : Prop where
  frameCount : state.nextFrame = state.nextPage
  faultCount : state.pageTable.pageFaultCount = state.nextPage
  length : state.pageTable.length = pageTableSize
  range : ∀ i, i < state.nextPage →
    0 ≤ state.pageTable.pageNumArr i ∧ state.pageTable.pageNumArr i < 256
  distinct : ∀ i, i < state.nextPage → ∀ j, j < state.nextPage →
    state.pageTable.pageNumArr i = state.pageTable.pageNumArr j → i = j
  frames : ∀ i, i < state.nextPage → state.pageTable.frameNumArr i = i
  contents : ∀ i, i < state.nextPage → ∀ k, k < pageReadSize →
    storedByte store ((state.pageTable.pageNumArr i * pageReadSize).toNat + k) =
      some (state.dram i k)

/-- `after` has every entry and every frame that `before` has loaded. -/
structure Extends (before after : State) : Prop where
  nextPage : before.nextPage ≤ after.nextPage
  pages : ∀ i, i < before.nextPage → after.pageTable.pageNumArr i = before.pageTable.pageNumArr i
  frames : ∀ i, i < before.nextPage →
    after.pageTable.frameNumArr i = before.pageTable.frameNumArr i
  dram : ∀ i, i < before.nextPage → after.dram i = before.dram i

theorem Extends.refl (state : State) : Extends state state :=
  ⟨Nat.le_refl _, fun _ _ => rfl, fun _ _ => rfl, fun _ _ => rfl⟩

theorem Extends.trans {first second third : State} (left : Extends first second)
    (right : Extends second third) : Extends first third where
  nextPage := left.nextPage.trans right.nextPage
  pages i inside := (right.pages i (by have := left.nextPage; omega)).trans (left.pages i inside)
  frames i inside := (right.frames i (by have := left.nextPage; omega)).trans (left.frames i inside)
  dram i inside := (right.dram i (by have := left.nextPage; omega)).trans (left.dram i inside)

theorem SameTable.extends {after before : State} (same : SameTable after before) :
    Extends before after :=
  ⟨same.nextPage.ge, fun _ _ => by rw [same.table], fun _ _ => by rw [same.table],
    fun _ _ => by rw [same.dram]⟩

theorem Loaded.congr {store : BackingStore} {after before : State} (same : SameTable after before)
    (loaded : Loaded store before) : Loaded store after := by
  rcases same with ⟨table, dram, nextPage, nextFrame⟩
  constructor
  · rw [nextFrame, nextPage, loaded.frameCount]
  · rw [table, nextPage, loaded.faultCount]
  · rw [table, loaded.length]
  · rw [table, nextPage]
    exact loaded.range
  · rw [table, nextPage]
    exact loaded.distinct
  · rw [table, nextPage]
    exact loaded.frames
  · rw [table, nextPage, dram]
    exact loaded.contents

theorem bootState_loaded (store : BackingStore) (fresh : FreshMemory) :
    Loaded store (bootState fresh) := by
  constructor
  · rfl
  · rfl
  · rfl
  all_goals
    intro i inside
    exact absurd inside (Nat.not_lt_zero i)

/-! ## The walk of the page table -/

/-- The page table holds frame `frameNumber` for a page. -/
def TableHolds (state : State) (pageNumber frameNumber : Int) : Prop :=
  ∃ i, i < state.nextPage ∧ state.pageTable.pageNumArr i = pageNumber ∧
    state.pageTable.frameNumArr i = frameNumber

theorem TableHolds.extends {before after : State} {pageNumber frameNumber : Int}
    (extension : Extends before after) (holds : TableHolds before pageNumber frameNumber) :
    TableHolds after pageNumber frameNumber := by
  rcases holds with ⟨i, inside, page, frame⟩
  exact ⟨i, by have := extension.nextPage; omega, (extension.pages i inside).trans page,
    (extension.frames i inside).trans frame⟩

/-- A frame number the page table holds is not the marker for an absent
page. -/
theorem TableHolds.nonneg {store : BackingStore} {state : State} (loaded : Loaded store state)
    {pageNumber frameNumber : Int} (holds : TableHolds state pageNumber frameNumber) :
    0 ≤ frameNumber := by
  rcases holds with ⟨i, inside, _, rfl⟩
  rw [loaded.frames i inside]
  exact Int.natCast_nonneg i

theorem tableFrame_eq_of_holds {store : BackingStore} {state : State} (loaded : Loaded store state)
    {pageNumber frameNumber : Int} (holds : TableHolds state pageNumber frameNumber) :
    tableFrame state pageNumber = frameNumber := by
  rcases holds with ⟨i, inside, page, frame⟩
  rcases exists_firstIndex inside page with ⟨found, search⟩
  rcases firstIndex_eq_some search with ⟨_, upper, here, _⟩
  have same : found = i := loaded.distinct found (by omega) i inside (here.trans page.symm)
  simp only [tableFrame, search, same, frame]

theorem tableHolds_tableFrame {state : State} {pageNumber : Int}
    (present : tableFrame state pageNumber ≠ -1) :
    TableHolds state pageNumber (tableFrame state pageNumber) := by
  unfold tableFrame at present ⊢
  cases search : firstIndex state.pageTable.pageNumArr pageNumber 0 state.nextPage with
  | none => simp [search] at present
  | some i =>
      rcases firstIndex_eq_some search with ⟨_, upper, here, _⟩
      exact ⟨i, by omega, here, rfl⟩

theorem not_tableHolds_of_absent {store : BackingStore} {state : State}
    (loaded : Loaded store state) {pageNumber : Int} (absent : tableFrame state pageNumber = -1)
    (frameNumber : Int) : ¬ TableHolds state pageNumber frameNumber := by
  intro holds
  have nonnegative := holds.nonneg loaded
  rw [← tableFrame_eq_of_holds loaded holds, absent] at nonnegative
  omega

/-! ## Room for the next load -/

/-- Distinct page numbers below 256 fill at most 256 cells. -/
theorem distinct_pages_le {pages : Nat → Int} {count : Nat}
    (range : ∀ i, i < count → 0 ≤ pages i ∧ pages i < 256)
    (distinct : ∀ i, i < count → ∀ j, j < count → pages i = pages j → i = j) :
    count ≤ 256 := by
  have injective : Set.InjOn (fun i => (pages i).toNat) (Finset.range count) := by
    intro i iInside j jInside same
    have iInside := Finset.mem_range.mp iInside
    have jInside := Finset.mem_range.mp jInside
    have iRange := range i iInside
    have jRange := range j jInside
    simp only at same
    exact distinct i iInside j jInside (by omega)
  have maps : ∀ i ∈ Finset.range count, (pages i).toNat ∈ Finset.range 256 := by
    intro i inside
    have bounds := range i (Finset.mem_range.mp inside)
    exact Finset.mem_range.mpr (by omega)
  simpa using Finset.card_le_card_of_injOn _ maps injective

theorem Loaded.bound {store : BackingStore} {state : State} (loaded : Loaded store state) :
    state.nextPage ≤ 256 :=
  distinct_pages_le loaded.range loaded.distinct

section Append

variable {pages : Nat → Int} {count : Nat} {pageNumber : Int}

private theorem append_range (range : ∀ i, i < count → 0 ≤ pages i ∧ pages i < 256)
    (inRange : 0 ≤ pageNumber ∧ pageNumber < 256) (i : Nat) (inside : i < count + 1) :
    0 ≤ Function.update pages count pageNumber i ∧
      Function.update pages count pageNumber i < 256 := by
  by_cases last : i = count
  · rw [last, Function.update_self]
    exact inRange
  · rw [Function.update_of_ne last]
    exact range i (by omega)

private theorem append_distinct
    (distinct : ∀ i, i < count → ∀ j, j < count → pages i = pages j → i = j)
    (missing : ∀ i, i < count → pages i ≠ pageNumber)
    (i : Nat) (iInside : i < count + 1) (j : Nat) (jInside : j < count + 1)
    (same : Function.update pages count pageNumber i =
      Function.update pages count pageNumber j) : i = j := by
  by_cases iLast : i = count
  · by_cases jLast : j = count
    · rw [iLast, jLast]
    · rw [iLast, Function.update_self, Function.update_of_ne jLast] at same
      exact absurd same.symm (missing j (by omega))
  · by_cases jLast : j = count
    · rw [jLast, Function.update_self, Function.update_of_ne iLast] at same
      exact absurd same (missing i (by omega))
    · rw [Function.update_of_ne iLast, Function.update_of_ne jLast] at same
      exact distinct i (by omega) j (by omega) same

end Append

theorem Loaded.missing {store : BackingStore} {state : State} (loaded : Loaded store state)
    {pageNumber : Int} (absent : tableFrame state pageNumber = -1) (i : Nat)
    (inside : i < state.nextPage) : state.pageTable.pageNumArr i ≠ pageNumber :=
  fun page => not_tableHolds_of_absent loaded absent _ ⟨i, inside, page, rfl⟩

/-- A page the table does not hold leaves room for one more entry. -/
theorem Loaded.room {store : BackingStore} {state : State} (loaded : Loaded store state)
    {pageNumber : Int} (range : 0 ≤ pageNumber ∧ pageNumber < 256)
    (absent : tableFrame state pageNumber = -1) : state.nextPage < 256 :=
  distinct_pages_le (append_range loaded.range range)
    (append_distinct loaded.distinct (loaded.missing absent))

/-! ## What a load preserves -/

/-- Every byte of a page lies inside the backing store. -/
theorem storedByte_of_page (store : BackingStore) {pageNumber : Int}
    (range : 0 ≤ pageNumber ∧ pageNumber < 256) {k : Nat} (inside : k < pageReadSize) :
    ∃ byte, storedByte store ((pageNumber * pageReadSize).toNat + k) = some byte := by
  have position : (pageNumber * pageReadSize).toNat + k < storeSize := by
    simp only [pageReadSize, storeSize] at inside ⊢
    push_cast
    omega
  exact ⟨_, dif_pos position⟩

theorem LoadsPage.extends {store : BackingStore} {pageNumber : Int} {before after : State}
    (loaded : Loaded store before) (load : LoadsPage store pageNumber before after) :
    Extends before after where
  nextPage := by rw [load.nextPage]; omega
  pages i inside := by rw [load.pages, Function.update_of_ne (by omega)]
  frames i inside := by rw [load.frames, Function.update_of_ne (by omega)]
  dram i inside := load.otherFrames i (by rw [loaded.frameCount]; omega)

theorem LoadsPage.loaded {store : BackingStore} {pageNumber : Int} {before after : State}
    (loaded : Loaded store before) (range : 0 ≤ pageNumber ∧ pageNumber < 256)
    (absent : tableFrame before pageNumber = -1)
    (load : LoadsPage store pageNumber before after) : Loaded store after := by
  constructor
  · rw [load.nextFrame, load.nextPage, loaded.frameCount]
  · rw [load.faults, load.nextPage, loaded.faultCount]
  · rw [load.length, loaded.length]
  · rw [load.pages, load.nextPage]
    exact append_range loaded.range range
  · rw [load.pages, load.nextPage]
    exact append_distinct loaded.distinct (loaded.missing absent)
  · intro i inside
    rw [load.frames]
    by_cases last : i = before.nextPage
    · rw [last, Function.update_self, loaded.frameCount]
    · rw [Function.update_of_ne last]
      exact loaded.frames i (by rw [load.nextPage] at inside; omega)
  · intro i inside k kInside
    rw [load.pages]
    by_cases last : i = before.nextPage
    · rcases storedByte_of_page store range kInside with ⟨byte, stored⟩
      rw [last, Function.update_self, stored, ← loaded.frameCount,
        load.filled k kInside byte stored]
    · rw [Function.update_of_ne last, load.otherFrames i (by rw [loaded.frameCount]; exact last)]
      exact loaded.contents i (by rw [load.nextPage] at inside; omega) k kInside

/-! ## One iteration of the reading loop -/

/-- What one iteration of the reading loop did: the search ended in `resolved`
with `frameNumber`, and `next` is left after the insertion. -/
structure Call (algoChoice : Char) (store : BackingStore) (state : State)
    (virtualAddr : BitVec 32) (frameNumber : Int) (resolved next : State) : Prop where
  resolves : resolve store (readAddress state virtualAddr) (pageOf virtualAddr) =
    some (frameNumber, resolved)
  steps : mainStep algoChoice store state virtualAddr = some next
  slots : SameSlots resolved (readAddress state virtualAddr)
  tlb : next.tlbTable =
    (tlbInsert algoChoice resolved (pageOf virtualAddr) frameNumber).tlbTable
  entries : next.nextTLBentry =
    (tlbInsert algoChoice resolved (pageOf virtualAddr) frameNumber).nextTLBentry
  table : SameTable next resolved
  extension : Extends state resolved
  loaded : Loaded store resolved
  value : next.translatedValue = dramCell next.dram frameNumber (offsetOf virtualAddr)

/-- The frame a call works with: without a page fault the one the search found,
otherwise the next free frame. -/
structure CallFrame (state : State) (pageNumber frameNumber : Int) (resolved : State) : Prop where
  cached : ¬ CallsReadFromStore state pageNumber →
    frameNumber = cachedFrame state pageNumber ∧ SameTable resolved state
  fault : CallsReadFromStore state pageNumber →
    frameNumber = state.nextFrame ∧ resolved.nextPage = state.nextPage + 1 ∧
      resolved.pageTable.pageNumArr state.nextPage = pageNumber ∧
      resolved.pageTable.frameNumArr state.nextPage = frameNumber

/-- From a state whose page table is in order every iteration is defined, and
the page table is in order afterwards. -/
theorem exists_call (algoChoice : Char) {store : BackingStore} {state : State}
    (loaded : Loaded store state) (virtualAddr : BitVec 32) :
    ∃ frameNumber resolved next, Call algoChoice store state virtualAddr frameNumber resolved next ∧
      CallFrame state (pageOf virtualAddr) frameNumber resolved := by
  have same := readAddress_sameTable state virtualAddr
  have framed : Loaded store (readAddress state virtualAddr) := loaded.congr same
  have searched : ∃ frameNumber resolved,
      resolve store (readAddress state virtualAddr) (pageOf virtualAddr) =
        some (frameNumber, resolved) ∧
      SameSlots resolved (readAddress state virtualAddr) ∧ Extends state resolved ∧
      Loaded store resolved ∧ CallFrame state (pageOf virtualAddr) frameNumber resolved := by
    by_cases fault : CallsReadFromStore (readAddress state virtualAddr) (pageOf virtualAddr)
    · have room := framed.room (pageOf_range virtualAddr) fault.2
      obtain ⟨resolved, resolves, slots, load⟩ := resolve_of_fault store fault
        (by rw [framed.frameCount]; exact room) (by rw [framed.length]; exact room)
      refine ⟨_, resolved, resolves, slots, same.extends.trans (load.extends framed),
        load.loaded framed (pageOf_range virtualAddr) fault.2, ?_, ?_⟩
      · intro cached
        exact absurd fault cached
      · intro _
        refine ⟨rfl, load.nextPage, ?_, ?_⟩
        · exact (congrFun load.pages _).trans (Function.update_self _ _ _)
        · exact (congrFun load.frames _).trans (Function.update_self _ _ _)
    · rcases resolve_of_cached store fault with ⟨resolved, resolves, slots, table⟩
      refine ⟨_, resolved, resolves, slots, (table.trans same).extends,
        framed.congr table, ?_, ?_⟩
      · intro _
        exact ⟨rfl, table.trans same⟩
      · intro faulted
        exact absurd faulted fault
  rcases searched with ⟨frameNumber, resolved, resolves, slots, extension, resolvedLoaded, frame⟩
  have page : resolved.pageNumber = pageOf virtualAddr := slots.page
  have offset : resolved.offsetNumber = offsetOf virtualAddr := slots.offset
  have table := tlbInsert_sameTable algoChoice resolved (pageOf virtualAddr) frameNumber
  refine ⟨frameNumber, resolved,
    { insertAndRead algoChoice resolved frameNumber with
      translationCount := (insertAndRead algoChoice resolved frameNumber).translationCount + 1 },
    ⟨resolves, ?_, slots, ?_, ?_, ?_, extension, resolvedLoaded, ?_⟩, frame⟩
  · rw [mainStep_eq, resolves, Option.map_some]
  · simp only [insertAndRead, page]
  · simp only [insertAndRead, page]
  · simp only [insertAndRead, page]
    exact ⟨table.table, table.dram, table.nextPage, table.nextFrame⟩
  · simp only [insertAndRead, page, tlbInsert_offset, offset]

/-! ## Every run -/

theorem run_snoc {algoChoice : Char} {store : BackingStore} {fresh : FreshMemory}
    {past : List (BitVec 32)} {virtualAddr : BitVec 32} {state next : State}
    (reached : run algoChoice store fresh past = some state)
    (steps : mainStep algoChoice store state virtualAddr = some next) :
    run algoChoice store fresh (past ++ [virtualAddr]) = some next := by
  rw [run, exec_snoc]
  exact (congrArg (Option.bind · _) reached).trans steps

/-- Every run is defined, and the page table is in order after it. -/
theorem run_loaded (algoChoice : Char) (store : BackingStore) (fresh : FreshMemory)
    (addresses : List (BitVec 32)) :
    ∃ final, run algoChoice store fresh addresses = some final ∧ Loaded store final := by
  apply exec_always (fun _ state => Loaded store state) (bootState_loaded store fresh)
  intro _ virtualAddr state loaded
  rcases exists_call algoChoice loaded virtualAddr with ⟨_, _, next, call, _⟩
  exact ⟨next, call.steps, call.loaded.congr call.table⟩

/-- Whatever is read after a prefix of a run keeps what the prefix loaded. -/
theorem run_extends (algoChoice : Char) (store : BackingStore) (fresh : FreshMemory)
    {past : List (BitVec 32)} {state : State}
    (reached : run algoChoice store fresh past = some state) (rest : List (BitVec 32)) :
    ∃ final, run algoChoice store fresh (past ++ rest) = some final ∧ Extends state final := by
  rcases run_loaded algoChoice store fresh past with ⟨same, sameReached, loaded⟩
  obtain rfl := Option.some.inj (sameReached.symm.trans reached)
  obtain ⟨final, continued, _, extension⟩ :=
    exec_always (fun _ later => Loaded store later ∧ Extends same later)
      ⟨loaded, Extends.refl same⟩
      (by
        intro _ virtualAddr later ⟨laterLoaded, extension⟩
        rcases exists_call algoChoice laterLoaded virtualAddr with ⟨_, _, next, call, _⟩
        exact ⟨next, call.steps, call.loaded.congr call.table,
          (extension.trans call.extension).trans call.table.extends⟩)
      rest
  refine ⟨final, ?_, extension⟩
  rw [run, exec_append]
  exact (congrArg (Option.bind · _) reached).trans continued

/-- In every state a run reaches the three counters agree and stay within the
tables, the loaded pages are distinct page numbers, frame `i` holds the page of
entry `i` byte for byte, and no later call changes an entry or its frame. The
run itself is defined: no load writes outside the page table or `dram`. -/
theorem pageTable_in_order (algoChoice : Char) (store : BackingStore) (fresh : FreshMemory)
    (addresses : List (BitVec 32)) :
    ∃ state, run algoChoice store fresh addresses = some state ∧
      state.nextPage = state.nextFrame ∧
      state.nextFrame = state.pageTable.pageFaultCount ∧
      state.pageTable.pageFaultCount ≤ 256 ∧
      (∀ i, i < state.nextPage → ∀ j, j < state.nextPage → i ≠ j →
        state.pageTable.pageNumArr i ≠ state.pageTable.pageNumArr j) ∧
      (∀ i, i < state.nextPage →
        0 ≤ state.pageTable.pageNumArr i ∧ state.pageTable.pageNumArr i ≤ 255) ∧
      (∀ i, i < state.nextPage → state.pageTable.frameNumArr i = i ∧
        ∀ k, k < 256 →
          storedByte store ((state.pageTable.pageNumArr i * 256).toNat + k) =
            some (state.dram i k)) ∧
      ∀ rest, ∃ final, run algoChoice store fresh (addresses ++ rest) = some final ∧
        state.nextPage ≤ final.nextPage ∧
        ∀ i, i < state.nextPage →
          final.pageTable.pageNumArr i = state.pageTable.pageNumArr i ∧
          final.pageTable.frameNumArr i = state.pageTable.frameNumArr i ∧
          final.dram i = state.dram i := by
  rcases run_loaded algoChoice store fresh addresses with ⟨state, reached, loaded⟩
  refine ⟨state, reached, loaded.frameCount.symm, loaded.frameCount.trans loaded.faultCount.symm,
    ?_, ?_, ?_, ?_, ?_⟩
  · rw [loaded.faultCount]
    exact loaded.bound
  · intro i iInside j jInside different same
    exact different (loaded.distinct i iInside j jInside same)
  · intro i inside
    have bounds := loaded.range i inside
    omega
  · intro i inside
    exact ⟨loaded.frames i inside, fun k kInside => loaded.contents i inside k kInside⟩
  · intro rest
    rcases run_extends algoChoice store fresh reached rest with ⟨final, continued, extension⟩
    exact ⟨final, continued, extension.nextPage, fun i inside =>
      ⟨extension.pages i inside, extension.frames i inside, extension.dram i inside⟩⟩

end ComputerSystems.VirtualMemory

import ComputerSystems.VirtualMemory.PageTable
import ComputerSystems.VirtualMemory.Slots

/-!
# Coherence of the TLB with the page table

Page number 0 doubles as the marker of a free slot, and the frame stored next
to it can be anything. Every slot that names another page agrees with the page
table. This is carried through the insertions by one fact about both of them:
they store nothing but the new entry and entries that were there before.
-/

namespace ComputerSystems.VirtualMemory

open ComputerSystems.Loop
open ComputerSystems.Transition

/-- `tlbFIFOinsert` stores the new entry and entries held before. -/
theorem FifoOutcome.entry {tlb after : VmTable} {next afterNext : Nat}
    {pageNumber frameNumber : Int}
    (outcome : FifoOutcome tlb next pageNumber frameNumber after afterNext) {j : Nat}
    (inside : j < tlbSize) :
    after.entry j = (pageNumber, frameNumber) ∨
      ∃ k, k < tlbSize ∧ after.entry j = tlb.entry k := by
  have size : tlbSize = 16 := rfl
  cases outcome with
  | appended _ _ entries _ =>
      rw [entries]
      split
      · exact Or.inl rfl
      · exact Or.inr ⟨j, inside, rfl⟩
  | overwrote _ _ entries _ =>
      rw [entries j inside]
      split
      · exact Or.inr ⟨j + 1, by omega, rfl⟩
      · exact Or.inl rfl
  | requeued slot _ _ _ _ entries _ | movedToEnd slot _ _ _ _ entries _ =>
      rw [entries]
      split
      · exact Or.inl rfl
      · split
        · exact Or.inr ⟨j + 1, by omega, rfl⟩
        · exact Or.inr ⟨j, inside, rfl⟩

/-- Neither replacement policy invents an entry. -/
theorem tlbInsert_entry (algoChoice : Char) {state : State}
    (entries : state.nextTLBentry ≤ tlbSize) (pageNumber frameNumber : Int) {j : Nat}
    (inside : j < tlbSize) :
    (tlbInsert algoChoice state pageNumber frameNumber).tlbTable.entry j =
        (pageNumber, frameNumber) ∨
      ∃ k, k < tlbSize ∧ (tlbInsert algoChoice state pageNumber frameNumber).tlbTable.entry j =
        state.tlbTable.entry k := by
  unfold tlbInsert
  split
  · exact (tlbFIFOinsert_outcome entries pageNumber frameNumber).entry inside
  · cases lruSlots_outcome state.tlbTable pageNumber frameNumber with
    | there slot _ _ same _ => exact Or.inr ⟨j, inside, same j⟩
    | placed slot _ _ _ stored _ =>
        by_cases here : j = slot
        · exact Or.inl ((stored j).trans (if_pos here))
        · exact Or.inr ⟨j, inside, (stored j).trans (if_neg here)⟩

theorem tlbInsert_next (algoChoice : Char) {state : State}
    (entries : state.nextTLBentry ≤ tlbSize) (pageNumber frameNumber : Int) :
    (tlbInsert algoChoice state pageNumber frameNumber).nextTLBentry ≤ tlbSize := by
  unfold tlbInsert
  split
  · simp only [tlbFIFOinsert]
    split <;> omega
  · exact entries

/-- The TLB between two calls: every slot that names a page other than 0 holds
the frame of the page table. -/
structure Coherent (state : State) : Prop where
  length : state.tlbTable.length = tlbSize
  entries : state.nextTLBentry ≤ tlbSize
  slots : ∀ i, i < tlbSize → state.tlbTable.pageNumArr i ≠ 0 →
    TableHolds state (state.tlbTable.pageNumArr i) (state.tlbTable.frameNumArr i)

theorem bootState_coherent (fresh : FreshMemory) : Coherent (bootState fresh) where
  length := rfl
  entries := Nat.zero_le _
  slots _ _ used := absurd rfl used

/-! ## One call -/

section Step

variable {algoChoice : Char} {store : BackingStore} {state resolved next : State}
  {virtualAddr : BitVec 32} {frameNumber : Int}

/-- A slot the search breaks at names the page it looks for. -/
theorem tlbSlot_spec {pageNumber : Int} {i : Nat} (length : state.tlbTable.length = tlbSize)
    (found : tlbSlot state pageNumber = some i) :
    i < tlbSize ∧ state.tlbTable.pageNumArr i = pageNumber ∧
      tlbFrame state pageNumber = state.tlbTable.frameNumArr i := by
  have frame : tlbFrame state pageNumber = state.tlbTable.frameNumArr i := by
    simp only [tlbFrame, found]
  rcases firstIndex_eq_some found with ⟨_, upper, here, _⟩
  exact ⟨by omega, here, frame⟩

theorem exists_tlbSlot {pageNumber : Int} (length : state.tlbTable.length = tlbSize)
    (hit : tlbFrame state pageNumber ≠ -1) :
    ∃ i, i < tlbSize ∧ state.tlbTable.pageNumArr i = pageNumber ∧
      tlbFrame state pageNumber = state.tlbTable.frameNumArr i := by
  cases search : tlbSlot state pageNumber with
  | none => simp [tlbFrame, search] at hit
  | some i => exact ⟨i, tlbSlot_spec length search⟩

/-- A page resolves to the frame of the page table when the slots that name it
hold that frame. -/
theorem CallFrame.holds_of_slots (length : state.tlbTable.length = tlbSize) {pageNumber : Int}
    (slots : ∀ i, i < tlbSize → state.tlbTable.pageNumArr i = pageNumber →
      TableHolds state pageNumber (state.tlbTable.frameNumArr i))
    (frame : CallFrame state pageNumber frameNumber resolved) :
    TableHolds resolved pageNumber frameNumber := by
  by_cases fault : CallsReadFromStore state pageNumber
  · rcases frame.fault fault with ⟨_, grown, page, stored⟩
    exact ⟨state.nextPage, by omega, page, stored⟩
  · rcases frame.cached fault with ⟨rfl, same⟩
    apply TableHolds.extends same.extends
    unfold cachedFrame
    split
    · rename_i missed
      exact tableHolds_tableFrame fun absent => fault ⟨missed, absent⟩
    · rename_i hit
      rcases exists_tlbSlot length hit with ⟨i, inside, page, tlb⟩
      rw [tlb]
      exact slots i inside page

/-- A page other than 0 resolves to the frame of the page table. -/
theorem CallFrame.holds (coherent : Coherent state) {pageNumber : Int} (used : pageNumber ≠ 0)
    (frame : CallFrame state pageNumber frameNumber resolved) :
    TableHolds resolved pageNumber frameNumber := by
  apply frame.holds_of_slots coherent.length
  rintro i inside rfl
  exact coherent.slots i inside used

theorem Call.coherent (coherent : Coherent state)
    (call : Call algoChoice store state virtualAddr frameNumber resolved next)
    (frame : CallFrame state (pageOf virtualAddr) frameNumber resolved) : Coherent next := by
  have entries : resolved.nextTLBentry ≤ tlbSize := by
    rw [call.slots.next]
    exact coherent.entries
  constructor
  · rw [call.tlb, tlbInsert_length, call.slots.length]
    exact coherent.length
  · rw [call.entries]
    exact tlbInsert_next algoChoice entries _ _
  · intro i inside used
    apply TableHolds.extends call.table.extends
    rw [call.tlb] at used ⊢
    rcases tlbInsert_entry algoChoice entries (pageOf virtualAddr) frameNumber inside with
      fresh | ⟨k, kInside, old⟩
    · rcases Prod.mk.inj fresh with ⟨page, stored⟩
      rw [page] at used
      rw [page, stored]
      exact frame.holds coherent used
    · rcases Prod.mk.inj old with ⟨page, stored⟩
      rw [page, call.slots.pages] at used
      rw [page, stored, call.slots.pages, call.slots.frames]
      exact (coherent.slots k kInside used).extends call.extension

/-- After a call the table holds, of the pages other than 0, those it held
before and the one accessed. -/
theorem Call.held_iff (coherent : Coherent state)
    (call : Call algoChoice store state virtualAddr frameNumber resolved next)
    (frame : CallFrame state (pageOf virtualAddr) frameNumber resolved)
    {pageNumber : Int} (used : pageNumber ≠ 0) :
    (∃ f, TableHolds next pageNumber f) ↔
      (∃ f, TableHolds state pageNumber f) ∨ pageNumber = pageOf virtualAddr := by
  constructor
  · rintro ⟨f, i, inside, page, _⟩
    rw [call.table.nextPage] at inside
    rw [call.table.table] at page
    by_cases fault : CallsReadFromStore state (pageOf virtualAddr)
    · rcases frame.fault fault with ⟨_, grown, newest, _⟩
      by_cases last : i = state.nextPage
      · rw [last] at page
        exact Or.inr (page.symm.trans newest)
      · have old : i < state.nextPage := by omega
        exact Or.inl ⟨_, i, old, (call.extension.pages i old).symm.trans page, rfl⟩
    · rcases frame.cached fault with ⟨_, same⟩
      rw [same.nextPage] at inside
      rw [same.table] at page
      exact Or.inl ⟨_, i, inside, page, rfl⟩
  · rintro (⟨f, held⟩ | rfl)
    · exact ⟨f, (held.extends call.extension).extends call.table.extends⟩
    · exact ⟨frameNumber, (frame.holds coherent used).extends call.table.extends⟩

end Step

/-! ## Every run -/

/-- The invariant of a run: page table and TLB are in order, and of the pages
other than 0 the page table holds exactly those accessed so far. -/
structure InStep (store : BackingStore) (past : List (BitVec 32)) (state : State) : Prop where
  loaded : Loaded store state
  coherent : Coherent state
  accessed : ∀ pageNumber, pageNumber ≠ 0 →
    ((∃ f, TableHolds state pageNumber f) ↔ pageNumber ∈ past.map pageOf)

theorem bootState_inStep (store : BackingStore) (fresh : FreshMemory) :
    InStep store [] (bootState fresh) where
  loaded := bootState_loaded store fresh
  coherent := bootState_coherent fresh
  accessed pageNumber _ := by
    constructor
    · rintro ⟨_, i, inside, _⟩
      exact absurd inside (Nat.not_lt_zero i)
    · intro member
      exact absurd member List.not_mem_nil

theorem InStep.call {algoChoice : Char} {store : BackingStore} {past : List (BitVec 32)}
    {state resolved next : State} {virtualAddr : BitVec 32} {frameNumber : Int}
    (inStep : InStep store past state)
    (call : Call algoChoice store state virtualAddr frameNumber resolved next)
    (frame : CallFrame state (pageOf virtualAddr) frameNumber resolved) :
    InStep store (past ++ [virtualAddr]) next where
  loaded := call.loaded.congr call.table
  coherent := call.coherent inStep.coherent frame
  accessed pageNumber used := by
    rw [call.held_iff inStep.coherent frame used, inStep.accessed pageNumber used]
    simp

theorem run_inStep (algoChoice : Char) (store : BackingStore) (fresh : FreshMemory)
    (addresses : List (BitVec 32)) :
    ∃ final, run algoChoice store fresh addresses = some final ∧ InStep store addresses final := by
  apply exec_always (InStep store) (bootState_inStep store fresh)
  intro past virtualAddr state inStep
  rcases exists_call algoChoice inStep.loaded virtualAddr with ⟨_, _, next, call, frame⟩
  exact ⟨next, call.steps, inStep.call call frame⟩

/-- A page other than 0 that the run has not accessed faults; one it has
accessed does not. -/
theorem InStep.callsReadFromStore_iff {store : BackingStore} {past : List (BitVec 32)}
    {state : State} (inStep : InStep store past state) {pageNumber : Int}
    (used : pageNumber ≠ 0) :
    CallsReadFromStore state pageNumber ↔ pageNumber ∉ past.map pageOf := by
  rw [← inStep.accessed pageNumber used]
  constructor
  · rintro ⟨_, absent⟩ ⟨f, held⟩
    exact not_tableHolds_of_absent inStep.loaded absent f held
  · intro unheld
    constructor
    · by_contra hit
      rcases exists_tlbSlot inStep.coherent.length hit with ⟨i, inside, page, _⟩
      apply unheld
      rw [← page]
      exact ⟨_, inStep.coherent.slots i inside (by rw [page]; exact used)⟩
    · by_contra present
      exact unheld ⟨_, tableHolds_tableFrame present⟩

/-- The frame number that the call on `virtualAddr` works with after the
addresses `past` have been translated. -/
def frameUsed (algoChoice : Char) (store : BackingStore) (fresh : FreshMemory)
    (past : List (BitVec 32)) (virtualAddr : BitVec 32) : Option Int :=
  (run algoChoice store fresh past).bind fun state =>
    (resolve store (readAddress state virtualAddr) (pageOf virtualAddr)).map Prod.fst

/-- Every slot that names a page other than 0 holds the frame of the page
table. A page other than 0 is read from the store exactly at its first access,
and all accesses to it work with one frame. -/
theorem tlb_coherent (algoChoice : Char) (store : BackingStore) (fresh : FreshMemory)
    (addresses : List (BitVec 32)) :
    (∃ state, run algoChoice store fresh addresses = some state ∧
      ∀ i, i < 16 → state.tlbTable.pageNumArr i ≠ 0 →
        TableHolds state (state.tlbTable.pageNumArr i) (state.tlbTable.frameNumArr i)) ∧
    (∀ past virtualAddr rest, addresses = past ++ virtualAddr :: rest → pageOf virtualAddr ≠ 0 →
      ∃ state, run algoChoice store fresh past = some state ∧
        (CallsReadFromStore (readAddress state virtualAddr) (pageOf virtualAddr) ↔
          pageOf virtualAddr ∉ past.map pageOf)) ∧
    ∀ pageNumber, pageNumber ≠ 0 → ∃ frameNumber,
      ∀ past virtualAddr rest, addresses = past ++ virtualAddr :: rest →
        pageOf virtualAddr = pageNumber →
          frameUsed algoChoice store fresh past virtualAddr = some frameNumber := by
  refine ⟨?_, ?_, ?_⟩
  · rcases run_inStep algoChoice store fresh addresses with ⟨state, reached, inStep⟩
    exact ⟨state, reached, inStep.coherent.slots⟩
  · intro past virtualAddr rest _ used
    rcases run_inStep algoChoice store fresh past with ⟨state, reached, inStep⟩
    exact ⟨state, reached, inStep.callsReadFromStore_iff used⟩
  · intro pageNumber used
    rcases run_inStep algoChoice store fresh addresses with ⟨final, finished, inStep⟩
    refine ⟨tableFrame final pageNumber, ?_⟩
    rintro past virtualAddr rest rfl rfl
    rcases run_inStep algoChoice store fresh past with ⟨state, reached, before⟩
    obtain ⟨frameNumber, resolved, next, call, frame⟩ :=
      exists_call algoChoice before.loaded virtualAddr
    obtain ⟨same, sameFinished, extension⟩ :=
      run_extends algoChoice store fresh (run_snoc reached call.steps) rest
    rw [List.append_assoc] at sameFinished
    obtain rfl := Option.some.inj (sameFinished.symm.trans finished)
    have held : TableHolds same (pageOf virtualAddr) frameNumber :=
      ((frame.holds before.coherent used).extends call.table.extends).extends extension
    rw [frameUsed, reached, Option.bind_some, call.resolves, Option.map_some,
      tableFrame_eq_of_holds inStep.loaded held]

end ComputerSystems.VirtualMemory

import ComputerSystems.VirtualMemory.FirstIn
import ComputerSystems.VirtualMemory.LeastRecent

/-!
# The translated values

A translation is right when the frame it works with is the one the page table
holds. For page 0 a free slot of the TLB answers first, with the frame number 0
of fresh memory. So a run translates right, whatever the backing store holds,
exactly when page 0 is not accessed before every slot of the TLB is taken.
-/

namespace ComputerSystems.VirtualMemory

open ComputerSystems.Loop
open ComputerSystems.Recency
open ComputerSystems.Transition

/-- The TLB agrees with the page table in every slot, free ones included. -/
def WhollyCoherent (state : State) : Prop :=
  ∀ i, i < tlbSize →
    TableHolds state (state.tlbTable.pageNumArr i) (state.tlbTable.frameNumArr i)

/-- `translatedValue` is the signed byte of the backing store that an address
stands for. -/
def Translated (store : BackingStore) (virtualAddr : BitVec 32) (state : State) : Prop :=
  ∃ byte, storedByte store (pageOf virtualAddr * 256 + offsetOf virtualAddr).toNat = some byte ∧
    state.translatedValue = some byte

/-- Every call of a run that starts from zeroed memory translates right. -/
def Translates (algoChoice : Char) (store : BackingStore) (addresses : List (BitVec 32)) : Prop :=
  ∀ past virtualAddr rest, addresses = past ++ virtualAddr :: rest →
    ∃ state, run algoChoice store FreshMemory.zero (past ++ [virtualAddr]) = some state ∧
      Translated store virtualAddr state

/-- Page 0 is accessed only after `taken` has counted 16. -/
def ZeroAfter (taken : List (BitVec 32) → Nat) (addresses : List (BitVec 32)) : Prop :=
  ∀ past virtualAddr rest, addresses = past ++ virtualAddr :: rest → pageOf virtualAddr = 0 →
    16 ≤ taken past

/-- The number of distinct pages other than 0 that a run has accessed. -/
def distinctPages (past : List (BitVec 32)) : Nat :=
  (recentPages (history past)).length

/-! ## Positions and cells -/

theorem position_eq {pageNumber offset : Int} (page : 0 ≤ pageNumber) (inside : 0 ≤ offset) :
    (pageNumber * pageReadSize).toNat + offset.toNat = (pageNumber * 256 + offset).toNat := by
  rw [show (pageReadSize : Int) = 256 from rfl]
  omega

theorem dramCell_of_inside (dram : Nat → Nat → Int) {frameNumber offset : Int}
    (frameRange : 0 ≤ frameNumber ∧ frameNumber < 256) (offsetRange : 0 ≤ offset ∧ offset < 256) :
    dramCell dram frameNumber offset = some (dram frameNumber.toNat offset.toNat) :=
  if_pos ⟨frameRange.1, frameRange.2, offsetRange.1, offsetRange.2⟩

/-! ## One call -/

section Step

variable {algoChoice : Char} {store : BackingStore} {state resolved next : State}
  {virtualAddr : BitVec 32} {frameNumber : Int}

/-- A call that works with the frame of the page table translates right. -/
theorem Call.translated
    (call : Call algoChoice store state virtualAddr frameNumber resolved next)
    (holds : TableHolds resolved (pageOf virtualAddr) frameNumber) :
    Translated store virtualAddr next := by
  rcases holds with ⟨i, inside, page, frame⟩
  have number := call.loaded.frames i inside
  have bound := call.loaded.bound
  have pageRange := pageOf_range virtualAddr
  have offsetRange := offsetOf_range virtualAddr
  have stored := call.loaded.contents i inside (offsetOf virtualAddr).toNat
    (show (offsetOf virtualAddr).toNat < 256 by omega)
  rw [page, position_eq pageRange.1 offsetRange.1] at stored
  have cell : dramCell next.dram frameNumber (offsetOf virtualAddr) =
      some (resolved.dram i (offsetOf virtualAddr).toNat) := by
    rw [dramCell_of_inside _ (by omega) offsetRange, call.table.dram, ← frame, number,
      Int.toNat_natCast]
  exact ⟨_, stored, call.value.trans cell⟩

theorem WhollyCoherent.holds (whole : WhollyCoherent state)
    (length : state.tlbTable.length = tlbSize)
    (frame : CallFrame state (pageOf virtualAddr) frameNumber resolved) :
    TableHolds resolved (pageOf virtualAddr) frameNumber := by
  apply frame.holds_of_slots length
  intro i inside page
  rw [← page]
  exact whole i inside

theorem WhollyCoherent.call (whole : WhollyCoherent state) (coherent : Coherent state)
    (call : Call algoChoice store state virtualAddr frameNumber resolved next)
    (frame : CallFrame state (pageOf virtualAddr) frameNumber resolved) : WhollyCoherent next := by
  have entries : resolved.nextTLBentry ≤ tlbSize := by
    rw [call.slots.next]
    exact coherent.entries
  intro i inside
  apply TableHolds.extends call.table.extends
  rw [call.tlb]
  rcases tlbInsert_entry algoChoice entries (pageOf virtualAddr) frameNumber inside with
    fresh | ⟨k, kInside, old⟩
  · rcases Prod.mk.inj fresh with ⟨page, stored⟩
    rw [page, stored]
    exact whole.holds coherent.length frame
  · rcases Prod.mk.inj old with ⟨page, stored⟩
    rw [page, stored, call.slots.pages, call.slots.frames]
    exact (whole k kInside).extends call.extension

theorem Coherent.whole (coherent : Coherent state)
    (full : ∀ i, i < 16 → state.tlbTable.pageNumArr i ≠ 0) : WhollyCoherent state :=
  fun i inside => coherent.slots i inside (full i inside)

end Step

/-! ## Reads of `dram` -/

/-- Frame numbers of frames, or minus one, which makes a hit a miss. -/
def FramesInside (frames : Nat → Int) : Prop :=
  ∀ i, i < tlbSize → -1 ≤ frames i ∧ frames i < totalFrameCount

section Reads

variable {algoChoice : Char} {store : BackingStore} {past : List (BitVec 32)}
  {state resolved next : State} {virtualAddr : BitVec 32} {frameNumber : Int}

theorem Call.frameInside (call : Call algoChoice store state virtualAddr frameNumber resolved next)
    (inStep : InStep store past state) (inside : FramesInside state.tlbTable.frameNumArr)
    (frame : CallFrame state (pageOf virtualAddr) frameNumber resolved) :
    0 ≤ frameNumber ∧ frameNumber < 256 := by
  by_cases fault : CallsReadFromStore state (pageOf virtualAddr)
  · rcases frame.fault fault with ⟨number, count, _⟩
    have room := call.loaded.bound
    rw [number, inStep.loaded.frameCount]
    omega
  · rcases frame.cached fault with ⟨number, _⟩
    rw [number, cachedFrame]
    split
    · rename_i missed
      have present : tableFrame state (pageOf virtualAddr) ≠ -1 :=
        fun absent => fault ⟨missed, absent⟩
      rcases tableHolds_tableFrame present with ⟨i, listed, _, held⟩
      have room := inStep.loaded.bound
      rw [← held, inStep.loaded.frames i listed]
      omega
    · rename_i hit
      rcases exists_tlbSlot inStep.coherent.length hit with ⟨i, slot, _, held⟩
      have range := inside i slot
      rw [held] at hit ⊢
      rw [show (totalFrameCount : Int) = 256 from rfl] at range
      omega

theorem Call.framesInside (call : Call algoChoice store state virtualAddr frameNumber resolved next)
    (coherent : Coherent state) (inside : FramesInside state.tlbTable.frameNumArr)
    (here : 0 ≤ frameNumber ∧ frameNumber < 256) : FramesInside next.tlbTable.frameNumArr := by
  have entries : resolved.nextTLBentry ≤ tlbSize := by
    rw [call.slots.next]
    exact coherent.entries
  intro i slot
  rw [call.tlb]
  rcases tlbInsert_entry algoChoice entries (pageOf virtualAddr) frameNumber slot with
    new | ⟨k, kInside, old⟩
  · rw [(Prod.mk.inj new).2, show (totalFrameCount : Int) = 256 from rfl]
    omega
  · rw [(Prod.mk.inj old).2, call.slots.frames]
    exact inside k kInside

/-- From fresh memory whose frame numbers are inside, every call of every run reads a cell of
`dram`. -/
theorem run_reads_inside (algoChoice : Char) (store : BackingStore) {fresh : FreshMemory}
    (inside : FramesInside fresh.tlbFrames) (addresses : List (BitVec 32)) :
    ∃ final, run algoChoice store fresh addresses = some final ∧
      (addresses ≠ [] → final.translatedValue ≠ none) := by
  have kept : ∃ final, run algoChoice store fresh addresses = some final ∧
      InStep store addresses final ∧ FramesInside final.tlbTable.frameNumArr ∧
        (addresses ≠ [] → final.translatedValue ≠ none) := by
    apply exec_always (fun past state => InStep store past state ∧
      FramesInside state.tlbTable.frameNumArr ∧ (past ≠ [] → state.translatedValue ≠ none))
    · exact ⟨bootState_inStep store fresh, inside, fun none => absurd rfl none⟩
    · rintro past virtualAddr state ⟨inStep, frames, _⟩
      rcases exists_call algoChoice inStep.loaded virtualAddr with ⟨_, _, next, call, frame⟩
      have here := call.frameInside inStep frames frame
      refine ⟨next, call.steps, inStep.call call frame,
        call.framesInside inStep.coherent frames here, fun _ => ?_⟩
      rw [call.value, dramCell_of_inside _ here (offsetOf_range virtualAddr)]
      exact Option.some_ne_none _
  rcases kept with ⟨final, reached, _, _, read⟩
  exact ⟨final, reached, read⟩

end Reads

/-! ## Before page 0 is accessed -/

/-- A run from zeroed memory. Until page 0 is accessed every free slot has
frame 0, and frame 0 holds zeros until a page is loaded. -/
structure Started (store : BackingStore) (past : List (BitVec 32)) (state : State) : Prop where
  inStep : InStep store past state
  table : ∀ i, i < state.nextPage → state.pageTable.pageNumArr i ∈ past.map pageOf
  memory : state.nextPage = 0 → ∀ k, state.dram 0 k = 0
  free : 0 ∉ past.map pageOf → ∀ i, i < tlbSize → state.tlbTable.pageNumArr i = 0 →
    state.tlbTable.frameNumArr i = 0

theorem bootState_started (store : BackingStore) :
    Started store [] (bootState FreshMemory.zero) where
  inStep := bootState_inStep store FreshMemory.zero
  table i inside := absurd inside (Nat.not_lt_zero i)
  memory _ _ := rfl
  free _ _ _ _ := rfl

theorem Started.call {algoChoice : Char} {store : BackingStore} {past : List (BitVec 32)}
    {state resolved next : State} {virtualAddr : BitVec 32} {frameNumber : Int}
    (started : Started store past state)
    (call : Call algoChoice store state virtualAddr frameNumber resolved next)
    (frame : CallFrame state (pageOf virtualAddr) frameNumber resolved) :
    Started store (past ++ [virtualAddr]) next where
  inStep := started.inStep.call call frame
  table i inside := by
    rw [call.table.nextPage] at inside
    rw [call.table.table, List.map_append, List.mem_append]
    by_cases fault : CallsReadFromStore state (pageOf virtualAddr)
    · rcases frame.fault fault with ⟨_, grown, newest, _⟩
      by_cases last : i = state.nextPage
      · rw [last, newest]
        exact Or.inr (List.mem_singleton_self _)
      · have old : i < state.nextPage := by omega
        rw [call.extension.pages i old]
        exact Or.inl (started.table i old)
    · rcases frame.cached fault with ⟨_, same⟩
      rw [same.nextPage] at inside
      rw [same.table]
      exact Or.inl (started.table i inside)
  memory empty k := by
    rw [call.table.nextPage] at empty
    rw [call.table.dram]
    by_cases fault : CallsReadFromStore state (pageOf virtualAddr)
    · rcases frame.fault fault with ⟨_, grown, _⟩
      omega
    · rcases frame.cached fault with ⟨_, same⟩
      rw [same.dram]
      exact started.memory (same.nextPage.symm.trans empty) k
  free never i inside unused := by
    rw [List.map_append, List.mem_append, not_or] at never
    rcases never with ⟨before, now⟩
    have entries : resolved.nextTLBentry ≤ tlbSize := by
      rw [call.slots.next]
      exact started.inStep.coherent.entries
    rw [call.tlb] at unused ⊢
    rcases tlbInsert_entry algoChoice entries (pageOf virtualAddr) frameNumber inside with
      fresh | ⟨k, kInside, old⟩
    · rcases Prod.mk.inj fresh with ⟨page, _⟩
      rw [page] at unused
      exact absurd (List.mem_singleton.mpr unused.symm) now
    · rcases Prod.mk.inj old with ⟨page, stored⟩
      rw [page, call.slots.pages] at unused
      rw [stored, call.slots.frames]
      exact started.free before k kInside unused

theorem run_started (algoChoice : Char) (store : BackingStore) (addresses : List (BitVec 32)) :
    ∃ final, run algoChoice store FreshMemory.zero addresses = some final ∧
      Started store addresses final := by
  apply exec_always (Started store) (bootState_started store)
  intro past virtualAddr state started
  rcases exists_call algoChoice started.inStep.loaded virtualAddr with ⟨_, _, next, call, frame⟩
  exact ⟨next, call.steps, started.call call frame⟩

/-- The backing store whose page 0 holds ones, every other page zeros. -/
def onesInPageZero : BackingStore :=
  fun position => if position.val < 256 then 1#8 else 0#8

theorem storedByte_onesInPageZero {pageNumber offset : Int}
    (offsetRange : 0 ≤ offset ∧ offset < 256)
    (pageRange : 0 ≤ pageNumber ∧ pageNumber < 256) :
    storedByte onesInPageZero (pageNumber * 256 + offset).toNat =
      some (if pageNumber = 0 then 1 else 0) := by
  have inside : (pageNumber * 256 + offset).toNat < storeSize := by
    have size : storeSize = 65536 := rfl
    omega
  rw [storedByte, dif_pos inside, onesInPageZero]
  by_cases zero : pageNumber = 0
  · rw [if_pos zero, if_pos (show (pageNumber * 256 + offset).toNat < 256 by omega)]
    rfl
  · rw [if_neg zero, if_neg (show ¬ (pageNumber * 256 + offset).toNat < 256 by omega)]
    rfl

/-- Until page 0 is accessed, frame 0 holds zeros or the bytes of another page. -/
theorem Started.frame_zero {past : List (BitVec 32)} {state : State}
    (started : Started onesInPageZero past state) (never : 0 ∉ past.map pageOf) {offset : Int}
    (offsetRange : 0 ≤ offset ∧ offset < 256) : state.dram 0 offset.toNat = 0 := by
  rcases Nat.eq_zero_or_pos state.nextPage with empty | loaded
  · exact started.memory empty _
  · have pageRange := started.inStep.loaded.range 0 loaded
    have other : state.pageTable.pageNumArr 0 ≠ 0 := by
      intro page
      exact never (page ▸ started.table 0 loaded)
    have stored := started.inStep.loaded.contents 0 loaded offset.toNat
      (show offset.toNat < 256 by omega)
    rw [position_eq pageRange.1 offsetRange.1, storedByte_onesInPageZero offsetRange pageRange,
      if_neg other] at stored
    exact (Option.some.inj stored).symm

/-- Until page 0 is accessed, a free slot is a TLB hit for it, with frame 0. -/
theorem Started.hit_zero {store : BackingStore} {past : List (BitVec 32)} {state : State}
    (started : Started store past state) (never : 0 ∉ past.map pageOf) {i : Nat}
    (inside : i < tlbSize) (free : state.tlbTable.pageNumArr i = 0) : tlbFrame state 0 = 0 := by
  have length := started.inStep.coherent.length
  have searched : i < state.tlbTable.length := by omega
  rcases exists_firstIndex searched free with ⟨found, search⟩
  rcases tlbSlot_spec length search with ⟨foundInside, page, tlb⟩
  rw [tlb]
  exact started.free never found foundInside page

/-- The first access to page 0 finds a free slot, if there is one, and reads the
wrong frame. -/
theorem Started.not_translated {algoChoice : Char} {past : List (BitVec 32)}
    {state resolved next : State} {virtualAddr : BitVec 32} {frameNumber : Int}
    (started : Started onesInPageZero past state) (never : 0 ∉ past.map pageOf)
    (zero : pageOf virtualAddr = 0) {i : Nat} (inside : i < 16)
    (free : state.tlbTable.pageNumArr i = 0)
    (call : Call algoChoice onesInPageZero state virtualAddr frameNumber resolved next)
    (frame : CallFrame state (pageOf virtualAddr) frameNumber resolved) :
    ¬ Translated onesInPageZero virtualAddr next := by
  have offsetRange := offsetOf_range virtualAddr
  rw [zero] at frame
  have hit : tlbFrame state 0 = 0 := started.hit_zero never inside free
  have cached : ¬ CallsReadFromStore state 0 := by
    rintro ⟨missed, _⟩
    omega
  rcases frame.cached cached with ⟨used, same⟩
  rw [cachedFrame, hit, if_neg (by omega)] at used
  rintro ⟨byte, right, value⟩
  rw [zero, storedByte_onesInPageZero offsetRange (by omega), if_pos rfl] at right
  rw [call.value, used, dramCell_of_inside _ (by omega) offsetRange, call.table.dram, same.dram,
    Int.toNat_zero, started.frame_zero never offsetRange, ← right] at value
  simp at value

/-! ## Every run -/

/-- `taken` counts towards the slots in use until page 0 is accessed. -/
structure CountsSlots (algoChoice : Char) (taken : List (BitVec 32) → Nat) : Prop where
  monotone : ∀ past rest, taken past ≤ taken (past ++ rest)
  full : ∀ store past state, run algoChoice store FreshMemory.zero past = some state →
    0 ∉ past.map pageOf →
      (16 ≤ taken past ↔ ∀ i, i < 16 → state.tlbTable.pageNumArr i ≠ 0)

section Counted

variable {algoChoice : Char} {taken : List (BitVec 32) → Nat}

/-- With 16 counted, the TLB agrees with the page table in every slot. -/
private theorem whole_of_taken (counts : CountsSlots algoChoice taken) {store : BackingStore}
    {past : List (BitVec 32)} {state : State}
    (reached : run algoChoice store FreshMemory.zero past = some state)
    (inStep : InStep store past state) (whole : 0 ∈ past.map pageOf → WhollyCoherent state)
    (late : 16 ≤ taken past) : WhollyCoherent state := by
  by_cases before : 0 ∈ past.map pageOf
  · exact whole before
  · exact inStep.coherent.whole ((counts.full store past state reached before).mp late)

/-- A run that accesses page 0 late has a TLB that agrees with the page table
in every slot from that access on. -/
theorem run_whole (counts : CountsSlots algoChoice taken) (store : BackingStore)
    {addresses : List (BitVec 32)} (late : ZeroAfter taken addresses) :
    ∃ final, run algoChoice store FreshMemory.zero addresses = some final ∧
      InStep store addresses final ∧ (0 ∈ addresses.map pageOf → WhollyCoherent final) := by
  apply exec_history (fun past state => InStep store past state ∧
    (0 ∈ past.map pageOf → WhollyCoherent state))
  · exact ⟨bootState_inStep store FreshMemory.zero, fun member => absurd member List.not_mem_nil⟩
  · rintro past virtualAddr rest split state reached ⟨inStep, whole⟩
    rcases exists_call algoChoice inStep.loaded virtualAddr with ⟨_, _, next, call, frame⟩
    refine ⟨next, call.steps, inStep.call call frame, ?_⟩
    intro member
    rw [List.map_append, List.mem_append, List.map_singleton, List.mem_singleton] at member
    apply WhollyCoherent.call _ inStep.coherent call frame
    rcases member with before | now
    · exact whole before
    · exact whole_of_taken counts reached inStep whole (late past virtualAddr rest split now.symm)

/-- A list with an access to page 0 has a first one. -/
theorem exists_first_zero {past : List (BitVec 32)} (member : 0 ∈ past.map pageOf) :
    ∃ before virtualAddr after, past = before ++ virtualAddr :: after ∧
      pageOf virtualAddr = 0 ∧ 0 ∉ before.map pageOf := by
  induction past with
  | nil => exact absurd member List.not_mem_nil
  | cons first rest ih =>
      by_cases zero : pageOf first = 0
      · exact ⟨[], first, rest, rfl, zero, List.not_mem_nil⟩
      · rw [List.map_cons, List.mem_cons] at member
        rcases ih (member.resolve_left (Ne.symm zero)) with
          ⟨before, virtualAddr, after, rfl, here, never⟩
        refine ⟨first :: before, virtualAddr, after, rfl, here, ?_⟩
        rw [List.map_cons, List.mem_cons, not_or]
        exact ⟨Ne.symm zero, never⟩

/-- The first access to page 0 of a run that translates right for every backing
store comes late. -/
theorem late_of_translates (counts : CountsSlots algoChoice taken) {addresses : List (BitVec 32)}
    (right : ∀ store, Translates algoChoice store addresses) {past rest : List (BitVec 32)}
    {virtualAddr : BitVec 32} (split : addresses = past ++ virtualAddr :: rest)
    (zero : pageOf virtualAddr = 0) (never : 0 ∉ past.map pageOf) : 16 ≤ taken past := by
  rcases run_started algoChoice onesInPageZero past with ⟨state, reached, started⟩
  rw [counts.full onesInPageZero past state reached never]
  intro i inside free
  rcases exists_call algoChoice started.inStep.loaded virtualAddr with ⟨_, _, next, call, frame⟩
  rcases right onesInPageZero past virtualAddr rest split with ⟨same, sameReached, translated⟩
  obtain rfl := Option.some.inj ((run_snoc reached call.steps).symm.trans sameReached)
  exact started.not_translated never zero inside free call frame translated

/-- A run translates right for every backing store exactly when it accesses
page 0 only after every slot of the TLB is taken. -/
theorem translates_iff (counts : CountsSlots algoChoice taken) (addresses : List (BitVec 32)) :
    (∀ store, Translates algoChoice store addresses) ↔ ZeroAfter taken addresses := by
  constructor
  · rintro right past virtualAddr rest rfl zero
    by_cases member : 0 ∈ past.map pageOf
    · rcases exists_first_zero member with ⟨before, first, after, rfl, here, never⟩
      have split : before ++ first :: after ++ virtualAddr :: rest =
          before ++ first :: (after ++ virtualAddr :: rest) := by simp
      exact (late_of_translates counts right split here never).trans (counts.monotone before _)
    · exact late_of_translates counts right rfl zero member
  · rintro late store past virtualAddr rest rfl
    have lateBefore : ZeroAfter taken past := by
      rintro earlier now later rfl here
      exact late earlier now (later ++ virtualAddr :: rest) (by simp) here
    rcases run_whole counts store lateBefore with ⟨state, reached, inStep, whole⟩
    rcases exists_call algoChoice inStep.loaded virtualAddr with ⟨_, _, next, call, frame⟩
    refine ⟨next, run_snoc reached call.steps, call.translated ?_⟩
    by_cases zero : pageOf virtualAddr = 0
    · have wholly :=
        whole_of_taken counts reached inStep whole (late past virtualAddr rest rfl zero)
      exact wholly.holds inStep.coherent.length frame
    · exact frame.holds inStep.coherent zero

end Counted

/-- Every call under `algo_choice` 1 takes a slot. -/
theorem countsSlots_fifo : CountsSlots '1' List.length where
  monotone past rest := by
    rw [List.length_append]
    exact Nat.le_add_right _ _
  full store past state reached never := by
    rcases run_fifoRun store FreshMemory.zero past with ⟨same, sameReached, fifo⟩
    obtain rfl := Option.some.inj (sameReached.symm.trans reached)
    have count := fifo.count
    constructor
    · intro long i inside free
      exact never (free ▸ fifo.accessed i (by omega))
    · intro used
      by_contra short
      exact used same.nextTLBentry (by omega)
        (fifo.blank _ (Nat.le_refl _) (show same.nextTLBentry < 16 by omega))

/-- Every page other than 0 that is new takes a slot under `algo_choice` 2. -/
theorem countsSlots_lru : CountsSlots '2' distinctPages where
  monotone past rest := by
    induction rest using List.reverseRecOn with
    | nil => rw [List.append_nil]
    | append_singleton rest virtualAddr ih =>
        apply ih.trans
        rw [← List.append_assoc, distinctPages, distinctPages, history_snoc]
        by_cases zero : pageOf virtualAddr = 0
        · rw [zero, recentPages_zero]
        · rw [recentPages_cons zero]
          exact length_le_promote (nodup_recentPages _) _
  full store past state reached never := by
    rcases run_trueLru store FreshMemory.zero past with ⟨same, sameReached, _, lru⟩
    obtain rfl := Option.some.inj (sameReached.symm.trans reached)
    have card := lru.exact fun member => never (List.mem_reverse.mp member)
    rw [← show tlbSize = 16 from rfl, ← card_usedSlots_eq, card, distinctPages]
    have size : tlbSize = 16 := rfl
    omega

/-- A run that starts from zeroed memory translates right for every backing
store exactly when page 0 is accessed late: after 16 calls under `algo_choice`
1, after 16 distinct other pages under `algo_choice` 2. -/
theorem translateAddress_correct_iff (addresses : List (BitVec 32)) :
    ((∀ store, Translates '1' store addresses) ↔ ZeroAfter List.length addresses) ∧
    ((∀ store, Translates '2' store addresses) ↔ ZeroAfter distinctPages addresses) :=
  ⟨translates_iff countsSlots_fifo addresses, translates_iff countsSlots_lru addresses⟩

/-- Address 0 is translated to 0, whatever its byte is. -/
theorem translates_fails_on_page_zero :
    ¬ ∀ store : BackingStore, ∀ addresses, Translates '1' store addresses ∧
      Translates '2' store addresses := by
  intro right
  have value : ((run '1' onesInPageZero FreshMemory.zero [0#32]).map State.translatedValue) =
      some (some 0) := by
    decide
  have byte : storedByte onesInPageZero (pageOf 0#32 * 256 + offsetOf 0#32).toNat = some 1 := by
    decide
  obtain ⟨state, reached, stored, right, translated⟩ :=
    (right onesInPageZero [0#32]).1 [] 0#32 [] rfl
  have same := (congrArg (Option.map State.translatedValue) reached).symm.trans value
  rw [Option.map_some, translated, ← right, byte] at same
  simp at same

end ComputerSystems.VirtualMemory

import Mathlib.Data.Set.Insert
import ComputerSystems.VirtualMemory.Coherence

/-!
# FIFO replacement: which entries are held

`translateAddress` inserts on hits as well as on misses. `tlbFIFOinsert` keeps
what it holds only while it appends: a hit with room leaves the last entry in
two slots, and a miss in a full TLB overwrites the last entry before it shifts.
A run keeps its entries exactly when it never takes these two ways.
-/

namespace ComputerSystems.VirtualMemory

open ComputerSystems.Loop
open ComputerSystems.Transition

/-! ## FIFO calls -/

theorem FifoOutcome.congr {tlb same after : VmTable} {next afterNext : Nat}
    {pageNumber frameNumber : Int} (pages : same.pageNumArr = tlb.pageNumArr)
    (frames : same.frameNumArr = tlb.frameNumArr)
    (outcome : FifoOutcome same next pageNumber frameNumber after afterNext) :
    FifoOutcome tlb next pageNumber frameNumber after afterNext := by
  have entry : same.entry = tlb.entry := by
    funext j
    simp only [VmTable.entry, pages, frames]
  cases outcome with
  | appended absent room entries count =>
      exact .appended (pages ▸ absent) room (entry ▸ entries) count
  | overwrote absent full entries count =>
      exact .overwrote (pages ▸ absent) full (entry ▸ entries) count
  | requeued slot inside held first room entries count =>
      exact .requeued slot inside (pages ▸ held) (pages ▸ first) room (entry ▸ entries) count
  | movedToEnd slot inside held first full entries count =>
      exact .movedToEnd slot inside (pages ▸ held) (pages ▸ first) full (entry ▸ entries) count

/-- The TLB after one call under `algo_choice` 1. -/
theorem Call.fifo {store : BackingStore} {state resolved next : State}
    {virtualAddr : BitVec 32} {frameNumber : Int} (coherent : Coherent state)
    (call : Call '1' store state virtualAddr frameNumber resolved next) :
    FifoOutcome state.tlbTable state.nextTLBentry (pageOf virtualAddr) frameNumber
      next.tlbTable next.nextTLBentry := by
  have entries : resolved.nextTLBentry = state.nextTLBentry := call.slots.next
  have bounded : resolved.nextTLBentry ≤ tlbSize := entries ▸ coherent.entries
  have outcome := tlbFIFOinsert_outcome bounded (pageOf virtualAddr) frameNumber
  rw [call.tlb, call.entries, ← entries]
  exact outcome.congr call.slots.pages call.slots.frames

/-- The frame of a call is never the marker for an absent page. -/
theorem CallFrame.ne_marker {state resolved : State} {pageNumber frameNumber : Int}
    (frame : CallFrame state pageNumber frameNumber resolved) : frameNumber ≠ -1 := by
  by_cases fault : CallsReadFromStore state pageNumber
  · rw [(frame.fault fault).1]
    omega
  · rw [(frame.cached fault).1, cachedFrame]
    split
    · rename_i missed
      exact fun absent => fault ⟨missed, absent⟩
    · rename_i hit
      exact hit

/-- The slots below `nextTLBentry` hold the new entry and entries that were
below `nextTLBentry` before. -/
theorem FifoOutcome.entry_below {tlb after : VmTable} {next afterNext : Nat}
    {pageNumber frameNumber : Int}
    (outcome : FifoOutcome tlb next pageNumber frameNumber after afterNext) {j : Nat}
    (inside : j < afterNext) :
    after.entry j = (pageNumber, frameNumber) ∨
      ∃ k, k < next ∧ after.entry j = tlb.entry k := by
  have size : tlbSize = 16 := rfl
  cases outcome with
  | appended _ _ entries grown =>
      rw [entries]
      split
      · exact Or.inl rfl
      · exact Or.inr ⟨j, by omega, rfl⟩
  | overwrote _ full entries grown =>
      rw [entries j (by omega)]
      split
      · exact Or.inr ⟨j + 1, by omega, rfl⟩
      · exact Or.inl rfl
  | requeued slot _ _ _ _ entries grown | movedToEnd slot _ _ _ _ entries grown =>
      rw [entries]
      split
      · exact Or.inl rfl
      · split
        · exact Or.inr ⟨j + 1, by omega, rfl⟩
        · exact Or.inr ⟨j, by omega, rfl⟩

/-- What holds in every state of a run under `algo_choice` 1. -/
structure FifoRun (store : BackingStore) (past : List (BitVec 32)) (state : State) : Prop where
  inStep : InStep store past state
  count : state.nextTLBentry = min 16 past.length
  accessed : ∀ i, i < state.nextTLBentry → state.tlbTable.pageNumArr i ∈ past.map pageOf
  frames : ∀ i, i < state.nextTLBentry → state.tlbTable.frameNumArr i ≠ -1
  blank : ∀ i, state.nextTLBentry ≤ i → i < tlbSize → state.tlbTable.pageNumArr i = 0

theorem bootState_fifoRun (store : BackingStore) (fresh : FreshMemory) :
    FifoRun store [] (bootState fresh) where
  inStep := bootState_inStep store fresh
  count := rfl
  accessed i inside := absurd inside (Nat.not_lt_zero i)
  frames i inside := absurd inside (Nat.not_lt_zero i)
  blank _ _ _ := rfl

theorem FifoRun.call {store : BackingStore} {past : List (BitVec 32)}
    {state resolved next : State} {virtualAddr : BitVec 32} {frameNumber : Int}
    (fifo : FifoRun store past state)
    (call : Call '1' store state virtualAddr frameNumber resolved next)
    (frame : CallFrame state (pageOf virtualAddr) frameNumber resolved) :
    FifoRun store (past ++ [virtualAddr]) next := by
  have size : tlbSize = 16 := rfl
  have bound := fifo.inStep.coherent.entries
  have count := fifo.count
  have length : (past ++ [virtualAddr]).length = past.length + 1 := by simp
  have outcome := call.fifo fifo.inStep.coherent
  refine ⟨fifo.inStep.call call frame, ?_, ?_, ?_, ?_⟩
  · cases outcome <;> omega
  · intro i inside
    rw [List.map_append, List.mem_append]
    rcases outcome.entry_below inside with fresh | ⟨k, kInside, old⟩
    · rw [VmTable.pageNumArr_eq fresh]
      exact Or.inr (List.mem_singleton_self _)
    · rw [VmTable.pageNumArr_eq old]
      exact Or.inl (fifo.accessed k kInside)
  · intro i inside
    rcases outcome.entry_below inside with fresh | ⟨k, kInside, old⟩
    · rw [VmTable.frameNumArr_eq fresh]
      exact frame.ne_marker
    · rw [VmTable.frameNumArr_eq old]
      exact fifo.frames k kInside
  · intro i outside inside
    cases outcome with
    | appended _ room entries grown =>
        rw [VmTable.pageNumArr_eq (entries i), if_neg (by omega)]
        exact fifo.blank i (by omega) inside
    | overwrote _ full entries grown => omega
    | requeued slot _ _ _ room entries grown =>
        rw [VmTable.pageNumArr_eq (entries i), if_neg (by omega), if_neg (by omega)]
        exact fifo.blank i (by omega) inside
    | movedToEnd slot _ _ _ full entries grown => omega

theorem run_fifoRun (store : BackingStore) (fresh : FreshMemory)
    (addresses : List (BitVec 32)) :
    ∃ final, run '1' store fresh addresses = some final ∧ FifoRun store addresses final := by
  apply exec_always (FifoRun store) (bootState_fifoRun store fresh)
  intro past virtualAddr state fifo
  rcases exists_call '1' fifo.inStep.loaded virtualAddr with ⟨_, _, next, call, frame⟩
  exact ⟨next, call.steps, fifo.call call frame⟩

/-! ## The entries held -/

/-- The (page, frame) pairs in the slots below `nextTLBentry`. -/
def heldEntries (state : State) : Set (Int × Int) :=
  {stored | ∃ i, i < state.nextTLBentry ∧ state.tlbTable.entry i = stored}

/-- A page is named by a slot below `nextTLBentry`. -/
def HoldsPage (state : State) (pageNumber : Int) : Prop :=
  ∃ i, i < state.nextTLBentry ∧ state.tlbTable.pageNumArr i = pageNumber

/-- The slots below `nextTLBentry` name pairwise distinct pages. -/
def DistinctPages (state : State) : Prop :=
  ∀ i, i < state.nextTLBentry → ∀ j, j < state.nextTLBentry →
    state.tlbTable.pageNumArr i = state.tlbTable.pageNumArr j → i = j

/-- What a call of `tlbFIFOinsert` may do to the entries held: a page already
held changes nothing, a new one is added, and only a full TLB gives up an
entry, the one in slot 0. -/
structure KeepsEntries (before : State) (pageNumber frameNumber : Int) (after : State) :
    Prop where
  held : HoldsPage before pageNumber → heldEntries after = heldEntries before
  added : ¬ HoldsPage before pageNumber → before.nextTLBentry < 16 →
    heldEntries after = insert (pageNumber, frameNumber) (heldEntries before)
  evicted : ¬ HoldsPage before pageNumber → before.nextTLBentry = 16 →
    heldEntries after = insert (pageNumber, frameNumber)
      {stored ∈ heldEntries before | stored.1 ≠ before.tlbTable.pageNumArr 0}

/-- No entry of a run is duplicated and none but the head is lost: the pages
held are distinct in every state, and every call keeps the entries. -/
def EntriesKept (store : BackingStore) (fresh : FreshMemory) (addresses : List (BitVec 32)) :
    Prop :=
  (∀ past rest, addresses = past ++ rest → ∀ state, run '1' store fresh past = some state →
    DistinctPages state) ∧
  ∀ past virtualAddr rest, addresses = past ++ virtualAddr :: rest →
    ∀ before frameNumber resolved after, run '1' store fresh past = some before →
      resolve store (readAddress before virtualAddr) (pageOf virtualAddr) =
        some (frameNumber, resolved) →
      mainStep '1' store before virtualAddr = some after →
        KeepsEntries before (pageOf virtualAddr) frameNumber after

/-- The first 16 pages are distinct and every later page is one of them. -/
def SixteenDistinct (pages : List Int) : Prop :=
  (pages.take 16).Nodup ∧ ∀ pageNumber, pageNumber ∈ pages.drop 16 → pageNumber ∈ pages.take 16

/-! ## One call -/

section Step

variable {store : BackingStore} {past : List (BitVec 32)} {state resolved next : State}
  {virtualAddr : BitVec 32} {frameNumber : Int}

/-- A hit with room leaves the last entry in two slots. -/
theorem not_distinct_of_requeued {tlb : VmTable} {pageNumber : Int} {slot : Nat}
    (inside : slot < state.nextTLBentry) (held : tlb.pageNumArr slot = pageNumber)
    (entries : ∀ j, next.tlbTable.entry j =
      if j = state.nextTLBentry then (pageNumber, frameNumber)
      else if slot ≤ j ∧ j < state.nextTLBentry - 1 then tlb.entry (j + 1) else tlb.entry j)
    (count : next.nextTLBentry = state.nextTLBentry + 1) : ¬ DistinctPages next := by
  intro distinct
  have last := VmTable.pageNumArr_eq (entries (state.nextTLBentry - 1))
  rw [if_neg (by omega), if_neg (by omega)] at last
  by_cases final : slot = state.nextTLBentry - 1
  · have appended := VmTable.pageNumArr_eq (entries state.nextTLBentry)
    rw [if_pos rfl] at appended
    have same : next.tlbTable.pageNumArr (state.nextTLBentry - 1) =
        next.tlbTable.pageNumArr state.nextTLBentry := by
      rw [last, appended, ← final]
      exact held
    have := distinct _ (by omega) _ (by omega) same
    omega
  · have shifted := VmTable.pageNumArr_eq (entries (state.nextTLBentry - 2))
    rw [if_neg (by omega), if_pos (by omega),
      show state.nextTLBentry - 2 + 1 = state.nextTLBentry - 1 by omega] at shifted
    have := distinct _ (by omega) _ (by omega) (shifted.trans last.symm)
    omega

/-- A miss in a full TLB leaves the new entry in two slots. -/
theorem not_distinct_of_overwrote {tlb : VmTable} {pageNumber : Int}
    (entries : ∀ j, j < tlbSize → next.tlbTable.entry j =
      if j < 14 then tlb.entry (j + 1) else (pageNumber, frameNumber))
    (count : next.nextTLBentry = tlbSize) : ¬ DistinctPages next := by
  intro distinct
  have size : tlbSize = 16 := rfl
  have left := VmTable.pageNumArr_eq (entries 14 (by omega))
  have right := VmTable.pageNumArr_eq (entries 15 (by omega))
  rw [if_neg (by omega)] at left right
  have := distinct 14 (by omega) 15 (by omega) (left.trans right.symm)
  omega

/-- Where the entry of each slot was before the page of `slot` moved to the
end. -/
private def source (slot j : Nat) : Nat :=
  if j = 15 then slot else if slot ≤ j ∧ j < 15 then j + 1 else j

private theorem source_lt {slot j : Nat} (slotInside : slot < 16) (inside : j < 16) :
    source slot j < 16 := by
  unfold source
  split_ifs <;> omega

private theorem source_injective {slot i j : Nat} (slotInside : slot < 16) (iInside : i < 16)
    (jInside : j < 16) (same : source slot i = source slot j) : i = j := by
  unfold source at same
  split_ifs at same <;> omega

private theorem exists_source {slot j : Nat} (slotInside : slot < 16) (inside : j < 16) :
    ∃ i, i < 16 ∧ source slot i = j := by
  rcases Nat.lt_trichotomy j slot with before | rfl | after
  · exact ⟨j, inside, by unfold source; rw [if_neg (by omega), if_neg (by omega)]⟩
  · exact ⟨15, by omega, if_pos rfl⟩
  · refine ⟨j - 1, by omega, ?_⟩
    unfold source
    rw [if_neg (by omega), if_pos (by omega)]
    omega

/-- Every entry after a page moved to the end is an entry from before, when
the page is stored again with the frame it had. -/
private theorem entry_movedToEnd {tlb after : VmTable} {pageNumber : Int} {slot : Nat}
    (same : (pageNumber, frameNumber) = tlb.entry slot)
    (entries : ∀ j, after.entry j =
      if j = 15 then (pageNumber, frameNumber)
      else if slot ≤ j ∧ j < 15 then tlb.entry (j + 1) else tlb.entry j) (j : Nat) :
    after.entry j = tlb.entry (source slot j) := by
  rw [entries j, same]
  unfold source
  split_ifs <;> rfl

/-! ## Entries held after a call -/

theorem holdsPage_iff {pageNumber : Int} :
    HoldsPage state pageNumber ↔ ∃ frame, (pageNumber, frame) ∈ heldEntries state := by
  constructor
  · rintro ⟨i, inside, rfl⟩
    exact ⟨_, i, inside, rfl⟩
  · rintro ⟨frame, i, inside, same⟩
    exact ⟨i, inside, VmTable.pageNumArr_eq same⟩

/-- An appended entry is held, and so are the old ones. -/
theorem heldEntries_appended {entry : Int × Int}
    (entries : ∀ j, next.tlbTable.entry j =
      if j = state.nextTLBentry then entry else state.tlbTable.entry j)
    (grown : next.nextTLBentry = state.nextTLBentry + 1) :
    heldEntries next = insert entry (heldEntries state) := by
  ext stored
  constructor
  · rintro ⟨i, inside, same⟩
    rw [entries] at same
    by_cases last : i = state.nextTLBentry
    · exact Or.inl (by rw [← same, if_pos last])
    · rw [if_neg last] at same
      exact Or.inr ⟨i, by omega, same⟩
  · rintro (rfl | ⟨i, inside, same⟩)
    · exact ⟨state.nextTLBentry, by omega, by rw [entries, if_pos rfl]⟩
    · exact ⟨i, by omega, by rw [entries, if_neg (by omega)]; exact same⟩

theorem holdsPage_appended {pageNumber other : Int}
    (added : heldEntries next = insert (pageNumber, frameNumber) (heldEntries state)) :
    HoldsPage next other ↔ HoldsPage state other ∨ other = pageNumber := by
  rw [holdsPage_iff, holdsPage_iff, added]
  constructor
  · rintro ⟨frame, same | old⟩
    · exact Or.inr (Prod.mk.inj same).1
    · exact Or.inl ⟨frame, old⟩
  · rintro (⟨frame, old⟩ | rfl)
    · exact ⟨frame, Or.inr old⟩
    · exact ⟨frameNumber, Or.inl rfl⟩

/-- The pages stay distinct when one that is not held is appended. -/
theorem distinctPages_appended {pageNumber : Int} (distinct : DistinctPages state)
    (absent : ¬ HoldsPage state pageNumber)
    (entries : ∀ j, next.tlbTable.entry j =
      if j = state.nextTLBentry then (pageNumber, frameNumber) else state.tlbTable.entry j)
    (grown : next.nextTLBentry = state.nextTLBentry + 1) : DistinctPages next := by
  have last : next.tlbTable.pageNumArr state.nextTLBentry = pageNumber :=
    VmTable.pageNumArr_eq ((entries _).trans (if_pos rfl))
  have old : ∀ j, j ≠ state.nextTLBentry →
      next.tlbTable.pageNumArr j = state.tlbTable.pageNumArr j :=
    fun j earlier => VmTable.pageNumArr_eq ((entries j).trans (if_neg earlier))
  intro i iInside j jInside same
  by_cases iLast : i = state.nextTLBentry
  · by_cases jLast : j = state.nextTLBentry
    · rw [iLast, jLast]
    · rw [iLast, last, old j jLast] at same
      exact absurd ⟨j, by omega, same.symm⟩ absent
  · by_cases jLast : j = state.nextTLBentry
    · rw [jLast, last, old i iLast] at same
      exact absurd ⟨i, by omega, same⟩ absent
    · rw [old i iLast, old j jLast] at same
      exact distinct i (by omega) j (by omega) same

/-- Entries that only change their slots are all still held. -/
theorem heldEntries_moved {origin : Nat → Nat}
    (entries : ∀ j, next.tlbTable.entry j = state.tlbTable.entry (origin j))
    (moves : ∀ i, i < next.nextTLBentry → origin i < state.nextTLBentry)
    (moved : ∀ i, i < state.nextTLBentry → ∃ j, j < next.nextTLBentry ∧ origin j = i) :
    heldEntries next = heldEntries state := by
  ext stored
  constructor
  · rintro ⟨i, inside, same⟩
    rw [entries] at same
    exact ⟨_, moves i inside, same⟩
  · rintro ⟨i, inside, same⟩
    rcases moved i inside with ⟨j, jInside, here⟩
    exact ⟨j, jInside, by rw [entries, here]; exact same⟩

/-- What holds as long as only distinct pages have been appended. -/
structure Steady (store : BackingStore) (past : List (BitVec 32)) (state : State) : Prop where
  fifo : FifoRun store past state
  distinct : DistinctPages state
  pages : ∀ pageNumber, HoldsPage state pageNumber ↔
    pageNumber ∈ (past.map pageOf).take 16

theorem bootState_steady (store : BackingStore) (fresh : FreshMemory) :
    Steady store [] (bootState fresh) where
  fifo := bootState_fifoRun store fresh
  distinct i inside := absurd inside (Nat.not_lt_zero i)
  pages pageNumber := by
    constructor
    · rintro ⟨i, inside, _⟩
      exact absurd inside (Nat.not_lt_zero i)
    · intro member
      exact absurd member List.not_mem_nil

/-- A page held in a full TLB is looked up in the slot that holds it. -/
theorem Steady.frame_eq (steady : Steady store past state) {slot : Nat}
    (full : state.nextTLBentry = tlbSize) (inside : slot < state.nextTLBentry)
    (held : state.tlbTable.pageNumArr slot = pageOf virtualAddr)
    (frame : CallFrame state (pageOf virtualAddr) frameNumber resolved) :
    (pageOf virtualAddr, frameNumber) = state.tlbTable.entry slot := by
  have length := steady.fifo.inStep.coherent.length
  have searched : slot < state.tlbTable.length := by omega
  rcases exists_firstIndex searched held with ⟨i, search⟩
  rcases tlbSlot_spec length search with ⟨iInside, page, tlb⟩
  obtain rfl := steady.distinct i (by omega) slot inside (page.trans held.symm)
  have hit : tlbFrame state (pageOf virtualAddr) ≠ -1 := by
    rw [tlb]
    exact steady.fifo.frames i inside
  have cached := (frame.cached fun fault => hit fault.1).1
  rw [cachedFrame, if_neg hit, tlb] at cached
  rw [cached, ← held]
  rfl

/-- A page not held yet is appended. -/
theorem Steady.append (steady : Steady store past state)
    (call : Call '1' store state virtualAddr frameNumber resolved next)
    (frame : CallFrame state (pageOf virtualAddr) frameNumber resolved)
    (short : past.length < 16) (fresh : pageOf virtualAddr ∉ past.map pageOf) :
    Steady store (past ++ [virtualAddr]) next ∧
      KeepsEntries state (pageOf virtualAddr) frameNumber next := by
  have size : tlbSize = 16 := rfl
  have count := steady.fifo.count
  have whole : (past.map pageOf).take 16 = past.map pageOf :=
    List.take_of_length_le (by rw [List.length_map]; omega)
  have unheld : ¬ HoldsPage state (pageOf virtualAddr) := by
    rw [steady.pages, whole]
    exact fresh
  cases call.fifo steady.fifo.inStep.coherent with
  | overwrote _ full _ _ => omega
  | requeued slot inside held _ _ _ _ => exact absurd ⟨slot, inside, held⟩ unheld
  | movedToEnd slot inside held _ _ _ _ => exact absurd ⟨slot, inside, held⟩ unheld
  | appended _ room entries grown =>
      have added := heldEntries_appended entries grown
      refine ⟨⟨steady.fifo.call call frame, ?_, ?_⟩, ?_, ?_, ?_⟩
      · exact distinctPages_appended steady.distinct unheld entries grown
      · intro q
        have extended : ((past ++ [virtualAddr]).map pageOf).take 16 =
            past.map pageOf ++ [pageOf virtualAddr] := by
          rw [List.map_append, List.map_singleton]
          exact List.take_of_length_le (by simp; omega)
        rw [holdsPage_appended added, steady.pages, whole, extended, List.mem_append,
          List.mem_singleton]
      · intro held
        exact absurd held unheld
      · intro _ _
        exact added
      · intro _ full
        omega

/-- A page held in a full TLB moves to the end. -/
theorem Steady.rotate (steady : Steady store past state)
    (call : Call '1' store state virtualAddr frameNumber resolved next)
    (frame : CallFrame state (pageOf virtualAddr) frameNumber resolved)
    (long : 16 ≤ past.length) (known : pageOf virtualAddr ∈ (past.map pageOf).take 16) :
    Steady store (past ++ [virtualAddr]) next ∧
      KeepsEntries state (pageOf virtualAddr) frameNumber next := by
  have size : tlbSize = 16 := rfl
  have count := steady.fifo.count
  have held : HoldsPage state (pageOf virtualAddr) := (steady.pages _).mpr known
  rcases held with ⟨holder, holderInside, holderPage⟩
  cases call.fifo steady.fifo.inStep.coherent with
  | appended _ room _ _ => omega
  | requeued _ _ _ _ room _ _ => omega
  | overwrote absent _ _ _ => exact absurd holderPage (absent holder holderInside)
  | movedToEnd slot inside here _ full entries grown =>
      have origin := entry_movedToEnd (steady.frame_eq full inside here frame) entries
      have moves : ∀ i, i < next.nextTLBentry → source slot i < state.nextTLBentry := by
        intro i iInside
        rw [full]
        exact source_lt (by omega) (by omega)
      have moved :
          ∀ i, i < state.nextTLBentry → ∃ j, j < next.nextTLBentry ∧ source slot j = i := by
        intro i iInside
        rw [grown]
        exact exists_source (by omega) (by omega)
      have kept := heldEntries_moved origin moves moved
      refine ⟨⟨steady.fifo.call call frame, ?_, ?_⟩, ?_, ?_, ?_⟩
      · intro i iInside j jInside same
        rw [VmTable.pageNumArr_eq (origin i), VmTable.pageNumArr_eq (origin j)] at same
        exact source_injective (by omega) (by omega) (by omega)
          (steady.distinct _ (moves i iInside) _ (moves j jInside) same)
      · intro q
        have firstPages : ((past ++ [virtualAddr]).map pageOf).take 16 =
            (past.map pageOf).take 16 := by
          rw [List.map_append]
          exact List.take_append_of_le_length (by rw [List.length_map]; exact long)
        rw [firstPages, ← steady.pages q, holdsPage_iff, kept, ← holdsPage_iff]
      · intro _
        exact kept
      · intro unheld _
        exact absurd ⟨slot, inside, here⟩ unheld
      · intro unheld _
        exact absurd ⟨slot, inside, here⟩ unheld

end Step

/-! ## Every run -/

theorem sixteenDistinct_snoc (pages : List Int) (pageNumber : Int) :
    SixteenDistinct (pages ++ [pageNumber]) ↔
      SixteenDistinct pages ∧ (pages.length < 16 → pageNumber ∉ pages) ∧
        (16 ≤ pages.length → pageNumber ∈ pages.take 16) := by
  unfold SixteenDistinct
  rcases Nat.lt_or_ge pages.length 16 with short | long
  · have whole : pages.take 16 = pages := List.take_of_length_le (by omega)
    have extended : (pages ++ [pageNumber]).take 16 = pages ++ [pageNumber] :=
      List.take_of_length_le (by simp; omega)
    have rest : pages.drop 16 = [] := List.drop_eq_nil_of_le (by omega)
    have extendedRest : (pages ++ [pageNumber]).drop 16 = [] :=
      List.drop_eq_nil_of_le (by simp; omega)
    rw [whole, extended, rest, extendedRest, List.nodup_append]
    simp only [List.not_mem_nil, false_implies, implies_true, and_true, List.nodup_singleton,
      List.mem_singleton, forall_eq, true_and, short, true_implies, not_le.mpr short]
    exact and_congr_right fun _ =>
      ⟨fun separate member => separate _ member rfl,
        fun fresh other member same => fresh (same ▸ member)⟩
  · have kept : (pages ++ [pageNumber]).take 16 = pages.take 16 :=
      List.take_append_of_le_length long
    have rest : (pages ++ [pageNumber]).drop 16 = pages.drop 16 ++ [pageNumber] :=
      List.drop_append_of_le_length long
    rw [kept, rest]
    simp only [List.mem_append, List.mem_singleton, long, true_implies, not_lt.mpr long,
      false_implies, true_and]
    rw [and_assoc]
    refine and_congr_right fun _ => ?_
    constructor
    · intro all
      exact ⟨fun q member => all q (Or.inl member), all _ (Or.inr rfl)⟩
    · rintro ⟨old, new⟩ q (member | rfl)
      · exact old q member
      · exact new

theorem SixteenDistinct.of_append {first : List Int} :
    ∀ {rest : List Int}, SixteenDistinct (first ++ rest) → SixteenDistinct first := by
  intro rest
  induction rest using List.reverseRecOn with
  | nil => exact fun whole => by rwa [List.append_nil] at whole
  | append_singleton rest pageNumber ih =>
      intro whole
      rw [← List.append_assoc, sixteenDistinct_snoc] at whole
      exact ih whole.1

/-- One more call of a run whose pages meet the condition. -/
theorem Steady.call {store : BackingStore} {past : List (BitVec 32)}
    {state resolved next : State} {virtualAddr : BitVec 32} {frameNumber : Int}
    (steady : Steady store past state)
    (call : Call '1' store state virtualAddr frameNumber resolved next)
    (frame : CallFrame state (pageOf virtualAddr) frameNumber resolved)
    (distinct : SixteenDistinct ((past ++ [virtualAddr]).map pageOf)) :
    Steady store (past ++ [virtualAddr]) next ∧
      KeepsEntries state (pageOf virtualAddr) frameNumber next := by
  rw [List.map_append, List.map_singleton, sixteenDistinct_snoc, List.length_map] at distinct
  rcases distinct with ⟨_, append, rotate⟩
  rcases Nat.lt_or_ge past.length 16 with short | long
  · exact steady.append call frame short (append short)
  · exact steady.rotate call frame long (rotate long)

theorem run_steady (store : BackingStore) (fresh : FreshMemory) {addresses : List (BitVec 32)}
    (distinct : SixteenDistinct (addresses.map pageOf)) :
    ∃ final, run '1' store fresh addresses = some final ∧ Steady store addresses final := by
  apply exec_history (Steady store) (bootState_steady store fresh)
  intro past virtualAddr rest split state _ steady
  have prefixDistinct : SixteenDistinct ((past ++ [virtualAddr]).map pageOf) := by
    rw [split, List.append_cons, List.map_append] at distinct
    exact distinct.of_append
  rcases exists_call '1' steady.fifo.inStep.loaded virtualAddr with ⟨_, _, next, call, frame⟩
  exact ⟨next, call.steps, (steady.call call frame prefixDistinct).1⟩

/-- A call that breaks the condition leaves a page in two slots. -/
theorem Steady.not_distinct {store : BackingStore} {past : List (BitVec 32)}
    {state resolved next : State} {virtualAddr : BitVec 32} {frameNumber : Int}
    (steady : Steady store past state)
    (call : Call '1' store state virtualAddr frameNumber resolved next)
    (broken : past.length < 16 ∧ pageOf virtualAddr ∈ past.map pageOf ∨
      16 ≤ past.length ∧ pageOf virtualAddr ∉ (past.map pageOf).take 16) :
    ¬ DistinctPages next := by
  have size : tlbSize = 16 := rfl
  have count := steady.fifo.count
  have held := steady.pages (pageOf virtualAddr)
  have whole : past.length < 16 → (past.map pageOf).take 16 = past.map pageOf := fun short =>
    List.take_of_length_le (by rw [List.length_map]; omega)
  cases call.fifo steady.fifo.inStep.coherent with
  | appended absent room _ _ =>
      have unheld : ¬ HoldsPage state (pageOf virtualAddr) := by
        rintro ⟨i, inside, page⟩
        exact absent i inside page
      rcases broken with ⟨short, member⟩ | ⟨long, _⟩
      · rw [whole short] at held
        exact absurd (held.mpr member) unheld
      · omega
  | overwrote _ _ entries grown => exact not_distinct_of_overwrote entries grown
  | requeued slot inside here _ _ entries grown =>
      exact not_distinct_of_requeued inside here entries grown
  | movedToEnd slot inside here _ full _ _ =>
      rcases broken with ⟨short, _⟩ | ⟨_, member⟩
      · omega
      · exact absurd (held.mp ⟨slot, inside, here⟩) member

/-- `tlbFIFOinsert` neither duplicates an entry nor loses one other than the
head exactly in the runs whose first 16 pages are distinct and whose later
pages are among them. -/
theorem tlbFIFOinsert_keeps_iff (store : BackingStore) (fresh : FreshMemory)
    (addresses : List (BitVec 32)) :
    EntriesKept store fresh addresses ↔ SixteenDistinct (addresses.map pageOf) := by
  constructor
  · intro kept
    have always := kept.1
    clear kept
    induction addresses using List.reverseRecOn with
    | nil => exact ⟨List.nodup_nil, fun _ member => absurd member List.not_mem_nil⟩
    | append_singleton past virtualAddr ih =>
        have earlier : SixteenDistinct (past.map pageOf) := by
          apply ih
          intro before rest split
          exact always before (rest ++ [virtualAddr]) (by rw [split, List.append_assoc])
        rcases run_steady store fresh earlier with ⟨state, reached, steady⟩
        rcases exists_call '1' steady.fifo.inStep.loaded virtualAddr with ⟨_, _, next, call, _⟩
        have distinct := always _ [] (List.append_nil _).symm next (run_snoc reached call.steps)
        rw [List.map_append, List.map_singleton, sixteenDistinct_snoc, List.length_map]
        refine ⟨earlier, ?_, ?_⟩
        · intro short member
          exact steady.not_distinct call (Or.inl ⟨short, member⟩) distinct
        · intro long
          by_contra absent
          exact steady.not_distinct call (Or.inr ⟨long, absent⟩) distinct
  · intro distinct
    constructor
    · intro past rest split state reached
      rw [split, List.map_append] at distinct
      rcases run_steady store fresh distinct.of_append with ⟨same, sameReached, steady⟩
      obtain rfl := Option.some.inj (sameReached.symm.trans reached)
      exact steady.distinct
    · intro past virtualAddr rest split before frameNumber resolved after reached resolves steps
      rw [split, List.append_cons, List.map_append] at distinct
      have here := distinct.of_append
      obtain ⟨same, sameReached, steady⟩ := run_steady store fresh
        (show SixteenDistinct (past.map pageOf) by
          rw [List.map_append] at here
          exact here.of_append)
      obtain rfl := Option.some.inj (sameReached.symm.trans reached)
      obtain ⟨f, found, next, call, frame⟩ := exists_call '1' steady.fifo.inStep.loaded virtualAddr
      rcases Prod.mk.inj (Option.some.inj (call.resolves.symm.trans resolves)) with ⟨rfl, rfl⟩
      obtain rfl := Option.some.inj (call.steps.symm.trans steps)
      exact (steady.call call frame here).2

/-- Page 1 accessed twice is held in two slots. -/
theorem entriesKept_fails_on_repeated_page :
    ¬ EntriesKept (fun _ => 0#8) FreshMemory.zero [0x100#32, 0x100#32] := by
  have slots : ((run '1' (fun _ => 0#8) FreshMemory.zero [0x100#32, 0x100#32]).map fun state =>
      (state.nextTLBentry, state.tlbTable.pageNumArr 0, state.tlbTable.pageNumArr 1)) =
      some (2, 1, 1) := by
    decide
  intro kept
  rcases Option.map_eq_some_iff.mp slots with ⟨state, reached, computed⟩
  obtain ⟨count, left, right⟩ : state.nextTLBentry = 2 ∧ state.tlbTable.pageNumArr 0 = 1 ∧
      state.tlbTable.pageNumArr 1 = 1 := by
    simpa only [Prod.mk.injEq] using computed
  have same := kept.1 [0x100#32, 0x100#32] [] rfl state reached 0 (by omega) 1 (by omega)
    (left.trans right.symm)
  omega

end ComputerSystems.VirtualMemory

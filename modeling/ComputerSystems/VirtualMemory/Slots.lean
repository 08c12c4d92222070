import Mathlib.Tactic.SplitIfs
import ComputerSystems.VirtualMemory.Core

/-!
# What the insertions do to the TLB slots

`fifoSlots` and `lruSlots` are loops over index ranges. Each is described here
once, slot by slot: `fifoSlots` by where the entry of every slot comes from in
its four cases, `lruSlots` by its two ways to end, the page being there already
or being placed in one slot.
-/

namespace ComputerSystems.VirtualMemory

open ComputerSystems.Loop

namespace VmTable

/-- Page and frame number of one slot. -/
def entry (table : VmTable) (i : Nat) : Int × Int :=
  (table.pageNumArr i, table.frameNumArr i)

theorem entry_write (table : VmTable) (i j : Nat) (pageNumber frameNumber : Int) :
    (table.write i pageNumber frameNumber).entry j =
      if j = i then (pageNumber, frameNumber) else table.entry j := by
  by_cases same : j = i
  · subst same
    simp [entry, write]
  · simp [entry, write, same]

/-- Shifting moves every entry of the range down by one slot. -/
theorem entry_moveOver (table : VmTable) (i count j : Nat) :
    (table.moveOver i count).entry j =
      if i ≤ j ∧ j < i + count then table.entry (j + 1) else table.entry j := by
  induction count generalizing table i with
  | zero =>
      rw [moveOver, if_neg (by omega)]
  | succ count ih =>
      rw [moveOver, ih, entry_write, entry_write]
      by_cases here : j = i
      · rw [if_neg (by omega), if_pos here, if_pos (by omega), here]
        rfl
      · by_cases inside : i + 1 ≤ j ∧ j < i + 1 + count
        · rw [if_pos inside, if_neg (by omega), if_pos (by omega)]
        · rw [if_neg inside, if_neg here, if_neg (by omega)]

theorem pageNumArr_eq {table : VmTable} {i : Nat} {stored : Int × Int}
    (h : table.entry i = stored) : table.pageNumArr i = stored.1 :=
  congrArg Prod.fst h

theorem frameNumArr_eq {table : VmTable} {i : Nat} {stored : Int × Int}
    (h : table.entry i = stored) : table.frameNumArr i = stored.2 :=
  congrArg Prod.snd h

end VmTable

/-! ## FIFO insertion -/

section Fifo

variable {tlb : VmTable} {next : Nat} {pageNumber frameNumber : Int}

/-- A page not held, with room: the entry is appended. -/
theorem fifoSlots_absent_room (absent : firstIndex tlb.pageNumArr pageNumber 0 next = none)
    (room : next < tlbSize) (j : Nat) :
    (fifoSlots tlb next pageNumber frameNumber).entry j =
      if j = next then (pageNumber, frameNumber) else tlb.entry j := by
  simp only [fifoSlots, absent, room, if_true]
  exact VmTable.entry_write _ _ _ _ _

/-- A page not held in a full TLB overwrites the last entry before the shift,
and so ends up in the last two slots. -/
theorem fifoSlots_absent_full (absent : firstIndex tlb.pageNumArr pageNumber 0 next = none)
    (full : next = tlbSize) {j : Nat} (inside : j < tlbSize) :
    (fifoSlots tlb next pageNumber frameNumber).entry j =
      if j < 14 then tlb.entry (j + 1) else (pageNumber, frameNumber) := by
  subst full
  simp only [fifoSlots, absent, Nat.lt_irrefl, if_false]
  rw [VmTable.entry_moveOver, VmTable.entry_write, VmTable.entry_write]
  have size : tlbSize = 16 := rfl
  by_cases early : j < 14
  · rw [if_pos (by omega), if_neg (by omega), if_pos early]
  · by_cases last : j = 15
    · rw [if_neg (by omega), if_pos (by omega), if_neg early]
    · rw [if_pos (by omega), if_pos (by omega), if_neg early]

/-- A page held, with room: its entry leaves its slot and is appended, and the
last slot keeps the entry it had. -/
theorem fifoSlots_held_room {i : Nat}
    (found : firstIndex tlb.pageNumArr pageNumber 0 next = some i) (room : next < tlbSize)
    (j : Nat) :
    (fifoSlots tlb next pageNumber frameNumber).entry j =
      if j = next then (pageNumber, frameNumber)
      else if i ≤ j ∧ j < next - 1 then tlb.entry (j + 1) else tlb.entry j := by
  have bounds := firstIndex_eq_some found
  simp only [fifoSlots, found, room, if_true]
  rw [VmTable.entry_write, VmTable.entry_moveOver, show i + (next - 1 - i) = next - 1 by omega]

/-- A page held in a full TLB moves to the last slot. -/
theorem fifoSlots_held_full {i : Nat}
    (found : firstIndex tlb.pageNumArr pageNumber 0 next = some i) (full : next = tlbSize)
    (j : Nat) :
    (fifoSlots tlb next pageNumber frameNumber).entry j =
      if j = 15 then (pageNumber, frameNumber)
      else if i ≤ j ∧ j < 15 then tlb.entry (j + 1) else tlb.entry j := by
  have bounds := firstIndex_eq_some found
  simp only [fifoSlots, found, if_neg (show ¬ next < tlbSize by omega)]
  rw [VmTable.entry_write, VmTable.entry_moveOver, show i + (next - 1 - i) = next - 1 by omega,
    show next - 1 = 15 by simp only [full, tlbSize]]

/-- The four ways `tlbFIFOinsert` ends, with the entries and the number of
entries it leaves. -/
inductive FifoOutcome (tlb : VmTable) (next : Nat) (pageNumber frameNumber : Int)
    (after : VmTable) (afterNext : Nat) : Prop
  | appended (absent : ∀ j, j < next → tlb.pageNumArr j ≠ pageNumber) (room : next < tlbSize)
      (entries : ∀ j, after.entry j =
        if j = next then (pageNumber, frameNumber) else tlb.entry j)
      (count : afterNext = next + 1)
  | overwrote (absent : ∀ j, j < next → tlb.pageNumArr j ≠ pageNumber) (full : next = tlbSize)
      (entries : ∀ j, j < tlbSize → after.entry j =
        if j < 14 then tlb.entry (j + 1) else (pageNumber, frameNumber))
      (count : afterNext = tlbSize)
  | requeued (slot : Nat) (inside : slot < next) (held : tlb.pageNumArr slot = pageNumber)
      (first : ∀ j, j < slot → tlb.pageNumArr j ≠ pageNumber) (room : next < tlbSize)
      (entries : ∀ j, after.entry j =
        if j = next then (pageNumber, frameNumber)
        else if slot ≤ j ∧ j < next - 1 then tlb.entry (j + 1) else tlb.entry j)
      (count : afterNext = next + 1)
  | movedToEnd (slot : Nat) (inside : slot < next) (held : tlb.pageNumArr slot = pageNumber)
      (first : ∀ j, j < slot → tlb.pageNumArr j ≠ pageNumber) (full : next = tlbSize)
      (entries : ∀ j, after.entry j =
        if j = 15 then (pageNumber, frameNumber)
        else if slot ≤ j ∧ j < 15 then tlb.entry (j + 1) else tlb.entry j)
      (count : afterNext = tlbSize)

theorem tlbFIFOinsert_outcome {state : State} (entries : state.nextTLBentry ≤ tlbSize)
    (pageNumber frameNumber : Int) :
    FifoOutcome state.tlbTable state.nextTLBentry pageNumber frameNumber
      (tlbFIFOinsert state pageNumber frameNumber).tlbTable
      (tlbFIFOinsert state pageNumber frameNumber).nextTLBentry := by
  simp only [tlbFIFOinsert]
  rcases Nat.lt_or_eq_of_le entries with room | full
  · rw [if_pos room]
    cases search : firstIndex state.tlbTable.pageNumArr pageNumber 0 state.nextTLBentry with
    | none =>
        refine .appended ?_ room (fifoSlots_absent_room search room) rfl
        intro j inside
        exact firstIndex_eq_none_iff.mp search j (Nat.zero_le j) (by omega)
    | some slot =>
        rcases firstIndex_eq_some search with ⟨_, inside, held, first⟩
        exact .requeued slot (by omega) held (fun j before => first j (Nat.zero_le j) before) room
          (fifoSlots_held_room search room) rfl
  · rw [if_neg (by omega)]
    cases search : firstIndex state.tlbTable.pageNumArr pageNumber 0 state.nextTLBentry with
    | none =>
        refine .overwrote ?_ full (fun j inside => fifoSlots_absent_full search full inside) full
        intro j inside
        exact firstIndex_eq_none_iff.mp search j (Nat.zero_le j) (by omega)
    | some slot =>
        rcases firstIndex_eq_some search with ⟨_, inside, held, first⟩
        exact .movedToEnd slot (by omega) held (fun j before => first j (Nat.zero_le j) before) full
          (fifoSlots_held_full search full) full

end Fifo

/-! ## LRU insertion -/

section Lru

variable {tlb : VmTable} {pageNumber frameNumber : Int}

/-- The age of a slot after the seeking loop has passed it. -/
def agedBy (tlb : VmTable) (pageNumber : Int) (j : Nat) : Int :=
  if tlb.pageNumArr j ≠ pageNumber ∧ tlb.pageNumArr j ≠ 0 then tlb.entryAgeArr j + 1
  else if tlb.pageNumArr j = pageNumber ∧ ∀ k, k < j → tlb.pageNumArr k ≠ pageNumber then 0
  else tlb.entryAgeArr j

/-- The seeking loop after `count` slots. -/
structure SeekSpec (tlb : VmTable) (pageNumber : Int) (count : Nat) (seek : Seek) : Prop where
  passed : ∀ j, j < count → seek.entryAgeArr j = agedBy tlb pageNumber j
  ahead : ∀ j, count ≤ j → seek.entryAgeArr j = tlb.entryAgeArr j
  there : seek.alreadyThere = true ↔ ∃ j, j < count ∧ tlb.pageNumArr j = pageNumber
  free : seek.freeSpotFound = true ↔
    ∃ j, j < count ∧ tlb.pageNumArr j ≠ pageNumber ∧ tlb.pageNumArr j = 0
  spot : seek.freeSpotFound = true →
    seek.replaceIndex < count ∧ tlb.pageNumArr seek.replaceIndex = 0

/-- One more index can only add that index to a search. -/
private theorem exists_lt_succ {p : Nat → Prop} {count : Nat} :
    (∃ j, j < count + 1 ∧ p j) ↔ (∃ j, j < count ∧ p j) ∨ p count := by
  constructor
  · rintro ⟨j, inside, holds⟩
    by_cases last : j = count
    · exact Or.inr (last ▸ holds)
    · exact Or.inl ⟨j, by omega, holds⟩
  · rintro (⟨j, inside, holds⟩ | holds)
    · exact ⟨j, by omega, holds⟩
    · exact ⟨count, by omega, holds⟩

/-- One iteration sets the age of its own slot. -/
private theorem seekStep_passed {tlb : VmTable} {pageNumber : Int} {count : Nat} {seek : Seek}
    (spec : SeekSpec tlb pageNumber count seek) :
    (seekStep tlb.pageNumArr pageNumber seek count).entryAgeArr =
      Function.update seek.entryAgeArr count (agedBy tlb pageNumber count) := by
  have now := spec.ahead count (Nat.le_refl count)
  unfold seekStep agedBy
  by_cases held : tlb.pageNumArr count = pageNumber
  · by_cases seen : seek.alreadyThere = true
    · rcases spec.there.mp seen with ⟨k, inside, page⟩
      have notFirst : ¬ ∀ k, k < count → tlb.pageNumArr k ≠ pageNumber :=
        fun first => first k inside page
      simp [held, seen, notFirst, ← now]
    · have first : ∀ k, k < count → tlb.pageNumArr k ≠ pageNumber := fun k inside page =>
        seen (spec.there.mpr ⟨k, inside, page⟩)
      rw [if_neg (fun used => used.1 held), if_neg (fun free => free.1 held), if_pos held,
        if_pos (by simp [seen]), if_neg (fun used => used.1 held), if_pos ⟨held, first⟩]
  · have notFirst : ¬ (tlb.pageNumArr count = pageNumber ∧
        ∀ k, k < count → tlb.pageNumArr k ≠ pageNumber) := fun both => held both.1
    by_cases free : tlb.pageNumArr count = 0
    · have unused : ¬ (tlb.pageNumArr count ≠ pageNumber ∧ tlb.pageNumArr count ≠ 0) :=
        fun used => used.2 free
      have spot : tlb.pageNumArr count ≠ pageNumber ∧ tlb.pageNumArr count = 0 := ⟨held, free⟩
      simp only [if_neg unused, if_pos spot, if_neg notFirst, ← now, Function.update_eq_self]
      split <;> rfl
    · have used : tlb.pageNumArr count ≠ pageNumber ∧ tlb.pageNumArr count ≠ 0 := ⟨held, free⟩
      simp only [if_pos used, now]

private theorem seekStep_there {tlb : VmTable} {pageNumber : Int} {count : Nat} {seek : Seek} :
    (seekStep tlb.pageNumArr pageNumber seek count).alreadyThere = true ↔
      seek.alreadyThere = true ∨ tlb.pageNumArr count = pageNumber := by
  unfold seekStep
  grind

private theorem seekStep_free {tlb : VmTable} {pageNumber : Int} {count : Nat} {seek : Seek} :
    (seekStep tlb.pageNumArr pageNumber seek count).freeSpotFound = true ↔
      seek.freeSpotFound = true ∨
        (tlb.pageNumArr count ≠ pageNumber ∧ tlb.pageNumArr count = 0) := by
  unfold seekStep
  grind

private theorem seekStep_spot (tlb : VmTable) (pageNumber : Int) (count : Nat) (seek : Seek) :
    (seekStep tlb.pageNumArr pageNumber seek count).replaceIndex = seek.replaceIndex ∧
      ((seekStep tlb.pageNumArr pageNumber seek count).freeSpotFound = seek.freeSpotFound) ∨
    (seekStep tlb.pageNumArr pageNumber seek count).replaceIndex = count ∧
      tlb.pageNumArr count = 0 := by
  unfold seekStep
  grind

theorem seekLoop_spec (tlb : VmTable) (pageNumber : Int) (count : Nat) :
    SeekSpec tlb pageNumber count (seekLoop tlb pageNumber count) := by
  induction count with
  | zero => constructor <;> simp [seekLoop]
  | succ count ih =>
      rw [seekLoop]
      generalize seekLoop tlb pageNumber count = seek at ih ⊢
      constructor
      · intro j inside
        rw [seekStep_passed ih]
        by_cases last : j = count
        · rw [last, Function.update_self]
        · rw [Function.update_of_ne last]
          exact ih.passed j (by omega)
      · intro j outside
        rw [seekStep_passed ih, Function.update_of_ne (by omega)]
        exact ih.ahead j (by omega)
      · rw [seekStep_there, ih.there, exists_lt_succ]
      · rw [seekStep_free, ih.free, exists_lt_succ]
      · intro found
        rcases seekStep_spot tlb pageNumber count seek with ⟨same, flag⟩ | ⟨here, free⟩
        · have spot := ih.spot (flag ▸ found)
          rw [same]
          exact ⟨by omega, spot.2⟩
        · rw [here]
          exact ⟨by omega, free⟩

/-- `getOldestEntry` returns a slot whose age no other slot exceeds. -/
theorem oldestLoop_spec (ages : Nat → Int) (count : Nat) :
    (oldestLoop ages count).1 = ages (oldestLoop ages count).2 ∧
      (oldestLoop ages count).2 ≤ count ∧
      ∀ j, j ≤ count → ages j ≤ ages (oldestLoop ages count).2 := by
  induction count with
  | zero =>
      refine ⟨rfl, Nat.le_refl 0, ?_⟩
      intro j inside
      obtain rfl : j = 0 := by omega
      exact Int.le_refl _
  | succ count ih =>
      rcases ih with ⟨largest, inside, bound⟩
      simp only [oldestLoop]
      split
      · rename_i older
        refine ⟨rfl, Nat.le_refl _, ?_⟩
        intro j jInside
        by_cases last : j = count + 1
        · subst last
          exact Int.le_refl _
        · have earlier := bound j (by omega)
          dsimp only
          omega
      · rename_i younger
        refine ⟨largest, by omega, ?_⟩
        intro j jInside
        by_cases last : j = count + 1
        · rw [last]
          dsimp only
          omega
        · exact bound j (by omega)

theorem getOldestEntry_spec (table : VmTable) :
    getOldestEntry table tlbSize < tlbSize ∧
      ∀ j, j < tlbSize →
        table.entryAgeArr j ≤ table.entryAgeArr (getOldestEntry table tlbSize) := by
  rcases oldestLoop_spec table.entryAgeArr (tlbSize - 1) with ⟨_, inside, bound⟩
  have size : tlbSize = 16 := rfl
  refine ⟨by unfold getOldestEntry; omega, ?_⟩
  intro j jInside
  exact bound j (by omega)

/-- The two ways `tlbLRUinsert` ends. A page that is there keeps its slot; any
other is placed in a free slot or, when there is none, in a slot of the
greatest age. -/
inductive LruOutcome (tlb : VmTable) (pageNumber frameNumber : Int) (after : VmTable) : Prop
  | there (slot : Nat) (inside : slot < tlbSize) (held : tlb.pageNumArr slot = pageNumber)
      (entries : ∀ j, after.entry j = tlb.entry j)
      (ages : ∀ j, j < tlbSize → after.entryAgeArr j = agedBy tlb pageNumber j)
  | placed (slot : Nat) (inside : slot < tlbSize)
      (absent : ∀ j, j < tlbSize → tlb.pageNumArr j ≠ pageNumber)
      (victim : tlb.pageNumArr slot = 0 ∨
        (∀ j, j < tlbSize → tlb.pageNumArr j ≠ 0) ∧
          ∀ j, j < tlbSize → tlb.entryAgeArr j ≤ tlb.entryAgeArr slot)
      (entries : ∀ j, after.entry j =
        if j = slot then (pageNumber, frameNumber) else tlb.entry j)
      (ages : ∀ j, j < tlbSize → after.entryAgeArr j =
        if j = slot then 0 else agedBy tlb pageNumber j)

theorem entry_place (table : VmTable) (i j : Nat) (pageNumber frameNumber : Int) :
    (table.place i pageNumber frameNumber).entry j =
      if j = i then (pageNumber, frameNumber) else table.entry j :=
  VmTable.entry_write table i j pageNumber frameNumber

theorem entryAgeArr_place (table : VmTable) (i j : Nat) (pageNumber frameNumber : Int) :
    (table.place i pageNumber frameNumber).entryAgeArr j =
      if j = i then 0 else table.entryAgeArr j := by
  by_cases same : j = i
  · subst same
    simp [VmTable.place, VmTable.setAge]
  · simp [VmTable.place, VmTable.setAge, VmTable.write, same]

theorem lruSlots_outcome (tlb : VmTable) (pageNumber frameNumber : Int) :
    LruOutcome tlb pageNumber frameNumber (lruSlots tlb pageNumber frameNumber) := by
  have spec := seekLoop_spec tlb pageNumber tlbSize
  unfold lruSlots
  generalize seekLoop tlb pageNumber tlbSize = seek at spec ⊢
  dsimp only
  split
  · rename_i there
    rcases spec.there.mp there with ⟨slot, inside, held⟩
    exact .there slot inside held (fun _ => rfl) spec.passed
  · rename_i notThere
    have absent : ∀ j, j < tlbSize → tlb.pageNumArr j ≠ pageNumber := fun j inside held =>
      notThere (spec.there.mpr ⟨j, inside, held⟩)
    split
    · rename_i free
      rcases spec.spot free with ⟨inside, spot⟩
      refine .placed seek.replaceIndex inside absent (Or.inl spot)
        (fun j => entry_place _ _ _ _ _) ?_
      intro j jInside
      rw [entryAgeArr_place]
      exact if_congr Iff.rfl rfl (spec.passed j jInside)
    · rename_i full
      have used : ∀ j, j < tlbSize → tlb.pageNumArr j ≠ 0 := fun j inside free =>
        full (spec.free.mpr ⟨j, inside, absent j inside, free⟩)
      obtain ⟨inside, oldest⟩ :=
        getOldestEntry_spec { tlb with entryAgeArr := seek.entryAgeArr }
      refine .placed _ inside absent (Or.inr ⟨used, ?_⟩) (fun j => entry_place _ _ _ _ _) ?_
      · intro j jInside
        have order := oldest j jInside
        simp only [spec.passed _ jInside, spec.passed _ inside, agedBy, absent _ jInside,
          absent _ inside, used _ jInside, used _ inside, ne_eq, not_false_eq_true, and_self,
          if_true] at order
        exact Int.le_of_add_le_add_right order
      · intro j jInside
        rw [entryAgeArr_place]
        exact if_congr Iff.rfl rfl (spec.passed j jInside)

end Lru

end ComputerSystems.VirtualMemory

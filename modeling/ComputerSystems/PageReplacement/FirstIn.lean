import ComputerSystems.PageReplacement.Core
import ComputerSystems.Recency.Fifo
import ComputerSystems.Recency.Rotation

/-!
# The program is a first-in, first-out cache

The page table is an array filled at a rotating index, so it holds the pages of
the last faults. A cache with a queue of as many pages holds the same pages,
and so has its faults at the same references.
-/

namespace ComputerSystems.PageReplacement

open Loop Recency

/-- The program after a reference string and the cache with a queue after it. -/
structure Simulates (references : List Int) : Prop where
  rotates : Rotates maxFrames (-1) (faulting references) (run references).pageTable
  slots : (loads references).map Load.slot = turns maxFrames (loads references).length
  oldest : (run references).oldestPageIndex = (loads references).length % maxFrames
  numFaults : (run references).numFaults = (loads references).length
  queue : (FifoCache.serve maxFrames references).queue = (faulting references).rtake maxFrames
  faults : (FifoCache.serve maxFrames references).faults = (loads references).length
  distinct : ((faulting references).rtake maxFrames).Nodup
  nonneg : ∀ pageNum ∈ faulting references, 0 ≤ pageNum

theorem simulates_nil : Simulates [] where
  rotates := rotates_nil fun _ _ => rfl
  slots := rfl
  oldest := rfl
  numFaults := rfl
  queue := rfl
  faults := rfl
  distinct := List.nodup_nil
  nonneg := by
    intro pageNum member
    cases member

theorem length_faulting (references : List Int) :
    (faulting references).length = (loads references).length :=
  List.length_map _

variable {references : List Int} {pageNum : Int}

theorem Simulates.blank_notMem (simulates : Simulates references) : -1 ∉ faulting references := by
  intro member
  exact absurd (simulates.nonneg _ member) (by decide)

/-- The search finds the pages in the queue. -/
theorem Simulates.pageIndex_eq_none_iff (simulates : Simulates references)
    (nonneg : 0 ≤ pageNum) :
    pageIndex (run references) pageNum = none ↔
      pageNum ∉ (FifoCache.serve maxFrames references).queue := by
  have present : pageNum ≠ -1 := by omega
  rw [simulates.queue, ← simulates.rotates.mem_iff present, pageIndex, firstIndex_eq_none_iff]
  constructor
  · rintro absent ⟨j, inside, here⟩
    exact absent j (Nat.zero_le j) (by omega) here
  · intro absent j _ inside here
    exact absent ⟨j, by omega, here⟩

theorem Simulates.hit (simulates : Simulates references) (nonneg : 0 ≤ pageNum)
    (hit : pageIndex (run references) pageNum ≠ none) : Simulates (references ++ [pageNum]) := by
  have held := (not_congr (simulates.pageIndex_eq_none_iff nonneg)).mp hit
  rcases Option.ne_none_iff_exists'.mp hit with ⟨j, found⟩
  have same : run (references ++ [pageNum]) = run references := by
    rw [run_append, reference, found]
  have loaded : loads (references ++ [pageNum]) = loads references := by
    rw [loads_append, load, found, List.append_nil]
  have cache : FifoCache.serve maxFrames (references ++ [pageNum]) =
      FifoCache.serve maxFrames references := by
    rw [FifoCache.serve_append, FifoCache.access, if_pos (not_not.mp held)]
  constructor <;> simp only [same, faulting, loaded, cache]
  · exact simulates.rotates
  · exact simulates.slots
  · exact simulates.oldest
  · exact simulates.numFaults
  · exact simulates.queue
  · exact simulates.faults
  · exact simulates.distinct
  · exact simulates.nonneg

theorem Simulates.fault (simulates : Simulates references) (nonneg : 0 ≤ pageNum)
    (fault : pageIndex (run references) pageNum = none) : Simulates (references ++ [pageNum]) := by
  have missing := (simulates.pageIndex_eq_none_iff nonneg).mp fault
  have after : run (references ++ [pageNum]) =
      { pageTable := Function.update (run references).pageTable
          ((loads references).length % maxFrames) pageNum
        numFaults := (loads references).length + 1
        oldestPageIndex := ((loads references).length % maxFrames + 1) % maxFrames } := by
    rw [run_append, reference, fault, simulates.oldest, simulates.numFaults]
  have loaded : loads (references ++ [pageNum]) =
      loads references ++ [⟨(loads references).length % maxFrames, pageNum⟩] := by
    rw [loads_append, load, fault, simulates.oldest]
  have faulted : faulting (references ++ [pageNum]) = faulting references ++ [pageNum] := by
    rw [faulting, loaded, List.map_append, ← faulting, List.map_singleton]
  have length : (loads (references ++ [pageNum])).length = (loads references).length + 1 := by
    rw [loaded, List.length_append, List.length_singleton]
  have cache : FifoCache.serve maxFrames (references ++ [pageNum]) =
      { queue := enqueue maxFrames (FifoCache.serve maxFrames references).queue pageNum
        faults := (FifoCache.serve maxFrames references).faults + 1 } := by
    rw [FifoCache.serve_append, FifoCache.access, if_neg missing]
  have positive : 0 < maxFrames := by decide
  constructor
  · rw [after, faulted, ← length_faulting]
    exact simulates.rotates.store pageNum
  · rw [length, turns_succ, loaded, List.map_append, simulates.slots, List.map_singleton]
  · rw [after, length, Nat.mod_add_mod]
  · rw [after, length]
  · rw [cache, faulted, simulates.queue, enqueue_rtake positive]
  · rw [cache, length, simulates.faults]
  · rw [simulates.queue] at missing
    rw [faulted]
    exact nodup_rtake_append positive simulates.distinct missing
  · intro other member
    rw [faulted, List.mem_append, List.mem_singleton] at member
    rcases member with earlier | rfl
    · exact simulates.nonneg other earlier
    · exact nonneg

/-- The program simulates the cache with a queue on every reference string. -/
theorem simulates (references : List Int) (nonneg : ∀ pageNum ∈ references, 0 ≤ pageNum) :
    Simulates references := by
  induction references using List.reverseRecOn with
  | nil => exact simulates_nil
  | append_singleton references pageNum ih =>
      have before := ih fun other member => nonneg other (List.mem_append_left _ member)
      have valid := nonneg pageNum (List.mem_append_right _ (List.mem_singleton_self pageNum))
      by_cases fault : pageIndex (run references) pageNum = none
      · exact before.fault valid fault
      · exact before.hit valid fault

/-! ## After each reference -/

/-- The non-empty entries of the page table. -/
def State.pages (state : State) : List Int := entries maxFrames (-1) state.pageTable

/-- Of all slots `slot` was loaded longest ago: each other one was loaded after it. -/
def LongestAgo (slot : Nat) (loads : List Load) : Prop :=
  ∃ before after, loads.map Load.slot = before ++ slot :: after ∧ slot ∉ after ∧
    ∀ other, other < maxFrames → other ≠ slot → other ∈ after

/-- The state after a reference string, in terms of the references that faulted. -/
structure FirstInFirstOut (references : List Int) : Prop where
  distinct : (run references).pages.Nodup
  lastFaults : (run references).pages.Perm
    ((faulting references).rtake (min maxFrames (run references).numFaults))
  referenced : ∀ past pageNum, references = past ++ [pageNum] → pageNum ∈ (run references).pages
  firstEmpty : (∃ slot, slot < maxFrames ∧ (run references).pageTable slot = -1) →
    (run references).oldestPageIndex < maxFrames ∧
      (run references).pageTable (run references).oldestPageIndex = -1 ∧
      ∀ slot, slot < (run references).oldestPageIndex → (run references).pageTable slot ≠ -1
  longestAgo : (∀ slot, slot < maxFrames → (run references).pageTable slot ≠ -1) →
    LongestAgo (run references).oldestPageIndex (loads references)
  counted : (run references).numFaults = (faulting references).length
  faults : (run references).numFaults = (FifoCache.serve maxFrames references).faults

theorem Simulates.perm_pages (simulates : Simulates references) :
    (run references).pages.Perm (FifoCache.serve maxFrames references).queue := by
  rw [simulates.queue]
  exact simulates.rotates.perm_entries simulates.blank_notMem simulates.distinct

/-- After each reference of a string the program is in the state of a first-in,
first-out cache. -/
theorem run_firstInFirstOut (references : List Int)
    (nonneg : ∀ pageNum ∈ references, 0 ≤ pageNum) : FirstInFirstOut references := by
  have simulates := simulates references nonneg
  have counted := simulates.numFaults.trans (length_faulting references).symm
  have used := simulates.blank_notMem
  refine ⟨simulates.rotates.nodup_entries simulates.distinct, ?_, ?_, ?_, ?_, counted,
    simulates.numFaults.trans simulates.faults.symm⟩
  · rw [counted, rtake_min_length, ← simulates.queue]
    exact simulates.perm_pages
  · rintro past pageNum rfl
    rw [simulates.perm_pages.mem_iff, FifoCache.serve_append]
    exact FifoCache.mem_access maxFrames _ pageNum
  · rintro ⟨slot, inside, empty⟩
    rcases simulates.rotates.first_blank used inside empty with ⟨turn, room, blank, earlier⟩
    rw [simulates.oldest, ← length_faulting, turn]
    exact ⟨room, blank, earlier⟩
  · intro full
    have round := simulates.rotates.round full
    rw [length_faulting] at round
    rw [simulates.oldest, LongestAgo, simulates.slots]
    exact turns_since (by decide) round

theorem run_firstInFirstOut_twelve_references :
    FirstInFirstOut [1, 2, 3, 4, 1, 2, 5, 1, 2, 3, 4, 5] :=
  run_firstInFirstOut _ (by decide)

end ComputerSystems.PageReplacement

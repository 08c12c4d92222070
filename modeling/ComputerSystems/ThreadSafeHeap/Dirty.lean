import ComputerSystems.ThreadSafeHeap.Payloads

/-!
# No page becomes dirty

The array `dirty` is only ever cleared: by `thread_safe_malloc` for the page of its
result, and by `thread_safe_free` for a page that it has saved. So whatever is called, its
entries stay 0, and what a free does depends on the page number in the header only.
-/

namespace ComputerSystems.ThreadSafeHeap

open ComputerSystems.Loop

/-- The entries of `dirty` are 0. -/
def PagesClean (state : State) : Prop :=
  ∀ page, 0 ≤ page → page < numPages → state.dirty page = 0#32

variable {place : Placement} {state after : State} {live : List Allocation}
  {bytes ptr : BitVec 64}

/-- Clearing an entry that is 0 changes nothing. -/
theorem enterPage_keepsDirty (state : State) (clean : PagesClean state) (result : BitVec 64) :
    (enterPage place state result bytes).dirty = state.dirty := by
  unfold enterPage
  dsimp only
  split
  · rfl
  · split
    · rename_i inside
      exact Function.update_eq_self_iff.mpr (clean _ inside.1 inside.2).symm
    · rfl

theorem malloc_keepsDirty (clean : PagesClean state)
    (returns : Completes (threadSafeMalloc place state bytes) (after, ptr)) :
    after.dirty = state.dirty := by
  rcases malloc_cases returns with ⟨memory, rfl | rfl⟩
  · rfl
  · exact enterPage_keepsDirty { state with memory } clean ptr

theorem saveDirty_pagesClean {block : BitVec 64} (clean : PagesClean state)
    (saves : saveDirty state block = some after) : PagesClean after := by
  unfold saveDirty at saves
  dsimp only at saves
  split at saves
  · rcases Option.map_eq_some_iff.mp saves with ⟨_, _, rfl⟩
    intro page lower upper
    dsimp only
    rw [Function.update_apply]
    split
    · rfl
    · exact clean page lower upper
  · rwa [← Option.some.inj saves]

theorem threadSafeFree_pagesClean (clean : PagesClean state)
    (returns : threadSafeFree state ptr = some after) : PagesClean after := by
  unfold threadSafeFree at returns
  split at returns
  · rwa [← Option.some.inj returns]
  · rcases Option.map_eq_some_iff.mp returns with ⟨saved, saves, rfl⟩
    have kept := saveDirty_pagesClean clean saves
    exact kept

/-- `pm_put` changes the memory only. -/
theorem pmPut_eq (state : State) (ptr : BitVec 64) (written : List (BitVec 8))
    (bytes : BitVec 64) : ∃ memory, pmPut state ptr written bytes = { state with memory } := by
  unfold pmPut
  dsimp only
  split
  · exact ⟨state.memory, rfl⟩
  · exact ⟨_, rfl⟩

/-- `pm_get` changes the memory only. -/
theorem pmGet_eq {out : Option (List (BitVec 8))}
    (returns : pmGet state ptr bytes = some (after, out)) :
    ∃ memory, after = { state with memory } := by
  unfold pmGet at returns
  dsimp only at returns
  split at returns
  · cases returns
    exact ⟨state.memory, rfl⟩
  · rcases Option.map_eq_some_iff.mp returns with ⟨loaded, loads, same⟩
    cases same
    unfold loadFree at loads
    split at loads
    · rcases Option.bind_eq_some_iff.mp loads with ⟨file, _, loads⟩
      rcases Option.map_eq_some_iff.mp loads with ⟨_, _, rfl⟩
      exact ⟨_, rfl⟩
    · rw [Option.some.inj loads]
      exact ⟨_, rfl⟩

theorem pmPut_dirty (state : State) (ptr : BitVec 64) (written : List (BitVec 8))
    (bytes : BitVec 64) : (pmPut state ptr written bytes).dirty = state.dirty := by
  rcases pmPut_eq state ptr written bytes with ⟨memory, same⟩
  rw [same]

theorem pmGet_dirty {out : Option (List (BitVec 8))}
    (returns : pmGet state ptr bytes = some (after, out)) : after.dirty = state.dirty := by
  rcases pmGet_eq returns with ⟨memory, rfl⟩
  rfl

/-- In every run the entries of `dirty` stay 0. -/
theorem run_pagesClean {proper : State → List Allocation → Call → Prop}
    (run : Run place proper live state) : PagesClean state := by
  induction run with
  | start fresh => exact fresh.dirty
  | malloc _ _ returns ih =>
      rw [PagesClean, malloc_keepsDirty ih returns]
      exact ih
  | free _ _ returns ih => exact threadSafeFree_pagesClean ih returns
  | put _ _ ih =>
      rw [PagesClean, pmPut_dirty]
      exact ih
  | get _ _ returns ih =>
      rw [PagesClean, pmGet_dirty returns]
      exact ih
  | assign _ _ ih => exact ih

/-- A block whose page number is in the bounds of `dirty` is not saved. -/
theorem saveDirty_inBounds (clean : PagesClean state) {block : BitVec 64}
    (lower : 0 ≤ (pageNum state.memory block).toInt)
    (upper : (pageNum state.memory block).toInt < numPages) : saveDirty state block = some state :=
  if_neg fun dirty => dirty (clean _ lower upper)

end ComputerSystems.ThreadSafeHeap

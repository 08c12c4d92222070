import ComputerSystems.PageLoading.Core

/-!
# The recursion of page loading

`load_page` calls `access_page` on each of its branches before it returns, and
`access_page` calls `load_page` before it does anything that could end the
program. No table state selects a branch without such a call.
-/

namespace ComputerSystems.PageLoading

open ComputerSystems.Loop

variable (state : State) (pageId : Nat) (currentTime : Int)

/-- One more level of `access_page` has not returned when `load_page` below it
has not. -/
theorem accessPage_running {fuel : Nat}
    (below : ∀ state pageId, loadPage fuel state pageId currentTime = .running) :
    accessPage (fuel + 1) state pageId currentTime = .running := by
  rw [accessPage, below, Outcome.running_bind]

/-- One more level of `load_page` has not returned when `access_page` below it
has not, whichever branch its loop selects. -/
theorem loadPage_running {fuel : Nat}
    (below : ∀ state pageId, accessPage fuel state pageId currentTime = .running) :
    loadPage (fuel + 1) state pageId currentTime = .running := by
  rw [loadPage]
  cases loadScan state.table pageId 0 none state.table.numPages with
  | found i => exact below state i
  | freeSpace slot =>
      cases slot with
      | none => simp only [below, Outcome.running_bind]
      | some slot => simp only [below, Outcome.running_bind]

/-- At no recursion depth has either function returned. -/
theorem always_running (fuel : Nat) :
    (∀ state pageId, loadPage fuel state pageId currentTime = .running) ∧
      ∀ state pageId, accessPage fuel state pageId currentTime = .running := by
  induction fuel with
  | zero =>
      constructor
      · intro state pageId
        rw [loadPage]
      · intro state pageId
        rw [accessPage]
  | succ fuel ih =>
      rcases ih with ⟨loading, accessing⟩
      constructor
      · intro state pageId
        exact loadPage_running state pageId currentTime accessing
      · intro state pageId
        exact accessPage_running state pageId currentTime loading

/-- On a table made by `init_page_table`, neither function ever returns or ends
the program, whatever the page, the time and the rest of the state. -/
theorem initPageTable_never_halts (fresh : Nat → Page) (numPages : Nat) (rest : State)
    (pageId : Nat) (currentTime : Int) :
    ¬ Halts (fun fuel =>
        loadPage fuel { rest with table := initPageTable fresh numPages } pageId currentTime) ∧
      ¬ Halts fun fuel =>
        accessPage fuel { rest with table := initPageTable fresh numPages } pageId currentTime := by
  constructor
  · rintro ⟨fuel, halted⟩
    exact halted ((always_running currentTime fuel).1 _ pageId)
  · rintro ⟨fuel, halted⟩
    exact halted ((always_running currentTime fuel).2 _ pageId)

/-- A page of zeros. -/
def zeroPage : Page := ⟨0, 0, false, 0⟩

/-- The globals of a program that has just started, and a table of 16 pages. -/
def freshState : State where
  table := initPageTable (fun _ => zeroPage) 16
  pageing := fun _ => 0#8
  physicalMemory := fun _ => 0#8
  swapFd := File.ftruncate ⟨fun _ => 0#8, 0⟩ (numPages * pageSize)

/-- The first load of the source's own test: page 1 at time 1. -/
theorem loadPage_one_never_halts : ¬ Halts fun fuel => loadPage fuel freshState 1 1 := by
  rintro ⟨fuel, halted⟩
  exact halted ((always_running 1 fuel).1 freshState 1)

end ComputerSystems.PageLoading

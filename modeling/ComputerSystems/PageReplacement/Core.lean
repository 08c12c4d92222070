import ComputerSystems.Loop.Scan

/-!
# The page replacement program

The loop of `Practicum/pagereplacement.c` over its reference string, which is an
input here. A page number is an `int`; its range is left out, and so is what the
loop prints. No array of references is long enough for `num_faults` to overflow.
-/

namespace ComputerSystems.PageReplacement

open Loop

/-- `MAX_FRAMES`. -/
def maxFrames : Nat := 3

/-- The variables of the loop. -/
structure State where
  pageTable : Nat → Int
  numFaults : Nat
  oldestPageIndex : Nat

/-- The variables before the loop. -/
def start : State where
  pageTable _ := -1
  numFaults := 0
  oldestPageIndex := 0

/-- `page_index`: the frame that holds a page. -/
def pageIndex (state : State) (pageNum : Int) : Option Nat :=
  firstIndex state.pageTable pageNum 0 maxFrames

/-- One iteration of the loop. -/
def reference (state : State) (pageNum : Int) : State :=
  match pageIndex state pageNum with
  | some _ => state
  | none =>
      { pageTable := Function.update state.pageTable state.oldestPageIndex pageNum
        numFaults := state.numFaults + 1
        oldestPageIndex := (state.oldestPageIndex + 1) % maxFrames }

/-- The variables after a reference string. -/
def run (references : List Int) : State := references.foldl reference start

example : (run [1, 2, 3, 4, 1, 2, 5, 1, 2, 3, 4, 5]).numFaults = 9 := by decide

/-- A faulting reference, with the frame that its page is loaded into. -/
structure Load where
  slot : Nat
  pageNum : Int

/-- What one iteration loads. -/
def load (state : State) (pageNum : Int) : List Load :=
  match pageIndex state pageNum with
  | some _ => []
  | none => [⟨state.oldestPageIndex, pageNum⟩]

/-- What the loop loads from some state on. -/
def loadsFrom (state : State) : List Int → List Load
  | [] => []
  | pageNum :: references =>
      load state pageNum ++ loadsFrom (reference state pageNum) references

/-- What the program loads, in order. -/
def loads (references : List Int) : List Load := loadsFrom start references

/-- The faulting references of the program, in order. -/
def faulting (references : List Int) : List Int := (loads references).map Load.pageNum

/-! ## One more reference -/

theorem run_append (references : List Int) (pageNum : Int) :
    run (references ++ [pageNum]) = reference (run references) pageNum := by
  rw [run, List.foldl_append, ← run, List.foldl_cons, List.foldl_nil]

theorem loadsFrom_append (state : State) (references : List Int) (pageNum : Int) :
    loadsFrom state (references ++ [pageNum]) =
      loadsFrom state references ++ load (references.foldl reference state) pageNum := by
  induction references generalizing state with
  | nil => simp [loadsFrom]
  | cons first references ih =>
      rw [List.cons_append, loadsFrom, ih, loadsFrom, List.append_assoc, List.foldl_cons]

theorem loads_append (references : List Int) (pageNum : Int) :
    loads (references ++ [pageNum]) = loads references ++ load (run references) pageNum :=
  loadsFrom_append start references pageNum

end ComputerSystems.PageReplacement

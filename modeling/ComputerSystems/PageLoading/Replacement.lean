import ComputerSystems.Loop.Scan
import ComputerSystems.PageLoading.Core
import ComputerSystems.Transition.Run
import Mathlib.Logic.Function.Basic

/-!
# Replacing a page

`replace_page` of `PracticumI/malloc.c` looks for the oldest page by its `id` and then for
the entry with that `id`, while `find_lru_page` looks for its index. The page that it
writes to the swap file does not touch the table, and is left out.
-/

namespace ComputerSystems.PageLoading

open ComputerSystems.Loop ComputerSystems.Transition

/-- `INT_MAX`. -/
def intMax : Int := 2147483647

/-- `is_page_in_memory`. -/
def isPageInMemory (table : PageTable) (pageId : Int) : Bool :=
  (List.range table.numPages).any fun i =>
    (table.pages i).id == pageId && (table.pages i).lastAccessTime != -1

/-- The first loop of `replace_page`: the index `i`, `evicted_page_id`,
`oldest_access_time` and the number of iterations left. Its result is the page to evict. -/
def oldestFrom (table : PageTable) (i : Nat) (evictedPageId oldestAccessTime : Int) : Nat → Int
  | 0 => evictedPageId
  | left + 1 =>
      if (table.pages i).lastAccessTime < oldestAccessTime then
        oldestFrom table (i + 1) (table.pages i).id (table.pages i).lastAccessTime left
      else
        oldestFrom table (i + 1) evictedPageId oldestAccessTime left

/-- The entry at an index is given to a page. -/
def PageTable.assign (table : PageTable) (i : Nat) (pageId time : Int) : PageTable :=
  { table with
    pages := Function.update table.pages i
      { table.pages i with id := pageId, lastAccessTime := time } }

/-- `replace_page`, with the value of `time(NULL)`: the table and the result. -/
def replacePage (table : PageTable) (pageId time : Int) : PageTable × Int :=
  let evictedPageId := oldestFrom table 0 (-1) intMax table.numPages
  match firstIndex (fun i => (table.pages i).id) evictedPageId 0 table.numPages with
  | some i => (table.assign i pageId time, evictedPageId)
  | none => (table, evictedPageId)

/-- A call of `replace_page`, and the time at which it is made. -/
structure Call where
  pageId : Int
  time : Int

/-- The table after a call. -/
def replaceStep (table : PageTable) (call : Call) : Option PageTable :=
  some (replacePage table call.pageId call.time).1

/-- A call for a page that is not in memory, at a time that can be stored. -/
def Admitted (table : PageTable) (call : Call) : Prop :=
  isPageInMemory table call.pageId = false ∧ 0 ≤ call.time ∧ call.time < intMax

instance (table : PageTable) (call : Call) : Decidable (Admitted table call) :=
  inferInstanceAs (Decidable (_ ∧ _ ∧ _))

/-- No two entries have the same `id`. -/
def DistinctIds (table : PageTable) : Prop :=
  ∀ i < table.numPages, ∀ j < table.numPages, (table.pages i).id = (table.pages j).id → i = j

/-- The times are not negative and below `INT_MAX`. -/
def TimesStored (table : PageTable) : Prop :=
  ∀ i < table.numPages, 0 ≤ (table.pages i).lastAccessTime ∧ (table.pages i).lastAccessTime < intMax

/-- What the calls keep. -/
structure Replaceable (numPages : Nat) (table : PageTable) : Prop where
  length : table.numPages = numPages
  distinct : DistinctIds table
  times : TimesStored table

variable {table : PageTable} {numPages : Nat} {call : Call}

/-! ## The two searches -/

theorem lruFrom_lt {i lruPage left : Nat} (best : lruPage < i) :
    lruFrom table i lruPage left < i + left := by
  induction left generalizing i lruPage with
  | zero => exact best
  | succ left ih =>
      rw [lruFrom]
      split
      · have later := @ih (i + 1) i (Nat.lt_succ_self i)
        omega
      · have later := @ih (i + 1) lruPage (Nat.lt_succ_of_lt best)
        omega

theorem findLruPage_lt (positive : 0 < table.numPages) :
    findLruPage table < table.numPages := by
  have found := @lruFrom_lt table 1 0 (table.numPages - 1) Nat.zero_lt_one
  rw [findLruPage]
  omega

/-- From the same entry on, both searches find the same page. -/
theorem oldestFrom_eq (table : PageTable) (i lruPage left : Nat) :
    oldestFrom table i (table.pages lruPage).id (table.pages lruPage).lastAccessTime left =
      (table.pages (lruFrom table i lruPage left)).id := by
  induction left generalizing i lruPage with
  | zero => rfl
  | succ left ih =>
      rw [oldestFrom, lruFrom]
      split
      · exact ih (i + 1) i
      · exact ih (i + 1) lruPage

/-- A time below `INT_MAX` makes the first entry the start of both. -/
theorem oldestFrom_start (positive : 0 < table.numPages)
    (stored : (table.pages 0).lastAccessTime < intMax) :
    oldestFrom table 0 (-1) intMax table.numPages = (table.pages (findLruPage table)).id := by
  have split : table.numPages = (table.numPages - 1) + 1 := by omega
  rw [split, oldestFrom, if_pos stored, oldestFrom_eq, findLruPage]

/-- The entry with an `id` is found where no other has the same. -/
theorem DistinctIds.firstIndex_eq (distinct : DistinctIds table) {i : Nat}
    (inside : i < table.numPages) :
    firstIndex (fun j => (table.pages j).id) (table.pages i).id 0 table.numPages = some i := by
  rcases @exists_firstIndex _ _ (fun j => (table.pages j).id) _ _ _ inside rfl with
    ⟨found, search⟩
  rcases firstIndex_eq_some search with ⟨_, bound, same, _⟩
  rw [search, distinct found (by omega) i inside same]

/-- The searches agree. -/
theorem Replaceable.replacePage_eq (replaceable : Replaceable numPages table)
    (positive : 0 < numPages) (pageId time : Int) :
    replacePage table pageId time =
      (table.assign (findLruPage table) pageId time, (table.pages (findLruPage table)).id) := by
  rw [← replaceable.length] at positive
  have evicted := oldestFrom_start positive (replaceable.times 0 positive).2
  rw [replacePage, evicted, replaceable.distinct.firstIndex_eq (findLruPage_lt positive)]

/-! ## The calls -/

theorem PageTable.assign_self (table : PageTable) (i : Nat) (pageId time : Int) :
    (table.assign i pageId time).pages i =
      { table.pages i with id := pageId, lastAccessTime := time } :=
  Function.update_self ..

theorem PageTable.assign_of_ne (table : PageTable) {i j : Nat} (pageId time : Int)
    (other : j ≠ i) : (table.assign i pageId time).pages j = table.pages j :=
  Function.update_of_ne other ..

theorem replaceable_initPageTable (fresh : Nat → Page) (numPages : Nat) :
    Replaceable numPages (initPageTable fresh numPages) := by
  constructor
  · rfl
  · intro i _ j _ same
    exact Int.ofNat.inj same
  · intro i _
    have zero : (0 : Int) < intMax := by decide
    exact ⟨Int.le_refl 0, zero⟩

/-- A page that is not in memory has no entry. -/
theorem Replaceable.absent (replaceable : Replaceable numPages table)
    (absent : isPageInMemory table call.pageId = false) {i : Nat} (inside : i < numPages) :
    (table.pages i).id ≠ call.pageId := by
  intro same
  rw [← replaceable.length] at inside
  have present := List.any_eq_false.mp absent i (List.mem_range.mpr inside)
  have time := (replaceable.times i inside).1
  refine present ?_
  rw [Bool.and_eq_true, beq_iff_eq, bne_iff_ne]
  exact ⟨same, by omega⟩

theorem Replaceable.assign (replaceable : Replaceable numPages table)
    (admitted : Admitted table call) (i : Nat) :
    Replaceable numPages (table.assign i call.pageId call.time) := by
  rcases admitted with ⟨absent, timed⟩
  have length := replaceable.length
  constructor
  · exact length
  · intro j jInside k kInside same
    change j < table.numPages at jInside
    change k < table.numPages at kInside
    by_cases first : j = i
    · by_cases second : k = i
      · rw [first, second]
      · rw [first, table.assign_self, table.assign_of_ne _ _ second] at same
        exact absurd same.symm (replaceable.absent absent (length ▸ kInside))
    · by_cases second : k = i
      · rw [second, table.assign_self, table.assign_of_ne _ _ first] at same
        exact absurd same (replaceable.absent absent (length ▸ jInside))
      · rw [table.assign_of_ne _ _ first, table.assign_of_ne _ _ second] at same
        exact replaceable.distinct j jInside k kInside same
  · intro j inside
    by_cases same : j = i
    · rw [same, table.assign_self]
      exact timed
    · rw [table.assign_of_ne _ _ same]
      exact replaceable.times j inside

/-- A call keeps the `id`s apart. -/
theorem Replaceable.replaceStep (replaceable : Replaceable numPages table)
    (positive : 0 < numPages) (admitted : Admitted table call) {next : PageTable}
    (stepped : replaceStep table call = some next) : Replaceable numPages next := by
  rw [PageLoading.replaceStep, replaceable.replacePage_eq positive] at stepped
  cases stepped
  exact replaceable.assign admitted _

/-- In every sequence of calls for pages that are not in memory the `id`s stay distinct, and
every call returns the `id` of the entry that `find_lru_page` chooses and changes that
entry only. -/
theorem replacePage_agrees (fresh : Nat → Page) (positive : 0 < numPages) (calls : List Call)
    (admitted : EveryStep replaceStep Admitted (initPageTable fresh numPages) calls) :
    (∀ past table, past <+: calls →
      exec replaceStep (initPageTable fresh numPages) past = some table → DistinctIds table) ∧
    ∀ past call rest table, calls = past ++ call :: rest →
      exec replaceStep (initPageTable fresh numPages) past = some table →
      findLruPage table < table.numPages ∧
        replacePage table call.pageId call.time =
          (table.assign (findLruPage table) call.pageId call.time,
            (table.pages (findLruPage table)).id) := by
  have reached : ∀ past table, past <+: calls →
      exec replaceStep (initPageTable fresh numPages) past = some table →
        Replaceable numPages table := by
    intro past table part ran
    refine admitted.invariant (Replaceable numPages) (replaceable_initPageTable fresh numPages) ?_
      part ran
    intro before call next met stepped replaceable
    exact replaceable.replaceStep positive met stepped
  constructor
  · intro past table part ran
    exact (reached past table part ran).distinct
  · intro past call rest table split ran
    have replaceable := reached past table ⟨call :: rest, split.symm⟩ ran
    refine ⟨findLruPage_lt ?_, replaceable.replacePage_eq positive call.pageId call.time⟩
    rw [replaceable.length]
    exact positive

/-- The second of two calls on a table of two entries. -/
theorem replacePage_agrees_second_call :
    ∃ table, exec replaceStep (initPageTable (fun _ => ⟨0, 0, false, 0⟩) 2) [⟨7, 100⟩] =
        some table ∧ findLruPage table < table.numPages ∧
      replacePage table 8 101 =
        (table.assign (findLruPage table) 8 101, (table.pages (findLruPage table)).id) :=
  ⟨_, rfl, (replacePage_agrees (fun _ => ⟨0, 0, false, 0⟩) (by decide) [⟨7, 100⟩, ⟨8, 101⟩]
    (by decide)).2 [⟨7, 100⟩] ⟨8, 101⟩ [] _ rfl rfl⟩

end ComputerSystems.PageLoading

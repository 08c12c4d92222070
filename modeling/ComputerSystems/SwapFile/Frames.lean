import ComputerSystems.SwapFile.Core
import Mathlib.Data.List.Basic

/-!
# Which frame a page gets

The frame of a new page is the lowest page number that is not mapped, so the
frames stay distinct as long as new pages are written in ascending order from
page 0. One page may break the order, since only the next new page takes its
frame.
-/

namespace ComputerSystems.SwapFile

open ComputerSystems.Loop
open ComputerSystems.Transition

/-- The page that a call writes. -/
def Call.written : Call → Option Nat
  | .write page _ => some page
  | .read _ => none

/-- The pages written by some calls, in the order of their first writes. -/
def firstWritten (calls : List Call) : List Nat :=
  (calls.filterMap Call.written).eraseDups

/-- All pages but the last one are 0, 1, 2 and so on. -/
def Ascending (pages : List Nat) : Prop :=
  pages.dropLast = List.range (pages.length - 1)

instance (pages : List Nat) : Decidable (Ascending pages) :=
  inferInstanceAs (Decidable (pages.dropLast = _))

/-! ## Orders of first writes -/

section Order

variable {pages : List Nat} {page : Nat}

theorem ascending_range (count : Nat) : Ascending (List.range count) := by
  cases count with
  | zero => rfl
  | succ count => simp [Ascending, List.range_succ]

theorem ascending_append_singleton :
    Ascending (pages ++ [page]) ↔ pages = List.range pages.length := by
  simp [Ascending]

theorem ascending_of_append {rest : List Nat} (ascending : Ascending (pages ++ rest)) :
    Ascending pages := by
  cases rest using List.reverseRecOn with
  | nil => simpa using ascending
  | append_singleton rest page =>
      rw [← List.append_assoc, ascending_append_singleton, List.length_append] at ascending
      have taken := congrArg (List.take pages.length) ascending
      rw [List.take_left, List.take_range, Nat.min_eq_left (Nat.le_add_right _ _)] at taken
      rw [taken]
      exact ascending_range pages.length

/-- An order that keeps to the rule but is not 0, 1, 2 and so on has gone wrong
at its last page. -/
theorem Ascending.split (ascending : Ascending pages) (out : pages ≠ List.range pages.length) :
    ∃ count last, pages = List.range count ++ [last] ∧ last ≠ count := by
  cases pages using List.reverseRecOn with
  | nil => exact absurd rfl out
  | append_singleton front last =>
      rw [ascending_append_singleton] at ascending
      refine ⟨front.length, last, by rw [← ascending], ?_⟩
      intro same
      apply out
      rw [List.length_append, List.length_singleton, List.range_succ, ← ascending, same]

theorem firstWritten_append (past rest : List Call) :
    ∃ later, firstWritten (past ++ rest) = firstWritten past ++ later := by
  simp only [firstWritten, List.filterMap_append, List.eraseDups_append]
  exact ⟨_, rfl⟩

theorem eraseDups_append_singleton (pages : List Nat) (page : Nat) :
    (pages ++ [page]).eraseDups =
      if page ∈ pages then pages.eraseDups else pages.eraseDups ++ [page] := by
  by_cases member : page ∈ pages
  · simp [List.eraseDups_append, List.removeAll, member]
  · simp [List.eraseDups_append, List.removeAll, member, List.eraseDups_cons]

theorem firstWritten_read (past : List Call) (page : Fin numPages) :
    firstWritten (past ++ [.read page]) = firstWritten past := by
  simp only [firstWritten, List.filterMap_append, List.filterMap_cons, List.filterMap_nil,
    Call.written, List.append_nil]

theorem firstWritten_write (past : List Call) (page : Fin numPages) (data : Page) :
    firstWritten (past ++ [.write page data]) =
      if (page : Nat) ∈ firstWritten past then firstWritten past
      else firstWritten past ++ [(page : Nat)] := by
  simp only [firstWritten, List.filterMap_append, List.filterMap_cons, List.filterMap_nil,
    Call.written, eraseDups_append_singleton, List.mem_eraseDups]

end Order

/-! ## One write -/

/-- The store that the swap file holds. -/
def swapStore (file : File) : Store :=
  fun page => ⟨file.contents.bytes (page * pageSize) pageSize, Memory.length_bytes _ _ _⟩

theorem readPageAt_of_size {file : File} (size : file.size = swapSize) (page : Fin numPages) :
    readPageAt file (page * pageSize) = some (swapStore file page) := by
  have inside : page * pageSize + pageSize ≤ file.size := by
    have bound := page.isLt
    rw [size]
    simp only [swapSize, numPages, pageSize] at bound ⊢
    omega
  have full := File.read_eq_bytes inside
  rw [readPageAt, dif_pos (by rw [full, Memory.length_bytes])]
  exact congrArg some (Subtype.ext full)

/-- What a write of `page` to `frame` does. -/
structure Wrote (page : Nat) (frame : Nat) (data : Page) (state next : State) : Prop where
  table : next.pageTable = Function.update state.pageTable page frame
  stored : next.physicalMemory.bytes (frameOffset frame) pageSize = data.val
  others : ∀ other : Nat, other ≠ frame →
    next.physicalMemory.bytes (frameOffset other) pageSize =
      state.physicalMemory.bytes (frameOffset other) pageSize
  swapFd : next.swapFd = state.swapFd

section Writing

variable {state next : State} {page : Fin numPages} {frame : Nat} {data : Page}

/-- Frames do not overlap. -/
theorem bytes_copy_frame {memory : Memory} {other : Nat} (apart : other ≠ frame) :
    (memory.copy (frameOffset frame) data.val).bytes (frameOffset other) pageSize =
      memory.bytes (frameOffset other) pageSize := by
  apply Memory.bytes_copy_of_disjoint
  rw [data.property]
  simp only [frameOffset, Int.toNat_natCast, pageSize]
  omega

theorem bytes_copy_page (memory : Memory) (address : Nat) (data : Page) :
    (memory.copy address data.val).bytes address pageSize = data.val := by
  have same := Memory.bytes_copy_same memory address data.val
  rwa [data.property] at same

theorem writePage_mapped (data : Page) (mapped : state.pageTable page = frame) :
    ∃ next, writePage state page data = some next ∧ Wrote page frame data state next := by
  have present : state.pageTable page ≠ -1 := by omega
  refine ⟨_, by rw [writePage, if_pos present], ?_⟩
  constructor
  · rw [← mapped, Function.update_eq_self]
  · simp only [mapped]
    exact bytes_copy_page _ _ _
  · intro other apart
    simp only [mapped]
    exact bytes_copy_frame apart
  · rfl

theorem writePage_unmapped (data : Page) (unmapped : state.pageTable page = -1)
    (search : firstIndex state.pageTable (-1) 0 numPages = some frame)
    (size : state.swapFd.size = swapSize) :
    ∃ next, writePage state page data = some next ∧ Wrote page frame data state next := by
  have absent : ¬ state.pageTable page ≠ -1 := not_not_intro unmapped
  refine ⟨_, by rw [writePage, if_neg absent, search, Option.bind_eq_bind, Option.bind_some,
    readPageAt_of_size size, Option.bind_eq_bind, Option.bind_some], ?_⟩
  constructor
  · rfl
  · exact bytes_copy_page _ _ _
  · intro other apart
    exact (bytes_copy_frame apart).trans (bytes_copy_frame apart)
  · rfl

/-- A write to a frame of its own changes what its page reads and nothing else. -/
theorem Wrote.reads {store : Store} (wrote : Wrote page frame data state next)
    (frames : ∀ other, state.pageTable other ≠ -1 → 0 ≤ state.pageTable other)
    (distinct : FramesDistinct next) (reads : Reads state store) :
    Reads next (Function.update store page data) := by
  intro other
  have here : next.pageTable page = frame := by rw [wrote.table, Function.update_self]
  by_cases same : other = page
  · subst same
    have present : next.pageTable other ≠ -1 := by omega
    rw [Function.update_self, readPage, if_pos present]
    simp only [here, wrote.stored, Subtype.coe_eta]
  · have before := reads other
    have kept : next.pageTable other = state.pageTable other := by
      rw [wrote.table, Function.update_of_ne (fun equal => same (Fin.ext equal))]
    rw [Function.update_of_ne same, ← before]
    by_cases present : state.pageTable other = -1
    · simp only [readPage, kept, present, ne_eq, not_true_eq_false, if_false, wrote.swapFd]
    · have apart : (state.pageTable other).toNat ≠ frame := by
        intro equal
        have bound := frames other present
        apply same
        apply distinct other page (by rwa [kept])
        omega
      have offset : frameOffset (state.pageTable other) =
          frameOffset ((state.pageTable other).toNat : Nat) := by
        simp only [frameOffset, Int.toNat_natCast]
      simp only [readPage, kept, if_pos present, offset, wrote.others _ apart]

end Writing

/-! ## The page table of a run -/

/-- The mapped pages are those of a list. -/
structure Mapped (pages : List Nat) (state : State) : Prop where
  unmapped : ∀ page, page ∉ pages → state.pageTable page = -1
  mapped : ∀ page, page ∈ pages → page < numPages ∧ 0 ≤ state.pageTable page

/-- Each page of a list has the frame of its place in the list. -/
def Placed (pages : List Nat) (state : State) : Prop :=
  ∀ (i page : Nat), pages[i]? = some page → state.pageTable page = i

/-- Two mapped pages share a frame. -/
def Shares (state : State) : Prop :=
  ∃ first second : Fin numPages, first ≠ second ∧ state.pageTable first ≠ -1 ∧
    state.pageTable first = state.pageTable second

/-- What holds of the state after some calls. -/
structure Reached (file : File) (calls : List Call) (state : State) : Prop where
  swapFd : state.swapFd = file
  mapped : Mapped (firstWritten calls) state
  placed : Ascending (firstWritten calls) → Placed (firstWritten calls) state
  reads : Ascending (firstWritten calls) → Reads state ((swapStore file).after calls)
  shares : ¬ Ascending (firstWritten calls) → Shares state

section Table

variable {pages : List Nat} {state next : State} {page : Fin numPages} {frame : Nat}
  {data : Page}

theorem Shares.not_distinct (shares : Shares state) : ¬ FramesDistinct state := by
  rintro distinct
  rcases shares with ⟨first, second, apart, present, same⟩
  exact apart (distinct first second present same)

theorem Mapped.mem (table : Mapped pages state) {page : Nat}
    (present : state.pageTable page ≠ -1) : page ∈ pages := by
  by_contra missing
  exact present (table.unmapped page missing)

theorem Mapped.frames (table : Mapped pages state) (page : Nat)
    (present : state.pageTable page ≠ -1) : 0 ≤ state.pageTable page :=
  (table.mapped page (table.mem present)).2

theorem Placed.distinct (placed : Placed pages state) (table : Mapped pages state) :
    FramesDistinct state := by
  intro first second present same
  rcases List.getElem?_of_mem (table.mem present) with ⟨i, firstAt⟩
  rcases List.getElem?_of_mem (table.mem (same ▸ present)) with ⟨j, secondAt⟩
  have firstFrame := placed i first firstAt
  have secondFrame := placed j second secondAt
  have indices : i = j := by omega
  rw [indices, secondAt] at firstAt
  exact Fin.ext (Option.some.inj firstAt).symm

/-- The search for a frame finds the lowest unmapped page number. -/
theorem search_eq {count : Nat} (table : Mapped pages state)
    (below : ∀ i, i < count → i ∈ pages) (missing : count ∉ pages)
    (new : (page : Nat) ∉ pages) :
    firstIndex state.pageTable (-1) 0 numPages = some count := by
  rcases exists_firstIndex page.isLt (table.unmapped page new) with ⟨found, search⟩
  rcases firstIndex_eq_some search with ⟨_, _, free, before⟩
  have notBelow : ¬ found < count := by
    intro lower
    have frame := (table.mapped found (below found lower)).2
    omega
  have notAbove : ¬ count < found := by
    intro above
    exact before count (Nat.zero_le count) above (table.unmapped count missing)
  rw [search, Nat.le_antisymm (Nat.le_of_not_lt notAbove) (Nat.le_of_not_lt notBelow)]

theorem Wrote.mapped_old (wrote : Wrote page frame data state next) (table : Mapped pages state)
    (old : (page : Nat) ∈ pages) : Mapped pages next := by
  constructor
  · intro other missing
    have apart : other ≠ page := by
      rintro rfl
      exact missing old
    rw [wrote.table, Function.update_of_ne apart]
    exact table.unmapped other missing
  · intro other member
    refine ⟨(table.mapped other member).1, ?_⟩
    rw [wrote.table]
    by_cases same : other = page
    · rw [same, Function.update_self]
      exact Int.natCast_nonneg frame
    · rw [Function.update_of_ne same]
      exact (table.mapped other member).2

theorem Wrote.mapped_new (wrote : Wrote page frame data state next)
    (table : Mapped pages state) : Mapped (pages ++ [(page : Nat)]) next := by
  constructor
  · intro other missing
    rw [List.mem_append, List.mem_singleton, not_or] at missing
    rw [wrote.table, Function.update_of_ne missing.2]
    exact table.unmapped other missing.1
  · intro other member
    rw [wrote.table]
    by_cases same : other = page
    · rw [same, Function.update_self]
      exact ⟨page.isLt, Int.natCast_nonneg frame⟩
    · rw [Function.update_of_ne same]
      apply table.mapped other
      simpa [same] using member

/-- A new page that takes the frame next in order. -/
theorem Wrote.placed_new (wrote : Wrote page pages.length data state next)
    (placed : Placed pages state) (new : (page : Nat) ∉ pages) :
    Placed (pages ++ [(page : Nat)]) next := by
  intro i other at_i
  rw [wrote.table]
  rcases Nat.lt_trichotomy i pages.length with inside | rfl | beyond
  · rw [List.getElem?_append_left inside] at at_i
    rw [Function.update_of_ne]
    · exact placed i other at_i
    · intro same
      exact new (same ▸ List.mem_of_getElem? at_i)
  · rw [List.getElem?_concat_length] at at_i
    rw [← Option.some.inj at_i, Function.update_self]
  · rw [List.getElem?_eq_none (by simpa using Nat.succ_le_of_lt beyond)] at at_i
    cases at_i

/-- Frames once shared stay shared: a mapped page keeps its frame. -/
theorem Wrote.shares (wrote : Wrote page frame data state next)
    (kept : state.pageTable page ≠ -1 → state.pageTable page = frame) (shares : Shares state) :
    Shares next := by
  have same : ∀ other : Nat, state.pageTable other ≠ -1 →
      next.pageTable other = state.pageTable other := by
    intro other present
    rw [wrote.table]
    by_cases equal : other = page
    · subst equal
      rw [Function.update_self, kept present]
    · rw [Function.update_of_ne equal]
  rcases shares with ⟨first, second, apart, present, shared⟩
  refine ⟨first, second, apart, ?_, ?_⟩
  · rwa [same first present]
  · rw [same first present, same second (shared ▸ present), shared]

end Table

/-! ## Runs -/

theorem reached_init {allocated : Option Memory} {opened : Option File} {truncated : Bool}
    {start : State} (started : initVirtualMemory allocated opened truncated = some start) :
    Reached start.swapFd [] start ∧ start.swapFd.size = swapSize := by
  cases allocated with
  | none => cases started
  | some physicalMemory =>
      cases opened with
      | none => cases started
      | some file =>
          cases truncated with
          | false => cases started
          | true =>
              cases started
              constructor
              · constructor
                · rfl
                · constructor
                  · intro page _
                    rfl
                  · intro page member
                    cases member
                · intro _ i page at_i
                  cases at_i
                · intro _ page
                  have size : (file.ftruncate swapSize).size = swapSize := rfl
                  simp only [readPage, ne_eq, not_true_eq_false, if_false,
                    readPageAt_of_size size, Store.after, List.foldl_nil]
                · intro broken
                  exact absurd rfl broken
              · rfl

section Steps

variable {file : File} {past : List Call} {state : State}

theorem Store.after_append_singleton (store : Store) (past : List Call) (input : Call) :
    store.after (past ++ [input]) = (store.after past).call input := by
  simp only [Store.after, List.foldl_append, List.foldl_cons, List.foldl_nil]

theorem Reached.readPage_isSome (reached : Reached file past state)
    (size : file.size = swapSize) (page : Fin numPages) :
    ∃ contents, readPage state page = some contents := by
  by_cases present : state.pageTable page = -1
  · refine ⟨swapStore file page, ?_⟩
    rw [readPage, if_neg (not_not_intro present), reached.swapFd, readPageAt_of_size size]
  · exact ⟨_, if_pos present⟩

theorem Reached.read (reached : Reached file past state) (size : file.size = swapSize)
    (page : Fin numPages) :
    ∃ next, call state (.read page) = some next ∧ Reached file (past ++ [.read page]) next := by
  rcases reached.readPage_isSome size page with ⟨contents, result⟩
  refine ⟨state, by rw [call, result, Option.map_some], ?_⟩
  have same := firstWritten_read past page
  constructor
  · exact reached.swapFd
  · rw [same]
    exact reached.mapped
  · rw [same]
    exact reached.placed
  · rw [same, Store.after_append_singleton]
    exact reached.reads
  · rw [same]
    exact reached.shares

/-- A write to a page that is mapped. -/
theorem Reached.write_old (reached : Reached file past state) {page : Fin numPages}
    (data : Page) (old : (page : Nat) ∈ firstWritten past) :
    ∃ next, call state (.write page data) = some next ∧
      Reached file (past ++ [.write page data]) next := by
  have bound := (reached.mapped.mapped page old).2
  have frame := (Int.toNat_of_nonneg bound).symm
  rcases writePage_mapped data frame with ⟨next, result, wrote⟩
  refine ⟨next, result, ?_⟩
  have same : firstWritten (past ++ [.write page data]) = firstWritten past := by
    rw [firstWritten_write, if_pos old]
  have table : next.pageTable = state.pageTable := by
    rw [wrote.table, ← frame, Function.update_eq_self]
  have placed : Ascending (firstWritten past) → Placed (firstWritten past) next := by
    intro ascending i other at_i
    rw [table]
    exact reached.placed ascending i other at_i
  have mapped := wrote.mapped_old reached.mapped old
  constructor
  · rw [wrote.swapFd, reached.swapFd]
  · rwa [same]
  · rwa [same]
  · rw [same, Store.after_append_singleton]
    intro ascending
    apply wrote.reads reached.mapped.frames
    · exact (placed ascending).distinct mapped
    · exact reached.reads ascending
  · rw [same]
    intro broken
    exact wrote.shares (fun _ => frame) (reached.shares broken)

/-- The first write to a page while all pages so far came in order. -/
theorem Reached.write_next (reached : Reached file past state) (size : file.size = swapSize)
    {page : Fin numPages} (data : Page) (new : (page : Nat) ∉ firstWritten past)
    (inOrder : firstWritten past = List.range (firstWritten past).length) :
    ∃ next, call state (.write page data) = some next ∧
      Reached file (past ++ [.write page data]) next := by
  have ascending : Ascending (firstWritten past) := by
    rw [inOrder]
    exact ascending_range _
  have search : firstIndex state.pageTable (-1) 0 numPages = some (firstWritten past).length := by
    apply search_eq reached.mapped _ _ new
    · intro i inside
      rw [inOrder]
      exact List.mem_range.mpr inside
    · rw [inOrder, List.length_range]
      exact List.not_mem_range_self
  rcases writePage_unmapped data (reached.mapped.unmapped page new) search
    (reached.swapFd ▸ size) with ⟨next, result, wrote⟩
  refine ⟨next, result, ?_⟩
  have grown : firstWritten (past ++ [.write page data]) = firstWritten past ++ [(page : Nat)] := by
    rw [firstWritten_write, if_neg new]
  have mapped := wrote.mapped_new reached.mapped
  have placed := wrote.placed_new (reached.placed ascending) new
  constructor
  · rw [wrote.swapFd, reached.swapFd]
  · rwa [grown]
  · intro _
    rwa [grown]
  · intro _
    rw [Store.after_append_singleton]
    exact wrote.reads reached.mapped.frames (placed.distinct mapped) (reached.reads ascending)
  · intro broken
    rw [grown, ascending_append_singleton] at broken
    exact absurd inOrder broken

/-- A first write to a page after one came out of order takes a frame another page
already has, or leaves two pages that share one as they are. -/
theorem Reached.shared_frame (reached : Reached file past state) {page : Fin numPages}
    (data : Page) (new : (page : Nat) ∉ firstWritten past)
    (out : firstWritten past ≠ List.range (firstWritten past).length) :
    ∃ frame : Nat, firstIndex state.pageTable (-1) 0 numPages = some frame ∧
      ∀ next, Wrote page frame data state next → Shares next := by
  have unmapped := reached.mapped.unmapped page new
  by_cases ascending : Ascending (firstWritten past)
  · rcases ascending.split out with ⟨count, last, pages, apart⟩
    have member : last ∈ firstWritten past := by
      rw [pages]
      exact List.mem_append_right _ (List.mem_singleton_self last)
    refine ⟨count, search_eq reached.mapped ?_ ?_ new, ?_⟩
    · intro i inside
      rw [pages]
      exact List.mem_append_left _ (List.mem_range.mpr inside)
    · rw [pages, List.mem_append, List.mem_singleton, List.mem_range]
      omega
    · intro next wrote
      have frame : state.pageTable last = count := by
        apply reached.placed ascending count last
        rw [pages, List.getElem?_append_right (by simp)]
        simp
      have different : last ≠ page := by
        rintro rfl
        exact new member
      refine ⟨page, ⟨last, (reached.mapped.mapped last member).1⟩, ?_, ?_, ?_⟩
      · intro same
        exact different (congrArg Fin.val same).symm
      · rw [wrote.table, Function.update_self]
        omega
      · rw [wrote.table, Function.update_self, Function.update_of_ne different, frame]
  · rcases exists_firstIndex page.isLt unmapped with ⟨frame, search⟩
    refine ⟨frame, search, ?_⟩
    intro next wrote
    exact wrote.shares (fun present => absurd unmapped present) (reached.shares ascending)

/-- The first write to a page after one came out of order: the two share a
frame. -/
theorem Reached.write_clash (reached : Reached file past state) (size : file.size = swapSize)
    {page : Fin numPages} (data : Page) (new : (page : Nat) ∉ firstWritten past)
    (out : firstWritten past ≠ List.range (firstWritten past).length) :
    ∃ next, call state (.write page data) = some next ∧
      Reached file (past ++ [.write page data]) next := by
  have unmapped := reached.mapped.unmapped page new
  have grown : firstWritten (past ++ [.write page data]) = firstWritten past ++ [(page : Nat)] := by
    rw [firstWritten_write, if_neg new]
  have broken : ¬ Ascending (firstWritten (past ++ [.write page data])) := by
    rw [grown, ascending_append_singleton]
    exact out
  rcases reached.shared_frame data new out with ⟨frame, search, shares⟩
  rcases writePage_unmapped data unmapped search (reached.swapFd ▸ size) with
    ⟨next, result, wrote⟩
  refine ⟨next, result, ?_⟩
  constructor
  · rw [wrote.swapFd, reached.swapFd]
  · rw [grown]
    exact wrote.mapped_new reached.mapped
  · intro ascending
    exact absurd ascending broken
  · intro ascending
    exact absurd ascending broken
  · intro _
    exact shares next wrote

/-- Step lemma: no call exits, and each keeps the invariant. -/
theorem Reached.call (reached : Reached file past state) (size : file.size = swapSize)
    (input : Call) :
    ∃ next, call state input = some next ∧ Reached file (past ++ [input]) next := by
  cases input with
  | read page => exact reached.read size page
  | write page data =>
      by_cases old : (page : Nat) ∈ firstWritten past
      · exact reached.write_old data old
      · by_cases inOrder : firstWritten past = List.range (firstWritten past).length
        · exact reached.write_next size data old inOrder
        · exact reached.write_clash size data old inOrder

end Steps

/-- Run lemma: every sequence of calls runs to its end. -/
theorem exists_reached {allocated : Option Memory} {opened : Option File} {truncated : Bool}
    {start : State} (started : initVirtualMemory allocated opened truncated = some start)
    (calls : List Call) :
    ∃ state, exec call start calls = some state ∧ Reached start.swapFd calls state := by
  rcases reached_init started with ⟨initially, size⟩
  apply exec_always (Reached start.swapFd) initially
  intro past input state reached
  exact reached.call size input

/-- After every part of a run, each page reads as its latest write left it and
no two mapped pages share a frame, exactly when the pages were first written in
ascending order from page 0, the last new page apart. -/
theorem reads_latest_iff_ascending {allocated : Option Memory} {opened : Option File}
    {truncated : Bool} {start : State}
    (started : initVirtualMemory allocated opened truncated = some start) (calls : List Call) :
    (∀ past, past <+: calls → ∃ state, exec call start past = some state ∧
      Reads state ((swapStore start.swapFd).after past) ∧ FramesDistinct state) ↔
    Ascending (firstWritten calls) := by
  constructor
  · intro property
    rcases property calls (List.prefix_refl calls) with ⟨state, ran, _, distinct⟩
    rcases exists_reached started calls with ⟨final, again, reached⟩
    rw [ran] at again
    cases again
    by_contra broken
    exact (reached.shares broken).not_distinct distinct
  · rintro ascending past ⟨rest, rfl⟩
    rcases firstWritten_append past rest with ⟨later, split⟩
    rw [split] at ascending
    have before := ascending_of_append ascending
    rcases exists_reached started past with ⟨state, ran, reached⟩
    exact ⟨state, ran, reached.reads before, (reached.placed before).distinct reached.mapped⟩

/-! ## Two pages out of order -/

/-- A page that holds one byte throughout. -/
def filled (byte : BitVec 8) : Page :=
  ⟨List.replicate pageSize byte, List.length_replicate⟩

/-- Freshly allocated memory, an empty swap file. -/
def start : State where
  pageTable := fun _ => -1
  physicalMemory := fun _ => 0#8
  swapFd := File.ftruncate ⟨fun _ => 0#8, 0⟩ swapSize

theorem init_start :
    initVirtualMemory (some fun _ => 0#8) (some ⟨fun _ => 0#8, 0⟩) true = some start :=
  rfl

theorem filled_ne {first second : BitVec 8} (apart : first ≠ second) :
    filled first ≠ filled second := by
  intro same
  have head := congrArg (fun page : Page => page.val.head?) same
  simp only [filled, pageSize, List.head?_replicate] at head
  exact apart (Option.some.inj head)

/-- The demo of the source writes pages 0, 1 and 2 in this order. -/
theorem reads_latest_zero_one_two :
    initVirtualMemory (some fun _ => 0#8) (some ⟨fun _ => 0#8, 0⟩) true = some start ∧
    ∀ past, past <+: [Call.write 0 (filled 1#8), .write 1 (filled 2#8), .write 2 (filled 3#8)] →
      ∃ state, exec call start past = some state ∧
        Reads state ((swapStore start.swapFd).after past) ∧ FramesDistinct state :=
  ⟨init_start, (reads_latest_iff_ascending init_start _).mpr (by decide)⟩

/-- Page 1 written before page 0, then page 2: both get frame 0 and page 1 reads
the data of page 2. -/
theorem write_one_then_two_shared :
    initVirtualMemory (some fun _ => 0#8) (some ⟨fun _ => 0#8, 0⟩) true = some start ∧
    ∃ state,
      exec call start [.write 1 (filled 1#8), .write 2 (filled 2#8)] = some state ∧
      readPage state (1 : Fin numPages) = some (filled 2#8) ∧ ¬ FramesDistinct state ∧
      (swapStore start.swapFd).after [.write 1 (filled 1#8), .write 2 (filled 2#8)] 1 ≠
        filled 2#8 := by
  have first : firstIndex start.pageTable (-1) 0 numPages = some 0 := rfl
  have free : start.pageTable (1 : Fin numPages) = -1 := rfl
  rcases writePage_unmapped (filled 1#8) free first rfl with
    ⟨middle, firstResult, firstWrote⟩
  have second : firstIndex middle.pageTable (-1) 0 numPages = some 0 := by
    rw [firstWrote.table]
    rfl
  have unmapped : middle.pageTable (2 : Fin numPages) = -1 := by
    rw [firstWrote.table]
    rfl
  have size : middle.swapFd.size = swapSize := by
    rw [firstWrote.swapFd]
    rfl
  rcases writePage_unmapped (filled 2#8) unmapped second size with
    ⟨state, secondResult, secondWrote⟩
  have oneFrame : state.pageTable (1 : Fin numPages) = 0 := by
    rw [secondWrote.table, firstWrote.table]
    rfl
  have twoFrame : state.pageTable (2 : Fin numPages) = 0 := by
    rw [secondWrote.table]
    rfl
  have present : state.pageTable (1 : Fin numPages) ≠ -1 := by
    rw [oneFrame]
    decide
  refine ⟨init_start, state, ?_, ?_, ?_, ?_⟩
  · simp only [exec, call, firstResult, secondResult, Option.bind_some]
  · rw [readPage, if_pos present]
    simp only [oneFrame]
    exact congrArg some (Subtype.ext secondWrote.stored)
  · intro distinct
    have same := distinct 1 2 present (oneFrame.trans twoFrame.symm)
    exact absurd same (by decide)
  · apply filled_ne
    decide

end ComputerSystems.SwapFile

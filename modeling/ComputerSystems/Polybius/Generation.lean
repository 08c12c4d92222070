import ComputerSystems.Loop.While
import ComputerSystems.Polybius.RoundTrip

/-!
# Generating a table

`generateTable` and `randomInt` of `A2/polybius.c`. The values that `rand`
returns are a sequence, read one after another; what `malloc` returns is a table
with any characters. Whatever the values are, a table that is returned has each
letter of the alphabet in one cell.
-/

namespace ComputerSystems.Polybius

open Loop

/-- The character that ends a string and marks a letter as used. -/
def nul : Char := '\x00'

/-- `randomInt` on the value that `rand` returned. -/
def randomInt (r min max : Nat) : Nat := r % max + min

/-- The copy of the alphabet, the table, and the number of calls of `rand`. -/
structure Filling where
  tmp : List Char
  table : Table
  drawn : Nat

/-- The state before the first cell: an array with a string has its terminator. -/
def Filling.start (fresh : Table) : Filling where
  tmp := alphabet ++ [nul]
  table := fresh
  drawn := 0

/-- `table[position] = tmp[r]; tmp[r] = 0;`. -/
def Filling.take (state : Filling) (position : Fin (tableWidth * tableWidth)) (r : Nat)
    (letter : Char) : Filling where
  tmp := state.tmp.set r nul
  table := Function.update state.table position letter
  drawn := state.drawn + 1

/-- The loop that draws the letter of one cell. -/
def drawLetter (rand : Nat → Nat) (position : Fin (tableWidth * tableWidth)) :
    Nat → Filling → Outcome Filling
  | 0, _ => .running
  | fuel + 1, state =>
      let r := randomInt (rand state.drawn) 0 25
      match state.tmp[r]? with
      | none => .crash
      | some letter =>
          if letter ≠ nul then
            .done (state.take position r letter)
          else
            drawLetter rand position fuel { state with drawn := state.drawn + 1 }

/-- The cells of one row. -/
def fillRow (rand : Nat → Nat) (fuel : Nat) (state : Filling) (i : Fin tableWidth) :
    Outcome Filling :=
  (List.finRange tableWidth).foldlM (fun state j => drawLetter rand (cell i j) fuel state) state

/-- `generateTable`. -/
def generateTable (rand : Nat → Nat) (fresh : Table) (fuel : Nat) : Outcome Table :=
  ((List.finRange tableWidth).foldlM (fillRow rand fuel) (.start fresh)).map Filling.table

/-! ## The letters left -/

/-- The letters of the copy that are not used. -/
def Filling.left (state : Filling) : List Char := state.tmp.filter (· ≠ nul)

/-- The letters in the cells passed over and the letters left are the alphabet. -/
structure Filling.Shares (visited : List (Fin (tableWidth * tableWidth))) (state : Filling) :
    Prop where
  length_tmp : state.tmp.length = 26
  perm : (visited.map state.table ++ state.left).Perm alphabet

theorem randomInt_lt (r : Nat) : randomInt r 0 25 < 26 := by
  rw [randomInt]
  omega

theorem start_shares (fresh : Table) : (Filling.start fresh).Shares [] where
  length_tmp := rfl
  perm := by
    have letters : (alphabet ++ [nul]).filter (· ≠ nul) = alphabet := by decide
    rw [List.map_nil, List.nil_append, Filling.left, Filling.start, letters]

/-- Erasing a letter removes it from the letters left. -/
theorem perm_left_take {state : Filling} {r : Nat} {letter : Char}
    (position : Fin (tableWidth * tableWidth)) (drawn : state.tmp[r]? = some letter)
    (unused : letter ≠ nul) :
    state.left.Perm (letter :: (state.take position r letter).left) := by
  rcases List.getElem?_eq_some_iff.mp drawn with ⟨inside, here⟩
  have split := List.take_append_drop r state.tmp
  rw [List.drop_eq_getElem_cons inside, here] at split
  have erased : (state.take position r letter).tmp =
      state.tmp.take r ++ nul :: state.tmp.drop (r + 1) :=
    List.set_eq_take_append_cons_drop.trans (if_pos inside)
  generalize state.tmp.take r = front at split erased
  generalize state.tmp.drop (r + 1) = back at split erased
  rw [Filling.left, Filling.left, erased, ← split, List.filter_append, List.filter_append,
    List.filter_cons_of_pos (by simpa using unused), List.filter_cons_of_neg (by simp)]
  exact List.perm_middle

theorem Filling.Shares.take {visited : List (Fin (tableWidth * tableWidth))} {state : Filling}
    {position : Fin (tableWidth * tableWidth)} {r : Nat} {letter : Char}
    (shares : state.Shares visited) (fresh : position ∉ visited)
    (drawn : state.tmp[r]? = some letter) (unused : letter ≠ nul) :
    (state.take position r letter).Shares (visited ++ [position]) where
  length_tmp := by
    rw [Filling.take, List.length_set, shares.length_tmp]
  perm := by
    have others : visited.map (state.take position r letter).table = visited.map state.table := by
      apply List.map_congr_left
      intro other member
      exact Function.update_of_ne (ne_of_mem_of_not_mem member fresh) _ _
    have here : (state.take position r letter).table position = letter := by
      simp only [Filling.take, Function.update_self]
    have moved := (perm_left_take position drawn unused).append_left (visited.map state.table)
    rw [List.map_append, others, List.map_singleton, here, List.append_assoc]
    exact moved.symm.trans shares.perm

/-- Whatever is drawn, the letter of a cell is one that was left. -/
theorem drawLetter_ensures (rand : Nat → Nat) {visited : List (Fin (tableWidth * tableWidth))}
    {position : Fin (tableWidth * tableWidth)} (fresh : position ∉ visited) (fuel : Nat)
    {state : Filling} (shares : state.Shares visited) :
    (drawLetter rand position fuel state).Ensures (Filling.Shares (visited ++ [position])) := by
  induction fuel generalizing state with
  | zero => trivial
  | succ fuel ih =>
      rw [drawLetter]
      have inside : randomInt (rand state.drawn) 0 25 < state.tmp.length := by
        rw [shares.length_tmp]
        exact randomInt_lt _
      have drawn := List.getElem?_eq_getElem inside
      generalize state.tmp[randomInt (rand state.drawn) 0 25] = letter at drawn
      simp only [drawn]
      by_cases unused : letter ≠ nul
      · rw [if_pos unused]
        exact shares.take fresh drawn unused
      · rw [if_neg unused]
        exact ih ⟨shares.length_tmp, shares.perm⟩

/-! ## The rows -/

/-- The cells of a row, in the order of the columns. -/
def row (columns : List (Fin tableWidth)) (i : Fin tableWidth) :
    List (Fin (tableWidth * tableWidth)) :=
  columns.map (cell i)

/-- A loop over a range meets an index once. -/
theorem notMem_of_finRange {n : Nat} {before after : List (Fin n)} {k : Fin n}
    (split : [] ++ List.finRange n = before ++ k :: after) : k ∉ before := by
  have nodup := List.nodup_finRange n
  rw [← List.nil_append (List.finRange n), split, List.nodup_middle] at nodup
  intro member
  exact (List.nodup_cons.mp nodup).1 (List.mem_append_left after member)

theorem fillRow_ensures (rand : Nat → Nat) (fuel : Nat) {rows : List (Fin tableWidth)}
    {i : Fin tableWidth} (fresh : i ∉ rows) {state : Filling}
    (shares : state.Shares (rows.flatMap (row (List.finRange tableWidth)))) :
    (fillRow rand fuel state i).Ensures
      (Filling.Shares ((rows ++ [i]).flatMap (row (List.finRange tableWidth)))) := by
  have initially : state.Shares (rows.flatMap (row (List.finRange tableWidth)) ++ row [] i) := by
    rwa [row, List.map_nil, List.append_nil]
  have filled := ensures_foldlM (fun state j => drawLetter rand (cell i j) fuel state)
    (fun columns state =>
      state.Shares (rows.flatMap (row (List.finRange tableWidth)) ++ row columns i))
    [] (List.finRange tableWidth) initially ?_
  · rw [List.flatMap_append, List.flatMap_singleton]
    exact filled
  · intro before j after current split shares
    have once := notMem_of_finRange split
    have unvisited : cell i j ∉
        rows.flatMap (row (List.finRange tableWidth)) ++ row before i := by
      rw [List.mem_append, List.mem_flatMap]
      rintro (⟨k, member, same⟩ | same)
      · rcases List.mem_map.mp same with ⟨l, _, same⟩
        rw [(cell_injective same).1] at member
        exact fresh member
      · rcases List.mem_map.mp same with ⟨l, member, same⟩
        rw [(cell_injective same).2] at member
        exact once member
    have next := drawLetter_ensures rand unvisited fuel shares
    rwa [row, List.map_append, List.map_singleton, ← row, ← List.append_assoc]

/-- The nested loops pass over every cell. -/
theorem flatMap_row :
    (List.finRange tableWidth).flatMap (row (List.finRange tableWidth)) =
      List.finRange (tableWidth * tableWidth) := by
  decide

/-- When every cell is filled no letter is left. -/
theorem Filling.Shares.perm_table {state : Filling}
    (shares : state.Shares (List.finRange (tableWidth * tableWidth))) :
    (List.ofFn state.table).Perm alphabet := by
  have perm := shares.perm
  rw [← List.ofFn_eq_map] at perm
  have lengths := perm.length_eq
  rw [List.length_append, List.length_ofFn, show alphabet.length = tableWidth * tableWidth from rfl,
    Nat.add_eq_left, List.length_eq_zero_iff] at lengths
  rwa [lengths, List.append_nil] at perm

/-- The calls of `rand` stay inside the copy of the alphabet, and a table that is
returned is a permutation of it. -/
theorem generateTable_ensures (rand : Nat → Nat) (fresh : Table) (fuel : Nat) :
    (generateTable rand fresh fuel).Ensures fun table => (List.ofFn table).Perm alphabet := by
  have filled := ensures_foldlM (fillRow rand fuel)
    (fun rows state => state.Shares (rows.flatMap (row (List.finRange tableWidth))))
    [] (List.finRange tableWidth) (start_shares fresh) ?_
  · rw [List.nil_append, flatMap_row] at filled
    exact filled.map fun state shares => shares.perm_table
  · intro before i after current split shares
    exact fillRow_ensures rand fuel (notMem_of_finRange split) shares

/-- The letters that are drawn make a square. -/
theorem generateTable_square {rand : Nat → Nat} {fresh table : Table}
    (returns : Completes (generateTable rand fresh) table) :
    ∃ square : Square, square.table = table := by
  have perm := Outcome.Ensures.of_completes (generateTable_ensures rand fresh) returns
  exact ⟨⟨table, perm⟩, rfl⟩

/-- Every letter of the alphabet is in exactly one cell of a table that
`generateTable` returns, and no cell holds the mark of a used letter. -/
theorem generateTable_permutation (rand : Nat → Nat) (fresh table : Table)
    (returns : Completes (generateTable rand fresh) table) :
    (List.ofFn table).Perm alphabet ∧
      (∀ letter ∈ alphabet, ∃! position, table position = letter) ∧
      ∀ position, table position ∈ alphabet ∧ table position ≠ nul := by
  rcases generateTable_square returns with ⟨square, rfl⟩
  have held : ∀ position, square.table position ∈ alphabet := by
    intro position
    rw [← square.perm.mem_iff, List.mem_ofFn]
    exact ⟨position, rfl⟩
  refine ⟨square.perm, ?_, ?_⟩
  · intro letter member
    rcases List.mem_ofFn.mp (square.perm.mem_iff.mpr member) with ⟨position, here⟩
    refine ⟨position, here, ?_⟩
    intro other same
    exact square.injective (same.trans here.symm)
  · intro position
    refine ⟨held position, ?_⟩
    intro terminator
    have member := held position
    rw [terminator] at member
    exact absurd member (by decide)

/-- With `0, 1, 2, …` from `rand` the table has the letters in their order. -/
theorem generateTable_in_order :
    Completes (generateTable (fun k => k) fun _ => nul) (default : Square).table := by
  have run : ∃ table, generateTable (fun k => k) (fun _ => nul) 1 = .done table ∧
      ∀ position, table position = (default : Square).table position :=
    ⟨_, rfl, by decide⟩
  rcases run with ⟨table, done, cells⟩
  rw [← funext cells]
  exact ⟨1, done⟩

theorem generateTable_permutation_in_order :
    (List.ofFn (default : Square).table).Perm alphabet ∧
      (∀ letter ∈ alphabet, ∃! position, (default : Square).table position = letter) ∧
      ∀ position, (default : Square).table position ∈ alphabet ∧
        (default : Square).table position ≠ nul :=
  generateTable_permutation (fun k => k) (fun _ => nul) _ generateTable_in_order

end ComputerSystems.Polybius

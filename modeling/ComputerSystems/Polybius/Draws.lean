import Mathlib.Data.Finset.Card
import ComputerSystems.Polybius.Generation

/-!
# Which tables are generated, and when

`generateTable` draws until every letter was drawn once. It returns exactly when each
remainder by 25 comes up among the values of `rand`; the table has the letters in the order
of their first draw, and every square is the table of some values.
-/

namespace ComputerSystems.Polybius

open Loop

/-- The letter at a position of the alphabet. -/
def letterAt (r : Nat) : Char := alphabet.getD r nul

/-- The different positions among the first draws, in the order of their first draw. -/
def draws (rand : Nat → Nat) : Nat → List Nat
  | 0 => []
  | n + 1 =>
      if randomInt (rand n) 0 25 ∈ draws rand n then
        draws rand n
      else
        draws rand n ++ [randomInt (rand n) 0 25]

section Draws

variable {rand : Nat → Nat} {n r : Nat}

theorem draws_again (again : randomInt (rand n) 0 25 ∈ draws rand n) :
    draws rand (n + 1) = draws rand n :=
  if_pos again

theorem draws_first (first : randomInt (rand n) 0 25 ∉ draws rand n) :
    draws rand (n + 1) = draws rand n ++ [randomInt (rand n) 0 25] :=
  if_neg first

theorem mem_draws_iff : r ∈ draws rand n ↔ ∃ k, k < n ∧ rand k % 25 = r := by
  induction n with
  | zero => simp [draws]
  | succ n ih =>
      have last : (∃ k, k < n + 1 ∧ rand k % 25 = r) ↔
          (∃ k, k < n ∧ rand k % 25 = r) ∨ rand n % 25 = r := by
        simp only [Nat.lt_succ_iff_lt_or_eq, or_and_right, exists_or, exists_eq_left]
      rw [last, ← ih]
      by_cases again : randomInt (rand n) 0 25 ∈ draws rand n
      · rw [draws_again again, iff_self_or]
        rintro rfl
        exact again
      · rw [draws_first again, List.mem_append, List.mem_singleton]
        exact or_congr_right eq_comm

theorem nodup_draws (rand : Nat → Nat) (n : Nat) : (draws rand n).Nodup := by
  induction n with
  | zero => exact List.nodup_nil
  | succ n ih =>
      by_cases again : randomInt (rand n) 0 25 ∈ draws rand n
      · rwa [draws_again again]
      · rw [draws_first again, List.nodup_append_comm]
        exact List.nodup_cons.mpr ⟨again, ih⟩

theorem draws_subset_range (rand : Nat → Nat) (n : Nat) : draws rand n ⊆ List.range 25 := by
  intro r member
  rcases mem_draws_iff.mp member with ⟨k, _, rfl⟩
  exact List.mem_range.mpr (Nat.mod_lt _ (by decide))

/-- Until every position was drawn one is left. -/
theorem exists_undrawn (few : (draws rand n).length < 25) : ∃ r, r < 25 ∧ r ∉ draws rand n := by
  by_contra all
  push Not at all
  have covered : List.range 25 ⊆ draws rand n := fun r member => all r (List.mem_range.mp member)
  have bound := (List.nodup_range.subperm covered).length_le
  rw [List.length_range] at bound
  omega

/-- When as many positions as there are were drawn, all were. -/
theorem mem_draws_of_length (all : (draws rand n).length = 25) (inside : r < 25) :
    r ∈ draws rand n := by
  have perm := ((nodup_draws rand n).subperm (draws_subset_range rand n)).perm_of_length_le
    (by rw [all, List.length_range])
  exact perm.mem_iff.mpr (List.mem_range.mpr inside)

end Draws

/-! ## One cell -/

/-- The copy of the alphabet and the cells passed over, after some draws. -/
structure Filling.Follows (rand : Nat → Nat) (visited : List (Fin (tableWidth * tableWidth)))
    (state : Filling) : Prop where
  letters : ∀ r, r < 25 → state.tmp[r]? =
    some (if r ∈ draws rand state.drawn then nul else letterAt r)
  table : visited.map state.table = (draws rand state.drawn).map letterAt

theorem letterAt_ne_nul {r : Nat} (inside : r < 25) : letterAt r ≠ nul := by
  revert r
  decide

theorem start_follows (rand : Nat → Nat) (fresh : Table) :
    (Filling.start fresh).Follows rand [] where
  letters := by
    intro r inside
    have letters : ∀ r, r < 25 → (alphabet ++ [nul])[r]? = some (letterAt r) := by decide
    exact letters r inside
  table := rfl

section Cell

variable {rand : Nat → Nat} {visited : List (Fin (tableWidth * tableWidth))}
  {position : Fin (tableWidth * tableWidth)} {state : Filling}

theorem Filling.Follows.length_draws (follows : state.Follows rand visited) :
    (draws rand state.drawn).length = visited.length := by
  have lengths := congrArg List.length follows.table
  rwa [List.length_map, List.length_map, eq_comm] at lengths

/-- A position that was drawn before changes nothing. -/
theorem Filling.Follows.skip (follows : state.Follows rand visited)
    (again : randomInt (rand state.drawn) 0 25 ∈ draws rand state.drawn) :
    Filling.Follows rand visited { state with drawn := state.drawn + 1 } where
  letters := by
    simp only [draws_again again]
    exact follows.letters
  table := by
    simp only [draws_again again]
    exact follows.table

theorem Filling.Follows.take (follows : state.Follows rand visited) (fresh : position ∉ visited)
    (first : randomInt (rand state.drawn) 0 25 ∉ draws rand state.drawn) :
    Filling.Follows rand (visited ++ [position])
      (state.take position (randomInt (rand state.drawn) 0 25)
        (letterAt (randomInt (rand state.drawn) 0 25))) where
  letters := by
    intro r inside
    have before := follows.letters r inside
    simp only [Filling.take, draws_first first, List.mem_append, List.mem_singleton]
    by_cases here : r = randomInt (rand state.drawn) 0 25
    · have room := (List.getElem?_eq_some_iff.mp before).1
      rw [if_pos (Or.inr here), ← here, List.getElem?_set_self room]
    · rw [List.getElem?_set_ne (Ne.symm here), before]
      simp only [here, or_false]
  table := by
    have others : visited.map (Function.update state.table position
        (letterAt (randomInt (rand state.drawn) 0 25))) = visited.map state.table := by
      apply List.map_congr_left
      intro other member
      exact Function.update_of_ne (ne_of_mem_of_not_mem member fresh) _ _
    simp only [Filling.take, draws_first first, List.map_append, others, follows.table,
      List.map_singleton, Function.update_self]

/-- One draw: the letter is taken at its first draw. -/
theorem drawLetter_succ (follows : state.Follows rand visited) (fuel : Nat) :
    drawLetter rand position (fuel + 1) state =
      if randomInt (rand state.drawn) 0 25 ∈ draws rand state.drawn then
        drawLetter rand position fuel { state with drawn := state.drawn + 1 }
      else
        .done (state.take position (randomInt (rand state.drawn) 0 25)
          (letterAt (randomInt (rand state.drawn) 0 25))) := by
  have inside : randomInt (rand state.drawn) 0 25 < 25 := Nat.mod_lt _ (by decide)
  rw [drawLetter]
  simp only [follows.letters _ inside]
  by_cases again : randomInt (rand state.drawn) 0 25 ∈ draws rand state.drawn
  · simp only [if_pos again, ne_eq, not_true_eq_false, if_false]
  · simp only [if_neg again, if_pos (letterAt_ne_nul inside)]

theorem drawLetter_follows (follows : state.Follows rand visited) (fresh : position ∉ visited)
    (fuel : Nat) :
    (drawLetter rand position fuel state).Ensures
      (Filling.Follows rand (visited ++ [position])) := by
  induction fuel generalizing state with
  | zero => trivial
  | succ fuel ih =>
      rw [drawLetter_succ follows]
      split
      · rename_i again
        exact ih (follows.skip again)
      · rename_i first
        exact follows.take fresh first

/-- A position not drawn so far that comes up later ends the loop. -/
theorem drawLetter_completes (follows : state.Follows rand visited) (wait : Nat)
    (comes : randomInt (rand (state.drawn + wait)) 0 25 ∉ draws rand state.drawn) :
    ∃ next, Completes (fun fuel => drawLetter rand position fuel state) next := by
  induction wait generalizing state with
  | zero => exact ⟨_, 1, (drawLetter_succ follows 0).trans (if_neg comes)⟩
  | succ wait ih =>
      by_cases again : randomInt (rand state.drawn) 0 25 ∈ draws rand state.drawn
      · have later : randomInt (rand (state.drawn + 1 + wait)) 0 25 ∉
            draws rand (state.drawn + 1) := by
          rwa [draws_again again, Nat.add_assoc, Nat.add_comm 1 wait]
        rcases ih (follows.skip again) later with ⟨next, fuel, done⟩
        exact ⟨next, fuel + 1, (drawLetter_succ follows fuel).trans ((if_pos again).trans done)⟩
      · exact ⟨_, 1, (drawLetter_succ follows 0).trans (if_neg again)⟩

end Cell

theorem drawLetter_stable (rand : Nat → Nat) (position : Fin (tableWidth * tableWidth))
    (state : Filling) : Stable fun fuel => drawLetter rand position fuel state := by
  intro fuel more finished
  induction fuel generalizing state with
  | zero => exact absurd rfl finished
  | succ fuel ih =>
      rw [Nat.add_right_comm]
      simp only [drawLetter] at finished ⊢
      cases drawn : state.tmp[randomInt (rand state.drawn) 0 25]? with
      | none => rfl
      | some letter =>
          simp only [drawn] at finished ⊢
          by_cases unused : letter ≠ nul
          · rw [if_pos unused, if_pos unused]
          · rw [if_neg unused] at finished
            rw [if_neg unused, if_neg unused]
            exact ih _ finished

/-! ## All cells -/

/-- The nested loops as one loop over the cells. -/
def fillCells (rand : Nat → Nat) (fresh : Table) (fuel : Nat) : Outcome Filling :=
  (List.finRange (tableWidth * tableWidth)).foldlM
    (fun state position => drawLetter rand position fuel state) (.start fresh)

theorem generateTable_eq (rand : Nat → Nat) (fresh : Table) (fuel : Nat) :
    generateTable rand fresh fuel = (fillCells rand fresh fuel).map Filling.table := by
  rw [fillCells, ← flatMap_row, foldlM_flatMap]
  simp only [row, List.foldlM_map]
  rfl

/-- The cells of a table that is returned have the letters in the order of their first
draw. -/
theorem fillCells_follows (rand : Nat → Nat) (fresh : Table) (fuel : Nat) :
    (fillCells rand fresh fuel).Ensures
      (Filling.Follows rand (List.finRange (tableWidth * tableWidth))) := by
  have filled := ensures_foldlM (fun state position => drawLetter rand position fuel state)
    (fun visited state => state.Follows rand visited) []
    (List.finRange (tableWidth * tableWidth)) (start_follows rand fresh) ?_
  · exact filled
  · intro before position after state split follows
    exact drawLetter_follows follows (notMem_of_finRange split) fuel

/-- When every position comes up all cells are filled. -/
theorem fillCells_completes {rand : Nat → Nat} (fresh : Table)
    (comes : ∀ r, r < 25 → ∃ n, rand n % 25 = r) :
    ∃ final, Completes (fillCells rand fresh) final := by
  have all := exists_completes_foldlM (fun state position =>
      drawLetter_stable rand position state)
    (fun visited state => state.Follows rand visited) []
    (List.finRange (tableWidth * tableWidth)) (start_follows rand fresh) ?_
  · rcases all with ⟨final, completes, _⟩
    exact ⟨final, completes⟩
  · intro before position after state split follows
    have room : before.length < 25 := by
      have lengths := congrArg List.length split
      rw [List.nil_append, List.length_finRange, List.length_append, List.length_cons] at lengths
      have cells : tableWidth * tableWidth = 25 := rfl
      omega
    rw [← follows.length_draws] at room
    rcases exists_undrawn room with ⟨r, inside, undrawn⟩
    rcases comes r inside with ⟨n, rfl⟩
    have late : state.drawn ≤ n := by
      by_contra early
      exact undrawn (mem_draws_iff.mpr ⟨n, Nat.lt_of_not_le early, rfl⟩)
    obtain ⟨wait, rfl⟩ := Nat.exists_eq_add_of_le late
    rcases drawLetter_completes follows wait undrawn with ⟨next, completes⟩
    refine ⟨next, completes, ?_⟩
    exact Outcome.Ensures.of_completes
      (drawLetter_follows follows (notMem_of_finRange split)) completes

/-- What `generateTable` returns. -/
theorem completes_generateTable {rand : Nat → Nat} {fresh table : Table}
    (returns : Completes (generateTable rand fresh) table) :
    ∃ n, List.ofFn table = (draws rand n).map letterAt := by
  apply Outcome.Ensures.of_completes _ returns
  intro fuel
  rw [generateTable_eq]
  apply (fillCells_follows rand fresh fuel).map
  intro final follows
  exact ⟨final.drawn, by rw [List.ofFn_eq_map, follows.table]⟩

theorem generateTable_completes_iff (rand : Nat → Nat) (fresh : Table) :
    (∃ table, Completes (generateTable rand fresh) table) ↔
      ∀ r, r < 25 → ∃ n, rand n % 25 = r := by
  constructor
  · rintro ⟨table, returns⟩ r inside
    rcases completes_generateTable returns with ⟨n, letters⟩
    have all : (draws rand n).length = 25 := by
      have lengths := congrArg List.length letters
      rwa [List.length_map, List.length_ofFn, eq_comm] at lengths
    rcases mem_draws_iff.mp (mem_draws_of_length all inside) with ⟨k, _, drawn⟩
    exact ⟨k, drawn⟩
  · intro comes
    rcases fillCells_completes fresh comes with ⟨final, fuel, done⟩
    refine ⟨final.table, fuel, ?_⟩
    rw [generateTable_eq, done]
    rfl

/-! ## Every square is generated -/

/-- Different positions drawn first are drawn in this order. -/
theorem draws_eq_map {rand : Nat → Nat} {n : Nat} (inside : ∀ k, k < n → rand k < 25)
    (distinct : ∀ i j, i < n → j < n → rand i = rand j → i = j) :
    draws rand n = (List.range n).map rand := by
  induction n with
  | zero => rfl
  | succ n ih =>
      have before := ih (fun k early => inside k (Nat.lt_succ_of_lt early))
        fun i j first second => distinct i j (Nat.lt_succ_of_lt first) (Nat.lt_succ_of_lt second)
      have value : randomInt (rand n) 0 25 = rand n :=
        Nat.mod_eq_of_lt (inside n (Nat.lt_succ_self n))
      have first : randomInt (rand n) 0 25 ∉ draws rand n := by
        rw [value, before, List.mem_map]
        rintro ⟨k, member, same⟩
        have early := List.mem_range.mp member
        exact early.ne (distinct k n (Nat.lt_succ_of_lt early) (Nat.lt_succ_self n) same)
      rw [draws_first first, value, before, List.range_succ, List.map_append, List.map_singleton]

theorem draws_initial (rand : Nat → Nat) (n more : Nat) :
    draws rand n <+: draws rand (n + more) := by
  induction more with
  | zero => exact List.prefix_rfl
  | succ more ih =>
      apply ih.trans
      by_cases again : randomInt (rand (n + more)) 0 25 ∈ draws rand (n + more)
      · rw [← Nat.add_assoc, draws_again again]
      · rw [← Nat.add_assoc, draws_first again]
        exact List.prefix_append _ _

/-- Draws that are as many are the same. -/
theorem draws_unique {rand : Nat → Nat} {n m : Nat}
    (same : (draws rand n).length = (draws rand m).length) : draws rand n = draws rand m := by
  rcases Nat.le_total n m with earlier | later
  · obtain ⟨more, rfl⟩ := Nat.exists_eq_add_of_le earlier
    exact (draws_initial rand n more).eq_of_length same
  · obtain ⟨more, rfl⟩ := Nat.exists_eq_add_of_le later
    exact ((draws_initial rand m more).eq_of_length same.symm).symm

/-- Values of `rand` that draw the letters of a square in the order of its cells. -/
def drawing (square : Square) (n : Nat) : Nat :=
  alphabet.idxOf ((List.ofFn square.table).getD n nul)

theorem letterAt_idxOf {c : Char} (member : c ∈ alphabet) : letterAt (alphabet.idxOf c) = c := by
  have inside := List.idxOf_lt_length_iff.mpr member
  rw [letterAt, List.getD_eq_getElem _ _ inside, List.getElem_idxOf]

section Square

variable (square : Square)

theorem Square.getElem_mem {n : Nat} (inside : n < (List.ofFn square.table).length) :
    (List.ofFn square.table)[n] ∈ alphabet :=
  square.perm.subset (List.getElem_mem inside)

theorem drawing_of_lt {n : Nat} (inside : n < (List.ofFn square.table).length) :
    drawing square n = alphabet.idxOf (List.ofFn square.table)[n] := by
  rw [drawing, List.getD_eq_getElem _ _ inside]

theorem draws_drawing : (draws (drawing square) 25).map letterAt = List.ofFn square.table := by
  have length : (List.ofFn square.table).length = 25 := List.length_ofFn
  have distinct : (List.ofFn square.table).Nodup := List.nodup_ofFn.mpr square.injective
  rw [draws_eq_map, List.map_map]
  · apply List.ext_getElem
    · rw [List.length_map, List.length_range, length]
    · intro n _ inside
      rw [List.getElem_map, List.getElem_range, Function.comp_apply,
        drawing_of_lt square inside, letterAt_idxOf (square.getElem_mem inside)]
  · intro n inside
    rw [← length] at inside
    rw [drawing_of_lt square inside]
    exact List.idxOf_lt_length_iff.mpr (square.getElem_mem inside)
  · intro i j first second same
    rw [← length] at first second
    rw [drawing_of_lt square first, drawing_of_lt square second] at same
    have letters := congrArg letterAt same
    rw [letterAt_idxOf (square.getElem_mem first), letterAt_idxOf (square.getElem_mem second)]
      at letters
    exact (distinct.getElem_inj_iff).mp letters

end Square

theorem generateTable_onto (fresh : Table) (square : Square) :
    Completes (generateTable (drawing square) fresh) square.table := by
  have letters := draws_drawing square
  have all : (draws (drawing square) 25).length = 25 := by
    have lengths := congrArg List.length letters
    rwa [List.length_map, List.length_ofFn] at lengths
  have comes : ∀ r, r < 25 → ∃ k, drawing square k % 25 = r := by
    intro r inside
    rcases mem_draws_iff.mp (mem_draws_of_length all inside) with ⟨k, _, drawn⟩
    exact ⟨k, drawn⟩
  rcases (generateTable_completes_iff (drawing square) fresh).mpr comes with ⟨table, returns⟩
  rcases completes_generateTable returns with ⟨m, drawn⟩
  have others : (draws (drawing square) m).length = 25 := by
    have lengths := congrArg List.length drawn
    rwa [List.length_map, List.length_ofFn, eq_comm] at lengths
  rw [draws_unique (others.trans all.symm), letters] at drawn
  rwa [List.ofFn_injective drawn] at returns

/-- `generateTable` returns exactly when every remainder by 25 comes up among the values of
`rand`. What it returns has the letters in the order of their first draw, and every square
is returned for some values. -/
theorem generateTable_draws (fresh : Table) :
    (∀ rand, (∃ table, Completes (generateTable rand fresh) table) ↔
        ∀ r, r < 25 → ∃ n, rand n % 25 = r) ∧
      (∀ rand table, Completes (generateTable rand fresh) table →
        ∃ n, List.ofFn table = (draws rand n).map letterAt) ∧
      ∀ square : Square, ∃ rand, Completes (generateTable rand fresh) square.table :=
  ⟨fun rand => generateTable_completes_iff rand fresh, fun _ _ => completes_generateTable,
    fun square => ⟨drawing square, generateTable_onto fresh square⟩⟩

end ComputerSystems.Polybius

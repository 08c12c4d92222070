import Mathlib.Data.List.Basic
import Mathlib.Logic.Function.Basic

/-!
# Linked cells

A store has a cell at some addresses. Following the links of cells from one address
visits a list of cells and arrives at another address. A change of the store at an
address that was not visited does not matter.
-/

namespace ComputerSystems.Links

universe u v

variable {α : Type u} {β : Type v} (link : β → α)

/-- Following links from an address visits the cells of a list, each with its
address, and arrives at a target. -/
def Chain (store : α → Option β) : α → List (α × β) → α → Prop
  | start, [], target => start = target
  | start, (address, cell) :: rest, target =>
      start = address ∧ store address = some cell ∧ Chain store (link cell) rest target

variable {link} {store other : α → Option β} {start middle target : α}
  {first second : List (α × β)}

/-- A chain can be cut anywhere. -/
theorem chain_append :
    Chain link store start (first ++ second) target ↔
      ∃ middle, Chain link store start first middle ∧ Chain link store middle second target := by
  induction first generalizing start with
  | nil => simp [Chain]
  | cons visited rest ih =>
      rcases visited with ⟨address, cell⟩
      rw [List.cons_append, Chain, ih]
      constructor
      · rintro ⟨here, stored, middle, front, back⟩
        exact ⟨middle, ⟨here, stored, front⟩, back⟩
      · rintro ⟨middle, ⟨here, stored, front⟩, back⟩
        exact ⟨here, stored, middle, front, back⟩

/-- The last cell of a chain leads to its target. -/
theorem chain_snoc {address : α} {cell : β} :
    Chain link store start (first ++ [(address, cell)]) target ↔
      Chain link store start first address ∧ store address = some cell ∧ link cell = target := by
  rw [chain_append]
  constructor
  · rintro ⟨_, front, rfl, stored, leads⟩
    exact ⟨front, stored, leads⟩
  · rintro ⟨front, stored, leads⟩
    exact ⟨address, front, rfl, stored, leads⟩

/-- Only the cells that are visited matter. -/
theorem Chain.congr (chain : Chain link store start first target)
    (same : ∀ address ∈ first.map Prod.fst, other address = store address) :
    Chain link other start first target := by
  induction first generalizing start with
  | nil => exact chain
  | cons visited rest ih =>
      rcases visited with ⟨address, cell⟩
      rcases chain with ⟨here, stored, tail⟩
      refine ⟨here, ?_, ?_⟩
      · rw [same address List.mem_cons_self]
        exact stored
      · exact ih tail fun later member => same later (List.mem_cons_of_mem _ member)

/-- A cell that is not visited can be changed. -/
theorem Chain.update [DecidableEq α] (chain : Chain link store start first target) {address : α}
    (unvisited : address ∉ first.map Prod.fst) (cell : Option β) :
    Chain link (Function.update store address cell) start first target := by
  apply chain.congr
  intro visited member
  apply Function.update_of_ne
  rintro rfl
  exact unvisited member

/-- There is a cell at every address that is visited. -/
theorem Chain.stored (chain : Chain link store start first target) {visited : α × β}
    (member : visited ∈ first) : store visited.1 = some visited.2 := by
  induction first generalizing start with
  | nil => exact absurd member List.not_mem_nil
  | cons cell rest ih =>
      rcases chain with ⟨_, stored, tail⟩
      rcases List.mem_cons.mp member with rfl | later
      · exact stored
      · exact ih tail later

/-- Chains to where there is no cell visit the same cells. -/
theorem Chain.unique (chain : Chain link store start first target)
    (chain' : Chain link store start second target) (ends : store target = none) :
    first = second := by
  induction first generalizing start second with
  | nil =>
      subst chain
      cases second with
      | nil => rfl
      | cons visited rest =>
          rcases chain' with ⟨rfl, stored, _⟩
          exact absurd (stored.symm.trans ends) (Option.some_ne_none _)
  | cons visited rest ih =>
      rcases visited with ⟨address, cell⟩
      rcases chain with ⟨rfl, stored, tail⟩
      cases second with
      | nil =>
          subst chain'
          exact absurd (stored.symm.trans ends) (Option.some_ne_none _)
      | cons visited' rest' =>
          rcases visited' with ⟨address', cell'⟩
          rcases chain' with ⟨rfl, stored', tail'⟩
          obtain rfl : cell = cell' := Option.some.inj (stored.symm.trans stored')
          rw [ih tail tail']

/-- A chain to where there is no cell visits no address twice. -/
theorem Chain.nodup (chain : Chain link store start first target) (ends : store target = none) :
    (first.map Prod.fst).Nodup := by
  induction first generalizing start with
  | nil => exact List.nodup_nil
  | cons visited rest ih =>
      rcases visited with ⟨address, cell⟩
      rcases chain with ⟨here, stored, tail⟩
      refine List.nodup_cons.mpr ⟨?_, ih tail⟩
      intro member
      rcases List.mem_map.mp member with ⟨⟨visited, cell'⟩, again, same⟩
      obtain rfl : visited = address := same
      rcases List.append_of_mem again with ⟨before, behind, rfl⟩
      rcases chain_append.mp tail with ⟨middle, _, second, stored', tail'⟩
      -- the chain from the second visit on would be the whole chain
      have whole : Chain link store start
          ((visited, cell) :: (before ++ (visited, cell') :: behind)) target :=
        ⟨here, stored, tail⟩
      have shorter : Chain link store start ((visited, cell') :: behind) target :=
        ⟨here, stored', tail'⟩
      have lengths := congrArg List.length (whole.unique shorter ends)
      simp only [List.length_cons, List.length_append] at lengths
      omega

end ComputerSystems.Links

import Mathlib.Data.Set.Insert
import Mathlib.Logic.Relation

/-!
# Marking what can be reached

A search from some sources adds nodes to a set of marked ones: the sources, only nodes
that can be reached from a source, and with every node it adds the nodes this one points
to. Searches of this kind can be put together from smaller ones, and one that starts with
nothing marked ends with exactly the nodes that can be reached.
-/

namespace ComputerSystems.Graph

open Relation

universe u

variable {ν : Type u}

/-- The nodes that can be reached from some sources. -/
def reachable (points : ν → ν → Prop) (sources : Set ν) : Set ν :=
  {node | ∃ source ∈ sources, ReflTransGen points source node}

/-- What a search from some sources does to the set of marked nodes. -/
structure Marks (points : ν → ν → Prop) (sources before after : Set ν) : Prop where
  keeps : before ⊆ after
  starts : sources ⊆ after
  reached : ∀ node ∈ after, node ∉ before → node ∈ reachable points sources
  closed : ∀ node ∈ after, node ∉ before → ∀ other, points node other → other ∈ after

variable {points : ν → ν → Prop} {sources others before middle after : Set ν}

/-- A search from marked nodes has nothing to do. -/
theorem Marks.of_subset (marked : sources ⊆ before) : Marks points sources before before where
  keeps := subset_rfl
  starts := marked
  reached _ inside outside := absurd inside outside
  closed _ inside outside := absurd inside outside

theorem reachable_mono (fewer : sources ⊆ others) :
    reachable points sources ⊆ reachable points others := by
  rintro node ⟨source, member, path⟩
  exact ⟨source, fewer member, path⟩

/-- One search after the other. -/
theorem Marks.trans (first : Marks points sources before middle)
    (second : Marks points others middle after) :
    Marks points (sources ∪ others) before after where
  keeps := first.keeps.trans second.keeps
  starts := Set.union_subset (first.starts.trans second.keeps) second.starts
  reached node inside outside := by
    by_cases early : node ∈ middle
    · exact reachable_mono Set.subset_union_left (first.reached node early outside)
    · exact reachable_mono Set.subset_union_right (second.reached node inside early)
  closed node inside outside other edge := by
    by_cases early : node ∈ middle
    · exact second.keeps (first.closed node early outside other edge)
    · exact second.closed node inside early other edge

/-- A node is marked, and then the nodes it points to are searched. -/
theorem Marks.visit {node : ν} (search : Marks points {other | points node other}
    (insert node before) after) : Marks points {node} before after where
  keeps := (Set.subset_insert node before).trans search.keeps
  starts := Set.singleton_subset_iff.mpr (search.keeps (Set.mem_insert node before))
  reached other inside outside := by
    refine ⟨node, rfl, ?_⟩
    by_cases here : other ∈ insert node before
    · rw [(Set.mem_insert_iff.mp here).resolve_right outside]
    · rcases search.reached other inside here with ⟨source, edge, path⟩
      exact ReflTransGen.head edge path
  closed other inside outside target edge := by
    by_cases here : other ∈ insert node before
    · rw [(Set.mem_insert_iff.mp here).resolve_right outside] at edge
      exact search.starts edge
    · exact search.closed other inside here target edge

/-- A search that starts with nothing marked ends with what can be reached. -/
theorem Marks.eq_reachable (search : Marks points sources ∅ after) :
    after = reachable points sources := by
  ext node
  constructor
  · intro inside
    exact search.reached node inside (Set.notMem_empty node)
  · rintro ⟨source, member, path⟩
    induction path with
    | refl => exact search.starts member
    | tail _ edge ih => exact search.closed _ ih (Set.notMem_empty _) _ edge

theorem Marks.congr {points' : ν → ν → Prop} (same : ∀ node other, points' node other ↔
    points node other) (search : Marks points sources before after) :
    Marks points' sources before after := by
  have equal : points' = points := funext fun node => funext fun other =>
    propext (same node other)
  rwa [equal]

end ComputerSystems.Graph

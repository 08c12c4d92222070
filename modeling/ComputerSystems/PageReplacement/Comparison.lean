import ComputerSystems.PageReplacement.FirstIn
import ComputerSystems.Recency.Cycle

/-!
# How far the program is from the best replacement

First-in, first-out replacement does not know the references to come. Still the program has
at most three times the faults that the best choice of pages to give up leaves, and no
smaller factor bounds them.
-/

namespace ComputerSystems.PageReplacement

open Recency

/-- The program is one way to serve its references in its frames. Any way to serve them, also
one that knows all of them, bounds its faults: with the same number of frames, it has at
most three times as many, and the fewer frames the other way has, the smaller is the
factor. -/
theorem run_competitive (references : List Int) (nonneg : ∀ pageNum ∈ references, 0 ≤ pageNum) :
    Serves 3 ∅ references (run references).pages.toFinset (run references).numFaults ∧
      ∀ frames, frames ≤ 3 → ∀ final faulted, Serves frames ∅ references final faulted →
        (4 - frames) * (run references).numFaults ≤ 3 * (faulted + (3 - frames)) := by
  have simulates := simulates references nonneg
  have faults : (run references).numFaults = (FifoCache.serve 3 references).faults :=
    simulates.numFaults.trans simulates.faults.symm
  have pages : (run references).pages.toFinset = (FifoCache.serve 3 references).queue.toFinset :=
    List.toFinset_eq_of_perm _ _ simulates.perm_pages
  rw [faults, pages]
  constructor
  · exact (FifoCache.serves (by decide) references).2
  · intro frames fewer final faulted serves
    exact (FifoCache.conservative 3).competitive rfl (by decide) fewer serves

/-- Giving up page 3 for page 4 saves the last fault. -/
theorem run_competitive_five_references :
    Serves 3 ∅ [1, 2, 3, 4, 1] (run [1, 2, 3, 4, 1]).pages.toFinset 5 ∧
      (4 - 3) * (run [1, 2, 3, 4, 1]).numFaults ≤ 3 * (4 + (3 - 3)) := by
  have compared := run_competitive [1, 2, 3, 4, 1] (by decide)
  have hit : Serves 3 ({1, 2, 4} : Finset Int) [1] {1, 2, 4} 0 := .quiet (by decide) (by decide)
  have fourth : Serves 3 ({1, 2, 3} : Finset Int) [4, 1] {1, 2, 4} 1 :=
    .access (by decide) (by decide) (by decide) hit
  have third : Serves 3 ({1, 2} : Finset Int) [3, 4, 1] {1, 2, 4} 2 :=
    .access (by decide) (by decide) (by decide) fourth
  have second : Serves 3 ({1} : Finset Int) [2, 3, 4, 1] {1, 2, 4} 3 :=
    .access (by decide) (by decide) (by decide) third
  have first : Serves 3 (∅ : Finset Int) [1, 2, 3, 4, 1] {1, 2, 4} 4 :=
    .access (by decide) (by decide) (by decide) second
  exact ⟨compared.1, compared.2 3 (by decide) {1, 2, 4} 4 first⟩

/-- On four pages in turn every reference of the program faults, while as many frames are
enough to serve them with one fault in three references, after the first three. -/
theorem run_cycle (rounds : Nat) :
    (run ((cycle 3 0 (3 + 3 * rounds)).map Int.ofNat)).numFaults = 3 + 3 * rounds ∧
      ∃ final, Serves 3 ∅ ((cycle 3 0 (3 + 3 * rounds)).map Int.ofNat) final (3 + rounds) := by
  have injective : Function.Injective Int.ofNat := fun _ _ => Int.ofNat.inj
  constructor
  · have simulates := simulates ((cycle 3 0 (3 + 3 * rounds)).map Int.ofNat) (by simp)
    rw [simulates.numFaults, ← simulates.faults, maxFrames,
      (FifoCache.serve_map injective 3 _).2, (FifoCache.serve_cycle (by decide) _).2]
  · rcases @exists_serves_cycle 3 (by decide) rounds with ⟨final, serves⟩
    exact ⟨final.image Int.ofNat, serves.map injective⟩

end ComputerSystems.PageReplacement

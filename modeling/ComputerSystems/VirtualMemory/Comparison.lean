import ComputerSystems.Recency.Competitive
import ComputerSystems.VirtualMemory.Statistics

/-!
# How far the TLB is from the best replacement

Under `algo_choice` 2 the accesses that are not TLB hits are those that a least recently used
cache of 16 pages does not answer. The choice of `tlbLRUinsert`, which does not know the
addresses to come, is compared with any choice of the pages to keep in the TLB.
-/

namespace ComputerSystems.VirtualMemory

open ComputerSystems.Recency

/-- On addresses that avoid page 0, the accesses that are no TLB hits are the faults of one
way to serve the pages in 16 slots. Any way to serve them, also one that knows all of them,
bounds their number: with 16 slots there are at most 16 times as many, and the fewer slots
the other way has, the smaller is the factor. When no frame number of the fresh TLB is minus
one, their number is `tlbMissCount`. With fewer than 2 ^ 31 addresses no counter and no age
wraps around. -/
theorem lru_competitive (store : BackingStore) (fresh : FreshMemory) (addresses : List (BitVec 32))
    (few : addresses.length < 2 ^ 31) (never : 0 ∉ addresses.map pageOf) :
    ∃ state, run '2' store fresh addresses = some state ∧
      CountersFit state ∧ AgesFit state.tlbTable ∧
      (∃ final, Serves 16 ∅ (addresses.map pageOf) final
        (addresses.length - state.tlbTable.tlbHitCount)) ∧
      (∀ slots, slots ≤ 16 → ∀ final faulted,
        Serves slots ∅ (addresses.map pageOf) final faulted →
          (17 - slots) * (addresses.length - state.tlbTable.tlbHitCount) ≤
            16 * (faulted + (16 - slots))) ∧
      ((∀ i, i < 16 → fresh.tlbFrames i ≠ -1) →
        state.tlbTable.tlbMissCount = addresses.length - state.tlbTable.tlbHitCount) := by
  rcases run_hitRange store fresh addresses with ⟨state, reached, _, range⟩
  rcases run_fits store fresh few reached with ⟨counters, ages⟩
  have hits := range.exact fun zero => never (List.mem_reverse.mp zero)
  have faults : addresses.length - state.tlbTable.tlbHitCount =
      recentFaults 16 (addresses.map pageOf) := by
    rw [hits, recentFaults, List.length_map, history]
  refine ⟨state, reached, counters, ages, ?_, ?_, ?_⟩
  · rw [faults]
    exact ⟨_, recentFaults_serves (by decide) _⟩
  · intro slots fewer final faulted serves
    rw [faults]
    exact (recentFaults_conservative 16).competitive rfl (by decide) fewer serves
  · intro clean
    rcases run_figures '2' store fresh addresses with ⟨same, again, _, _, exact⟩
    obtain rfl : state = same := Option.some.inj (reached.symm.trans again)
    have total := (exact clean).2
    omega

/-- Two pages that two slots hold as well. -/
theorem lru_competitive_three_addresses :
    ∃ state, run '2' (fun _ => 0) FreshMemory.zero [256, 512, 256] = some state ∧
      (17 - 2) * (3 - state.tlbTable.tlbHitCount) ≤ 16 * (2 + (16 - 2)) ∧
      state.tlbTable.tlbMissCount = 3 - state.tlbTable.tlbHitCount := by
  have never : 0 ∉ List.map pageOf [256, 512, 256] := by decide
  rcases lru_competitive (fun _ => 0) FreshMemory.zero [256, 512, 256] (by decide) never with
    ⟨state, reached, _, _, _, bound, misses⟩
  have third : Serves 2 ({1, 2} : Finset Int) [1] {1, 2} 0 := .quiet (by decide) (by decide)
  have second : Serves 2 ({1} : Finset Int) [2, 1] {1, 2} 1 :=
    .access (by decide) (by decide) (by decide) third
  have first : Serves 2 (∅ : Finset Int) [1, 2, 1] {1, 2} 2 :=
    .access (by decide) (by decide) (by decide) second
  have clean : ∀ i, i < 16 → FreshMemory.zero.tlbFrames i ≠ -1 := by
    intro i _
    simp [FreshMemory.zero]
  exact ⟨state, reached, bound 2 (by decide) {1, 2} 2 first, misses clean⟩

end ComputerSystems.VirtualMemory

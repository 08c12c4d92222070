import ComputerSystems.Recency.ReuseDistance
import ComputerSystems.VirtualMemory.FirstIn
import ComputerSystems.VirtualMemory.LeastRecent

/-!
# The figures main prints

`main` ends with the number of translated addresses, the page faults and the TLB hits. Under
either policy they fit together and the page faults count the pages accessed. Under
`algo_choice` 2 the TLB hits are the accesses with a short reuse distance.
-/

namespace ComputerSystems.VirtualMemory

open ComputerSystems.Loop
open ComputerSystems.Recency
open ComputerSystems.Transition

/-! ## What one iteration adds -/

instance (state : State) (pageNumber : Int) : Decidable (CallsReadFromStore state pageNumber) :=
  inferInstanceAs (Decidable (tlbFrame state pageNumber = -1 ∧ tableFrame state pageNumber = -1))

/-- What one iteration of the reading loop adds to the counters. -/
structure Counted (state : State) (pageNumber : Int) (next : State) : Prop where
  hits : next.tlbTable.tlbHitCount =
    state.tlbTable.tlbHitCount + if (tlbSlot state pageNumber).isSome then 1 else 0
  misses : next.tlbTable.tlbMissCount =
    state.tlbTable.tlbMissCount + if tlbFrame state pageNumber = -1 then 1 else 0
  calls : next.functionCallCount =
    state.functionCallCount + if CallsReadFromStore state pageNumber then 1 else 0
  translations : next.translationCount = state.translationCount + 1

theorem VmTable.moveOver_counts (table : VmTable) (i count : Nat) :
    (table.moveOver i count).tlbHitCount = table.tlbHitCount ∧
      (table.moveOver i count).tlbMissCount = table.tlbMissCount := by
  induction count generalizing table i with
  | zero => exact ⟨rfl, rfl⟩
  | succ count ih => exact ih _ _

theorem fifoSlots_counts (tlb : VmTable) (next : Nat) (pageNumber frameNumber : Int) :
    (fifoSlots tlb next pageNumber frameNumber).tlbHitCount = tlb.tlbHitCount ∧
      (fifoSlots tlb next pageNumber frameNumber).tlbMissCount = tlb.tlbMissCount := by
  unfold fifoSlots
  split <;> split <;> simp [VmTable.write, VmTable.moveOver_counts]

theorem lruSlots_counts (tlb : VmTable) (pageNumber frameNumber : Int) :
    (lruSlots tlb pageNumber frameNumber).tlbHitCount = tlb.tlbHitCount ∧
      (lruSlots tlb pageNumber frameNumber).tlbMissCount = tlb.tlbMissCount := by
  simp only [lruSlots]
  split
  · exact ⟨rfl, rfl⟩
  · split <;> exact ⟨rfl, rfl⟩

/-- An insertion leaves every counter alone. -/
theorem tlbInsert_counts (algoChoice : Char) (state : State) (pageNumber frameNumber : Int) :
    (tlbInsert algoChoice state pageNumber frameNumber).tlbTable.tlbHitCount =
        state.tlbTable.tlbHitCount ∧
      (tlbInsert algoChoice state pageNumber frameNumber).tlbTable.tlbMissCount =
        state.tlbTable.tlbMissCount ∧
      (tlbInsert algoChoice state pageNumber frameNumber).functionCallCount =
        state.functionCallCount ∧
      (tlbInsert algoChoice state pageNumber frameNumber).translationCount =
        state.translationCount := by
  unfold tlbInsert
  split
  · rcases fifoSlots_counts state.tlbTable state.nextTLBentry pageNumber frameNumber with
      ⟨hits, misses⟩
    exact ⟨hits, misses, rfl, rfl⟩
  · rcases lruSlots_counts state.tlbTable pageNumber frameNumber with ⟨hits, misses⟩
    exact ⟨hits, misses, rfl, rfl⟩

theorem countHit_hits (state : State) (pageNumber : Int) :
    (countHit state pageNumber).tlbTable.tlbHitCount =
      state.tlbTable.tlbHitCount + if (tlbSlot state pageNumber).isSome then 1 else 0 := by
  unfold countHit
  cases tlbSlot state pageNumber <;> rfl

theorem countHit_others (state : State) (pageNumber : Int) :
    (countHit state pageNumber).tlbTable.tlbMissCount = state.tlbTable.tlbMissCount ∧
      (countHit state pageNumber).functionCallCount = state.functionCallCount ∧
      (countHit state pageNumber).translationCount = state.translationCount := by
  unfold countHit
  cases tlbSlot state pageNumber <;> exact ⟨rfl, rfl, rfl⟩

/-- What the search before the insertion adds to the counters. -/
theorem resolve_counts {store : BackingStore} {state resolved : State}
    {pageNumber frameNumber : Int}
    (resolves : resolve store state pageNumber = some (frameNumber, resolved)) :
    resolved.tlbTable.tlbHitCount =
        state.tlbTable.tlbHitCount + (if (tlbSlot state pageNumber).isSome then 1 else 0) ∧
      resolved.tlbTable.tlbMissCount =
        state.tlbTable.tlbMissCount + (if tlbFrame state pageNumber = -1 then 1 else 0) ∧
      resolved.functionCallCount = state.functionCallCount +
        (if CallsReadFromStore state pageNumber then 1 else 0) ∧
      resolved.translationCount = state.translationCount := by
  have hits := countHit_hits state pageNumber
  rcases countHit_others state pageNumber with ⟨misses, calls, translations⟩
  have walked : tableFrame (countMiss (countHit state pageNumber)) pageNumber =
      tableFrame state pageNumber :=
    tableFrame_congr ((countMiss_sameTable _).trans (countHit_sameTable state pageNumber)) _
  by_cases missed : tlbFrame state pageNumber = -1
  · by_cases absent : tableFrame state pageNumber = -1
    · simp only [resolve, missed, if_true, walked, absent, pageFault, readFromStore] at resolves
      split at resolves
      · obtain ⟨-, rfl⟩ := Prod.mk.inj (Option.some.inj resolves)
        simp [countCall, loadPage, countFault, countMiss, hits, misses, calls, translations,
          CallsReadFromStore, missed, absent]
      · exact absurd resolves (by simp)
    · simp only [resolve, missed, if_true, walked, if_neg absent] at resolves
      obtain ⟨-, rfl⟩ := Prod.mk.inj (Option.some.inj resolves)
      simp [countMiss, hits, misses, calls, translations, CallsReadFromStore, missed, absent]
  · simp only [resolve, if_neg missed] at resolves
    obtain ⟨-, rfl⟩ := Prod.mk.inj (Option.some.inj resolves)
    simp [hits, misses, calls, translations, CallsReadFromStore, missed]

theorem Call.counted {algoChoice : Char} {store : BackingStore} {state resolved next : State}
    {virtualAddr : BitVec 32} {frameNumber : Int}
    (call : Call algoChoice store state virtualAddr frameNumber resolved next) :
    Counted state (pageOf virtualAddr) next := by
  rcases resolve_counts call.resolves with ⟨hits, misses, calls, translations⟩
  rcases tlbInsert_counts algoChoice resolved (pageOf virtualAddr) frameNumber with
    ⟨sameHits, sameMisses, sameCalls, sameTranslations⟩
  have page : resolved.pageNumber = pageOf virtualAddr := call.slots.page
  have steps := call.steps
  rw [mainStep_eq, call.resolves, Option.map_some] at steps
  obtain rfl := Option.some.inj steps
  constructor
  · simp only [insertAndRead, page, sameHits]
    exact hits
  · simp only [insertAndRead, page, sameMisses]
    exact misses
  · simp only [insertAndRead, page, sameCalls]
    exact calls
  · simp only [insertAndRead, page, sameTranslations]
    exact congrArg (· + 1) translations

/-! ## The counters of a run -/

/-- The counters after the addresses `past`. -/
structure Figures (past : List (BitVec 32)) (state : State) : Prop where
  length : state.tlbTable.length = tlbSize
  entries : state.nextTLBentry ≤ tlbSize
  translations : state.translationCount = past.length
  calls : state.functionCallCount = state.nextPage
  searched : past.length ≤ state.tlbTable.tlbHitCount + state.tlbTable.tlbMissCount
  hits : state.tlbTable.tlbHitCount ≤ past.length
  misses : state.tlbTable.tlbMissCount ≤ past.length
  faulted : state.functionCallCount ≤ state.tlbTable.tlbMissCount
  accessed : ∀ i, i < state.nextPage → state.pageTable.pageNumArr i ∈ past.map pageOf

/-- The counters are as those of the program: an `int` reaches no further. -/
structure CountersFit (state : State) : Prop where
  translations : state.translationCount < 2 ^ 31
  calls : state.functionCallCount < 2 ^ 31
  faults : state.pageTable.pageFaultCount < 2 ^ 31
  hits : state.tlbTable.tlbHitCount < 2 ^ 31
  misses : state.tlbTable.tlbMissCount < 2 ^ 31

/-- So are the ages of the slots that name a page other than 0, the only ones that are
counted up. -/
def AgesFit (tlb : VmTable) : Prop :=
  ∀ i, i < tlbSize → tlb.pageNumArr i ≠ 0 → 0 ≤ tlb.entryAgeArr i ∧ tlb.entryAgeArr i < 2 ^ 31

/-- No slot of the TLB holds the marker for an absent frame. -/
def Unmarked (state : State) : Prop :=
  ∀ i, i < tlbSize → state.tlbTable.frameNumArr i ≠ -1

theorem bootState_figures (fresh : FreshMemory) : Figures [] (bootState fresh) where
  length := rfl
  entries := Nat.zero_le _
  translations := rfl
  calls := rfl
  searched := Nat.le_refl 0
  hits := Nat.le_refl 0
  misses := Nat.le_refl 0
  faulted := Nat.le_refl 0
  accessed i inside := absurd inside (Nat.not_lt_zero i)

section Step

variable {algoChoice : Char} {store : BackingStore} {past : List (BitVec 32)}
  {state resolved next : State} {virtualAddr : BitVec 32} {frameNumber : Int}

/-- Without a slot for the page the search counts a miss. -/
theorem tlbFrame_of_no_slot {pageNumber : Int} (absent : ¬ (tlbSlot state pageNumber).isSome) :
    tlbFrame state pageNumber = -1 := by
  unfold tlbFrame
  cases search : tlbSlot state pageNumber with
  | none => rfl
  | some i => exact absurd (by rw [search]; rfl) absent

/-- A call that reaches `readFromStore` adds one entry to the page table, another none. -/
theorem Call.nextPage_eq
    (call : Call algoChoice store state virtualAddr frameNumber resolved next)
    (frame : CallFrame state (pageOf virtualAddr) frameNumber resolved) :
    next.nextPage =
      state.nextPage + if CallsReadFromStore state (pageOf virtualAddr) then 1 else 0 := by
  rw [call.table.nextPage]
  by_cases fault : CallsReadFromStore state (pageOf virtualAddr)
  · rw [if_pos fault]
    exact (frame.fault fault).2.1
  · rw [if_neg fault]
    exact (frame.cached fault).2.nextPage

theorem Figures.call (figures : Figures past state)
    (call : Call algoChoice store state virtualAddr frameNumber resolved next)
    (frame : CallFrame state (pageOf virtualAddr) frameNumber resolved) :
    Figures (past ++ [virtualAddr]) next := by
  have counted := call.counted
  have grown := call.nextPage_eq frame
  have entries : resolved.nextTLBentry ≤ tlbSize := by
    rw [call.slots.next]
    exact figures.entries
  constructor
  · rw [call.tlb, tlbInsert_length, call.slots.length]
    exact figures.length
  · rw [call.entries]
    exact tlbInsert_next algoChoice entries _ _
  · rw [counted.translations, figures.translations, List.length_append, List.length_singleton]
  · rw [counted.calls, grown, figures.calls]
  · have searched := figures.searched
    rw [counted.hits, counted.misses, List.length_append, List.length_singleton]
    by_cases found : (tlbSlot state (pageOf virtualAddr)).isSome
    · rw [if_pos found]
      omega
    · rw [if_pos (tlbFrame_of_no_slot found)]
      omega
  · rw [counted.hits, List.length_append, List.length_singleton]
    exact Nat.add_le_add figures.hits (by split <;> decide)
  · rw [counted.misses, List.length_append, List.length_singleton]
    exact Nat.add_le_add figures.misses (by split <;> decide)
  · have faulted := figures.faulted
    rw [counted.calls, counted.misses]
    by_cases missed : tlbFrame state (pageOf virtualAddr) = -1
    · rw [if_pos missed]
      split <;> omega
    · rw [if_neg missed, if_neg fun both => missed both.1]
      exact faulted
  · intro i inside
    rw [call.table.table, List.map_append, List.mem_append]
    by_cases old : i < state.nextPage
    · rw [call.extension.pages i old]
      exact Or.inl (figures.accessed i old)
    · by_cases fault : CallsReadFromStore state (pageOf virtualAddr)
      · rw [if_pos fault] at grown
        obtain rfl : i = state.nextPage := by omega
        rw [(frame.fault fault).2.2.1]
        exact Or.inr (List.mem_singleton.mpr rfl)
      · rw [if_neg fault] at grown
        exact absurd inside (by omega)

theorem Unmarked.call (unmarked : Unmarked state) (entries : state.nextTLBentry ≤ tlbSize)
    (call : Call algoChoice store state virtualAddr frameNumber resolved next)
    (frame : CallFrame state (pageOf virtualAddr) frameNumber resolved) : Unmarked next := by
  intro i inside
  rw [call.tlb]
  rcases tlbInsert_entry algoChoice (by rw [call.slots.next]; exact entries)
    (pageOf virtualAddr) frameNumber inside with fresh | ⟨k, kInside, old⟩
  · rw [(Prod.mk.inj fresh).2]
    exact frame.ne_marker
  · rw [(Prod.mk.inj old).2, call.slots.frames]
    exact unmarked k kInside

/-- When no slot holds the marker, a search counts a hit or a miss and never both. -/
theorem Unmarked.counts (unmarked : Unmarked state) (length : state.tlbTable.length = tlbSize)
    (counted : Counted state (pageOf virtualAddr) next) :
    next.tlbTable.tlbHitCount + next.tlbTable.tlbMissCount =
      state.tlbTable.tlbHitCount + state.tlbTable.tlbMissCount + 1 := by
  rw [counted.hits, counted.misses]
  cases search : tlbSlot state (pageOf virtualAddr) with
  | none =>
      have missed : tlbFrame state (pageOf virtualAddr) = -1 := by simp only [tlbFrame, search]
      rw [if_pos missed]
      simp [Nat.add_assoc]
  | some i =>
      rcases tlbSlot_spec length search with ⟨inside, _, frame⟩
      have hit : tlbFrame state (pageOf virtualAddr) ≠ -1 := by
        rw [frame]
        exact unmarked i inside
      rw [if_neg hit]
      simp [Nat.add_right_comm]

end Step

theorem run_figures (algoChoice : Char) (store : BackingStore) (fresh : FreshMemory)
    (addresses : List (BitVec 32)) :
    ∃ final, run algoChoice store fresh addresses = some final ∧
      InStep store addresses final ∧ Figures addresses final ∧
      ((∀ i, i < tlbSize → fresh.tlbFrames i ≠ -1) → Unmarked final ∧
        final.tlbTable.tlbHitCount + final.tlbTable.tlbMissCount = addresses.length) := by
  apply exec_always (fun past state => InStep store past state ∧ Figures past state ∧
    ((∀ i, i < tlbSize → fresh.tlbFrames i ≠ -1) → Unmarked state ∧
      state.tlbTable.tlbHitCount + state.tlbTable.tlbMissCount = past.length))
  · exact ⟨bootState_inStep store fresh, bootState_figures fresh, fun clean => ⟨clean, rfl⟩⟩
  · rintro past virtualAddr state ⟨inStep, figures, exact⟩
    obtain ⟨frameNumber, resolved, next, call, frame⟩ :=
      exists_call algoChoice inStep.loaded virtualAddr
    refine ⟨next, call.steps, inStep.call call frame, figures.call call frame, ?_⟩
    intro clean
    rcases exact clean with ⟨unmarked, sum⟩
    refine ⟨unmarked.call figures.entries call frame, ?_⟩
    rw [unmarked.counts figures.length call.counted, sum, List.length_append,
      List.length_singleton]

/-- Fewer than 2 ^ 31 addresses do not make a counter wrap around. -/
theorem Figures.countersFit {past : List (BitVec 32)} {state : State} (figures : Figures past state)
    (faults : state.pageTable.pageFaultCount = state.nextPage) (few : past.length < 2 ^ 31) :
    CountersFit state := by
  have calls := figures.faulted.trans figures.misses
  constructor
  · exact figures.translations.trans_lt few
  · exact calls.trans_lt few
  · rw [faults, ← figures.calls]
    exact calls.trans_lt few
  · exact figures.hits.trans_lt few
  · exact figures.misses.trans_lt few

/-! ## Page faults -/

/-- The pages of the page table in the order in which they were loaded. -/
def loadedPages (state : State) : List Int :=
  (List.range state.nextPage).map state.pageTable.pageNumArr

theorem Loaded.nodup_loadedPages {store : BackingStore} {state : State}
    (loaded : Loaded store state) : (loadedPages state).Nodup := by
  apply List.Nodup.map_on _ List.nodup_range
  intro i iMember j jMember same
  exact loaded.distinct i (List.mem_range.mp iMember) j (List.mem_range.mp jMember) same

/-- The page table holds every page other than 0 that was accessed and no page that was
not. -/
theorem InStep.faults_between {store : BackingStore} {past : List (BitVec 32)} {state : State}
    (inStep : InStep store past state) (figures : Figures past state) :
    (recentPages (history past)).length ≤ state.nextPage ∧
      state.nextPage ≤ (recents (history past)).length := by
  have length : (loadedPages state).length = state.nextPage := by simp [loadedPages]
  rw [← length]
  constructor
  · apply ((nodup_recentPages _).subperm ?_).length_le
    intro pageNumber member
    rcases List.mem_filter.mp member with ⟨accessed, used⟩
    have past : pageNumber ∈ past.map pageOf := by simpa [history] using accessed
    rcases (inStep.accessed pageNumber (by simpa using used)).mpr past with
      ⟨_, i, inside, page, _⟩
    exact List.mem_map.mpr ⟨i, List.mem_range.mpr inside, page⟩
  · apply (inStep.loaded.nodup_loadedPages.subperm ?_).length_le
    intro pageNumber member
    rcases List.mem_map.mp member with ⟨i, inside, rfl⟩
    have accessed := figures.accessed i (List.mem_range.mp inside)
    simpa [history] using accessed

theorem recentPages_eq_recents {history : List Int} (never : 0 ∉ history) :
    recentPages history = recents history := by
  apply List.filter_eq_self.mpr
  intro pageNumber member
  have used : pageNumber ≠ 0 := fun zero => never (zero ▸ mem_recents_iff.mp member)
  simpa using used

/-- The figures of a run under either policy. Every address counts as translated, and at
least as a hit or a miss; when no frame number of the fresh TLB is minus one, as exactly
one of them. The page faults are the calls of `readFromStore`: one for every page accessed,
page 0 excepted, which may have none. No page faults without a miss. With fewer than 2 ^ 31
addresses no counter wraps around. -/
theorem run_statistics (algoChoice : Char) (store : BackingStore) (fresh : FreshMemory)
    (addresses : List (BitVec 32)) (few : addresses.length < 2 ^ 31) :
    ∃ state, run algoChoice store fresh addresses = some state ∧ CountersFit state ∧
      state.translationCount = addresses.length ∧
      state.functionCallCount = state.pageTable.pageFaultCount ∧
      (recentPages (history addresses)).length ≤ state.pageTable.pageFaultCount ∧
      state.pageTable.pageFaultCount ≤ (recents (history addresses)).length ∧
      (0 ∉ addresses.map pageOf →
        state.pageTable.pageFaultCount = (recents (history addresses)).length) ∧
      state.pageTable.pageFaultCount ≤ state.tlbTable.tlbMissCount ∧
      addresses.length ≤ state.tlbTable.tlbHitCount + state.tlbTable.tlbMissCount ∧
      ((∀ i, i < 16 → fresh.tlbFrames i ≠ -1) →
        state.tlbTable.tlbHitCount + state.tlbTable.tlbMissCount = addresses.length) := by
  rcases run_figures algoChoice store fresh addresses with
    ⟨state, reached, inStep, figures, exact⟩
  rcases inStep.faults_between figures with ⟨least, most⟩
  have faults := inStep.loaded.faultCount
  refine ⟨state, reached, figures.countersFit faults few, figures.translations,
    figures.calls.trans faults.symm, ?_, ?_, ?_, ?_, figures.searched,
    fun clean => (exact clean).2⟩
  · rw [faults]
    exact least
  · rw [faults]
    exact most
  · intro never
    have unused : 0 ∉ history addresses := fun zero => never (List.mem_reverse.mp zero)
    have all := recentPages_eq_recents unused
    rw [all] at least
    rw [faults]
    exact Nat.le_antisymm most least
  · rw [faults, ← figures.calls]
    exact figures.faulted

/-- Two pages, one of which is accessed twice. -/
theorem run_statistics_three_addresses :
    ∃ state, run '1' (fun _ => 0) FreshMemory.zero [256, 512, 256] = some state ∧
      state.translationCount = 3 ∧ state.pageTable.pageFaultCount = 2 ∧
      state.tlbTable.tlbHitCount + state.tlbTable.tlbMissCount = 3 := by
  rcases run_statistics '1' (fun _ => 0) FreshMemory.zero [256, 512, 256] (by decide) with
    ⟨state, reached, _, translations, _, _, _, faults, _, _, sum⟩
  have never : 0 ∉ List.map pageOf [256, 512, 256] := by decide
  have clean : ∀ i, i < 16 → FreshMemory.zero.tlbFrames i ≠ -1 := by
    intro i _
    simp [FreshMemory.zero]
  exact ⟨state, reached, translations, (faults never).trans (by decide), sum clean⟩

/-! ## Hits under LRU replacement -/

/-- What the hits of a run under LRU replacement lie between. The first figure counts the
accesses that fewer than 15 other pages separate from the last access to the same page, the
second those that fewer than 16 do. Page 0 is left out of both and counts as a hit at most
once for each access. -/
structure HitRange (past : List Int) (hits : Nat) : Prop where
  least : recentUses 15 (past.filter (· ≠ 0)) ≤ hits
  most : hits ≤ recentUses 16 (past.filter (· ≠ 0)) + past.count 0
  exact : 0 ∉ past → hits = recentUses 16 past

section Hits

variable {past : List Int} {state : State} {pageNumber : Int}

theorem mem_front_iff {k : Nat} :
    pageNumber ∈ (recentPages past).take k ↔
      pageNumber ∈ past.filter (· ≠ 0) ∧ reuseDistance pageNumber (past.filter (· ≠ 0)) < k := by
  rw [recentPages, recents_filter, mem_take_recents_iff]

/-- A page other than 0 has a slot when it is among the pages the TLB keeps. -/
theorem TrueLru.isSome_tlbSlot (lru : TrueLru past state.tlbTable)
    (length : state.tlbTable.length = tlbSize) (used : pageNumber ≠ 0) :
    (tlbSlot state pageNumber).isSome ↔
      pageNumber ∈ (recentPages past).take (usedSlots state.tlbTable).card := by
  rw [← lru.resident]
  constructor
  · intro found
    rcases Option.isSome_iff_exists.mp found with ⟨i, search⟩
    rcases tlbSlot_spec length search with ⟨inside, page, _⟩
    exact ⟨used, i, inside, page⟩
  · rintro ⟨_, i, inside, page⟩
    rcases exists_firstIndex (length ▸ inside) page with ⟨slot, search⟩
    exact Option.isSome_iff_exists.mpr ⟨slot, search⟩

theorem card_usedSlots_le (tlb : VmTable) : (usedSlots tlb).card ≤ 16 := by
  have bounded := Finset.card_filter_le (Finset.range tlbSize) fun i => tlb.pageNumArr i ≠ 0
  rwa [Finset.card_range] at bounded

/-- The first elements of a list, up to its length, are among any more of the first. -/
theorem mem_take_of_min_le {order : List Int} {j k : Nat} (shorter : min j order.length ≤ k)
    (front : pageNumber ∈ order.take j) : pageNumber ∈ order.take k := by
  rcases List.mem_take_iff_getElem.mp front with ⟨i, inside, here⟩
  exact List.mem_take_iff_getElem.mpr ⟨i, by omega, here⟩

/-- Every page with a slot, other than 0, has fewer than 16 other pages since its last
access; fewer than 15 are enough for a slot, and fewer than 16 if page 0 was never
accessed. -/
theorem TrueLru.found_iff (lru : TrueLru past state.tlbTable)
    (length : state.tlbTable.length = tlbSize) (used : pageNumber ≠ 0) :
    (pageNumber ∈ (recentPages past).take 15 → (tlbSlot state pageNumber).isSome) ∧
      ((tlbSlot state pageNumber).isSome → pageNumber ∈ (recentPages past).take 16) ∧
      (0 ∉ past → ((tlbSlot state pageNumber).isSome ↔
        pageNumber ∈ (recentPages past).take 16)) := by
  have small : ∀ {k}, (usedSlots state.tlbTable).card ≤ k →
      min (usedSlots state.tlbTable).card (recentPages past).length ≤ k :=
    fun bound => (Nat.min_le_left _ _).trans bound
  rw [lru.isSome_tlbSlot length used]
  refine ⟨mem_take_of_min_le lru.enough,
    mem_take_of_min_le (small (card_usedSlots_le _)), fun never => ?_⟩
  constructor
  · exact mem_take_of_min_le (small (card_usedSlots_le _))
  · exact mem_take_of_min_le (lru.exact never).ge

theorem HitRange.access {hits : Nat} (range : HitRange past hits)
    (lru : TrueLru past state.tlbTable) (length : state.tlbTable.length = tlbSize)
    (pageNumber : Int) :
    HitRange (pageNumber :: past)
      (hits + if (tlbSlot state pageNumber).isSome then 1 else 0) := by
  have least := range.least
  have most := range.most
  by_cases zero : pageNumber = 0
  · subst zero
    have kept : (0 :: past).filter (· ≠ 0) = past.filter (· ≠ 0) := by simp
    constructor
    · rw [kept]
      omega
    · rw [kept, List.count_cons_self]
      split <;> omega
    · intro never
      exact absurd List.mem_cons_self never
  · have kept : (pageNumber :: past).filter (· ≠ 0) = pageNumber :: past.filter (· ≠ 0) := by
      simp [zero]
    rcases lru.found_iff length zero with ⟨near, far, exact⟩
    rw [mem_front_iff] at near far
    constructor
    · rw [kept, recentUses_cons]
      split
      · rename_i close
        rw [if_pos (near close)]
        omega
      · omega
    · rw [kept, recentUses_cons, List.count_cons_of_ne zero]
      split
      · rename_i found
        rw [if_pos (far found)]
        omega
      · omega
    · intro never
      have unused : 0 ∉ past := fun member => never (List.mem_cons_of_mem _ member)
      have all : past.filter (· ≠ 0) = past := by
        apply List.filter_eq_self.mpr
        intro page member
        have used : page ≠ 0 := fun same => unused (same ▸ member)
        simpa using used
      have found := exact unused
      rw [mem_front_iff, all] at found
      rw [recentUses_cons, range.exact unused]
      by_cases close : pageNumber ∈ past ∧ reuseDistance pageNumber past < 16
      · rw [if_pos close, if_pos (found.mpr close)]
      · rw [if_neg close, if_neg fun some => close (found.mp some)]

theorem Call.trueLru {store : BackingStore} {addresses : List (BitVec 32)}
    {resolved next : State} {virtualAddr : BitVec 32} {frameNumber : Int}
    (call : Call '2' store state virtualAddr frameNumber resolved next)
    (lru : TrueLru (history addresses) state.tlbTable) :
    TrueLru (history (addresses ++ [virtualAddr])) next.tlbTable := by
  have searched : TrueLru (history addresses) resolved.tlbTable :=
    lru.congr call.slots.pages call.slots.ages
  rw [history_snoc, call.tlb]
  exact searched.insert (pageOf virtualAddr) frameNumber

end Hits

theorem run_hitRange (store : BackingStore) (fresh : FreshMemory)
    (addresses : List (BitVec 32)) :
    ∃ final, run '2' store fresh addresses = some final ∧
      TrueLru (history addresses) final.tlbTable ∧
      HitRange (history addresses) final.tlbTable.tlbHitCount := by
  have always : ∃ final, run '2' store fresh addresses = some final ∧
      InStep store addresses final ∧ TrueLru (history addresses) final.tlbTable ∧
        HitRange (history addresses) final.tlbTable.tlbHitCount := by
    apply exec_always (fun past state => InStep store past state ∧
      TrueLru (history past) state.tlbTable ∧ HitRange (history past) state.tlbTable.tlbHitCount)
    · exact ⟨bootState_inStep store fresh, trueLru_createVMtable _ _, Nat.le_refl 0,
        Nat.le_refl 0, fun _ => rfl⟩
    · rintro past virtualAddr state ⟨inStep, lru, range⟩
      obtain ⟨frameNumber, resolved, next, call, frame⟩ :=
        exists_call '2' inStep.loaded virtualAddr
      refine ⟨next, call.steps, inStep.call call frame, call.trueLru lru, ?_⟩
      rw [history_snoc, call.counted.hits]
      exact range.access lru inStep.coherent.length (pageOf virtualAddr)
  rcases always with ⟨final, reached, _, lru, range⟩
  exact ⟨final, reached, lru, range⟩

/-- An age counts the accesses since the last one to the page. -/
theorem TrueLru.agesFit {past : List Int} {tlb : VmTable} (lru : TrueLru past tlb)
    (few : past.length < 2 ^ 31) : AgesFit tlb := by
  intro i inside used
  rw [lru.ages i inside used]
  have distance : past.idxOf (tlb.pageNumArr i) ≤ past.length := List.idxOf_le_length
  omega

/-- Under LRU replacement fewer than 2 ^ 31 addresses make no `int` wrap around. -/
theorem run_fits (store : BackingStore) (fresh : FreshMemory) {addresses : List (BitVec 32)}
    {state : State} (few : addresses.length < 2 ^ 31)
    (reached : run '2' store fresh addresses = some state) :
    CountersFit state ∧ AgesFit state.tlbTable := by
  rcases run_figures '2' store fresh addresses with ⟨final, ran, inStep, figures, _⟩
  rcases run_hitRange store fresh addresses with ⟨_, again, lru, _⟩
  cases ran.symm.trans reached
  cases again.symm.trans reached
  refine ⟨figures.countersFit inStep.loaded.faultCount few, lru.agesFit ?_⟩
  rwa [history, List.length_reverse, List.length_map]

/-- The TLB hits of a run under LRU replacement: at least one for every access that fewer
than 15 other pages separate from the last access to its page, and at most one for every
access that fewer than 16 do, apart from accesses to page 0. If page 0 is never accessed
they are exactly the latter. With fewer than 2 ^ 31 addresses no counter and no age wraps
around. -/
theorem lru_hits (store : BackingStore) (fresh : FreshMemory) (addresses : List (BitVec 32))
    (few : addresses.length < 2 ^ 31) :
    ∃ state, run '2' store fresh addresses = some state ∧
      CountersFit state ∧ AgesFit state.tlbTable ∧
      recentUses 15 ((history addresses).filter (· ≠ 0)) ≤ state.tlbTable.tlbHitCount ∧
      state.tlbTable.tlbHitCount ≤
        recentUses 16 ((history addresses).filter (· ≠ 0)) + (history addresses).count 0 ∧
      (0 ∉ addresses.map pageOf →
        state.tlbTable.tlbHitCount = recentUses 16 (history addresses)) := by
  rcases run_hitRange store fresh addresses with ⟨state, reached, _, range⟩
  rcases run_fits store fresh few reached with ⟨counters, ages⟩
  exact ⟨state, reached, counters, ages, range.least, range.most, fun never =>
    range.exact fun zero => never (List.mem_reverse.mp zero)⟩

/-- The third access finds its page. -/
theorem lru_hits_three_addresses :
    ∃ state, run '2' (fun _ => 0) FreshMemory.zero [256, 512, 256] = some state ∧
      state.tlbTable.tlbHitCount = 1 := by
  rcases lru_hits (fun _ => 0) FreshMemory.zero [256, 512, 256] (by decide) with
    ⟨state, reached, _, _, _, _, hits⟩
  have never : 0 ∉ List.map pageOf [256, 512, 256] := by decide
  exact ⟨state, reached, (hits never).trans (by decide)⟩

end ComputerSystems.VirtualMemory

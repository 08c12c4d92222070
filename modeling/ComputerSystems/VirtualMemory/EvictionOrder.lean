import ComputerSystems.VirtualMemory.FirstIn

/-!
# FIFO replacement: the order of eviction

A run is recorded together with the pages that missed the TLB. The slots stay in
the order of these misses as long as a hit finds no other page above the one it
asks for, and a full TLB evicts in that order as long as the entry in its last
slot is not lost.
-/

namespace ComputerSystems.VirtualMemory

open ComputerSystems.Loop
open ComputerSystems.Transition

/-! ## The log of TLB misses -/

/-- What an access adds to the log of the pages that missed the TLB. -/
def missNote (state : State) (virtualAddr : BitVec 32) : List Int :=
  if tlbFrame state (pageOf virtualAddr) = -1 then [pageOf virtualAddr] else []

/-- A run under `algo_choice` 1 with its log of TLB misses, the last one
first. -/
def runLogged (store : BackingStore) (fresh : FreshMemory) (addresses : List (BitVec 32)) :
    Option (State × List Int) :=
  exec (record (mainStep '1' store) missNote) (bootState fresh, []) addresses

/-- The last TLB miss of one page came before that of the other. -/
def LoadedBefore (log : List Int) (first second : Int) : Prop :=
  log.idxOf second < log.idxOf first

/-- The slots hold different pages in the order of their last TLB misses. -/
def InMissOrder (log : List Int) (state : State) : Prop :=
  ∀ i, i < state.nextTLBentry → ∀ j, j < state.nextTLBentry →
    state.tlbTable.pageNumArr i ≠ 0 → state.tlbTable.pageNumArr j ≠ 0 →
    state.tlbTable.pageNumArr i ≠ state.tlbTable.pageNumArr j →
      LoadedBefore log (state.tlbTable.pageNumArr i) (state.tlbTable.pageNumArr j) → i < j

/-- Every slot of one page lies below every slot of the other. -/
def Precedes (state : State) (first second : Int) : Prop :=
  ∀ i, i < state.nextTLBentry → ∀ j, j < state.nextTLBentry →
    state.tlbTable.pageNumArr i = first → state.tlbTable.pageNumArr j = second → i < j

/-- A TLB hit changes neither the pages held nor their order. -/
def HitKeepsOrder (before : State) (pageNumber : Int) (after : State) : Prop :=
  tlbFrame before pageNumber ≠ -1 → ∀ first second, first ≠ 0 → second ≠ 0 → first ≠ second →
    (Precedes before first second ↔ Precedes after first second)

/-- A page that a TLB miss removes from a full TLB is the one loaded
earliest. -/
def MissEvictsEarliest (log : List Int) (before : State) (pageNumber : Int) (after : State) :
    Prop :=
  tlbFrame before pageNumber = -1 → before.nextTLBentry = 16 →
    ∀ evicted, evicted ≠ 0 → HoldsPage before evicted → ¬ HoldsPage after evicted →
      ∀ other, other ≠ 0 → other ≠ evicted → HoldsPage before other →
        LoadedBefore log evicted other

/-- First in, first out: in every state of a run the slots are in the order of
the TLB misses, hits keep that order, and misses evict in that order. -/
def EvictsInOrder (store : BackingStore) (fresh : FreshMemory) (addresses : List (BitVec 32)) :
    Prop :=
  (∀ past rest, addresses = past ++ rest → ∀ state log,
    runLogged store fresh past = some (state, log) → InMissOrder log state) ∧
  ∀ past virtualAddr rest, addresses = past ++ virtualAddr :: rest → ∀ before log after,
    runLogged store fresh past = some (before, log) →
    mainStep '1' store before virtualAddr = some after →
      HitKeepsOrder before (pageOf virtualAddr) after ∧
        MissEvictsEarliest log before (pageOf virtualAddr) after

/-- What a state must meet before an access. No page other than the one accessed
lies above it; and, when the access misses a full TLB, the entry in slot 15,
which is overwritten, is free, or in another slot that survives, or the only
page held. -/
structure OrderSafe (state : State) (pageNumber : Int) : Prop where
  hit : pageNumber ≠ 0 → ∀ i, i < state.nextTLBentry →
    state.tlbTable.pageNumArr i = pageNumber → ∀ j, i < j → j < state.nextTLBentry →
      state.tlbTable.pageNumArr j = pageNumber ∨ state.tlbTable.pageNumArr j = 0
  miss : state.nextTLBentry = 16 → ¬ HoldsPage state pageNumber →
    state.tlbTable.pageNumArr 15 = 0 ∨
    (∃ j, 0 < j ∧ j < 15 ∧ state.tlbTable.pageNumArr j = state.tlbTable.pageNumArr 15) ∨
    ∀ j, j < 15 → state.tlbTable.pageNumArr j = 0 ∨
      state.tlbTable.pageNumArr j = state.tlbTable.pageNumArr 15

/-! ## The order of the log -/

section Log

variable {log : List Int} {first second pageNumber : Int}

theorem loadedBefore_cons (firstOld : first ≠ pageNumber) (secondOld : second ≠ pageNumber) :
    LoadedBefore (pageNumber :: log) first second ↔ LoadedBefore log first second := by
  unfold LoadedBefore
  rw [List.idxOf_cons_ne _ firstOld.symm, List.idxOf_cons_ne _ secondOld.symm]
  exact Nat.succ_lt_succ_iff

theorem loadedBefore_newest (old : first ≠ pageNumber) :
    LoadedBefore (pageNumber :: log) first pageNumber := by
  unfold LoadedBefore
  rw [List.idxOf_cons_self, List.idxOf_cons_ne _ old.symm]
  exact Nat.succ_pos _

theorem LoadedBefore.asymm (before : LoadedBefore log first second) :
    ¬ LoadedBefore log second first :=
  Nat.lt_asymm before

theorem loadedBefore_total (logged : first ∈ log) (different : first ≠ second) :
    LoadedBefore log first second ∨ LoadedBefore log second first := by
  rcases Nat.lt_trichotomy (log.idxOf second) (log.idxOf first) with before | same | after
  · exact Or.inl before
  · exact absurd (List.idxOf_inj logged |>.mp same.symm) different
  · exact Or.inr after

end Log

/-! ## States in order -/

/-- The pages of an array of slots in the order of the log, every page other
than 0 being in the log. -/
structure Queued (log : List Int) (pages : Nat → Int) (next : Nat) : Prop where
  logged : ∀ i, i < next → pages i ≠ 0 → pages i ∈ log
  sorted : ∀ i j, i < j → j < next → pages i ≠ 0 → pages j ≠ 0 → pages i ≠ pages j →
    LoadedBefore log (pages i) (pages j)

theorem Queued.inMissOrder {log : List Int} {state : State}
    (queued : Queued log state.tlbTable.pageNumArr state.nextTLBentry) : InMissOrder log state := by
  intro i iInside j jInside iUsed jUsed different before
  rcases Nat.lt_trichotomy i j with below | rfl | above
  · exact below
  · exact absurd rfl different
  · exact absurd before
      (queued.sorted j i above iInside jUsed iUsed different.symm).asymm

theorem InMissOrder.queued {log : List Int} {state : State}
    (logged : ∀ i, i < state.nextTLBentry → state.tlbTable.pageNumArr i ≠ 0 →
      state.tlbTable.pageNumArr i ∈ log)
    (order : InMissOrder log state) :
    Queued log state.tlbTable.pageNumArr state.nextTLBentry where
  logged := logged
  sorted i j below jInside iUsed jUsed different := by
    rcases loadedBefore_total (logged i (by omega) iUsed) different with before | after
    · exact before
    · have := order j jInside i (by omega) jUsed iUsed different.symm after
      omega

/-- In a queue the order of two pages held is the order of their misses. -/
theorem Queued.precedes_iff {log : List Int} {state : State}
    (queued : Queued log state.tlbTable.pageNumArr state.nextTLBentry) {first second : Int}
    (firstUsed : first ≠ 0) (secondUsed : second ≠ 0) (different : first ≠ second) :
    Precedes state first second ↔
      (HoldsPage state first → HoldsPage state second → LoadedBefore log first second) := by
  constructor
  · rintro precedes ⟨i, iInside, rfl⟩ ⟨j, jInside, rfl⟩
    have below := precedes i iInside j jInside rfl rfl
    exact queued.sorted i j below jInside firstUsed secondUsed different
  · rintro before i iInside j jInside rfl rfl
    exact queued.inMissOrder i iInside j jInside firstUsed secondUsed different
      (before ⟨i, iInside, rfl⟩ ⟨j, jInside, rfl⟩)

/-- The new slots are a queue when they hold, besides the page accessed, what
slots from before held in the same order, and that page comes last. -/
theorem Queued.rebuild {log : List Int} {pages after : Nat → Int} {next afterNext : Nat}
    (queued : Queued log pages next) (pageNumber : Int) {source : Nat → Nat}
    (monotone : Monotone source)
    (stored : ∀ j, j < afterNext → after j = pageNumber ∨
      source j < next ∧ after j = pages (source j))
    (newest : pageNumber ≠ 0 → pageNumber ∈ log ∧ ∀ i j, i < j → j < afterNext →
      (after i = pageNumber → after j = pageNumber ∨ after j = 0) ∧
      (after j = pageNumber → after i ≠ pageNumber → after i ≠ 0 →
        LoadedBefore log (after i) pageNumber)) : Queued log after afterNext := by
  constructor
  · intro i inside used
    rcases stored i inside with here | ⟨old, from_source⟩
    · rw [here] at used ⊢
      exact (newest used).1
    · rw [from_source] at used ⊢
      exact queued.logged _ old used
  · intro i j below inside iUsed jUsed different
    by_cases iHere : after i = pageNumber
    · rw [iHere] at iUsed different
      rcases ((newest iUsed).2 i j below inside).1 iHere with same | free
      · exact absurd same.symm different
      · exact absurd free jUsed
    · by_cases jHere : after j = pageNumber
      · have used : pageNumber ≠ 0 := jHere ▸ jUsed
        rw [jHere]
        exact ((newest used).2 i j below inside).2 jHere iHere iUsed
      · rcases (stored i (by omega)).resolve_left iHere with ⟨_, iSource⟩
        rcases (stored j inside).resolve_left jHere with ⟨jOld, jSource⟩
        rw [iSource] at iUsed different ⊢
        rw [jSource] at jUsed different ⊢
        rcases Nat.lt_or_eq_of_le (monotone (Nat.le_of_lt below)) with less | same
        · exact queued.sorted _ _ less jOld iUsed jUsed different
        · exact absurd (congrArg pages same) different

/-! ## The three ways to store a page -/

section Store

variable {log : List Int} {pages after : Nat → Int} {next slot last : Nat} {pageNumber : Int}

/-- A page that no slot names is noted. -/
theorem Queued.note (queued : Queued log pages next)
    (absent : ∀ i, i < next → pages i ≠ pageNumber) : Queued (pageNumber :: log) pages next where
  logged i inside used := List.mem_cons_of_mem _ (queued.logged i inside used)
  sorted i j below inside iUsed jUsed different :=
    (loadedBefore_cons (absent i (by omega)) (absent j inside)).mpr
      (queued.sorted i j below inside iUsed jUsed different)

/-- The page that missed last is appended. -/
theorem Queued.append (queued : Queued log pages next)
    (absent : ∀ i, i < next → pages i ≠ pageNumber)
    (noted : pageNumber ≠ 0 → ∃ earlier, log = pageNumber :: earlier)
    (entries : ∀ j, after j = if j = next then pageNumber else pages j) :
    Queued log after (next + 1) := by
  apply queued.rebuild pageNumber monotone_id
  · intro j inside
    rw [entries j]
    by_cases isLast : j = next
    · exact Or.inl (if_pos isLast)
    · exact Or.inr ⟨show j < next by omega, if_neg isLast⟩
  · intro used
    rcases noted used with ⟨earlier, rfl⟩
    refine ⟨List.mem_cons_self, fun i j below inside => ⟨fun here => ?_, fun _ old _ => ?_⟩⟩
    · rw [entries i, if_neg (by omega)] at here
      exact absurd here (absent i (by omega))
    · exact loadedBefore_newest old

/-- The page that missed last takes the last two slots of a full TLB. -/
theorem Queued.overwrite (queued : Queued log pages 16)
    (absent : ∀ i, i < 16 → pages i ≠ pageNumber)
    (noted : pageNumber ≠ 0 → ∃ earlier, log = pageNumber :: earlier)
    (entries : ∀ j, j < 16 → after j = if j < 14 then pages (j + 1) else pageNumber) :
    Queued log after 16 := by
  have monotone : Monotone Nat.succ := fun _ _ below => Nat.succ_le_succ below
  apply queued.rebuild pageNumber monotone
  · intro j inside
    rw [entries j inside]
    by_cases shifted : j < 14
    · exact Or.inr ⟨by omega, if_pos shifted⟩
    · exact Or.inl (if_neg shifted)
  · intro used
    rcases noted used with ⟨earlier, rfl⟩
    refine ⟨List.mem_cons_self, fun i j below inside => ⟨fun here => ?_, fun _ old _ => ?_⟩⟩
    · by_cases shifted : i < 14
      · rw [entries i (by omega), if_pos shifted] at here
        exact absurd here (absent (i + 1) (by omega))
      · rw [entries j inside, if_neg (by omega)]
        exact Or.inl rfl
    · exact loadedBefore_newest old

/-- Where the entry of each slot but the last was before the page of `slot`
moved to the last one. -/
private def shifted (next slot j : Nat) : Nat :=
  if slot ≤ j ∧ j < next - 1 then j + 1 else j

private theorem monotone_shifted (next slot : Nat) : Monotone (shifted next slot) := by
  intro i j below
  unfold shifted
  split_ifs <;> omega

private theorem shifted_lt {i : Nat} (inside : i < next) : shifted next slot i < next := by
  unfold shifted
  split_ifs <;> omega

/-- The page of `slot` moves to the last slot, which is a new one or the same
one as before. -/
theorem Queued.requeue (queued : Queued log pages next) (held : pages slot = pageNumber)
    (inside : slot < next) (first : ∀ j, j < slot → pages j ≠ pageNumber)
    (alone : pageNumber ≠ 0 → ∀ j, slot < j → j < next → pages j = pageNumber ∨ pages j = 0)
    (upper : last ≤ next)
    (entries : ∀ j, after j = if j = last then pageNumber
      else if slot ≤ j ∧ j < next - 1 then pages (j + 1) else pages j) :
    Queued log after (last + 1) := by
  have old : ∀ j, j ≠ last → after j = pages (shifted next slot j) := by
    intro j other
    rw [entries j, if_neg other]
    unfold shifted
    split <;> rfl
  apply queued.rebuild pageNumber (monotone_shifted next slot)
  · intro j jInside
    by_cases isLast : j = last
    · exact Or.inl (by rw [entries j, if_pos isLast])
    · exact Or.inr ⟨shifted_lt (by omega), old j isLast⟩
  · intro used
    refine ⟨held ▸ queued.logged slot inside (held ▸ used), fun i j below jInside => ⟨?_, ?_⟩⟩
    · intro here
      by_cases isLast : j = last
      · exact Or.inl (by rw [entries j, if_pos isLast])
      · rw [old i (by omega)] at here
        have reached : slot ≤ shifted next slot i :=
          Nat.le_of_not_lt fun early => first _ early here
        rcases Nat.lt_or_eq_of_le (reached.trans (monotone_shifted next slot (Nat.le_of_lt below)))
          with above | same
        · rw [old j isLast]
          exact alone used _ above (shifted_lt (by omega))
        · exact Or.inl ((old j isLast).trans ((congrArg pages same.symm).trans held))
    · intro _ other iUsed
      rw [old i (by omega)] at other iUsed ⊢
      rcases Nat.lt_trichotomy (shifted next slot i) slot with early | same | late
      · have sorted := queued.sorted _ slot early inside iUsed (held ▸ used) (held ▸ other)
        rwa [held] at sorted
      · exact absurd ((congrArg pages same).trans held) other
      · rcases alone used _ late (shifted_lt (by omega)) with same | free
        · exact absurd same other
        · exact absurd free iUsed

/-- Moving a page to the last slot loses no page. -/
theorem requeue_holds (held : pages slot = pageNumber) (inside : slot < next)
    (lower : next ≤ last + 1) (upper : last ≤ next)
    (entries : ∀ j, after j = if j = last then pageNumber
      else if slot ≤ j ∧ j < next - 1 then pages (j + 1) else pages j) (q : Int) :
    (∃ i, i < last + 1 ∧ after i = q) ↔ ∃ i, i < next ∧ pages i = q := by
  constructor
  · rintro ⟨i, iInside, rfl⟩
    rw [entries]
    by_cases isLast : i = last
    · exact ⟨slot, inside, by rw [if_pos isLast]; exact held⟩
    · by_cases moved : slot ≤ i ∧ i < next - 1
      · exact ⟨i + 1, by omega, by rw [if_neg isLast, if_pos moved]⟩
      · exact ⟨i, by omega, by rw [if_neg isLast, if_neg moved]⟩
  · rintro ⟨i, iInside, rfl⟩
    rcases Nat.lt_trichotomy i slot with early | rfl | late
    · exact ⟨i, by omega, by rw [entries, if_neg (by omega), if_neg (by omega)]⟩
    · exact ⟨last, by omega, by rw [entries, if_pos rfl]; exact held.symm⟩
    · refine ⟨i - 1, by omega, ?_⟩
      rw [entries, if_neg (by omega), if_pos (by omega), show i - 1 + 1 = i by omega]

end Store

/-! ## One call -/

/-- A page that a slot below `nextTLBentry` names is a TLB hit. -/
theorem FifoRun.not_holds_of_missed {store : BackingStore} {past : List (BitVec 32)} {state : State}
    (fifo : FifoRun store past state) {pageNumber : Int}
    (missed : tlbFrame state pageNumber = -1) : ¬ HoldsPage state pageNumber := by
  rintro ⟨i, inside, held⟩
  have length := fifo.inStep.coherent.length
  have entries := fifo.inStep.coherent.entries
  have searched : i < state.tlbTable.length := by omega
  rcases exists_firstIndex searched held with ⟨found, search⟩
  rcases tlbSlot_spec length search with ⟨_, _, tlb⟩
  rcases firstIndex_eq_some search with ⟨_, _, _, first⟩
  have below : found ≤ i := Nat.le_of_not_lt fun late => first i (Nat.zero_le i) late held
  exact fifo.frames found (by omega) (tlb.symm.trans missed)

/-- A page other than 0, and in a full TLB any page, is a TLB miss when no slot
below `nextTLBentry` names it. -/
theorem FifoRun.missed_of_not_holds {store : BackingStore} {past : List (BitVec 32)} {state : State}
    (fifo : FifoRun store past state) {pageNumber : Int}
    (clear : pageNumber ≠ 0 ∨ state.nextTLBentry = 16) (unheld : ¬ HoldsPage state pageNumber) :
    tlbFrame state pageNumber = -1 := by
  have size : tlbSize = 16 := rfl
  by_contra hit
  rcases exists_tlbSlot fifo.inStep.coherent.length hit with ⟨i, inside, page, _⟩
  by_cases old : i < state.nextTLBentry
  · exact unheld ⟨i, old, page⟩
  · rcases clear with used | full
    · exact used (page.symm.trans (fifo.blank i (by omega) inside))
    · omega

/-- A run whose slots are a queue in the order of its log. -/
structure InOrder (store : BackingStore) (past : List (BitVec 32)) (state : State)
    (log : List Int) : Prop where
  fifo : FifoRun store past state
  queued : Queued log state.tlbTable.pageNumArr state.nextTLBentry

theorem bootState_inOrder (store : BackingStore) (fresh : FreshMemory) :
    InOrder store [] (bootState fresh) [] where
  fifo := bootState_fifoRun store fresh
  queued := ⟨fun _ inside => absurd inside (Nat.not_lt_zero _),
    fun _ j _ inside => absurd inside (Nat.not_lt_zero j)⟩

section Step

variable {store : BackingStore} {past : List (BitVec 32)} {state resolved next : State}
  {virtualAddr : BitVec 32} {frameNumber : Int} {log : List Int}

/-- An access to a page that no slot names is noted, unless it is page 0 and hits
a free slot. -/
theorem InOrder.noted (inOrder : InOrder store past state log)
    (absent : ∀ i, i < state.nextTLBentry → state.tlbTable.pageNumArr i ≠ pageOf virtualAddr) :
    Queued (missNote state virtualAddr ++ log) state.tlbTable.pageNumArr state.nextTLBentry ∧
      (pageOf virtualAddr ≠ 0 →
        ∃ earlier, missNote state virtualAddr ++ log = pageOf virtualAddr :: earlier) := by
  have unheld : ¬ HoldsPage state (pageOf virtualAddr) := by
    rintro ⟨i, inside, page⟩
    exact absent i inside page
  by_cases missed : tlbFrame state (pageOf virtualAddr) = -1
  · rw [missNote, if_pos missed]
    exact ⟨inOrder.queued.note absent, fun _ => ⟨log, rfl⟩⟩
  · rw [missNote, if_neg missed]
    exact ⟨inOrder.queued, fun used =>
      absurd (inOrder.fifo.missed_of_not_holds (Or.inl used) unheld) missed⟩

/-- An access to a page that a slot below `nextTLBentry` names is not noted. -/
theorem InOrder.not_noted (inOrder : InOrder store past state log) {slot : Nat}
    (inside : slot < state.nextTLBentry)
    (held : state.tlbTable.pageNumArr slot = pageOf virtualAddr) :
    missNote state virtualAddr = [] :=
  if_neg fun missed => inOrder.fifo.not_holds_of_missed missed ⟨slot, inside, held⟩

/-- The slots stay a queue. -/
theorem InOrder.queued_call (inOrder : InOrder store past state log)
    (call : Call '1' store state virtualAddr frameNumber resolved next)
    (safe : OrderSafe state (pageOf virtualAddr)) :
    Queued (missNote state virtualAddr ++ log) next.tlbTable.pageNumArr next.nextTLBentry := by
  have size : tlbSize = 16 := rfl
  cases call.fifo inOrder.fifo.inStep.coherent with
  | appended absent _ entries grown =>
      rcases inOrder.noted absent with ⟨queued, noted⟩
      rw [grown]
      apply queued.append absent noted
      intro j
      rw [VmTable.pageNumArr_eq (entries j)]
      split <;> rfl
  | overwrote absent full entries grown =>
      rcases inOrder.noted absent with ⟨queued, noted⟩
      rw [full, size] at queued absent
      rw [grown, size]
      apply queued.overwrite absent noted
      intro j inside
      rw [VmTable.pageNumArr_eq (entries j inside)]
      split <;> rfl
  | requeued slot inside held first _ entries grown =>
      rw [inOrder.not_noted inside held, List.nil_append, grown]
      apply inOrder.queued.requeue held inside first _ (Nat.le_refl _)
      · intro j
        rw [VmTable.pageNumArr_eq (entries j)]
        split_ifs <;> rfl
      · intro used j above jInside
        exact safe.hit used slot inside held j above jInside
  | movedToEnd slot inside held first full entries grown =>
      rw [inOrder.not_noted inside held, List.nil_append,
        show next.nextTLBentry = 15 + 1 from grown]
      apply inOrder.queued.requeue held inside first _ (by omega)
      · intro j
        rw [VmTable.pageNumArr_eq (entries j), show state.nextTLBentry - 1 = 15 by omega]
        split_ifs <;> rfl
      · intro used j above jInside
        exact safe.hit used slot inside held j above jInside

/-- A TLB hit keeps the pages held, page 0 apart. -/
theorem InOrder.hit_holds (inOrder : InOrder store past state log)
    (call : Call '1' store state virtualAddr frameNumber resolved next)
    (hit : tlbFrame state (pageOf virtualAddr) ≠ -1) {q : Int} (used : q ≠ 0) :
    HoldsPage next q ↔ HoldsPage state q := by
  have size : tlbSize = 16 := rfl
  have unheld : (∀ i, i < state.nextTLBentry →
      state.tlbTable.pageNumArr i ≠ pageOf virtualAddr) →
      pageOf virtualAddr = 0 ∧ state.nextTLBentry ≠ 16 := by
    intro absent
    have unheld : ¬ HoldsPage state (pageOf virtualAddr) := by
      rintro ⟨i, inside, page⟩
      exact absent i inside page
    constructor
    · by_contra clear
      exact hit (inOrder.fifo.missed_of_not_holds (Or.inl clear) unheld)
    · intro full
      exact hit (inOrder.fifo.missed_of_not_holds (Or.inr full) unheld)
  cases call.fifo inOrder.fifo.inStep.coherent with
  | appended absent _ entries grown =>
      rcases unheld absent with ⟨zero, _⟩
      rw [holdsPage_appended (heldEntries_appended entries grown)]
      exact or_iff_left fun same => used (same.trans zero)
  | overwrote absent full _ _ => exact absurd full (unheld absent).2
  | requeued slot inside held _ _ entries grown =>
      rw [HoldsPage, grown]
      apply requeue_holds held inside (by omega) (Nat.le_refl _)
      intro j
      rw [VmTable.pageNumArr_eq (entries j)]
      split_ifs <;> rfl
  | movedToEnd slot inside held _ full entries grown =>
      rw [HoldsPage, show next.nextTLBentry = 15 + 1 from grown]
      apply requeue_holds held inside (by omega) (by omega)
      intro j
      rw [VmTable.pageNumArr_eq (entries j), show state.nextTLBentry - 1 = 15 by omega]
      split_ifs <;> rfl

/-- A queue that stays one keeps its order on a hit. -/
theorem InOrder.hitKeepsOrder (inOrder : InOrder store past state log)
    (call : Call '1' store state virtualAddr frameNumber resolved next)
    (after : Queued (missNote state virtualAddr ++ log) next.tlbTable.pageNumArr
      next.nextTLBentry) : HitKeepsOrder state (pageOf virtualAddr) next := by
  intro hit first second firstUsed secondUsed different
  rw [missNote, if_neg hit, List.nil_append] at after
  rw [inOrder.queued.precedes_iff firstUsed secondUsed different,
    after.precedes_iff firstUsed secondUsed different, inOrder.hit_holds call hit firstUsed,
    inOrder.hit_holds call hit secondUsed]

/-- A miss in a full TLB evicts in order when the entry of slot 15 is not lost
before its turn. -/
theorem InOrder.missEvictsEarliest (inOrder : InOrder store past state log)
    (call : Call '1' store state virtualAddr frameNumber resolved next)
    (safe : OrderSafe state (pageOf virtualAddr)) :
    MissEvictsEarliest log state (pageOf virtualAddr) next := by
  have size : tlbSize = 16 := rfl
  rintro missed full evicted used ⟨i, iInside, rfl⟩ gone other otherUsed different
    ⟨j, jInside, rfl⟩
  have unheld := inOrder.fifo.not_holds_of_missed missed
  cases call.fifo inOrder.fifo.inStep.coherent with
  | appended _ room _ _ => omega
  | requeued slot inside held _ _ _ _ => exact absurd ⟨slot, inside, held⟩ unheld
  | movedToEnd slot inside held _ _ _ _ => exact absurd ⟨slot, inside, held⟩ unheld
  | overwrote absent _ entries grown =>
      -- What slots 1 to 14 name is kept, in slots 0 to 13.
      have lost : ∀ k, 0 < k → k < 15 →
          state.tlbTable.pageNumArr k ≠ state.tlbTable.pageNumArr i := by
        intro k positive kInside same
        apply gone
        refine ⟨k - 1, by omega, ?_⟩
        rw [VmTable.pageNumArr_eq (entries (k - 1) (by omega)), if_pos (by omega),
          show k - 1 + 1 = k by omega]
        exact same
      have edge : i = 0 ∨ i = 15 := by
        by_contra inner
        exact lost i (by omega) (by omega) rfl
      rcases edge with rfl | rfl
      · have above : 0 < j := Nat.pos_of_ne_zero fun same => different (by rw [same])
        exact inOrder.queued.sorted 0 j above jInside used otherUsed different.symm
      · rcases safe.miss full unheld with free | ⟨k, positive, kInside, same⟩ | only
        · exact absurd free used
        · exact absurd same (lost k positive kInside)
        · by_cases last : j = 15
          · exact absurd (by rw [last]) different
          · rcases only j (by omega) with free | same
            · exact absurd free otherUsed
            · exact absurd same different

/-- A hit that finds another page above moves its own page over that one. -/
private theorem InOrder.none_above (inOrder : InOrder store past state log) {slot last j : Nat}
    (used : pageOf virtualAddr ≠ 0) (inside : slot < state.nextTLBentry)
    (held : state.tlbTable.pageNumArr slot = pageOf virtualAddr) (above : slot < j)
    (jInside : j < state.nextTLBentry) (lower : state.nextTLBentry ≤ last + 1)
    (grown : next.nextTLBentry = last + 1)
    (pages : ∀ k, next.tlbTable.pageNumArr k = if k = last then pageOf virtualAddr
      else if slot ≤ k ∧ k < state.nextTLBentry - 1 then state.tlbTable.pageNumArr (k + 1)
      else state.tlbTable.pageNumArr k)
    (order : InMissOrder (missNote state virtualAddr ++ log) next) :
    state.tlbTable.pageNumArr j = pageOf virtualAddr ∨ state.tlbTable.pageNumArr j = 0 := by
  by_contra neither
  rw [not_or] at neither
  rcases neither with ⟨other, otherUsed⟩
  have before := inOrder.queued.sorted slot j above jInside (held ▸ used) otherUsed
    (held ▸ Ne.symm other)
  have moved : next.tlbTable.pageNumArr (j - 1) = state.tlbTable.pageNumArr j := by
    rw [pages, if_neg (by omega), if_pos (by omega), show j - 1 + 1 = j by omega]
  have newest : next.tlbTable.pageNumArr last = pageOf virtualAddr := by
    rw [pages, if_pos rfl]
  rw [inOrder.not_noted inside held, List.nil_append] at order
  have below : last < j - 1 := by
    apply order last (by omega) (j - 1) (by omega)
    · rwa [newest]
    · rwa [moved]
    · rw [newest, moved]
      exact Ne.symm other
    · rwa [newest, moved, ← held]
  omega

/-- A call that keeps the order was made in a state that is safe for it. -/
theorem InOrder.orderSafe (inOrder : InOrder store past state log)
    (call : Call '1' store state virtualAddr frameNumber resolved next)
    (order : InMissOrder (missNote state virtualAddr ++ log) next)
    (evicts : MissEvictsEarliest log state (pageOf virtualAddr) next) :
    OrderSafe state (pageOf virtualAddr) := by
  have size : tlbSize = 16 := rfl
  constructor
  · intro used i iInside iHeld j above jInside
    cases call.fifo inOrder.fifo.inStep.coherent with
    | appended absent _ _ _ => exact absurd iHeld (absent i iInside)
    | overwrote absent _ _ _ => exact absurd iHeld (absent i iInside)
    | requeued slot inside held first _ entries grown =>
        have reached : slot ≤ i := Nat.le_of_not_lt fun early => first i early iHeld
        apply inOrder.none_above used inside held (by omega) jInside (by omega) grown _ order
        intro k
        rw [VmTable.pageNumArr_eq (entries k)]
        split_ifs <;> rfl
    | movedToEnd slot inside held first full entries grown =>
        have reached : slot ≤ i := Nat.le_of_not_lt fun early => first i early iHeld
        have lower : state.nextTLBentry ≤ 15 + 1 := by omega
        apply inOrder.none_above used inside held (by omega) jInside lower grown _ order
        intro k
        rw [VmTable.pageNumArr_eq (entries k), show state.nextTLBentry - 1 = 15 by omega]
        split_ifs <;> rfl
  · intro full unheld
    have missed := inOrder.fifo.missed_of_not_holds (Or.inr full) unheld
    by_contra unsafeLast
    rw [not_or, not_or] at unsafeLast
    rcases unsafeLast with ⟨used, single, others⟩
    push Not at others
    rcases others with ⟨m, mInside, mUsed, different⟩
    have gone : ¬ HoldsPage next (state.tlbTable.pageNumArr 15) := by
      rintro ⟨i, iInside, page⟩
      cases call.fifo inOrder.fifo.inStep.coherent with
      | appended _ room _ _ => omega
      | requeued slot inside held _ _ _ _ => exact unheld ⟨slot, inside, held⟩
      | movedToEnd slot inside held _ _ _ _ => exact unheld ⟨slot, inside, held⟩
      | overwrote absent _ entries grown =>
          rw [VmTable.pageNumArr_eq (entries i (by omega))] at page
          by_cases shift : i < 14
          · rw [if_pos shift] at page
            exact single ⟨i + 1, by omega, by omega, page⟩
          · rw [if_neg shift] at page
            exact absent 15 (by omega) page.symm
    have early := evicts missed full _ used ⟨15, by omega, rfl⟩ gone _ mUsed different
      ⟨m, by omega, rfl⟩
    have late := inOrder.queued.sorted m 15 mInside (by omega) mUsed used different
    exact late.asymm early

end Step

/-! ## Every run -/

theorem runLogged_fst (store : BackingStore) (fresh : FreshMemory) (addresses : List (BitVec 32)) :
    (runLogged store fresh addresses).map Prod.fst = run '1' store fresh addresses :=
  exec_record_fst (mainStep '1' store) missNote (bootState fresh) [] addresses

theorem runLogged_snoc {store : BackingStore} {fresh : FreshMemory} {past : List (BitVec 32)}
    {virtualAddr : BitVec 32} {state next : State} {log : List Int}
    (reached : runLogged store fresh past = some (state, log))
    (steps : mainStep '1' store state virtualAddr = some next) :
    runLogged store fresh (past ++ [virtualAddr]) =
      some (next, missNote state virtualAddr ++ log) := by
  rw [runLogged, exec_snoc]
  refine (congrArg (Option.bind · _) reached).trans ?_
  rw [Option.bind_some, record, steps, Option.map_some]

/-- A run whose steps are all safe is in order. -/
theorem run_inOrder (store : BackingStore) (fresh : FreshMemory) (addresses : List (BitVec 32))
    (safe : ∀ past virtualAddr rest, addresses = past ++ virtualAddr :: rest → ∀ state log,
      runLogged store fresh past = some (state, log) → InOrder store past state log →
        OrderSafe state (pageOf virtualAddr)) :
    ∃ final log, runLogged store fresh addresses = some (final, log) ∧
      InOrder store addresses final log := by
  induction addresses using List.reverseRecOn with
  | nil => exact ⟨_, _, rfl, bootState_inOrder store fresh⟩
  | append_singleton past virtualAddr ih =>
      obtain ⟨state, log, reached, inOrder⟩ := ih (by
        intro earlier now rest split
        exact safe earlier now (rest ++ [virtualAddr]) (by simp [split]))
      rcases exists_call '1' inOrder.fifo.inStep.loaded virtualAddr with ⟨_, _, next, call, frame⟩
      have here := safe past virtualAddr [] rfl state log reached inOrder
      exact ⟨next, _, runLogged_snoc reached call.steps, inOrder.fifo.call call frame,
        inOrder.queued_call call here⟩

/-- The state of a logged run is the state of the run. -/
private theorem run_of_runLogged {store : BackingStore} {fresh : FreshMemory}
    {past : List (BitVec 32)} {state : State} {log : List Int}
    (reached : runLogged store fresh past = some (state, log)) :
    run '1' store fresh past = some state := by
  rw [← runLogged_fst, reached, Option.map_some]

/-- `tlbFIFOinsert` evicts first in, first out exactly in the runs that make
every access in a state that is safe for it. -/
theorem tlbFIFOinsert_evictsInOrder_iff (store : BackingStore) (fresh : FreshMemory)
    (addresses : List (BitVec 32)) :
    EvictsInOrder store fresh addresses ↔
      ∀ past virtualAddr rest, addresses = past ++ virtualAddr :: rest → ∀ before,
        run '1' store fresh past = some before → OrderSafe before (pageOf virtualAddr) := by
  constructor
  · rintro ⟨ordered, evicts⟩ past virtualAddr rest rfl
    have step : ∀ earlier now later, past ++ [virtualAddr] = earlier ++ now :: later →
        ∀ state log, runLogged store fresh earlier = some (state, log) →
          InOrder store earlier state log → OrderSafe state (pageOf now) := by
      intro earlier now later split state log reached inOrder
      have whole : past ++ virtualAddr :: rest = earlier ++ now :: (later ++ rest) := by
        rw [List.append_cons, split, List.append_assoc, List.cons_append]
      rcases exists_call '1' inOrder.fifo.inStep.loaded now with ⟨_, _, next, call, _⟩
      have order := ordered (earlier ++ [now]) (later ++ rest)
        (by rw [whole, List.append_cons]) next _ (runLogged_snoc reached call.steps)
      exact inOrder.orderSafe call order
        (evicts earlier now _ whole state log next reached call.steps).2
    obtain ⟨state, log, reached, inOrder⟩ :=
      run_inOrder store fresh past (by
        intro earlier now later split
        exact step earlier now (later ++ [virtualAddr]) (by simp [split]))
    intro before beforeReached
    obtain rfl := Option.some.inj ((run_of_runLogged reached).symm.trans beforeReached)
    exact step past virtualAddr [] rfl state log reached inOrder
  · intro safe
    have inOrder : ∀ past rest, addresses = past ++ rest → ∀ state log,
        runLogged store fresh past = some (state, log) → InOrder store past state log := by
      rintro past rest rfl state log reached
      obtain ⟨same, sameLog, sameReached, inOrder⟩ :=
        run_inOrder store fresh past (by
          rintro earlier now later rfl before _ beforeReached _
          exact safe earlier now (later ++ rest) (by simp) before
            (run_of_runLogged beforeReached))
      rcases Prod.mk.inj (Option.some.inj (sameReached.symm.trans reached)) with ⟨rfl, rfl⟩
      exact inOrder
    constructor
    · intro past rest split state log reached
      exact (inOrder past rest split state log reached).queued.inMissOrder
    · intro past virtualAddr rest split before log after reached steps
      have here := inOrder past (virtualAddr :: rest) split before log reached
      have safeHere := safe past virtualAddr rest split before (run_of_runLogged reached)
      rcases exists_call '1' here.fifo.inStep.loaded virtualAddr with ⟨_, _, next, call, _⟩
      obtain rfl := Option.some.inj (call.steps.symm.trans steps)
      exact ⟨here.hitKeepsOrder call (here.queued_call call safeHere),
        here.missEvictsEarliest call safeHere⟩

/-- Pages 1, 2 and 1 again: page 1, which missed first, ends up above page 2. -/
theorem evictsInOrder_fails_on_hit :
    ¬ EvictsInOrder (fun _ => 0#8) FreshMemory.zero [0x100#32, 0x200#32, 0x100#32] := by
  have computed : ((runLogged (fun _ => 0#8) FreshMemory.zero
      [0x100#32, 0x200#32, 0x100#32]).map fun logged =>
        (logged.1.nextTLBentry, logged.1.tlbTable.pageNumArr 0, logged.1.tlbTable.pageNumArr 2,
          logged.2)) = some (3, 2, 1, [2, 1]) := by
    decide
  intro evicts
  rcases Option.map_eq_some_iff.mp computed with ⟨⟨state, log⟩, reached, slots⟩
  obtain ⟨count, left, right, rfl⟩ : state.nextTLBentry = 3 ∧ state.tlbTable.pageNumArr 0 = 2 ∧
      state.tlbTable.pageNumArr 2 = 1 ∧ log = [2, 1] := by
    simpa only [Prod.mk.injEq] using slots
  have below := evicts.1 [0x100#32, 0x200#32, 0x100#32] [] rfl state [2, 1] reached
    2 (by omega) 0 (by omega) (by omega) (by omega) (by omega)
    (by rw [left, right, LoadedBefore]; decide)
  omega

end ComputerSystems.VirtualMemory

import ComputerSystems.Recency.Order
import ComputerSystems.VirtualMemory.Coherence

/-!
# LRU replacement

Under `algo_choice` 2 the age of a slot that names a page other than 0 counts
the calls since the last access to that page, so ages never tie and the oldest
entry is the least recently used one. The nonzero slots are always the most
recent pages; only an access to page 0 in a full TLB gives one of them up.
-/

namespace ComputerSystems.VirtualMemory

open ComputerSystems.Recency
open ComputerSystems.Transition

/-- The pages accessed, most recent first. -/
def history (addresses : List (BitVec 32)) : List Int :=
  (addresses.map pageOf).reverse

/-- The distinct pages other than 0 of a history, most recently accessed
first. -/
def recentPages (history : List Int) : List Int :=
  (recents history).filter (· ≠ 0)

/-- The slots that name a page other than 0. -/
def usedSlots (tlb : VmTable) : Finset Nat :=
  (Finset.range tlbSize).filter fun i => tlb.pageNumArr i ≠ 0

theorem history_snoc (past : List (BitVec 32)) (virtualAddr : BitVec 32) :
    history (past ++ [virtualAddr]) = pageOf virtualAddr :: history past := by
  simp [history]

theorem nodup_recentPages (history : List Int) : (recentPages history).Nodup :=
  (nodup_recents history).filter _

theorem recentPages_cons {pageNumber : Int} (used : pageNumber ≠ 0) (history : List Int) :
    recentPages (pageNumber :: history) = promote pageNumber (recentPages history) := by
  simp only [recentPages, recents_cons, promote, List.filter_cons, ne_eq, used, not_false_eq_true,
    decide_true, if_true, List.filter_filter, Bool.and_comm]

theorem recentPages_zero (history : List Int) :
    recentPages (0 :: history) = recentPages history := by
  simp [recentPages, recents_cons, promote, List.filter_filter]

theorem recentPages_sorted (history : List Int) :
    (recentPages history).Pairwise fun x y => history.idxOf x < history.idxOf y :=
  (recents_sorted history).filter _

theorem mem_usedSlots {tlb : VmTable} {i : Nat} :
    i ∈ usedSlots tlb ↔ i < tlbSize ∧ tlb.pageNumArr i ≠ 0 := by
  simp [usedSlots]

theorem card_usedSlots_eq {tlb : VmTable} :
    (usedSlots tlb).card = 16 ↔ ∀ i, i < tlbSize → tlb.pageNumArr i ≠ 0 := by
  rw [show 16 = (Finset.range tlbSize).card from (Finset.card_range tlbSize).symm, usedSlots,
    Finset.card_filter_eq_iff]
  simp only [Finset.mem_range]

/-- The TLB under LRU replacement after the accesses of a history. -/
structure TrueLru (history : List Int) (tlb : VmTable) : Prop where
  distinct : ∀ i, i < tlbSize → ∀ j, j < tlbSize → tlb.pageNumArr i ≠ 0 →
    tlb.pageNumArr i = tlb.pageNumArr j → i = j
  resident : ∀ pageNumber, (pageNumber ≠ 0 ∧ ∃ i, i < tlbSize ∧ tlb.pageNumArr i = pageNumber) ↔
    pageNumber ∈ (recentPages history).take (usedSlots tlb).card
  ages : ∀ i, i < tlbSize → tlb.pageNumArr i ≠ 0 →
    tlb.entryAgeArr i = history.idxOf (tlb.pageNumArr i)
  enough : min 15 (recentPages history).length ≤ (usedSlots tlb).card
  exact : 0 ∉ history → (usedSlots tlb).card = min 16 (recentPages history).length

theorem trueLru_createVMtable (frames ages : Nat → Int) :
    TrueLru [] (createVMtable tlbSize frames ages) := by
  have unused : usedSlots (createVMtable tlbSize frames ages) = ∅ := by
    simp [usedSlots, createVMtable]
  constructor
  · intro i _ j _ used
    exact absurd rfl used
  · intro pageNumber
    rw [unused]
    simp only [Finset.card_empty, List.take_zero, List.not_mem_nil, iff_false]
    rintro ⟨used, i, _, page⟩
    exact used page.symm
  · intro i _ used
    exact absurd rfl used
  · simp [recentPages]
  · intro _
    simp [unused, recentPages]

theorem TrueLru.card_le {history : List Int} {tlb : VmTable} (lru : TrueLru history tlb) :
    (usedSlots tlb).card ≤ (recentPages history).length := by
  have maps : ∀ i ∈ usedSlots tlb, tlb.pageNumArr i ∈
      ((recentPages history).take (usedSlots tlb).card).toFinset := by
    intro i member
    rcases mem_usedSlots.mp member with ⟨inside, used⟩
    exact List.mem_toFinset.mpr ((lru.resident _).mp ⟨used, i, inside, rfl⟩)
  have injective : Set.InjOn tlb.pageNumArr (usedSlots tlb) := by
    intro i iMember j jMember same
    rcases mem_usedSlots.mp iMember with ⟨iInside, iUsed⟩
    rcases mem_usedSlots.mp jMember with ⟨jInside, _⟩
    exact lru.distinct i iInside j jInside iUsed same
  calc
    (usedSlots tlb).card
        ≤ ((recentPages history).take (usedSlots tlb).card).toFinset.card :=
      Finset.card_le_card_of_injOn _ maps injective
    _ ≤ ((recentPages history).take (usedSlots tlb).card).length := List.toFinset_card_le _
    _ ≤ (recentPages history).length := by
      rw [List.length_take]
      omega

/-! ## One insertion -/

section Step

variable {history : List Int} {tlb after : VmTable} {pageNumber : Int}

/-- The used slots after a page other than 0 went into a slot. -/
private theorem usedSlots_store {slot : Nat} (inside : slot < tlbSize) (used : pageNumber ≠ 0)
    (pages : ∀ j, after.pageNumArr j = if j = slot then pageNumber else tlb.pageNumArr j) :
    usedSlots after = insert slot (usedSlots tlb) := by
  ext j
  rw [Finset.mem_insert, mem_usedSlots, mem_usedSlots, pages]
  by_cases here : j = slot
  · simp [here, inside, used]
  · simp [here]

/-- The used slots after page 0 went into a slot. -/
private theorem usedSlots_clear {slot : Nat}
    (pages : ∀ j, after.pageNumArr j = if j = slot then 0 else tlb.pageNumArr j) :
    usedSlots after = (usedSlots tlb).erase slot := by
  ext j
  rw [Finset.mem_erase, mem_usedSlots, mem_usedSlots, pages]
  by_cases here : j = slot
  · simp [here]
  · simp [here]

private theorem usedSlots_congr (pages : ∀ j, after.pageNumArr j = tlb.pageNumArr j) :
    usedSlots after = usedSlots tlb := by
  ext j
  rw [mem_usedSlots, mem_usedSlots, pages]

/-- The pages named after an entry went into a slot: the new one, and those
that another slot names. -/
private theorem named_store {slot : Nat} (inside : slot < tlbSize)
    (pages : ∀ j, after.pageNumArr j = if j = slot then pageNumber else tlb.pageNumArr j)
    (q : Int) :
    (q ≠ 0 ∧ ∃ j, j < tlbSize ∧ after.pageNumArr j = q) ↔
      (q ≠ 0 ∧ q = pageNumber) ∨
        (q ≠ 0 ∧ ∃ j, j < tlbSize ∧ j ≠ slot ∧ tlb.pageNumArr j = q) := by
  constructor
  · rintro ⟨used, j, jInside, page⟩
    rw [pages] at page
    by_cases here : j = slot
    · rw [if_pos here] at page
      exact Or.inl ⟨used, page.symm⟩
    · rw [if_neg here] at page
      exact Or.inr ⟨used, j, jInside, here, page⟩
  · rintro (⟨used, rfl⟩ | ⟨used, j, jInside, other, page⟩)
    · exact ⟨used, slot, inside, (pages slot).trans (if_pos rfl)⟩
    · exact ⟨used, j, jInside, ((pages j).trans (if_neg other)).trans page⟩

/-- Ages of the slots that keep their page: one more call has been made since
the last access to it. -/
private theorem TrueLru.aged (lru : TrueLru history tlb) {j : Nat} (inside : j < tlbSize)
    (used : tlb.pageNumArr j ≠ 0) (other : tlb.pageNumArr j ≠ pageNumber) :
    agedBy tlb pageNumber j = (pageNumber :: history).idxOf (tlb.pageNumArr j) := by
  rw [agedBy, if_pos ⟨other, used⟩, lru.ages j inside used, List.idxOf_cons_ne _ other.symm]
  push_cast
  rfl

/-- The page is there already: nothing moves, and its age starts over. -/
theorem TrueLru.there (lru : TrueLru history tlb) {slot : Nat} (inside : slot < tlbSize)
    (held : tlb.pageNumArr slot = pageNumber)
    (pages : ∀ j, after.pageNumArr j = tlb.pageNumArr j)
    (ages : ∀ j, j < tlbSize → after.entryAgeArr j = agedBy tlb pageNumber j) :
    TrueLru (pageNumber :: history) after := by
  have order : ∀ q, q ∈ (recentPages (pageNumber :: history)).take (usedSlots tlb).card ↔
      q ∈ (recentPages history).take (usedSlots tlb).card := by
    intro q
    by_cases used : pageNumber = 0
    · rw [used, recentPages_zero]
    · rw [recentPages_cons used]
      exact mem_take_promote_of_mem (nodup_recentPages history)
        ((lru.resident pageNumber).mp ⟨used, slot, inside, held⟩)
  have length : (recentPages (pageNumber :: history)).length = (recentPages history).length := by
    by_cases used : pageNumber = 0
    · rw [used, recentPages_zero]
    · rw [recentPages_cons used]
      exact length_promote_of_mem (nodup_recentPages history)
        (List.mem_of_mem_take ((lru.resident pageNumber).mp ⟨used, slot, inside, held⟩))
  constructor
  · intro i iInside j jInside
    rw [pages, pages]
    exact lru.distinct i iInside j jInside
  · intro q
    simp only [pages, usedSlots_congr pages]
    rw [lru.resident, order]
  · intro j jInside
    rw [pages, ages j jInside]
    intro used
    by_cases same : tlb.pageNumArr j = pageNumber
    · have first : ∀ k, k < j → tlb.pageNumArr k ≠ pageNumber := by
        intro k kInside page
        have := lru.distinct j jInside k (by omega) used (same.trans page.symm)
        omega
      rw [agedBy, if_neg (fun both => both.1 same), if_pos ⟨same, first⟩, same,
        List.idxOf_cons_self]
      rfl
    · exact lru.aged jInside used same
  · rw [usedSlots_congr pages, length]
    exact lru.enough
  · intro never
    rw [usedSlots_congr pages, length]
    exact lru.exact fun member => never (List.mem_cons_of_mem _ member)

/-- The slot of greatest age, when all are used, names the last of the 16 most
recent pages. -/
theorem TrueLru.oldest (lru : TrueLru history tlb) {slot : Nat} (inside : slot < tlbSize)
    (full : ∀ j, j < tlbSize → tlb.pageNumArr j ≠ 0)
    (oldest : ∀ j, j < tlbSize → tlb.entryAgeArr j ≤ tlb.entryAgeArr slot) :
    ∃ bound : 15 < (recentPages history).length,
      tlb.pageNumArr slot = (recentPages history)[15] := by
  have size : tlbSize = 16 := rfl
  have all : (usedSlots tlb).card = 16 := card_usedSlots_eq.mpr full
  have long := lru.card_le
  rw [all] at long
  refine ⟨by omega, ?_⟩
  have resident := (lru.resident (tlb.pageNumArr slot)).mp ⟨full slot inside, slot, inside, rfl⟩
  have last : (recentPages history)[15] ∈ (recentPages history).take (usedSlots tlb).card := by
    rw [all]
    exact List.mem_take_iff_getElem.mpr ⟨15, by omega, rfl⟩
  rcases (lru.resident _).mpr last with ⟨_, j, jInside, jPage⟩
  by_contra other
  rw [all] at resident
  have before : tlb.pageNumArr slot ∈ (recentPages history).take 15 :=
    (mem_take_iff_ne_last (nodup_recentPages history) (by omega)).mpr ⟨resident, other⟩
  rcases List.mem_take_iff_getElem.mp before with ⟨a, aInside, aPage⟩
  have sorted := List.pairwise_iff_getElem.mp (recentPages_sorted history) a 15 (by omega)
    (by omega) (by omega)
  have younger := oldest j jInside
  rw [lru.ages j jInside (full j jInside), lru.ages slot inside (full slot inside), jPage,
    ← aPage] at younger
  omega

/-- The other slots then name the 15 most recent pages. -/
private theorem TrueLru.others (lru : TrueLru history tlb) {slot : Nat} (inside : slot < tlbSize)
    (full : ∀ j, j < tlbSize → tlb.pageNumArr j ≠ 0)
    (oldest : ∀ j, j < tlbSize → tlb.entryAgeArr j ≤ tlb.entryAgeArr slot) (q : Int) :
    (q ≠ 0 ∧ ∃ j, j < tlbSize ∧ j ≠ slot ∧ tlb.pageNumArr j = q) ↔
      q ∈ (recentPages history).take 15 := by
  rcases lru.oldest inside full oldest with ⟨long, victim⟩
  have all : (usedSlots tlb).card = 16 := card_usedSlots_eq.mpr full
  rw [mem_take_iff_ne_last (nodup_recentPages history) long, ← victim,
    show 15 + 1 = (usedSlots tlb).card from all.symm, ← lru.resident q]
  constructor
  · rintro ⟨qUsed, j, jInside, other, page⟩
    refine ⟨⟨qUsed, j, jInside, page⟩, ?_⟩
    intro same
    exact other (lru.distinct j jInside slot inside (full j jInside) (page.trans same))
  · rintro ⟨⟨qUsed, j, jInside, page⟩, different⟩
    refine ⟨qUsed, j, jInside, ?_, page⟩
    rintro rfl
    exact different page.symm

/-- Distinctness and ages once a page that was nowhere is in one slot. -/
private theorem TrueLru.placed (lru : TrueLru history tlb) {slot : Nat}
    (absent : ∀ j, j < tlbSize → tlb.pageNumArr j ≠ pageNumber)
    (pages : ∀ j, after.pageNumArr j = if j = slot then pageNumber else tlb.pageNumArr j)
    (ages : ∀ j, j < tlbSize → after.entryAgeArr j =
      if j = slot then 0 else agedBy tlb pageNumber j) :
    (∀ i, i < tlbSize → ∀ j, j < tlbSize → after.pageNumArr i ≠ 0 →
      after.pageNumArr i = after.pageNumArr j → i = j) ∧
    ∀ j, j < tlbSize → after.pageNumArr j ≠ 0 →
      after.entryAgeArr j = (pageNumber :: history).idxOf (after.pageNumArr j) := by
  constructor
  · intro i iInside j jInside used same
    rw [pages i] at used same
    rw [pages j] at same
    by_cases iHere : i = slot
    · by_cases jHere : j = slot
      · rw [iHere, jHere]
      · rw [if_pos iHere, if_neg jHere] at same
        exact absurd same.symm (absent j jInside)
    · by_cases jHere : j = slot
      · rw [if_neg iHere, if_pos jHere] at same
        exact absurd same (absent i iInside)
      · rw [if_neg iHere] at used same
        rw [if_neg jHere] at same
        exact lru.distinct i iInside j jInside used same
  · intro j jInside used
    rw [pages] at used ⊢
    rw [ages j jInside]
    by_cases here : j = slot
    · rw [if_pos here, if_pos here, List.idxOf_cons_self]
      rfl
    · rw [if_neg here] at used
      rw [if_neg here, if_neg here]
      exact lru.aged jInside used (absent j jInside)

/-- The page goes into a free slot: one more slot is used. -/
theorem TrueLru.fill (lru : TrueLru history tlb) {slot : Nat} (inside : slot < tlbSize)
    (absent : ∀ j, j < tlbSize → tlb.pageNumArr j ≠ pageNumber)
    (free : tlb.pageNumArr slot = 0)
    (pages : ∀ j, after.pageNumArr j = if j = slot then pageNumber else tlb.pageNumArr j)
    (ages : ∀ j, j < tlbSize → after.entryAgeArr j =
      if j = slot then 0 else agedBy tlb pageNumber j) :
    TrueLru (pageNumber :: history) after := by
  have used : pageNumber ≠ 0 := fun zero => absent slot inside (free.trans zero.symm)
  have unused : slot ∉ usedSlots tlb := fun member => (mem_usedSlots.mp member).2 free
  have card : (usedSlots after).card = (usedSlots tlb).card + 1 := by
    rw [usedSlots_store inside used pages, Finset.card_insert_of_notMem unused]
  have outside : pageNumber ∉ (recentPages history).take (usedSlots tlb).card := by
    intro member
    rcases (lru.resident pageNumber).mpr member with ⟨_, j, jInside, page⟩
    exact absent j jInside page
  rcases lru.placed absent pages ages with ⟨distinct, newAges⟩
  refine ⟨distinct, ?_, newAges, ?_, ?_⟩
  · intro q
    rw [card, recentPages_cons used, take_promote_of_not_mem outside, List.mem_cons,
      ← lru.resident q, named_store inside pages]
    constructor
    · rintro (⟨_, same⟩ | ⟨qUsed, j, jInside, _, page⟩)
      · exact Or.inl same
      · exact Or.inr ⟨qUsed, j, jInside, page⟩
    · rintro (rfl | ⟨qUsed, j, jInside, page⟩)
      · exact Or.inl ⟨used, rfl⟩
      · refine Or.inr ⟨qUsed, j, jInside, ?_, page⟩
        rintro rfl
        exact qUsed (page.symm.trans free)
  · have shorter := length_promote_le pageNumber (recentPages history)
    have enough := lru.enough
    rw [card, recentPages_cons used]
    omega
  · intro never
    have exact := lru.exact fun member => never (List.mem_cons_of_mem _ member)
    have room : (usedSlots tlb).card < 16 := by
      have proper : (usedSlots tlb).card < (Finset.range tlbSize).card :=
        Finset.card_lt_card (Finset.filter_ssubset.mpr
          ⟨slot, Finset.mem_range.mpr inside, not_not.mpr free⟩)
      rwa [Finset.card_range] at proper
    have whole : (recentPages history).take (usedSlots tlb).card = recentPages history :=
      List.take_of_length_le (by omega)
    rw [whole] at outside
    rw [card, recentPages_cons used, length_promote_of_not_mem outside]
    omega

/-- The page replaces the oldest entry of a TLB whose slots are all used. -/
theorem TrueLru.replace (lru : TrueLru history tlb) {slot : Nat} (inside : slot < tlbSize)
    (absent : ∀ j, j < tlbSize → tlb.pageNumArr j ≠ pageNumber)
    (full : ∀ j, j < tlbSize → tlb.pageNumArr j ≠ 0)
    (oldest : ∀ j, j < tlbSize → tlb.entryAgeArr j ≤ tlb.entryAgeArr slot)
    (pages : ∀ j, after.pageNumArr j = if j = slot then pageNumber else tlb.pageNumArr j)
    (ages : ∀ j, j < tlbSize → after.entryAgeArr j =
      if j = slot then 0 else agedBy tlb pageNumber j) :
    TrueLru (pageNumber :: history) after := by
  rcases lru.oldest inside full oldest with ⟨long, _⟩
  have all : (usedSlots tlb).card = 16 := card_usedSlots_eq.mpr full
  have kept := lru.others inside full oldest
  rcases lru.placed absent pages ages with ⟨distinct, newAges⟩
  by_cases zero : pageNumber = 0
  · subst zero
    have card : (usedSlots after).card = 15 := by
      rw [usedSlots_clear pages,
        Finset.card_erase_of_mem (mem_usedSlots.mpr ⟨inside, full slot inside⟩),
        all]
    refine ⟨distinct, ?_, newAges, ?_, ?_⟩
    · intro q
      rw [card, recentPages_zero, ← kept q, named_store inside pages]
      exact or_iff_right fun both => both.1 both.2
    · rw [card]
      exact Nat.min_le_left _ _
    · intro never
      exact absurd List.mem_cons_self never
  · have card : (usedSlots after).card = 16 := by
      rw [usedSlots_store inside zero pages,
        Finset.insert_eq_of_mem (mem_usedSlots.mpr ⟨inside, full slot inside⟩), all]
    have outside : pageNumber ∉ (recentPages history).take 15 := by
      intro member
      rcases (kept pageNumber).mpr member with ⟨_, j, jInside, _, page⟩
      exact absent j jInside page
    have longer := length_le_promote (nodup_recentPages history) pageNumber
    refine ⟨distinct, ?_, newAges, ?_, ?_⟩
    · intro q
      rw [card, recentPages_cons zero, take_promote_of_not_mem outside, List.mem_cons, ← kept q,
        named_store inside pages]
      exact or_congr_left ⟨And.right, fun same => ⟨same ▸ zero, same⟩⟩
    · rw [card]
      omega
    · intro _
      rw [card, recentPages_cons zero]
      omega

/-- `tlbLRUinsert` keeps the TLB in LRU order, whatever it is called with. -/
theorem TrueLru.insert (lru : TrueLru history tlb) (pageNumber frameNumber : Int) :
    TrueLru (pageNumber :: history) (lruSlots tlb pageNumber frameNumber) := by
  have pagesOf : ∀ {slot : Nat} {j : Nat},
      (lruSlots tlb pageNumber frameNumber).entry j =
        (if j = slot then (pageNumber, frameNumber) else tlb.entry j) →
      (lruSlots tlb pageNumber frameNumber).pageNumArr j =
        if j = slot then pageNumber else tlb.pageNumArr j := by
    intro slot j stored
    have page := congrArg Prod.fst stored
    by_cases here : j = slot
    · rwa [if_pos here] at page ⊢
    · rwa [if_neg here] at page ⊢
  cases lruSlots_outcome tlb pageNumber frameNumber with
  | there slot inside held entries ages =>
      exact lru.there inside held (fun j => congrArg Prod.fst (entries j)) ages
  | placed slot inside absent victim entries ages =>
      rcases victim with free | ⟨full, oldest⟩
      · exact lru.fill inside absent free (fun j => pagesOf (entries j)) ages
      · exact lru.replace inside absent full oldest (fun j => pagesOf (entries j)) ages

end Step

/-! ## Every run -/

theorem TrueLru.congr {history : List Int} {after before : VmTable}
    (pages : after.pageNumArr = before.pageNumArr) (ages : after.entryAgeArr = before.entryAgeArr)
    (lru : TrueLru history before) : TrueLru history after := by
  have slots : usedSlots after = usedSlots before := usedSlots_congr (congrFun pages)
  rcases lru with ⟨distinct, resident, aged, enough, exact⟩
  constructor
  · rwa [pages]
  · rwa [slots, pages]
  · rwa [pages, ages]
  · rwa [slots]
  · rwa [slots]

/-- Every run under `algo_choice` 2 keeps the TLB in LRU order. -/
theorem run_trueLru (store : BackingStore) (fresh : FreshMemory)
    (addresses : List (BitVec 32)) :
    ∃ final, run '2' store fresh addresses = some final ∧
      InStep store addresses final ∧ TrueLru (history addresses) final.tlbTable := by
  apply exec_always (fun past state => InStep store past state ∧
    TrueLru (history past) state.tlbTable)
  · exact ⟨bootState_inStep store fresh, trueLru_createVMtable _ _⟩
  · rintro past virtualAddr state ⟨inStep, lru⟩
    obtain ⟨frameNumber, resolved, next, call, frame⟩ :=
      exists_call '2' inStep.loaded virtualAddr
    refine ⟨next, call.steps, inStep.call call frame, ?_⟩
    have searched : TrueLru (history past) resolved.tlbTable :=
      lru.congr call.slots.pages call.slots.ages
    rw [history_snoc, call.tlb]
    exact searched.insert (pageOf virtualAddr) frameNumber

/-- True LRU. Under `algo_choice` 2 the slots that name a page other than 0
name distinct pages, the most recently accessed ones; their ages order them by
the number of calls since the last access; there are at least
`min 15 d` of them, where `d` pages other than 0 have been accessed, and
`min 16 d` if page 0 never was. -/
theorem tlbLRUinsert_is_true_lru (store : BackingStore) (fresh : FreshMemory)
    (addresses : List (BitVec 32)) :
    ∃ state, run '2' store fresh addresses = some state ∧
      (∀ i, i < 16 → ∀ j, j < 16 → i ≠ j → state.tlbTable.pageNumArr i ≠ 0 →
        state.tlbTable.pageNumArr i ≠ state.tlbTable.pageNumArr j) ∧
      (∀ pageNumber,
        (pageNumber ≠ 0 ∧ ∃ i, i < 16 ∧ state.tlbTable.pageNumArr i = pageNumber) ↔
          pageNumber ∈ (recentPages (history addresses)).take (usedSlots state.tlbTable).card) ∧
      (∀ i, i < 16 → ∀ j, j < 16 → i ≠ j →
        state.tlbTable.pageNumArr i ≠ 0 → state.tlbTable.pageNumArr j ≠ 0 →
          state.tlbTable.entryAgeArr i ≠ state.tlbTable.entryAgeArr j ∧
          (state.tlbTable.entryAgeArr i < state.tlbTable.entryAgeArr j ↔
            (history addresses).idxOf (state.tlbTable.pageNumArr i) <
              (history addresses).idxOf (state.tlbTable.pageNumArr j))) ∧
      min 15 (recentPages (history addresses)).length ≤ (usedSlots state.tlbTable).card ∧
      (0 ∉ addresses.map pageOf →
        (usedSlots state.tlbTable).card = min 16 (recentPages (history addresses)).length) := by
  rcases run_trueLru store fresh addresses with ⟨state, reached, _, lru⟩
  refine ⟨state, reached, ?_, lru.resident, ?_, lru.enough, ?_⟩
  · intro i iInside j jInside different used same
    exact different (lru.distinct i iInside j jInside used same)
  · intro i iInside j jInside different iUsed jUsed
    have accessed : state.tlbTable.pageNumArr i ∈ history addresses := by
      have member := List.mem_of_mem_take ((lru.resident _).mp ⟨iUsed, i, iInside, rfl⟩)
      exact mem_recents_iff.mp (List.mem_filter.mp member).1
    rw [lru.ages i iInside iUsed, lru.ages j jInside jUsed]
    constructor
    · intro tie
      exact different (lru.distinct i iInside j jInside iUsed
        (List.idxOf_inj accessed |>.mp (by exact_mod_cast tie)))
    · exact Int.ofNat_lt
  · intro never
    exact lru.exact fun member => never (List.mem_reverse.mp member)

end ComputerSystems.VirtualMemory

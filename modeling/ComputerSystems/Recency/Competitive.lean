import Mathlib.Data.Finset.Card
import Mathlib.Data.Finset.SDiff
import Mathlib.Tactic.Linarith
import Mathlib.Tactic.Ring
import ComputerSystems.Recency.Fifo
import ComputerSystems.Recency.ReuseDistance

/-!
# Comparing a cache with any other

A cache of `k` places is conservative when it has at most `k` faults on any references to
at most `k` different pages. Caches with a queue and least recently used caches are. The
faults of a conservative cache are compared with those of any other way to serve the same
references, also one that knows the references to come: with at most `k` places it cannot
have fewer than one fault for every `k`, and less places cost it more.
-/

namespace ComputerSystems.Recency

universe u

variable {α : Type u} [DecidableEq α]

/-- One way to serve references from a set of pages held, with a number of places: a page is
loaded when it is referenced, and any pages may be given up for it. The last two arguments
are the pages held in the end and the number of references to a page not held. -/
inductive Serves (places : Nat) : Finset α → List α → Finset α → Nat → Prop
  | nil (held : Finset α) : Serves places held [] held 0
  | access {held after final : Finset α} {page : α} {rest : List α} {faults : Nat}
      (present : page ∈ after) (loads : after ⊆ insert page held) (fits : after.card ≤ places)
      (serves : Serves places after rest final faults) :
      Serves places held (page :: rest) final (faults + if page ∈ held then 0 else 1)

/-- Serving references can be cut anywhere. -/
theorem Serves.split {places faults : Nat} {held final : Finset α} {front back : List α}
    (serves : Serves places held (front ++ back) final faults) :
    ∃ middle early late, Serves places held front middle early ∧
      Serves places middle back final late ∧ faults = early + late := by
  induction front generalizing held faults with
  | nil => exact ⟨held, 0, faults, .nil held, serves, (Nat.zero_add _).symm⟩
  | cons page front ih =>
      cases serves with
      | access present loads fits serves =>
          rcases ih serves with ⟨middle, early, late, first, second, rfl⟩
          exact ⟨middle, _, late, .access present loads fits first, second, by omega⟩

/-- References served one after the other. -/
theorem Serves.append {places early late : Nat} {held middle final : Finset α}
    {front back : List α} (first : Serves places held front middle early)
    (second : Serves places middle back final late) :
    Serves places held (front ++ back) final (early + late) := by
  induction first with
  | nil held => rwa [Nat.zero_add]
  | access present loads fits _ ih =>
      rw [Nat.add_right_comm]
      exact .access present loads fits (ih second)

/-- One more reference. -/
theorem Serves.snoc {places faults : Nat} {held middle after : Finset α} {references : List α}
    {page : α} (serves : Serves places held references middle faults) (present : page ∈ after)
    (loads : after ⊆ insert page middle) (fits : after.card ≤ places) :
    Serves places held (references ++ [page]) after
      (faults + if page ∈ middle then 0 else 1) := by
  have last := Serves.access present loads fits (.nil after)
  rw [Nat.zero_add] at last
  exact serves.append last

/-- References to pages that are held. -/
theorem Serves.quiet {places : Nat} {held : Finset α} {references : List α}
    (fits : held.card ≤ places) (present : ∀ page ∈ references, page ∈ held) :
    Serves places held references held 0 := by
  induction references with
  | nil => exact .nil held
  | cons page references ih =>
      have inside := present page List.mem_cons_self
      have rest := ih fun other member => present other (List.mem_cons_of_mem page member)
      have serves := Serves.access inside (Finset.subset_insert page held) fits rest
      rwa [if_pos inside] at serves

/-- The names of the pages do not matter. -/
theorem Serves.map {β : Type u} [DecidableEq β] {name : α → β} (injective : name.Injective)
    {places faults : Nat} {held final : Finset α} {references : List α}
    (serves : Serves places held references final faults) :
    Serves places (held.image name) (references.map name) (final.image name) faults := by
  induction serves with
  | nil held => exact .nil _
  | @access held after final page rest faults present loads fits _ ih =>
      have named : after.image name ⊆ insert (name page) (held.image name) := by
        rw [← Finset.image_insert]
        exact Finset.image_subset_image loads
      have step := Serves.access (Finset.mem_image_of_mem name present) named
        (Finset.card_image_le.trans fits) ih
      simpa only [injective.mem_finset_image, List.map_cons] using step

/-- Every page that is referenced and was not held is loaded. -/
theorem Serves.card_sdiff_le {places faults : Nat} {held final : Finset α} {references : List α}
    (serves : Serves places held references final faults) :
    (references.toFinset \ held).card ≤ faults := by
  induction serves with
  | nil held => simp
  | @access held after final page rest faults _ loads _ _ ih =>
      have covered : (page :: rest).toFinset \ held ⊆
          (rest.toFinset \ after) ∪ ({page} : Finset α) \ held := by
        intro x member
        rcases Finset.mem_sdiff.mp member with ⟨inside, outside⟩
        rw [List.toFinset_cons, Finset.mem_insert] at inside
        by_cases same : x = page
        · rw [same] at outside ⊢
          exact Finset.mem_union_right _
            (Finset.mem_sdiff.mpr ⟨Finset.mem_singleton_self _, outside⟩)
        · refine Finset.mem_union_left _ (Finset.mem_sdiff.mpr ⟨inside.resolve_left same, ?_⟩)
          intro kept
          rcases Finset.mem_insert.mp (loads kept) with new | old
          · exact same new
          · exact outside old
      have single : (({page} : Finset α) \ held).card ≤ if page ∈ held then 0 else 1 := by
        by_cases inside : page ∈ held
        · rw [if_pos inside, Finset.sdiff_eq_empty_iff_subset.mpr
            (Finset.singleton_subset_iff.mpr inside), Finset.card_empty]
        · rw [if_neg inside]
          exact (Finset.card_le_card Finset.sdiff_subset).trans_eq (Finset.card_singleton page)
      calc
        ((page :: rest).toFinset \ held).card
            ≤ ((rest.toFinset \ after) ∪ ({page} : Finset α) \ held).card :=
          Finset.card_le_card covered
        _ ≤ (rest.toFinset \ after).card + (({page} : Finset α) \ held).card :=
          Finset.card_union_le _ _
        _ ≤ faults + if page ∈ held then 0 else 1 := Nat.add_le_add ih single

/-- After the last reference its page is held, and not more pages than there are places. -/
theorem Serves.last {places faults : Nat} {held final : Finset α} {references : List α} {page : α}
    (serves : Serves places held (references ++ [page]) final faults) :
    page ∈ final ∧ final.card ≤ places := by
  rcases serves.split with ⟨middle, early, late, _, back, _⟩
  cases back with
  | access present _ fits rest =>
      cases rest
      exact ⟨present, fits⟩

/-! ## Conservative caches -/

/-- At most `k` faults on any references to at most `k` different pages. -/
def Conservative (k : Nat) (faults : List α → Nat) : Prop :=
  ∀ past window, window.toFinset.card ≤ k → faults (past ++ window) ≤ faults past + k

/-- The longest part of some references that has at most `k` different pages together with
those seen before. -/
theorem exists_phase (k : Nat) (references : List α) {seen : Finset α} (few : seen.card ≤ k) :
    ∃ phase rest, references = phase ++ rest ∧ (seen ∪ phase.toFinset).card ≤ k ∧
      (rest = [] ∨ ∃ page later, rest = page :: later ∧ page ∉ seen ∪ phase.toFinset ∧
        (seen ∪ phase.toFinset).card = k) := by
  induction references generalizing seen with
  | nil => exact ⟨[], [], rfl, by simpa using few, Or.inl rfl⟩
  | cons page references ih =>
      by_cases more : (insert page seen).card ≤ k
      · rcases ih more with ⟨phase, rest, rfl, bounded, ends⟩
        have grown : insert page seen ∪ phase.toFinset = seen ∪ (page :: phase).toFinset := by
          rw [List.toFinset_cons, Finset.insert_union, Finset.union_insert]
        rw [grown] at bounded ends
        exact ⟨page :: phase, rest, rfl, bounded, ends⟩
      · have fresh : page ∉ seen := by
          intro inside
          rw [Finset.insert_eq_of_mem inside] at more
          exact more few
        rw [Finset.card_insert_of_notMem fresh] at more
        refine ⟨[], page :: references, rfl, by simpa using few,
          Or.inr ⟨page, references, rfl, by simpa using fresh, ?_⟩⟩
        rw [List.toFinset_nil, Finset.union_empty]
        omega

section Comparison

variable {k places faulted : Nat} {faults : List α → Nat} {held final : Finset α}

/-- From the page `first` that it holds on, the other way has a fault for every page that it
has no place for. -/
theorem Serves.phase_faults {phase : List α} {first page : α} (serves : Serves places held
      (phase ++ [page]) final faulted) (has : first ∈ held) (fits : held.card ≤ places)
    (fresh : page ∉ {first} ∪ phase.toFinset) (many : ({first} ∪ phase.toFinset).card = k) :
    k + 1 ≤ places + faulted := by
  have loaded := serves.card_sdiff_le
  have other : first ≠ page := by
    rintro rfl
    exact fresh (Finset.mem_union_left _ (Finset.mem_singleton_self _))
  -- the phase, its first page and the next page are k + 1 pages, and the first one is held
  have pages : ({first} ∪ phase.toFinset) ∪ {page} ⊆
      ((phase ++ [page]).toFinset \ held) ∪ held := by
    intro x member
    rw [Finset.mem_union]
    by_cases inside : x ∈ held
    · exact Or.inr inside
    · refine Or.inl (Finset.mem_sdiff.mpr ⟨?_, inside⟩)
      rcases Finset.mem_union.mp member with front | next
      · rcases Finset.mem_union.mp front with start | during
        · rw [Finset.mem_singleton.mp start] at inside
          exact absurd has inside
        · rw [List.toFinset_append]
          exact Finset.mem_union_left _ during
      · rw [List.toFinset_append]
        exact Finset.mem_union_right _ (by simpa using next)
  have count : (({first} ∪ phase.toFinset) ∪ {page}).card = k + 1 := by
    rw [Finset.card_union_of_disjoint (Finset.disjoint_singleton_right.mpr fresh), many,
      Finset.card_singleton]
  have bound := (Finset.card_le_card pages).trans (Finset.card_union_le _ _)
  omega

/-- The faults of a conservative cache from a reference to `first` on, when the other way
has just served this reference. -/
theorem Conservative.compare (conservative : Conservative k faults) (positive : 0 < k)
    (fewer : places ≤ k) (references past : List α) (first : α) (has : first ∈ held)
    (fits : held.card ≤ places) (serves : Serves places held references final faulted) :
    (k + 1 - places) * faults (past ++ first :: references) ≤
      (k + 1 - places) * faults past + k * (faulted + (k + 1 - places)) := by
  induction size : references.length using Nat.strong_induction_on
    generalizing references past first held faulted with
  | h bound ih =>
      obtain ⟨phase, rest, rfl, small, ends⟩ :=
        @exists_phase α _ k references {first} (by rw [Finset.card_singleton]; exact positive)
      have window : (first :: phase).toFinset.card ≤ k := by
        rwa [List.toFinset_cons, Finset.insert_eq]
      have few := conservative past (first :: phase) window
      generalize gap : k + 1 - places = c at ih ⊢
      rcases ends with rfl | ⟨page, later, rfl, fresh, many⟩
      · rw [List.append_nil]
        calc
          c * faults (past ++ first :: phase) ≤ c * (faults past + k) := Nat.mul_le_mul_left c few
          _ = c * faults past + k * c := by ring
          _ ≤ c * faults past + k * (faulted + c) :=
            Nat.add_le_add_left (Nat.mul_le_mul_left k (Nat.le_add_left c faulted)) _
      · have cut : phase ++ page :: later = (phase ++ [page]) ++ later := by simp
        rw [cut] at serves
        rcases serves.split with ⟨middle, early, late, front, back, rfl⟩
        rcases front.last with ⟨present, room⟩
        have enough := front.phase_faults has fits fresh many
        have shorter : later.length < bound := by
          rw [← size, List.length_append, List.length_cons]
          omega
        have following := ih later.length shorter later (past ++ first :: phase) page present room
          back rfl
        have whole : past ++ first :: (phase ++ page :: later) =
            past ++ first :: phase ++ page :: later := by simp
        rw [whole]
        calc
          c * faults (past ++ first :: phase ++ page :: later)
              ≤ c * faults (past ++ first :: phase) + k * (late + c) := following
          _ ≤ c * (faults past + k) + k * (late + c) :=
            Nat.add_le_add_right (Nat.mul_le_mul_left c few) _
          _ = c * faults past + k * (c + late + c) := by ring
          _ ≤ c * faults past + k * (early + late + c) := by
            apply Nat.add_le_add_left (Nat.mul_le_mul_left k _)
            omega

/-- A conservative cache of `k` places against any way to serve the references with at most
`k` places. -/
theorem Conservative.competitive (conservative : Conservative k faults) (none : faults [] = 0)
    (positive : 0 < k) (fewer : places ≤ k) {references : List α}
    (serves : Serves places ∅ references final faulted) :
    (k + 1 - places) * faults references ≤ k * (faulted + (k - places)) := by
  cases serves with
  | nil =>
      rw [none, Nat.mul_zero]
      exact Nat.zero_le _
  | @access _ after _ first rest later present _ fits serves =>
      have compared := conservative.compare positive fewer rest [] first present fits serves
      rw [none, Nat.mul_zero, Nat.zero_add, List.nil_append] at compared
      rw [if_neg (Finset.notMem_empty first)]
      have same : later + (k + 1 - places) = later + 1 + (k - places) := by omega
      rwa [same] at compared

end Comparison

/-! ## A cache with a queue -/

omit [DecidableEq α] in
theorem suffix_tail {back whole : List α} (suffix : back <:+ whole)
    (shorter : back.length < whole.length) : back <:+ whole.tail := by
  rcases suffix with ⟨front, rfl⟩
  cases front with
  | nil => exact absurd shorter (Nat.lt_irrefl _)
  | cons first front => exact List.suffix_append front back

theorem length_le_card_toFinset {part whole : List α} (distinct : part.Nodup)
    (inside : part ⊆ whole) : part.length ≤ whole.toFinset.card := by
  rw [← List.toFinset_card_of_nodup distinct]
  apply Finset.card_le_card
  intro x member
  exact List.mem_toFinset.mpr (inside (List.mem_toFinset.mp member))

/-- What a cache with a queue has loaded during a window stands at the back of the queue,
as long as the window has no more different pages than the cache has places. -/
theorem FifoCache.loaded_during (capacity : Nat) (past window : List α)
    (few : window.toFinset.card ≤ capacity) :
    ∃ loaded, (serve capacity (past ++ window)).faults =
        (serve capacity past).faults + loaded.length ∧
      loaded <:+ (serve capacity (past ++ window)).queue ∧ loaded.Nodup ∧ loaded ⊆ window := by
  induction window using List.reverseRecOn with
  | nil => exact ⟨[], by simp, List.nil_suffix, List.nodup_nil, List.nil_subset _⟩
  | append_singleton window page ih =>
      have part : window.toFinset ⊆ (window ++ [page]).toFinset := by
        rw [List.toFinset_append]
        exact Finset.subset_union_left
      rcases ih ((Finset.card_le_card part).trans few) with
        ⟨loaded, count, back, distinct, inside⟩
      rw [← List.append_assoc, serve_append, access]
      by_cases hit : page ∈ (serve capacity (past ++ window)).queue
      · rw [if_pos hit]
        exact ⟨loaded, count, back, distinct, List.subset_append_of_subset_left _ inside⟩
      · rw [if_neg hit]
        have fresh : page ∉ loaded := fun member => hit (back.subset member)
        have longer : (loaded ++ [page]).Nodup := by
          rw [List.nodup_append_comm]
          exact List.nodup_cons.mpr ⟨fresh, distinct⟩
        have covered : loaded ++ [page] ⊆ window ++ [page] :=
          List.append_subset.mpr ⟨List.subset_append_of_subset_left _ inside,
            List.subset_append_right window [page]⟩
        refine ⟨loaded ++ [page], ?_, ?_, longer, covered⟩
        · rw [count, List.length_append, List.length_singleton, Nat.add_assoc]
        · rw [enqueue]
          split
          · exact List.suffix_append_self_iff.mpr back
          · rename_i full
            have room : loaded.length < (serve capacity (past ++ window)).queue.length := by
              have bound := (length_le_card_toFinset longer covered).trans few
              rw [List.length_append, List.length_singleton] at bound
              omega
            exact List.suffix_append_self_iff.mpr (suffix_tail back room)

/-- A cache with a queue is conservative. -/
theorem FifoCache.conservative (capacity : Nat) :
    Conservative capacity fun references : List α => (serve capacity references).faults := by
  intro past window few
  rcases loaded_during capacity past window few with ⟨loaded, count, _, distinct, inside⟩
  have bound := (length_le_card_toFinset distinct inside).trans few
  simp only [count]
  omega

omit [DecidableEq α] in
theorem length_enqueue_le {capacity : Nat} (positive : 0 < capacity) {queue : List α}
    (fits : queue.length ≤ capacity) (page : α) :
    (enqueue capacity queue page).length ≤ capacity := by
  rw [enqueue]
  split
  · rename_i room
    rwa [List.length_append, List.length_singleton]
  · rw [List.length_append, List.length_tail, List.length_singleton]
    omega

omit [DecidableEq α] in
theorem enqueue_subset (capacity : Nat) (queue : List α) (page : α) :
    enqueue capacity queue page ⊆ page :: queue := by
  intro other member
  rw [enqueue] at member
  rw [List.mem_cons]
  split at member
  · exact (List.mem_append.mp member).symm.imp List.mem_singleton.mp id
  · exact (List.mem_append.mp member).symm.imp List.mem_singleton.mp List.mem_of_mem_tail

/-- A cache with a queue is one way to serve the references. -/
theorem FifoCache.serves {capacity : Nat} (positive : 0 < capacity) (references : List α) :
    (serve capacity references).queue.length ≤ capacity ∧
      Serves capacity ∅ references (serve capacity references).queue.toFinset
        (serve capacity references).faults := by
  induction references using List.reverseRecOn with
  | nil => exact ⟨Nat.zero_le capacity, .nil ∅⟩
  | append_singleton references page ih =>
      rcases ih with ⟨fits, serves⟩
      have present := List.mem_toFinset.mpr (mem_access capacity (serve capacity references) page)
      rw [serve_append]
      rw [access] at present ⊢
      by_cases hit : page ∈ (serve capacity references).queue
      · rw [if_pos hit] at present ⊢
        have step := serves.snoc present (Finset.subset_insert page _)
          ((List.toFinset_card_le _).trans fits)
        rw [if_pos present] at step
        exact ⟨fits, step⟩
      · rw [if_neg hit] at present ⊢
        have room := length_enqueue_le positive fits page
        have loads : (enqueue capacity (serve capacity references).queue page).toFinset ⊆
            insert page (serve capacity references).queue.toFinset := by
          rw [← List.toFinset_cons]
          intro other member
          exact List.mem_toFinset.mpr
            (enqueue_subset capacity _ page (List.mem_toFinset.mp member))
        have step := serves.snoc present loads ((List.toFinset_card_le _).trans room)
        rw [if_neg (mt List.mem_toFinset.mp hit)] at step
        exact ⟨room, step⟩

/-! ## A least recently used cache -/

/-- The faults of a cache that answers the references whose page is among the `capacity`
most recently used ones. -/
def recentFaults (capacity : Nat) (references : List α) : Nat :=
  references.length - recentUses capacity references.reverse

theorem recentUses_le_length (capacity : Nat) (history : List α) :
    recentUses capacity history ≤ history.length := by
  induction history with
  | nil => exact Nat.le_refl 0
  | cons x history ih =>
      rw [recentUses_cons, List.length_cons]
      split <;> omega

theorem takeWhile_append_of_mem {x : α} {front : List α} (used : x ∈ front) (back : List α) :
    (front ++ back).takeWhile (· ≠ x) = front.takeWhile (· ≠ x) := by
  induction front with
  | nil => exact absurd used List.not_mem_nil
  | cons y front ih =>
      by_cases same : y = x
      · simp [same]
      · have later : x ∈ front := (List.mem_cons.mp used).resolve_left (Ne.symm same)
        have stops := ih later
        simp only [ne_eq, decide_not] at stops
        simp [same, stops]

/-- An element that was used in a window has been followed by elements of the window only. -/
theorem reuseDistance_lt_of_mem {x : α} {window : List α} (used : x ∈ window) (past : List α) :
    reuseDistance x (window ++ past) < window.toFinset.card := by
  rw [reuseDistance, takeWhile_append_of_mem used,
    ← List.toFinset_card_of_nodup (nodup_recents _)]
  apply Finset.card_lt_card
  rw [Finset.ssubset_iff_of_subset]
  · refine ⟨x, List.mem_toFinset.mpr used, ?_⟩
    intro member
    have since := mem_recents_iff.mp (List.mem_toFinset.mp member)
    simpa using List.mem_takeWhile_imp since
  · intro y member
    have since := mem_recents_iff.mp (List.mem_toFinset.mp member)
    exact List.mem_toFinset.mpr ((List.takeWhile_sublist _).subset since)

theorem mem_take_promote {capacity : Nat} (positive : 0 < capacity) (x : α) (order : List α) :
    x ∈ (promote x order).take capacity := by
  obtain ⟨before, rfl⟩ := Nat.exists_eq_succ_of_ne_zero positive.ne'
  rw [promote, List.take_succ_cons]
  exact List.mem_cons_self

theorem take_promote_subset {order : List α} (distinct : order.Nodup) (capacity : Nat) (x : α) :
    (promote x order).take capacity ⊆ x :: order.take capacity := by
  intro y member
  by_cases front : x ∈ order.take capacity
  · exact List.mem_cons_of_mem x ((mem_take_promote_of_mem distinct front).mp member)
  · cases capacity with
    | zero => exact absurd member (by simp)
    | succ before =>
        have shorter : order.take before ⊆ order.take (before + 1) :=
          List.take_subset_take_left order (Nat.le_succ before)
        rw [take_promote_of_not_mem fun inside => front (shorter inside)] at member
        exact List.cons_subset_cons x shorter member

/-- Keeping the most recently used pages is one way to serve the references. -/
theorem recentFaults_serves {capacity : Nat} (positive : 0 < capacity) (references : List α) :
    Serves capacity ∅ references ((recents references.reverse).take capacity).toFinset
      (recentFaults capacity references) := by
  induction references using List.reverseRecOn with
  | nil =>
      rw [List.reverse_nil, recents_nil, List.take_nil]
      exact .nil ∅
  | append_singleton references page ih =>
      have distinct := nodup_recents references.reverse
      have bounded := recentUses_le_length capacity references.reverse
      rw [List.length_reverse] at bounded
      have next : (references ++ [page]).reverse = page :: references.reverse := by simp
      have loads : ((promote page (recents references.reverse)).take capacity).toFinset ⊆
          insert page ((recents references.reverse).take capacity).toFinset := by
        rw [← List.toFinset_cons]
        intro other member
        exact List.mem_toFinset.mpr
          (take_promote_subset distinct capacity page (List.mem_toFinset.mp member))
      have step := ih.snoc (List.mem_toFinset.mpr (mem_take_promote positive page _)) loads
        ((List.toFinset_card_le _).trans (List.length_take_le capacity _))
      have count : recentFaults capacity (references ++ [page]) =
          recentFaults capacity references +
            if page ∈ ((recents references.reverse).take capacity).toFinset then 0 else 1 := by
        simp only [List.mem_toFinset, mem_take_recents_iff]
        rw [recentFaults, recentFaults, next, recentUses_cons, List.length_append,
          List.length_singleton]
        split <;> omega
      rwa [← count, ← recents_cons, ← next] at step

/-- In a window every element is a recent use but for its first use there. -/
theorem recentUses_window {capacity : Nat} (past window : List α)
    (few : window.toFinset.card ≤ capacity) :
    recentUses capacity past + window.length ≤
      recentUses capacity (window ++ past) + window.toFinset.card := by
  induction window with
  | nil => simp
  | cons x window ih =>
      have part : window.toFinset ⊆ (x :: window).toFinset := by
        rw [List.toFinset_cons]
        exact Finset.subset_insert x _
      have earlier := ih ((Finset.card_le_card part).trans few)
      rw [List.cons_append, recentUses_cons, List.length_cons]
      by_cases used : x ∈ window
      · have near := reuseDistance_lt_of_mem used past
        have same : (x :: window).toFinset = window.toFinset := by
          rw [List.toFinset_cons, Finset.insert_eq_of_mem (List.mem_toFinset.mpr used)]
        rw [same] at few ⊢
        rw [if_pos ⟨List.mem_append_left past used, near.trans_le few⟩]
        omega
      · rw [List.toFinset_cons, Finset.card_insert_of_notMem (by simpa using used)]
        omega

/-- A least recently used cache is conservative. -/
theorem recentFaults_conservative (capacity : Nat) :
    Conservative capacity (recentFaults (α := α) capacity) := by
  intro past window few
  rw [← List.toFinset_reverse] at few
  have counted := recentUses_window past.reverse window.reverse few
  have bounded := recentUses_le_length capacity past.reverse
  rw [List.length_reverse] at counted bounded
  rw [recentFaults, recentFaults, List.reverse_append, List.length_append]
  omega

end ComputerSystems.Recency

import Mathlib.Data.Finset.Card
import ComputerSystems.Graph.Marking
import ComputerSystems.MarkSweep.Core

/-!
# What mark marks

Seen as a search, `mark` adds to the marked objects those that can be reached from its
argument through objects that were not marked. It changes nothing but marks, and it
returns, since every call that goes on has one more object marked.
-/

namespace ComputerSystems.MarkSweep

open ComputerSystems.Graph
open ComputerSystems.Loop

/-- The marked objects. -/
def Marked (objects : Objects) : Set Pointer :=
  {obj | ∃ object, objects obj = some object ∧ object.marked ≠ 0}

/-- An object has a pointer in one of its fields. -/
def Points (objects : Objects) (obj field : Pointer) : Prop :=
  field ≠ 0 ∧ ∃ object, objects obj = some object ∧
    (object.field1 = field ∨ object.field2 = field)

/-- An argument of `mark`, as a set of sources. -/
def target (obj : Pointer) : Set Pointer :=
  {source | source = obj ∧ source ≠ 0}

/-- The fields of every object may be followed. -/
def FieldsSound (objects : Objects) : Prop :=
  ∀ obj object, objects obj = some object →
    Sound objects object.field1 ∧ Sound objects object.field2

/-! ## Changes of marks -/

/-- An object without its mark. -/
def Object.unmark (object : Object) : Object :=
  { object with marked := 0 }

/-- Two memories that differ in marks only. -/
def Remarked (before after : Objects) : Prop :=
  ∀ obj, (after obj).map Object.unmark = (before obj).map Object.unmark

section Remarked

variable {before middle after : Objects} {obj field : Pointer} {object : Object}

theorem Remarked.refl (objects : Objects) : Remarked objects objects :=
  fun _ => rfl

theorem Remarked.trans (first : Remarked before middle) (second : Remarked middle after) :
    Remarked before after :=
  fun obj => (second obj).trans (first obj)

theorem Remarked.stored (remarked : Remarked before after) (stored : before obj = some object) :
    ∃ other, after obj = some other ∧ other.unmark = object.unmark := by
  have same := remarked obj
  rw [stored, Option.map_some] at same
  exact Option.map_eq_some_iff.mp same

theorem Remarked.symm (remarked : Remarked before after) : Remarked after before :=
  fun obj => (remarked obj).symm

theorem Remarked.isSome (remarked : Remarked before after) :
    (after obj).isSome = (before obj).isSome := by
  rw [← Option.isSome_map, remarked obj, Option.isSome_map]

theorem Remarked.sound_iff (remarked : Remarked before after) :
    Sound after obj ↔ Sound before obj := by
  rw [Sound, Sound, remarked.isSome]

theorem field1_of_unmark {other : Object} (same : other.unmark = object.unmark) :
    other.field1 = object.field1 :=
  congrArg (fun bare => bare.field1) same

theorem field2_of_unmark {other : Object} (same : other.unmark = object.unmark) :
    other.field2 = object.field2 :=
  congrArg (fun bare => bare.field2) same

theorem next_of_unmark {other : Object} (same : other.unmark = object.unmark) :
    other.next = object.next :=
  congrArg (fun bare => bare.next) same

theorem Remarked.fieldsSound (remarked : Remarked before after) (sound : FieldsSound before) :
    FieldsSound after := by
  intro obj object stored
  rcases remarked.symm.stored stored with ⟨other, storedBefore, same⟩
  rw [remarked.sound_iff, remarked.sound_iff, ← field1_of_unmark same, ← field2_of_unmark same]
  exact sound obj other storedBefore

theorem Remarked.points (remarked : Remarked before after) (edge : Points before obj field) :
    Points after obj field := by
  rcases edge with ⟨notNull, object, stored, fields⟩
  rcases remarked.stored stored with ⟨other, storedAfter, same⟩
  rw [← field1_of_unmark same, ← field2_of_unmark same] at fields
  exact ⟨notNull, other, storedAfter, fields⟩

theorem Remarked.points_iff (remarked : Remarked before after) :
    Points before obj field ↔ Points after obj field :=
  ⟨remarked.points, remarked.symm.points⟩

/-- Marking one object. -/
theorem remarked_update (stored : before obj = some object) (mark : Int) :
    Remarked before (Function.update before obj (some { object with marked := mark })) := by
  intro other
  by_cases here : other = obj
  · rw [here, Function.update_self, stored]
    rfl
  · rw [Function.update_of_ne here]

end Remarked

theorem marked_update {objects : Objects} {obj : Pointer} {object : Object} :
    Marked (Function.update objects obj (some { object with marked := 1 })) =
      insert obj (Marked objects) := by
  ext other
  by_cases here : other = obj
  · simp [Marked, here]
  · simp [Marked, here]

theorem mem_marked_iff {objects : Objects} {obj : Pointer} {object : Object}
    (stored : objects obj = some object) : obj ∈ Marked objects ↔ object.marked ≠ 0 := by
  simp [Marked, stored]

/-- The two fields of an object, as sources of a search. -/
theorem target_union_target {objects : Objects} {obj : Pointer} {object : Object}
    (stored : objects obj = some object) :
    target object.field1 ∪ target object.field2 = {field | Points objects obj field} := by
  ext field
  simp only [target, Set.mem_union, Set.mem_ofPred_eq, Points, stored, Option.some.injEq,
    exists_eq_left']
  constructor
  · rintro (⟨rfl, notNull⟩ | ⟨rfl, notNull⟩)
    · exact ⟨notNull, Or.inl rfl⟩
    · exact ⟨notNull, Or.inr rfl⟩
  · rintro ⟨notNull, rfl | rfl⟩
    · exact Or.inl ⟨rfl, notNull⟩
    · exact Or.inr ⟨rfl, notNull⟩

/-! ## The objects left to mark -/

/-- Whether an object is allocated and not marked. -/
def isUnmarked (objects : Objects) (obj : Pointer) : Bool :=
  match objects obj with
  | some object => object.marked == 0
  | none => false

/-- The number of objects that are not marked. -/
def unmarkedCount (live : Finset Pointer) (objects : Objects) : Nat :=
  (live.filter fun obj => isUnmarked objects obj).card

theorem isUnmarked_iff {objects : Objects} {obj : Pointer} :
    isUnmarked objects obj = true ↔ (objects obj).isSome ∧ obj ∉ Marked objects := by
  unfold isUnmarked
  cases stored : objects obj with
  | none => simp
  | some object => simp [mem_marked_iff stored]

theorem unmarkedCount_le {before after : Objects} {live : Finset Pointer}
    (remarked : Remarked before after) (more : Marked before ⊆ Marked after) :
    unmarkedCount live after ≤ unmarkedCount live before := by
  apply Finset.card_le_card
  intro obj member
  rcases Finset.mem_filter.mp member with ⟨inside, unmarked⟩
  rcases isUnmarked_iff.mp unmarked with ⟨allocated, outside⟩
  rw [remarked.isSome] at allocated
  exact Finset.mem_filter.mpr
    ⟨inside, isUnmarked_iff.mpr ⟨allocated, fun marked => outside (more marked)⟩⟩

theorem unmarkedCount_lt {objects : Objects} {live : Finset Pointer} {obj : Pointer}
    {object : Object} (inside : obj ∈ live) (stored : objects obj = some object)
    (unmarked : object.marked = 0) :
    unmarkedCount live (Function.update objects obj (some { object with marked := 1 })) <
      unmarkedCount live objects := by
  apply Finset.card_lt_card
  rw [Finset.ssubset_iff_of_subset]
  · refine ⟨obj, Finset.mem_filter.mpr ⟨inside, ?_⟩, fun member => ?_⟩
    · simp [isUnmarked, stored, unmarked]
    · have here := (Finset.mem_filter.mp member).2
      simp [isUnmarked] at here
  · intro other member
    rcases Finset.mem_filter.mp member with ⟨otherInside, otherUnmarked⟩
    by_cases here : other = obj
    · rw [here] at otherUnmarked
      simp [isUnmarked] at otherUnmarked
    · refine Finset.mem_filter.mpr ⟨otherInside, ?_⟩
      simpa only [isUnmarked, Function.update_of_ne here] using otherUnmarked

/-! ## Calls of mark -/

theorem load_done {objects : Objects} {obj : Pointer} {object : Object}
    (stored : objects obj = some object) : load objects obj = .done object := by
  simp only [load, stored]

/-- With more fuel than there are objects to mark `mark` returns, whatever they point to,
and what it has done is a search from its argument. -/
theorem mark_returns {live : Finset Pointer} {fuel : Nat} {objects : Objects} {obj : Pointer}
    (allocated : ∀ other, (objects other).isSome → other ∈ live) (fields : FieldsSound objects)
    (sound : Sound objects obj) (enough : unmarkedCount live objects < fuel) :
    ∃ after, mark fuel objects obj = .done after ∧ Remarked objects after ∧
      Marks (Points objects) (target obj) (Marked objects) (Marked after) := by
  induction fuel generalizing objects obj with
  | zero => exact absurd enough (Nat.not_lt_zero _)
  | succ fuel ih =>
      by_cases null : obj = 0
      · refine ⟨objects, by simp only [mark, null, if_true], .refl objects, .of_subset ?_⟩
        rintro source ⟨same, notNull⟩
        exact absurd (same.trans null) notNull
      have isSome := sound.resolve_left null
      rcases Option.isSome_iff_exists.mp isSome with ⟨object, stored⟩
      have loaded := load_done stored
      by_cases marked : object.marked ≠ 0
      · refine ⟨objects, ?_, .refl objects, .of_subset ?_⟩
        · simp only [mark, null, if_false, loaded, Outcome.bind, if_pos marked]
        · rintro source ⟨rfl, _⟩
          exact (mem_marked_iff stored).mpr marked
      have unmarked := not_not.mp marked
      have smaller := unmarkedCount_lt (allocated obj isSome) stored unmarked
      have remarked := remarked_update stored 1
      have grown := @marked_update objects obj object
      generalize entered : Function.update objects obj (some { object with marked := 1 }) =
        visited at smaller remarked grown
      have live1 : ∀ other, (visited other).isSome → other ∈ live := by
        intro other isSome
        rw [remarked.isSome] at isSome
        exact allocated other isSome
      rcases fields obj object stored with ⟨sound1, sound2⟩
      obtain ⟨first, firstDone, firstRemarked, firstMarks⟩ :=
        ih live1 (remarked.fieldsSound fields) (remarked.sound_iff.mpr sound1) (by omega)
      have sofar := remarked.trans firstRemarked
      have live2 : ∀ other, (first other).isSome → other ∈ live := by
        intro other isSome
        rw [sofar.isSome] at isSome
        exact allocated other isSome
      have fewer := @unmarkedCount_le _ _ live firstRemarked firstMarks.keeps
      obtain ⟨second, secondDone, secondRemarked, secondMarks⟩ :=
        ih live2 (sofar.fieldsSound fields) (sofar.sound_iff.mpr sound2) (by omega)
      rcases sofar.stored stored with ⟨reread, restored, same⟩
      have field2 := field2_of_unmark same
      refine ⟨second, ?_, sofar.trans secondRemarked, ?_⟩
      · simp only [mark, null, if_false, loaded, Outcome.bind, if_neg marked, entered, firstDone,
          load_done restored, field2, secondDone]
      · have both := (firstMarks.congr fun _ _ => remarked.points_iff).trans
          (secondMarks.congr fun _ _ => sofar.points_iff)
        rw [target_union_target stored, grown] at both
        have whole := both.visit
        have here : target obj = {obj} := by
          ext source
          simp only [target, Set.mem_ofPred_eq, Set.mem_singleton_iff, and_iff_left_iff_imp]
          rintro rfl
          exact null
        rwa [here]

theorem mark_stable (objects : Objects) (obj : Pointer) :
    Stable fun fuel => mark fuel objects obj := by
  intro fuel more finished
  induction fuel generalizing objects obj with
  | zero => exact absurd rfl finished
  | succ fuel ih =>
      have succ : fuel + 1 + more = (fuel + more) + 1 := by omega
      simp only [succ, mark] at finished ⊢
      split
      · rfl
      · rename_i notNull
        rw [if_neg notNull] at finished
        cases loaded : load objects obj with
        | running => rfl
        | crash => rfl
        | done object =>
            simp only [loaded, Outcome.bind] at finished ⊢
            split
            · rfl
            · rename_i unmarked
              rw [if_neg unmarked] at finished
              generalize Function.update objects obj _ = visited at finished ⊢
              cases front : mark fuel visited object.field1 with
              | running =>
                  simp only [front] at finished
                  exact absurd rfl finished
              | crash =>
                  have again := ih visited object.field1 (Outcome.ne_running_of_crash front)
                  simp only [front] at again
                  rw [again]
              | done first =>
                  have again := ih visited object.field1 (Outcome.ne_running_of_done front)
                  simp only [front] at again finished
                  rw [again]
                  dsimp only
                  cases reloaded : load first obj with
                  | running => rfl
                  | crash => rfl
                  | done reread =>
                      simp only [reloaded] at finished ⊢
                      exact ih first reread.field2 finished

end ComputerSystems.MarkSweep

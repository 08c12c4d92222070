import ComputerSystems.MarkSweep.Marking
import ComputerSystems.MarkSweep.Sweeping

/-!
# Garbage collection

In every run the list holds exactly the objects that are allocated, without marks, and no
field of an object and no root points to a freed one. `garbage_collect` returns, and the
objects it leaves are those that can be reached from the roots.
-/

namespace ComputerSystems.MarkSweep

open ComputerSystems.Graph
open ComputerSystems.Links
open ComputerSystems.Loop

/-- The objects that can be reached from the roots. -/
def Reached (state : State) : Set Pointer :=
  reachable (Points state.objects) (target state.root1 ∪ target state.root2)

/-- A heap between two calls, with its list. -/
structure WellFormed (cells : List Cell) (state : State) : Prop where
  listed : Listed cells state.objects state.heap
  clean : ∀ cell ∈ cells, cell.2.marked = 0
  fits : state.heap.size < 2 ^ 31
  fields : FieldsSound state.objects
  root1 : Sound state.objects state.root1
  root2 : Sound state.objects state.root2

section Lists

variable {cells : List Cell} {objects after : Objects} {heap : Heap} {obj : Pointer}
  {object : Object}

theorem Listed.cell (listed : Listed cells objects heap) (stored : objects obj = some object) :
    (obj, object) ∈ cells := by
  have member := listed.all obj (Option.isSome_iff_exists.mpr ⟨object, stored⟩)
  rcases List.mem_map.mp member with ⟨⟨address, other⟩, inside, rfl⟩
  have same := listed.chain.stored inside
  rw [stored] at same
  rwa [Option.some.inj same]

theorem Listed.mem_fields_iff (listed : Listed cells objects heap) {field1 field2 : Pointer} :
    (obj, field1, field2) ∈ cells.map Cell.fields ↔
      ∃ object, objects obj = some object ∧ object.field1 = field1 ∧ object.field2 = field2 := by
  constructor
  · intro member
    rcases List.mem_map.mp member with ⟨⟨address, object⟩, inside, same⟩
    simp only [Cell.fields, Prod.mk.injEq] at same
    rcases same with ⟨rfl, rfl, rfl⟩
    exact ⟨object, listed.chain.stored inside, rfl, rfl⟩
  · rintro ⟨object, stored, rfl, rfl⟩
    exact List.mem_map.mpr ⟨(obj, object), listed.cell stored, rfl⟩

/-- Marking leaves the list as it is. -/
theorem chain_remarked (remarked : Remarked objects after) {start stop : Pointer}
    (chain : Chain Object.next objects start cells stop) :
    ∃ marked, Chain Object.next after start marked stop ∧
      marked.map Cell.fields = cells.map Cell.fields := by
  induction cells generalizing start with
  | nil => exact ⟨[], chain, rfl⟩
  | cons cell cells ih =>
      rcases cell with ⟨address, object⟩
      rcases chain with ⟨rfl, stored, tail⟩
      rcases remarked.stored stored with ⟨other, storedAfter, same⟩
      rcases ih tail with ⟨rest, following, fields⟩
      refine ⟨(start, other) :: rest, ⟨rfl, storedAfter, ?_⟩, ?_⟩
      · rwa [next_of_unmark same]
      · simp only [List.map_cons, fields, Cell.fields, field1_of_unmark same,
          field2_of_unmark same]

theorem map_fst_of_fields {first second : List Cell}
    (same : first.map Cell.fields = second.map Cell.fields) :
    first.map Prod.fst = second.map Prod.fst := by
  have keys := congrArg (List.map Prod.fst) same
  rwa [List.map_map, List.map_map] at keys

theorem Listed.remarked (listed : Listed cells objects heap) (remarked : Remarked objects after) :
    ∃ marked, Listed marked after heap ∧ marked.map Cell.fields = cells.map Cell.fields := by
  rcases chain_remarked remarked listed.chain with ⟨marked, chain, same⟩
  have keys := map_fst_of_fields same
  have length : marked.length = cells.length := by simpa using congrArg List.length keys
  refine ⟨marked, ⟨chain, ?_, ?_, ?_, ?_⟩, same⟩
  · rw [keys]
    exact listed.distinct
  · rw [keys]
    exact listed.notNull
  · intro obj isSome
    rw [keys]
    exact listed.all obj (remarked.isSome ▸ isSome)
  · rw [listed.size, length]

open Classical in
/-- The objects with a mark, by their pointers. -/
theorem Listed.survivors_fields (listed : Listed cells objects heap) :
    (survivors cells).map Cell.fields =
      (cells.map Cell.fields).filter fun fields => fields.1 ∈ Marked objects := by
  rw [List.filter_map]
  apply congrArg
  apply List.filter_congr
  intro cell member
  have marked := mem_marked_iff (listed.chain.stored member)
  simp [Cell.fields, marked]

end Lists

/-! ## One collection -/

section Collection

variable {cells : List Cell} {state : State}

theorem WellFormed.marked_eq (wellFormed : WellFormed cells state) :
    Marked state.objects = ∅ := by
  ext obj
  simp only [Set.mem_empty_iff_false, iff_false]
  rintro ⟨object, stored, marked⟩
  exact marked (wellFormed.clean _ (wellFormed.listed.cell stored))

/-- The size counts the objects. -/
theorem WellFormed.size_nonneg (wellFormed : WellFormed cells state) : 0 ≤ state.heap.size := by
  rw [wellFormed.listed.size, sizeofObject]
  omega

/-- A root or a field that may be followed and is not NULL is an object. -/
theorem Sound.isSome {objects : Objects} {obj : Pointer} (sound : Sound objects obj)
    (notNull : obj ≠ 0) : (objects obj).isSome :=
  sound.resolve_left notNull

/-- The two calls of `mark` mark what can be reached from the roots. -/
theorem WellFormed.marks (wellFormed : WellFormed cells state) :
    ∃ first second, Completes (fun fuel => mark fuel state.objects state.root1) first ∧
      Completes (fun fuel => mark fuel first state.root2) second ∧
      Remarked state.objects second ∧ Marked second = Reached state := by
  have allocated : ∀ obj, (state.objects obj).isSome → obj ∈ (cells.map Prod.fst).toFinset :=
    fun obj isSome => List.mem_toFinset.mpr (wellFormed.listed.all obj isSome)
  obtain ⟨first, firstDone, firstRemarked, firstMarks⟩ :=
    mark_returns allocated wellFormed.fields wellFormed.root1 (Nat.lt_succ_self _)
  have allocated' : ∀ obj, (first obj).isSome → obj ∈ (cells.map Prod.fst).toFinset :=
    fun obj isSome => allocated obj (firstRemarked.isSome ▸ isSome)
  obtain ⟨second, secondDone, secondRemarked, secondMarks⟩ :=
    mark_returns allocated' (firstRemarked.fieldsSound wellFormed.fields)
      (firstRemarked.sound_iff.mpr wellFormed.root2) (Nat.lt_succ_self _)
  refine ⟨first, second, ⟨_, firstDone⟩, ⟨_, secondDone⟩, firstRemarked.trans secondRemarked, ?_⟩
  have both := firstMarks.trans (secondMarks.congr fun _ _ => firstRemarked.points_iff)
  rw [wellFormed.marked_eq] at both
  exact both.eq_reachable

theorem sweep_stable (state : State) : Stable (sweep state) :=
  (loop_stable sweepBody _).map _

/-- A pointer of a reached object that is not NULL points to a reached object. -/
theorem reached_of_points {obj field : Pointer} (reached : obj ∈ Reached state)
    (points : Points state.objects obj field) : field ∈ Reached state := by
  rcases reached with ⟨root, isRoot, path⟩
  exact ⟨root, isRoot, path.tail points⟩

open Classical in
/-- An object that can be reached is still there after the objects that cannot are gone. -/
theorem isSome_of_reached {left : List Cell} {after : State} {obj : Pointer}
    (listed : Listed cells state.objects state.heap)
    (listedAfter : Listed left after.objects after.heap)
    (fields : left.map Cell.fields =
      (cells.map Cell.fields).filter fun fields => fields.1 ∈ Reached state)
    (reached : obj ∈ Reached state) (isSome : (state.objects obj).isSome) :
    (after.objects obj).isSome := by
  rcases Option.isSome_iff_exists.mp isSome with ⟨object, stored⟩
  have member : (obj, object.field1, object.field2) ∈ left.map Cell.fields := by
    rw [fields]
    exact List.mem_filter.mpr ⟨listed.mem_fields_iff.mpr ⟨object, stored, rfl, rfl⟩,
      decide_eq_true reached⟩
  rcases listedAfter.mem_fields_iff.mp member with ⟨other, storedAfter, _⟩
  exact Option.isSome_iff_exists.mpr ⟨other, storedAfter⟩

/-- Whatever can be reached is allocated. -/
theorem WellFormed.allocated_of_reached {obj : Pointer} (wellFormed : WellFormed cells state)
    (reached : obj ∈ Reached state) : (state.objects obj).isSome := by
  rcases reached with ⟨root, isRoot, path⟩
  cases path with
  | refl =>
      rcases isRoot with ⟨rfl, notNull⟩ | ⟨rfl, notNull⟩
      · exact wellFormed.root1.isSome notNull
      · exact wellFormed.root2.isSome notNull
  | tail _ edge =>
      rcases edge with ⟨notNull, object, stored, rfl | rfl⟩
      · exact (wellFormed.fields _ _ stored).1.isSome notNull
      · exact (wellFormed.fields _ _ stored).2.isSome notNull

open Classical in
/-- `garbage_collect` returns, and the list it leaves is that of the objects that can be
reached, in the order and with the fields they had. -/
theorem WellFormed.collects (wellFormed : WellFormed cells state) :
    ∃ left after, Completes (garbageCollect state) after ∧ WellFormed left after ∧
      left.map Cell.fields =
        (cells.map Cell.fields).filter (fun fields => fields.1 ∈ Reached state) := by
  obtain ⟨first, second, firstDone, secondDone, remarked, marked⟩ := wellFormed.marks
  obtain ⟨visited, listed, sameFields⟩ := wellFormed.listed.remarked remarked
  obtain ⟨left, after, swept, listedAfter, clean, fields, root1, root2⟩ :=
    @sweep_returns { state with objects := second } visited listed
  rw [listed.survivors_fields, marked, sameFields] at fields
  have kept : ∀ obj, obj ∈ Reached state → (state.objects obj).isSome →
      (after.objects obj).isSome :=
    fun obj => isSome_of_reached wellFormed.listed listedAfter fields
  have rootKept : ∀ root, root ∈ [state.root1, state.root2] → Sound state.objects root →
      Sound after.objects root := by
    intro root isRoot sound
    by_cases null : root = 0
    · exact Or.inl null
    · refine Or.inr (kept root ⟨root, ?_, .refl⟩ (sound.isSome null))
      rcases List.mem_pair.mp isRoot with rfl | rfl
      · exact Or.inl ⟨rfl, null⟩
      · exact Or.inr ⟨rfl, null⟩
  have fewer : left.length ≤ cells.length := by
    have kept := congrArg List.length fields
    rw [List.length_map] at kept
    rw [kept, ← List.length_map (Cell.fields)]
    exact List.length_filter_le _ _
  refine ⟨left, after, ?_, ⟨listedAfter, clean, ?_, ?_, ?_, ?_⟩, fields⟩
  · apply firstDone.bind _ (mark_stable _ _) _
    · exact secondDone.bind swept (mark_stable _ _) (sweep_stable _)
    · exact (mark_stable _ _).bind fun _ => sweep_stable _
  · have fits := wellFormed.fits
    rw [wellFormed.listed.size] at fits
    rw [listedAfter.size, sizeofObject]
    rw [sizeofObject] at fits
    omega
  · intro obj object stored
    have member := listedAfter.mem_fields_iff.mpr ⟨object, stored, rfl, rfl⟩
    rw [fields] at member
    rcases List.mem_filter.mp member with ⟨old, chosen⟩
    have reached : obj ∈ Reached state := of_decide_eq_true chosen
    rcases wellFormed.listed.mem_fields_iff.mp old with ⟨before, storedBefore, field1, field2⟩
    rcases wellFormed.fields obj before storedBefore with ⟨sound1, sound2⟩
    have fieldKept : ∀ field, before.field1 = field ∨ before.field2 = field →
        Sound state.objects field → Sound after.objects field := by
      intro field isField sound
      by_cases null : field = 0
      · exact Or.inl null
      · exact Or.inr (kept field (reached_of_points reached ⟨null, before, storedBefore, isField⟩)
          (sound.isSome null))
    rw [← field1, ← field2]
    exact ⟨fieldKept _ (Or.inl rfl) sound1, fieldKept _ (Or.inr rfl) sound2⟩
  · rw [root1]
    exact rootKept _ List.mem_cons_self wellFormed.root1
  · rw [root2]
    exact rootKept _ (List.mem_cons_of_mem _ List.mem_cons_self) wellFormed.root2

end Collection

/-! ## Runs -/

section Runs

variable {cells : List Cell} {state after : State} {obj value : Pointer} {object other : Object}

theorem garbageCollect_stable (state : State) : Stable (garbageCollect state) :=
  (mark_stable _ _).bind fun _ => (mark_stable _ _).bind fun _ => sweep_stable _

/-- What may be followed may still be followed when no object has been freed. -/
theorem Sound.mono {before after : Objects} (kept : ∀ obj, (before obj).isSome →
    (after obj).isSome) (sound : Sound before obj) : Sound after obj :=
  sound.imp_right (kept obj)

theorem isSome_update {objects : Objects} (allocated : (objects obj).isSome)
    (address : Pointer) (object : Object) :
    (Function.update objects address (some object) obj).isSome := by
  by_cases here : obj = address
  · rw [here, Function.update_self]
    rfl
  · rwa [Function.update_of_ne here]

theorem WellFormed.init {root1 root2 : Pointer}
    (sound1 : Sound (initHeap root1 root2).objects root1)
    (sound2 : Sound (initHeap root1 root2).objects root2) :
    WellFormed [] (initHeap root1 root2) where
  listed := ⟨rfl, List.nodup_nil, List.not_mem_nil, fun _ isSome => absurd isSome nofun, rfl⟩
  clean _ member := absurd member List.not_mem_nil
  fits := show (0 : Int) < 2 ^ 31 by decide
  fields _ _ stored := nomatch stored
  root1 := sound1
  root2 := sound2

theorem WellFormed.new {field1 field2 : Pointer} (wellFormed : WellFormed cells state)
    (notNull : obj ≠ 0) (fresh : state.objects obj = none)
    (sound1 : Sound state.objects field1) (sound2 : Sound state.objects field2)
    (fits : state.heap.size + sizeofObject < 2 ^ 31) :
    WellFormed ((obj, ⟨0, state.heap.head, field1, field2⟩) :: cells)
      (newObject state obj field1 field2) := by
  have unlisted : obj ∉ cells.map Prod.fst := by
    intro member
    rcases List.mem_map.mp member with ⟨⟨address, object⟩, inside, rfl⟩
    have stored := wellFormed.listed.chain.stored inside
    rw [fresh] at stored
    cases stored
  have kept : ∀ address, (state.objects address).isSome →
      ((newObject state obj field1 field2).objects address).isSome :=
    fun address isSome => isSome_update isSome obj _
  refine ⟨⟨⟨rfl, Function.update_self _ _ _, wellFormed.listed.chain.update unlisted _⟩, ?_, ?_,
    ?_, ?_⟩, ?_, fits, ?_, wellFormed.root1.mono kept, wellFormed.root2.mono kept⟩
  · exact List.nodup_cons.mpr ⟨unlisted, wellFormed.listed.distinct⟩
  · intro member
    rcases List.mem_cons.mp member with null | listed
    · exact notNull null.symm
    · exact wellFormed.listed.notNull listed
  · intro address isSome
    by_cases here : address = obj
    · simp [here]
    · simp only [newObject, Function.update_of_ne here] at isSome
      exact List.mem_cons_of_mem _ (wellFormed.listed.all address isSome)
  · simp only [newObject, wellFormed.listed.size, List.length_cons, sizeofObject]
    omega
  · intro cell member
    rcases List.mem_cons.mp member with rfl | listed
    · rfl
    · exact wellFormed.clean cell listed
  · intro address object stored
    by_cases here : address = obj
    · rw [here] at stored
      simp only [newObject, Function.update_self, Option.some.injEq] at stored
      rw [← stored]
      exact ⟨sound1.mono kept, sound2.mono kept⟩
    · simp only [newObject, Function.update_of_ne here] at stored
      rcases wellFormed.fields address object stored with ⟨first, second⟩
      exact ⟨first.mono kept, second.mono kept⟩

/-- A field of an object is set to a pointer that may be followed. -/
theorem WellFormed.setField (wellFormed : WellFormed cells state)
    (stored : state.objects obj = some object) (link : other.next = object.next)
    (unmarked : other.marked = object.marked) (sound1 : Sound state.objects other.field1)
    (sound2 : Sound state.objects other.field2) :
    ∃ changed, WellFormed changed
      { state with objects := Function.update state.objects obj (some other) } := by
  have inside := wellFormed.listed.cell stored
  rcases List.append_of_mem inside with ⟨before, behind, rfl⟩
  have kept : ∀ address, (state.objects address).isSome →
      (Function.update state.objects obj (some other) address).isSome :=
    fun address isSome => isSome_update isSome obj other
  refine ⟨before ++ (obj, other) :: behind, wellFormed.listed.replace link, ?_, wellFormed.fits, ?_,
    wellFormed.root1.mono kept, wellFormed.root2.mono kept⟩
  · intro cell member
    rcases List.mem_append.mp member with early | late
    · exact wellFormed.clean cell (List.mem_append_left _ early)
    · rcases List.mem_cons.mp late with rfl | later
      · exact unmarked.trans (wellFormed.clean (obj, object) inside)
      · exact wellFormed.clean cell (List.mem_append_right _ (List.mem_cons_of_mem _ later))
  · intro address found storedAfter
    by_cases here : address = obj
    · rw [here] at storedAfter
      simp only [Function.update_self, Option.some.injEq] at storedAfter
      rw [← storedAfter]
      exact ⟨sound1.mono kept, sound2.mono kept⟩
    · simp only [Function.update_of_ne here] at storedAfter
      rcases wellFormed.fields address found storedAfter with ⟨first, second⟩
      exact ⟨first.mono kept, second.mono kept⟩

/-- Every step keeps the heap in order. -/
theorem WellFormed.step (wellFormed : WellFormed cells state) (step : Step state after) :
    ∃ changed, WellFormed changed after := by
  cases step with
  | newObject notNull fresh initialised1 initialised2 fits =>
      exact ⟨_, wellFormed.new notNull fresh initialised1 initialised2 fits⟩
  | setField1 allocated sound =>
      exact wellFormed.setField allocated rfl rfl sound (wellFormed.fields _ _ allocated).2
  | setField2 allocated sound =>
      exact wellFormed.setField allocated rfl rfl (wellFormed.fields _ _ allocated).1 sound
  | setRoot1 sound =>
      exact ⟨cells, wellFormed.listed, wellFormed.clean, wellFormed.fits, wellFormed.fields, sound,
        wellFormed.root2⟩
  | setRoot2 sound =>
      exact ⟨cells, wellFormed.listed, wellFormed.clean, wellFormed.fits, wellFormed.fields,
        wellFormed.root1, sound⟩
  | garbageCollect returns =>
      obtain ⟨left, collected, completes, following, _⟩ := wellFormed.collects
      rw [(garbageCollect_stable state).unique returns completes]
      exact ⟨left, following⟩

theorem Run.wellFormed (run : Run state) : ∃ cells, WellFormed cells state := by
  rcases run with ⟨root1, root2, sound1, sound2, steps⟩
  induction steps with
  | refl => exact ⟨[], .init sound1 sound2⟩
  | tail _ step ih =>
      rcases ih with ⟨cells, wellFormed⟩
      exact wellFormed.step step

end Runs

open Classical in
/-- Exact collection. In every state a program gets to that initialises roots and fields,
`garbage_collect` returns. The list it leaves holds the objects of the list before that can
be reached from the roots, in their order and with their fields; these are the objects that
are still allocated, none of them is marked, and the size of the heap is that of these
objects, which fits into an `int`. -/
theorem garbageCollect_exact {state : State} (run : Run state) :
    ∃ cells left after, Listed cells state.objects state.heap ∧
      Completes (garbageCollect state) after ∧ Listed left after.objects after.heap ∧
      left.map Cell.fields =
        (cells.map Cell.fields).filter (fun fields => fields.1 ∈ Reached state) ∧
      (∀ obj, (after.objects obj).isSome ↔ obj ∈ Reached state) ∧
      (∀ obj object, after.objects obj = some object → object.marked = 0) ∧
      0 ≤ after.heap.size ∧ after.heap.size < 2 ^ 31 := by
  rcases run.wellFormed with ⟨cells, wellFormed⟩
  obtain ⟨left, after, completes, following, fields⟩ := wellFormed.collects
  refine ⟨cells, left, after, wellFormed.listed, completes, following.listed, fields, ?_, ?_,
    following.size_nonneg, following.fits⟩
  · intro obj
    constructor
    · intro isSome
      rcases Option.isSome_iff_exists.mp isSome with ⟨object, stored⟩
      have member := following.listed.mem_fields_iff.mpr ⟨object, stored, rfl, rfl⟩
      rw [fields] at member
      exact of_decide_eq_true (List.mem_filter.mp member).2
    · intro reached
      exact isSome_of_reached wellFormed.listed following.listed fields reached
        (wellFormed.allocated_of_reached reached)
  · intro obj object stored
    exact following.clean _ (following.listed.cell stored)

/-- In every state a program gets to that initialises roots and fields, these are NULL or
point to objects that are allocated, the list holds every object that is allocated, none
of them marked, the size fits into an `int`, and a `sweep` with nothing marked before it
frees all objects. -/
theorem run_neverDangles {state : State} (run : Run state) :
    Sound state.objects state.root1 ∧ Sound state.objects state.root2 ∧
      FieldsSound state.objects ∧
      (∃ cells, Listed cells state.objects state.heap ∧ ∀ cell ∈ cells, cell.2.marked = 0) ∧
      0 ≤ state.heap.size ∧ state.heap.size < 2 ^ 31 ∧
      ∃ after, Completes (sweep state) after ∧ (∀ obj, after.objects obj = none) ∧
        after.heap = ⟨0, 0⟩ := by
  rcases run.wellFormed with ⟨cells, wellFormed⟩
  refine ⟨wellFormed.root1, wellFormed.root2, wellFormed.fields,
    ⟨cells, wellFormed.listed, wellFormed.clean⟩, wellFormed.size_nonneg, wellFormed.fits, ?_⟩
  obtain ⟨left, after, completes, listed, _, fields, _⟩ := sweep_returns wellFormed.listed
  have nothing : survivors cells = [] := by
    apply List.filter_eq_nil_iff.mpr
    intro cell member
    simp [wellFormed.clean cell member]
  rw [nothing] at fields
  obtain rfl := List.map_eq_nil_iff.mp fields
  refine ⟨after, completes, ?_, ?_⟩
  · intro obj
    by_contra allocated
    exact absurd (listed.all obj (Option.isSome_iff_ne_none.mpr allocated)) List.not_mem_nil
  · have head : after.heap.head = 0 := listed.chain
    have size : after.heap.size = 0 := listed.size
    rw [← head, ← size]

/-- Two objects, the second of which points to the first. -/
def newObjects : State :=
  newObject (newObject (initHeap 0 0) 8 0 0) 16 8 0

/-- The two objects of `main`, which point to each other. -/
def linkedObjects : State :=
  { newObjects with
    objects := Function.update newObjects.objects 8 (some ⟨0, 0, 16, 0⟩) }

/-- The two objects of `main`, with the first one as a root. -/
def twoObjects : State :=
  { linkedObjects with root1 := 8 }

theorem run_twoObjects : Run twoObjects := by
  have first : Step (initHeap 0 0) (newObject (initHeap 0 0) 8 0 0) :=
    .newObject (by decide) rfl (Or.inl rfl) (Or.inl rfl) (by decide)
  have second : Step (newObject (initHeap 0 0) 8 0 0) newObjects :=
    .newObject (by decide) rfl (Or.inr rfl) (Or.inl rfl) (by decide)
  have linked : Step newObjects linkedObjects :=
    @Step.setField1 newObjects 8 16 ⟨0, 0, 0, 0⟩ rfl (Or.inr rfl)
  have rooted : Step linkedObjects twoObjects := @Step.setRoot1 linkedObjects 8 (Or.inr rfl)
  exact ⟨0, 0, Or.inl rfl, Or.inl rfl,
    (((Relation.ReflTransGen.single first).tail second).tail linked).tail rooted⟩

-- without a root both are freed, although they point to each other
example : (garbageCollect linkedObjects 3).map (fun after => (after.heap.head, after.heap.size)) =
    .done (0, 0) :=
  rfl

open Classical in
theorem garbageCollect_exact_twoObjects :
    ∃ cells left after, Listed cells twoObjects.objects twoObjects.heap ∧
      Completes (garbageCollect twoObjects) after ∧ Listed left after.objects after.heap ∧
      left.map Cell.fields =
        (cells.map Cell.fields).filter (fun fields => fields.1 ∈ Reached twoObjects) ∧
      (∀ obj, (after.objects obj).isSome ↔ obj ∈ Reached twoObjects) ∧
      (∀ obj object, after.objects obj = some object → object.marked = 0) ∧
      0 ≤ after.heap.size ∧ after.heap.size < 2 ^ 31 :=
  garbageCollect_exact run_twoObjects

theorem run_neverDangles_twoObjects :
    ∃ after, Completes (sweep twoObjects) after ∧ (∀ obj, after.objects obj = none) ∧
      after.heap = ⟨0, 0⟩ :=
  (run_neverDangles run_twoObjects).2.2.2.2.2.2

end ComputerSystems.MarkSweep

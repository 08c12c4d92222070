import ComputerSystems.ProcessQueue.Drained

/-!
# Processes by priority

`dequeueProcess` is to return the process with the highest priority, but it takes the
first node. So it does what it is to do exactly when no process that was enqueued later
has a higher priority than the first one.
-/

namespace ComputerSystems.ProcessQueue

open ComputerSystems.Transition

/-- A call of `enqueue`: the process, and the node that `malloc` gives it. -/
structure Insertion where
  element : Pointer
  temp : Pointer
  junk : Node

/-- The call of an insertion. -/
def Insertion.call (insertion : Insertion) : Call :=
  .enqueue insertion.element insertion.temp insertion.junk

/-- The nodes of a queue hold some processes, in order. -/
def Holds (queue : Queue) (waiting : List Pointer) : Prop :=
  ∃ cells, Lists queue cells ∧ processes cells = waiting

/-- `dequeueProcess` returns one of the processes that wait, none of which has a higher
priority, and leaves the others in their order. The field `priority` is that of the
process at a pointer. -/
def ReturnsHighest (priority : Pointer → BitVec 32) (queue : Queue) (waiting : List Pointer) :
    Prop :=
  ∃ next process front back, dequeueProcess queue = some (next, process) ∧
    waiting = front ++ process :: back ∧
    (∀ other ∈ waiting, priority other ≤ priority process) ∧ Holds next (front ++ back)

/-- The insertions build a queue from which `dequeueProcess` returns a process with the
highest priority. -/
def BuildsByPriority (priority : Pointer → BitVec 32) (data : Pointer)
    (insertions : List Insertion) : Prop :=
  ∃ session, exec processStep (opened data) (insertions.map Insertion.call) = some session ∧
    ReturnsHighest priority session.queue (insertions.map Insertion.element)

variable {priority : Pointer → BitVec 32} {data : Pointer} {insertions rest : List Insertion}
  {first : Insertion} {start session : Session} {queue : Queue} {waiting : List Pointer}

/-- Insertions return nothing. -/
theorem exec_insertions
    (ran : exec processStep start (insertions.map Insertion.call) = some session) :
    session.enqueued = start.enqueued ++ insertions.map Insertion.element ∧
      session.returned = start.returned := by
  induction insertions generalizing start with
  | nil =>
      cases ran
      exact ⟨(List.append_nil _).symm, rfl⟩
  | cons insertion rest ih =>
      rw [List.map_cons] at ran
      rcases Option.bind_eq_some_iff.mp ran with ⟨next, stepped, continued⟩
      rcases Option.map_eq_some_iff.mp stepped with ⟨queue, _, rfl⟩
      rcases ih continued with ⟨enqueued, returned⟩
      refine ⟨?_, returned⟩
      rw [enqueued, List.append_assoc, List.singleton_append, List.map_cons]

theorem asksForEnqueued_insertions (insertions : List Insertion) :
    AsksForEnqueued (insertions.map Insertion.call) := by
  rintro past call rest split rfl
  have member : Call.remove ∈ insertions.map Insertion.call := by
    rw [split]
    exact List.mem_append_right _ List.mem_cons_self
  rcases List.mem_map.mp member with ⟨insertion, _, same⟩
  cases same

theorem neverRefilled_insertions (insertions : List Insertion) :
    NeverRefilled (insertions.map Insertion.call) := by
  intro past call rest split _
  rcases List.eq_nil_or_concat past with empty | ⟨front, last, rfl⟩
  · exact Or.inl empty
  · right
    have calls : ∀ call ∈ front.concat last, call ≠ .remove := by
      intro call member
      have listed : call ∈ insertions.map Insertion.call := by
        rw [split]
        exact List.mem_append_left _ member
      rcases List.mem_map.mp listed with ⟨insertion, _, rfl⟩
      nofun
    have none : removals (front.concat last) = 0 :=
      List.count_eq_zero.mpr fun member => calls _ member rfl
    rw [none, ProcessQueue.insertions, List.countP_pos_iff]
    have member : last ∈ front.concat last := by
      rw [List.concat_eq_append]
      exact List.mem_append_right _ List.mem_cons_self
    exact ⟨last, member, decide_eq_true (calls _ member)⟩

/-- The queue that insertions build holds their processes. -/
theorem run_insertions
    (fresh : EveryStep processStep (fun session => Unused session.queue) (opened data)
      (insertions.map Insertion.call)) :
    ∃ session, exec processStep (opened data) (insertions.map Insertion.call) = some session ∧
      Holds session.queue (insertions.map Insertion.element) := by
  rcases run_orderly (asksForEnqueued_insertions insertions) (neverRefilled_insertions insertions)
    fresh with ⟨session, ran, orderly⟩
  rcases orderly.nodes with ⟨cells, lists, split⟩
  rcases exec_insertions ran with ⟨enqueued, returned⟩
  refine ⟨session, ran, cells, lists, ?_⟩
  rw [enqueued, returned] at split
  exact split.symm

/-- `dequeueProcess` returns the first process. -/
theorem Holds.dequeue {process : Pointer} (holds : Holds queue (process :: waiting)) :
    ∃ next, dequeueProcess queue = some (next, process) ∧ Holds next waiting := by
  rcases holds with ⟨cells, lists, same⟩
  cases cells with
  | nil => cases same
  | cons cell cells =>
      rcases List.cons.inj same with ⟨rfl, rfl⟩
      rcases lists.dequeue with ⟨next, returned, listed, _⟩
      exact ⟨next, returned, cells, listed, rfl⟩

theorem Holds.returnsHighest_iff {process : Pointer} (holds : Holds queue (process :: waiting)) :
    ReturnsHighest priority queue (process :: waiting) ↔
      ∀ later ∈ waiting, priority later ≤ priority process := by
  rcases holds.dequeue with ⟨next, returned, left⟩
  constructor
  · rintro ⟨_, found, _, _, also, _, highest, _⟩
    rw [returned] at also
    cases also
    exact fun later member => highest later (List.mem_cons_of_mem _ member)
  · intro highest
    refine ⟨next, process, [], waiting, returned, rfl, ?_, left⟩
    exact List.forall_mem_cons.mpr ⟨BitVec.le_refl _, highest⟩

/-- `dequeueProcess` returns a process with the highest priority exactly when no process
enqueued later has a higher priority than the first. -/
theorem buildsByPriority_iff
    (fresh : EveryStep processStep (fun session => Unused session.queue) (opened data)
      ((first :: rest).map Insertion.call)) :
    BuildsByPriority priority data (first :: rest) ↔
      ∀ later ∈ rest, priority later.element ≤ priority first.element := by
  rcases run_insertions fresh with ⟨session, ran, holds⟩
  have builds : BuildsByPriority priority data (first :: rest) ↔
      ReturnsHighest priority session.queue ((first :: rest).map Insertion.element) := by
    constructor
    · rintro ⟨_, also, returns⟩
      rw [ran] at also
      cases also
      exact returns
    · exact fun returns => ⟨session, ran, returns⟩
  rw [builds, List.map_cons, holds.returnsHighest_iff, List.forall_mem_map]

/-- The first of two processes has the higher priority. -/
theorem buildsByPriority_two :
    BuildsByPriority (fun process => if process = 7 then 9#32 else 1#32) 0
      [⟨7, 1, ⟨0, 0, 0, 0⟩⟩, ⟨8, 2, ⟨0, 0, 0, 0⟩⟩] := by
  refine (buildsByPriority_iff (by decide)).mpr ?_
  decide

/-- The second of two processes has the higher priority. -/
theorem not_buildsByPriority_two :
    ¬ ∀ priority data (first : Insertion) (rest : List Insertion),
      EveryStep processStep (fun session => Unused session.queue) (opened data)
        ((first :: rest).map Insertion.call) → BuildsByPriority priority data (first :: rest) := by
  intro always
  let queued : List Insertion := [⟨7, 1, ⟨0, 0, 0, 0⟩⟩, ⟨8, 2, ⟨0, 0, 0, 0⟩⟩]
  have fresh : EveryStep processStep (fun session => Unused session.queue) (opened 0)
      (queued.map Insertion.call) := by decide
  rcases run_insertions fresh with ⟨session, ran, holds⟩
  rcases always (fun process => if process = 8 then 9#32 else 1#32) 0 _ _ fresh with
    ⟨_, also, returns⟩
  rw [ran] at also
  cases also
  have highest := holds.returnsHighest_iff.mp returns 8 List.mem_cons_self
  exact absurd highest (by decide)

end ComputerSystems.ProcessQueue

import ComputerSystems.ProcessQueue.Core
import ComputerSystems.Transition.Run

/-!
# The queue and a list

`enqueue` neither counts its element nor sets the fields that `dequeue` reads. A
queue that was enqueued to says that it has no elements, so it behaves as a list
only as long as nothing is enqueued.
-/

namespace ComputerSystems.ProcessQueue

open ComputerSystems.Transition

/-- A queue, and the list of the elements that were enqueued and not yet returned. -/
structure Shadowed where
  queue : Queue
  outstanding : List Pointer

/-- A call of `enqueue` or `dequeue`, made on the queue and on the list. -/
def fifoStep (state : Shadowed) : Call → Option Shadowed
  | .enqueue element temp junk =>
      (enqueue state.queue element temp junk).map fun queue =>
        ⟨queue, state.outstanding ++ [element]⟩
  | .remove => (dequeue state.queue).map fun result => ⟨result.1, state.outstanding.tail⟩

/-- A queue and a list have the same number of elements. -/
def Counts (queue : Queue) (outstanding : List Pointer) : Prop :=
  qsize queue = outstanding.length ∧ (isempty queue ↔ outstanding.length = 0)

/-- A call returns, gives the result that the list gives, and leaves the same number of
elements. -/
def AsList (state : Shadowed) : Call → Prop
  | .enqueue element temp junk => ∃ queue, enqueue state.queue element temp junk = some queue ∧
      Counts queue (state.outstanding ++ [element])
  | .remove => ∃ queue result, dequeue state.queue = some (queue, result) ∧
      Counts queue state.outstanding.tail ∧
      (state.outstanding = [] → result = 0 ∧ queue = state.queue) ∧
      ∀ first, state.outstanding.head? = some first → result = first

/-- Every call of a sequence on a new queue behaves as on a list. -/
def BehavesAsFifo (data : Pointer) (calls : List Call) : Prop :=
  EveryStep fifoStep AsList ⟨makeQueue data, []⟩ calls

/-- `dequeue` leaves a new queue as it is. -/
theorem dequeue_makeQueue (data : Pointer) :
    dequeue (makeQueue data) = some (makeQueue data, 0) :=
  rfl

theorem asList_remove (data : Pointer) : AsList ⟨makeQueue data, []⟩ .remove := by
  refine ⟨makeQueue data, 0, dequeue_makeQueue data, ⟨rfl, ?_⟩, ?_, ?_⟩
  · exact ⟨fun _ => rfl, fun _ => rfl⟩
  · exact fun _ => ⟨rfl, rfl⟩
  · intro first found
    cases found

/-- The first element is not counted. -/
theorem not_asList_enqueue (data element temp : Pointer) (junk : Node) :
    ¬ AsList ⟨makeQueue data, []⟩ (.enqueue element temp junk) := by
  rintro ⟨queue, stored, counted, _⟩
  by_cases null : temp = 0
  · rw [enqueue, if_pos null] at stored
    cases stored
  · have first : isempty (makeQueue data) := rfl
    rw [enqueue, if_neg null, if_pos first] at stored
    obtain rfl := Option.some.inj stored
    rw [qsize, if_neg null] at counted
    exact absurd counted (show (0 : Int) ≠ 1 by decide)

/-- A queue behaves as a list exactly in the sequences that never enqueue. -/
theorem behavesAsFifo_iff (data : Pointer) (calls : List Call) :
    BehavesAsFifo data calls ↔ ∀ call ∈ calls, call = .remove := by
  induction calls with
  | nil => exact ⟨fun _ _ member => absurd member List.not_mem_nil, fun _ => trivial⟩
  | cons call rest ih =>
      rw [List.forall_mem_cons]
      cases call with
      | enqueue element temp junk =>
          constructor
          · rintro ⟨first, _⟩
            exact absurd first (not_asList_enqueue data element temp junk)
          · rintro ⟨same, _⟩
            cases same
      | remove =>
          constructor
          · rintro ⟨_, later⟩
            exact ⟨rfl, ih.mp (later _ rfl)⟩
          · rintro ⟨_, others⟩
            refine ⟨asList_remove data, ?_⟩
            intro next stepped
            obtain rfl := Option.some.inj stepped
            exact ih.mpr others

/-- The queue counts no element. -/
def Shadowed.Uncounted (state : Shadowed) : Prop := state.queue.size = 0

/-- No call counts an element. -/
theorem fifoStep_uncounted (state : Shadowed) (call : Call) (next : Shadowed)
    (stepped : fifoStep state call = some next) (zero : state.Uncounted) : next.Uncounted := by
  unfold Shadowed.Uncounted at zero ⊢
  cases call with
  | enqueue element temp junk =>
      rcases Option.map_eq_some_iff.mp stepped with ⟨queue, stored, rfl⟩
      unfold enqueue at stored
      split at stored
      · cases stored
      · dsimp only at stored
        split at stored
        · obtain rfl := Option.some.inj stored
          exact zero
        · rcases Option.map_eq_some_iff.mp stored with ⟨last, _, rfl⟩
          exact zero
  | remove =>
      rcases Option.map_eq_some_iff.mp stepped with ⟨result, removed, rfl⟩
      unfold dequeue at removed
      dsimp only at removed
      split at removed
      · obtain rfl := Option.some.inj removed
        exact zero
      · obtain rfl := Option.some.inj removed
        exact zero

/-- Whatever was enqueued, `dequeue` returns NULL. -/
theorem dequeue_null {data : Pointer} {calls : List Call} {state : Shadowed}
    (ran : exec fifoStep ⟨makeQueue data, []⟩ calls = some state) :
    ∃ queue, dequeue state.queue = some (queue, 0) := by
  have initially : (⟨makeQueue data, []⟩ : Shadowed).Uncounted := rfl
  have zero : state.Uncounted := exec_invariant initially fifoStep_uncounted ran
  unfold Shadowed.Uncounted at zero
  unfold dequeue
  dsimp only
  split
  · exact ⟨_, rfl⟩
  · exact ⟨_, rfl⟩

/-- After one element is enqueued, the queue has the size zero. -/
theorem not_fifo_after_enqueue :
    ¬ ∀ data calls,
      EveryStep fifoStep (fun state => Unused state.queue) ⟨makeQueue data, []⟩ calls →
        BehavesAsFifo data calls := by
  intro always
  have unused : Unused (makeQueue 0) (.enqueue 7 1 ⟨0, 0, 0, 0⟩) := ⟨by decide, rfl⟩
  have behaves := always 0 [.enqueue 7 1 ⟨0, 0, 0, 0⟩] ⟨unused, fun _ _ => trivial⟩
  exact not_asList_enqueue 0 7 1 ⟨0, 0, 0, 0⟩ behaves.1

end ComputerSystems.ProcessQueue

import ComputerSystems.ProcessQueue.Core
import ComputerSystems.Transition.Run
import Mathlib.Data.List.Nodup

/-!
# Processes that are returned

`dequeueProcess` frees the first node and moves `head`, not `tail`. While a process
is left, `tail` is the last node; once the queue is drained it is a node that was
freed, and the next `enqueue` appends to that node.
-/

namespace ComputerSystems.ProcessQueue

open ComputerSystems.Links
open ComputerSystems.Transition

/-! ## The list of nodes -/

/-- The nodes of a queue, each with its address, in order. -/
structure Lists (queue : Queue) (cells : List (Pointer × Node)) : Prop where
  chain : Chain Node.next queue.nodes queue.head cells 0
  distinct : (cells.map Prod.fst).Nodup
  null : queue.nodes 0 = none
  last : ∀ cell, cells.getLast? = some cell → queue.tail = cell.1

/-- The processes of the nodes. -/
def processes (cells : List (Pointer × Node)) : List Pointer :=
  cells.map fun cell => cell.2.p

variable {queue : Queue} {cells : List (Pointer × Node)} {element temp : Pointer} {junk : Node}

theorem makeQueue_lists (data : Pointer) : Lists (makeQueue data) [] where
  chain := rfl
  distinct := List.nodup_nil
  null := rfl
  last := nofun

/-- `enqueue` on a queue that was never used. -/
theorem Lists.enqueue_first (lists : Lists queue []) (unused : queue.tail = 0)
    (fresh : Unused queue (.enqueue element temp junk)) :
    ∃ next, enqueue queue element temp junk = some next ∧
      Lists next [(temp, newNode element junk)] ∧ next.tail ≠ 0 := by
  rw [enqueue, if_neg fresh.1]
  refine ⟨_, if_pos unused, ⟨?_, ?_, ?_, ?_⟩, fresh.1⟩
  · exact ⟨rfl, Function.update_self .., rfl⟩
  · exact List.nodup_singleton _
  · dsimp only
    rw [Function.update_of_ne (Ne.symm fresh.1)]
    exact lists.null
  · intro cell last
    cases last
    rfl

/-- `enqueue` behind the last node. -/
theorem Lists.enqueue_behind {front : List (Pointer × Node)} {address : Pointer} {node : Node}
    (lists : Lists queue (front ++ [(address, node)]))
    (fresh : Unused queue (.enqueue element temp junk)) :
    ∃ next, enqueue queue element temp junk = some next ∧
      Lists next (front ++ [(address, { node with next := temp })] ++
        [(temp, newNode element junk)]) ∧ next.tail ≠ 0 := by
  rcases chain_snoc.mp lists.chain with ⟨chain, stored, _⟩
  have tail : queue.tail = address := lists.last _ List.getLast?_concat
  have used : ¬ isempty queue := by
    intro empty
    rw [← tail, show queue.tail = 0 from empty, lists.null] at stored
    cases stored
  have apart : address ≠ temp := by
    rintro rfl
    rw [fresh.2] at stored
    cases stored
  have distinct := lists.distinct
  rw [List.map_append, List.nodup_append] at distinct
  have others : address ∉ front.map Prod.fst := fun member =>
    distinct.2.2 address member address List.mem_cons_self rfl
  have unlisted : temp ∉ front.map Prod.fst := by
    intro member
    rcases List.mem_map.mp member with ⟨cell, listed, rfl⟩
    have present := chain.stored listed
    rw [fresh.2] at present
    cases present
  have found : Function.update queue.nodes temp (some (newNode element junk)) queue.tail =
      some node := by
    rw [tail, Function.update_of_ne apart]
    exact stored
  rw [enqueue, if_neg fresh.1]
  dsimp only
  rw [if_neg used, found, tail]
  refine ⟨_, rfl, ⟨?_, ?_, ?_, ?_⟩, fresh.1⟩
  · refine chain_snoc.mpr ⟨chain_snoc.mpr ⟨?_, Function.update_self .., rfl⟩, ?_, rfl⟩
    · exact (chain.update unlisted _).update others _
    · dsimp only
      rw [Function.update_of_ne (Ne.symm apart), Function.update_self]
  · have renamed : (front ++ [(address, { node with next := temp })] ++
        [(temp, newNode element junk)]).map Prod.fst =
          front.map Prod.fst ++ [address] ++ [temp] := by
      simp
    rw [renamed, List.nodup_append]
    refine ⟨List.nodup_append.mpr distinct, List.nodup_singleton _, ?_⟩
    intro left member right single
    rcases List.mem_singleton.mp single with rfl
    rcases List.mem_append.mp member with inFront | here
    · rintro rfl
      exact unlisted inFront
    · rw [List.mem_singleton.mp here]
      exact apart
  · dsimp only
    rw [Function.update_of_ne, Function.update_of_ne (Ne.symm fresh.1)]
    · exact lists.null
    · rintro rfl
      rw [lists.null] at stored
      cases stored
  · intro cell last
    rw [List.getLast?_concat] at last
    cases last
    rfl

/-- `dequeueProcess` returns the process of the first node and frees it. -/
theorem Lists.dequeue {address : Pointer} {node : Node} {rest : List (Pointer × Node)}
    (lists : Lists queue ((address, node) :: rest)) :
    ∃ next, dequeueProcess queue = some (next, node.p) ∧ Lists next rest ∧
      next.tail = queue.tail := by
  rcases lists.chain with ⟨here, stored, chain⟩
  have distinct := lists.distinct
  rw [List.map_cons, List.nodup_cons] at distinct
  rw [dequeueProcess, here, stored]
  refine ⟨_, rfl, ⟨?_, distinct.2, ?_, ?_⟩, rfl⟩
  · exact chain.update distinct.1 _
  · dsimp only
    by_cases null : address = 0
    · rw [null]
      exact Function.update_self ..
    · rw [Function.update_of_ne (Ne.symm null)]
      exact lists.null
  · intro cell last
    apply lists.last cell
    rw [List.getLast?_cons, last]
    rfl

/-! ## Histories -/

/-- A queue with the processes that were enqueued and those that were returned. -/
structure Session where
  queue : Queue
  enqueued : List Pointer
  returned : List Pointer

/-- A new queue. -/
def opened (data : Pointer) : Session :=
  ⟨makeQueue data, [], []⟩

/-- A call of `enqueue` or `dequeueProcess`. -/
def processStep (session : Session) : Call → Option Session
  | .enqueue element temp junk =>
      (enqueue session.queue element temp junk).map fun queue =>
        { session with queue, enqueued := session.enqueued ++ [element] }
  | .remove =>
      (dequeueProcess session.queue).map fun result =>
        { session with queue := result.1, returned := session.returned ++ [result.2] }

/-- The number of processes that calls enqueue. -/
def insertions (calls : List Call) : Nat :=
  calls.countP fun call => call ≠ .remove

/-- The number of processes that calls ask for. -/
def removals (calls : List Call) : Nat :=
  calls.count .remove

/-- `dequeueProcess` is called only while an enqueued process was not returned. -/
def AsksForEnqueued (calls : List Call) : Prop :=
  EachInput (fun past call => call = .remove → removals past < insertions past) calls

/-- No process is enqueued when all the processes enqueued before were returned. -/
def NeverRefilled (calls : List Call) : Prop :=
  EachInput (fun past call => call ≠ .remove → past = [] ∨ removals past < insertions past) calls

/-- Every call returns, no process is returned more often than it was enqueued, and
calls of `dequeueProcess` for the processes that are left return all of them. -/
def ReturnsAll (data : Pointer) (calls : List Call) : Prop :=
  ∃ final, exec processStep (opened data) calls = some final ∧
    (∀ process, final.returned.count process ≤ final.enqueued.count process) ∧
    ∃ drained, exec processStep final
        (List.replicate (final.enqueued.length - final.returned.length) .remove) = some drained ∧
      drained.returned.Perm final.enqueued

/-- What the calls so far have led to: the nodes hold the processes that are left. -/
structure Orderly (past : List Call) (session : Session) : Prop where
  inserted : session.enqueued.length = insertions past
  removed : session.returned.length = removals past
  nodes : ∃ cells, Lists session.queue cells ∧
    session.enqueued = session.returned ++ processes cells
  tail : session.queue.tail = 0 ↔ past = []

/-- After a process was enqueued to a drained queue, `head` stays NULL. -/
structure Stuck (session : Session) : Prop where
  null : session.queue.nodes 0 = none
  head : session.queue.head = 0
  tail : session.queue.tail ≠ 0
  left : session.returned.length < session.enqueued.length

variable {past calls : List Call} {session next : Session} {call : Call} {data : Pointer}

theorem insertions_snoc (past : List Call) (call : Call) :
    insertions (past ++ [call]) = insertions past + if call = .remove then 0 else 1 := by
  rw [insertions, List.countP_append, List.countP_singleton]
  by_cases same : call = .remove <;> simp [insertions, same]

theorem removals_snoc (past : List Call) (call : Call) :
    removals (past ++ [call]) = removals past + if call = .remove then 1 else 0 := by
  rw [removals, List.count_append, List.count_singleton]
  by_cases same : call = .remove <;> simp [removals, same]

/-! ## One call -/

theorem orderly_opened (data : Pointer) : Orderly [] (opened data) where
  inserted := rfl
  removed := rfl
  nodes := ⟨[], makeQueue_lists data, rfl⟩
  tail := ⟨fun _ => rfl, fun _ => rfl⟩

/-- The number of nodes is that of the processes left. -/
theorem Orderly.length (orderly : Orderly past session)
    (split : session.enqueued = session.returned ++ processes cells) :
    insertions past = removals past + cells.length := by
  rw [← orderly.inserted, ← orderly.removed, split, List.length_append, processes,
    List.length_map]

/-- While a process is left, and on a queue that was never used, `enqueue` adds a
node. -/
theorem Orderly.enqueue (orderly : Orderly past session)
    (allowed : past = [] ∨ removals past < insertions past)
    (fresh : Unused session.queue (.enqueue element temp junk)) :
    ∃ next, processStep session (.enqueue element temp junk) = some next ∧
      Orderly (past ++ [.enqueue element temp junk]) next := by
  rcases orderly.nodes with ⟨cells, lists, split⟩
  have length := orderly.length split
  have added : ∃ queue more, ProcessQueue.enqueue session.queue element temp junk = some queue ∧
      Lists queue more ∧ processes more = processes cells ++ [element] ∧ queue.tail ≠ 0 := by
    rcases List.eq_nil_or_concat cells with rfl | ⟨front, ⟨address, node⟩, rfl⟩
    · have unused : past = [] := by
        apply allowed.resolve_right
        rw [List.length_nil] at length
        omega
      rcases lists.enqueue_first (orderly.tail.mpr unused) fresh with ⟨queue, stored, added, tail⟩
      exact ⟨queue, _, stored, added, rfl, tail⟩
    · rw [List.concat_eq_append] at lists ⊢
      rcases lists.enqueue_behind fresh with ⟨queue, stored, added, tail⟩
      exact ⟨queue, _, stored, added, by simp [processes, newNode], tail⟩
  rcases added with ⟨queue, more, stored, listed, grown, tail⟩
  refine ⟨_, by rw [processStep, stored, Option.map_some], ?_, ?_, ⟨more, listed, ?_⟩, ?_⟩
  · rw [insertions_snoc, if_neg (by nofun), ← orderly.inserted, List.length_append,
      List.length_singleton]
  · rw [removals_snoc, if_neg (by nofun), ← orderly.removed, Nat.add_zero]
  · rw [split, grown, List.append_assoc]
  · simp [tail]

/-- While a process is left, `dequeueProcess` returns the first one. -/
theorem Orderly.remove (orderly : Orderly past session) (left : removals past < insertions past) :
    ∃ next, processStep session .remove = some next ∧ Orderly (past ++ [.remove]) next := by
  rcases orderly.nodes with ⟨cells, lists, split⟩
  have length := orderly.length split
  cases cells with
  | nil =>
      rw [List.length_nil] at length
      omega
  | cons first rest =>
      rcases lists.dequeue with ⟨queue, returned, listed, tail⟩
      have used : past ≠ [] := by
        rintro rfl
        exact absurd left (Nat.not_lt_zero _)
      refine ⟨_, by rw [processStep, returned, Option.map_some], ?_, ?_, ⟨rest, listed, ?_⟩, ?_⟩
      · rw [insertions_snoc, if_pos rfl, ← orderly.inserted, Nat.add_zero]
      · rw [removals_snoc, if_pos rfl, ← orderly.removed, List.length_append,
          List.length_singleton]
      · rw [split, List.append_assoc]
        rfl
      · dsimp only
        rw [tail, orderly.tail]
        simp [used]

/-- `enqueue` does not set `head` when `tail` is not NULL. -/
theorem enqueue_used {queue after : Queue} (used : queue.tail ≠ 0) (null : queue.nodes 0 = none)
    (stored : enqueue queue element temp junk = some after) :
    after.head = queue.head ∧ after.tail ≠ 0 ∧ after.nodes 0 = none := by
  by_cases zero : temp = 0
  · rw [enqueue, if_pos zero] at stored
    cases stored
  · rw [enqueue, if_neg zero] at stored
    dsimp only at stored
    rw [if_neg (show ¬ isempty queue from used)] at stored
    rcases Option.map_eq_some_iff.mp stored with ⟨last, _, rfl⟩
    refine ⟨rfl, zero, ?_⟩
    dsimp only
    rw [Function.update_of_ne (Ne.symm used), Function.update_of_ne (Ne.symm zero)]
    exact null

/-- Where a process is enqueued to a drained queue, no node leads to it. -/
theorem Orderly.refill (orderly : Orderly past session) (used : past ≠ [])
    (drained : ¬ removals past < insertions past)
    (stepped : processStep session (.enqueue element temp junk) = some next) : Stuck next := by
  rcases orderly.nodes with ⟨cells, lists, split⟩
  have length := orderly.length split
  have empty : cells = [] := List.length_eq_zero_iff.mp (by omega)
  subst empty
  rcases Option.map_eq_some_iff.mp stepped with ⟨queue, stored, rfl⟩
  have tail : session.queue.tail ≠ 0 := fun zero => used (orderly.tail.mp zero)
  rcases enqueue_used tail lists.null stored with ⟨head, moved, null⟩
  refine ⟨null, head.trans lists.chain, moved, ?_⟩
  rw [List.length_append, orderly.inserted, orderly.removed, List.length_singleton]
  rw [List.length_nil] at length
  omega

theorem Stuck.enqueue (stuck : Stuck session)
    (stepped : processStep session (.enqueue element temp junk) = some next) : Stuck next := by
  rcases Option.map_eq_some_iff.mp stepped with ⟨queue, stored, rfl⟩
  rcases enqueue_used stuck.tail stuck.null stored with ⟨head, moved, null⟩
  refine ⟨null, head.trans stuck.head, moved, ?_⟩
  rw [List.length_append]
  exact Nat.lt_add_right _ stuck.left

/-- Then `dequeueProcess` reads the NULL that `head` is. -/
theorem Stuck.remove (stuck : Stuck session) : processStep session .remove = none := by
  rw [processStep, dequeueProcess, stuck.head, stuck.null]
  rfl

/-! ## Runs -/

/-- Calls of `dequeueProcess` return the processes of the nodes. -/
theorem Lists.drain (lists : Lists session.queue cells) :
    ∃ drained, exec processStep session (List.replicate cells.length .remove) = some drained ∧
      drained.returned = session.returned ++ processes cells := by
  induction cells generalizing session with
  | nil => exact ⟨session, rfl, (List.append_nil _).symm⟩
  | cons first rest ih =>
      rcases lists.dequeue with ⟨queue, returned, listed, _⟩
      let later : Session := { session with queue, returned := session.returned ++ [first.2.p] }
      rcases @ih later listed with ⟨drained, ran, all⟩
      refine ⟨drained, ?_, ?_⟩
      · rw [List.length_cons, List.replicate_succ, exec, processStep, returned, Option.map_some,
          Option.bind_some, ran]
      · rw [all, List.append_assoc]
        rfl

/-- A run that never refills a drained queue returns, and its processes are in the
nodes. -/
theorem run_orderly (asks : AsksForEnqueued calls) (never : NeverRefilled calls)
    (fresh : EveryStep processStep (fun session => Unused session.queue) (opened data) calls) :
    ∃ final, exec processStep (opened data) calls = some final ∧ Orderly calls final := by
  apply exec_history Orderly (orderly_opened data)
  rintro past call rest rfl session ran orderly
  cases call with
  | enqueue element temp junk =>
      exact orderly.enqueue (never past _ rest rfl (by nofun)) (fresh.here ran)
  | remove => exact orderly.remove (asks past _ rest rfl rfl)

/-- In every run, no drained queue was refilled, or the queue is stuck. -/
theorem run_orderly_or_stuck (asks : AsksForEnqueued calls)
    (fresh : EveryStep processStep (fun session => Unused session.queue) (opened data) calls)
    (part : past <+: calls) (ran : exec processStep (opened data) past = some session) :
    NeverRefilled past ∧ Orderly past session ∨ Stuck session := by
  induction past using List.reverseRecOn generalizing session with
  | nil =>
      cases ran
      exact Or.inl ⟨eachInput_nil _, orderly_opened data⟩
  | append_singleton past call ih =>
      rw [exec_snoc] at ran
      rcases Option.bind_eq_some_iff.mp ran with ⟨before, earlier, stepped⟩
      rcases part with ⟨rest, rfl⟩
      rw [List.append_assoc, List.singleton_append] at asks fresh ih
      rcases ih ⟨call :: rest, rfl⟩ earlier with ⟨never, orderly⟩ | stuck
      · cases call with
        | enqueue element temp junk =>
            by_cases allowed : past = [] ∨ removals past < insertions past
            · rcases orderly.enqueue allowed (fresh.here earlier) with ⟨next, stored, later⟩
              rw [stored] at stepped
              cases stepped
              exact Or.inl ⟨eachInput_snoc.mpr ⟨never, fun _ => allowed⟩, later⟩
            · rw [not_or] at allowed
              exact Or.inr (orderly.refill allowed.1 allowed.2 stepped)
        | remove =>
            rcases orderly.remove (asks past _ rest rfl rfl) with ⟨next, returned, later⟩
            rw [returned] at stepped
            cases stepped
            exact Or.inl ⟨eachInput_snoc.mpr ⟨never, fun other => absurd rfl other⟩, later⟩
      · cases call with
        | enqueue element temp junk => exact Or.inr (stuck.enqueue stepped)
        | remove =>
            rw [stuck.remove] at stepped
            cases stepped

/-- All processes are returned exactly when no process is enqueued to a queue that was
drained. -/
theorem dequeueProcess_returnsAll_iff (asks : AsksForEnqueued calls)
    (fresh : EveryStep processStep (fun session => Unused session.queue) (opened data) calls) :
    ReturnsAll data calls ↔ NeverRefilled calls := by
  constructor
  · rintro ⟨final, ran, _, drained, rest, _⟩
    rcases run_orderly_or_stuck asks fresh (List.prefix_refl calls) ran with ⟨never, _⟩ | stuck
    · exact never
    · have left : final.enqueued.length - final.returned.length =
          final.enqueued.length - final.returned.length - 1 + 1 := by
        have := stuck.left
        omega
      rw [left, List.replicate_succ, exec, stuck.remove] at rest
      cases rest
  · intro never
    rcases run_orderly asks never fresh with ⟨final, ran, orderly⟩
    rcases orderly.nodes with ⟨cells, lists, split⟩
    rcases lists.drain with ⟨drained, rest, all⟩
    have left : final.enqueued.length - final.returned.length = cells.length := by
      rw [split, List.length_append, processes, List.length_map]
      omega
    refine ⟨final, ran, ?_, drained, ?_, ?_⟩
    · intro process
      rw [split, List.count_append]
      exact Nat.le_add_right _ _
    · rw [left, rest]
    · rw [all, split]

/-- Two processes are enqueued and returned. -/
theorem dequeueProcess_returnsAll_two :
    ReturnsAll 0 [.enqueue 7 1 ⟨0, 0, 0, 0⟩, .enqueue 8 2 ⟨0, 0, 0, 0⟩, .remove, .remove] := by
  have asks : AsksForEnqueued
      ([.enqueue 7 1 ⟨0, 0, 0, 0⟩] ++ [.enqueue 8 2 ⟨0, 0, 0, 0⟩] ++ [.remove] ++ [.remove]) := by
    refine eachInput_snoc.mpr ⟨eachInput_snoc.mpr ⟨eachInput_snoc.mpr ⟨?_, nofun⟩, ?_⟩, ?_⟩
    · exact eachInput_snoc.mpr ⟨eachInput_nil _, nofun⟩
    · exact fun _ => by decide
    · exact fun _ => by decide
  have never : NeverRefilled
      ([.enqueue 7 1 ⟨0, 0, 0, 0⟩] ++ [.enqueue 8 2 ⟨0, 0, 0, 0⟩] ++ [.remove] ++ [.remove]) := by
    refine eachInput_snoc.mpr ⟨eachInput_snoc.mpr ⟨eachInput_snoc.mpr ⟨?_, ?_⟩, ?_⟩, ?_⟩
    · exact eachInput_snoc.mpr ⟨eachInput_nil _, fun _ => Or.inl rfl⟩
    · exact fun _ => Or.inr (by decide)
    · exact fun other => absurd rfl other
    · exact fun other => absurd rfl other
  exact (dequeueProcess_returnsAll_iff asks (by decide)).mpr never

/-- A process that is enqueued after the only one was returned is appended to a node
that was freed. -/
theorem not_returnsAll_after_drain :
    ¬ ∀ data calls, AsksForEnqueued calls →
      EveryStep processStep (fun session => Unused session.queue) (opened data) calls →
        ReturnsAll data calls := by
  intro always
  have asks : AsksForEnqueued
      ([.enqueue 7 1 ⟨0, 0, 0, 0⟩] ++ [.remove] ++ [.enqueue 8 2 ⟨0, 0, 0, 0⟩]) := by
    refine eachInput_snoc.mpr ⟨eachInput_snoc.mpr ⟨?_, fun _ => by decide⟩, nofun⟩
    exact eachInput_snoc.mpr ⟨eachInput_nil _, nofun⟩
  rcases always 0 _ asks (by decide) with ⟨final, ran, _⟩
  cases ran

end ComputerSystems.ProcessQueue

import ComputerSystems.Memory.Chain

/-!
# The process queue

The functions of `A3/queue.c`. A pointer is a number, NULL is zero, and the nodes
that are allocated at present are a partial function on pointers: a read or a write
of any other node has no result. What `malloc` returns is an argument of `enqueue`,
with the junk that the new node holds.
-/

namespace ComputerSystems.ProcessQueue

open ComputerSystems.Links

/-- `void *`, `process_t *` and `node_t *`. -/
abbrev Pointer := Nat

/-- `node_t`. -/
structure Node where
  next : Pointer
  prev : Pointer
  val : Pointer
  p : Pointer
  deriving DecidableEq

/-- `queue_t`, and the nodes that are allocated. -/
structure Queue where
  head : Pointer
  tail : Pointer
  size : Int
  data : Pointer
  nodes : Pointer → Option Node

/-- `makeQueue`. The field `data` is not set. -/
def makeQueue (data : Pointer) : Queue where
  head := 0
  tail := 0
  size := 0
  data := data
  nodes := fun _ => none

/-- `isempty`. -/
def isempty (queue : Queue) : Prop :=
  queue.tail = 0

instance : DecidablePred isempty := fun queue => inferInstanceAs (Decidable (queue.tail = 0))

/-- The node that `enqueue` allocates. -/
def newNode (element : Pointer) (junk : Node) : Node :=
  { junk with p := element, next := 0 }

/-- `enqueue`, where `malloc` returns `temp`. -/
def enqueue (queue : Queue) (element temp : Pointer) (junk : Node) : Option Queue :=
  if temp = 0 then none
  else
    let nodes := Function.update queue.nodes temp (some (newNode element junk))
    if isempty queue then
      some { queue with data := temp, head := temp, tail := temp, nodes }
    else
      (nodes queue.tail).map fun last =>
        { queue with
          tail := temp
          nodes := Function.update nodes queue.tail (some { last with next := temp }) }

/-- `dequeue`: the queue it leaves and the pointer it returns. -/
def dequeue (queue : Queue) : Option (Queue × Pointer) :=
  let queue := if queue.head = queue.tail then { queue with tail := 0 } else queue
  if queue.size = 0 then some (queue, 0)
  else do
    let res := (← queue.nodes queue.head).val
    let oldNode := queue.head
    let prev := (← queue.nodes oldNode).prev
    let before ← queue.nodes prev
    let nodes := Function.update queue.nodes prev (some { before with next := queue.tail })
    let last ← nodes queue.tail
    let nodes := Function.update nodes queue.tail (some { last with prev := prev })
    let head := (← nodes oldNode).next
    some ({ queue with head, size := queue.size - 1, nodes }, res)

/-- `dequeueProcess`: the queue it leaves and the process it returns. -/
def dequeueProcess (queue : Queue) : Option (Queue × Pointer) :=
  (queue.nodes queue.head).map fun first =>
    ({ queue with
        head := first.next
        data := first.next
        nodes := Function.update queue.nodes queue.head none }, first.p)

/-- `qsize`. -/
def qsize (queue : Queue) : Int :=
  if queue.head = 0 then 0 else queue.size

/-! ## Calls -/

/-- A call on a queue: `enqueue`, with what `malloc` gives it, or the function that
removes. -/
inductive Call
  | enqueue (element temp : Pointer) (junk : Node)
  | remove
  deriving DecidableEq

/-- `malloc` returns a node that is not allocated at present. -/
def Unused (queue : Queue) : Call → Prop
  | .enqueue _ temp _ => temp ≠ 0 ∧ queue.nodes temp = none
  | .remove => True

instance (queue : Queue) : DecidablePred (Unused queue)
  | .enqueue _ temp _ => inferInstanceAs (Decidable (temp ≠ 0 ∧ queue.nodes temp = none))
  | .remove => inferInstanceAs (Decidable True)

end ComputerSystems.ProcessQueue

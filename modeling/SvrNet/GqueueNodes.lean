import Mathlib.Data.List.Basic
import Mathlib.Logic.Function.Basic

namespace SvrNet
namespace GqueueNodes

abbrev Addr := Nat

/-- A pointer; `none` is `NULL`. -/
abbrev Ptr := Option Addr

/-- `struct node`. -/
structure Node where
  data : Ptr
  datalen : Nat
  prev : Ptr
  next : Ptr
  deriving DecidableEq

/-- What `malloc` has given out and `free` has not got back: nodes, and blocks of bytes. -/
structure NodeHeap (α : Type) where
  node : Addr → Option Node
  block : Addr → Option (List α)

/-- `easy_queue_t`. Of the callback only its presence matters here; what it is passed is a result of
`easy_queue_clear`. -/
structure LinkedQueue where
  size : Int
  queueHead : Ptr
  queueTail : Ptr
  userHandler : Bool
  deriving DecidableEq

variable {α : Type}

section Memory

/-- `malloc(sizeof(struct node))`, with the address that it returns and the values of the members. -/
def NodeHeap.mallocNode (heap : NodeHeap α) (p : Addr) (node : Node) : Option (NodeHeap α) :=
  if (heap.node p).isNone then some { heap with node := Function.update heap.node p (some node) } else none

/-- `malloc(datalen)` followed by the `memcpy` of that many bytes. -/
def NodeHeap.mallocCopy (heap : NodeHeap α) (p : Addr) (data : List α) (datalen : Nat) : Option (NodeHeap α) :=
  if (heap.block p).isNone ∧ datalen ≤ data.length then
    some { heap with block := Function.update heap.block p (some (data.take datalen)) }
  else none

def NodeHeap.load (heap : NodeHeap α) (p : Ptr) : Option Node := p.bind heap.node

/-- An assignment to members of a node. -/
def NodeHeap.modify (heap : NodeHeap α) (p : Ptr) (change : Node → Node) : Option (NodeHeap α) :=
  match p with
  | none => none
  | some a => (heap.node a).map fun node =>
    { heap with node := Function.update heap.node a (some (change node)) }

/-- The bytes that a `memcpy` of this length reads. -/
def NodeHeap.read (heap : NodeHeap α) (p : Ptr) (len : Nat) : Option (List α) :=
  match p.bind heap.block with
  | none => none
  | some bytes => if len ≤ bytes.length then some (bytes.take len) else none

/-- What is in a buffer after a `memcpy` to it. -/
def copyTo (buf : Option (List α)) (bytes : List α) : Option (List α) :=
  match buf with
  | none => none
  | some buf => if bytes.length ≤ buf.length then some (bytes ++ buf.drop bytes.length) else none

def NodeHeap.freeNode (heap : NodeHeap α) (p : Ptr) : Option (NodeHeap α) :=
  match p with
  | none => some heap
  | some a => if (heap.node a).isSome then some { heap with node := Function.update heap.node a none } else none

def NodeHeap.freeBlock (heap : NodeHeap α) (p : Ptr) : Option (NodeHeap α) :=
  match p with
  | none => some heap
  | some a => if (heap.block a).isSome then some { heap with block := Function.update heap.block a none } else none

end Memory

/-- `easy_queue_init`, with the address of the node at its head. -/
def easyQueueInit (heap : NodeHeap α) (p : Addr) (freeCb : Bool) : Option (NodeHeap α × LinkedQueue) := do
  let heap ← heap.mallocNode p ⟨none, 0, none, none⟩
  return (heap, ⟨0, some p, some p, freeCb⟩)

/-- `easy_queue_push`, with the addresses of the new node and of the copy of the data. -/
def easyQueuePush (heap : NodeHeap α) (queue : LinkedQueue) (data : List α) (datalen : Nat)
    (p block : Addr) : Option (NodeHeap α × LinkedQueue) := do
  let heap ← heap.mallocNode p ⟨none, 0, none, none⟩
  let heap ← heap.mallocCopy block data datalen
  let heap ← heap.modify (some p) fun node => { node with data := some block, datalen := datalen, next := none }
  let heap ← heap.modify queue.queueTail fun node => { node with next := some p }
  let heap ← heap.modify (some p) fun node => { node with prev := queue.queueTail }
  return (heap, { queue with queueTail := some p, size := queue.size + 1 })

/-- The result of `easy_queue_pop`, with `buf` and `*buflen` as it leaves them. -/
structure PopResult (α : Type) where
  ret : Int
  buf : Option (List α)
  buflen : Nat
  deriving DecidableEq

/-- `easy_queue_pop`; `buf` is the memory it may write, or `NULL`. -/
def easyQueuePop (heap : NodeHeap α) (queue : LinkedQueue) (buf : Option (List α)) (buflen : Nat) :
    Option (PopResult α × NodeHeap α × LinkedQueue) := do
  let head ← heap.load queue.queueHead
  match head.next with
  | none => return (⟨-1, buf, 0⟩, heap, queue)
  | some p =>
    let node ← heap.load (some p)
    if buf.isNone ∨ buflen < node.datalen then return (⟨-1, buf, node.datalen⟩, heap, queue)
    else
      let heap ← heap.modify queue.queueHead fun head => { head with next := node.next }
      let node ← heap.load (some p)
      let heap ← if node.next.isSome then heap.modify node.next fun next => { next with prev := queue.queueHead }
        else some heap
      let queue := if node.next.isSome then queue else { queue with queueTail := queue.queueHead }
      let bytes ← heap.read node.data node.datalen
      let buf ← copyTo buf bytes
      let heap ← heap.freeBlock node.data
      let heap ← heap.freeNode (some p)
      return (⟨0, some buf, node.datalen⟩, heap, { queue with size := queue.size - 1 })

/-- The body of the loop of `easy_queue_clear`, with what it passes to the callback. -/
def easyQueueClearTurn (heap : NodeHeap α) (queue : LinkedQueue) :
    Option (List (List α × Nat) × NodeHeap α × LinkedQueue) := do
  let cursor := queue.queueTail
  let node ← heap.load cursor
  let queue := { queue with queueTail := node.prev }
  let heap ← heap.modify queue.queueTail fun last => { last with next := none }
  let node ← heap.load cursor
  let passed ← if queue.userHandler then (heap.read node.data node.datalen).map fun bytes => [(bytes, node.datalen)]
    else some []
  let heap ← heap.freeBlock node.data
  let heap ← heap.freeNode cursor
  return (passed, heap, { queue with size := queue.size - 1 })

/-- At most this many tests of the condition of the loop. -/
def easyQueueClearLoop : Nat → NodeHeap α → LinkedQueue → Option (List (List α × Nat) × NodeHeap α × LinkedQueue)
  | 0, _, _ => none
  | fuel + 1, heap, queue =>
    if queue.queueTail = queue.queueHead then some ([], heap, queue)
    else do
      let (passed, heap, queue) ← easyQueueClearTurn heap queue
      let (later, heap, queue) ← easyQueueClearLoop fuel heap queue
      return (passed ++ later, heap, queue)

/-- `easy_queue_clear`; there is no result when its assertion fails. -/
def easyQueueClear (fuel : Nat) (heap : NodeHeap α) (queue : LinkedQueue) :
    Option (List (List α × Nat) × NodeHeap α × LinkedQueue) := do
  let (passed, heap, queue) ← easyQueueClearLoop fuel heap queue
  if queue.size = 0 then return (passed, heap, queue) else none

section Equations

variable {heap : NodeHeap α} {queue : LinkedQueue} {data bytes : List α} {buf : Option (List α)}
  {datalen buflen : Nat} {p block head second : Addr} {node last front behind : Node}

/-- What `easy_queue_push` does when the node at the tail is there. -/
theorem push_eq (freshNode : heap.node p = none) (freshBlock : heap.block block = none)
    (inside : datalen ≤ data.length) (atTail : queue.queueTail = some head) (atLast : heap.node head = some last) :
    easyQueuePush heap queue data datalen p block = some
      (⟨Function.update (Function.update heap.node head (some { last with next := some p }))
          p (some ⟨some block, datalen, some head, none⟩),
        Function.update heap.block block (some (data.take datalen))⟩,
      { queue with queueTail := some p, size := queue.size + 1 }) := by
  have other : head ≠ p := by
    rintro rfl
    simp [atLast] at freshNode
  simp [easyQueuePush, NodeHeap.mallocNode, NodeHeap.mallocCopy, NodeHeap.modify, freshNode, freshBlock, inside,
    atTail, atLast, Function.update_of_ne other, Function.update_of_ne other.symm, Function.update_comm other]

theorem pop_of_empty (atHead : queue.queueHead = some head) (atFront : heap.node head = some front)
    (empty : front.next = none) : easyQueuePop heap queue buf buflen = some (⟨-1, buf, 0⟩, heap, queue) := by
  simp [easyQueuePop, NodeHeap.load, atHead, atFront, empty]

section First

variable (atHead : queue.queueHead = some head) (atFront : heap.node head = some front)
  (first : front.next = some p) (atNode : heap.node p = some node)
include atHead atFront first atNode

theorem pop_of_short (short : buf = none ∨ buflen < node.datalen) :
    easyQueuePop heap queue buf buflen = some (⟨-1, buf, node.datalen⟩, heap, queue) := by
  simp [easyQueuePop, NodeHeap.load, atHead, atFront, first, atNode, short]

variable {memory : List α} (other : p ≠ head) (filled : node.data = some block) (counted : node.datalen = bytes.length)
  (atBlock : heap.block block = some bytes) (fits : bytes.length ≤ buflen) (room : buflen ≤ memory.length)
include other filled counted atBlock fits room

/-- The only node is popped. -/
theorem pop_of_last (alone : node.next = none) :
    easyQueuePop heap queue (some memory) buflen = some
      (⟨0, some (bytes ++ memory.drop bytes.length), bytes.length⟩,
        ⟨Function.update (Function.update heap.node head (some { front with next := none })) p none,
          Function.update heap.block block none⟩,
        { queue with queueTail := some head, size := queue.size - 1 }) := by
  have large : ¬ buflen < bytes.length := Nat.not_lt.mpr fits
  simp [easyQueuePop, NodeHeap.load, NodeHeap.modify, NodeHeap.read, NodeHeap.freeBlock, NodeHeap.freeNode, copyTo,
    atHead, atFront, first, atNode, filled, counted, atBlock, alone, large, Nat.le_trans fits room,
    Function.update_of_ne other]

/-- The first of several nodes is popped. -/
theorem pop_of_more (next : node.next = some second) (atSecond : heap.node second = some behind)
    (apart : second ≠ head) (apart' : second ≠ p) :
    easyQueuePop heap queue (some memory) buflen = some
      (⟨0, some (bytes ++ memory.drop bytes.length), bytes.length⟩,
        ⟨Function.update (Function.update (Function.update heap.node head (some { front with next := some second }))
            second (some { behind with prev := some head })) p none,
          Function.update heap.block block none⟩,
        { queue with size := queue.size - 1 }) := by
  have large : ¬ buflen < bytes.length := Nat.not_lt.mpr fits
  simp [easyQueuePop, NodeHeap.load, NodeHeap.modify, NodeHeap.read, NodeHeap.freeBlock, NodeHeap.freeNode, copyTo,
    atHead, atFront, first, atNode, filled, counted, atBlock, next, atSecond, large, Nat.le_trans fits room,
    Function.update_of_ne other, Function.update_of_ne apart, Function.update_of_ne apart'.symm]

end First

/-- One turn of the loop of `easy_queue_clear` takes the node at the tail. -/
theorem clearTurn_eq (atTail : queue.queueTail = some p) (atNode : heap.node p = some node)
    (before : node.prev = some head) (atFront : heap.node head = some front) (other : p ≠ head)
    (filled : node.data = some block) (counted : node.datalen = bytes.length)
    (atBlock : heap.block block = some bytes) :
    easyQueueClearTurn heap queue = some
      (if queue.userHandler then [(bytes, bytes.length)] else [],
        ⟨Function.update (Function.update heap.node head (some { front with next := none })) p none,
          Function.update heap.block block none⟩,
        { queue with queueTail := some head, size := queue.size - 1 }) := by
  cases handled : queue.userHandler <;>
  simp [easyQueueClearTurn, NodeHeap.load, NodeHeap.modify, NodeHeap.read, NodeHeap.freeBlock, NodeHeap.freeNode,
    atTail, atNode, before, atFront, filled, counted, atBlock, handled, Function.update_of_ne other]

end Equations

end GqueueNodes
end SvrNet

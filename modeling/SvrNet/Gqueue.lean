import Mathlib.Data.List.Basic

namespace SvrNet

/-- What a node of the queue holds, with the length under which it was pushed. -/
structure QueueNode (α : Type) where
  data : α
  datalen : Nat
  deriving DecidableEq

/-- `easy_queue_t`, as the nodes behind its head, with its own count of them. -/
structure EasyQueue (α : Type) where
  nodes : List (QueueNode α)
  size : Int
  counted : size = nodes.length

variable {α : Type}

def easyQueueInit : EasyQueue α := ⟨[], 0, rfl⟩

def easyQueuePush (queue : EasyQueue α) (data : α) (datalen : Nat) : EasyQueue α :=
  ⟨queue.nodes ++ [⟨data, datalen⟩], queue.size + 1, by simp [queue.counted]⟩

/-- `easy_queue_pop` for a buffer of `buflen` bytes. Both failures return -1; they differ in what is
left in `*buflen`. -/
def easyQueuePop (queue : EasyQueue α) (buflen : Nat) : Except Nat (α × Nat × EasyQueue α) :=
  match queue with
  | ⟨[], _, _⟩ => .error 0
  | ⟨node :: nodes, size, counted⟩ =>
    if buflen < node.datalen then .error node.datalen
    else .ok (node.data, node.datalen, ⟨nodes, size - 1, by simp [counted]⟩)

/-- One turn of the loop of `easy_queue_clear`: the node at the tail, and the queue without it. -/
def easyQueueClearNext (queue : EasyQueue α) : Option (QueueNode α × EasyQueue α) :=
  if empty : queue.nodes = [] then none
  else some (queue.nodes.getLast empty, ⟨queue.nodes.dropLast, queue.size - 1, by
    have some := List.length_pos_of_ne_nil empty
    have counted := queue.counted
    rw [List.length_dropLast]
    omega⟩)

def easyQueueSize (queue : EasyQueue α) : Int := queue.size

variable {queue queue' : EasyQueue α} {data : α} {buflen datalen : Nat} {node : QueueNode α}

@[simp] theorem nodes_init : (easyQueueInit : EasyQueue α).nodes = [] := rfl

@[simp] theorem nodes_push : (easyQueuePush queue data datalen).nodes = queue.nodes ++ [⟨data, datalen⟩] := rfl

@[simp] theorem easyQueueSize_eq : easyQueueSize queue = queue.nodes.length := queue.counted

/-- What is popped is the oldest node, and it fits. -/
theorem nodes_of_pop (popped : easyQueuePop queue buflen = .ok (data, datalen, queue')) :
    queue.nodes = ⟨data, datalen⟩ :: queue'.nodes := by
  obtain ⟨_ | ⟨node, nodes⟩, size, counted⟩ := queue
  · simp [easyQueuePop] at popped
  · simp only [easyQueuePop] at popped
    split at popped
    · simp at popped
    · cases popped
      rfl

/-- The turn of `easy_queue_clear` takes the youngest node. -/
theorem nodes_of_clearNext (next : easyQueueClearNext queue = some (node, queue')) :
    queue.nodes = queue'.nodes ++ [node] := by
  unfold easyQueueClearNext at next
  split at next
  · simp at next
  · cases next
    exact (List.dropLast_append_getLast _).symm

theorem clearNext_eq_none : easyQueueClearNext queue = none ↔ queue.nodes = [] := by
  unfold easyQueueClearNext
  split <;> simp_all

end SvrNet

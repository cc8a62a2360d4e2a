import Mathlib.Data.List.Induction
import SvrNet.GqueueNodes
import SvrNet.Linked

namespace SvrNet
namespace GqueueNodes
open Linked

section Columns

variable {β : Type} {field : Node → β} {nodes : Addr → Option Node} {a c : Addr} {node node' : Node}
  {value : β}

/-- A member of the nodes that are allocated. -/
def column (field : Node → β) (nodes : Addr → Option Node) (a : Addr) : Option β := (nodes a).map field

theorem node_of_column (here : column field nodes a = some value) : ∃ node, nodes a = some node ∧ field node = value :=
  Option.map_eq_some_iff.mp here

theorem column_of_node (here : nodes a = some node) : column field nodes a = some (field node) := by
  rw [column, here, Option.map_some]

theorem column_here : column field (Function.update nodes a (some node)) a = some (field node) := by
  rw [column, Function.update_self, Option.map_some]

theorem column_elsewhere (other : c ≠ a) : column field (Function.update nodes a (some node)) c = column field nodes c := by
  rw [column, Function.update_of_ne other, column]

/-- A node is given back. -/
theorem column_freed (other : c ≠ a) : column field (Function.update nodes a none) c = column field nodes c := by
  rw [column, Function.update_of_ne other, column]

/-- An assignment to another member. -/
theorem column_keep (here : nodes a = some node) (same : field node' = field node) :
    column field (Function.update nodes a (some node')) c = column field nodes c := by
  by_cases at_ : c = a
  · rw [at_, column_here, column_of_node here, same]
  · rw [column_elsewhere at_]

/-- The data of a node and its length. -/
def Node.content (node : Node) : Ptr × Nat := (node.data, node.datalen)

end Columns

/-- A data node: where it is, where its copy of the data is, and the data. -/
structure QueueCell (α : Type) where
  addr : Addr
  block : Addr
  bytes : List α

variable {α : Type}

/-- The node of the cell and its copy of the data are in memory. -/
def QueueCell.Stored (cell : QueueCell α) (heap : NodeHeap α) : Prop :=
  column Node.content heap.node cell.addr = some (some cell.block, cell.bytes.length) ∧
    heap.block cell.block = some cell.bytes

/-- The nodes of the queue are chained behind its head and hold these cells, each with a copy of its own. -/
structure Holds (heap : NodeHeap α) (queue : LinkedQueue) (head : Addr) (cells : List (QueueCell α)) : Prop where
  atHead : queue.queueHead = some head
  chained : ∃ tail, queue.queueTail = some tail ∧
    Chain (column Node.next heap.node) (column Node.prev heap.node) head tail (head :: cells.map QueueCell.addr)
  counted : queue.size = cells.length
  stored : ∀ cell ∈ cells, cell.Stored heap
  apart : (cells.map QueueCell.block).Nodup

section Operations

variable {heap : NodeHeap α} {queue : LinkedQueue} {head : Addr} {cell : QueueCell α} {cells : List (QueueCell α)}

theorem QueueCell.Stored.node (stored : cell.Stored heap) :
    ∃ node, heap.node cell.addr = some node ∧ node.data = some cell.block ∧ node.datalen = cell.bytes.length := by
  obtain ⟨node, here, content⟩ := node_of_column stored.1
  simp only [Node.content, Prod.mk.injEq] at content
  exact ⟨node, here, content.1, content.2⟩

/-- Another cell is given back. -/
theorem QueueCell.Stored.free {nodes : Addr → Option Node} {a b : Addr} (stored : cell.Stored heap)
    (content : column Node.content nodes cell.addr = column Node.content heap.node cell.addr)
    (other : cell.addr ≠ a) (apart : cell.block ≠ b) :
    cell.Stored ⟨Function.update nodes a none, Function.update heap.block b none⟩ := by
  obtain ⟨here, bytes⟩ := stored
  constructor
  · rw [column_freed other, content, here]
  · exact (Function.update_of_ne apart _ _).trans bytes

/-- What is in memory is not where `malloc` can put something new. -/
theorem QueueCell.Stored.ne_fresh {p block : Addr} (stored : cell.Stored heap) (freshNode : heap.node p = none)
    (freshBlock : heap.block block = none) : cell.addr ≠ p ∧ cell.block ≠ block := by
  obtain ⟨here, bytes⟩ := stored
  constructor
  · rintro rfl
    simp [column, freshNode] at here
  · rintro rfl
    simp [freshBlock] at bytes

theorem Holds.init {p : Addr} (freeCb : Bool) (fresh : heap.node p = none) :
    ∃ heap' queue', easyQueueInit heap p freeCb = some (heap', queue') ∧ Holds heap' queue' p [] ∧
      queue'.userHandler = freeCb := by
  refine ⟨⟨Function.update heap.node p (some ⟨none, 0, none, none⟩), heap.block⟩, ⟨0, some p, some p, freeCb⟩, ?_, ?_, rfl⟩
  · simp [easyQueueInit, NodeHeap.mallocNode, fresh]
  · exact ⟨rfl, ⟨p, rfl, .single column_here column_here⟩, rfl, by simp, List.nodup_nil⟩

/-- A pushed byte string is held behind the others. -/
theorem Holds.push (holds : Holds heap queue head cells) {data : List α} {datalen : Nat} {p block : Addr}
    (freshNode : heap.node p = none) (freshBlock : heap.block block = none) (inside : datalen ≤ data.length) :
    ∃ heap' queue', easyQueuePush heap queue data datalen p block = some (heap', queue') ∧
      Holds heap' queue' head (cells ++ [⟨p, block, data.take datalen⟩]) ∧
      queue'.userHandler = queue.userHandler := by
  obtain ⟨atHead, ⟨tail, atTail, chain⟩, counted, stored, apart⟩ := holds
  obtain ⟨ahead, split⟩ := chain.split_tail
  rw [split] at chain
  have unused : p ∉ ahead ++ [tail] := by
    intro member
    obtain ⟨_, here⟩ := chain.forward.allocated member
    simp [column, freshNode] at here
  obtain ⟨notAhead, notTail⟩ : p ∉ ahead ∧ p ≠ tail := by simpa using unused
  obtain ⟨_, distinct⟩ : ahead.Nodup ∧ tail ∉ ahead := by simpa [List.nodup_append'] using chain.nodup
  obtain ⟨last, atLast, _⟩ := node_of_column chain.next_link
  refine ⟨_, _, push_eq freshNode freshBlock inside atTail atLast, ⟨atHead, ⟨p, rfl, ?_⟩, ?_, ?_, ?_⟩, rfl⟩
  · rw [List.map_append, ← List.cons_append, split]
    refine chain.push_back ?_ column_here (fun c member => ?_) column_here (fun c member => ?_)
    · rw [column_elsewhere notTail.symm, column_here]
    · rw [column_elsewhere (ne_of_mem_of_not_mem member notAhead),
        column_elsewhere (ne_of_mem_of_not_mem member distinct)]
    · rw [column_elsewhere (ne_of_mem_of_not_mem member unused), column_keep atLast (by rfl)]
  · simp [counted]
  · intro cell member
    rcases List.mem_append.mp member with old | new
    · obtain ⟨elsewhere, otherBlock⟩ := (stored cell old).ne_fresh freshNode freshBlock
      obtain ⟨content, bytes⟩ := stored cell old
      constructor
      · rw [column_elsewhere elsewhere, column_keep atLast (by rfl), content]
      · exact (Function.update_of_ne otherBlock _ _).trans bytes
    · cases List.mem_singleton.mp new
      constructor
      · rw [column_here, List.length_take_of_le inside, Node.content]
      · exact Function.update_self ..
  · rw [List.map_append, List.map_singleton, List.nodup_append']
    refine ⟨apart, List.nodup_singleton _, List.disjoint_singleton.mpr fun member => ?_⟩
    obtain ⟨cell, old, same⟩ := List.mem_map.mp member
    exact ((stored cell old).ne_fresh freshNode freshBlock).2 same

section Pop

variable {buf : Option (List α)} {memory : List α} {buflen : Nat}

/-- The node at the head leads to the first cell. -/
theorem Holds.front (holds : Holds heap queue head cells) :
    ∃ front, heap.node head = some front ∧ front.next = (cells.map QueueCell.addr).head? := by
  obtain ⟨tail, _, chain⟩ := holds.chained
  have shape : Chain (column Node.next heap.node) _ head tail ([] ++ head :: cells.map QueueCell.addr) := chain
  exact node_of_column shape.next_link

/-- The node of the first cell leads to the second one. -/
theorem Holds.first_node (holds : Holds heap queue head (cell :: cells)) :
    ∃ node, heap.node cell.addr = some node ∧ node.data = some cell.block ∧
      node.datalen = cell.bytes.length ∧ node.next = (cells.map QueueCell.addr).head? := by
  obtain ⟨tail, _, chain⟩ := holds.chained
  have shape : Chain (column Node.next heap.node) _ head tail ([head] ++ cell.addr :: cells.map QueueCell.addr) := chain
  obtain ⟨node, here, next⟩ := node_of_column shape.next_link
  obtain ⟨_, same, data, length⟩ := (holds.stored cell List.mem_cons_self).node
  cases here.symm.trans same
  exact ⟨node, here, data, length, next⟩

theorem Holds.first_apart (holds : Holds heap queue head (cell :: cells)) :
    cell.addr ≠ head ∧ (cells.map QueueCell.addr).Nodup ∧ (cells.map QueueCell.block).Nodup ∧
      ∀ later ∈ cells, later.addr ≠ head ∧ later.addr ≠ cell.addr ∧ later.block ≠ cell.block := by
  obtain ⟨tail, _, chain⟩ := holds.chained
  obtain ⟨notHead, distinct⟩ := List.nodup_cons.mp chain.nodup
  rw [List.map_cons] at notHead distinct
  obtain ⟨notFirst, laterNodup⟩ := List.nodup_cons.mp distinct
  obtain ⟨otherBlock, laterApart⟩ := List.nodup_cons.mp holds.apart
  refine ⟨fun same => notHead (same ▸ List.mem_cons_self), laterNodup, laterApart, fun later member => ⟨?_, ?_, ?_⟩⟩
  · exact fun same => notHead (same ▸ List.mem_cons_of_mem _ (List.mem_map_of_mem member))
  · exact fun same => notFirst (same ▸ List.mem_map_of_mem member)
  · exact fun same => otherBlock (same ▸ List.mem_map_of_mem member)

theorem Holds.pop_nil (holds : Holds heap queue head []) :
    easyQueuePop heap queue buf buflen = some (⟨-1, buf, 0⟩, heap, queue) := by
  obtain ⟨front, atFront, first⟩ := holds.front
  exact pop_of_empty holds.atHead atFront first

theorem Holds.pop_short (holds : Holds heap queue head (cell :: cells))
    (short : buf = none ∨ buflen < cell.bytes.length) :
    easyQueuePop heap queue buf buflen = some (⟨-1, buf, cell.bytes.length⟩, heap, queue) := by
  obtain ⟨front, atFront, first⟩ := holds.front
  obtain ⟨node, atNode, _, counted, _⟩ := holds.first_node
  rw [← counted] at short ⊢
  exact pop_of_short holds.atHead atFront first atNode short

/-- The bytes that are popped are those of the first cell. -/
theorem Holds.pop_first (holds : Holds heap queue head (cell :: cells)) (fits : cell.bytes.length ≤ buflen)
    (room : buflen ≤ memory.length) :
    ∃ heap' queue', easyQueuePop heap queue (some memory) buflen = some
        (⟨0, some (cell.bytes ++ memory.drop cell.bytes.length), cell.bytes.length⟩, heap', queue') ∧
      Holds heap' queue' head cells ∧ queue'.userHandler = queue.userHandler := by
  obtain ⟨front, atFront, first⟩ := holds.front
  obtain ⟨node, atNode, filled, length, next⟩ := holds.first_node
  obtain ⟨other, laterNodup, laterApart, rest⟩ := holds.first_apart
  obtain ⟨atHead, ⟨tail, atTail, chain⟩, counted, stored, _⟩ := holds
  have atBlock := (stored cell List.mem_cons_self).2
  cases cells with
  | nil =>
    refine ⟨_, _, pop_of_last atHead atFront first atNode other filled length atBlock fits room next,
      ⟨atHead, ⟨head, rfl, chain.pop_only ?_ ?_⟩, ?_, by simp, List.nodup_nil⟩, rfl⟩
    · rw [column_freed other.symm, column_here, column_of_node atNode, next]
      rfl
    · rw [column_freed other.symm, column_keep atFront (by rfl)]
    · simp [counted]
  | cons second cells =>
    obtain ⟨notHead, notFirst, _⟩ := rest second List.mem_cons_self
    obtain ⟨behind, atSecond, _⟩ := (stored second (by simp)).node
    have atSecond' : ∀ front' : Node, Function.update heap.node head (some front') second.addr = some behind :=
      fun front' => (Function.update_of_ne notHead _ _).trans atSecond
    have later : ∀ c ∈ (second :: cells).map QueueCell.addr, c ≠ head ∧ c ≠ cell.addr := by
      intro c member
      obtain ⟨one, inside, rfl⟩ := List.mem_map.mp member
      exact ⟨(rest one inside).1, (rest one inside).2.1⟩
    have notSecond := (List.nodup_cons.mp laterNodup).1
    refine ⟨_, _, pop_of_more atHead atFront first atNode other filled length atBlock fits room next atSecond
      notHead notFirst, ⟨atHead, ⟨tail, atTail, ?_⟩, ?_, ?_, laterApart⟩, rfl⟩
    · refine chain.pop_front ?_ (fun c member => ?_) ?_ (fun c member => ?_)
      · rw [column_freed other.symm, column_keep (atSecond' _) (by rfl), column_here, column_of_node atNode, next]
        rfl
      · rw [column_freed (later c member).2, column_keep (atSecond' _) (by rfl), column_elsewhere (later c member).1]
      · rw [column_freed notFirst, column_here]
      · have elsewhere : c ≠ cell.addr ∧ c ≠ second.addr := by
          rcases List.mem_cons.mp member with rfl | inside
          · exact ⟨other.symm, notHead.symm⟩
          · exact ⟨(later c (List.mem_cons_of_mem _ inside)).2, fun same => notSecond (same ▸ inside)⟩
        rw [column_freed elsewhere.1, column_elsewhere elsewhere.2, column_keep atFront (by rfl)]
    · simp [counted]
    · intro one member
      obtain ⟨_, elsewhere, otherBlock⟩ := rest one member
      refine (stored one (List.mem_cons_of_mem _ member)).free ?_ elsewhere otherBlock
      rw [column_keep (atSecond' _) (by rfl), column_keep atFront (by rfl)]

end Pop

section Clear

theorem Holds.tail_of_nil (holds : Holds heap queue head []) : queue.queueTail = queue.queueHead := by
  obtain ⟨tail, atTail, chain⟩ := holds.chained
  have alone : Chain _ _ head tail ([] ++ [head]) := chain
  rw [atTail, holds.atHead, alone.last_cell]

/-- The last cell is at the tail, behind another node. -/
theorem Holds.last_node (holds : Holds heap queue head (cells ++ [cell])) :
    queue.queueTail = some cell.addr ∧ ∃ ahead before, head :: cells.map QueueCell.addr = ahead ++ [before] ∧
      Chain (column Node.next heap.node) (column Node.prev heap.node) head cell.addr (ahead ++ [before, cell.addr]) := by
  obtain ⟨tail, atTail, chain⟩ := holds.chained
  rw [List.map_append, List.map_singleton, ← List.cons_append] at chain
  obtain rfl := chain.last_cell
  refine ⟨atTail, ?_⟩
  rcases List.eq_nil_or_concat (head :: cells.map QueueCell.addr) with empty | ⟨ahead, before, split⟩
  · simp at empty
  · rw [List.concat_eq_append] at split
    rw [split, List.append_assoc] at chain
    exact ⟨ahead, before, split, chain⟩

/-- A turn of the loop takes the last cell. -/
theorem Holds.clearTurn (holds : Holds heap queue head (cells ++ [cell])) :
    queue.queueTail ≠ queue.queueHead ∧ ∃ heap' queue', easyQueueClearTurn heap queue = some
        (if queue.userHandler then [(cell.bytes, cell.bytes.length)] else [], heap', queue') ∧
      Holds heap' queue' head cells ∧ queue'.userHandler = queue.userHandler := by
  obtain ⟨atTail, ahead, before, split, chain⟩ := holds.last_node
  obtain ⟨atHead, _, counted, stored, apart⟩ := holds
  have last := List.mem_append_right cells (List.mem_singleton_self cell)
  have atBlock := (stored cell last).2
  obtain ⟨node, atNode, filled, length⟩ := (stored cell last).node
  obtain ⟨front, atFront, _⟩ := node_of_column chain.next_link
  have back : node.prev = some before :=
    Option.some.inj ((column_of_node atNode).symm.trans chain.back_link)
  obtain ⟨distinct, notAhead, other⟩ : before ∉ ahead ∧ cell.addr ∉ ahead ∧ before ≠ cell.addr := by
    have nodup := chain.nodup
    simp only [List.nodup_append', List.nodup_cons, List.mem_singleton, List.disjoint_cons_right] at nodup
    tauto
  have unused : cell.addr ∉ ahead ++ [before] := by
    simp [notAhead, Ne.symm other]
  rw [List.map_append, List.map_singleton] at apart
  obtain ⟨shortApart, _, freshBlock⟩ := List.nodup_append'.mp apart
  refine ⟨?_, _, _, clearTurn_eq atTail atNode back atFront other.symm filled length atBlock,
    ⟨atHead, ⟨before, rfl, ?_⟩, ?_, fun earlier member => ?_, shortApart⟩, rfl⟩
  · rw [atTail, atHead]
    intro same
    cases same
    exact unused (split ▸ List.mem_cons_self)
  · rw [split]
    refine chain.pop_back ?_ (fun c member => ?_) (fun c member => ?_)
    · rw [column_freed other, column_here]
    · rw [column_freed (ne_of_mem_of_not_mem member notAhead), column_elsewhere (ne_of_mem_of_not_mem member distinct)]
    · rw [column_freed (ne_of_mem_of_not_mem member unused), column_keep atFront (by rfl)]
  · simp [counted]
  · refine (stored earlier (List.mem_append_left _ member)).free (column_keep atFront (by rfl)) ?_ ?_
    · intro same
      refine unused (split ▸ List.mem_cons_of_mem _ ?_)
      exact same ▸ List.mem_map_of_mem member
    · intro same
      refine List.disjoint_singleton.mp freshBlock ?_
      exact same ▸ List.mem_map_of_mem member

/-- The loop ends, whatever number of turns beyond the needed ones it is given. -/
theorem Holds.clearLoop (holds : Holds heap queue head cells) :
    ∃ heap' queue', (∀ fuel, cells.length < fuel → easyQueueClearLoop fuel heap queue = some
        (if queue.userHandler then cells.reverse.map fun cell => (cell.bytes, cell.bytes.length) else [],
          heap', queue')) ∧
      Holds heap' queue' head [] ∧ queue'.userHandler = queue.userHandler := by
  induction cells using List.reverseRecOn generalizing heap queue with
  | nil =>
    refine ⟨heap, queue, fun fuel enough => ?_, holds, rfl⟩
    obtain ⟨fuel, rfl⟩ := Nat.exists_eq_add_of_lt enough
    simp [easyQueueClearLoop, holds.tail_of_nil]
  | append_singleton cells cell ih =>
    obtain ⟨nonempty, heap₁, queue₁, turn, shorter, handler⟩ := holds.clearTurn
    obtain ⟨heap', queue', loop, empty, handler'⟩ := ih shorter
    refine ⟨heap', queue', fun fuel enough => ?_, empty, handler'.trans handler⟩
    obtain ⟨fuel, rfl⟩ : ∃ less, fuel = less + 1 := ⟨fuel - 1, by omega⟩
    have later := loop fuel (by simpa using enough)
    rw [handler] at later
    cases given : queue.userHandler <;>
      simp [easyQueueClearLoop, nonempty, turn, later, given]

/-- `easy_queue_clear` passes on every byte string, the youngest first, and its assertion holds. -/
theorem Holds.clear (holds : Holds heap queue head cells) :
    ∃ heap' queue', (∀ fuel, cells.length < fuel → easyQueueClear fuel heap queue = some
        (if queue.userHandler then cells.reverse.map fun cell => (cell.bytes, cell.bytes.length) else [],
          heap', queue')) ∧
      Holds heap' queue' head [] ∧ queue'.userHandler = queue.userHandler := by
  obtain ⟨heap', queue', loop, empty, handler⟩ := holds.clearLoop
  refine ⟨heap', queue', fun fuel enough => ?_, empty, handler⟩
  simp [easyQueueClear, loop fuel enough, empty.counted]

end Clear

end Operations

end GqueueNodes
end SvrNet

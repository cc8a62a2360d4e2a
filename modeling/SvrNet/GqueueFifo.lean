import SvrNet.Gqueue
import SvrNet.GqueueCells
import SvrNet.Reach

namespace SvrNet
namespace GqueueNodes
open Linked StepSystem

variable {α : Type}

/-- A queue with the memory that it lives in. -/
structure QueueState (α : Type) where
  heap : NodeHeap α
  queue : LinkedQueue

/-- A call, with what it is given by its caller and by `malloc`. -/
inductive QueueAct (α : Type)
  | push (data : List α) (datalen : Nat) (p block : Addr)
  | pop (buf : Option (List α)) (buflen : Nat)
  | clear (fuel : Nat)

def QueueState.step : QueueAct α → QueueState α → Option (QueueState α)
  | .push data datalen p block, s => do
    let (heap, queue) ← easyQueuePush s.heap s.queue data datalen p block
    return ⟨heap, queue⟩
  | .pop buf buflen, s => do
    let (_, heap, queue) ← easyQueuePop s.heap s.queue buf buflen
    return ⟨heap, queue⟩
  | .clear fuel, s => do
    let (_, heap, queue) ← easyQueueClear fuel s.heap s.queue
    return ⟨heap, queue⟩

/-- `malloc` returns memory that is not in use, the data and the buffers have the length that is given for
them, and the loop is followed far enough. -/
def admissible : QueueAct α → QueueState α → Prop
  | .push data datalen p block, s => s.heap.node p = none ∧ s.heap.block block = none ∧ datalen ≤ data.length
  | .pop (some buf) buflen, _ => buflen ≤ buf.length
  | .pop none _, _ => True
  | .clear fuel, s => s.queue.size < fuel

instance : ∀ (act : QueueAct α) (s : QueueState α), Decidable (admissible act s)
  | .push data datalen p block, s =>
    inferInstanceAs (Decidable (s.heap.node p = none ∧ s.heap.block block = none ∧ datalen ≤ data.length))
  | .pop (some buf) buflen, _ => inferInstanceAs (Decidable (buflen ≤ buf.length))
  | .pop none _, _ => inferInstanceAs (Decidable True)
  | .clear fuel, s => inferInstanceAs (Decidable (s.queue.size < fuel))

/-- What a call does to a first-in-first-out list of byte strings. -/
def fifoNext : QueueAct α → List (List α) → List (List α)
  | .push data datalen _ _, fifo => fifo ++ [data.take datalen]
  | .pop (some _) buflen, first :: later => if first.length ≤ buflen then later else first :: later
  | .pop _ _, fifo => fifo
  | .clear _, _ => []

/-- The byte strings that were pushed and not popped or cleared yet, in the order of the pushes. -/
def fifoOf (acts : List (QueueAct α)) : List (List α) := acts.foldl (fun fifo act => fifoNext act fifo) []

/-- The bytes that a node has a copy of. -/
def NodeHeap.payload (heap : NodeHeap α) (a : Addr) : Option (List α) :=
  match heap.node a with
  | none => none
  | some node =>
    match node.data.bind heap.block with
    | none => none
    | some bytes => if node.datalen = bytes.length then some bytes else none

/-- The queue in memory is a chain without repetitions behind its head, followed by `next` from the head and
by `prev` from the tail, and its nodes carry these byte strings. -/
def Represents (s : QueueState α) (fifo : List (List α)) : Prop :=
  ∃ head tail nodes, s.queue.queueHead = some head ∧ s.queue.queueTail = some tail ∧
    Segment (column Node.next s.heap.node) (some head) (head :: nodes) none ∧
    Segment (column Node.prev s.heap.node) (some tail) (head :: nodes).reverse none ∧
    (head :: nodes).Nodup ∧ (head :: nodes).getLast? = some tail ∧ s.queue.size = nodes.length ∧
    nodes.map s.heap.payload = fifo.map some

/-- What `easy_queue_pop` returns and leaves behind when the queue holds these byte strings. -/
def PopAnswers (s : QueueState α) : List (List α) → Prop
  | [] => ∀ buf buflen, easyQueuePop s.heap s.queue buf buflen = some (⟨-1, buf, 0⟩, s.heap, s.queue)
  | first :: later =>
    (∀ buf buflen, buf = none ∨ buflen < first.length →
      easyQueuePop s.heap s.queue buf buflen = some (⟨-1, buf, first.length⟩, s.heap, s.queue)) ∧
    ∀ memory buflen, first.length ≤ buflen → buflen ≤ memory.length → ∃ heap queue,
      easyQueuePop s.heap s.queue (some memory) buflen =
        some (⟨0, some (first ++ memory.drop first.length), first.length⟩, heap, queue) ∧
      Represents ⟨heap, queue⟩ later

/-- What `easy_queue_clear` passes to the callback and leaves behind; its loop ends. -/
def ClearPasses (s : QueueState α) (fifo : List (List α)) (freeCb : Bool) : Prop :=
  ∃ heap queue, (∀ fuel, fifo.length < fuel → easyQueueClear fuel s.heap s.queue =
      some (if freeCb then fifo.reverse.map fun bytes => (bytes, bytes.length) else [], heap, queue)) ∧
    queue.size = 0 ∧ Represents ⟨heap, queue⟩ []

section Runs

variable {s s' : QueueState α} {head : Addr} {cells : List (QueueCell α)} {act : QueueAct α}

theorem payload_of_stored {heap : NodeHeap α} {cell : QueueCell α} (stored : cell.Stored heap) :
    heap.payload cell.addr = some cell.bytes := by
  obtain ⟨node, here, data, length⟩ := stored.node
  simp [NodeHeap.payload, here, data, length, stored.2]

theorem Holds.represents (holds : Holds s.heap s.queue head cells) :
    Represents s (cells.map QueueCell.bytes) := by
  obtain ⟨atHead, ⟨tail, atTail, chain⟩, counted, stored, _⟩ := holds
  obtain ⟨before, split⟩ := chain.split_tail
  refine ⟨head, tail, cells.map QueueCell.addr, atHead, atTail, chain.forward, chain.backward, chain.nodup, ?_, ?_, ?_⟩
  · rw [split, List.getLast?_concat]
  · rw [counted, List.length_map]
  · rw [List.map_map, List.map_map]
    exact List.map_congr_left fun cell member => payload_of_stored (stored cell member)

theorem Holds.popAnswers (holds : Holds s.heap s.queue head cells) :
    PopAnswers s (cells.map QueueCell.bytes) := by
  cases cells with
  | nil => exact fun buf buflen => holds.pop_nil
  | cons cell cells =>
    refine ⟨fun buf buflen short => holds.pop_short short, fun memory buflen fits room => ?_⟩
    obtain ⟨heap, queue, popped, left, _⟩ := holds.pop_first fits room
    exact ⟨heap, queue, popped, Holds.represents (s := ⟨heap, queue⟩) left⟩

theorem Holds.clearPasses (holds : Holds s.heap s.queue head cells) :
    ClearPasses s (cells.map QueueCell.bytes) s.queue.userHandler := by
  obtain ⟨heap, queue, cleared, empty, _⟩ := holds.clear
  refine ⟨heap, queue, fun fuel enough => ?_, empty.counted, Holds.represents (s := ⟨heap, queue⟩) empty⟩
  rw [List.length_map] at enough
  rw [cleared fuel enough, ← List.map_reverse, List.map_map]
  rfl

/-- Every call that is admissible returns, and does to the cells what it does to the list. -/
theorem Holds.step (holds : Holds s.heap s.queue head cells) (allowed : admissible act s) :
    ∃ s' cells', s.step act = some s' ∧ Holds s'.heap s'.queue head cells' ∧
      cells'.map QueueCell.bytes = fifoNext act (cells.map QueueCell.bytes) ∧
      s'.queue.userHandler = s.queue.userHandler := by
  cases act with
  | push data datalen p block =>
    obtain ⟨freshNode, freshBlock, inside⟩ := allowed
    obtain ⟨heap, queue, pushed, more, handler⟩ := holds.push freshNode freshBlock inside
    exact ⟨⟨heap, queue⟩, _, by simp [QueueState.step, pushed], more, by simp [fifoNext], handler⟩
  | pop buf buflen =>
    cases cells with
    | nil =>
      refine ⟨s, [], by simp [QueueState.step, holds.pop_nil], holds, ?_, rfl⟩
      cases buf <;> rfl
    | cons cell cells =>
      by_cases short : buf = none ∨ buflen < cell.bytes.length
      · refine ⟨s, _, by simp [QueueState.step, holds.pop_short short], holds, ?_, rfl⟩
        cases buf with
        | none => rfl
        | some memory => simp [fifoNext, short.resolve_left (by simp)]
      · obtain ⟨given, fits⟩ := not_or.mp short
        obtain ⟨memory, rfl⟩ := Option.ne_none_iff_exists'.mp given
        have fits := Nat.not_lt.mp fits
        obtain ⟨heap, queue, popped, left, handler⟩ := holds.pop_first fits allowed
        exact ⟨⟨heap, queue⟩, cells, by simp [QueueState.step, popped], left, by simp [fifoNext, fits], handler⟩
  | clear fuel =>
    obtain ⟨heap, queue, cleared, empty, handler⟩ := holds.clear
    have enough : cells.length < fuel := by
      have bound : s.queue.size < fuel := allowed
      rw [holds.counted] at bound
      exact_mod_cast bound
    exact ⟨⟨heap, queue⟩, [], by simp [QueueState.step, cleared fuel enough], empty, rfl, handler⟩

/-- After any calls the memory holds the list that they make. -/
theorem holds_of_run {s₀ : QueueState α} {acts : List (QueueAct α)} (first : Holds s₀.heap s₀.queue head [])
    (run : exec (guarded QueueState.step admissible) acts s₀ = some s) :
    ∃ cells, Holds s.heap s.queue head cells ∧ cells.map QueueCell.bytes = fifoOf acts ∧
      s.queue.userHandler = s₀.queue.userHandler := by
  induction acts using List.reverseRecOn generalizing s with
  | nil =>
    cases run
    exact ⟨[], first, rfl, rfl⟩
  | append_singleton acts act ih =>
    rw [exec_concat] at run
    obtain ⟨before, earlier, one⟩ := Option.bind_eq_some_iff.mp run
    obtain ⟨cells, holds, same, handler⟩ := ih earlier
    unfold guarded at one
    split at one
    · rename_i allowed
      obtain ⟨after, cells', stepped, holds', next, handler'⟩ := holds.step allowed
      cases stepped.symm.trans one
      refine ⟨cells', holds', ?_, handler'.trans handler⟩
      rw [next, same, fifoOf, fifoOf, List.foldl_append, List.foldl_cons, List.foldl_nil]
    · simp at one

theorem holds_of_init {heap : NodeHeap α} {p : Addr} {freeCb : Bool}
    (start : easyQueueInit heap p freeCb = some (s.heap, s.queue)) :
    Holds s.heap s.queue p [] ∧ s.queue.userHandler = freeCb := by
  have fresh : heap.node p = none := by
    by_contra taken
    simp [easyQueueInit, NodeHeap.mallocNode, taken] at start
  obtain ⟨heap', queue', started, holds, handler⟩ := Holds.init freeCb fresh
  cases started.symm.trans start
  exact ⟨holds, handler⟩

/-- The linked queue is a first-in-first-out queue of byte strings, whatever was called on it before. -/
theorem linked_queue_fifo {heap : NodeHeap α} {p : Addr} {freeCb : Bool} {s₀ : QueueState α}
    {acts : List (QueueAct α)} (start : easyQueueInit heap p freeCb = some (s₀.heap, s₀.queue))
    (run : exec (guarded QueueState.step admissible) acts s₀ = some s) :
    Represents s (fifoOf acts) ∧ (∀ act, admissible act s → ∃ s', s.step act = some s') ∧
      PopAnswers s (fifoOf acts) ∧ ClearPasses s (fifoOf acts) freeCb := by
  have first := holds_of_init start
  obtain ⟨cells, holds, same, handler⟩ := holds_of_run first.1 run
  rw [← same, ← first.2, ← handler]
  refine ⟨holds.represents, fun act allowed => ?_, holds.popAnswers, holds.clearPasses⟩
  obtain ⟨s', _, stepped, _⟩ := holds.step allowed
  exact ⟨s', stepped⟩

end Runs

/-- Two byte strings pushed, the first one popped into a buffer of four bytes, the queue cleared, and a
third one pushed where the first one was. -/
def reusedQueue : List (QueueAct UInt8) :=
  [.push [1, 2] 2 10 20, .push [3] 1 11 21, .pop (some [0, 0, 0, 0]) 4, .clear 3, .push [4, 5, 6] 3 10 20]

theorem linked_queue_fifo_reused : ∃ s₀ s : QueueState UInt8,
    easyQueueInit ⟨fun _ => none, fun _ => none⟩ 1 true = some (s₀.heap, s₀.queue) ∧
      exec (guarded QueueState.step admissible) reusedQueue s₀ = some s ∧ Represents s [[4, 5, 6]] := by
  have ends : ∃ s₀ : QueueState UInt8,
      easyQueueInit ⟨fun _ => none, fun _ => none⟩ 1 true = some (s₀.heap, s₀.queue) ∧
        ∃ s, exec (guarded QueueState.step admissible) reusedQueue s₀ = some s ∧ s.queue.size = 1 :=
    ⟨⟨_, _⟩, rfl, exec_ends (by decide +kernel)⟩
  obtain ⟨s₀, start, s, run, _⟩ := ends
  exact ⟨s₀, s, start, run, (linked_queue_fifo start run).1⟩

section Listed

/-- The queue in memory holds what the queue given as a list of nodes does. -/
def Refines (freeCb : Bool) (s : QueueState α) (listed : EasyQueue (List α)) : Prop :=
  s.queue.userHandler = freeCb ∧ ∃ head cells, Holds s.heap s.queue head cells ∧
    listed.nodes = cells.map fun cell => ⟨cell.bytes, cell.bytes.length⟩

variable {freeCb : Bool} {s : QueueState α} {listed : EasyQueue (List α)}

theorem Refines.push (refines : Refines freeCb s listed) {data : List α} {datalen : Nat} {p block : Addr}
    (allowed : admissible (.push data datalen p block) s) :
    ∃ heap queue, easyQueuePush s.heap s.queue data datalen p block = some (heap, queue) ∧
      Refines freeCb ⟨heap, queue⟩ (SvrNet.easyQueuePush listed (data.take datalen) datalen) := by
  obtain ⟨callback, head, cells, holds, nodes⟩ := refines
  obtain ⟨freshNode, freshBlock, inside⟩ := allowed
  obtain ⟨heap, queue, pushed, more, same⟩ := holds.push freshNode freshBlock inside
  refine ⟨heap, queue, pushed, same.trans callback, head, _, more, ?_⟩
  simp [nodes, inside]

theorem Refines.pop (refines : Refines freeCb s listed) {memory : List α} {buflen : Nat}
    (room : buflen ≤ memory.length) :
    match SvrNet.easyQueuePop listed buflen with
    | .ok (bytes, datalen, later) => ∃ heap queue, easyQueuePop s.heap s.queue (some memory) buflen =
          some (⟨0, some (bytes ++ memory.drop datalen), datalen⟩, heap, queue) ∧ Refines freeCb ⟨heap, queue⟩ later
    | .error needed => easyQueuePop s.heap s.queue (some memory) buflen =
          some (⟨-1, some memory, needed⟩, s.heap, s.queue) := by
  obtain ⟨callback, head, cells, holds, nodes⟩ := refines
  obtain ⟨listedNodes, size, counted⟩ := listed
  cases nodes
  cases cells with
  | nil => exact holds.pop_nil
  | cons cell cells =>
    by_cases short : buflen < cell.bytes.length
    · simp only [SvrNet.easyQueuePop, List.map_cons, if_pos short]
      exact holds.pop_short (Or.inr short)
    · obtain ⟨heap, queue, popped, left, same⟩ := holds.pop_first (Nat.not_lt.mp short) room
      simp only [SvrNet.easyQueuePop, List.map_cons, if_neg short]
      exact ⟨heap, queue, popped, same.trans callback, head, cells, left, rfl⟩

/-- The loop of `easy_queue_clear` goes through the nodes as the one over the list does. -/
theorem Refines.clearNext (refines : Refines freeCb s listed) :
    match easyQueueClearNext listed with
    | none => s.queue.queueTail = s.queue.queueHead
    | some (node, earlier) => s.queue.queueTail ≠ s.queue.queueHead ∧
        ∃ heap queue, easyQueueClearTurn s.heap s.queue =
          some (if freeCb then [(node.data, node.datalen)] else [], heap, queue) ∧
        Refines freeCb ⟨heap, queue⟩ earlier := by
  obtain ⟨callback, head, cells, holds, nodes⟩ := refines
  cases next : easyQueueClearNext listed with
  | none =>
    obtain rfl := List.map_eq_nil_iff.mp (nodes.symm.trans (clearNext_eq_none.mp next))
    exact holds.tail_of_nil
  | some taken =>
    obtain ⟨node, earlier⟩ := taken
    have split := nodes.symm.trans (nodes_of_clearNext next)
    obtain ⟨before, rest, rfl, shorter, last⟩ := List.map_eq_append_iff.mp split
    obtain ⟨cell, rfl, rfl⟩ := List.map_eq_singleton_iff.mp last
    obtain ⟨nonempty, heap, queue, turn, left, same⟩ := holds.clearTurn
    exact ⟨nonempty, heap, queue, callback ▸ turn, same.trans callback, head, before, left, shorter.symm⟩

/-- The operations that the steps of the thread pool consist of: `easy_queue_clear` takes one of them for each
test of the condition of its loop. -/
inductive QueueTurn (α : Type)
  | push (data : List α) (datalen : Nat) (p block : Addr)
  | pop (memory : List α) (buflen : Nat)
  | clear

/-- What comes back from it. -/
inductive TurnRet (α : Type)
  | pushed
  | popped (result : PopResult α)
  | passed (nodes : List (List α × Nat))
  | cleared

def QueueState.turn : QueueTurn α → QueueState α → Option (TurnRet α × QueueState α)
  | .push data datalen p block, s => do
    let (heap, queue) ← easyQueuePush s.heap s.queue data datalen p block
    return (.pushed, ⟨heap, queue⟩)
  | .pop memory buflen, s => do
    let (result, heap, queue) ← easyQueuePop s.heap s.queue (some memory) buflen
    return (.popped result, ⟨heap, queue⟩)
  | .clear, s =>
    if s.queue.queueTail = s.queue.queueHead then some (.cleared, s)
    else do
      let (nodes, heap, queue) ← easyQueueClearTurn s.heap s.queue
      return (.passed nodes, ⟨heap, queue⟩)

/-- The same on the list of nodes. -/
def listedTurn (freeCb : Bool) : QueueTurn α → EasyQueue (List α) → TurnRet α × EasyQueue (List α)
  | .push data datalen _ _, listed => (.pushed, SvrNet.easyQueuePush listed (data.take datalen) datalen)
  | .pop memory buflen, listed =>
    match SvrNet.easyQueuePop listed buflen with
    | .ok (bytes, datalen, later) => (.popped ⟨0, some (bytes ++ memory.drop datalen), datalen⟩, later)
    | .error needed => (.popped ⟨-1, some memory, needed⟩, listed)
  | .clear, listed =>
    match easyQueueClearNext listed with
    | none => (.cleared, listed)
    | some (node, earlier) => (.passed (if freeCb then [(node.data, node.datalen)] else []), earlier)

def turnAdmissible : QueueTurn α → QueueState α → Prop
  | .push data datalen p block, s => admissible (.push data datalen p block) s
  | .pop memory buflen, _ => buflen ≤ memory.length
  | .clear, _ => True

instance : ∀ (turn : QueueTurn α) (s : QueueState α), Decidable (turnAdmissible turn s)
  | .push data datalen p block, s => inferInstanceAs (Decidable (admissible (.push data datalen p block) s))
  | .pop memory buflen, _ => inferInstanceAs (Decidable (buflen ≤ memory.length))
  | .clear, _ => inferInstanceAs (Decidable True)

theorem Refines.turn (refines : Refines freeCb s listed) {turn : QueueTurn α} (allowed : turnAdmissible turn s) :
    ∃ s', s.turn turn = some ((listedTurn freeCb turn listed).1, s') ∧
      Refines freeCb s' (listedTurn freeCb turn listed).2 := by
  cases turn with
  | push data datalen p block =>
    obtain ⟨heap, queue, pushed, next⟩ := refines.push allowed
    exact ⟨⟨heap, queue⟩, by simp [QueueState.turn, pushed, listedTurn], next⟩
  | pop memory buflen =>
    have popped := refines.pop allowed
    cases result : SvrNet.easyQueuePop listed buflen with
    | error needed =>
      simp only [result] at popped
      exact ⟨s, by simp [QueueState.turn, popped, listedTurn, result], by simpa [listedTurn, result] using refines⟩
    | ok first =>
      simp only [result] at popped
      obtain ⟨heap, queue, popped, next⟩ := popped
      exact ⟨⟨heap, queue⟩, by simp [QueueState.turn, popped, listedTurn, result], by simpa [listedTurn, result] using next⟩
  | clear =>
    have cleared := refines.clearNext
    cases result : easyQueueClearNext listed with
    | none =>
      simp only [result] at cleared
      exact ⟨s, by simp [QueueState.turn, cleared, listedTurn, result], by simpa [listedTurn, result] using refines⟩
    | some taken =>
      simp only [result] at cleared
      obtain ⟨nonempty, heap, queue, cleared, next⟩ := cleared
      exact ⟨⟨heap, queue⟩, by simp [QueueState.turn, nonempty, cleared, listedTurn, result],
        by simpa [listedTurn, result] using next⟩

/-- The list of nodes after these operations. -/
def listedOf (freeCb : Bool) (turns : List (QueueTurn α)) : EasyQueue (List α) :=
  turns.foldl (fun listed turn => (listedTurn freeCb turn listed).2) SvrNet.easyQueueInit

/-- In any run the linked queue cannot be told from the list of nodes: every operation returns, and what
comes back from it is what comes back from the list. -/
theorem linked_queue_refines_listed {heap : NodeHeap α} {p : Addr} {s₀ : QueueState α} {turns : List (QueueTurn α)}
    (start : easyQueueInit heap p freeCb = some (s₀.heap, s₀.queue))
    (run : exec (guarded (fun turn s => (QueueState.turn turn s).map Prod.snd) turnAdmissible) turns s₀ = some s) :
    Refines freeCb s (listedOf freeCb turns) ∧ ∀ turn, turnAdmissible turn s →
      (s.turn turn).map Prod.fst = some (listedTurn freeCb turn (listedOf freeCb turns)).1 := by
  have first : Refines freeCb s₀ SvrNet.easyQueueInit := by
    obtain ⟨holds, callback⟩ := holds_of_init start
    exact ⟨callback, p, [], holds, rfl⟩
  have refines : Refines freeCb s (listedOf freeCb turns) := by
    induction turns using List.reverseRecOn generalizing s with
    | nil =>
      cases run
      exact first
    | append_singleton turns turn ih =>
      rw [exec_concat] at run
      obtain ⟨before, earlier, one⟩ := Option.bind_eq_some_iff.mp run
      unfold guarded at one
      split at one
      · rename_i allowed
        obtain ⟨after, taken, next⟩ := (ih earlier).turn allowed
        simp only [taken, Option.map_some, Option.some.injEq] at one
        subst one
        rw [listedOf, List.foldl_append]
        exact next
      · simp at one
  refine ⟨refines, fun turn allowed => ?_⟩
  obtain ⟨s', taken, _⟩ := refines.turn allowed
  rw [taken, Option.map_some]

end Listed

end GqueueNodes
end SvrNet

import SvrNet.JobBoard
import SvrNet.ThreadPoolSpec

namespace SvrNet
open StepSystem

def ThreadPc.hand : ThreadPc → Hand Packet
  | .unlock element | .proc element => .fresh element.data.packet
  | .afterProc element => .begun element.data.packet
  | _ => .empty

/-- The packet that the loop thread has to push. -/
def PushPc.packet : PushPc → Option Packet
  | .malloc packet => some packet
  | .lock work | .size work | .push work | .unlockFull work | .free work | .crashed work => some work.packet
  | .parse | .broadcast | .unlock => none

def QueuePtr.nodes : QueuePtr → List (QueueNode ThreadParam)
  | .live queue => queue.nodes
  | .freed | .null => []

@[simp] theorem QueuePtr.nodes_live (queue : EasyQueue ThreadParam) : (QueuePtr.live queue).nodes = queue.nodes :=
  rfl

@[simp] theorem QueuePtr.nodes_freed : QueuePtr.freed.nodes = [] := rfl

@[simp] theorem QueuePtr.nodes_null : QueuePtr.null.nodes = [] := rfl

def QueuePtr.packets (pointer : QueuePtr) : List Packet := pointer.nodes.map (·.data.data.packet)

/-- `easy_queue_clear` has begun. -/
def CancelPc.cleared : CancelPc → Bool
  | .post | .lock | .broadcast => false
  | _ => true

namespace ThreadPool

variable {n : Nat} {s s' : ThreadPool n} {guard : PoolAct n → ThreadPool n → Prop}

/-- What the pool is for: the packets are jobs that the loop thread issues, and that the threads of
the pool take and finish. -/
def board (s : ThreadPool n) : JobBoard (Fin n) Packet where
  issued := s.parsed
  offered := s.push.packet
  waiting := s.queue.packets
  hand := ThreadPc.hand ∘ s.thread
  taken := s.dequeued
  begun := s.ran
  finished := s.completed
  withdrawn := s.cancelled

section Items

/-- The item that a thread has popped and is not done with. -/
def element : ThreadPc → Option ThreadParam
  | .unlock element | .proc element | .afterProc element => some element
  | _ => none

/-- What `workpool_push_work` makes of a request: nothing is NULL. -/
def whole (element : ThreadParam) : Prop :=
  element.proc = some .workProc ∧ element.afterProc = some .threadCompleted

/-- The items of the pool all came from `workpool_push_work`. -/
structure ItemInv (s : ThreadPool n) : Prop where
  queued : ∀ node ∈ s.queue.nodes, whole node.data
  held : ∀ i item, element (s.thread i) = some item → whole item

theorem element_broadcast (thread : Fin n → ThreadPc) (i : Fin n) : element (broadcast thread i) = element (thread i) := by
  unfold broadcast
  split
  · simp_all [element]
  · rfl

theorem ItemInv.thread (inv : ItemInv s) {i : Fin n} {pc : ThreadPc}
    (held : ∀ item, element pc = some item → whole item) (queue : s'.queue.nodes ⊆ s.queue.nodes)
    (thread : s'.thread = Function.update s.thread i pc) : ItemInv s' := by
  refine ⟨fun node here => inv.queued node (queue here), fun j item here => ?_⟩
  by_cases same : j = i
  · exact held item (by simpa [thread, same] using here)
  · exact inv.held j item (by simpa [thread, same] using here)

theorem ItemInv.step {act : PoolAct n} (inv : ItemInv s) (step : PoolStep s act s') : ItemInv s' := by
  cases step with
  | @pop i queue item datalen queue' _ pointer popped =>
    have nodes := nodes_of_pop popped
    refine inv.thread (fun item here => ?_) ?_ rfl
    · cases here
      exact inv.queued ⟨item, datalen⟩ (by simp [pointer, nodes])
    · rw [pointer]
      simp [nodes]
  | @unlock i item at_ | @proc i item at_ | @procNull i item at_ =>
    refine inv.thread (fun item here => ?_) (List.Subset.refl _) rfl
    cases here
    exact inv.held i item (by rw [at_]; rfl)
  | tokenMissing | tokenTaken | post | lock | popFail | popGone | condWait | wake | woken | unlockEmpty
  | afterProc | afterProcNull => exact inv.thread (by simp [element]) (List.Subset.refl _) rfl
  | @push work queue _ pointer =>
    refine ⟨fun node here => ?_, inv.held⟩
    rcases List.mem_append.mp here with old | new
    · exact inv.queued node (by rw [pointer]; exact old)
    · rw [List.mem_singleton.mp new]
      exact ⟨rfl, rfl⟩
  | broadcast | cancelBroadcast =>
    exact ⟨inv.queued, fun i item here => inv.held i item (element_broadcast s.thread i ▸ here)⟩
  | @clear queue queue' _ _ pointer next =>
    refine ⟨fun node here => inv.queued node ?_, inv.held⟩
    rw [pointer]
    simp only [QueuePtr.nodes_live, nodes_of_clearNext next]
    exact List.mem_append_left _ here
  | uninit | setNull => exact ⟨fun node here => by simp at here, inv.held⟩
  | _ => exact ⟨inv.queued, inv.held⟩

end Items

section Room

/-- The test of the size is still good when the item is pushed, since the loop thread alone pushes. -/
structure RoomInv (s : ThreadPool n) : Prop where
  atMost : s.queue.nodes.length ≤ 65
  room : ∀ work, s.push = .push work → s.queue.nodes.length ≤ 64

theorem RoomInv.shrink (inv : RoomInv s) (nodes : s'.queue.nodes.length ≤ s.queue.nodes.length)
    (push : s'.push = s.push) : RoomInv s' :=
  ⟨Nat.le_trans nodes inv.atMost, fun work at_ => Nat.le_trans nodes (inv.room work (push ▸ at_))⟩

theorem RoomInv.step {act : PoolAct n} (inv : RoomInv s) (step : PoolStep s act s') : RoomInv s' := by
  cases step with
  | @pop _ queue _ _ queue' _ pointer popped =>
    refine inv.shrink ?_ rfl
    simp [pointer, nodes_of_pop popped]
  | @clear queue queue' _ _ pointer next =>
    refine inv.shrink ?_ rfl
    simp [pointer, nodes_of_clearNext next]
  | uninit | setNull => exact inv.shrink (Nat.zero_le _) rfl
  | size _ pointer some =>
    exact ⟨inv.atMost, fun _ _ => by simpa [pointer] using some⟩
  | @push work queue at_ pointer =>
    have room := inv.room work at_
    rw [pointer] at room
    refine ⟨?_, by simp⟩
    simp only [QueuePtr.nodes_live, nodes_push, List.length_append, List.length_singleton] at room ⊢
    omega
  | parse | malloc | pushLock | sizeFull | pushGone | broadcast | pushUnlock | unlockFull | free =>
    exact ⟨inv.atMost, by simp⟩
  | _ => exact ⟨inv.atMost, inv.room⟩

end Room

section Cancelling

/-- What the shutdown has done by the time it gives up the queue. -/
structure ClearInv (s : ThreadPool n) : Prop where
  emptied : s.cancel = .uninit → s.queue.nodes = []
  shutdown : s.cancelled ≠ [] → s.cancel.cleared = true

theorem ClearInv.step {act : PoolAct n} (inv : ClearInv s) (guards : Guards s.mutex s.inside)
    (step : PoolStep s act s') : ClearInv s' := by
  cases step with
  | @pop _ queue _ _ queue' _ pointer popped =>
    refine ⟨fun at_ => ?_, inv.shutdown⟩
    have empty := inv.emptied at_
    simp [pointer, nodes_of_pop popped] at empty
  | push at_ =>
    refine ⟨fun (clears : s.cancel = .uninit) => ?_, inv.shutdown⟩
    exact (push_cancel_exclusive guards (by rw [at_]; rfl) (by rw [clears]; rfl)).elim
  | clear at_ => exact ⟨fun (ends : s.cancel = .uninit) => by simp [at_] at ends, fun _ => by simp [at_, CancelPc.cleared]⟩
  | clearEnd _ pointer empty => exact ⟨fun _ => by rw [pointer]; exact empty, fun _ => rfl⟩
  | cancelPost at_ | cancelLock at_ =>
    exact ⟨by simp, fun some => by simpa [at_, CancelPc.cleared] using inv.shutdown some⟩
  | cancelBroadcast | clearFail | uninit | setNull | cancelUnlock | join => exact ⟨by simp, fun _ => rfl⟩
  | _ => exact ⟨inv.emptied, inv.shutdown⟩

/-- The number of a parsed packet is its place in the order of parsing. -/
def ParsedInv (s : ThreadPool n) : Prop := ∀ packet ∈ s.parsed, packet.number < s.parsed.length

theorem ParsedInv.step {act : PoolAct n} (inv : ParsedInv s) (step : PoolStep s act s') : ParsedInv s' := by
  cases step with
  | parse =>
    intro packet here
    rcases List.mem_append.mp here with old | new
    · have before := inv packet old
      simp only [List.length_append, List.length_singleton]
      omega
    · simp [List.mem_singleton.mp new]
  | _ => exact inv

end Cancelling

section Refinement

/-- What is known of every reachable state of a pool that began with an empty queue. -/
structure Known (s : ThreadPool n) : Prop where
  guards : Guards s.mutex s.inside
  pointer : QueueInv s
  items : ItemInv s
  room : RoomInv s
  clear : ClearInv s
  numbered : ParsedInv s

theorem known_reach (reach : Reach step guard (init easyQueueInit) s) : Known s := by
  have clear : ClearInv s := reach.invariant_of (fun _ reach => mutex_reach reach) ⟨by simp [init], by simp [init]⟩
    fun _ _ _ guards _ inv _ run => inv.step guards (step_spec run)
  exact {
    guards := mutex_reach reach
    pointer := queueInv_reach reach
    items := reach.invariant ⟨by simp [init], by simp [init, element]⟩
      fun _ _ _ inv _ run => inv.step (step_spec run)
    room := reach.invariant ⟨by simp [init], by simp [init]⟩
      fun _ _ _ inv _ run => inv.step (step_spec run)
    clear := clear
    numbered := reach.invariant (by simp [ParsedInv, init]) fun _ _ _ inv _ run => inv.step (step_spec run) }

/-- While the queue is there to push to, nothing has been cancelled. -/
theorem Known.nothing_cancelled (known : Known s) (locked : s.push.locked = true) {queue : EasyQueue ThreadParam}
    (live : s.queue = .live queue) : s.cancelled = [] := by
  by_contra some
  have cleared := known.clear.shutdown some
  have here := known.pointer.mp ⟨queue, live⟩
  have inside : s.cancel.locked = true := by
    cases at_ : s.cancel <;> simp_all [CancelPc.cleared, CancelPc.queueGone, CancelPc.locked]
  exact push_cancel_exclusive known.guards locked inside

theorem Known.nodes_gone (known : Known s) (gone : s.cancel.queueGone = true) : s.queue.nodes = [] := by
  cases pointer : s.queue with
  | live queue =>
    have here := known.pointer.mp ⟨queue, pointer⟩
    simp [gone] at here
  | freed | null => rfl

theorem hand_update (i : Fin n) (pc : ThreadPc) :
    ThreadPc.hand ∘ Function.update s.thread i pc = Function.update (ThreadPc.hand ∘ s.thread) i pc.hand :=
  Function.comp_update ..

theorem hand_same {i : Fin n} {pc : ThreadPc} (same : pc.hand = (s.thread i).hand) :
    ThreadPc.hand ∘ Function.update s.thread i pc = ThreadPc.hand ∘ s.thread := by
  rw [hand_update, same]
  exact Function.update_eq_self ..

theorem hand_broadcast : ThreadPc.hand ∘ broadcast s.thread = ThreadPc.hand ∘ s.thread := by
  funext i
  simp only [Function.comp_apply, broadcast]
  split
  · simp_all [ThreadPc.hand]
  · rfl

/-- Each step of the pool does nothing to the packets, or one thing that is right. -/
theorem board_step {act : PoolAct n} (known : Known s) (step : PoolStep s act s') :
    s'.board = s.board ∨ JobBoard.Step s.board s'.board := by
  cases step with
  | tokenMissing at_ | tokenTaken at_ | post at_ | lock at_ | popFail at_ | popGone at_ | condWait at_ | wake at_
  | woken at_ | unlockEmpty at_ | unlock at_ =>
    left
    simp only [board]
    rw [hand_same]
    rw [at_]
    rfl
  | @pop i queue item datalen queue' at_ pointer popped =>
    right
    have waiting : s.board.waiting = item.data.packet :: (QueuePtr.live queue').packets := by
      simp [board, pointer, QueuePtr.packets, nodes_of_pop popped]
    have idle : s.board.hand i = .empty := by simp [board, at_, ThreadPc.hand]
    simpa only [board, hand_update, ThreadPc.hand] using JobBoard.Step.take idle waiting
  | @proc i item at_ =>
    right
    have fresh : s.board.hand i = .fresh item.data.packet := by simp [board, at_, ThreadPc.hand]
    simpa only [board, hand_update, ThreadPc.hand] using JobBoard.Step.begin fresh
  | @procNull i item at_ none =>
    have present := (known.items.held i item (by rw [at_]; rfl)).1
    simp [none] at present
  | @afterProc i item at_ =>
    right
    have begun : s.board.hand i = .begun item.data.packet := by simp [board, at_, ThreadPc.hand]
    simpa only [board, hand_update, ThreadPc.hand] using JobBoard.Step.finish begun
  | @afterProcNull i item at_ none =>
    have present := (known.items.held i item (by rw [at_]; rfl)).2
    simp [none] at present
  | @parse connid len at_ =>
    right
    have idle : s.board.offered = none := by simp [board, at_, PushPc.packet]
    have new : (⟨s.parsed.length, connid, len⟩ : Packet) ∉ s.board.issued := fun here =>
      absurd (known.numbered _ here) (Nat.lt_irrefl _)
    exact JobBoard.Step.issue idle new
  | @push work queue at_ pointer =>
    right
    have offered : s.board.offered = some work.packet := by simp [board, at_, PushPc.packet]
    have open_ : s.board.withdrawn = [] := known.nothing_cancelled (by rw [at_]; rfl) pointer
    simpa [board, pointer, QueuePtr.packets, PushPc.packet] using JobBoard.Step.submit offered open_
  | broadcast at_ => left; simp [board, at_, hand_broadcast, PushPc.packet]
  | cancelBroadcast => left; simp only [board, hand_broadcast]
  | malloc at_ | pushLock at_ | sizeFull at_ | size at_ | pushUnlock at_ | unlockFull at_ | free at_ =>
    left
    simp [board, at_, PushPc.packet, WorkT.packet]
  | pushGone at_ => left; rcases at_ with at_ | at_ <;> simp [board, at_, PushPc.packet]
  | @clear queue queue' item _ pointer next =>
    right
    have waiting : s.board.waiting = (QueuePtr.live queue').packets ++ [item.data.packet] := by
      simp [board, pointer, QueuePtr.packets, nodes_of_clearNext next]
    exact JobBoard.Step.withdraw waiting
  | uninit at_ =>
    left
    simp [board, QueuePtr.packets, known.clear.emptied at_]
  | setNull at_ =>
    left
    simp [board, QueuePtr.packets, known.nodes_gone (by rw [at_]; rfl)]
  | cancelPost | cancelLock | clearFail | clearEnd | cancelUnlock | join => exact Or.inl rfl

/-- The pool refines the board: what its packets go through is a run of the board from an empty one. -/
theorem board_run (reach : Reach step guard (init easyQueueInit) s) :
    Relation.ReflTransGen JobBoard.Step (init easyQueueInit : ThreadPool n).board s.board :=
  reach.simulates (fun _ reach => known_reach reach) fun _ _ _ known _ run => board_step known (step_spec run)

theorem board_kept (reach : Reach step guard (init easyQueueInit) s) : s.board.Kept :=
  (JobBoard.kept_of_empty rfl rfl rfl (fun _ => rfl) rfl rfl rfl rfl).run (board_run reach)

end Refinement

section Refusal

/-- The push that the loop thread is in finds the pool full, or is on its way back with -1. -/
def Refused (s : ThreadPool n) : Prop :=
  (∃ work queue, s.push = .size work ∧ s.queue = .live queue ∧ 64 < easyQueueSize queue) ∨
    (∃ work, s.push = .unlockFull work) ∨ ∃ work, s.push = .free work

/-- The pool is the same, with its queue, its threads and what they have done. -/
structure SamePool (s s' : ThreadPool n) : Prop where
  exitSem : s'.exitSem = s.exitSem
  queue : s'.queue = s.queue
  thread : s'.thread = s.thread
  cancel : s'.cancel = s.cancel
  dequeued : s'.dequeued = s.dequeued
  ran : s'.ran = s.ran
  completed : s'.completed = s.completed
  cancelled : s'.cancelled = s.cancelled

theorem refused_step (refused : Refused s) (run : step .push s = some s') :
    SamePool s s' ∧ ∃ packet, s.push.packet = some packet ∧ s'.push.packet = some packet := by
  have full : ∀ work queue, s.push = .size work → s.queue = .live queue → 64 < queue.nodes.length := by
    intro work queue at_ pointer
    rcases refused with ⟨work', queue', _, pointer', full⟩ | ⟨_, other⟩ | ⟨_, other⟩
    · rw [pointer] at pointer'
      cases pointer'
      rw [easyQueueSize_eq] at full
      omega
    · simp [other] at at_
    · simp [other] at at_
  cases step_spec run with
  | @sizeFull work _ at_ => exact ⟨⟨rfl, rfl, rfl, rfl, rfl, rfl, rfl, rfl⟩, work.packet, by rw [at_]; rfl, rfl⟩
  | @unlockFull work at_ => exact ⟨⟨rfl, rfl, rfl, rfl, rfl, rfl, rfl, rfl⟩, work.packet, by rw [at_]; rfl, rfl⟩
  | @free work at_ => exact ⟨⟨rfl, rfl, rfl, rfl, rfl, rfl, rfl, rfl⟩, work.packet, by rw [at_]; rfl, rfl⟩
  | size at_ pointer some =>
    have more := full _ _ at_ pointer
    omega
  | pushGone at_ gone =>
    simp only [Refused, gone, false_and, and_false, exists_false, false_or] at refused
    rcases at_ with at_ | at_ <;> simp [at_] at refused
  | malloc at_ | pushLock at_ | push at_ | broadcast at_ | pushUnlock at_ => simp [Refused, at_] at refused

end Refusal

/-- Every packet is handled once: it is in one place at any time, `work_proc` and `thread_completed`
get it once each, in the order of parsing, and only the shutdown takes it away from `work_proc`. A
push that is refused changes nothing. -/
theorem handled_once (reach : Reach step anyStep (init easyQueueInit) s) :
    s.parsed.Nodup ∧ (∀ packet ∈ s.parsed, ∃! place, s.board.At packet place) ∧ s.queue.packets.Nodup ∧
      (∀ packet, s.ran.count packet ≤ 1) ∧
      (∀ packet, s.board.At packet .finished → s.completed.count packet = 1 ∧
        (packet ∈ s.ran ∨ packet ∈ s.cancelled ∧ s.cancel.cleared = true)) ∧
      s.dequeued <+: s.parsed ∧
      (Refused s → ∀ s', step .push s = some s' →
        SamePool s s' ∧ ∃ packet, s.push.packet = some packet ∧ s'.push.packet = some packet) ∧
      s.queue.packets.length ≤ 65 := by
  have known := known_reach reach
  have kept := board_kept reach
  have order : s.dequeued ++ s.queue.packets ++ s.cancelled ++ s.push.packet.toList = s.parsed := kept.order
  refine ⟨kept.once, fun packet parsed => kept.place parsed, ?_, List.nodup_iff_count_le_one.mp kept.beginsOnce,
    fun packet finished => ⟨?_, ?_⟩, ?_, fun refused s' run => refused_step refused run, ?_⟩
  · have once := kept.once
    rw [show s.board.issued = s.parsed from rfl, ← order] at once
    exact ((once.of_append_left).of_append_left).of_append_right
  · exact List.count_eq_one_of_mem kept.finishesOnce finished
  · refine (kept.finishedFrom packet finished).imp_right fun withdrawn => ⟨withdrawn, ?_⟩
    exact known.clear.shutdown (List.ne_nil_of_mem withdrawn)
  · rw [← order, List.append_assoc, List.append_assoc]
    exact List.prefix_append ..
  · simpa [QueuePtr.packets] using known.room.atMost

/-- Two packets are pushed; a thread handles the first one, and the shutdown cancels the other. -/
def shutdownRun (i : Fin n) : List (PoolAct n) :=
  [.parse 7 8] ++ List.replicate 6 .push ++ [.parse 7 8] ++ List.replicate 6 .push ++
    List.replicate 6 (.thread i) ++ List.replicate 5 .cancel

theorem handled_once_shutdown : ∃ s : ThreadPool 2, exec step (shutdownRun 1) (init easyQueueInit) = some s ∧
    s.cancelled.length = 1 ∧ s.ran.length = 1 ∧ ∀ packet ∈ s.parsed, ∃! place, s.board.At packet place := by
  have ends : ∃ s : ThreadPool 2, exec step (shutdownRun 1) (init easyQueueInit) = some s ∧
      s.cancelled.length = 1 ∧ s.ran.length = 1 := exec_ends (by decide +kernel)
  obtain ⟨s, run, cancelled, ran⟩ := ends
  exact ⟨s, run, cancelled, ran, (handled_once (reach_of_exec run)).2.1⟩

end ThreadPool

end SvrNet

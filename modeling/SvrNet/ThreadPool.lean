import SvrNet.Gqueue
import SvrNet.Conn
import SvrNet.Reach
import Mathlib.Logic.Function.Basic

namespace SvrNet
open StepSystem

/-- A packet that `parse_pack` returned, numbered in the order in which they were parsed. -/
structure Packet where
  number : Nat
  connid : ConnId
  len : Int
  deriving DecidableEq

/-- `_work_t`, with the number of the allocation that it lies in. -/
structure WorkT where
  buf : Nat
  connid : ConnId
  size : Int
  data : Nat
  deriving DecidableEq

/-- The packet that a `_work_t` was filled with. -/
def WorkT.packet (work : WorkT) : Packet := ⟨work.data, work.connid, work.size⟩

inductive WorkCb
  | workProc
  deriving DecidableEq

inductive AfterWorkCb
  | threadCompleted
  deriving DecidableEq

/-- `thread_param_t`; a callback can be NULL. -/
structure ThreadParam where
  data : WorkT
  proc : Option WorkCb
  afterProc : Option AfterWorkCb
  deriving DecidableEq

/-- `sizeof(thread_param_t)`: three pointers. -/
def threadParamSize : Nat := 24

/-- The pointer to the queue: valid, to freed memory, or NULL. -/
inductive QueuePtr
  | live (queue : EasyQueue ThreadParam)
  | freed
  | null

/-- The points of `thread_func`, each named after the call in front of which the thread is; `waiting`
and `woken` are inside of `uv_cond_wait`. A thread that has used a queue that is gone stops there. -/
inductive ThreadPc
  | trywait
  | post
  | exited
  | lock
  | pop
  | condWait
  | waiting
  | woken
  | unlockEmpty
  | unlock (element : ThreadParam)
  | proc (element : ThreadParam)
  | afterProc (element : ThreadParam)
  | crashed
  deriving DecidableEq

/-- The points of the loop thread from `parse_pack` through `workpool_push_work` and
`threadpool_push_work`. -/
inductive PushPc
  | parse
  | malloc (packet : Packet)
  | lock (work : WorkT)
  | size (work : WorkT)
  | push (work : WorkT)
  | broadcast
  | unlock
  | unlockFull (work : WorkT)
  | free (work : WorkT)
  | crashed (work : WorkT)
  deriving DecidableEq

/-- The points of `_threadpool_cancel_all`. -/
inductive CancelPc
  | post
  | lock
  | broadcast
  | clear
  | uninit
  | setNull
  | unlock
  | join (i : Nat)
  | crashed
  deriving DecidableEq

inductive Owner (n : Nat)
  | thread (i : Fin n)
  | push
  | cancel
  deriving DecidableEq

/-- The pool with its `n` threads, the loop thread that pushes and the thread that shuts it down. The
last fields record what has happened: the allocations that were freed, and the packets that were
parsed, popped, given to `work_proc`, given to `thread_completed`, and cancelled, the last of these
first. -/
structure ThreadPool (n : Nat) where
  exitSem : Nat
  mutex : Option (Owner n)
  queue : QueuePtr
  thread : Fin n → ThreadPc
  push : PushPc
  cancel : CancelPc
  mallocs : Nat
  freed : List Nat
  parsed : List Packet
  dequeued : List Packet
  ran : List Packet
  completed : List Packet
  cancelled : List Packet

/-- `wake` is a wake-up from `uv_cond_wait` without a broadcast. -/
inductive PoolAct (n : Nat)
  | thread (i : Fin n)
  | wake (i : Fin n)
  | parse (connid : ConnId) (len : Int)
  | push
  | cancel
  deriving DecidableEq

namespace ThreadPool

variable {n : Nat}

/-- `uv_cond_broadcast`. -/
def broadcast (thread : Fin n → ThreadPc) (i : Fin n) : ThreadPc :=
  match thread i with
  | .waiting => .woken
  | pc => pc

/-- `work_proc`, of which only the packet that it runs on is recorded. -/
def workProc (work : WorkT) (s : ThreadPool n) : ThreadPool n := { s with ran := s.ran ++ [work.packet] }

/-- `thread_completed`: the packet is released, and the `_work_t` is freed. -/
def threadCompleted (work : WorkT) (s : ThreadPool n) : ThreadPool n :=
  { s with completed := s.completed ++ [work.packet], freed := s.freed ++ [work.buf] }

def setThread (i : Fin n) (pc : ThreadPc) (s : ThreadPool n) : ThreadPool n :=
  { s with thread := Function.update s.thread i pc }

/-- One step of `thread_func`. -/
def threadStep (i : Fin n) (s : ThreadPool n) : Option (ThreadPool n) :=
  match s.thread i with
  | .trywait =>
    if s.exitSem = 0 then some (s.setThread i .lock)
    else some { s.setThread i .post with exitSem := s.exitSem - 1 }
  | .post => some { s.setThread i .exited with exitSem := s.exitSem + 1 }
  | .exited => none
  | .lock => if s.mutex = none then some { s.setThread i .pop with mutex := some (.thread i) } else none
  | .pop =>
    match s.queue with
    | .live queue =>
      match easyQueuePop queue threadParamSize with
      | .error _ => some (s.setThread i .condWait)
      | .ok (element, _, queue) =>
        some { s.setThread i (.unlock element) with
          queue := .live queue
          dequeued := s.dequeued ++ [element.data.packet] }
    | _ => some (s.setThread i .crashed)
  | .condWait => some { s.setThread i .waiting with mutex := none }
  | .waiting => none
  | .woken =>
    if s.mutex = none then some { s.setThread i .unlockEmpty with mutex := some (.thread i) } else none
  | .unlockEmpty => some { s.setThread i .trywait with mutex := none }
  | .unlock element => some { s.setThread i (.proc element) with mutex := none }
  | .proc element =>
    match element.proc with
    | some .workProc => some ((s.workProc element.data).setThread i (.afterProc element))
    | none => some (s.setThread i (.afterProc element))
  | .afterProc element =>
    match element.afterProc with
    | some .threadCompleted => some ((s.threadCompleted element.data).setThread i .trywait)
    | none => some (s.setThread i .trywait)
  | .crashed => none

/-- One step of the loop thread, behind `parse_pack`. -/
def pushStep (s : ThreadPool n) : Option (ThreadPool n) :=
  match s.push with
  | .parse => none
  | .malloc packet =>
    some { s with
      mallocs := s.mallocs + 1
      push := .lock ⟨s.mallocs, packet.connid, packet.len, packet.number⟩ }
  | .lock work => if s.mutex = none then some { s with mutex := some .push, push := .size work } else none
  | .size work =>
    match s.queue with
    | .live queue => some { s with push := if easyQueueSize queue > 64 then .unlockFull work else .push work }
    | _ => some { s with push := .crashed work }
  | .push work =>
    match s.queue with
    | .live queue =>
      some { s with
        queue := .live (easyQueuePush queue ⟨work, some .workProc, some .threadCompleted⟩ threadParamSize)
        push := .broadcast }
    | _ => some { s with push := .crashed work }
  | .broadcast => some { s with thread := broadcast s.thread, push := .unlock }
  | .unlock => some { s with mutex := none, push := .parse }
  | .unlockFull work => some { s with mutex := none, push := .free work }
  -- the packet is kept, and pushed again after a while
  | .free work => some { s with freed := s.freed ++ [work.buf], push := .malloc work.packet }
  | .crashed _ => none

/-- One step of `_threadpool_cancel_all`. `queue_free_func` asserts the length of what it is given. -/
def cancelStep (s : ThreadPool n) : Option (ThreadPool n) :=
  match s.cancel with
  | .post => some { s with exitSem := s.exitSem + 1, cancel := .lock }
  | .lock => if s.mutex = none then some { s with mutex := some .cancel, cancel := .broadcast } else none
  | .broadcast => some { s with thread := broadcast s.thread, cancel := .clear }
  | .clear =>
    match s.queue with
    | .live queue =>
      match easyQueueClearNext queue with
      | none => some { s with cancel := if easyQueueSize queue = 0 then .uninit else .crashed }
      | some (node, queue) =>
        if node.datalen = threadParamSize ∧ node.data.afterProc.isSome then
          some { s.threadCompleted node.data.data with
            queue := .live queue
            cancelled := node.data.data.packet :: s.cancelled }
        else some { s with cancel := .crashed }
    | _ => some { s with cancel := .crashed }
  | .uninit => some { s with queue := .freed, cancel := .setNull }
  | .setNull => some { s with queue := .null, cancel := .unlock }
  | .unlock => some { s with mutex := none, cancel := .join 0 }
  | .join i =>
    if started : i < n then
      if s.thread ⟨i, started⟩ = .exited then some { s with cancel := .join (i + 1) } else none
    else none
  | .crashed => none

def step : PoolAct n → ThreadPool n → Option (ThreadPool n)
  | .thread i, s => s.threadStep i
  | .wake i, s =>
    match s.thread i with
    | .waiting => some (s.setThread i .woken)
    | _ => none
  | .parse connid len, s =>
    match s.push with
    | .parse =>
      let packet : Packet := ⟨s.parsed.length, connid, len⟩
      some { s with parsed := s.parsed ++ [packet], push := .malloc packet }
    | _ => none
  | .push, s => s.pushStep
  | .cancel, s => s.cancelStep

/-- The pool with a queue, before its threads have done anything. -/
def init (queue : EasyQueue ThreadParam) : ThreadPool n where
  exitSem := 0
  mutex := none
  queue := .live queue
  thread := fun _ => .trywait
  push := .parse
  cancel := .post
  mallocs := 0
  freed := []
  parsed := []
  dequeued := []
  ran := []
  completed := []
  cancelled := []

end ThreadPool

end SvrNet

import SvrNet.PoolCallers

namespace SvrNet
open StepSystem

variable {α : Type}

/-- With a buffer for every element, `easy_queue_pop` fails on an empty queue only. -/
theorem nodes_of_pop_error {queue : EasyQueue α} {buflen needed : Nat}
    (fits : ∀ node ∈ queue.nodes, node.datalen ≤ buflen) (failed : easyQueuePop queue buflen = .error needed) :
    queue.nodes = [] := by
  obtain ⟨_ | ⟨node, nodes⟩, size, counted⟩ := queue
  · rfl
  · have room := fits node (List.mem_cons_self ..)
    simp [easyQueuePop, Nat.not_lt.mpr room] at failed

namespace PoolCallers

variable {n m : Nat} {s s' : PoolCallers n m}

/-- The nodes of the task queue. -/
def queued (s : PoolCallers n m) : List (QueueNode ThreadParam) := s.pool.queue.nodes

/-- A thread is about to wait, or waits, for want of work; work that was pushed while it waited is
going to be announced by the one who pushed it. -/
structure AwakeInv (s : PoolCallers n m) : Prop where
  live : ∃ queue, s.pool.queue = .live queue
  sized : ∀ node ∈ s.queued, node.datalen = threadParamSize
  condWait : ∀ i, s.pool.thread i = .condWait → s.queued = []
  waiting : ∀ i, s.pool.thread i = .waiting → s.queued = [] ∨ ∃ k, s.caller k = .broadcast

theorem awakeInv_init : AwakeInv (init : PoolCallers n m) := by
  constructor <;> simp [init, ThreadPool.init, queued]

theorem AwakeInv.popFail (inv : AwakeInv s) {queue : EasyQueue ThreadParam} {needed : Nat}
    (pointer : s.pool.queue = .live queue) (failed : easyQueuePop queue threadParamSize = .error needed) :
    s.queued = [] := by
  have nodes : s.queued = queue.nodes := by rw [queued, pointer, QueuePtr.nodes_live]
  rw [nodes]
  refine nodes_of_pop_error (fun node member => ?_) failed
  exact Nat.le_of_eq (inv.sized node (by rwa [nodes]))

/-- A step of a thread of the pool that does not touch the queue and does not go to wait. -/
theorem AwakeInv.thread (inv : AwakeInv s) {i : Fin n} {pc : ThreadPc} {pool : ThreadPool n}
    (quiet : pc ≠ .condWait ∧ pc ≠ .waiting) (thread : pool.thread = Function.update s.pool.thread i pc)
    (queue : pool.queue = s.pool.queue) : AwakeInv { s with pool := pool } where
  live := by
    simp only [queue]
    exact inv.live
  sized := by
    simp only [queued, queue]
    exact inv.sized
  condWait := fun j at_ => by
    simp only [queued, queue, thread] at at_ ⊢
    by_cases same : j = i
    · simp [same, quiet] at at_
    · exact inv.condWait j (by simpa [same] using at_)
  waiting := fun j at_ => by
    simp only [queued, queue, thread] at at_ ⊢
    by_cases same : j = i
    · simp [same, quiet] at at_
    · exact inv.waiting j (by simpa [same] using at_)

theorem AwakeInv.step_thread (inv : AwakeInv s) {i : Fin n} {act : PoolAct n} {pool : ThreadPool n}
    (step : ThreadPool.PoolStep s.pool act pool) (mine : act = .thread i ∨ act = .wake i) :
    AwakeInv { s with pool := pool } := by
  cases step with
  | @popFail j queue needed at_ pointer failed =>
    have empty := inv.popFail pointer failed
    refine ⟨inv.live, inv.sized, fun _ _ => empty, fun _ _ => Or.inl empty⟩
  | @pop j queue element datalen queue' at_ pointer popped =>
    have nodes : s.queued = ⟨element, datalen⟩ :: queue'.nodes := by
      rw [queued, pointer, QueuePtr.nodes_live, nodes_of_pop popped]
    refine ⟨⟨queue', rfl⟩, fun node member => ?_, fun other here => ?_, fun other here => ?_⟩
    · exact inv.sized node (by rw [nodes]; exact List.mem_cons_of_mem _ member)
    · have different : other ≠ j := by rintro rfl; simp at here
      have empty := inv.condWait other (by simpa [different] using here)
      simp [nodes] at empty
    · have different : other ≠ j := by rintro rfl; simp at here
      rcases inv.waiting other (by simpa [different] using here) with empty | announced
      · simp [nodes] at empty
      · exact Or.inr announced
  | popGone _ gone =>
    obtain ⟨queue, pointer⟩ := inv.live
    exact absurd pointer (gone queue)
  | @condWait j at_ =>
    have empty := inv.condWait j at_
    exact ⟨inv.live, inv.sized, fun _ _ => empty, fun _ _ => Or.inl empty⟩
  | tokenMissing | tokenTaken | post | lock | wake | woken | unlockEmpty | unlock | proc | procNull | afterProc
  | afterProcNull => exact inv.thread (by simp) rfl rfl
  | _ => rcases mine with mine | mine <;> cases mine

/-- A step of a caller that leaves the queue and the threads of the pool as they are. -/
theorem AwakeInv.caller (inv : AwakeInv s) {k : Fin m} {pc : PushPc} {pool : ThreadPool n}
    (silent : s.caller k ≠ .broadcast) (thread : pool.thread = s.pool.thread) (queue : pool.queue = s.pool.queue) :
    AwakeInv (⟨pool, Function.update s.caller k pc⟩ : PoolCallers n m) where
  live := by
    simp only [queue]
    exact inv.live
  sized := by
    simp only [queued, queue]
    exact inv.sized
  condWait := by
    simp only [queued, queue, thread]
    exact inv.condWait
  waiting := fun i at_ => by
    simp only [queued, queue, thread] at at_ ⊢
    rcases inv.waiting i at_ with empty | ⟨l, announces⟩
    · exact Or.inl empty
    · have different : l ≠ k := by rintro rfl; exact silent announces
      exact Or.inr ⟨l, by simpa [different] using announces⟩

theorem AwakeInv.step_caller (inv : AwakeInv s) (exclusive : Exclusive s) {k : Fin m} {act : PoolAct n}
    {pool : ThreadPool n} (step : ThreadPool.PoolStep (s.view k) act pool)
    (mine : act = .push ∨ ∃ connid len, act = .parse connid len) :
    AwakeInv (⟨{ pool with push := s.pool.push }, Function.update s.caller k pool.push⟩ : PoolCallers n m) := by
  cases step with
  | @push work queue at_ pointer =>
    have at_ : s.caller k = .push work := at_
    have pointer : s.pool.queue = .live queue := pointer
    refine ⟨⟨_, rfl⟩, fun node member => ?_, fun i here => ?_, fun i _ => Or.inr ⟨k, by simp⟩⟩
    · simp only [queued, QueuePtr.nodes_live, nodes_push] at member
      rcases List.mem_append.mp member with old | new
      · exact inv.sized node (by rwa [queued, pointer, QueuePtr.nodes_live])
      · rw [List.mem_singleton.mp new]
    · -- one of the two has the mutex
      have left : s.inside (.inl i) := by
        have here : s.pool.thread i = .condWait := here
        simp [inside, here, ThreadPc.locked]
      have right : s.inside (.inr k) := by simp [inside, at_, PushPc.locked]
      cases exclusive.one left right
  | broadcast =>
    refine ⟨inv.live, inv.sized, fun i here => ?_, fun i here => ?_⟩
    · exact inv.condWait i (ThreadPool.broadcast_eq_condWait.mp here)
    · exact absurd here (ThreadPool.broadcast_not_waiting s.pool.thread i)
  | pushGone _ gone =>
    obtain ⟨queue, pointer⟩ := inv.live
    exact absurd pointer (gone queue)
  | parse at_ | malloc at_ | pushLock at_ | sizeFull at_ | size at_ | pushUnlock at_ | unlockFull at_ | free at_ =>
    have silent : s.caller k ≠ .broadcast := fun announces => by
      have same := announces.symm.trans at_
      cases same
    exact inv.caller silent rfl rfl
  | _ => rcases mine with mine | ⟨_, _, mine⟩ <;> cases mine

theorem awakeInv_reach {guard : CallerAct n m → PoolCallers n m → Prop} (reach : Reach step guard init s) :
    AwakeInv s := by
  refine reach.invariant_of (K := Exclusive) (fun _ reach => exclusive_reach reach) awakeInv_init
    fun act old new exclusive _ inv _ run => ?_
  rcases step_spec run with ⟨i, poolAct, pool, mine, step, rfl⟩ | ⟨k, poolAct, pool, mine, step, rfl⟩
  · exact inv.step_thread step mine
  · exact inv.step_caller exclusive step mine

/-- A thread gets into the wait set by `uv_cond_wait` only. -/
theorem step_waits {act : CallerAct n m} (run : step act s = some s') {i : Fin n}
    (awake : s.pool.thread i ≠ .waiting) (asleep : s'.pool.thread i = .waiting) :
    s.pool.thread i = .condWait ∧ s'.pool.queue = s.pool.queue := by
  rcases step_spec run with ⟨j, poolAct, pool, mine, step, rfl⟩ | ⟨k, poolAct, pool, mine, step, rfl⟩
  · have mover : i = j := by
      by_contra other
      have same := (step.thread_lock mine).1 i other
      exact awake (same.symm.trans asleep)
    subst mover
    cases step with
    | condWait at_ =>
      rcases mine with mine | mine <;> cases mine
      exact ⟨at_, rfl⟩
    | tokenMissing | tokenTaken | post | lock | popFail | pop | popGone | wake | woken | unlockEmpty | unlock | proc
    | procNull | afterProc | afterProcNull =>
      rcases mine with mine | mine <;> cases mine
      simp at asleep
    | _ => rcases mine with mine | mine <;> cases mine
  · cases step with
    | broadcast => exact absurd asleep (ThreadPool.broadcast_not_waiting s.pool.thread i)
    | parse | malloc | pushLock | sizeFull | size | pushGone | push | pushUnlock | unlockFull | free =>
      exact absurd asleep awake
    | _ => rcases mine with mine | ⟨_, _, mine⟩ <;> cases mine

/-- The pool never sleeps on work: with the mutex free and a task in the queue no thread is in the wait
set, and a thread enters it with an empty queue only. -/
theorem never_sleeps_on_work (reach : Reach step anyStep init s) :
    (s.pool.mutex = none → s.queued ≠ [] → ∀ i, s.pool.thread i ≠ .waiting) ∧
      (∀ act s', step act s = some s' → ∀ i, s.pool.thread i ≠ .waiting → s'.pool.thread i = .waiting →
        s.queued = [] ∧ s'.queued = []) ∧
      ∀ queue needed, s.pool.queue = .live queue → easyQueuePop queue threadParamSize = .error needed →
        s.queued = [] := by
  have inv := awakeInv_reach reach
  refine ⟨fun free some i asleep => ?_, fun act s' run i awake asleep => ?_, fun queue needed pointer failed => ?_⟩
  · rcases inv.waiting i asleep with empty | ⟨k, announces⟩
    · exact some empty
    · have inside : s.inside (.inr k) := by simp [inside, announces, PushPc.locked]
      exact (exclusive_reach reach).nobody free _ inside
  · obtain ⟨at_, queue⟩ := step_waits run awake asleep
    have empty := inv.condWait i at_
    refine ⟨empty, ?_⟩
    rw [queued, queue]
    exact empty
  · exact inv.popFail pointer failed

/-- A thread waits; two callers push at the same time, the first one wakes it up, and both return before it
goes on. -/
def twoPushes (i : Fin n) (k l : Fin m) : List (CallerAct n m) :=
  [.thread i, .thread i, .thread i, .thread i, .parse k 7 10, .parse l 8 10, .push k, .push l, .push k, .push k, .push k,
    .push k, .push k, .push l, .push l, .push l, .push l, .push l]

theorem never_sleeps_on_work_two_pushes : ∃ s : PoolCallers 1 2,
    exec step (twoPushes 0 0 1) init = some s ∧ s.queued.length = 2 ∧ s.pool.mutex = none ∧
      s.caller 1 = .parse ∧ s.pool.thread 0 ≠ .waiting := by
  have ends : ∃ s : PoolCallers 1 2, exec step (twoPushes 0 0 1) init = some s ∧ s.queued.length = 2 ∧
      s.pool.mutex = none ∧ s.caller 1 = .parse := exec_ends (by decide +kernel)
  obtain ⟨s, run, queued, free, returned⟩ := ends
  have some : s.queued ≠ [] := List.ne_nil_of_length_pos (by omega)
  exact ⟨s, run, queued, free, returned, (never_sleeps_on_work (reach_of_exec run)).1 free some 0⟩

end PoolCallers

end SvrNet

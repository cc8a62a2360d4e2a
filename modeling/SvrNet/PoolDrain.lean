import SvrNet.PoolAwake
import Mathlib.Algebra.BigOperators.Fin

namespace SvrNet
open StepSystem

/-- Nobody has begun to shut the pool down. -/
def beforeShutdown {n : Nat} (act : PoolAct n) (_ : ThreadPool n) : Prop := act ≠ .cancel

instance {n : Nat} (act : PoolAct n) (s : ThreadPool n) : Decidable (beforeShutdown act s) :=
  inferInstanceAs (Decidable (act ≠ .cancel))

/-- The step of the loop thread as that of the only caller of the pool. -/
def PoolAct.caller {n : Nat} : PoolAct n → CallerAct n 1
  | .thread i => .thread i
  | .wake i => .wake i
  | .parse connid len => .parse 0 connid len
  | .push | .cancel => .push 0

/-- How many steps a thread can take before it waits, unless it finds another item. -/
def ThreadPc.rank : ThreadPc → Nat
  | .waiting | .exited | .crashed => 0
  | .condWait | .post => 1
  | .pop => 2
  | .lock => 3
  | .trywait => 4
  | .unlockEmpty | .afterProc _ => 5
  | .woken | .proc _ => 6
  | .unlock _ => 7

namespace ThreadPool

variable {n : Nat} {s s' : ThreadPool n}

section OneCaller

/-- The pool with the loop thread as its only caller. -/
def alone (s : ThreadPool n) : PoolCallers n 1 := ⟨{ s with push := .parse }, fun _ => s.push⟩

/-- The threads of the pool do not look at what the loop thread is doing. -/
theorem threadStep_push (i : Fin n) (push : PushPc) (run : s.threadStep i = some s') :
    ({ s with push := push } : ThreadPool n).threadStep i = some { s' with push := push } ∧ s'.push = s.push := by
  cases threadStep_spec run with
  | popFail at_ pointer failed => simp [threadStep, at_, pointer, failed, setThread]
  | pop at_ pointer popped => simp [threadStep, at_, pointer, popped, setThread]
  | popGone at_ gone =>
    cases pointer : s.queue with
    | live queue => exact absurd pointer (gone queue)
    | freed | null => simp [threadStep, at_, setThread]
  | tokenMissing at_ empty => simp [threadStep, at_, empty, setThread]
  | tokenTaken at_ some => simp [threadStep, at_, Nat.ne_of_gt some, setThread]
  | lock at_ free | woken at_ free => simp [threadStep, at_, free, setThread]
  | proc at_ given | procNull at_ given => simp [threadStep, at_, given, setThread, workProc]
  | afterProc at_ given | afterProcNull at_ given => simp [threadStep, at_, given, setThread, threadCompleted]
  | post at_ | condWait at_ | unlockEmpty at_ | unlock at_ => simp [threadStep, at_, setThread]

theorem alone_turn {act : PoolAct n} (run : step act s = some s') : s.alone.turn 0 act = some s'.alone := by
  have viewed : s.alone.view 0 = s := rfl
  rw [PoolCallers.turn, viewed, run, Option.map_some, Option.some.injEq]
  unfold alone
  congr 1
  funext k
  rw [Subsingleton.elim k 0, Function.update_self]

theorem alone_step {act : PoolAct n} (early : beforeShutdown act s) (run : step act s = some s') :
    PoolCallers.step act.caller s.alone = some s'.alone := by
  cases act with
  | thread i =>
    obtain ⟨same, push⟩ := threadStep_push i .parse run
    simp only [PoolCallers.step, PoolAct.caller, alone, step, same, push, Option.map_some]
  | wake i =>
    simp only [step] at run
    split at run
    · rename_i at_
      cases run
      simp [PoolCallers.step, PoolAct.caller, alone, step, at_, setThread]
    · simp at run
  | parse connid len => exact alone_turn run
  | push => exact alone_turn run
  | cancel => exact absurd rfl early

/-- Before the shutdown the pool takes the steps of one with a single caller. -/
theorem alone_reach (reach : Reach step beforeShutdown (init easyQueueInit) s) :
    Reach PoolCallers.step anyStep PoolCallers.init s.alone := by
  induction reach with
  | start => exact .start
  | next _ early run ih => exact ih.next trivial (alone_step early run)

end OneCaller

section Early

/-- Nothing has been shut down, and nobody has crashed. -/
structure EarlyInv (s : ThreadPool n) : Prop where
  cancel : s.cancel = .post
  token : s.exitSem = 0
  thread : ∀ i, s.thread i ≠ .post ∧ s.thread i ≠ .exited ∧ s.thread i ≠ .crashed
  push : ∀ work, s.push ≠ .crashed work

theorem EarlyInv.move (inv : EarlyInv s) {i : Fin n} {pc : ThreadPc} (cancel : s'.cancel = s.cancel)
    (token : s'.exitSem = s.exitSem) (push : s'.push = s.push)
    (thread : s'.thread = Function.update s.thread i pc) (sound : pc ≠ .post ∧ pc ≠ .exited ∧ pc ≠ .crashed) :
    EarlyInv s' where
  cancel := cancel.trans inv.cancel
  token := token.trans inv.token
  thread := fun j => by
    rw [thread]
    by_cases same : j = i
    · rw [same, Function.update_self]
      exact sound
    · rw [Function.update_of_ne same]
      exact inv.thread j
  push := by
    rw [push]
    exact inv.push

theorem EarlyInv.live (inv : EarlyInv s) (pointer : QueueInv s) : ∃ queue, s.queue = .live queue :=
  pointer.mpr (by rw [inv.cancel]; rfl)

theorem EarlyInv.step {act : PoolAct n} (inv : EarlyInv s) (pointer : QueueInv s) (early : act ≠ .cancel)
    (step : PoolStep s act s') : EarlyInv s' := by
  obtain ⟨queue, live⟩ := inv.live pointer
  cases step with
  | tokenTaken _ some => simp [inv.token] at some
  | @post i at_ => exact absurd at_ (inv.thread i).1
  | popGone _ gone => exact absurd live (gone queue)
  | pushGone _ gone => exact absurd live (gone queue)
  | tokenMissing | lock | popFail | pop | condWait | wake | woken | unlockEmpty | unlock | proc | procNull
  | afterProc | afterProcNull => exact inv.move rfl rfl rfl rfl (by simp)
  | broadcast =>
    refine ⟨inv.cancel, inv.token, fun i => ?_, by simp⟩
    obtain ⟨posts, exits, crashes⟩ := inv.thread i
    dsimp only [ThreadPool.broadcast]
    split
    · simp
    · exact ⟨posts, exits, crashes⟩
  | parse | malloc | pushLock | sizeFull | size | push | pushUnlock | unlockFull | free =>
    exact ⟨inv.cancel, inv.token, inv.thread, by simp⟩
  | _ => exact absurd rfl early

theorem earlyInv_reach (reach : Reach step beforeShutdown (init easyQueueInit) s) : EarlyInv s :=
  reach.invariant_of (K := QueueInv) (fun _ reach => queueInv_reach reach)
    ⟨rfl, rfl, fun _ => by simp [init], by simp [init]⟩
    fun _ _ _ pointer _ inv early run => inv.step pointer early (step_spec run)

end Early

section Draining

/-- The steps that the threads have left: an item of the queue takes a thread from `easy_queue_pop`
back there. -/
def workLeft (s : ThreadPool n) : Nat := 6 * s.queue.nodes.length + ∑ i, (s.thread i).rank

theorem sum_rank_update (thread : Fin n → ThreadPc) (i : Fin n) (pc : ThreadPc) :
    ∑ j, (Function.update thread i pc j).rank + (thread i).rank = ∑ j, (thread j).rank + pc.rank := by
  have same : (fun j => (Function.update thread i pc j).rank) =
      Function.update (fun j => (thread j).rank) i pc.rank :=
    Function.comp_update ThreadPc.rank thread i pc
  rw [same, Finset.sum_update_of_mem (Finset.mem_univ i),
    Finset.sum_eq_add_sum_sdiff_singleton_of_mem (Finset.mem_univ i) fun j => (thread j).rank]
  omega

/-- A step of one thread that does not touch the queue. -/
theorem workLeft_falls {i : Fin n} {pc : ThreadPc} (queue : s'.queue = s.queue)
    (thread : s'.thread = Function.update s.thread i pc) (less : pc.rank < (s.thread i).rank) :
    s'.workLeft < s.workLeft := by
  have moved := sum_rank_update s.thread i pc
  unfold workLeft
  rw [queue, thread]
  omega

/-- Every step of a thread takes it further. -/
theorem thread_falls {i : Fin n} (step : PoolStep s (.thread i) s') : s'.workLeft < s.workLeft := by
  cases step with
  | @pop _ queue element datalen later at_ here popped =>
    have moved := sum_rank_update s.thread i (.unlock element)
    have nodes := nodes_of_pop popped
    unfold workLeft
    rw [at_] at moved
    simp only [here, QueuePtr.nodes_live, nodes, List.length_cons, ThreadPc.rank] at moved ⊢
    omega
  | tokenMissing at_ | tokenTaken at_ | post at_ | lock at_ | popFail at_ | popGone at_ | condWait at_ | woken at_
  | unlockEmpty at_ | unlock at_ | proc at_ | procNull at_ | afterProc at_ | afterProcNull at_ =>
    exact workLeft_falls rfl rfl (by simp [at_, ThreadPc.rank])

/-- The pool has nothing left to do: its threads wait, its queue is empty, and all packets but the one
that the loop thread has still to push were processed once and released once. -/
structure AtRest (s : ThreadPool n) : Prop where
  waiting : ∀ i, s.thread i = .waiting
  queue : s.queue.packets = []
  done : ∀ packet ∈ s.parsed, s.push.packet = some packet ∨ s.ran.count packet = 1 ∧ s.completed.count packet = 1

theorem EarlyInv.not_stuck (inv : EarlyInv s) {i : Fin n} (inside : (s.thread i).locked = true) :
    s.threadStep i ≠ none := by
  intro stuck
  unfold threadStep at stuck
  cases at_ : s.thread i with
  | pop =>
    simp only [at_] at stuck
    split at stuck
    · split at stuck <;> cases stuck
    · cases stuck
  | crashed => exact absurd at_ (inv.thread i).2.2
  | condWait | unlockEmpty | unlock => simp [at_] at stuck
  | _ => simp [at_, ThreadPc.locked] at inside

/-- Whoever is inside of the critical section can go on. -/
theorem EarlyInv.mutex_free (inv : EarlyInv s) (guards : Guards s.mutex s.inside) (outside : s.push.locked = false)
    (stuck : ∀ i, s.threadStep i = none) : s.mutex = none := by
  cases mutex : s.mutex with
  | none => rfl
  | some owner =>
    have inside := (guards owner).mpr mutex
    cases owner with
    | thread i => exact absurd (stuck i) (inv.not_stuck inside)
    | push => exact absurd (show s.push.locked = true from inside) (by simp [outside])
    | cancel =>
      have inside : s.cancel.locked = true := inside
      simp [inv.cancel, CancelPc.locked] at inside

/-- A thread that cannot take a step waits. -/
theorem EarlyInv.waiting (inv : EarlyInv s) (free : s.mutex = none) {i : Fin n} (stuck : s.threadStep i = none) :
    s.thread i = .waiting := by
  unfold threadStep at stuck
  cases at_ : s.thread i with
  | waiting => rfl
  | exited => exact absurd at_ (inv.thread i).2.1
  | crashed => exact absurd at_ (inv.thread i).2.2
  | pop =>
    simp only [at_] at stuck
    split at stuck
    · split at stuck <;> cases stuck
    · cases stuck
  | proc element | afterProc element =>
    simp only [at_] at stuck
    split at stuck <;> cases stuck
  | _ => simp [at_, free, inv.token] at stuck

/-- Before the shutdown a packet is completed only after it was run. -/
theorem ran_of_completed (reach : Reach step beforeShutdown (init easyQueueInit) s) {packet : Packet}
    (done : packet ∈ s.completed) : packet ∈ s.ran := by
  rcases (board_kept reach).finishedFrom packet done with began | withdrawn
  · exact began
  · have cleared := (known_reach reach).clear.shutdown (List.ne_nil_of_mem withdrawn)
    simp [(earlyInv_reach reach).cancel, CancelPc.cleared] at cleared

theorem atRest_of_stuck (threads : 0 < n) (reach : Reach step beforeShutdown (init easyQueueInit) s)
    (outside : s.push.locked = false) (stuck : ∀ i, s.threadStep i = none) : s.AtRest := by
  have inv := earlyInv_reach reach
  have known := known_reach reach
  have waiting : ∀ i, s.thread i = .waiting := fun i =>
    inv.waiting (inv.mutex_free known.guards outside stuck) (stuck i)
  have empty : s.queue.nodes = [] := by
    rcases (PoolCallers.awakeInv_reach (alone_reach reach)).waiting ⟨0, threads⟩ (waiting ⟨0, threads⟩) with
      empty | ⟨_, announces⟩
    · exact empty
    · have announces : s.push = .broadcast := announces
      simp [announces, PushPc.locked] at outside
  have queue : s.queue.packets = [] := by rw [QueuePtr.packets, empty, List.map_nil]
  refine ⟨waiting, queue, fun packet parsed => ?_⟩
  have kept := board_kept reach
  obtain ⟨place, here, _⟩ := kept.place parsed
  cases place with
  | offered => exact Or.inl here
  | waiting =>
    have here : packet ∈ s.queue.packets := here
    simp [queue] at here
  | hand i => simp [JobBoard.At, board, waiting i, ThreadPc.hand, Hand.job] at here
  | finished =>
    exact Or.inr ⟨List.count_eq_one_of_mem kept.beginsOnce (ran_of_completed reach here),
      List.count_eq_one_of_mem kept.finishesOnce here⟩

/-- The loop thread can go on, unless it waits for the next packet or for the mutex. -/
theorem EarlyInv.push_goes (inv : EarlyInv s) (pointer : QueueInv s) (stuck : s.pushStep = none) :
    s.push = .parse ∨ s.push.locked = false ∧ s.mutex ≠ none := by
  obtain ⟨queue, live⟩ := inv.live pointer
  unfold pushStep at stuck
  cases at_ : s.push with
  | parse => exact Or.inl rfl
  | lock work =>
    refine Or.inr ⟨rfl, fun free => ?_⟩
    simp [at_, free] at stuck
  | crashed work => exact absurd at_ (inv.push work)
  | _ => simp [at_, live] at stuck

/-- The loop thread is outside of its critical section while the threads run. -/
theorem drain_step (i : Fin n) (before after : ThreadPool n)
    (known : Reach step beforeShutdown (init easyQueueInit) before ∧ before.push.locked = false)
    (run : before.threadStep i = some after) :
    (Reach step beforeShutdown (init easyQueueInit) after ∧ after.push.locked = false) ∧
      after.workLeft < before.workLeft := by
  obtain ⟨reach, outside⟩ := known
  have early : beforeShutdown (.thread i) before := nofun
  refine ⟨⟨reach.next early run, ?_⟩, thread_falls (threadStep_spec run)⟩
  rw [(threadStep_push i .parse run).2]
  exact outside

/-- Until it is shut down the pool is never stuck: a thread or the loop thread can go on, or everything
is done. And as long as no packet is pushed the threads come to an end by themselves, in whatever
order they run, and with nothing left to do. -/
theorem pool_drains (threads : 0 < n) (reach : Reach step beforeShutdown (init easyQueueInit) s) :
    ((∃ i, (s.threadStep i).isSome) ∨ s.pushStep.isSome ∨ s.push = .parse ∧ s.AtRest) ∧
      (s.push.locked = false → ∀ turns s', exec threadStep turns s = some s' →
        turns.length ≤ s.workLeft ∧ ((∀ i, s'.threadStep i = none) → s'.AtRest)) := by
  constructor
  · by_cases some : ∃ i, (s.threadStep i).isSome
    · exact Or.inl some
    · have stuck : ∀ i, s.threadStep i = none := fun i => by simpa using fun here => some ⟨i, here⟩
      have inv := earlyInv_reach reach
      have known := known_reach reach
      cases push : s.pushStep with
      | some _ => exact Or.inr (Or.inl rfl)
      | none =>
        rcases inv.push_goes known.pointer push with at_ | ⟨outside, taken⟩
        · have outside : s.push.locked = false := by rw [at_]; rfl
          exact Or.inr (Or.inr ⟨at_, atRest_of_stuck threads reach outside stuck⟩)
        · exact absurd (inv.mutex_free known.guards outside stuck) taken
  · intro outside turns s' run
    obtain ⟨⟨reached, still⟩, bound⟩ := exec_ranked workLeft drain_step ⟨reach, outside⟩ run
    exact ⟨by omega, atRest_of_stuck threads reached still⟩

/-- Two packets are pushed while one of the threads waits and the other one has not begun. -/
def backlogRun (i : Fin n) : List (PoolAct n) :=
  [.thread i, .thread i, .thread i, .thread i, .parse 7 10, .push, .push, .push, .push, .push, .push,
    .parse 8 12, .push, .push, .push, .push, .push, .push]

theorem pool_drains_backlog : ∃ s : ThreadPool 2,
    exec (guarded step beforeShutdown) (backlogRun 0) (init easyQueueInit) = some s ∧ s.queue.packets.length = 2 ∧
      s.workLeft = 22 ∧ ∀ turns s', exec threadStep turns s = some s' →
        turns.length ≤ 22 ∧ ((∀ i, s'.threadStep i = none) → s'.AtRest) := by
  have ends : ∃ s : ThreadPool 2, exec (guarded step beforeShutdown) (backlogRun 0) (init easyQueueInit) = some s ∧
      s.queue.packets.length = 2 ∧ s.workLeft = 22 ∧ s.push.locked = false := exec_ends (by decide +kernel)
  obtain ⟨s, run, queued, left, outside⟩ := ends
  have drains := (pool_drains (by decide) (reach_of_exec_guarded run)).2 outside
  exact ⟨s, run, queued, left, left ▸ drains⟩

end Draining

end ThreadPool

end SvrNet

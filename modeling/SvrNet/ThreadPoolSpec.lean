import SvrNet.Mutex
import SvrNet.ThreadPool

namespace SvrNet
open StepSystem

/-- A thread that stopped at a queue that is gone keeps the mutex. -/
def ThreadPc.locked : ThreadPc → Bool
  | .pop | .condWait | .unlockEmpty | .unlock _ | .crashed => true
  | _ => false

def PushPc.locked : PushPc → Bool
  | .size _ | .push _ | .broadcast | .unlock | .unlockFull _ | .crashed _ => true
  | _ => false

def CancelPc.locked : CancelPc → Bool
  | .broadcast | .clear | .uninit | .setNull | .unlock | .crashed => true
  | _ => false

/-- The queue has been given up. -/
def CancelPc.queueGone : CancelPc → Bool
  | .setNull | .unlock | .join _ => true
  | _ => false

namespace ThreadPool

variable {n : Nat} {s s' : ThreadPool n}

/-- Everything that a step can do, with the condition under which it does it. -/
inductive PoolStep (s : ThreadPool n) : PoolAct n → ThreadPool n → Prop
  | tokenMissing {i} : s.thread i = .trywait → s.exitSem = 0 →
      PoolStep s (.thread i) { s with thread := Function.update s.thread i .lock }
  | tokenTaken {i} : s.thread i = .trywait → 0 < s.exitSem →
      PoolStep s (.thread i)
        { s with thread := Function.update s.thread i .post, exitSem := s.exitSem - 1 }
  | post {i} : s.thread i = .post →
      PoolStep s (.thread i)
        { s with thread := Function.update s.thread i .exited, exitSem := s.exitSem + 1 }
  | lock {i} : s.thread i = .lock → s.mutex = none →
      PoolStep s (.thread i)
        { s with thread := Function.update s.thread i .pop, mutex := some (.thread i) }
  | popFail {i queue buflen} : s.thread i = .pop → s.queue = .live queue →
      easyQueuePop queue threadParamSize = .error buflen →
      PoolStep s (.thread i) { s with thread := Function.update s.thread i .condWait }
  | pop {i queue element datalen queue'} : s.thread i = .pop → s.queue = .live queue →
      easyQueuePop queue threadParamSize = .ok (element, datalen, queue') →
      PoolStep s (.thread i) { s with
        thread := Function.update s.thread i (.unlock element)
        queue := .live queue'
        dequeued := s.dequeued ++ [element.data.packet] }
  | popGone {i} : s.thread i = .pop → (∀ queue, s.queue ≠ .live queue) →
      PoolStep s (.thread i) { s with thread := Function.update s.thread i .crashed }
  | condWait {i} : s.thread i = .condWait →
      PoolStep s (.thread i) { s with thread := Function.update s.thread i .waiting, mutex := none }
  | wake {i} : s.thread i = .waiting →
      PoolStep s (.wake i) { s with thread := Function.update s.thread i .woken }
  | woken {i} : s.thread i = .woken → s.mutex = none →
      PoolStep s (.thread i)
        { s with thread := Function.update s.thread i .unlockEmpty, mutex := some (.thread i) }
  | unlockEmpty {i} : s.thread i = .unlockEmpty →
      PoolStep s (.thread i) { s with thread := Function.update s.thread i .trywait, mutex := none }
  | unlock {i element} : s.thread i = .unlock element →
      PoolStep s (.thread i)
        { s with thread := Function.update s.thread i (.proc element), mutex := none }
  | proc {i element} : s.thread i = .proc element → element.proc = some .workProc →
      PoolStep s (.thread i)
        { s with
          thread := Function.update s.thread i (.afterProc element)
          ran := s.ran ++ [element.data.packet] }
  | procNull {i element} : s.thread i = .proc element → element.proc = none →
      PoolStep s (.thread i) { s with thread := Function.update s.thread i (.afterProc element) }
  | afterProc {i element} : s.thread i = .afterProc element → element.afterProc = some .threadCompleted →
      PoolStep s (.thread i)
        { s with
          thread := Function.update s.thread i .trywait
          completed := s.completed ++ [element.data.packet]
          freed := s.freed ++ [element.data.buf] }
  | afterProcNull {i element} : s.thread i = .afterProc element → element.afterProc = none →
      PoolStep s (.thread i) { s with thread := Function.update s.thread i .trywait }
  | parse {connid len} : s.push = .parse →
      PoolStep s (.parse connid len)
        { s with
          parsed := s.parsed ++ [⟨s.parsed.length, connid, len⟩]
          push := .malloc ⟨s.parsed.length, connid, len⟩ }
  | malloc {packet} : s.push = .malloc packet →
      PoolStep s .push
        { s with
          mallocs := s.mallocs + 1
          push := .lock ⟨s.mallocs, packet.connid, packet.len, packet.number⟩ }
  | pushLock {work} : s.push = .lock work → s.mutex = none →
      PoolStep s .push { s with mutex := some .push, push := .size work }
  | sizeFull {work queue} : s.push = .size work → s.queue = .live queue → 64 < queue.nodes.length →
      PoolStep s .push { s with push := .unlockFull work }
  | size {work queue} : s.push = .size work → s.queue = .live queue → queue.nodes.length ≤ 64 →
      PoolStep s .push { s with push := .push work }
  | pushGone {work} : s.push = .size work ∨ s.push = .push work → (∀ queue, s.queue ≠ .live queue) →
      PoolStep s .push { s with push := .crashed work }
  | push {work queue} : s.push = .push work → s.queue = .live queue →
      PoolStep s .push
        { s with
          queue := .live (easyQueuePush queue ⟨work, some .workProc, some .threadCompleted⟩ threadParamSize)
          push := .broadcast }
  | broadcast : s.push = .broadcast →
      PoolStep s .push { s with thread := ThreadPool.broadcast s.thread, push := .unlock }
  | pushUnlock : s.push = .unlock → PoolStep s .push { s with mutex := none, push := .parse }
  | unlockFull {work} : s.push = .unlockFull work →
      PoolStep s .push { s with mutex := none, push := .free work }
  | free {work} : s.push = .free work →
      PoolStep s .push { s with freed := s.freed ++ [work.buf], push := .malloc work.packet }
  | cancelPost : s.cancel = .post →
      PoolStep s .cancel { s with exitSem := s.exitSem + 1, cancel := .lock }
  | cancelLock : s.cancel = .lock → s.mutex = none →
      PoolStep s .cancel { s with mutex := some .cancel, cancel := .broadcast }
  | cancelBroadcast : s.cancel = .broadcast →
      PoolStep s .cancel { s with thread := ThreadPool.broadcast s.thread, cancel := .clear }
  | clear {queue queue' element} : s.cancel = .clear → s.queue = .live queue →
      easyQueueClearNext queue = some (⟨element, threadParamSize⟩, queue') →
      PoolStep s .cancel
        { s with
          queue := .live queue'
          completed := s.completed ++ [element.data.packet]
          freed := s.freed ++ [element.data.buf]
          cancelled := element.data.packet :: s.cancelled }
  | clearFail : s.cancel = .clear → PoolStep s .cancel { s with cancel := .crashed }
  | clearEnd {queue} : s.cancel = .clear → s.queue = .live queue → queue.nodes = [] →
      PoolStep s .cancel { s with cancel := .uninit }
  | uninit : s.cancel = .uninit → PoolStep s .cancel { s with queue := .freed, cancel := .setNull }
  | setNull : s.cancel = .setNull → PoolStep s .cancel { s with queue := .null, cancel := .unlock }
  | cancelUnlock : s.cancel = .unlock → PoolStep s .cancel { s with mutex := none, cancel := .join 0 }
  | join {i} {started : i < n} : s.cancel = .join i → s.thread ⟨i, started⟩ = .exited →
      PoolStep s .cancel { s with cancel := .join (i + 1) }

theorem threadStep_spec {i : Fin n} (run : s.threadStep i = some s') : PoolStep s (.thread i) s' := by
  unfold threadStep at run
  cases at_ : s.thread i with
  | trywait =>
    simp only [at_] at run
    split at run <;> cases run
    · exact .tokenMissing at_ ‹_›
    · exact .tokenTaken at_ (Nat.pos_of_ne_zero ‹_›)
  | post => simp only [at_] at run; cases run; exact .post at_
  | lock =>
    simp only [at_] at run
    split at run <;> cases run
    exact .lock at_ ‹_›
  | pop =>
    simp only [at_] at run
    split at run
    · split at run <;> cases run
      · exact .popFail at_ ‹_› ‹_›
      · exact .pop at_ ‹_› ‹_›
    · cases run
      exact .popGone at_ ‹_›
  | condWait => simp only [at_] at run; cases run; exact .condWait at_
  | woken =>
    simp only [at_] at run
    split at run <;> cases run
    exact .woken at_ ‹_›
  | unlockEmpty => simp only [at_] at run; cases run; exact .unlockEmpty at_
  | unlock element => simp only [at_] at run; cases run; exact .unlock at_
  | proc element =>
    simp only [at_] at run
    split at run <;> cases run
    · exact .proc at_ ‹_›
    · exact .procNull at_ ‹_›
  | afterProc element =>
    simp only [at_] at run
    split at run <;> cases run
    · exact .afterProc at_ ‹_›
    · exact .afterProcNull at_ ‹_›
  | exited | waiting | crashed => simp [at_] at run

theorem pushStep_spec (run : s.pushStep = some s') : PoolStep s .push s' := by
  unfold pushStep at run
  cases at_ : s.push with
  | malloc packet => simp only [at_] at run; cases run; exact .malloc at_
  | lock work =>
    simp only [at_] at run
    split at run <;> cases run
    exact .pushLock at_ ‹_›
  | size work =>
    simp only [at_, easyQueueSize_eq] at run
    split at run <;> cases run
    · split
      · exact .sizeFull at_ ‹_› (by omega)
      · exact .size at_ ‹_› (by omega)
    · exact .pushGone (Or.inl at_) ‹_›
  | push work =>
    simp only [at_] at run
    split at run <;> cases run
    · exact .push at_ ‹_›
    · exact .pushGone (Or.inr at_) ‹_›
  | broadcast => simp only [at_] at run; cases run; exact .broadcast at_
  | unlock => simp only [at_] at run; cases run; exact .pushUnlock at_
  | unlockFull work => simp only [at_] at run; cases run; exact .unlockFull at_
  | free work => simp only [at_] at run; cases run; exact .free at_
  | parse | crashed => simp [at_] at run

theorem cancelStep_spec (run : s.cancelStep = some s') : PoolStep s .cancel s' := by
  unfold cancelStep at run
  cases at_ : s.cancel with
  | post => simp only [at_] at run; cases run; exact .cancelPost at_
  | lock =>
    simp only [at_] at run
    split at run <;> cases run
    exact .cancelLock at_ ‹_›
  | broadcast => simp only [at_] at run; cases run; exact .cancelBroadcast at_
  | clear =>
    simp only [at_] at run
    split at run
    · rename_i queue pointer
      split at run
      · rename_i none
        rw [clearNext_eq_none] at none
        simp only [easyQueueSize_eq, none] at run
        cases run
        exact .clearEnd at_ pointer none
      · rename_i node queue' next
        split at run <;> cases run
        · rename_i fits
          obtain ⟨element, _⟩ := node
          obtain ⟨rfl, _⟩ := fits
          exact .clear at_ pointer next
        · exact .clearFail at_
    · cases run
      exact .clearFail at_
  | uninit => simp only [at_] at run; cases run; exact .uninit at_
  | setNull => simp only [at_] at run; cases run; exact .setNull at_
  | unlock => simp only [at_] at run; cases run; exact .cancelUnlock at_
  | join i =>
    simp only [at_] at run
    split at run
    · split at run <;> cases run
      exact .join at_ ‹_›
    · simp at run
  | crashed => simp [at_] at run

theorem step_spec {act : PoolAct n} (run : step act s = some s') : PoolStep s act s' := by
  cases act with
  | thread i => exact threadStep_spec run
  | wake i =>
    simp only [step] at run
    split at run <;> cases run
    exact .wake ‹_›
  | parse connid len =>
    simp only [step] at run
    split at run <;> cases run
    exact .parse ‹_›
  | push => exact pushStep_spec run
  | cancel => exact cancelStep_spec run

section Exclusion

def inside (s : ThreadPool n) : Owner n → Prop
  | .thread i => (s.thread i).locked
  | .push => s.push.locked
  | .cancel => s.cancel.locked

theorem update_locked {i : Fin n} {pc : ThreadPc} (same : pc.locked = (s.thread i).locked) (j : Fin n) :
    (Function.update s.thread i pc j).locked = (s.thread j).locked := by
  by_cases here : j = i
  · simp [here, same]
  · simp [here]

theorem broadcast_locked (thread : Fin n → ThreadPc) (j : Fin n) :
    (broadcast thread j).locked = (thread j).locked := by
  unfold broadcast
  split
  · simp_all [ThreadPc.locked]
  · rfl

/-- A step of a thread that neither locks nor unlocks. -/
theorem inside_update {i : Fin n} {pc : ThreadPc} (same : pc.locked = (s.thread i).locked)
    (thread : s'.thread = Function.update s.thread i pc) (push : s'.push = s.push) (cancel : s'.cancel = s.cancel)
    (owner : Owner n) : s'.inside owner ↔ s.inside owner := by
  cases owner with
  | thread j => simp only [inside, thread, update_locked same]
  | push => simp only [inside, push]
  | cancel => simp only [inside, cancel]

/-- To the others, a thread that locks or unlocks makes no difference. -/
theorem inside_other {i : Fin n} {pc : ThreadPc} (thread : s'.thread = Function.update s.thread i pc)
    (push : s'.push = s.push) (cancel : s'.cancel = s.cancel) (owner : Owner n) (other : owner ≠ .thread i) :
    s'.inside owner ↔ s.inside owner := by
  cases owner with
  | thread j =>
    have different : j ≠ i := by rintro rfl; exact other rfl
    simp only [inside, thread, Function.update_of_ne different]
  | push => simp only [inside, push]
  | cancel => simp only [inside, cancel]

theorem mutex_step {act : PoolAct n} (guards : Guards s.mutex s.inside) (step : PoolStep s act s') :
    Guards s'.mutex s'.inside := by
  cases step with
  | lock at_ free | woken at_ free =>
    rw [free] at guards
    exact guards.acquire (by simp [inside, ThreadPc.locked]) (inside_other rfl rfl rfl)
  | condWait at_ | unlockEmpty at_ | unlock at_ =>
    exact guards.release (by simp [inside, at_, ThreadPc.locked]) (by simp [inside, ThreadPc.locked])
      (inside_other rfl rfl rfl)
  | tokenMissing at_ | tokenTaken at_ | post at_ | popFail at_ | pop at_ | popGone at_ | wake at_ | proc at_
  | procNull at_ | afterProc at_ | afterProcNull at_ =>
    exact guards.congr (inside_update (by simp [at_, ThreadPc.locked]) rfl rfl rfl)
  | pushLock at_ free =>
    rw [free] at guards
    refine guards.acquire (by simp [inside, PushPc.locked]) fun owner other => ?_
    cases owner <;> simp_all [inside]
  | pushUnlock at_ | unlockFull at_ =>
    refine guards.release (a := .push) (by simp [inside, at_, PushPc.locked]) (by simp [inside, PushPc.locked])
      fun owner other => ?_
    cases owner <;> simp_all [inside]
  | cancelLock at_ free =>
    rw [free] at guards
    refine guards.acquire (by simp [inside, CancelPc.locked]) fun owner other => ?_
    cases owner <;> simp_all [inside]
  | cancelUnlock at_ =>
    refine guards.release (a := .cancel) (by simp [inside, at_, CancelPc.locked])
      (by simp [inside, CancelPc.locked]) fun owner other => ?_
    cases owner <;> simp_all [inside]
  | parse at_ | malloc at_ | sizeFull at_ | size at_ | push at_ | broadcast at_ | free at_ =>
    refine guards.congr fun owner => ?_
    cases owner <;> simp [inside, at_, PushPc.locked, broadcast_locked]
  | pushGone at_ =>
    refine guards.congr fun owner => ?_
    rcases at_ with at_ | at_ <;> cases owner <;> simp [inside, at_, PushPc.locked]
  | cancelPost at_ | cancelBroadcast at_ | clear at_ | clearFail at_ | clearEnd at_ | uninit at_ | setNull at_
  | join at_ =>
    refine guards.congr fun owner => ?_
    cases owner <;> simp [inside, at_, CancelPc.locked, broadcast_locked]

variable {guard : PoolAct n → ThreadPool n → Prop} {queue : EasyQueue ThreadParam}

theorem mutex_reach (reach : Reach step guard (init queue) s) : Guards s.mutex s.inside := by
  refine reach.invariant (fun owner => ?_) fun _ _ _ guards _ run => mutex_step guards (step_spec run)
  cases owner <;> simp [inside, init, ThreadPc.locked, PushPc.locked, CancelPc.locked]

theorem thread_cancel_exclusive (guards : Guards s.mutex s.inside) {i : Fin n}
    (thread : (s.thread i).locked = true) (cancel : s.cancel.locked = true) : False := by
  have left : s.inside (.thread i) := thread
  have right : s.inside .cancel := cancel
  simpa using guards.exclusive left right

theorem push_cancel_exclusive (guards : Guards s.mutex s.inside) (push : s.push.locked = true)
    (cancel : s.cancel.locked = true) : False := by
  have left : s.inside .push := push
  have right : s.inside .cancel := cancel
  simpa using guards.exclusive left right

end Exclusion

/-- The pointer to the queue is valid until the queue is given up. -/
def QueueInv (s : ThreadPool n) : Prop := (∃ queue, s.queue = .live queue) ↔ s.cancel.queueGone = false

theorem QueueInv.step {act : PoolAct n} (inv : QueueInv s) (step : PoolStep s act s') : QueueInv s' := by
  cases step with
  | pop _ pointer _ | push _ pointer =>
    exact ⟨fun _ => inv.mp ⟨_, pointer⟩, fun _ => ⟨_, rfl⟩⟩
  | clear at_ => exact ⟨fun _ => by rw [at_]; rfl, fun _ => ⟨_, rfl⟩⟩
  | uninit | setNull => simp [QueueInv, CancelPc.queueGone]
  | cancelPost at_ | cancelLock at_ | cancelBroadcast at_ | clearFail at_ | clearEnd at_ | cancelUnlock at_
  | join at_ =>
    unfold QueueInv at inv
    rw [at_] at inv
    exact inv
  | _ => exact inv

theorem queueInv_reach {guard : PoolAct n → ThreadPool n → Prop} {queue : EasyQueue ThreadParam}
    (reach : Reach step guard (init queue) s) : QueueInv s :=
  reach.invariant ⟨fun _ => rfl, fun _ => ⟨queue, rfl⟩⟩ fun _ _ _ inv _ run => inv.step (step_spec run)

end ThreadPool

end SvrNet

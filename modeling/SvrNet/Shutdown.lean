import SvrNet.ThreadPoolSpec

namespace SvrNet
open StepSystem

/-- `_threadpool_cancel_all` has taken the mutex. -/
def CancelPc.entered : CancelPc → Bool
  | .post | .lock => false
  | _ => true

/-- `_threadpool_cancel_all` has woken the waiting threads. -/
def CancelPc.woke : CancelPc → Bool
  | .post | .lock | .broadcast => false
  | _ => true

/-- `_threadpool_cancel_all` has released the mutex. -/
def CancelPc.released : CancelPc → Bool
  | .join _ => true
  | _ => false

namespace ThreadPool

variable {n : Nat} {s s' : ThreadPool n} {guard : PoolAct n → ThreadPool n → Prop}
  {queue : EasyQueue ThreadParam}

section Waiting

/-- Behind the broadcast of the shutdown no thread waits, or is about to. -/
def AwakeInv (s : ThreadPool n) : Prop :=
  s.cancel.woke = true → ∀ i, s.thread i ≠ .waiting ∧ s.thread i ≠ .condWait

theorem AwakeInv.thread (inv : AwakeInv s) {i : Fin n} {pc : ThreadPc}
    (awake : s.cancel.woke = true → pc ≠ .waiting ∧ pc ≠ .condWait) (cancel : s'.cancel = s.cancel)
    (thread : s'.thread = Function.update s.thread i pc) : AwakeInv s' := by
  intro woke j
  rw [cancel] at woke
  rw [thread]
  by_cases same : j = i
  · simpa [same] using awake woke
  · simpa [same] using inv woke j

theorem broadcast_not_waiting (thread : Fin n → ThreadPc) (i : Fin n) : broadcast thread i ≠ .waiting := by
  unfold broadcast
  split
  · simp
  · assumption

theorem broadcast_eq_condWait {thread : Fin n → ThreadPc} {i : Fin n} :
    broadcast thread i = .condWait ↔ thread i = .condWait := by
  unfold broadcast
  split <;> simp_all

theorem AwakeInv.step {act : PoolAct n} (inv : AwakeInv s) (guards : Guards s.mutex s.inside)
    (pointer : QueueInv s) (step : PoolStep s act s') : AwakeInv s' := by
  cases step with
  | @popFail i queue _ at_ live =>
    -- with the queue still there, the one who woke the others holds the mutex
    refine inv.thread (fun woke => ?_) rfl rfl
    have here := pointer.mp ⟨queue, live⟩
    have locked : s.cancel.locked = true := by
      cases at_ : s.cancel <;> simp_all [CancelPc.woke, CancelPc.queueGone, CancelPc.locked]
    exact (thread_cancel_exclusive guards (by rw [at_]; rfl) locked).elim
  | @condWait i at_ => exact inv.thread (fun woke => absurd at_ (inv woke i).2) rfl rfl
  | broadcast =>
    intro woke i
    exact ⟨broadcast_not_waiting s.thread i, fun here => (inv woke i).2 (broadcast_eq_condWait.mp here)⟩
  | cancelBroadcast at_ =>
    intro _ i
    refine ⟨broadcast_not_waiting s.thread i, fun here => ?_⟩
    exact thread_cancel_exclusive guards (by rw [broadcast_eq_condWait.mp here]; rfl) (by rw [at_]; rfl)
  | cancelPost | cancelLock => exact fun woke => by simp [CancelPc.woke] at woke
  | clearFail at_ | clearEnd at_ | uninit at_ | setNull at_ | cancelUnlock at_ | join at_ =>
    exact fun _ => inv (by rw [at_]; rfl)
  | tokenMissing | tokenTaken | post | lock | pop | popGone | wake | woken | unlockEmpty | unlock | proc | procNull
  | afterProc | afterProcNull => exact inv.thread (by simp) rfl rfl
  | _ => exact inv

theorem awakeInv_reach (reach : Reach step guard (init queue) s) : AwakeInv s :=
  reach.invariant_of (K := fun s => Guards s.mutex s.inside ∧ QueueInv s)
    (fun _ reach => ⟨mutex_reach reach, queueInv_reach reach⟩) (fun woke => by simp [init, CancelPc.woke] at woke)
    fun _ _ _ known _ inv _ run => inv.step known.1 known.2 (step_spec run)

end Waiting

section Token

/-- When the shutdown takes the mutex no thread is between its test of `exit_sem` and
`uv_mutex_lock`, and from then on no thread tests it while another one has the token. -/
def exitSeen : PoolAct n → ThreadPool n → Prop
  | .cancel, s => s.cancel = .lock → ∀ i, s.thread i ≠ .lock
  | .thread i, s => s.thread i = .trywait → s.cancel.entered = true → ∀ j, s.thread j ≠ .post
  | _, _ => True

instance : ∀ (act : PoolAct n) (s : ThreadPool n), Decidable (exitSeen act s)
  | .cancel, s => inferInstanceAs (Decidable (s.cancel = .lock → ∀ i, s.thread i ≠ .lock))
  | .thread i, s => inferInstanceAs
      (Decidable (s.thread i = .trywait → s.cancel.entered = true → ∀ j, s.thread j ≠ .post))
  | .wake _, _ | .parse _ _, _ | .push, _ => inferInstanceAs (Decidable True)

/-- Once posted, the token is in the semaphore or with a thread that is going to post it again. -/
def TokenInv (s : ThreadPool n) : Prop := s.cancel ≠ .post → 0 < s.exitSem ∨ ∃ i, s.thread i = .post

theorem TokenInv.thread (inv : TokenInv s) {i : Fin n} {pc : ThreadPc} (notPost : s.thread i ≠ .post)
    (cancel : s'.cancel = s.cancel) (token : s'.exitSem = s.exitSem)
    (thread : s'.thread = Function.update s.thread i pc) : TokenInv s' := by
  intro begun
  rw [cancel] at begun
  rw [token]
  rcases inv begun with free | ⟨j, posts⟩
  · exact Or.inl free
  · have other : j ≠ i := by rintro rfl; exact notPost posts
    exact Or.inr ⟨j, by rw [thread, Function.update_of_ne other, posts]⟩

theorem broadcast_eq_post {thread : Fin n → ThreadPc} {i : Fin n} (posts : thread i = .post) :
    broadcast thread i = .post := by
  unfold broadcast
  rw [posts]

theorem TokenInv.step {act : PoolAct n} (inv : TokenInv s) (step : PoolStep s act s') : TokenInv s' := by
  cases step with
  | @tokenTaken i => exact fun _ => Or.inr ⟨i, Function.update_self ..⟩
  | post | cancelPost => exact fun _ => Or.inl (Nat.succ_pos _)
  | broadcast => exact fun begun => (inv begun).imp_right fun ⟨i, posts⟩ => ⟨i, broadcast_eq_post posts⟩
  | cancelBroadcast at_ =>
    exact fun _ => (inv (by simp [at_])).imp_right fun ⟨i, posts⟩ => ⟨i, broadcast_eq_post posts⟩
  | cancelLock at_ | clearFail at_ | clearEnd at_ | uninit at_ | setNull at_ | cancelUnlock at_ | join at_ =>
    exact fun _ => inv (by simp [at_])
  | tokenMissing at_ | lock at_ | popFail at_ | pop at_ | popGone at_ | condWait at_ | wake at_ | woken at_
  | unlockEmpty at_ | unlock at_ | proc at_ | procNull at_ | afterProc at_ | afterProcNull at_ =>
    exact inv.thread (by simp [at_]) rfl rfl rfl
  | _ => exact inv

/-- No thread is on its way to a queue that is gone. -/
structure LateInv (s : ThreadPool n) : Prop where
  sound : ∀ i, s.thread i ≠ .crashed
  late : s.cancel.entered = true → ∀ i, s.thread i ≠ .lock ∧ s.thread i ≠ .pop

theorem LateInv.thread (inv : LateInv s) {i : Fin n} {pc : ThreadPc} (sound : pc ≠ .crashed)
    (late : s.cancel.entered = true → pc ≠ .lock ∧ pc ≠ .pop) (cancel : s'.cancel = s.cancel)
    (thread : s'.thread = Function.update s.thread i pc) : LateInv s' := by
  refine ⟨fun j => ?_, fun entered j => ?_⟩
  · by_cases same : j = i
    · simpa [thread, same] using sound
    · simpa [thread, same] using inv.sound j
  · rw [cancel] at entered
    by_cases same : j = i
    · simpa [thread, same] using late entered
    · simpa [thread, same] using inv.late entered j

theorem broadcast_eq_of_ne {thread : Fin n → ThreadPc} {i : Fin n} (quiet : thread i ≠ .waiting) :
    broadcast thread i = thread i := by
  unfold broadcast
  split
  · contradiction
  · rfl

/-- A broadcast moves nobody but the waiting threads. -/
theorem LateInv.broadcast (inv : LateInv s) (i : Fin n) :
    ThreadPool.broadcast s.thread i ≠ .crashed ∧
      (s.cancel.entered = true →
        ThreadPool.broadcast s.thread i ≠ .lock ∧ ThreadPool.broadcast s.thread i ≠ .pop) := by
  by_cases waits : s.thread i = .waiting
  · simp [ThreadPool.broadcast, waits]
  · rw [broadcast_eq_of_ne waits]
    exact ⟨inv.sound i, fun entered => inv.late entered i⟩

theorem LateInv.step {act : PoolAct n} (inv : LateInv s) (guards : Guards s.mutex s.inside)
    (pointer : QueueInv s) (token : TokenInv s) (seen : exitSeen act s) (step : PoolStep s act s') :
    LateInv s' := by
  cases step with
  | @tokenMissing i at_ none =>
    refine inv.thread (by simp) (fun entered => ?_) rfl rfl
    -- the token is not gone for good: somebody has it
    rcases token (by rintro at_; simp [at_, CancelPc.entered] at entered) with free | ⟨j, posts⟩
    · omega
    · exact absurd posts (seen at_ entered j)
  | @lock i at_ => exact inv.thread (by simp) (fun entered => absurd at_ (inv.late entered i).1) rfl rfl
  | @popGone i at_ gone =>
    have entered : s.cancel.entered = true := by
      have givenUp : s.cancel.queueGone ≠ false := fun here => by
        obtain ⟨queue, live⟩ := pointer.mpr here
        exact gone queue live
      cases here : s.cancel <;> simp_all [CancelPc.queueGone, CancelPc.entered]
    exact absurd at_ (inv.late entered i).2
  | cancelLock at_ free =>
    refine ⟨inv.sound, fun _ i => ⟨seen at_ i, fun (here : s.thread i = .pop) => ?_⟩⟩
    rw [free] at guards
    exact guards.nobody (show s.inside (.thread i) by simp [inside, here, ThreadPc.locked])
  | broadcast => exact ⟨fun i => (inv.broadcast i).1, fun entered i => (inv.broadcast i).2 entered⟩
  | cancelBroadcast at_ => exact ⟨fun i => (inv.broadcast i).1, fun _ i => (inv.broadcast i).2 (by rw [at_]; rfl)⟩
  | cancelPost => exact ⟨inv.sound, fun entered => by simp [CancelPc.entered] at entered⟩
  | clearFail at_ | clearEnd at_ | uninit at_ | setNull at_ | cancelUnlock at_ | join at_ =>
    exact ⟨inv.sound, fun _ => inv.late (by rw [at_]; rfl)⟩
  | tokenTaken | post | popFail | pop | condWait | wake | woken | unlockEmpty | unlock | proc | procNull
  | afterProc | afterProcNull => exact inv.thread (by simp) (by simp) rfl rfl
  | _ => exact ⟨inv.sound, inv.late⟩

end Token

/-- As long as no thread misses the token, shutting down is safe: no thread uses the queue after it
is gone, and none is left in `uv_cond_wait`. -/
theorem shutdown_safe (reach : Reach step exitSeen (init queue) s) :
    (∀ i, s.thread i ≠ .crashed) ∧
      (s.cancel.released = true → ∀ i, s.thread i ≠ .waiting ∧ s.thread i ≠ .condWait) := by
  have token : ∀ s : ThreadPool n, Reach step exitSeen (init queue) s → TokenInv s := fun _ reach =>
    reach.invariant (fun begun => absurd rfl begun) fun _ _ _ inv _ run => inv.step (step_spec run)
  have inv : LateInv s := reach.invariant_of
    (K := fun s => (Guards s.mutex s.inside ∧ QueueInv s) ∧ TokenInv s)
    (fun _ reach => ⟨⟨mutex_reach reach, queueInv_reach reach⟩, token _ reach⟩)
    ⟨fun _ => by simp [init], fun entered => by simp [init, CancelPc.entered] at entered⟩
    fun _ _ _ known _ inv seen run => inv.step known.1.1 known.1.2 known.2 seen (step_spec run)
  refine ⟨inv.sound, fun released => awakeInv_reach reach ?_⟩
  cases at_ : s.cancel <;> simp_all [CancelPc.released, CancelPc.woke]

/-- A queue with one item. -/
def oneWork : EasyQueue ThreadParam :=
  easyQueuePush easyQueueInit ⟨⟨0, 7, 8, 0⟩, some .workProc, some .threadCompleted⟩ threadParamSize

/-- Both threads wait when the pool is shut down; one has handled the item before. -/
def quietRun (i j : Fin n) : List (PoolAct n) :=
  List.replicate 6 (.thread i) ++ List.replicate 4 (.thread j) ++ List.replicate 4 (.thread i) ++
    List.replicate 7 .cancel ++ List.replicate 4 (.thread i) ++ List.replicate 4 (.thread j) ++
    List.replicate 2 .cancel

theorem shutdown_safe_both_waiting : ∃ s : ThreadPool 2,
    exec (guarded step exitSeen) (quietRun 0 1) (init oneWork) = some s ∧
    s.cancel = .join 2 ∧ (∀ i, s.thread i ≠ .crashed) ∧
      (s.cancel.released = true → ∀ i, s.thread i ≠ .waiting ∧ s.thread i ≠ .condWait) := by
  have ends : ∃ s : ThreadPool 2, exec (guarded step exitSeen) (quietRun 0 1) (init oneWork) = some s ∧
      s.cancel = .join 2 := exec_ends (by decide +kernel)
  obtain ⟨s, run, joined⟩ := ends
  exact ⟨s, run, joined, shutdown_safe (reach_of_exec_guarded run)⟩

/-- A thread that has found no token goes on to a queue that has become NULL. -/
theorem shutdown_unsafe : ∃ s : ThreadPool 1, Reach step anyStep (init easyQueueInit) s ∧
    s.cancel.released = true ∧ s.thread 0 = .crashed := by
  have ends : ∃ s : ThreadPool 1,
      exec step (.thread 0 :: List.replicate 7 .cancel ++ List.replicate 2 (.thread 0)) (init easyQueueInit) =
        some s ∧ s.cancel.released = true ∧ s.thread 0 = .crashed := exec_ends (by decide +kernel)
  obtain ⟨s, run, released, crashed⟩ := ends
  exact ⟨s, reach_of_exec run, released, crashed⟩

end ThreadPool

end SvrNet

import SvrNet.HandledOnce
import SvrNet.Shutdown

namespace SvrNet
open StepSystem

/-- The pool with `m` threads that call `threadpool_push_work`, each of them where the one loop thread
of the server can be. -/
structure PoolCallers (n m : Nat) where
  pool : ThreadPool n
  caller : Fin m → PushPc

/-- As long as nobody shuts the pool down, its threads and the callers take steps. -/
inductive CallerAct (n m : Nat)
  | thread (i : Fin n)
  | wake (i : Fin n)
  | parse (k : Fin m) (connid : ConnId) (len : Int)
  | push (k : Fin m)
  deriving DecidableEq

namespace PoolCallers

variable {n m : Nat}

/-- The pool as the caller sees it. -/
def view (s : PoolCallers n m) (k : Fin m) : ThreadPool n := { s.pool with push := s.caller k }

/-- A step of a caller in the pool, which takes it from one of its points to the next. -/
def turn (k : Fin m) (act : PoolAct n) (s : PoolCallers n m) : Option (PoolCallers n m) :=
  (ThreadPool.step act (s.view k)).map fun pool =>
    ⟨{ pool with push := s.pool.push }, Function.update s.caller k pool.push⟩

def step : CallerAct n m → PoolCallers n m → Option (PoolCallers n m)
  | .thread i, s => (ThreadPool.step (.thread i) s.pool).map fun pool => { s with pool := pool }
  | .wake i, s => (ThreadPool.step (.wake i) s.pool).map fun pool => { s with pool := pool }
  | .parse k connid len, s => s.turn k (.parse connid len)
  | .push k, s => s.turn k .push

/-- The pool after `threadpool_init`, and nobody in a call. -/
def init : PoolCallers n m where
  pool := ThreadPool.init easyQueueInit
  caller := fun _ => .parse

end PoolCallers

namespace ThreadPool

variable {n : Nat} {s s' : ThreadPool n} {i : Fin n}

/-- What a step of a thread of the pool does to the mutex. -/
theorem PoolStep.thread_lock {act : PoolAct n} (step : PoolStep s act s') (mine : act = .thread i ∨ act = .wake i) :
    (∀ j, j ≠ i → s'.thread j = s.thread j) ∧ s'.push = s.push ∧
      (s'.mutex = s.mutex ∧ (s'.thread i).locked = (s.thread i).locked ∨
        s.mutex = none ∧ s'.mutex = some (.thread i) ∧ (s'.thread i).locked = true ∨
        (s.thread i).locked = true ∧ s'.mutex = none ∧ (s'.thread i).locked = false) := by
  cases step with
  | lock at_ free | woken at_ free =>
    rcases mine with mine | mine <;> cases mine
    refine ⟨fun j other => Function.update_of_ne other .., rfl, Or.inr (Or.inl ⟨free, rfl, ?_⟩)⟩
    simp [ThreadPc.locked]
  | condWait at_ | unlockEmpty at_ | unlock at_ =>
    rcases mine with mine | mine <;> cases mine
    refine ⟨fun j other => Function.update_of_ne other .., rfl, Or.inr (Or.inr ⟨?_, rfl, ?_⟩)⟩
    · simp [at_, ThreadPc.locked]
    · simp [ThreadPc.locked]
  | tokenMissing at_ | tokenTaken at_ | post at_ | popFail at_ | pop at_ | popGone at_ | wake at_ | proc at_
  | procNull at_ | afterProc at_ | afterProcNull at_ =>
    rcases mine with mine | mine <;> cases mine
    refine ⟨fun j other => Function.update_of_ne other .., rfl, Or.inl ⟨rfl, ?_⟩⟩
    simp [at_, ThreadPc.locked]
  | _ => rcases mine with mine | mine <;> cases mine

/-- What a step of a caller does to the mutex. -/
theorem PoolStep.push_lock {act : PoolAct n} (step : PoolStep s act s')
    (mine : act = .push ∨ ∃ connid len, act = .parse connid len) :
    (∀ j, (s'.thread j).locked = (s.thread j).locked) ∧
      (s'.mutex = s.mutex ∧ s'.push.locked = s.push.locked ∨
        s.mutex = none ∧ s'.mutex = some .push ∧ s'.push.locked = true ∨
        s.push.locked = true ∧ s'.mutex = none ∧ s'.push.locked = false) := by
  cases step with
  | pushLock _ free => exact ⟨fun _ => rfl, Or.inr (Or.inl ⟨free, rfl, rfl⟩)⟩
  | pushUnlock at_ | unlockFull at_ => exact ⟨fun _ => rfl, Or.inr (Or.inr ⟨by rw [at_]; rfl, rfl, rfl⟩)⟩
  | broadcast at_ => exact ⟨broadcast_locked s.thread, Or.inl ⟨rfl, by rw [at_]; rfl⟩⟩
  | parse at_ | malloc at_ | sizeFull at_ | size at_ | push at_ | free at_ =>
    exact ⟨fun _ => rfl, Or.inl ⟨rfl, by rw [at_]; rfl⟩⟩
  | pushGone at_ =>
    refine ⟨fun _ => rfl, Or.inl ⟨rfl, ?_⟩⟩
    rcases at_ with at_ | at_ <;> rw [at_] <;> rfl
  | _ => rcases mine with mine | ⟨_, _, mine⟩ <;> cases mine

end ThreadPool

namespace PoolCallers

variable {n m : Nat} {s s' : PoolCallers n m}

section Exclusion

/-- The threads and the callers that have the mutex. -/
def inside (s : PoolCallers n m) : Fin n ⊕ Fin m → Prop
  | .inl i => (s.pool.thread i).locked = true
  | .inr k => (s.caller k).locked = true

/-- The owner of the mutex as the pool records it: it does not tell the callers apart. -/
def owner : Fin n ⊕ Fin m → Owner n
  | .inl i => .thread i
  | .inr _ => .push

/-- The mutex has one holder at most. -/
def Exclusive (s : PoolCallers n m) : Prop :=
  ∃ holder : Option (Fin n ⊕ Fin m), Guards holder s.inside ∧ s.pool.mutex = holder.map owner

theorem Exclusive.one (exclusive : Exclusive s) {a b : Fin n ⊕ Fin m} (left : s.inside a) (right : s.inside b) :
    a = b := by
  obtain ⟨_, guards, _⟩ := exclusive
  exact guards.exclusive left right

theorem Exclusive.nobody (exclusive : Exclusive s) (free : s.pool.mutex = none) (a : Fin n ⊕ Fin m) :
    ¬ s.inside a := by
  obtain ⟨holder, guards, mutex⟩ := exclusive
  cases holder with
  | none => exact guards.nobody
  | some holder => simp [free] at mutex

/-- One thread or caller keeps, takes or releases the mutex, and for the others nothing changes. -/
theorem Exclusive.step (exclusive : Exclusive s) {a : Fin n ⊕ Fin m}
    (others : ∀ b, b ≠ a → (s'.inside b ↔ s.inside b))
    (lock : s'.pool.mutex = s.pool.mutex ∧ (s'.inside a ↔ s.inside a) ∨
      s.pool.mutex = none ∧ s'.pool.mutex = some (owner a) ∧ s'.inside a ∨
      s.inside a ∧ s'.pool.mutex = none ∧ ¬ s'.inside a) : Exclusive s' := by
  rcases lock with ⟨mutex, same⟩ | ⟨free, mutex, enters⟩ | ⟨was, mutex, leaves⟩
  · obtain ⟨holder, guards, here⟩ := exclusive
    refine ⟨holder, guards.congr fun b => ?_, mutex.trans here⟩
    by_cases mine : b = a
    · rw [mine]
      exact same
    · exact others b mine
  · have outside := exclusive.nobody free
    obtain ⟨holder, guards, here⟩ := exclusive
    have none : holder = none := by simpa [free] using here.symm
    subst none
    exact ⟨some a, guards.acquire enters others, mutex⟩
  · obtain ⟨holder, guards, here⟩ := exclusive
    exact ⟨none, guards.release was leaves others, mutex⟩

theorem Exclusive.step_thread (exclusive : Exclusive s) {i : Fin n} {act : PoolAct n} {pool : ThreadPool n}
    (step : ThreadPool.PoolStep s.pool act pool) (mine : act = .thread i ∨ act = .wake i) :
    Exclusive { s with pool := pool } := by
  obtain ⟨others, _, lock⟩ := step.thread_lock mine
  refine exclusive.step (a := .inl i) (fun b other => ?_) ?_
  · cases b with
    | inl j =>
      have different : j ≠ i := by rintro rfl; exact other rfl
      simp only [inside, others j different]
    | inr k => exact Iff.rfl
  · rcases lock with ⟨mutex, same⟩ | taken | ⟨was, mutex, leaves⟩
    · exact Or.inl ⟨mutex, by simp only [inside, same]⟩
    · exact Or.inr (Or.inl taken)
    · exact Or.inr (Or.inr ⟨was, mutex, by simp [inside, leaves]⟩)

theorem Exclusive.step_caller (exclusive : Exclusive s) {k : Fin m} {act : PoolAct n} {pool : ThreadPool n}
    (step : ThreadPool.PoolStep (s.view k) act pool) (mine : act = .push ∨ ∃ connid len, act = .parse connid len) :
    Exclusive (⟨{ pool with push := s.pool.push }, Function.update s.caller k pool.push⟩ : PoolCallers n m) := by
  obtain ⟨threads, lock⟩ := step.push_lock mine
  refine exclusive.step (a := .inr k) (fun b other => ?_) ?_
  · cases b with
    | inl j => simp only [inside, threads j, view]
    | inr l =>
      have different : l ≠ k := by rintro rfl; exact other rfl
      simp only [inside, Function.update_of_ne different]
  · rcases lock with ⟨mutex, same⟩ | ⟨free, mutex, enters⟩ | ⟨was, mutex, leaves⟩
    · exact Or.inl ⟨mutex, by simp only [inside, Function.update_self, same, view]⟩
    · exact Or.inr (Or.inl ⟨free, mutex, by simpa [inside] using enters⟩)
    · exact Or.inr (Or.inr ⟨was, mutex, by simp [inside, leaves]⟩)

end Exclusion

/-- The steps one by one, each as one of the pool. -/
theorem step_spec {act : CallerAct n m} (run : step act s = some s') :
    (∃ i poolAct pool, (poolAct = .thread i ∨ poolAct = .wake i) ∧
        ThreadPool.PoolStep s.pool poolAct pool ∧ s' = { s with pool := pool }) ∨
      ∃ k poolAct pool, (poolAct = .push ∨ ∃ connid len, poolAct = .parse connid len) ∧
        ThreadPool.PoolStep (s.view k) poolAct pool ∧
        s' = ⟨{ pool with push := s.pool.push }, Function.update s.caller k pool.push⟩ := by
  cases act with
  | thread i =>
    obtain ⟨pool, stepped, rfl⟩ := Option.map_eq_some_iff.mp run
    exact Or.inl ⟨i, _, pool, Or.inl rfl, ThreadPool.step_spec stepped, rfl⟩
  | wake i =>
    obtain ⟨pool, stepped, rfl⟩ := Option.map_eq_some_iff.mp run
    exact Or.inl ⟨i, _, pool, Or.inr rfl, ThreadPool.step_spec stepped, rfl⟩
  | parse k connid len =>
    obtain ⟨pool, stepped, rfl⟩ := Option.map_eq_some_iff.mp run
    exact Or.inr ⟨k, _, pool, Or.inr ⟨connid, len, rfl⟩, ThreadPool.step_spec stepped, rfl⟩
  | push k =>
    obtain ⟨pool, stepped, rfl⟩ := Option.map_eq_some_iff.mp run
    exact Or.inr ⟨k, _, pool, Or.inl rfl, ThreadPool.step_spec stepped, rfl⟩

theorem exclusive_reach {guard : CallerAct n m → PoolCallers n m → Prop} (reach : Reach step guard init s) :
    Exclusive s := by
  refine reach.invariant ⟨none, fun a => ?_, rfl⟩ fun act old new exclusive _ run => ?_
  · cases a <;> simp [inside, init, ThreadPool.init, ThreadPc.locked, PushPc.locked]
  · rcases step_spec run with ⟨i, poolAct, pool, mine, step, rfl⟩ | ⟨k, poolAct, pool, mine, step, rfl⟩
    · exact exclusive.step_thread step mine
    · exact exclusive.step_caller step mine

end PoolCallers

end SvrNet

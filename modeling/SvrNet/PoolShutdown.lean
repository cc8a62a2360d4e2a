import SvrNet.PoolDrain
import Mathlib.Algebra.Order.BigOperators.Group.Finset

namespace SvrNet
open StepSystem

/-- The steps of `_threadpool_cancel_all` up to its last join, with those that its broadcast gives to
the `n` threads. -/
def CancelPc.rank (n : Nat) : CancelPc → Nat
  | .post => 7 * n + 7
  | .lock => 7 * n + 6
  | .broadcast => 7 * n + 5
  | .clear => n + 4
  | .uninit => n + 3
  | .setNull => n + 2
  | .unlock => n + 1
  | .join i => n - i
  | .crashed => 0

namespace ThreadPool

variable {n : Nat} {s s' : ThreadPool n}

/-- The shutdown begins between two pushes, nothing is pushed behind it, and no thread misses the
token. -/
def orderlyExit : PoolAct n → ThreadPool n → Prop
  | .parse _ _, s | .push, s => s.cancel = .post
  | .cancel, s => exitSeen .cancel s ∧ (s.cancel = .post → s.push = .parse)
  | act, s => exitSeen act s

instance : ∀ (act : PoolAct n) (s : ThreadPool n), Decidable (orderlyExit act s)
  | .parse _ _, s | .push, s => inferInstanceAs (Decidable (s.cancel = .post))
  | .cancel, s => inferInstanceAs (Decidable (exitSeen .cancel s ∧ (s.cancel = .post → s.push = .parse)))
  | .thread i, s => inferInstanceAs (Decidable (exitSeen (.thread i) s))
  | .wake i, s => inferInstanceAs (Decidable (exitSeen (.wake i) s))

theorem exitSeen_of_orderlyExit {act : PoolAct n} (allowed : orderlyExit act s) : exitSeen act s := by
  cases act with
  | cancel => exact allowed.1
  | parse | push => trivial
  | thread | wake => exact allowed

section Ending

/-- What the shutdown finds: nobody pushes, its assertion on the length of an item holds, and it joins
no more threads than there are. -/
structure EndInv (s : ThreadPool n) : Prop where
  push : s.cancel ≠ .post → s.push = .parse
  sized : ∀ node ∈ s.queue.nodes, node.datalen = threadParamSize
  sound : s.cancel ≠ .crashed
  joins : ∀ i, s.cancel = .join i → i ≤ n

/-- Clearing the queue passes the assertions. -/
theorem EndInv.clear_sound (inv : EndInv s) (items : ItemInv s) (pointer : QueueInv s) (at_ : s.cancel = .clear)
    (run : s.cancelStep = some s') : s'.cancel ≠ .crashed := by
  obtain ⟨queue, live⟩ := pointer.mpr (by rw [at_]; rfl)
  simp only [cancelStep, at_, live] at run
  split at run
  · rename_i none
    rw [clearNext_eq_none] at none
    simp only [easyQueueSize_eq, none] at run
    cases run
    simp
  · rename_i node later next
    have member : node ∈ s.queue.nodes := by
      rw [live]
      simp [nodes_of_clearNext next]
    obtain ⟨_, released⟩ := items.queued node member
    have fits : node.datalen = threadParamSize ∧ node.data.afterProc.isSome := ⟨inv.sized node member, by rw [released]; rfl⟩
    rw [if_pos fits] at run
    cases run
    simp [threadCompleted, at_]

theorem EndInv.step {act : PoolAct n} (inv : EndInv s) (items : ItemInv s) (pointer : QueueInv s)
    (allowed : orderlyExit act s) (run : step act s = some s') : EndInv s' := by
  cases step_spec run with
  | @pop _ queue _ _ later _ live popped =>
    refine ⟨inv.push, fun node member => inv.sized node ?_, inv.sound, inv.joins⟩
    rw [live, QueuePtr.nodes_live, nodes_of_pop popped]
    exact List.mem_cons_of_mem _ member
  | @push work queue _ live =>
    refine ⟨fun begun => absurd allowed begun, fun node member => ?_, inv.sound, inv.joins⟩
    rcases List.mem_append.mp member with old | new
    · exact inv.sized node (by rw [live]; exact old)
    · rw [List.mem_singleton.mp new]
  | parse | malloc | pushLock | sizeFull | size | pushGone | broadcast | pushUnlock | unlockFull | free =>
    exact ⟨fun begun => absurd allowed begun, inv.sized, inv.sound, inv.joins⟩
  | cancelPost at_ => exact ⟨fun _ => allowed.2 at_, inv.sized, by simp, by simp⟩
  | cancelLock at_ | cancelBroadcast at_ | clearEnd at_ =>
    exact ⟨fun _ => inv.push (by simp [at_]), inv.sized, by simp, by simp⟩
  | @clear queue later element at_ live next =>
    refine ⟨fun _ => inv.push (by simp [at_]), fun node member => inv.sized node ?_, inv.sound, inv.joins⟩
    rw [live, QueuePtr.nodes_live, nodes_of_clearNext next]
    exact List.mem_append_left _ member
  | clearFail at_ => exact absurd rfl (inv.clear_sound items pointer at_ run)
  | uninit at_ | setNull at_ =>
    exact ⟨fun _ => inv.push (by simp [at_]), fun node member => by simp at member, by simp, by simp⟩
  | cancelUnlock at_ =>
    exact ⟨fun _ => inv.push (by simp [at_]), inv.sized, by simp, fun i first => by cases first; exact Nat.zero_le n⟩
  | @join i started at_ =>
    exact ⟨fun _ => inv.push (by simp [at_]), inv.sized, by simp, fun j next => by cases next; exact started⟩
  | _ => exact ⟨inv.push, inv.sized, inv.sound, inv.joins⟩

theorem lateInv_reach {queue : EasyQueue ThreadParam} (reach : Reach step exitSeen (init queue) s) :
    TokenInv s ∧ LateInv s := by
  have token : ∀ s : ThreadPool n, Reach step exitSeen (init queue) s → TokenInv s := fun _ reach =>
    reach.invariant (fun begun => absurd rfl begun) fun _ _ _ inv _ run => inv.step (step_spec run)
  refine ⟨token s reach, reach.invariant_of (K := fun s => (Guards s.mutex s.inside ∧ QueueInv s) ∧ TokenInv s)
    (fun _ reach => ⟨⟨mutex_reach reach, queueInv_reach reach⟩, token _ reach⟩)
    ⟨fun _ => by simp [init], fun entered => by simp [init, CancelPc.entered] at entered⟩
    fun _ _ _ known _ inv seen run => inv.step known.1.1 known.1.2 known.2 seen (step_spec run)⟩

/-- What is known once the shutdown has begun. -/
structure Ending (s : ThreadPool n) : Prop where
  reach : Reach step orderlyExit (init easyQueueInit) s
  begun : s.cancel ≠ .post

theorem endInv_reach (reach : Reach step orderlyExit (init easyQueueInit) s) : EndInv s :=
  reach.invariant_of (K := Known) (fun _ reach => known_reach reach)
    ⟨fun begun => absurd rfl begun, by simp [init], by simp [init], by simp [init]⟩
    fun _ _ _ known _ inv allowed run => inv.step known.items known.pointer allowed run

end Ending

section Rank

/-- The steps that the threads and the shutdown have left. -/
def endLeft (s : ThreadPool n) : Nat := s.workLeft + s.cancel.rank n

theorem rank_broadcast (thread : Fin n → ThreadPc) :
    ∑ i, (broadcast thread i).rank ≤ ∑ i, (thread i).rank + 6 * n := by
  have each : ∀ i ∈ Finset.univ, (broadcast thread i).rank ≤ (thread i).rank + 6 := by
    intro i _
    unfold broadcast
    split
    · rename_i waits
      simp [waits, ThreadPc.rank]
    · exact Nat.le_add_right ..
  refine (Finset.sum_le_sum each).trans ?_
  rw [Finset.sum_add_distrib, Finset.sum_const, Finset.card_univ, Fintype.card_fin, smul_eq_mul, Nat.mul_comm]

/-- Every step of the shutdown takes it further. -/
theorem cancel_falls (step : PoolStep s .cancel s') : s'.endLeft < s.endLeft := by
  unfold endLeft workLeft
  cases step with
  | cancelBroadcast at_ =>
    have woken := rank_broadcast s.thread
    simp only [at_, CancelPc.rank]
    omega
  | clear at_ live next =>
    simp only [at_, live, QueuePtr.nodes_live, nodes_of_clearNext next, List.length_append, List.length_singleton]
    omega
  | uninit at_ | setNull at_ =>
    simp only [at_, CancelPc.rank, QueuePtr.nodes_freed, QueuePtr.nodes_null, List.length_nil]
    omega
  | @join i started at_ =>
    simp only [at_, CancelPc.rank]
    omega
  | cancelPost at_ | cancelLock at_ | clearFail at_ | clearEnd at_ | cancelUnlock at_ =>
    simp only [at_, CancelPc.rank]
    omega

end Rank

section Completion

/-- The steps that the threads and the shutdown itself take. -/
def winding : PoolAct n → ThreadPool n → Prop
  | .thread i, s => orderlyExit (.thread i) s
  | .cancel, s => orderlyExit .cancel s
  | _, _ => False

instance : ∀ (act : PoolAct n) (s : ThreadPool n), Decidable (winding act s)
  | .thread i, s => inferInstanceAs (Decidable (orderlyExit (.thread i) s))
  | .cancel, s => inferInstanceAs (Decidable (orderlyExit .cancel s))
  | .wake _, _ | .parse _ _, _ | .push, _ => inferInstanceAs (Decidable False)

/-- Neither a thread nor the shutdown can go on. -/
def Stuck (s : ThreadPool n) : Prop := ∀ act, winding act s → step act s = none

theorem winding_step {act : PoolAct n} (ending : Ending s) (run : guarded step winding act s = some s') :
    Ending s' ∧ s'.endLeft < s.endLeft := by
  unfold guarded at run
  split at run
  · rename_i winds
    cases act with
    | thread i =>
      have allowed : orderlyExit (.thread i) s := winds
      have step := threadStep_spec run
      have cancel : s'.cancel = s.cancel := by cases step <;> rfl
      refine ⟨⟨ending.reach.next allowed run, cancel ▸ ending.begun⟩, ?_⟩
      unfold endLeft
      rw [cancel]
      exact Nat.add_lt_add_right (thread_falls step) _
    | cancel =>
      have allowed : orderlyExit .cancel s := winds
      have step := cancelStep_spec run
      refine ⟨⟨ending.reach.next allowed run, ?_⟩, cancel_falls step⟩
      cases step with
      | clear at_ => simp [at_]
      | _ => simp
    | _ => exact absurd winds id
  · cases run

/-- Whoever has the mutex can go on. -/
theorem Stuck.mutex_free (stuck : Stuck s) (known : Known s) (late : LateInv s) (inv : EndInv s)
    (begun : s.cancel ≠ .post) : s.mutex = none := by
  cases mutex : s.mutex with
  | none => rfl
  | some owner =>
    have inside := (known.guards owner).mpr mutex
    cases owner with
    | thread i =>
      have inside : (s.thread i).locked = true := inside
      have allowed : s.thread i ≠ .trywait → s.threadStep i = none := fun elsewhere =>
        stuck (.thread i) fun at_ => absurd at_ elsewhere
      unfold threadStep at allowed
      cases at_ : s.thread i with
      | pop =>
        have here := allowed (by simp [at_])
        simp only [at_] at here
        split at here
        · split at here <;> cases here
        · cases here
      | crashed => exact absurd at_ (late.sound i)
      | condWait | unlockEmpty | unlock => simp [at_] at allowed
      | _ => simp [at_, ThreadPc.locked] at inside
    | push =>
      have inside : s.push.locked = true := inside
      simp [inv.push begun, PushPc.locked] at inside
    | cancel =>
      have inside : s.cancel.locked = true := inside
      have allowed : s.cancel ≠ .lock → s.cancelStep = none := fun elsewhere =>
        stuck .cancel ⟨fun at_ => absurd at_ elsewhere, fun at_ => absurd at_ begun⟩
      cases at_ : s.cancel with
      | clear =>
        obtain ⟨queue, live⟩ := known.pointer.mpr (by rw [at_]; rfl)
        have here := allowed (by simp [at_])
        simp only [cancelStep, at_, live] at here
        split at here
        · cases here
        · split at here <;> cases here
      | crashed => exact absurd at_ inv.sound
      | broadcast | uninit | setNull | unlock => simp [cancelStep, at_] at allowed
      | _ => simp [at_, CancelPc.locked] at inside

/-- With the mutex free, a thread that cannot go on has exited or waits. -/
theorem Stuck.exited (stuck : Stuck s) (late : LateInv s) (free : s.mutex = none) (i : Fin n) :
    s.thread i = .exited ∨ s.thread i = .waiting := by
  have goes : ∀ j, s.thread j ≠ .trywait → s.threadStep j = none := fun j elsewhere =>
    stuck (.thread j) fun at_ => absurd at_ elsewhere
  have nobody : ∀ j, s.thread j ≠ .post := fun j at_ => by
    have here := goes j (by simp [at_])
    simp [threadStep, at_] at here
  cases at_ : s.thread i with
  | exited => exact Or.inl rfl
  | waiting => exact Or.inr rfl
  | crashed => exact absurd at_ (late.sound i)
  | trywait =>
    have here : s.threadStep i = none := stuck (.thread i) fun _ _ => nobody
    simp only [threadStep, at_] at here
    split at here <;> cases here
  | pop =>
    have here := goes i (by simp [at_])
    simp only [threadStep, at_] at here
    split at here
    · split at here <;> cases here
    · cases here
  | proc element | afterProc element =>
    have here := goes i (by simp [at_])
    simp only [threadStep, at_] at here
    split at here <;> cases here
  | _ =>
    have here := goes i (by simp [at_])
    simp [threadStep, at_, free] at here

/-- The shutdown is over: it has joined all threads, and every packet was released. -/
structure ShutDown (s : ThreadPool n) : Prop where
  joined : s.cancel = .join n
  exited : ∀ i, s.thread i = .exited
  released : ∀ packet ∈ s.parsed, s.completed.count packet = 1

theorem shutDown_of_stuck (ending : Ending s) (stuck : Stuck s) : s.ShutDown := by
  obtain ⟨reach, begun⟩ := ending
  have seen : Reach step exitSeen (init easyQueueInit) s := reach.mono fun _ _ => exitSeen_of_orderlyExit
  have known := known_reach reach
  obtain ⟨_, late⟩ := lateInv_reach seen
  have inv := endInv_reach reach
  have free := stuck.mutex_free known late inv begun
  have joining : ∃ i, s.cancel = .join i := by
    cases at_ : s.cancel with
    | join i => exact ⟨i, rfl⟩
    | post => exact absurd at_ begun
    | lock =>
      have unlocked : ∀ i, s.thread i ≠ .lock := fun i here => by
        rcases stuck.exited late free i with exited | waits
        · simp [exited] at here
        · simp [waits] at here
      have here : s.cancelStep = none := stuck .cancel ⟨fun _ => unlocked, fun post => absurd post begun⟩
      simp [cancelStep, at_, free] at here
    | _ =>
      have held := (known.guards .cancel).mp (show s.cancel.locked = true by rw [at_]; rfl)
      rw [free] at held
      cases held
  obtain ⟨i, at_⟩ := joining
  have exited : ∀ j, s.thread j = .exited := fun j => by
    rcases stuck.exited late free j with exited | waits
    · exact exited
    · exact absurd waits (awakeInv_reach reach (by rw [at_]; rfl) j).1
  have last : ¬ i < n := fun started => by
    have here : s.cancelStep = none := stuck .cancel
      ⟨fun lock => by simp [at_] at lock, fun post => absurd post begun⟩
    simp [cancelStep, at_, started, exited] at here
  refine ⟨?_, exited, fun packet parsed => ?_⟩
  · rw [at_, Nat.le_antisymm (inv.joins i at_) (Nat.not_lt.mp last)]
  · have kept := board_kept reach
    obtain ⟨place, here, _⟩ := kept.place parsed
    cases place with
    | offered =>
      have here : s.push.packet = some packet := here
      simp [inv.push begun, PushPc.packet] at here
    | waiting =>
      have here : packet ∈ s.queue.packets := here
      simp [QueuePtr.packets, known.nodes_gone (by rw [at_]; rfl)] at here
    | hand j => simp [JobBoard.At, board, exited j, ThreadPc.hand, Hand.job] at here
    | finished => exact List.count_eq_one_of_mem kept.finishesOnce here

/-- Once it has begun, the shutdown comes to its end in whatever order the threads run, when no thread
misses the token: all threads have exited and were joined, and every packet was released once. -/
theorem shutdown_completes (reach : Reach step orderlyExit (init easyQueueInit) s) (begun : s.cancel ≠ .post)
    {acts : List (PoolAct n)} (run : exec (guarded step winding) acts s = some s') :
    acts.length ≤ s.endLeft ∧ (s'.Stuck → s'.ShutDown) := by
  obtain ⟨ending, bound⟩ := exec_ranked endLeft (fun _ _ _ => winding_step) ⟨reach, begun⟩ run
  exact ⟨by omega, shutDown_of_stuck ending⟩

/-- One thread works and the other one waits when the shutdown begins, with a packet in the queue. -/
def lateShutdown (i j : Fin n) : List (PoolAct n) :=
  [.thread j, .thread j, .thread j, .thread j, .parse 7 10, .push, .push, .push, .push, .push, .push,
    .thread i, .thread i, .thread i, .thread i, .parse 8 12, .push, .push, .push, .push, .push, .push, .cancel]

/-- The rest of it: the packet in the queue is cancelled, and both threads exit. -/
def lateEnd (i j : Fin n) : List (PoolAct n) :=
  List.replicate 7 .cancel ++ List.replicate 4 (.thread i) ++ List.replicate 4 (.thread j) ++ List.replicate 2 .cancel

theorem shutdown_completes_late : ∃ s s' : ThreadPool 2,
    exec (guarded step orderlyExit) (lateShutdown 0 1) (init easyQueueInit) = some s ∧
      exec (guarded step winding) (lateEnd 0 1) s = some s' ∧ (s'.cancelled.length = 1 ∧ s'.cancel = .join 2) ∧
      (lateEnd 0 1 : List (PoolAct 2)).length ≤ s.endLeft ∧ (s'.Stuck → s'.ShutDown) := by
  have ends : ∃ s : ThreadPool 2, exec (guarded step orderlyExit) (lateShutdown 0 1) (init easyQueueInit) = some s ∧
      s.cancel ≠ .post ∧ (exec (guarded step winding) (lateEnd 0 1) s).any
        (fun s' => decide (s'.cancelled.length = 1 ∧ s'.cancel = .join 2)) = true := exec_ends (by decide +kernel)
  obtain ⟨s, first, begun, rest⟩ := ends
  obtain ⟨s', run, cancelled⟩ := exec_ends rest
  exact ⟨s, s', first, run, cancelled, shutdown_completes (reach_of_exec_guarded first) begun run⟩

end Completion

end ThreadPool

end SvrNet

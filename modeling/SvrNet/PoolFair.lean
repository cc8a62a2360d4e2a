import SvrNet.PoolDrain
import SvrNet.Shutdown
import SvrNet.Trace

namespace SvrNet
open StepSystem Trace

namespace ThreadPool

variable {n : Nat} {s s' : ThreadPool n} {act : PoolAct n}

section Frames

/-- A thread that does not wait moves by its own steps only. -/
theorem PoolStep.thread_kept (step : PoolStep s act s') {i : Fin n} (other : act ≠ .thread i)
    (awake : s.thread i ≠ .waiting) : s'.thread i = s.thread i := by
  cases step with
  | @wake j at_ =>
    have different : i ≠ j := by
      rintro rfl
      exact awake at_
    exact Function.update_of_ne different ..
  | @tokenMissing j | @tokenTaken j | @post j | @lock j | @popFail j | @pop j | @popGone j | @condWait j | @woken j
  | @unlockEmpty j | @unlock j | @proc j | @procNull j | @afterProc j | @afterProcNull j =>
    have different : i ≠ j := by
      rintro rfl
      exact other rfl
    exact Function.update_of_ne different ..
  | broadcast | cancelBroadcast => exact broadcast_eq_of_ne awake
  | _ => rfl

/-- The loop thread moves by its own steps only, while it has a packet to push. -/
theorem PoolStep.push_kept (step : PoolStep s act s') (other : act ≠ .push) (busy : s.push ≠ .parse) :
    s'.push = s.push := by
  cases step with
  | parse at_ => exact absurd at_ busy
  | malloc | pushLock | sizeFull | size | pushGone | push | broadcast | pushUnlock | unlockFull | free =>
    exact absurd rfl other
  | _ => rfl

/-- What a step does to the queue: a thread takes the first item, or the loop thread adds its own. -/
theorem PoolStep.packets_next (step : PoolStep s act s') (early : act ≠ .cancel) :
    s'.queue.packets = s.queue.packets ∨
    (∃ i item, act = .thread i ∧ s'.thread i = .unlock item ∧
      s.queue.packets = item.data.packet :: s'.queue.packets) ∨
    ∃ work, act = .push ∧ s.push = .push work ∧ s'.queue.packets = s.queue.packets ++ [work.packet] := by
  cases step with
  | @pop i queue item datalen later _ pointer popped =>
    refine Or.inr (Or.inl ⟨i, item, rfl, Function.update_self .., ?_⟩)
    simp [QueuePtr.packets, pointer, nodes_of_pop popped]
  | @push work queue at_ pointer =>
    refine Or.inr (Or.inr ⟨work, rfl, at_, ?_⟩)
    simp [QueuePtr.packets, pointer]
  | cancelPost | cancelLock | cancelBroadcast | clear | clearFail | clearEnd | uninit | setNull | cancelUnlock | join =>
    exact absurd rfl early
  | _ => exact Or.inl rfl

/-- The loop thread keeps its packet until the packet is in the queue. -/
theorem PoolStep.packet_next (step : PoolStep s act s') {packet : Packet} (offered : s.push.packet = some packet) :
    s'.push.packet = some packet ∨ s'.queue.packets = s.queue.packets ++ [packet] := by
  cases step with
  | parse at_ | broadcast at_ | pushUnlock at_ =>
    rw [at_] at offered
    cases offered
  | malloc at_ | pushLock at_ | sizeFull at_ | size at_ | unlockFull at_ | free at_ =>
    rw [at_] at offered
    exact Or.inl offered
  | pushGone at_ =>
    left
    rcases at_ with at_ | at_
    · rw [at_] at offered
      exact offered
    · rw [at_] at offered
      exact offered
  | @push work queue at_ pointer =>
    rw [at_] at offered
    cases offered
    right
    simp [QueuePtr.packets, pointer]
  | _ => exact Or.inl offered

end Frames

section Progress

/-- The pool before its shutdown. -/
abbrev Running (s : ThreadPool n) : Prop := Reach ThreadPool.step beforeShutdown (init easyQueueInit) s

/-- Nothing but `Q` puts an end to `P`. -/
def Unless (P Q : ThreadPool n → Prop) : Prop :=
  ∀ act before after, Running before → P before → act ≠ .cancel → PoolStep before act after → P after ∨ Q after

theorem EarlyInv.thread_enabled (inv : EarlyInv s) {i : Fin n} (free : s.mutex = none) (awake : s.thread i ≠ .waiting) :
    Enabled ThreadPool.step beforeShutdown (.thread i) s := by
  refine ⟨nofun, Option.isSome_iff_ne_none.mpr fun stuck => ?_⟩
  exact awake (inv.waiting free stuck)

theorem EarlyInv.thread_inside (inv : EarlyInv s) {i : Fin n} (inside : (s.thread i).locked = true) :
    Enabled ThreadPool.step beforeShutdown (.thread i) s := by
  refine ⟨nofun, Option.isSome_iff_ne_none.mpr fun stuck => ?_⟩
  exact inv.not_stuck inside stuck

theorem EarlyInv.push_enabled (inv : EarlyInv s) (pointer : QueueInv s) (busy : s.push ≠ .parse)
    (able : s.mutex = none ∨ s.push.locked = true) : Enabled ThreadPool.step beforeShutdown .push s := by
  refine ⟨nofun, Option.isSome_iff_ne_none.mpr fun stuck => ?_⟩
  rcases inv.push_goes pointer stuck with at_ | ⟨outside, taken⟩
  · exact busy at_
  · rcases able with free | inside
    · exact taken free
    · simp [outside] at inside

variable {trace : Trace (ThreadPool.step (n := n)) beforeShutdown (init easyQueueInit)} {P Q : ThreadPool n → Prop}

/-- How many steps the thread is away from the end of its critical section. -/
def inThread : ThreadPc → Nat
  | .pop => 2
  | .condWait | .unlockEmpty | .unlock _ => 1
  | _ => 0

/-- A thread in its critical section leaves it. -/
theorem thread_leaves {i : Fin n} (fair : trace.Fair (.thread i)) :
    trace.LeadsTo (fun s => (s.thread i).locked = true) fun s => s.mutex = none := by
  refine LeadsTo.ranked (fun s => inThread (s.thread i)) fun r => ?_
  refine fair.leadsTo (R := fun _ => True) ?_ ?_ (LeadsTo.of_imp fun _ _ => trivial) ?_
  · intro other before after reach holds early run different
    obtain ⟨inside, rank⟩ := holds
    have kept := (step_spec run).thread_kept different fun waits => by simp [waits, ThreadPc.locked] at inside
    left
    rw [kept]
    exact ⟨inside, rank⟩
  · intro before after reach holds run
    obtain ⟨inside, rank⟩ := holds
    cases step_spec run with
    | popFail at_ | pop at_ =>
      rw [← rank, at_]
      simp [inThread, ThreadPc.locked]
    | popGone at_ gone =>
      obtain ⟨queue, live⟩ := (earlyInv_reach reach).live (known_reach reach).pointer
      exact absurd live (gone queue)
    | condWait | unlockEmpty | unlock => exact Or.inl rfl
    | tokenMissing at_ | tokenTaken at_ | post at_ | lock at_ | woken at_ | proc at_ | procNull at_ | afterProc at_
    | afterProcNull at_ =>
      simp [at_, ThreadPc.locked] at inside
  · exact fun state reach holds _ => (earlyInv_reach reach).thread_inside holds.1

def inPush : PushPc → Nat
  | .size _ => 4
  | .push _ => 3
  | .broadcast => 2
  | .unlock | .unlockFull _ => 1
  | _ => 0

/-- The loop thread leaves its critical section. -/
theorem push_leaves (fair : trace.Fair .push) :
    trace.LeadsTo (fun s => s.push.locked = true) fun s => s.mutex = none := by
  refine LeadsTo.ranked (fun s => inPush s.push) fun r => ?_
  refine fair.leadsTo (R := fun _ => True) ?_ ?_ (LeadsTo.of_imp fun _ _ => trivial) ?_
  · intro other before after reach holds early run different
    obtain ⟨inside, rank⟩ := holds
    have kept := (step_spec run).push_kept different fun idle => by simp [idle, PushPc.locked] at inside
    left
    rw [kept]
    exact ⟨inside, rank⟩
  · intro before after reach holds run
    obtain ⟨inside, rank⟩ := holds
    obtain ⟨queue, live⟩ := (earlyInv_reach reach).live (known_reach reach).pointer
    cases step_spec run with
    | sizeFull at_ | size at_ | push at_ | broadcast at_ =>
      rw [← rank, at_]
      simp [inPush, PushPc.locked]
    | pushGone _ gone => exact absurd live (gone queue)
    | pushUnlock | unlockFull => exact Or.inl rfl
    | malloc at_ | pushLock at_ | free at_ => simp [at_, PushPc.locked] at inside
  · intro state reach holds _
    refine (earlyInv_reach reach).push_enabled (known_reach reach).pointer (fun idle => ?_) (Or.inr holds.1)
    simp [idle, PushPc.locked] at holds

/-- Every thread that can take steps again and again takes them, and so does the loop thread. -/
structure FairPool (trace : Trace (ThreadPool.step (n := n)) beforeShutdown (init easyQueueInit)) : Prop where
  thread : ∀ i, trace.Fair (.thread i)
  push : trace.Fair .push

/-- The mutex is free again and again. -/
theorem FairPool.mutex_free (fair : FairPool trace) : trace.LeadsTo P fun s => s.mutex = none := by
  intro k _
  have inv := earlyInv_reach (trace.reach k)
  have guards := (known_reach (trace.reach k)).guards
  cases mutex : (trace.state k).mutex with
  | none => exact ⟨k, Nat.le_refl k, mutex⟩
  | some owner =>
    have inside := (guards owner).mpr mutex
    cases owner with
    | thread i => exact thread_leaves (fair.thread i) k inside
    | push => exact push_leaves fair.push k inside
    | cancel =>
      have inside : (trace.state k).cancel.locked = true := inside
      simp [inv.cancel, CancelPc.locked] at inside

/-- A thread that is awake comes to `easy_queue_pop`, when nothing puts an end to `P` before that. -/
theorem FairPool.thread_goes (fair : FairPool trace) (i : Fin n)
    (stays : Unless P Q)
    (awake : ∀ state, P state → state.thread i ≠ .waiting)
    (pops : ∀ before after, Running before → P before → before.thread i = .pop →
      PoolStep before (.thread i) after → Q after) : trace.LeadsTo P Q := by
  refine LeadsTo.ranked (fun s => (s.thread i).rank) fun r => ?_
  refine (fair.thread i).leadsTo ?_ ?_ fair.mutex_free ?_
  · intro other before after reach holds early run different
    obtain ⟨holds, rank⟩ := holds
    have step := step_spec run
    rcases stays other before after reach holds early step with here | done
    · left
      rw [step.thread_kept different (awake before holds)]
      exact ⟨here, rank⟩
    · exact Or.inr (Or.inl done)
  · intro before after reach holds run
    obtain ⟨holds, rank⟩ := holds
    have step := step_spec run
    rcases stays (.thread i) before after reach holds (by simp) step with here | done
    · cases step with
      | pop at_ => exact Or.inl (pops _ _ reach holds at_ (step_spec run))
      | tokenMissing at_ | tokenTaken at_ | post at_ | lock at_ | popFail at_ | popGone at_ | condWait at_ | woken at_
      | unlockEmpty at_ | unlock at_ | proc at_ | procNull at_ | afterProc at_ | afterProcNull at_ =>
        refine Or.inr ⟨here, ?_⟩
        simp only [at_, ThreadPc.rank, Function.update_self] at rank ⊢
        omega
    · exact Or.inl done
  · exact fun state reach holds free => (earlyInv_reach reach).thread_enabled free (awake state holds.1)

/-- The same for the loop thread, with the steps of its own that it has before it. -/
theorem FairPool.push_goes (fair : FairPool trace) (rank : PushPc → Nat)
    (stays : ∀ act before after, Running before → P before → act ≠ .cancel → act ≠ .push →
      PoolStep before act after → P after ∨ Q after)
    (busy : ∀ state, P state → state.push ≠ .parse)
    (falls : ∀ before after, Running before → P before → PoolStep before .push after →
      Q after ∨ P after ∧ rank after.push < rank before.push) :
    trace.LeadsTo P Q := by
  refine LeadsTo.ranked (fun s => rank s.push) fun r => ?_
  refine fair.push.leadsTo ?_ ?_ fair.mutex_free ?_
  · intro other before after reach holds early run different
    obtain ⟨holds, same⟩ := holds
    have step := step_spec run
    rcases stays other before after reach holds early different step with here | done
    · left
      rw [step.push_kept different (busy before holds)]
      exact ⟨here, same⟩
    · exact Or.inr (Or.inl done)
  · intro before after reach holds run
    obtain ⟨holds, same⟩ := holds
    rw [← same]
    exact falls before after reach holds (step_spec run)
  · exact fun state reach holds free =>
      (earlyInv_reach reach).push_enabled (known_reach reach).pointer (busy state holds.1) (Or.inl free)

end Progress

section Liveness

variable {trace : Trace (ThreadPool.step (n := n)) beforeShutdown (init easyQueueInit)} {P Q : ThreadPool n → Prop}
  {packet : Packet}

/-- Nobody goes to sleep while there is something in the queue. -/
theorem PoolStep.stays_awake (step : PoolStep s act s') (awake : ∀ i, s.thread i ≠ .waiting)
    (busy : ∀ i, s.thread i ≠ .condWait) (i : Fin n) : s'.thread i ≠ .waiting := by
  cases step with
  | @condWait j at_ => exact absurd at_ (busy j)
  | @wake j | @tokenMissing j | @tokenTaken j | @post j | @lock j | @popFail j | @pop j | @popGone j | @woken j
  | @unlockEmpty j | @unlock j | @proc j | @procNull j | @afterProc j | @afterProcNull j =>
    by_cases same : i = j
    · simp [same]
    · simpa [same] using awake i
  | broadcast | cancelBroadcast => exact broadcast_not_waiting s.thread i
  | _ => exact awake i

/-- A thread that comes to a queue with items takes the first one. -/
theorem pop_takes (running : Running s) (some : s.queue.packets ≠ []) {i : Fin n} (at_ : s.thread i = .pop)
    (step : PoolStep s (.thread i) s') :
    ∃ item, s'.thread i = .unlock item ∧ s.queue.packets = item.data.packet :: s'.queue.packets := by
  cases step with
  | @pop _ queue item _ later _ pointer popped =>
    refine ⟨item, Function.update_self .., ?_⟩
    simp [QueuePtr.packets, pointer, nodes_of_pop popped]
  | popFail _ pointer failed =>
    have empty : s.queue.nodes = [] := (PoolCallers.awakeInv_reach (alone_reach running)).popFail pointer failed
    exact absurd (by rw [QueuePtr.packets, empty, List.map_nil]) some
  | popGone _ gone =>
    obtain ⟨queue, live⟩ := (earlyInv_reach running).live (known_reach running).pointer
    exact absurd live (gone queue)
  | tokenMissing at_' | tokenTaken at_' | post at_' | lock at_' | condWait at_' | woken at_' | unlockEmpty at_'
  | unlock at_' | proc at_' | procNull at_' | afterProc at_' | afterProcNull at_' =>
    simp [at_] at at_'

/-- While there is something in the queue, some thread comes and takes the first item: those that wait
are woken before, by the one who pushed it. -/
theorem FairPool.dequeues (fair : FairPool trace) (threads : 0 < n) (some : ∀ state, P state → state.queue.packets ≠ [])
    (stays : Unless P Q)
    (pops : ∀ i item before after, P before → PoolStep before (.thread i) after → after.thread i = .unlock item →
      before.queue.packets = item.data.packet :: after.queue.packets → Q after) : trace.LeadsTo P Q := by
  have awakeInv : ∀ state : ThreadPool n, Running state → PoolCallers.AwakeInv state.alone :=
    fun state reach => PoolCallers.awakeInv_reach (alone_reach reach)
  have filled : ∀ state, P state → state.queue.nodes ≠ [] := by
    intro state holds empty
    exact some state holds (by rw [QueuePtr.packets, empty, List.map_nil])
  have wakes : trace.LeadsTo (fun state => P state ∧ state.push = .broadcast)
      fun state => Q state ∨ P state ∧ ∀ i, state.thread i ≠ .waiting := by
    refine fair.push_goes (fun _ => 0) ?_ (fun state holds => by simp [holds.2]) ?_
    · intro act before after reach holds early different step
      obtain ⟨holds, at_⟩ := holds
      rcases stays act before after reach holds early step with here | done
      · left
        rw [step.push_kept different (by simp [at_])]
        exact ⟨here, at_⟩
      · exact Or.inr (Or.inl done)
    · intro before after reach holds step
      obtain ⟨holds, at_⟩ := holds
      rcases stays .push before after reach holds (by simp) step with here | done
      · left
        right
        refine ⟨here, fun i => ?_⟩
        cases step with
        | broadcast => exact broadcast_not_waiting before.thread i
        | malloc at_' | pushLock at_' | sizeFull at_' | size at_' | push at_' | pushUnlock at_' | unlockFull at_'
        | free at_' => simp [at_] at at_'
        | pushGone at_' => simp [at_] at at_'
      · exact Or.inl (Or.inl done)
  have takes : trace.LeadsTo (fun state => P state ∧ ∀ i, state.thread i ≠ .waiting) Q := by
    refine fair.thread_goes ⟨0, threads⟩ ?_ (fun state holds => holds.2 _) fun before after reach holds at_ step => ?_
    · intro act before after reach holds early step
      obtain ⟨holds, awake⟩ := holds
      rcases stays act before after reach holds early step with here | done
      · exact Or.inl ⟨here, step.stays_awake awake fun i at_ =>
          filled before holds ((awakeInv before reach).condWait i at_)⟩
      · exact Or.inr done
    · obtain ⟨item, takes, packets⟩ := pop_takes reach (some before holds.1) at_ step
      exact pops _ item before after holds.1 step takes packets
  intro k holds
  by_cases awake : ∀ i, (trace.state k).thread i ≠ .waiting
  · exact takes k ⟨holds, awake⟩
  · obtain ⟨i, waits⟩ := not_forall_not.mp awake
    rcases (awakeInv _ (trace.reach k)).waiting i waits with empty | ⟨_, announces⟩
    · have empty : (trace.state k).queue.nodes = [] := empty
      exact absurd empty (filled _ holds)
    · exact (wakes.resolve takes) k ⟨holds, announces⟩

theorem idxOf_of_taken {packets later : List Packet} {first : Packet} (member : packet ∈ packets)
    (taken : packets = first :: later) :
    first = packet ∨ packet ∈ later ∧ later.idxOf packet < packets.idxOf packet := by
  by_cases same : first = packet
  · exact Or.inl same
  · right
    rw [taken] at member ⊢
    rw [List.idxOf_cons_ne _ same]
    exact ⟨(List.mem_cons.mp member).resolve_left fun equal => same equal.symm, Nat.lt_succ_self _⟩

/-- An item of the queue comes to the front, and a thread takes it. -/
theorem FairPool.taken (fair : FairPool trace) (threads : 0 < n) :
    trace.LeadsTo (fun state => packet ∈ state.queue.packets)
      fun state => ∃ i, (state.thread i).hand.job = some packet := by
  refine LeadsTo.ranked (fun state => state.queue.packets.idxOf packet) fun r => ?_
  have takes : ∀ i item (before after : ThreadPool n),
      packet ∈ before.queue.packets ∧ before.queue.packets.idxOf packet = r → after.thread i = .unlock item →
      before.queue.packets = item.data.packet :: after.queue.packets →
      (∃ i, (after.thread i).hand.job = some packet) ∨
        packet ∈ after.queue.packets ∧ after.queue.packets.idxOf packet < r := by
    intro i item before after holds at_ packets
    obtain ⟨member, rank⟩ := holds
    rcases idxOf_of_taken member packets with same | behind
    · exact Or.inl ⟨i, by rw [at_, ← same]; rfl⟩
    · exact Or.inr ⟨behind.1, rank ▸ behind.2⟩
  refine fair.dequeues threads (fun state holds => List.ne_nil_of_mem holds.1) ?_
    fun i item before after holds _ => takes i item before after holds
  intro act before after reach holds early step
  rcases step.packets_next early with same | ⟨i, item, _, at_, packets⟩ | ⟨work, _, _, packets⟩
  · left
    dsimp only
    rw [same]
    exact holds
  · exact Or.inr (takes i item before after holds at_ packets)
  · left
    dsimp only
    rw [packets, List.idxOf_append, if_pos holds.1]
    exact ⟨List.mem_append_left _ holds.1, holds.2⟩

/-- What a thread has taken it runs and completes. -/
theorem FairPool.completed (fair : FairPool trace) {i : Fin n} :
    trace.LeadsTo (fun state => (state.thread i).hand.job = some packet) fun state => packet ∈ state.completed := by
  refine fair.thread_goes i ?_ (fun state holds waits => ?_) fun before after _ holds at_ => ?_
  · intro act before after reach holds early step
    by_cases own : act = .thread i
    · subst own
      cases step with
      | unlock at_ | proc at_ | procNull at_ =>
        left
        dsimp only
        rw [at_] at holds
        rw [Function.update_self]
        exact holds
      | afterProc at_ =>
        right
        rw [at_] at holds
        cases holds
        exact List.mem_append_right _ (List.mem_singleton.mpr rfl)
      | afterProcNull at_ none =>
        have present := ((known_reach reach).items.held i _ (by rw [at_]; rfl)).2
        simp [none] at present
      | tokenMissing at_ | tokenTaken at_ | post at_ | lock at_ | popFail at_ | pop at_ | popGone at_ | condWait at_
      | woken at_ | unlockEmpty at_ =>
        rw [at_] at holds
        cases holds
    · have kept := step.thread_kept own fun waits => by simp [waits, ThreadPc.hand, Hand.job] at holds
      left
      dsimp only
      rw [kept]
      exact holds
  · rw [waits] at holds
    cases holds
  · rw [at_] at holds
    cases holds

/-- The steps that the loop thread has before it has pushed its packet onto a queue with room. -/
def pushLeft : PushPc → Nat
  | .unlockFull _ => 6
  | .free _ => 5
  | .malloc _ => 4
  | .lock _ => 3
  | .size _ => 2
  | .push _ => 1
  | _ => 0

/-- The loop thread, which tries again as long as the pool is full, gets its packet into the queue. -/
theorem FairPool.accepted (fair : FairPool trace) (threads : 0 < n) :
    trace.LeadsTo (fun state => state.push.packet = some packet) fun state => packet ∈ state.queue.packets := by
  have accepts : ∀ before after : ThreadPool n, after.queue.packets = before.queue.packets ++ [packet] →
      packet ∈ after.queue.packets := by
    intro before after packets
    rw [packets]
    exact List.mem_append_right _ (List.mem_singleton.mpr rfl)
  -- as long as the packet is not accepted the queue gets shorter
  have drains : trace.LeadsTo (fun state => state.push.packet = some packet) fun state =>
      packet ∈ state.queue.packets ∨ state.push.packet = some packet ∧ state.queue.packets = [] := by
    refine LeadsTo.ranked (fun state => state.queue.packets.length) fun r => ?_
    cases r with
    | zero => exact LeadsTo.of_imp fun k holds => Or.inl (Or.inr ⟨holds.1, List.length_eq_zero_iff.mp holds.2⟩)
    | succ r =>
      have takes : ∀ act item (before after : ThreadPool n),
          before.push.packet = some packet ∧ before.queue.packets.length = r + 1 → PoolStep before act after →
          before.queue.packets = item :: after.queue.packets →
          (packet ∈ after.queue.packets ∨ after.push.packet = some packet ∧ after.queue.packets = []) ∨
            after.push.packet = some packet ∧ after.queue.packets.length < r + 1 := by
        intro act item before after holds step packets
        obtain ⟨offered, length⟩ := holds
        rw [packets, List.length_cons] at length
        rcases step.packet_next offered with still | done
        · exact Or.inr ⟨still, by omega⟩
        · exact Or.inl (Or.inl (accepts before after done))
      refine fair.dequeues threads (fun state holds empty => by simp [empty] at holds) ?_
        fun i item before after holds step _ packets => takes _ _ before after holds step packets
      intro act before after reach holds early step
      rcases step.packets_next early with same | ⟨i, item, _, _, packets⟩ | ⟨work, _, at_, packets⟩
      · rcases step.packet_next holds.1 with still | done
        · exact Or.inl ⟨still, by rw [same]; exact holds.2⟩
        · exact Or.inr (Or.inl (Or.inl (accepts before after done)))
      · exact Or.inr (takes _ _ before after holds step packets)
      · have offered := holds.1
        rw [at_] at offered
        cases offered
        exact Or.inr (Or.inl (Or.inl (accepts before after packets)))
  have pushes : trace.LeadsTo (fun state => state.push.packet = some packet ∧ state.queue.packets = [])
      fun state => packet ∈ state.queue.packets := by
    refine fair.push_goes pushLeft ?_ (fun state holds idle => by simp [idle, PushPc.packet] at holds) ?_
    · intro act before after reach holds early different step
      obtain ⟨offered, empty⟩ := holds
      rcases step.packets_next early with same | ⟨i, item, _, _, packets⟩ | ⟨work, own, _⟩
      · rcases step.packet_next offered with still | done
        · exact Or.inl ⟨still, same.trans empty⟩
        · exact Or.inr (accepts before after done)
      · simp [empty] at packets
      · exact absurd own different
    · intro before after reach holds step
      obtain ⟨offered, empty⟩ := holds
      rcases step.packet_next offered with still | done
      · right
        cases step with
        | malloc at_ | pushLock at_ | size at_ | unlockFull at_ | free at_ =>
          exact ⟨⟨still, empty⟩, by simp [at_, pushLeft]⟩
        | sizeFull at_ pointer full => simp [QueuePtr.packets, pointer] at empty; simp [empty] at full
        | push => cases still
        | pushGone _ gone =>
          obtain ⟨queue, live⟩ := (earlyInv_reach reach).live (known_reach reach).pointer
          exact absurd live (gone queue)
        | broadcast | pushUnlock => cases still
      · exact Or.inl (accepts before after done)
  exact drains.resolve pushes

/-- Starvation freedom. In every fair run of the pool each packet that was parsed is run by a thread and
completed, even when the pool is full when it is pushed, and in spite of all spurious wake-ups. -/
theorem every_packet_completes (threads : 0 < n) (fair : FairPool trace) {k : Nat}
    (parsed : packet ∈ (trace.state k).parsed) :
    ∃ m, k ≤ m ∧ packet ∈ (trace.state m).ran ∧ packet ∈ (trace.state m).completed := by
  have queued : trace.LeadsTo (fun state => packet ∈ state.queue.packets) fun state => packet ∈ state.completed :=
    (fair.taken threads).trans fun k taken => taken.elim fun i holds => fair.completed k holds
  obtain ⟨m, later, done⟩ : ∃ m, k ≤ m ∧ packet ∈ (trace.state m).completed := by
    obtain ⟨place, here, _⟩ := (board_kept (trace.reach k)).place parsed
    cases place with
    | offered => exact ((fair.accepted threads).trans queued) k here
    | waiting => exact queued k here
    | hand i => exact fair.completed k here
    | finished => exact ⟨k, Nat.le_refl k, here⟩
  exact ⟨m, later, ran_of_completed (trace.reach m) done, done⟩

/-- The loop thread fills the pool before its threads have started, is turned away with one more packet and
pushes it again once there is room; the threads take turns until all is done, with a spurious wake-up at the
end. -/
def fullRun (i j : Fin n) : List (PoolAct n) :=
  (List.replicate 65 (.parse 7 10 :: List.replicate 6 .push)).flatten ++ .parse 8 11 :: List.replicate 5 .push ++
    List.replicate 6 (.thread i) ++ List.replicate 6 .push ++
    (List.replicate 32 (List.replicate 6 (.thread j) ++ List.replicate 6 (.thread i))).flatten ++
    List.replicate 10 (.thread j) ++ List.replicate 4 (.thread i) ++ .wake i :: List.replicate 6 (.thread i)

theorem every_packet_completes_served : ∃ trace : Trace (ThreadPool.step (n := 2)) beforeShutdown (init easyQueueInit),
    FairPool trace ∧ (trace.state 461).queue.packets.length = 65 ∧ (trace.state 461).freed = [65] ∧
      ∃ m, 461 ≤ m ∧ ⟨65, 8, 11⟩ ∈ (trace.state m).ran ∧ ⟨65, 8, 11⟩ ∈ (trace.state m).completed := by
  have ends : ∃ s : ThreadPool 2, exec (guarded ThreadPool.step beforeShutdown) (fullRun 0 1) (init easyQueueInit) = some s ∧
      (∀ i, s.thread i = .waiting) ∧ s.push = .parse := exec_ends (by decide +kernel)
  have refused : ∃ s : ThreadPool 2,
      exec (guarded ThreadPool.step beforeShutdown) ((fullRun 0 1).take 461) (init easyQueueInit) = some s ∧
        s.queue.packets.length = 65 ∧ s.freed = [65] ∧ ⟨65, 8, 11⟩ ∈ s.parsed := exec_ends (by decide +kernel)
  obtain ⟨s, run, waiting, idle⟩ := ends
  obtain ⟨full, here, packets, freed, parsed⟩ := refused
  have fair : FairPool (ofExec run) :=
    { thread := fun i => ofExec_fair run fun able => by
        simp [Enabled, ThreadPool.step, threadStep, waiting i] at able
      push := ofExec_fair run fun able => by simp [Enabled, ThreadPool.step, pushStep, idle] at able }
  have state := ofExec_state run here
  refine ⟨ofExec run, fair, by rw [state]; exact packets, by rw [state]; exact freed, ?_⟩
  exact every_packet_completes (by decide) fair (by rw [state]; exact parsed)

end Liveness

end ThreadPool

end SvrNet

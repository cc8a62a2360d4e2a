import SvrNet.ServerTable

namespace SvrNet
open CData StepSystem

/-- The send queue has no entry for the connection. -/
def Unqueued {β : Type} (queue : SendQueue β) (id : ConnId) : Prop := ∀ entry ∈ queue, entry.1 ≠ id

instance {β : Type} (queue : SendQueue β) (id : ConnId) : Decidable (Unqueued queue id) :=
  inferInstanceAs (Decidable (∀ entry ∈ queue, entry.1 ≠ id))

/-- Responses are pushed for connections in the table, and a connection is removed from the table
when no response to it is queued. -/
def aliveOnly : ServerAct → Server → Prop
  | .respond i (some _), s => ∀ work ∈ (s.worker i).work, (s.net.conntable work.connid).isSome
  | .loop _, s => ∀ connid ∈ s.loop.dropping, Unqueued s.net.sendQueue connid
  | .send _, s => ∀ connid ∈ s.send.removing, Unqueued s.net.sendQueue connid
  | .listenRemove, s => ∀ connId ∈ s.listen.removing, Unqueued s.net.sendQueue connId
  | _, _ => True

instance : ∀ (act : ServerAct) (s : Server), Decidable (aliveOnly act s)
  | .respond _ (some _), _ => inferInstanceAs (Decidable (∀ work ∈ _, _))
  | .loop _, s => Option.decidableForallMem (p := Unqueued s.net.sendQueue) s.loop.dropping
  | .send _, s => Option.decidableForallMem (p := Unqueued s.net.sendQueue) s.send.removing
  | .listenRemove, s => Option.decidableForallMem (p := Unqueued s.net.sendQueue) s.listen.removing
  | .respond _ none, _ | .accept _, _ | .insert _, _ | .add _, _ | .wait _, _ | .dispatch, _ | .wake, _
  | .take _, _ | .signal _, _ => inferInstanceAs (Decidable True)

/-- One pass through the loop of `send_func` with no other thread in between. The longest one, in
which `EPOLL_CTL_MOD` fails, has five steps; a thread that blocks does not finish its pass. -/
def Server.sendPass (ok : Bool) : Nat → Server → Option Server
  | 0, _ => none
  | steps + 1, s =>
    match s.sendStep ok with
    | none => none
    | some s' => if s'.send = .front then some s' else s'.sendPass ok steps

/-- Whatever is queued is for a connection in the table. -/
def LiveQueue (s : Server) : Prop := ∀ entry ∈ s.net.sendQueue, (s.net.conntable entry.1).isSome

variable {s s' : Server} {ok : Bool}

theorem LiveQueue.remove (live : LiveQueue s) {id : ConnId} (unqueued : Unqueued s.net.sendQueue id)
    (queue : s'.net.sendQueue.Sublist s.net.sendQueue)
    (table : s'.net.conntable = connRemove s.net.conntable id) : LiveQueue s' := by
  intro entry member
  have before := queue.subset member
  rw [table, connRemove, Function.update_of_ne (unqueued entry before)]
  exact live entry before

theorem LiveQueue.shrink (live : LiveQueue s) (queue : s'.net.sendQueue.Sublist s.net.sendQueue)
    (table : s'.net.conntable = s.net.conntable) : LiveQueue s' := by
  intro entry member
  rw [table]
  exact live entry (queue.subset member)

theorem LiveQueue.step {act : ServerAct} (live : LiveQueue s) (alive : aliveOnly act s)
    (run : Server.step act s = some s') : LiveQueue s' := by
  cases Server.step_spec run with
  | @insert fd draws id =>
    intro entry member
    by_cases same : entry.1 = id
    · simp [same]
    · simpa [same] using live entry member
  | listenRemove at_ =>
    exact live.remove (alive _ (by rw [at_]; rfl)) (.refl _) rfl
  | loop _ step =>
    rcases step.conntable_next with same | ⟨connid, curfd, at_, _, removed⟩
    · exact live.shrink (by simpa using step.sendQueue_sublist) (by simpa using same)
    · exact live.remove (alive _ (by rw [at_]; rfl)) (by simpa using step.sendQueue_sublist) (by simpa using removed)
  | sendPurge => exact live.shrink (qSendRemoveAll_sublist ..) rfl
  | sendRemove at_ =>
    exact live.remove (alive _ (by rw [at_]; rfl)) (.refl _) rfl
  | respond at_ =>
    intro entry member
    rcases mem_qSendPush member with old | ⟨owner, _⟩
    · exact live entry old
    · rw [owner]
      exact alive _ (by rw [at_]; rfl)
  | _ => exact live.shrink (.refl _) rfl

theorem liveQueue_reach (reach : Reach Server.step aliveOnly Server.init s) : LiveQueue s :=
  reach.invariant (P := LiveQueue) (fun _ member => absurd member (List.not_mem_nil))
    fun _ _ _ live alive run => live.step alive run

/-- A pass over a front entry whose connection is gone changes nothing at all. -/
theorem sendPass_dead (front : s.send = .front) (valid : qSendConnidOfFront s.net.sendQueue ≠ svrInvalidConnectId)
    (gone : s.net.conntable (qSendConnidOfFront s.net.sendQueue) = none) : s.sendPass ok 5 = some s := by
  have missing : connGetSockfd s.net.conntable (qSendConnidOfFront s.net.sendQueue) = -1 := by
    rw [connGetSockfd, gone]
    rfl
  have same : { s with send := .front } = s := by rw [← front]
  simp [Server.sendPass, Server.sendStep, front, valid, missing, same]

/-- What a pass does for its front id: the entries are gone, or the descriptor of the connection is armed
anew for them. -/
def Advances (s s' : Server) (id : ConnId) : Prop :=
  Unqueued s'.net.sendQueue id ∨ ∃ fd old, s.net.conntable id = some fd ∧ s.epoll fd = some old ∧
    s'.epoll fd = some ⟨id, true, old.arms + 1⟩

theorem Advances.changed (advances : Advances s s' (qSendConnidOfFront s.net.sendQueue)) (queued : s.net.sendQueue ≠ []) :
    s'.net.sendQueue ≠ s.net.sendQueue ∨ s'.epoll ≠ s.epoll := by
  rcases advances with gone | ⟨fd, old, _, before, after⟩
  · left
    intro same
    obtain ⟨entry, member, at_⟩ := qSendConnidOfFront_mem queued
    rw [same] at gone
    exact gone entry member at_.symm
  · right
    intro same
    rw [same, before, Option.some.injEq] at after
    have counted := congrArg Registration.arms after
    simp at counted

/-- A pass over an entry of a live connection arms its descriptor, or takes the entry away. -/
theorem sendPass_live (tableInv : TableInv s) (sentinel : SentinelInv s) (live : LiveQueue s)
    (front : s.send = .front) (queued : s.net.sendQueue ≠ []) (pass : s.sendPass ok 5 = some s') :
    Advances s s' (qSendConnidOfFront s.net.sendQueue) := by
  obtain ⟨entry, member, at_⟩ := qSendConnidOfFront_mem queued
  obtain ⟨fd, found⟩ := Option.isSome_iff_exists.mp (live entry member)
  have valid := sentinel.queue entry member
  have lookup : connGetSockfd s.net.conntable entry.1 = fd := by
    rw [connGetSockfd, found]
    rfl
  have positive : fd ≠ -1 := by
    have := (tableInv.entry _ _ found).1
    omega
  rw [at_]
  cases ok with
  | true =>
    right
    cases registered : s.epoll fd with
    | none => simp [Server.sendPass, Server.sendStep, front, at_, valid, lookup, positive, registered] at pass
    | some registration =>
      simp only [Server.sendPass, Server.sendStep, front, at_, valid, lookup, positive, registered, if_true,
        if_false, Option.isSome_some, Option.some.injEq, reduceCtorEq] at pass
      subst pass
      exact ⟨fd, registration, found, registered, by simp [epollMod, registered]⟩
  | false =>
    left
    simp only [Server.sendPass, Server.sendStep, front, at_, valid, lookup, positive, if_true, if_false,
      Option.some.injEq, reduceCtorEq, Bool.false_eq_true] at pass
    subst pass
    intro other kept
    simpa using (List.mem_filter.mp kept).2

/-- As long as responses are only queued for connections in the table, a front id that is not in the
table has no entries left once its pass ends, and a pass over a queue with an entry of a live
connection takes the front entries away or arms their descriptor, so that it is never without effect. -/
theorem dead_front_blocks_nobody (reach : Reach Server.step aliveOnly Server.init s) :
    (∀ id ok s', s.send = .lookup id → s.net.conntable id = none → Server.step (.send ok) s = some s' →
        Unqueued s'.net.sendQueue id) ∧
      ∀ ok s', s.send = .front → (∃ entry ∈ s.net.sendQueue, (s.net.conntable entry.1).isSome) →
        s.sendPass ok 5 = some s' → Advances s s' (qSendConnidOfFront s.net.sendQueue) ∧
          (s'.net.sendQueue ≠ s.net.sendQueue ∨ s'.epoll ≠ s.epoll) := by
  have live := liveQueue_reach reach
  refine ⟨fun id ok s' at_ gone run => ?_, fun ok s' front waits pass => ?_⟩
  · have same : s'.net.sendQueue = s.net.sendQueue := by
      cases Server.step_spec run <;> simp_all
    rw [same]
    rintro entry member rfl
    have here := live entry member
    simp [gone] at here
  · obtain ⟨entry, member, _⟩ := waits
    have queued := List.ne_nil_of_mem member
    have advances := sendPass_live (tableInv_reach reach) (sentinelInv_reach reach) live front queued pass
    exact ⟨advances, advances.changed queued⟩

/-- A response is sent and its connection closed after the send thread has read the id at the front. -/
def closedBehindFront : List ServerAct :=
  connects 5 7 ++ requests 5 emptyPacket ++ answers 0 ++ [.send true] ++ transmits 5 10 ++ disconnects 5

/-- The send thread finds the id gone, and then the response to another client. -/
def responseBehind : List ServerAct := [.send true] ++ connects 6 8 ++ requests 6 emptyPacket ++ answers 0

theorem dead_front_blocks_nobody_one_closed : ∃ before after s s',
    exec (guarded Server.step aliveOnly) closedBehindFront Server.init = some before ∧
      Server.step (.send true) before = some after ∧ before.net.conntable 7 = none ∧ Unqueued after.net.sendQueue 7 ∧
      exec (guarded Server.step aliveOnly) responseBehind before = some s ∧
      s.sendPass true 5 = some s' ∧ Advances s s' 8 := by
  have ends : ∃ before, exec (guarded Server.step aliveOnly) closedBehindFront Server.init = some before ∧
      before.send = .lookup 7 ∧ before.net.conntable 7 = none ∧ (Server.step (.send true) before).isSome ∧
      (exec (guarded Server.step aliveOnly) responseBehind before).any (fun s => decide (s.send = .front ∧
        (∃ entry ∈ s.net.sendQueue, (s.net.conntable entry.1).isSome) ∧ qSendConnidOfFront s.net.sendQueue = 8 ∧
        (s.sendPass true 5).isSome)) = true := exec_ends (by decide +kernel)
  obtain ⟨before, early, looks, gone, steps, rest⟩ := ends
  obtain ⟨after, one⟩ := Option.isSome_iff_exists.mp steps
  obtain ⟨s, run, front, waits, id, passes⟩ := exec_ends rest
  obtain ⟨s', pass⟩ := Option.isSome_iff_exists.mp passes
  have reach := reach_of_exec_guarded early
  have advances := ((dead_front_blocks_nobody (reach.trans (reach_of_exec_guarded run))).2 true s' front waits pass).1
  exact ⟨before, after, s, s', early, one, gone,
    (dead_front_blocks_nobody reach).1 7 true after looks gone one, run, pass, id ▸ advances⟩

/-- The first of two clients closes its connection while a worker still has its request; then the
other client sends a request. -/
def lateResponse : List ServerAct :=
  connects 5 7 ++ requests 5 emptyPacket ++ [.take 0] ++ disconnects 5 ++
    [.respond 0 (some (emptyPacket, 0)), .signal 0] ++ connects 6 8 ++ requests 6 emptyPacket ++ answers 1

/-- The response for the closed connection stays at the front for good, and the live one behind it
waits. -/
theorem dead_front_blocks : ∃ s, Reach Server.step anyStep Server.init s ∧ s.send = .front ∧
    (∃ entry ∈ s.net.sendQueue, (s.net.conntable entry.1).isSome) ∧ s.sendPass true 5 = some s := by
  have ends : ∃ s, exec Server.step lateResponse Server.init = some s ∧ s.send = .front ∧
      (∃ entry ∈ s.net.sendQueue, (s.net.conntable entry.1).isSome) ∧
      qSendConnidOfFront s.net.sendQueue ≠ svrInvalidConnectId ∧
      s.net.conntable (qSendConnidOfFront s.net.sendQueue) = none := exec_ends (by decide +kernel)
  obtain ⟨s, run, front, waits, valid, gone⟩ := ends
  exact ⟨s, reach_of_exec run, front, waits, sendPass_dead front valid gone⟩

end SvrNet

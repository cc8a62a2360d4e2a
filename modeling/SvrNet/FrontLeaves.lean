import SvrNet.LoopReturns
import SvrNet.Sentinels

namespace SvrNet
open CData StepSystem Trace

section Stages

/-- The connection that the send thread found at the front of the queue. -/
def SendPc.about : SendPc → Option ConnId
  | .lookup connid | .modify connid _ | .purge connid | .remove connid => some connid
  | _ => none

/-- The steps to the end of a pass through the loop of `send_func`. -/
def SendPc.left : SendPc → Nat
  | .lookup _ => 4
  | .modify _ _ => 3
  | .purge _ => 2
  | .remove _ => 1
  | _ => 0

/-- The steps to the next `EPOLL_CTL_MOD`, while the queue has entries. -/
def SendPc.toModify : SendPc → Nat
  | .wait => 6
  | .waiting => 5
  | .woken => 4
  | .front => 3
  | .lookup _ => 2
  | .modify _ _ => 1
  | _ => 0

/-- The send thread is not busy with another connection than this one. -/
structure Fresh (s : Server) (id : ConnId) : Prop where
  about : ∀ other, s.send.about = some other → other = id
  looked : ∀ fd, s.send = .modify id fd → s.net.conntable id = some fd

/-- And the loop thread is not on its way out of a handler for writable events of it. -/
structure Settling (s : Server) (id : ConnId) : Prop extends Fresh s id where
  clear : ∀ fd pc, s.loop = .epollout id fd pc → pc = .pop

/-- The descriptor of the connection is registered for responses, under its id. -/
def Armed (s : Server) (id : ConnId) : Prop :=
  ∃ fd registration, s.net.conntable id = some fd ∧ s.epoll fd = some registration ∧
    registration.u64 = id ∧ registration.out = true

variable {s s' : Server} {act : ServerAct} {id : ConnId} {data : List RByte} {later : SendQueue RByte}

theorem ServerStep.send_left (step : ServerStep s act s') (sends : act.ofSend) (busy : s.send.left ≠ 0) :
    s'.send.left < s.send.left := by
  cases step with
  | frontEmpty at_ | front at_ | sendWait at_ | sendWoken at_ | lookupMissing at_ | lookupFound at_ | modify at_
  | modifyFail at_ | sendPurge at_ | sendRemove at_ =>
    simp only [at_, SendPc.left] at busy ⊢
    omega
  | _ => cases sends

theorem ServerStep.about_next (step : ServerStep s act s') {other : ConnId} (about : s'.send.about = some other) :
    s.send.about = some other ∨ other = qSendConnidOfFront s.net.sendQueue := by
  cases step with
  | frontEmpty | sendWait | sendWoken | lookupMissing | modify | sendRemove | wake => cases about
  | front =>
    cases about
    exact Or.inr rfl
  | lookupFound at_ | modifyFail at_ | sendPurge at_ =>
    rw [at_]
    exact Or.inl about
  | loop => exact Or.inl (by simpa using about)
  | signal =>
    dsimp only at about
    split at about
    · cases about
    · exact Or.inl about
  | _ => exact Or.inl about

/-- A connection with an entry in the queue stays in the table. -/
theorem conntable_kept (leaving : LeavingInv s) (queued : ¬ Unqueued s.net.sendQueue id) (step : ServerStep s act s')
    {fd : Int} (found : s.net.conntable id = some fd) : s'.net.conntable id = some fd := by
  have stays : ∀ other, s.Leaving other → connRemove s.net.conntable other id = some fd := by
    intro other leaves
    have different : id ≠ other := by
      rintro rfl
      exact queued (leaving id leaves)
    rw [connRemove, Function.update_of_ne different]
    exact found
  cases step with
  | @insert _ _ new _ _ free =>
    have different : id ≠ new := by
      rintro rfl
      simp [found] at free
    exact (Function.update_of_ne different ..).trans found
  | listenRemove at_ => exact stays _ (Or.inr (Or.inr (by rw [at_]; rfl)))
  | sendRemove at_ => exact stays _ (Or.inr (Or.inl (by rw [at_]; rfl)))
  | loop _ inner =>
    rw [Server.observe_net]
    rcases inner.conntable_next with same | ⟨connid, curfd, at_, _, removed⟩
    · rw [same]
      exact found
    · rw [removed]
      exact stays connid (Or.inl (by rw [at_]; rfl))
  | _ => exact found

theorem LoopStep.rearmed_at {net : NetSvr TByte RByte} {pc pc' : LoopPc TByte RByte} {lact : LoopAct TByte} {connid : ConnId}
    {fd : Int} (step : LoopStep true s.net pc lact net pc' (.rearmed connid fd)) : pc = .epollout connid fd .rearm := by
  cases step with
  | epollin step => cases step
  | epollout step =>
    generalize same : LoopEvent.rearmed connid fd = event at step
    cases step with
    | @rearm ok =>
      cases ok with
      | true =>
        cases same
        rfl
      | false => cases same
    | _ => cases same

theorem unqueued_not_front (front : s.net.sendQueue = (id, data) :: later) : ¬ Unqueued s.net.sendQueue id := by
  intro none
  exact none (id, data) (by rw [front]; exact List.mem_cons_self ..) rfl

/-- While the connection is at the front of the queue, its registration is not undone. -/
theorem Armed.step (armed : Armed s id) (table : TableInv s) (leaving : LeavingInv s)
    (front : s.net.sendQueue = (id, data) :: later) (settling : Settling s id) (step : ServerStep s act s') :
    Armed s' id := by
  obtain ⟨fd, registration, found, at_, owner, out⟩ := armed
  have kept := conntable_kept leaving (unqueued_not_front front) step found
  have same : s'.epoll fd = s.epoll fd → Armed s' id := fun same =>
    ⟨fd, registration, kept, same.trans at_, owner, out⟩
  cases step with
  | @add other _ _ _ free =>
    refine same (Function.update_of_ne ?_ ..)
    rintro rfl
    simp [free] at at_
  | @modify other socket sends =>
    have here := settling.about other (by rw [sends]; rfl)
    by_cases this : fd = socket
    · refine ⟨fd, ⟨other, true, registration.arms + 1⟩, kept, ?_, here, rfl⟩
      simp [epollMod, ← this, at_]
    · exact same (Function.update_of_ne this ..)
  | @loop lact net loop event _ inner =>
    cases event with
    | rearmed connid sockfd =>
      refine same (Function.update_of_ne ?_ ..)
      rintro rfl
      have running := inner.rearmed_at
      cases (table.handling connid fd (by rw [running]; rfl)).2.2 id found
      cases settling.clear fd _ running
    | closed curfd =>
      refine same (Function.update_of_ne ?_ ..)
      rintro rfl
      obtain ⟨connid, running, _⟩ := inner.closed_spec
      exact table.unlisted fd (by rw [running]; rfl) id found
    | _ => exact same rfl
  | _ => exact same rfl

/-- The first entry of the connection at the front is the front entry. -/
theorem qSendPopFirst_front (fits : data.length ≤ netSendBuffSize) :
    qSendPopFirst ((id, data) :: later) id netSendBuffSize = ⟨0, data.length, data, later⟩ := by
  have first : ((id, data) :: later).find? (·.1 = id) = some (id, data) := List.find?_cons_of_pos (by simp)
  unfold qSendPopFirst
  rw [first]
  dsimp only
  rw [if_neg (Nat.not_lt.mpr fits), List.eraseP_cons_of_pos (by simp)]

/-- The entry at the front of the queue left it. -/
def FrontGone (s s' : Server) (id : ConnId) : Prop :=
  s'.net.sendQueue = s.net.sendQueue.tail ∨ Unqueued s'.net.sendQueue id

theorem Fresh.step (fresh : Fresh s id) (leaving : LeavingInv s) (front : s.net.sendQueue = (id, data) :: later)
    (step : ServerStep s act s') : Fresh s' id := by
  refine ⟨fun other about => ?_, fun fd at_ => ?_⟩
  · rcases step.about_next about with old | new
    · exact fresh.about other old
    · rw [new, front]
      rfl
  · have kept : ∀ fd, s.net.conntable id = some fd → s'.net.conntable id = some fd := fun fd found =>
      conntable_kept leaving (unqueued_not_front front) step found
    cases step with
    | lookupFound _ found =>
      cases at_
      exact found
    | loop =>
      rw [Server.observe_send] at at_
      exact kept fd (fresh.looked fd at_)
    | signal =>
      dsimp only at at_
      split at at_
      · cases at_
      · exact fresh.looked fd at_
    | frontEmpty | front | sendWait | sendWoken | lookupMissing | modify | modifyFail | sendPurge | sendRemove | wake =>
      cases at_
    | _ => exact kept fd (fresh.looked fd at_)

theorem Settling.step (settling : Settling s id) (leaving : LeavingInv s) (fits : FitInv s)
    (front : s.net.sendQueue = (id, data) :: later) (step : ServerStep s act s') : Settling s' id ∨ FrontGone s s' id := by
  have outside : (∀ fd pc, s'.loop = .epollout id fd pc → pc = .pop) → Settling s' id ∨ FrontGone s s' id :=
    fun clear => Or.inl ⟨settling.toFresh.step leaving front step, clear⟩
  by_cases loops : act.ofLoop
  · cases step with
    | wait => exact outside settling.clear
    | dispatch _ _ next => exact outside (by rcases next with rfl | rfl <;> simp)
    | @loop lact net loop event _ inner =>
      rw [Server.observe_loop] at outside
      generalize at_ : s.loop = before at inner
      generalize lact.tagged s.handlerOwner = tact at inner
      cases inner with
      | inMissing | inFound | outMissing => exact outside (by simp)
      | outFound => exact outside (by simp)
      | epollin inner => exact outside (by rcases inner.pc_next with rfl | ⟨fault, rfl⟩ | ⟨next, rfl⟩ <;> simp)
      | @epollout connid sockfd pc _ _ _ _ inner =>
        by_cases same : connid = id
        · subst same
          cases settling.clear sockfd pc at_
          have popped : qSendPopFirst s.net.sendQueue connid netSendBuffSize = ⟨0, data.length, data, later⟩ := by
            rw [front]
            exact qSendPopFirst_front (fits (connid, data) (by rw [front]; exact List.mem_cons_self ..))
          cases inner with
          | popNothing nothing => simp [popped] at nothing
          | popEntry =>
            right
            left
            rw [Server.observe_net]
            exact (congrArg Popped.queue popped).trans (by rw [front]; rfl)
        · refine outside fun fd pc' there => ?_
          rcases inner.pc_next with rfl | ⟨next, rfl⟩
          · cases there
          · cases there
            exact absurd rfl same
    | _ => cases loops
  · rw [(step.loop_kept loops).1] at outside
    exact outside settling.clear

/-- A step of the send thread that is on its way to the connection. -/
theorem Fresh.toModify_next (fresh : Fresh s id) (table : TableInv s) (sentinel : SentinelInv s) (live : LiveQueue s)
    (leaving : LeavingInv s) (front : s.net.sendQueue = (id, data) :: later) (step : ServerStep s act s')
    (sends : act.ofSend) : s'.send.toModify < s.send.toModify ∨ Armed s' id ∨ FrontGone s s' id := by
  have member : (id, data) ∈ s.net.sendQueue := by
    rw [front]
    exact List.mem_cons_self ..
  cases step with
  | frontEmpty _ empty =>
    rw [sentinel.front_invalid_iff.mp empty] at front
    cases front
  | front at_ | sendWait at_ | sendWoken at_ | lookupFound at_ | modifyFail at_ => exact Or.inl (by simp [at_, SendPc.toModify])
  | lookupMissing at_ missing =>
    have found := live _ member
    cases fresh.about _ (by rw [at_]; rfl)
    rw [(table.sockfd_invalid_iff _).mp missing] at found
    cases found
  | @modify other socket at_ registered =>
    cases fresh.about _ (by rw [at_]; rfl)
    obtain ⟨registration, there⟩ := Option.isSome_iff_exists.mp registered
    refine Or.inr (Or.inl ⟨socket, ⟨_, true, registration.arms + 1⟩, fresh.looked socket at_, ?_, rfl, rfl⟩)
    simp [epollMod, there]
  | sendPurge at_ =>
    cases fresh.about _ (by rw [at_]; rfl)
    exact Or.inr (Or.inr (Or.inr (unqueued_removeAll _ _)))
  | sendRemove at_ =>
    cases fresh.about _ (by rw [at_]; rfl)
    exact absurd (leaving _ (Or.inr (Or.inl (by rw [at_]; rfl)))) (unqueued_not_front front)
  | _ => cases sends

theorem Server.dispatch_epollout {calls : List HandlerCall} (run : Server.step .dispatch s = some s')
    (idle : s.loop = .idle) (taken : s.calls = .epollout id :: calls) : s'.loop = .outLookup id := by
  simp only [Server.step, idle, taken, Option.some.injEq] at run
  rw [← run]

end Stages

namespace FairRun

variable {n : Nat} {ordered : Bool} {first : Service} {trace : Trace Service.step (prompt n ordered) first}
  {K P Q : Service → Prop} {id : ConnId}

/-- `P` holds while an entry of the connection is at the front of the queue, and `Q` when it has left. -/
structure Fronting (n : Nat) (ordered : Bool) (K P Q : Service → Prop) (id : ConnId) : Prop where
  front : ∀ s, K s → P s → ∃ data later, s.server.net.sendQueue = (id, data) :: later
  stays : Unless Service.step (prompt n ordered) K P Q
  gone : ∀ act before after, K before → K after → P before → prompt n ordered act before →
    Service.step act before = some after → FrontGone before.server after.server id → Q after

theorem Fronting.settling (fronting : Fronting n ordered K P Q id) (fair : FairRun trace K) :
    Unless Service.step (prompt n ordered) K (fun s => P s ∧ Settling s.server id) Q := by
  intro act before after old new holds allowed run
  obtain ⟨holds, settling⟩ := holds
  have inv := fair.inv before old
  obtain ⟨data, later, front⟩ := fronting.front before old holds
  rcases settling.step inv.leaving inv.fits front (Service.step_spec run).server with still | gone
  · exact (fronting.stays act before after old new holds allowed run).imp_left fun here => ⟨here, still⟩
  · exact Or.inr (fronting.gone act before after old new holds allowed run gone)

/-- What the threads were doing for other connections, and for earlier entries, comes to an end. -/
theorem Fronting.settles (fronting : Fronting n ordered K P Q id) (fair : FairRun trace K) :
    trace.LeadsTo P fun s => Q s ∨ P s ∧ Settling s.server id := by
  have passes : trace.LeadsTo P fun s => Q s ∨ P s ∧ s.server.send.about = none := by
    refine LeadsTo.ranked (fun s => s.server.send.left) fun r => ?_
    by_cases done : r = 0
    · refine LeadsTo.of_imp fun k holds => Or.inl (Or.inr ⟨holds.1, ?_⟩)
      have left := holds.2.trans done
      cases at_ : (trace.state k).server.send <;> simp_all [SendPc.left, SendPc.about]
    · refine fair.send_goes ?_ ?_ fun s _ holds sleeps => ?_
      · intro act before after old new holds allowed run other
        rcases fronting.stays act before after old new holds.1 allowed run with still | done
        · left
          rcases (Service.step_spec run).server.send_kept other with same | ⟨sleeps, _⟩
          · exact ⟨still, by rw [same]; exact holds.2⟩
          · rw [sleeps] at holds
            exact absurd holds.2.symm done
        · exact Or.inr (Or.inl (Or.inl done))
      · intro act before after old new holds allowed run sends
        rcases fronting.stays act before after old new holds.1 allowed run with still | done
        · have less := (Service.step_spec run).server.send_left sends (by rw [holds.2]; exact done)
          exact Or.inr ⟨still, holds.2 ▸ less⟩
        · exact Or.inl (Or.inl done)
      · rw [sleeps] at holds
        exact done holds.2.symm
  have fresh : Unless Service.step (prompt n ordered) K (fun s => P s ∧ Fresh s.server id) Q := by
    intro act before after old new holds allowed run
    obtain ⟨data, later, front⟩ := fronting.front before old holds.1
    exact (fronting.stays act before after old new holds.1 allowed run).imp_left fun here =>
      ⟨here, holds.2.step (fair.inv before old).leaving front (Service.step_spec run).server⟩
  have returns : trace.LeadsTo (fun s => P s ∧ Fresh s.server id) fun s => Q s ∨ P s ∧ Settling s.server id :=
    (fair.loop_returns.along fun m => fresh.next fair.known m).trans <| LeadsTo.of_imp fun k reached =>
      reached.imp_right fun idle => ⟨idle.1.1, idle.1.2, fun fd pc running => by simp [idle.2] at running⟩
  have between : trace.LeadsTo (fun s => P s ∧ s.server.send.about = none) fun s => P s ∧ Fresh s.server id := by
    refine LeadsTo.of_imp fun k holds => ⟨holds.1, fun other about => ?_, fun fd at_ => ?_⟩
    · simp [holds.2] at about
    · have about := holds.2
      rw [at_] at about
      cases about
  have kept : trace.LeadsTo Q fun s => Q s ∨ P s ∧ Settling s.server id := LeadsTo.of_imp fun _ done => Or.inl done
  exact passes.trans (kept.or (between.trans returns))

/-- A worker's signal brings the send thread on its way. -/
theorem Fronting.woken (fronting : Fronting n ordered K P Q id) (fair : FairRun trace K) {i r : Nat} (inside : i < n) :
    trace.LeadsTo
      (fun s => ((P s ∧ Settling s.server id) ∧ s.server.send.toModify = r) ∧ s.server.send = .waiting ∧
        s.server.worker i = .signal)
      fun s => Q s ∨ (P s ∧ Settling s.server id) ∧ s.server.send.toModify < r := by
  have less : ∀ s s' : Server, s.send.toModify = r → s.send = .waiting → s'.send = .woken → s'.send.toModify < r := by
    intro s s' rank waiting woken
    rw [← rank, waiting, woken]
    exact Nat.lt_succ_self _
  refine fair.worker_goes inside ?_ ?_ fun s _ holds idle => by simp [holds.2.2] at idle
  · intro act before after old new holds allowed run other
    obtain ⟨⟨here, rank⟩, waiting, signals⟩ := holds
    have step := (Service.step_spec run).server
    rcases fronting.settling fair act before after old new here allowed run with still | done
    · by_cases sends : act.ofSend
      · generalize after.server = server at step
        cases step with
        | frontEmpty at_ | front at_ | sendWait at_ | sendWoken at_ | lookupMissing at_ | lookupFound at_ | modify at_
        | modifyFail at_ | sendPurge at_ | sendRemove at_ => simp [waiting] at at_
        | _ => cases sends
      · rcases step.send_kept sends with same | ⟨_, woken⟩
        · exact Or.inl ⟨⟨still, by rw [same]; exact rank⟩, same.trans waiting, (step.worker_kept other).trans signals⟩
        · exact Or.inr (Or.inr ⟨still, less _ _ rank waiting woken⟩)
    · exact Or.inr (Or.inl done)
  · intro act before after old new holds allowed run own
    obtain ⟨⟨here, rank⟩, waiting, signals⟩ := holds
    have step := (Service.step_spec run).server
    rcases fronting.settling fair act before after old new here allowed run with still | done
    · refine Or.inr ⟨still, less before.server after.server rank waiting ?_⟩
      generalize after.server = server at step ⊢
      cases step with
      | signal => simp [waiting]
      | take at_ | finish at_ | respond at_ =>
        cases own
        simp [signals] at at_
      | _ => cases own
    · exact Or.inl done

/-- Once awake it comes nearer to `EPOLL_CTL_MOD`, or gets there. -/
theorem Fronting.nears (fronting : Fronting n ordered K P Q id) (fair : FairRun trace K) {r : Nat} :
    trace.LeadsTo
      (fun s => ((P s ∧ Settling s.server id) ∧ s.server.send.toModify = r) ∧ s.server.send ≠ .waiting)
      fun s => (Q s ∨ (P s ∧ Settling s.server id) ∧ Armed s.server id) ∨
        (P s ∧ Settling s.server id) ∧ s.server.send.toModify < r := by
  refine fair.send_goes ?_ ?_ fun s _ holds => holds.2
  · intro act before after old new holds allowed run other
    obtain ⟨⟨here, rank⟩, awake⟩ := holds
    rcases fronting.settling fair act before after old new here allowed run with still | done
    · rcases (Service.step_spec run).server.send_kept other with same | ⟨sleeps, _⟩
      · exact Or.inl ⟨⟨still, by rw [same]; exact rank⟩, by rw [same]; exact awake⟩
      · exact absurd sleeps awake
    · exact Or.inr (Or.inl (Or.inl done))
  · intro act before after old new holds allowed run sends
    obtain ⟨⟨here, rank⟩, _⟩ := holds
    have inv := fair.inv before old
    obtain ⟨data, later, front⟩ := fronting.front before old here.1
    rcases fronting.settling fair act before after old new here allowed run with still | done
    · rcases here.2.toFresh.toModify_next inv.known.table inv.sentinel inv.live inv.leaving front
        (Service.step_spec run).server sends with less | armed | gone
      · exact Or.inr ⟨still, rank ▸ less⟩
      · exact Or.inl (Or.inr ⟨still, armed⟩)
      · exact Or.inl (Or.inl (fronting.gone act before after old new here.1 allowed run gone))
    · exact Or.inl (Or.inl done)

/-- The send thread comes to the connection and registers its descriptor for responses. -/
theorem Fronting.arms (fronting : Fronting n ordered K P Q id) (fair : FairRun trace K) :
    trace.LeadsTo (fun s => P s ∧ Settling s.server id) fun s => Q s ∨ (P s ∧ Settling s.server id) ∧ Armed s.server id := by
  refine LeadsTo.ranked (fun s => s.server.send.toModify) fun r => ?_
  intro k holds
  by_cases waiting : (trace.state k).server.send = .waiting
  · have inv := fair.inv _ (fair.known k)
    obtain ⟨data, later, front⟩ := fronting.front _ (fair.known k) holds.1.1
    rcases inv.wake (Or.inr waiting) with empty | ⟨i, signals⟩
    · cases empty.symm.trans front
    · have inside : i < n := by
        by_contra beyond
        cases signals.symm.trans (inv.threads i (Nat.not_lt.mp beyond))
      obtain ⟨m, after, reached⟩ := fronting.woken fair inside k ⟨holds, waiting, signals⟩
      exact ⟨m, after, reached.imp_left Or.inl⟩
  · exact fronting.nears fair k ⟨holds, waiting⟩

/-- `epoll_wait` reports the connection. -/
theorem Fronting.reported (fronting : Fronting n ordered K P Q id) (fair : FairRun trace K) :
    trace.LeadsTo (fun s => (P s ∧ Settling s.server id) ∧ Armed s.server id)
      fun s => Q s ∨ (P s ∧ Settling s.server id) ∧ .epollout id ∈ s.server.calls := by
  refine (fair.epoll id).leadsTo fair.known ?_ ?_ fair.loop_waits ?_
  · intro act before after old new holds allowed run _
    obtain ⟨here, armed⟩ := holds
    have inv := fair.inv before old
    obtain ⟨data, later, front⟩ := fronting.front before old here.1
    rcases fronting.settling fair act before after old new here allowed run with still | done
    · exact Or.inl ⟨still, armed.step inv.known.table inv.leaving front here.2 (Service.step_spec run).server⟩
    · exact Or.inr (Or.inl done)
  · intro act before after old new holds allowed run reports
    obtain ⟨events, rfl, member⟩ := reports
    rcases fronting.settling fair _ before after old new holds.1 allowed run with still | done
    · refine Or.inr ⟨still, ?_⟩
      have step := (Service.step_spec run).server
      generalize after.server = server at step ⊢
      cases step with
      | wait => exact member
    · exact Or.inl done
  · intro s _ holds waits
    obtain ⟨fd, registration, _, at_, owner, out⟩ := holds.2
    refine ⟨.wait [(fd, false, true)], ⟨_, rfl, ?_⟩,
      ⟨⟨⟨trivial, trivial⟩, fun _ => trivial⟩, trivial, trivial, trivial⟩, Service.step_isSome ?_⟩
    · simp [handlerCalls, at_, out, owner]
    · simp [Server.step, waits.1, waits.2]

/-- The handler for writable events takes the entry. -/
theorem Fronting.handled (fronting : Fronting n ordered K P Q id) (fair : FairRun trace K) :
    trace.LeadsTo (fun s => (P s ∧ Settling s.server id) ∧ s.server.loop = .outLookup id) Q := by
  have starts : trace.LeadsTo (fun s => (P s ∧ Settling s.server id) ∧ s.server.loop = .outLookup id)
      fun s => Q s ∨ (P s ∧ Settling s.server id) ∧ ∃ fd, s.server.loop = .epollout id fd .pop := by
    have stays : Unless Service.step (prompt n ordered) K (fun s => P s ∧ Settling s.server id)
        fun s => Q s ∨ (P s ∧ Settling s.server id) ∧ ∃ fd, s.server.loop = .epollout id fd .pop :=
      fun act before after old new holds allowed run =>
        (fronting.settling fair act before after old new holds allowed run).imp_right Or.inl
    refine fair.loop_goes_from (· = .outLookup id) stays fun act before after old _ holds at_ still run loop => ?_
    have inv := fair.inv before old
    obtain ⟨data, later, front⟩ := fronting.front before old holds.1
    obtain ⟨lact, event, _, step⟩ := (Service.step_spec run).server.handler_goes loop (by simp [at_])
    rw [at_] at step
    generalize after.server.loop = next at step
    generalize after.server.net = net at step
    generalize lact.tagged before.server.handlerOwner = tact at step
    cases step with
    | outMissing missing =>
      have found := inv.live (id, data) (by rw [front]; exact List.mem_cons_self ..)
      rw [(inv.known.table.sockfd_invalid_iff id).mp missing] at found
      cases found
    | outFound => exact Or.inr ⟨still, _, rfl⟩
  refine starts.resolve (fair.loop_goes_from (fun pc => ∃ fd, pc = .epollout id fd .pop) (fronting.settling fair)
    fun act before after _ _ _ at_ still run loop => ?_)
  obtain ⟨fd, at_⟩ := at_
  obtain ⟨lact, event, _, step⟩ := (Service.step_spec run).server.handler_goes loop (by simp [at_])
  have clear := still.2.clear
  rw [at_] at step
  generalize after.server.loop = next at step clear
  generalize after.server.net = net at step
  generalize lact.tagged before.server.handlerOwner = tact at step
  cases step with
  | epollout inner =>
    cases inner with
    | popNothing | popEntry => cases clear _ _ rfl

/-- A response does not stay at the front of the queue. -/
theorem Fronting.leaves (fronting : Fronting n ordered K P Q id) (fair : FairRun trace K) : trace.LeadsTo P Q := by
  have dispatched : trace.LeadsTo (fun s => (P s ∧ Settling s.server id) ∧ .epollout id ∈ s.server.calls)
      fun s => Q s ∨ (P s ∧ Settling s.server id) ∧ s.server.loop = .outLookup id := by
    refine LeadsTo.ranked (fun s => s.server.calls.length) fun r => ?_
    have called : ∀ before after call, ((P before ∧ Settling before.server id) ∧ .epollout id ∈ before.server.calls) ∧
        before.server.calls.length = r → P after ∧ Settling after.server id → Service.step .dispatch before = some after →
        before.server.calls = call :: after.server.calls →
        (Q after ∨ (P after ∧ Settling after.server id) ∧ after.server.loop = .outLookup id) ∨
          ((P after ∧ Settling after.server id) ∧ .epollout id ∈ after.server.calls) ∧ after.server.calls.length < r := by
      intro before after call holds still run taken
      obtain ⟨⟨_, member⟩, length⟩ := holds
      have idle : before.server.loop = .idle := by
        have step := (Service.step_spec run).server
        generalize after.server = server at step
        cases step with
        | dispatch idle => exact idle
      rw [taken] at member
      rcases List.mem_cons.mp member with rfl | later
      · exact Or.inl (Or.inr ⟨still, Server.dispatch_epollout (Service.step_server run) idle taken⟩)
      · rw [taken, List.length_cons] at length
        exact Or.inr ⟨⟨still, later⟩, by omega⟩
    have stays : Unless Service.step (prompt n ordered) K
        (fun s => ((P s ∧ Settling s.server id) ∧ .epollout id ∈ s.server.calls) ∧ s.server.calls.length = r)
        fun s => (Q s ∨ (P s ∧ Settling s.server id) ∧ s.server.loop = .outLookup id) ∨
          ((P s ∧ Settling s.server id) ∧ .epollout id ∈ s.server.calls) ∧ s.server.calls.length < r := by
      intro act before after old new holds allowed run
      rcases fronting.settling fair act before after old new holds.1.1 allowed run with still | done
      · rcases (Service.step_spec run).server.calls_next with same | ⟨_, none⟩ | ⟨rfl, call, taken⟩
        · exact Or.inl ⟨⟨still, by rw [same]; exact holds.1.2⟩, by rw [same]; exact holds.2⟩
        · simp [none] at holds
        · exact Or.inr (called before after call holds still run taken)
      · exact Or.inr (Or.inl (Or.inl done))
    refine (fair.loop_returns.along fun m => stays.next fair.known m).resolve
      (fair.loop_goes_from (· = .idle) stays fun act before after _ _ holds idle still run loop => ?_)
    rcases (Service.step_spec run).server.idle_goes loop idle with none | ⟨rfl, call, taken⟩
    · simp [none] at holds
    · exact called before after call holds still.1.1 run taken
  exact (fronting.settles fair).resolve <| (fronting.arms fair).resolve <| (fronting.reported fair).resolve <|
    dispatched.resolve (fronting.handled fair)

end FairRun

end SvrNet

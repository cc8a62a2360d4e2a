import SvrNet.Server

namespace SvrNet
open CData StepSystem

/-- Whose bytes the running handler can receive. -/
def Server.handlerOwner (s : Server) : Option Nat := s.loop.handler.bind fun handler => s.fds handler.2

/-- The kernel allows the result for the descriptor of the running handler. -/
def Server.Allows (s : Server) (act : LoopAct UInt8) : Prop :=
  ∀ connid fd, s.loop.handler = some (connid, fd) → s.possible fd act = true

/-- The steps of the server one by one, each with what its branch tested. -/
inductive ServerStep (s : Server) : ServerAct → Server → Prop
  | accept {fd : Int} : s.listen = .accept → s.fds fd = none → 0 ≤ fd →
      ServerStep s (.accept fd) { s with
        fds := Function.update s.fds fd (some s.accepted)
        listen := .insert fd
        accepted := s.accepted + 1 }
  | insert {fd : Int} {draws : List ConnId} {id : ConnId} : s.listen = .insert fd →
      connInsert s.net.conntable fd draws = some (id, Function.update s.net.conntable id (some fd)) →
      s.net.conntable id = none → id ≠ svrInvalidConnectId →
      ServerStep s (.insert draws) { s with
        net := { s.net with conntable := Function.update s.net.conntable id (some fd) }
        listen := .add fd id
        ident := Function.update s.ident id (s.fds fd) }
  | add {fd : Int} {id : ConnId} : s.listen = .add fd id → (s.fds fd).isSome → s.epoll fd = none →
      ServerStep s (.add true) { s with
        epoll := Function.update s.epoll fd (some ⟨id, true, 0⟩)
        listen := .accept }
  | addFail {fd : Int} {id : ConnId} : s.listen = .add fd id →
      ServerStep s (.add false) { s with
        listen := .remove fd id
        stopped := s.stopped ++ (s.fds fd).toList }
  | listenRemove {fd : Int} {id : ConnId} : s.listen = .remove fd id →
      ServerStep s .listenRemove { s with
        net := { s.net with conntable := connRemove s.net.conntable id }
        listen := .accept }
  | wait {events : List (Int × Bool × Bool)} : s.loop = .idle → s.calls = [] →
      ServerStep s (.wait events) { s with calls := handlerCalls s.epoll events }
  | dispatch {connid : ConnId} {call : HandlerCall} {calls : List HandlerCall} {loop : LoopPc TByte RByte} :
      s.loop = .idle → s.calls = call :: calls → (loop = .inLookup connid ∨ loop = .outLookup connid) →
      ServerStep s .dispatch { s with loop := loop, calls := calls }
  | loop {act : LoopAct UInt8} {net : NetSvr TByte RByte} {loop : LoopPc TByte RByte}
      {event : LoopEvent TByte RByte} : s.Allows act →
      LoopStep true s.net s.loop (act.tagged s.handlerOwner) net loop event →
      ServerStep s (.loop act) ({ s with net := net, loop := loop }.observe event)
  | frontEmpty {ok : Bool} : s.send = .front → qSendConnidOfFront s.net.sendQueue = svrInvalidConnectId →
      ServerStep s (.send ok) { s with send := .wait }
  | front {ok : Bool} : s.send = .front → qSendConnidOfFront s.net.sendQueue ≠ svrInvalidConnectId →
      ServerStep s (.send ok) { s with send := .lookup (qSendConnidOfFront s.net.sendQueue) }
  | sendWait {ok : Bool} : s.send = .wait → ServerStep s (.send ok) { s with send := .waiting }
  | sendWoken {ok : Bool} : s.send = .woken → ServerStep s (.send ok) { s with send := .front }
  | lookupMissing {ok : Bool} {id : ConnId} : s.send = .lookup id →
      connGetSockfd s.net.conntable id = -1 → ServerStep s (.send ok) { s with send := .front }
  | lookupFound {ok : Bool} {id : ConnId} {fd : Int} : s.send = .lookup id →
      s.net.conntable id = some fd → ServerStep s (.send ok) { s with send := .modify id fd }
  | modify {id : ConnId} {fd : Int} : s.send = .modify id fd → (s.epoll fd).isSome →
      ServerStep s (.send true) { s with epoll := epollMod s.epoll fd id true, send := .front }
  | modifyFail {id : ConnId} {fd : Int} : s.send = .modify id fd →
      ServerStep s (.send false) { s with
        send := .purge id
        stopped := s.stopped ++ (s.ident id).toList }
  | sendPurge {ok : Bool} {id : ConnId} : s.send = .purge id →
      ServerStep s (.send ok) { s with
        net := { s.net with sendQueue := qSendRemoveAllByConnid s.net.sendQueue id }
        send := .remove id }
  | sendRemove {ok : Bool} {id : ConnId} : s.send = .remove id →
      ServerStep s (.send ok) { s with
        net := { s.net with conntable := connRemove s.net.conntable id }
        send := .front }
  | wake : s.send = .waiting → ServerStep s .wake { s with send := .woken }
  | take {i : Nat} {work : Work TByte} {later : List (Work TByte)} : s.worker i = .idle →
      s.net.pool = work :: later → ServerStep s (.take i) { s with
        net := { s.net with pool := later }
        worker := Function.update s.worker i (.proc work) }
  | finish {i : Nat} {work : Work TByte} : s.worker i = .proc work →
      ServerStep s (.respond i none) { s with worker := Function.update s.worker i .idle }
  | respond {i : Nat} {work : Work TByte} {outdata : List UInt8} {outlen : Nat} : s.worker i = .proc work →
      outlen + netPkgSize ≤ outdata.length → outlen + netPkgSize ≤ intMax →
      ServerStep s (.respond i (some (outdata, outlen))) { s with
        net := { s.net with
          sendQueue := qSendPush s.net.sendQueue work.connid (workPack work outdata outlen) }
        worker := Function.update s.worker i .signal }
  | signal {i : Nat} : s.worker i = .signal →
      ServerStep s (.signal i) { s with
        worker := Function.update s.worker i .idle
        send := match s.send with
          | .waiting => .woken
          | pc => pc }

theorem Server.sendStep_spec {ok : Bool} {s s' : Server} (run : s.sendStep ok = some s') :
    ServerStep s (.send ok) s' := by
  unfold Server.sendStep at run
  cases at_ : s.send with
  | front =>
    simp only [at_] at run
    split at run
    · rename_i empty
      cases run
      exact .frontEmpty at_ empty
    · rename_i some
      cases run
      exact .front at_ some
  | wait =>
    simp only [at_] at run
    cases run
    exact .sendWait at_
  | waiting => simp [at_] at run
  | woken =>
    simp only [at_] at run
    cases run
    exact .sendWoken at_
  | lookup connid =>
    simp only [at_] at run
    split at run
    · rename_i missing
      cases run
      exact .lookupMissing at_ missing
    · rename_i found
      cases run
      exact .lookupFound at_ (connGetSockfd_spec found)
  | modify connid socket =>
    simp only [at_] at run
    split at run
    · rename_i succeeds
      subst succeeds
      split at run
      · rename_i registered
        cases run
        exact .modify at_ registered
      · simp at run
    · rename_i fails
      cases run
      rw [Bool.eq_false_iff.mpr fails]
      exact .modifyFail at_
  | purge connid =>
    simp only [at_] at run
    cases run
    exact .sendPurge at_
  | remove connid =>
    simp only [at_] at run
    cases run
    exact .sendRemove at_

theorem Server.step_spec {act : ServerAct} {s s' : Server} (run : Server.step act s = some s') :
    ServerStep s act s' := by
  cases act with
  | accept clientFd =>
    simp only [Server.step] at run
    split at run
    · rename_i at_
      split at run
      · rename_i free
        cases run
        exact .accept at_ (Option.isNone_iff_eq_none.mp free.1) free.2
      · simp at run
    · simp at run
  | insert draws =>
    simp only [Server.step] at run
    split at run
    · rename_i clientFd at_
      split at run
      · simp at run
      · rename_i connId conntable inserted
        cases run
        obtain ⟨free, valid, rfl⟩ := connInsert_spec inserted
        exact .insert at_ inserted free valid
    · simp at run
  | add ok =>
    simp only [Server.step] at run
    split at run
    · rename_i clientFd connId at_
      cases ok with
      | true =>
        rw [if_pos rfl] at run
        split at run
        · rename_i free
          cases run
          exact .add at_ free.1 (Option.isNone_iff_eq_none.mp free.2)
        · simp at run
      | false =>
        rw [if_neg (by decide)] at run
        cases run
        exact .addFail at_
    · simp at run
  | listenRemove =>
    simp only [Server.step] at run
    split at run
    · rename_i at_
      cases run
      exact .listenRemove at_
    · simp at run
  | wait events =>
    simp only [Server.step] at run
    split at run
    · rename_i idle none
      cases run
      exact .wait idle none
    · simp at run
  | dispatch =>
    simp only [Server.step] at run
    split at run
    · rename_i connid calls idle some
      cases run
      exact .dispatch idle some (Or.inl rfl)
    · rename_i connid calls idle some
      cases run
      exact .dispatch idle some (Or.inr rfl)
    · simp at run
  | loop act =>
    simp only [Server.step] at run
    split at run
    · rename_i possible
      split at run
      · simp at run
      · rename_i net loop event stepped
        cases run
        refine .loop (fun connid fd handler => ?_) (loopStep_spec stepped)
        simpa [handler] using possible
    · simp at run
  | send ok => exact Server.sendStep_spec run
  | wake =>
    simp only [Server.step] at run
    split at run
    · rename_i at_
      cases run
      exact .wake at_
    · simp at run
  | take i =>
    simp only [Server.step] at run
    split at run
    · rename_i work later idle pool
      cases run
      exact .take idle pool
    · simp at run
  | respond i reply =>
    simp only [Server.step] at run
    split at run
    · rename_i work at_
      split at run
      · cases reply with
        | none =>
          cases run
          exact .finish at_
        | some out =>
          obtain ⟨outdata, outlen⟩ := out
          simp only at run
          split at run
          · rename_i room
            cases run
            exact .respond at_ room.1 room.2
          · simp at run
      · simp at run
    · simp at run
  | signal i =>
    simp only [Server.step] at run
    split at run
    · rename_i at_
      cases run
      exact .signal at_
    · simp at run

section Observe

variable (s : Server) (event : LoopEvent TByte RByte)

@[simp] theorem Server.observe_net : (s.observe event).net = s.net := by cases event <;> rfl

@[simp] theorem Server.observe_loop : (s.observe event).loop = s.loop := by cases event <;> rfl

@[simp] theorem Server.observe_listen : (s.observe event).listen = s.listen := by cases event <;> rfl

@[simp] theorem Server.observe_send : (s.observe event).send = s.send := by cases event <;> rfl

@[simp] theorem Server.observe_worker : (s.observe event).worker = s.worker := by cases event <;> rfl

@[simp] theorem Server.observe_ident : (s.observe event).ident = s.ident := by cases event <;> rfl

variable {s event}

/-- Only `close` changes which descriptors are open. -/
theorem Server.observe_fds (open_ : ∀ fd, event ≠ .closed fd) : (s.observe event).fds = s.fds := by
  cases event with
  | closed fd => exact absurd rfl (open_ fd)
  | _ => rfl

/-- Sending leaves everything else that is observed as it is. -/
theorem Server.observe_outgoing (out : event.outgoing = true) :
    (s.observe event).fds = s.fds ∧ (s.observe event).closed = s.closed ∧
      (s.observe event).stopped = s.stopped ∧ (s.observe event).handed = s.handed := by
  cases event with
  | silent | sent | sendError | rearmed => exact ⟨rfl, rfl, rfl, rfl⟩
  | _ => cases out

end Observe

section LoopFacts

variable {α β : Type} [Cell α] {net net' : NetSvr α β} {act : LoopAct α} {pc pc' : LoopPc α β}
  {event : LoopEvent α β}

/-- A handler whose connection has left the table and whose descriptor is about to be closed. -/
def LoopPc.unlisted : LoopPc α β → Option Int
  | .epollin _ curfd .forget | .epollin _ curfd .close => some curfd
  | _ => none

/-- A handler that is closing its connection. -/
def LoopPc.closingFd : LoopPc α β → Option Int
  | .epollin _ curfd pc => if pc.closing then some curfd else none
  | _ => none

omit [Cell α] in
theorem LoopPc.closingFd_of_unlisted {fd : Int} (gone : pc.unlisted = some fd) : pc.closingFd = some fd := by
  unfold LoopPc.unlisted at gone
  split at gone
  · cases gone
    rfl
  · cases gone
    rfl
  · simp at gone

omit [Cell α] in
theorem LoopPc.unlisted_of_open (serving : pc.closingFd = none) : pc.unlisted = none := by
  cases gone : pc.unlisted with
  | none => rfl
  | some fd => simp [closingFd_of_unlisted gone] at serving

omit [Cell α] in
theorem LoopPc.handler_of_unlisted {fd : Int} (gone : pc.unlisted = some fd) :
    ∃ connid, pc.handler = some (connid, fd) := by
  unfold LoopPc.unlisted at gone
  split at gone
  · cases gone
    exact ⟨_, rfl⟩
  · cases gone
    exact ⟨_, rfl⟩
  · simp at gone

theorem LoopStep.conntable_next (step : LoopStep true net pc act net' pc' event) :
    net'.conntable = net.conntable ∨
      ∃ connid curfd, pc = .epollin connid curfd .drop ∧ pc' = .epollin connid curfd .forget ∧
        net'.conntable = connRemove net.conntable connid := by
  cases step with
  | epollin step =>
    cases step with
    | drop => exact Or.inr ⟨_, _, rfl, rfl, rfl⟩
    | _ => exact Or.inl rfl
  | epollout step => exact Or.inl step.net_next.1
  | _ => exact Or.inl rfl

theorem connRemove_shrinks {table : ConnTable} {gone id : ConnId} {fd : Int}
    (entry : connRemove table gone id = some fd) : id ≠ gone ∧ table id = some fd := by
  by_cases same : id = gone
  · simp [connRemove, same] at entry
  · exact ⟨same, by simpa [connRemove, same] using entry⟩

theorem connRemove_keeps {table : ConnTable} {id : ConnId} {fd : Int} (entry : table id = some fd) (gone : ConnId) :
    connRemove table gone id = some fd ∨ gone = id := by
  by_cases same : gone = id
  · exact Or.inr same
  · exact Or.inl ((Function.update_of_ne (Ne.symm same) ..).trans entry)

/-- The loop thread only ever removes entries. -/
theorem LoopStep.shrinks (step : LoopStep true net pc act net' pc' event) (id : ConnId) (fd : Int)
    (entry : net'.conntable id = some fd) : net.conntable id = some fd := by
  rcases step.conntable_next with same | ⟨connid, curfd, _, _, removed⟩
  · rwa [same] at entry
  · rw [removed] at entry
    exact (connRemove_shrinks entry).2

/-- A handler starts with the descriptor that the table has for its connection, and keeps it. -/
theorem LoopStep.handler_next (step : LoopStep true net pc act net' pc' event) :
    pc'.handler = none ∨ pc'.handler = pc.handler ∨
      ∃ connid fd, net.conntable connid = some fd ∧ pc'.handler = some (connid, fd) := by
  cases step with
  | inMissing | outMissing => exact Or.inl rfl
  | inFound found => exact Or.inr (Or.inr ⟨_, _, found, rfl⟩)
  | outFound found => exact Or.inr (Or.inr ⟨_, _, found, rfl⟩)
  | epollin step =>
    rcases step.pc_next with rfl | ⟨fault, rfl⟩ | ⟨next, rfl⟩
    · exact Or.inl rfl
    · exact Or.inl rfl
    · exact Or.inr (Or.inl rfl)
  | epollout step =>
    rcases step.pc_next with rfl | ⟨next, rfl⟩
    · exact Or.inl rfl
    · exact Or.inr (Or.inl rfl)

theorem LoopStep.unlisted_next (step : LoopStep true net pc act net' pc' event) {fd : Int}
    (gone : pc'.unlisted = some fd) :
    ∃ connid, pc.handler = some (connid, fd) ∧ pc'.handler = some (connid, fd) ∧
      (pc.unlisted = some fd ∨ net'.conntable = connRemove net.conntable connid) := by
  cases step with
  | epollin step =>
    cases step with
    | drop =>
      cases gone
      exact ⟨_, rfl, rfl, Or.inr rfl⟩
    | forget =>
      cases gone
      exact ⟨_, rfl, rfl, Or.inl rfl⟩
    | findLong _ _ next =>
      rcases next with rfl | rfl <;> simp [LoopPc.unlisted] at gone
    | _ => simp [LoopPc.unlisted] at gone
  | epollout step =>
    rcases step.pc_next with rfl | ⟨next, rfl⟩ <;> simp [LoopPc.unlisted] at gone
  | _ => simp [LoopPc.unlisted] at gone

theorem LoopStep.closed_spec {fd : Int} (step : LoopStep true net pc act net' pc' (.closed fd)) :
    ∃ connid, pc = .epollin connid fd .close ∧ pc' = .idle ∧ net' = net := by
  cases step with
  | epollin step =>
    cases step
    exact ⟨_, rfl, rfl, rfl⟩
  | epollout step => cases step.outgoing

/-- The loop thread only ever takes entries off the send queue. -/
theorem LoopStep.sendQueue_sublist (step : LoopStep true net pc act net' pc' event) :
    net'.sendQueue.Sublist net.sendQueue := by
  cases step with
  | epollin step =>
    rcases step.sendQueue_next with same | purged
    · rw [same]
    · rw [purged]
      exact qSendRemoveAll_sublist ..
  | epollout step => exact step.sendQueue_sublist
  | _ => exact .refl _

/-- A request is pushed for the connection of the handler, and reported. -/
theorem LoopStep.pool_next (step : LoopStep true net pc act net' pc' event) :
    net'.pool = net.pool ∨ ∃ connid curfd work, pc.handler = some (connid, curfd) ∧
      work.connid = connid ∧ net'.pool = net.pool ++ [work] ∧ event = .handed curfd work := by
  cases step with
  | epollin step =>
    cases step with
    | pushDone => exact Or.inr ⟨_, _, _, rfl, rfl, rfl, rfl⟩
    | _ => exact Or.inl rfl
  | epollout step => exact Or.inl step.net_next.2.2
  | _ => exact Or.inl rfl

theorem LoopStep.recvMap_other (step : LoopStep true net pc act net' pc' event) {id : ConnId}
    (other : ∀ fd, pc.handler ≠ some (id, fd)) : net'.recvMap id = net.recvMap id := by
  cases step with
  | epollin step => exact step.recvMap_other fun same => other _ (by rw [same]; rfl)
  | epollout step => rw [step.net_next.2.1]
  | _ => rfl

theorem LoopStep.rearmed_spec {connid : ConnId} {fd : Int}
    (step : LoopStep true net pc act net' pc' (.rearmed connid fd)) : pc.handler = some (connid, fd) := by
  cases step with
  | epollin step => cases step
  | epollout step =>
    generalize same : LoopEvent.rearmed connid fd = event at step
    cases step with
    | @rearm ok =>
      cases ok with
      | true => cases same; rfl
      | false => simp at same
    | _ => simp at same

end LoopFacts

end SvrNet

import SvrNet.Outbound
import SvrNet.ServiceAccounts
import SvrNet.ServiceRequests
import SvrNet.WorkProc

namespace SvrNet
open CData StepSystem

section Plain

variable {queue : SendQueue RByte} {id : ConnId}

theorem plainQueue_push {data : List RByte} :
    plainQueue (qSendPush queue id data) = qSendPush (plainQueue queue) id (data.map RByte.val) :=
  (qSendPush_map RByte.val).symm

theorem plainQueue_removeAll :
    plainQueue (qSendRemoveAllByConnid queue id) = qSendRemoveAllByConnid (plainQueue queue) id := by
  simp only [plainQueue, qSendRemoveAllByConnid, List.filter_map, Function.comp_def]

/-- Popping does not look at the bytes. -/
theorem plainQueue_popFirst (queue : SendQueue RByte) (id : ConnId) (len : Nat) :
    qSendPopFirst (plainQueue queue) id len =
      ⟨(qSendPopFirst queue id len).ret, (qSendPopFirst queue id len).len,
        (qSendPopFirst queue id len).data.map RByte.val, plainQueue (qSendPopFirst queue id len).queue⟩ := by
  have find : (plainQueue queue).find? (·.1 = id) =
      (queue.find? (·.1 = id)).map fun entry => (entry.1, entry.2.map RByte.val) := List.find?_map ..
  have erase : (plainQueue queue).eraseP (·.1 = id) = plainQueue (queue.eraseP (·.1 = id)) := List.eraseP_map ..
  unfold qSendPopFirst
  rw [find]
  cases queue.find? (·.1 = id) with
  | none => rfl
  | some entry =>
    simp only [Option.map_some, List.length_map]
    split
    · rfl
    · rw [erase]

theorem overtakes_plain {data : List RByte} :
    overtakes (plainQueue queue) id (data.map RByte.val) ↔ overtakes queue id data := by
  cases queue with
  | nil => exact Iff.rfl
  | cons entry later => simp [plainQueue, overtakes]

/-- An id without entries has no packets in the queue. -/
theorem packetsOf_of_absent {parts : SendQueue (List UInt8)} (spelled : plainQueue queue = joined parts)
    (absent : ∀ entry ∈ queue, entry.1 ≠ id) : packetsOf parts id = [] := by
  rw [packetsOf, List.flatMap_eq_nil_iff]
  intro entry member
  obtain ⟨here, owner⟩ := List.mem_filter.mp member
  have bytes : (entry.1, entry.2.flatten) ∈ plainQueue queue := spelled ▸ List.mem_map_of_mem here
  obtain ⟨other, stored, same⟩ := List.mem_map.mp bytes
  exact absurd ((congrArg Prod.fst same).trans (by simpa using owner)) (absent other stored)

end Plain

/-- What is left of the entry that the loop thread is sending under an id. -/
def Server.unsent (s : Server) (id : ConnId) : List UInt8 :=
  match s.loop with
  | .epollout connid _ (.send sendbuf ptr buflen) =>
    if connid = id then ((sendbuf.drop ptr).take buflen).map RByte.val else []
  | _ => []

@[simp] theorem Server.unsent_observe (s : Server) (event : LoopEvent TByte RByte) :
    (s.observe event).unsent = s.unsent := by
  funext id
  unfold Server.unsent
  rw [Server.observe_loop]

theorem Server.unsent_send {s : Server} {id : ConnId} {fd : Int} {sendbuf : List RByte} {ptr buflen : Nat}
    (at_ : s.loop = .epollout id fd (.send sendbuf ptr buflen)) :
    s.unsent id = ((sendbuf.drop ptr).take buflen).map RByte.val := by
  simp [Server.unsent, at_]

theorem Server.unsent_other {s : Server} {id other : ConnId} {fd : Int} {pc : OutPc RByte} (different : other ≠ id)
    (at_ : s.loop = .epollout id fd pc) : s.unsent other = [] := by
  cases pc <;> simp [Server.unsent, at_, Ne.symm different]

/-- Outside of a writable event nothing is left to send, nor in front of or behind the loop that sends. -/
theorem Server.unsent_none {s : Server} (outside : ∀ id fd sendbuf ptr buflen,
    s.loop ≠ .epollout id fd (.send sendbuf ptr buflen)) : s.unsent = fun _ => [] := by
  funext id
  unfold Server.unsent
  split
  · rename_i at_
    exact absurd at_ (outside _ _ _ _ _)
  · rfl

/-- Every accepted byte is the next one of those not yet sent. -/
theorem Server.unsent_sendSome {s : Server} {id : ConnId} {fd : Int} {sendbuf : List RByte} {ptr buflen count : Nat}
    (fits : count ≤ buflen) (at_ : s.loop = .epollout id fd
      (if 0 < buflen - count then .send sendbuf (ptr + count) (buflen - count) else .rearm)) :
    ((sendbuf.drop ptr).take count).map RByte.val ++ s.unsent id =
      ((sendbuf.drop ptr).take buflen).map RByte.val := by
  have split : (sendbuf.drop ptr).take buflen =
      (sendbuf.drop ptr).take count ++ (sendbuf.drop (ptr + count)).take (buflen - count) := by
    rw [← List.drop_drop, ← List.take_add, Nat.add_sub_cancel' fits]
  rw [split, List.map_append]
  by_cases more : 0 < buflen - count
  · rw [if_pos more] at at_
    rw [Server.unsent_send at_]
  · rw [if_neg more] at at_
    rw [Server.unsent_none (by simp [at_]), Nat.eq_zero_of_not_pos more, List.take_zero, List.map_nil]

/-- The packets that were pushed for a connection. -/
def Service.packets (s : Service) (conn : Nat) : List (List UInt8) := (s.pushed conn).map Prod.snd

theorem Service.packets_answered {s s' : Service} {work : Work TByte} {outdata : List UInt8} {outlen conn : Nat}
    (settled : s'.settled = s.settle work (some (outdata, outlen))) (owner : s.server.ident work.connid = some conn) :
    s'.packets conn = s.packets conn ++ [builtPack outdata outlen (toInt (headMsgID work.data))] := by
  rw [Service.packets, Service.pushed_answered settled, if_pos owner, List.map_append, ← Service.packets,
    List.map_singleton]

theorem Service.packets_declined {s s' : Service} {work : Work TByte} (settled : s'.settled = s.settle work none)
    (conn : Nat) : s'.packets conn = s.packets conn := by
  rw [Service.packets, Service.pushed_declined settled, ← Service.packets]

theorem SameOn.packets {s s' : Service} {conn : Nat} (same : SameOn s s' conn) : s'.packets conn = s.packets conn := by
  rw [Service.packets, Service.pushed, same.settled]
  rfl

/-- The stream of a connection under its id: the packets spelled out on it, then those that wait in the
queue, are pushed ones. -/
def Streamed (ordered : Bool) (parts : SendQueue (List UInt8)) (s : Service) (id : ConnId) (conn : Nat) : Prop :=
  ∃ used, Selected ordered (used ++ packetsOf parts id) (s.packets conn) ∧
    Spelled used (s.server.sentOn conn) (s.server.unsent id) (s.torn conn)

/-- A response is a frame that carries the message id of its request. -/
structure Responds (work : Work TByte) (packet : List UInt8) : Prop where
  isFrame : netPkg.IsFrame packet
  msgID : headMsgID packet = headMsgID work.data

/-- The packets behind the send queue, and the streams of the connections, as far as they are not
garbled. A connection that has lost its id to another one keeps the stream that it has. -/
structure StreamInv (ordered : Bool) (parts : SendQueue (List UInt8)) (s : Service) : Prop where
  queue : plainQueue s.server.net.sendQueue = joined parts
  responds : ∀ conn, ∀ answered ∈ s.pushed conn, Responds answered.1 answered.2
  streamed : ∀ id conn, s.server.ident id = some conn → s.garbled conn = false → Streamed ordered parts s id conn
  past : ∀ conn, s.garbled conn = false → ∃ used, Selected ordered used (s.packets conn) ∧ s.server.sentOn conn <+: used.flatten
  inside : ∀ connid sockfd sendbuf ptr buflen, s.server.loop = .epollout connid sockfd (.send sendbuf ptr buflen) →
    ptr + buflen = sendbuf.length

theorem streamInv_init (ordered : Bool) : StreamInv ordered [] Service.init where
  queue := rfl
  responds := by simp [Service.init, Service.pushed]
  streamed := by simp [Service.init, Server.init]
  past := fun _ _ => ⟨[], Selected.of_sublist (List.nil_sublist _), List.prefix_rfl⟩
  inside := by simp [Service.init, Server.init]

theorem Streamed.past {ordered : Bool} {parts : SendQueue (List UInt8)} {s : Service} {id : ConnId} {conn : Nat}
    (streamed : Streamed ordered parts s id conn) :
    ∃ used, Selected ordered used (s.packets conn) ∧ s.server.sentOn conn <+: used.flatten := by
  obtain ⟨used, selected, spelled⟩ := streamed
  exact ⟨used, (Selected.of_sublist (List.sublist_append_left ..)).trans selected, spelled.initial⟩

theorem responds_builtPack {work : Work TByte} {outdata : List UInt8} {outlen : Nat}
    (room : outlen + netPkgSize ≤ outdata.length) (bound : outlen + netPkgSize ≤ intMax) :
    Responds work (builtPack outdata outlen (toInt (headMsgID work.data))) := by
  have read := readPkg_packHead (toInt (headMsgID work.data)) (show outlen ≤ intMax by omega) (outdata.take outlen)
  rw [← builtPack_eq _ room bound, readPkg, NetPkg.mk.injEq, toInt_headMsgID] at read
  exact ⟨builtPack_isFrame _ room bound, read.2.1⟩

section Steps

variable {ordered : Bool} {parts parts' : SendQueue (List UInt8)} {s s' : Service}

/-- Steps that leave the queue and the streams as they are. -/
theorem StreamInv.quiet (inv : StreamInv ordered parts s) (ident : s'.server.ident = s.server.ident)
    (queue : s'.server.net.sendQueue = s.server.net.sendQueue) (settled : s'.settled = s.settled)
    (sent : s'.server.sent = s.server.sent) (torn : s'.torn = s.torn) (garbled : s'.garbled = s.garbled)
    (left : s'.server.unsent = s.server.unsent)
    (inside : ∀ connid sockfd sendbuf ptr buflen,
      s'.server.loop = .epollout connid sockfd (.send sendbuf ptr buflen) → ptr + buflen = sendbuf.length) :
    StreamInv ordered parts s' where
  queue := by rw [queue, inv.queue]
  responds := fun conn => by
    rw [Service.pushed, settled]
    exact inv.responds conn
  streamed := fun id conn owner clean => by
    unfold Streamed
    rw [Service.packets, Service.pushed, settled, Server.sentOn, sent, left, torn]
    exact inv.streamed id conn (ident ▸ owner) (garbled ▸ clean)
  past := fun conn clean => by
    rw [Service.packets, Service.pushed, settled, Server.sentOn, sent]
    exact inv.past conn (garbled ▸ clean)
  inside := inside

/-- Steps that concern what goes by one id only. -/
theorem StreamInv.of_conn (inv : StreamInv ordered parts s) (id : ConnId) (owners : OwnerInv s.server)
    (ident : s'.server.ident = s.server.ident) (queue : plainQueue s'.server.net.sendQueue = joined parts')
    (responds : ∀ conn, ∀ answered ∈ s'.pushed conn, Responds answered.1 answered.2)
    (packets : ∀ other, other ≠ id → packetsOf parts' other = packetsOf parts other)
    (left : ∀ other, other ≠ id → s'.server.unsent other = s.server.unsent other)
    (same : ∀ conn, s.server.ident id ≠ some conn → SameOn s s' conn)
    (clean : ∀ conn, s'.garbled conn = false → s.garbled conn = false)
    (own : ∀ conn, s.server.ident id = some conn → s'.garbled conn = false → Streamed ordered parts s id conn →
      Streamed ordered parts' s' id conn)
    (inside : ∀ connid sockfd sendbuf ptr buflen,
      s'.server.loop = .epollout connid sockfd (.send sendbuf ptr buflen) → ptr + buflen = sendbuf.length) :
    StreamInv ordered parts' s' := by
  refine ⟨queue, responds, fun other conn owner still => ?_, fun conn still => ?_, inside⟩
  · rw [ident] at owner
    have streamed := inv.streamed other conn owner (clean conn still)
    by_cases here : other = id
    · subst here
      exact own conn owner still streamed
    · have apart : s.server.ident id ≠ some conn := fun both => here (owners.distinct other id conn owner both)
      obtain ⟨used, selected, spelled⟩ := streamed
      refine ⟨used, ?_, ?_⟩
      · rw [packets other here, (same conn apart).packets]
        exact selected
      · rwa [(same conn apart).sent, (same conn apart).torn, left other here]
  · by_cases owner : s.server.ident id = some conn
    · exact (own conn owner still (inv.streamed id conn owner (clean conn still))).past
    · rw [(same conn owner).packets, (same conn owner).sent]
      exact inv.past conn (clean conn still)

section Handler

variable {id : ConnId} {fd : Int} {act : LoopAct TByte} {net : NetSvr TByte RByte}
  {loop : LoopPc TByte RByte} {event : LoopEvent TByte RByte}

/-- Once a stream is garbled it stays so. -/
theorem Service.observe_clean (s : Service) (event : LoopEvent TByte RByte) {conn : Nat}
    (clean : (s.observe event).garbled conn = false) : s.garbled conn = false := by
  cases event with
  | sent connid sockfd bytes =>
    simp only [Service.observe, Bool.or_eq_false_iff] at clean
    exact clean.1
  | _ => exact clean

/-- Bytes that do not garble a stream are accepted on one that is not torn. -/
theorem Service.observe_sent_clean (s : Service) (connid : ConnId) {bytes : List RByte} {conn : Nat}
    (open_ : s.server.fds fd = some conn) (some : bytes ≠ [])
    (clean : (s.observe (.sent connid fd bytes)).garbled conn = false) : s.torn conn = false := by
  simp only [Service.observe, Bool.or_eq_false_iff] at clean
  simpa [open_, some] using clean.2

/-- A handler changes the streams of its own connection only. -/
theorem LoopStep.same_elsewhere (step : LoopStep true s.server.net s.server.loop act net loop event)
    (isolation : IsolationInv s.server) (handler : s.server.loop.handler = some (id, fd)) (conn : Nat)
    (apart : s.server.ident id ≠ some conn) :
    SameOn s { s.observe event with server := ({ s.server with net := net, loop := loop } : Server).observe event }
      conn := by
  refine Service.observe_elsewhere fun other source => ?_
  obtain ⟨connid, same⟩ := step.source_handler source
  cases handler.symm.trans same
  rw [isolation.owner id fd handler]
  exact apart

theorem StreamInv.step_epollout {pc : OutPc RByte} (inv : StreamInv ordered parts s) (owners : OwnerInv s.server)
    (isolation : IsolationInv s.server) (at_ : s.server.loop = .epollout id fd pc)
    (step : OutStep s.server.net id fd pc act net loop event) :
    ∃ parts', StreamInv ordered parts' { s.observe event with
      server := ({ s.server with net := net, loop := loop } : Server).observe event } := by
  have handler : s.server.loop.handler = some (id, fd) := by rw [at_]; rfl
  have open_ := isolation.owner id fd handler
  have whole_ : LoopStep true s.server.net s.server.loop act net loop event := by
    rw [at_]
    exact .epollout step
  have elsewhere := whole_.same_elsewhere isolation handler
  have clean : ∀ conn, (s.observe event).garbled conn = false → s.garbled conn = false := fun _ => s.observe_clean event
  have others : ∀ other, other ≠ id → ({ s.server with net := net, loop := loop } : Server).unsent other =
      s.server.unsent other := by
    intro other different
    rw [Server.unsent_other different at_]
    rcases step.pc_next with rfl | ⟨next, rfl⟩
    · rfl
    · exact Server.unsent_other different rfl
  cases step with
  | popNothing =>
    have nothing : s.server.unsent = fun _ => [] := Server.unsent_none (by simp [at_])
    refine ⟨parts, inv.quiet rfl rfl rfl rfl rfl rfl ?_ (by simp [Server.observe])⟩
    exact (Server.unsent_none (by simp)).trans nothing.symm
  | popEntry popped =>
    have plain := plainQueue_popFirst s.server.net.sendQueue id netSendBuffSize
    have found : (qSendPopFirst (joined parts) id netSendBuffSize).ret ≠ -1 := by
      rw [← inv.queue, plain]
      exact popped
    obtain ⟨whole, rest, result, split, packets⟩ := qSendPopFirst_joined found
    rw [← inv.queue, plain, Popped.mk.injEq] at result
    obtain ⟨_, size, data, queue⟩ := result
    refine ⟨rest, inv.of_conn id owners rfl queue inv.responds packets others elsewhere clean
      (fun conn owner _ streamed => ?_) ?_⟩
    · obtain ⟨used, selected, spelled⟩ := streamed
      refine ⟨used ++ whole, by rwa [List.append_assoc, ← split], ?_⟩
      have nothing : s.server.unsent id = [] := by rw [Server.unsent_none (by simp [at_])]
      rw [nothing] at spelled
      have sending : (({ s.server with
          net := { s.server.net with sendQueue := (qSendPopFirst s.server.net.sendQueue id netSendBuffSize).queue }
          loop := .epollout id fd (.send (qSendPopFirst s.server.net.sendQueue id netSendBuffSize).data 0
            (qSendPopFirst s.server.net.sendQueue id netSendBuffSize).len) } : Server)).unsent id = whole.flatten := by
        rw [Server.unsent_send rfl, List.drop_zero, List.map_take, data, size, List.take_length]
      rw [Server.unsent_observe, sending]
      exact Spelled.pop spelled
    · rintro _ _ _ _ _ ⟨⟩
      rw [Nat.zero_add, size, ← data, List.length_map]
  | @sendSome sendbuf ptr buflen count fits =>
    have inside := inv.inside _ _ _ _ _ at_
    refine ⟨parts, inv.of_conn id owners rfl inv.queue inv.responds (fun _ _ => rfl) others elsewhere clean
      (fun conn owner still streamed => ?_) ?_⟩
    · obtain ⟨used, selected, spelled⟩ := streamed
      refine ⟨used, selected, ?_⟩
      rw [Server.sentOn_append (s := s.server) conn (s.server.fds fd) ((sendbuf.drop ptr).take count) rfl,
        if_pos (open_.trans owner), Server.unsent_observe]
      rw [Server.unsent_send at_, ← Server.unsent_sendSome fits (s := { s.server with
        loop := .epollout id fd (if 0 < buflen - count then .send sendbuf (ptr + count) (buflen - count) else .rearm) })
        rfl] at spelled
      refine Spelled.accept spelled fun some => s.observe_sent_clean id (open_.trans owner) ?_ still
      rw [List.length_map] at some
      exact List.ne_nil_of_length_pos some
    · intro other fd' buf start left here
      rw [Server.observe_loop, LoopPc.epollout.injEq] at here
      obtain ⟨_, _, next⟩ := here
      split at next
      · cases next
        omega
      · simp at next
  | @sendAgain sendbuf ptr buflen errno again =>
    by_cases some : 0 < buflen
    · rw [if_pos some, ← at_]
      exact ⟨parts, inv.quiet rfl rfl rfl rfl rfl rfl rfl inv.inside⟩
    · rw [if_neg some]
      refine ⟨parts, inv.quiet rfl rfl rfl rfl rfl rfl ?_ (by simp [Server.observe])⟩
      funext other
      rw [Server.unsent_none (by simp [Server.observe])]
      by_cases here : other = id
      · rw [here, Server.unsent_send at_, Nat.eq_zero_of_not_pos some]
        rfl
      · rw [Server.unsent_other here at_]
  | @sendError sendbuf ptr buflen errno failed =>
    refine ⟨parts, inv.of_conn id owners rfl inv.queue inv.responds (fun _ _ => rfl) others elsewhere clean
      (fun conn owner _ streamed => ?_) (by simp [Server.observe])⟩
    obtain ⟨used, selected, spelled⟩ := streamed
    have frames : ∀ packet ∈ used, netPkg.IsFrame packet := by
      intro packet member
      obtain ⟨answered, here, rfl⟩ := List.mem_map.mp (selected.subset (List.mem_append_left _ member))
      exact (inv.responds conn answered here).isFrame
    obtain ⟨kept, sublist, ended⟩ := spelled.giveUp frames
    refine ⟨kept, (Selected.of_sublist (sublist.append_right _)).trans selected, ?_⟩
    rw [Server.unsent_observe, Server.unsent_none (by simp)]
    have torn : (s.observe (.sendError id fd)).torn conn =
        (s.torn conn || !(netPkg.rest (s.server.sentOn conn)).isEmpty) := by
      simp [Service.observe, open_.trans owner]
    rwa [torn]
  | @rearm ok =>
    have nothing : s.server.unsent = fun _ => [] := Server.unsent_none (by simp [at_])
    have quiet : ({ s.server with loop := .idle } : Server).unsent = s.server.unsent :=
      (Server.unsent_none (by simp)).trans nothing.symm
    cases ok with
    | true => exact ⟨parts, inv.quiet rfl rfl rfl rfl rfl rfl quiet (by simp [Server.observe])⟩
    | false => exact ⟨parts, inv.quiet rfl rfl rfl rfl rfl rfl quiet (by simp [Server.observe])⟩

theorem StreamInv.step_epollin {pc : InPc TByte} (inv : StreamInv ordered parts s) (owners : OwnerInv s.server)
    (isolation : IsolationInv s.server) (at_ : s.server.loop = .epollin id fd pc)
    (step : InStep true s.server.net id fd pc act net loop event) :
    ∃ parts', StreamInv ordered parts' { s.observe event with
      server := ({ s.server with net := net, loop := loop } : Server).observe event } := by
  have handler : s.server.loop.handler = some (id, fd) := by rw [at_]; rfl
  have whole_ : LoopStep true s.server.net s.server.loop act net loop event := by
    rw [at_]
    exact .epollin step
  have outside : ∀ id fd sendbuf ptr buflen, loop ≠ .epollout id fd (.send sendbuf ptr buflen) := by
    rcases step.pc_next with rfl | ⟨fault, rfl⟩ | ⟨next, rfl⟩ <;> simp
  have before : s.server.unsent = fun _ => [] := Server.unsent_none (by simp [at_])
  have left : ({ s.server with net := net, loop := loop } : Server).unsent = s.server.unsent :=
    (Server.unsent_none outside).trans before.symm
  have same : (s.observe event).settled = s.settled ∧ (s.observe event).torn = s.torn ∧
      (s.observe event).garbled = s.garbled ∧
        (({ s.server with net := net, loop := loop } : Server).observe event).sent = s.server.sent := by
    cases step <;> exact ⟨rfl, rfl, rfl, rfl⟩
  obtain ⟨settled, torn, garbled, sent⟩ := same
  have inside : ∀ connid sockfd sendbuf ptr buflen,
      (({ s.server with net := net, loop := loop } : Server).observe event).loop =
        .epollout connid sockfd (.send sendbuf ptr buflen) → ptr + buflen = sendbuf.length := by
    intro connid sockfd sendbuf ptr buflen here
    rw [Server.observe_loop] at here
    exact absurd here (outside _ _ _ _ _)
  rcases step.sendQueue_next with kept | purged
  · exact ⟨parts, inv.quiet (by simp) (by simpa using kept) settled sent torn garbled (by simpa using left) inside⟩
  · refine ⟨qSendRemoveAllByConnid parts id, inv.of_conn id owners (by simp) ?_ ?_
      (fun other different => packetsOf_removeAll_other different) (fun other _ => ?_)
      (whole_.same_elsewhere isolation handler) (fun _ => s.observe_clean event) (fun conn owner _ streamed => ?_) inside⟩
    · rw [Server.observe_net, purged, plainQueue_removeAll, inv.queue, joined_removeAll]
    · simpa only [Service.pushed, settled] using inv.responds
    · rw [Server.unsent_observe]
      exact congrFun left other
    · obtain ⟨used, selected, spelled⟩ := streamed
      refine ⟨used, ?_, ?_⟩
      · rw [packetsOf_removeAll, List.append_nil, Service.packets, Service.pushed, settled]
        exact (Selected.of_sublist (List.sublist_append_left ..)).trans selected
      · rw [Server.sentOn, sent, Server.unsent_observe, torn, ← Server.sentOn]
        exact (congrFun left id).symm ▸ spelled

end Handler

/-- A response goes into the queue and is recorded for the connection of its request. -/
theorem StreamInv.step_respond (inv : StreamInv ordered parts s) (owners : OwnerInv s.server) {i : Nat}
    {work : Work TByte} {outdata : List UInt8} {outlen : Nat} (room : outlen + netPkgSize ≤ outdata.length)
    (bound : outlen + netPkgSize ≤ intMax)
    (turn : ordered = true → ¬ overtakes s.server.net.sendQueue work.connid (workPack work outdata outlen)) :
    ∃ parts', StreamInv ordered parts' { s with
      server := { s.server with
        net := { s.server.net with
          sendQueue := qSendPush s.server.net.sendQueue work.connid (workPack work outdata outlen) }
        worker := Function.update s.server.worker i .signal }
      settled := s.settle work (some (outdata, outlen)) } := by
  have plain : (workPack work outdata outlen).map RByte.val =
      builtPack outdata outlen (toInt (headMsgID work.data)) := by
    rw [workPack, List.map_map]
    exact List.map_id _
  have pushed := Service.pushed_answered
    (show Service.settled { s with settled := s.settle work (some (outdata, outlen)) } = s.settle work _ from rfl)
  refine ⟨pushPart parts work.connid (builtPack outdata outlen (toInt (headMsgID work.data))),
    inv.of_conn work.connid owners rfl ?_ (fun conn answered member => ?_)
      (fun other different => packetsOf_pushPart_other different) (fun _ _ => rfl) (fun conn apart => ?_)
      (fun _ clean => clean) (fun conn owner _ streamed => ?_) inv.inside⟩
  · rw [plainQueue_push, plain, inv.queue, qSendPush_joined]
  · rcases List.mem_append.mp (pushed conn ▸ member : answered ∈ s.pushed conn ++ _) with old | new
    · exact inv.responds conn answered old
    · split at new
      · rw [List.mem_singleton.mp new]
        dsimp only
        exact responds_builtPack room bound
      · simp at new
  · exact ⟨rfl, if_neg apart, rfl, rfl, rfl, rfl, rfl, rfl⟩
  · obtain ⟨used, selected, spelled⟩ := streamed
    refine ⟨used, ?_, spelled⟩
    have packets := Service.packets_answered
      (show Service.settled { s with settled := s.settle work (some (outdata, outlen)) } = s.settle work _ from rfl) owner
    refine Selected.trans ?_ (packets ▸ selected.append_right _)
    rw [List.append_assoc]
    cases ordered with
    | true =>
      have behind : ¬ overtakes (joined parts) work.connid (builtPack outdata outlen (toInt (headMsgID work.data))) := by
        rw [← inv.queue, ← plain, overtakes_plain]
        exact turn rfl
      rw [packetsOf_pushPart_inTurn behind]
      exact .refl _
    | false => exact Selected.of_perm rfl (packetsOf_pushPart.append_left used)

/-- A request that the handler refused has no packet. -/
theorem StreamInv.step_finish (inv : StreamInv ordered parts s) {i : Nat} {work : Work TByte} :
    StreamInv ordered parts { s with
      server := { s.server with worker := Function.update s.server.worker i .idle }
      settled := s.settle work none } := by
  have pushed := Service.pushed_declined
    (show Service.settled { s with settled := s.settle work none } = s.settle work none from rfl)
  have packets := Service.packets_declined
    (show Service.settled { s with settled := s.settle work none } = s.settle work none from rfl)
  refine ⟨inv.queue, fun conn answered member => inv.responds conn answered ((List.Perm.of_eq (pushed conn)).subset member),
    fun id conn owner clean => ?_, fun conn clean => ?_, inv.inside⟩
  · obtain ⟨used, selected, spelled⟩ := inv.streamed id conn owner clean
    exact ⟨used, (packets conn).symm ▸ selected, spelled⟩
  · obtain ⟨used, selected, initial⟩ := inv.past conn clean
    exact ⟨used, (packets conn).symm ▸ selected, initial⟩

/-- A connection that gets an id finds no packets under it. -/
theorem StreamInv.step_insert (inv : StreamInv ordered parts s) (blank : BlankInv s) {fd : Int} {id : ConnId}
    {server : Server} (at_ : s.server.listen = .insert fd) (unused : ¬ Carries s.server id)
    (queue : server.net.sendQueue = s.server.net.sendQueue) (loop : server.loop = s.server.loop)
    (ident : server.ident = Function.update s.server.ident id (s.server.fds fd))
    (sent : server.sent = s.server.sent) : StreamInv ordered parts { s with server := server } := by
  have left : server.unsent = s.server.unsent := by
    unfold Server.unsent
    rw [loop]
  have sentOn : ∀ conn, server.sentOn conn = s.server.sentOn conn := fun conn => by
    rw [Server.sentOn, sent, ← Server.sentOn]
  refine ⟨by rw [queue, inv.queue], inv.responds, fun other conn owner clean => ?_, fun conn clean => ?_, ?_⟩
  · unfold Streamed
    rw [sentOn, left]
    by_cases here : other = id
    · subst here
      rw [ident, Function.update_self] at owner
      have begins := blank.inserting fd conn at_ owner
      have empty : packetsOf parts other = [] :=
        packetsOf_of_absent inv.queue fun entry member same => unused (.queue member same)
      have nothing : s.server.unsent other = [] := by
        unfold Server.unsent
        split
        · rename_i connid sockfd sendbuf ptr buflen running
          have handler : s.server.loop.handler = some (connid, sockfd) := by
            rw [running]
            rfl
          have different : connid ≠ other := fun same => unused (same ▸ .handler handler)
          rw [if_neg different]
        · rfl
      rw [empty, nothing, begins.sent]
      exact ⟨[], Selected.of_sublist (List.nil_sublist _), by simp [Spelled]⟩
    · rw [ident, Function.update_of_ne here] at owner
      exact inv.streamed other conn owner clean
  · rw [sentOn]
    exact inv.past conn clean
  · intro connid sockfd sendbuf ptr buflen here
    exact inv.inside connid sockfd sendbuf ptr buflen (loop ▸ here)

theorem StreamInv.step {act : ServerAct} (inv : StreamInv ordered parts s) (known : ServiceKnown s)
    (fresh : freshId act s.server) (order : ordered = true → alone act s) (step : ServiceStep s act s') :
    ∃ parts', StreamInv ordered parts' s' := by
  cases step with
  | @loop act net loop event _ step =>
    generalize at_ : s.server.loop = before at step
    generalize tagged : act.tagged s.server.handlerOwner = tact at step
    cases step with
    | inMissing | outMissing | inFound | outFound =>
      have nothing : s.server.unsent = fun _ => [] := Server.unsent_none (by simp [at_])
      exact ⟨parts, inv.quiet rfl rfl rfl rfl rfl rfl ((Server.unsent_none (by simp [Server.observe])).trans nothing.symm)
        (by simp [Server.observe])⟩
    | epollin inner => exact inv.step_epollin known.owners known.isolation at_ inner
    | epollout inner => exact inv.step_epollout known.owners known.isolation at_ inner
  | respond at_ room bound =>
    exact inv.step_respond known.owners room bound fun once => order once _ (by rw [at_]; rfl)
  | finish => exact ⟨parts, inv.step_finish⟩
  | other step notLoop notRespond =>
    cases step with
    | loop => exact absurd rfl (notLoop _)
    | respond | finish => exact absurd rfl (notRespond _ _)
    | insert at_ inserted =>
      refine ⟨parts, inv.step_insert known.blank at_ (fun carries => ?_) rfl rfl rfl rfl⟩
      rcases fresh _ (by rw [at_]; rfl) _ inserted with new | unused
      · have old := known.isolation.known known.table carries
        simp [new] at old
      · exact unused carries
    | dispatch idle _ loop =>
      have nothing : s.server.unsent = fun _ => [] := Server.unsent_none (by simp [idle])
      refine ⟨parts, inv.quiet rfl rfl rfl rfl rfl rfl ((Server.unsent_none ?_).trans nothing.symm) ?_⟩
      · rcases loop with rfl | rfl <;> simp
      · rcases loop with rfl | rfl <;> simp
    | @sendPurge ok id at_ =>
      refine ⟨qSendRemoveAllByConnid parts id, inv.of_conn id known.owners rfl ?_ inv.responds
        (fun other different => packetsOf_removeAll_other different) (fun _ _ => rfl)
        (fun conn _ => ⟨rfl, rfl, rfl, rfl, rfl, rfl, rfl, rfl⟩) (fun _ clean => clean) (fun conn owner _ streamed => ?_)
        inv.inside⟩
      · rw [plainQueue_removeAll, inv.queue, joined_removeAll]
      · obtain ⟨used, selected, spelled⟩ := streamed
        refine ⟨used, ?_, spelled⟩
        rw [packetsOf_removeAll, List.append_nil]
        exact (Selected.of_sublist (List.sublist_append_left ..)).trans selected
    | _ => exact ⟨parts, inv.quiet rfl rfl rfl rfl rfl rfl rfl inv.inside⟩

end Steps

/-- What is sent on a connection, against what was pushed for it and handed on from it. -/
structure Answered (ordered : Bool) (s : Service) (conn : Nat) : Prop where
  spelled : ∃ used, Selected ordered used (s.packets conn) ∧ s.server.sentOn conn <+: used.flatten
  frames : Selected ordered (netPkg.frames (s.server.sentOn conn)) (s.packets conn)
  requests : Selected ordered ((s.pushed conn).map Prod.fst) (s.server.handedOn conn)
  responds : ∀ answered ∈ s.pushed conn, Responds answered.1 answered.2

/-- Orderly runs, in which the responses cannot change places when order matters. -/
def keeping (ordered : Bool) (act : ServerAct) (s : Service) : Prop :=
  orderly act s ∧ (ordered = true → alone act s)

/-- The same with `n` threads in the pool and ids that come back when nothing goes by them any more. -/
def keepingReusing (n : Nat) (ordered : Bool) (act : ServerAct) (s : Service) : Prop :=
  orderlyReusing n act s ∧ (ordered = true → alone act s)

instance (n : Nat) (ordered : Bool) (act : ServerAct) (s : Service) : Decidable (keepingReusing n ordered act s) :=
  inferInstanceAs (Decidable (_ ∧ _))

/-- Orderly runs in which moreover no id comes back while the send thread is at it. -/
def keepingQuiet (ordered : Bool) (act : ServerAct) (s : Service) : Prop :=
  quietId act s.server ∧ keeping ordered act s

theorem keepingQuiet_of_reusing {n : Nat} {ordered : Bool} {act : ServerAct} {s : Service}
    (threads : ThreadsInv n s.server) (allowed : keepingReusing n ordered act s) : keepingQuiet ordered act s := by
  have quiet := quietId_of_reusesId threads allowed.1.1
  exact ⟨quiet, ⟨freshId_of_quietId quiet, allowed.1.2⟩, allowed.2⟩

theorem keepingQuiet_reach {n : Nat} {ordered : Bool} {s : Service}
    (reach : Reach Service.step (keepingReusing n ordered) Service.init s) :
    Reach Service.step (keepingQuiet ordered) Service.init s :=
  reach.mono_of (K := fun s => ThreadsInv n s.server)
    (fun _ reach => threadsInv_reach (Service.server_reach reach fun _ _ allowed => allowed.1.1))
    fun _ _ => keepingQuiet_of_reusing

section Answers

variable {ordered : Bool} {s : Service} {conn : Nat} {packets : Nat → List (List TByte)}

theorem answered_reach {guard : ServerAct → Service → Prop} (reach : Reach Service.step guard Service.init s)
    (fresh : ∀ act s, guard act s → freshId act s.server) (order : ordered = true → ∀ act s, guard act s → alone act s)
    (clean : s.garbled conn = false) : Answered ordered s conn := by
  have known : ∀ s, Reach Service.step guard Service.init s → ServiceKnown s := fun s reach =>
    serviceKnown_reach reach fresh
  obtain ⟨hands, accounts⟩ := reach.invariant_of (P := fun s => ∃ hands, AccountInv ordered hands s) known
    ⟨_, accountInv_init ordered⟩ fun _ _ _ known _ ⟨_, inv⟩ allowed run =>
      inv.step known (fresh _ _ allowed) (fun once => order once _ _ allowed) (Service.step_spec run)
  obtain ⟨parts, streams⟩ := reach.invariant_of (P := fun s => ∃ parts, StreamInv ordered parts s) known
    ⟨_, streamInv_init ordered⟩ fun _ _ _ known _ ⟨_, inv⟩ allowed run =>
      inv.step known (fresh _ _ allowed) (fun once => order once _ _ allowed) (Service.step_spec run)
  obtain ⟨used, selected, initial⟩ := streams.past conn clean
  have frames : ∀ packet ∈ used, netPkg.IsFrame packet := by
    intro packet member
    obtain ⟨answered, here, rfl⟩ := List.mem_map.mp (selected.subset member)
    exact (streams.responds conn answered here).isFrame
  obtain ⟨count, taken, _⟩ := Framing.frames_of_prefix frames initial
  refine ⟨⟨used, selected, initial⟩, ?_, ?_, streams.responds conn⟩
  · rw [taken]
    exact (Selected.of_sublist (List.take_sublist count used)).trans selected
  · have answered := s.pushed_sublist conn
    exact (Selected.of_sublist (answered.trans (List.sublist_append_left ..))).trans
      (Selected.of_arranged (accounts.account conn))

/-- A client that counts the message ids of what it sent and of what it gets back. -/
theorem Answered.msgIDs (answered : Answered ordered s conn)
    (handed : (s.server.handedOn conn).map Work.data <+: netPkg.frames (s.received conn)) :
    Selected ordered ((netPkg.frames (s.server.sentOn conn)).map headMsgID)
      ((netPkg.frames (s.received conn)).map headMsgID) := by
  have same : (s.packets conn).map headMsgID = ((s.pushed conn).map Prod.fst).map fun work => headMsgID work.data := by
    rw [Service.packets, List.map_map, List.map_map]
    exact List.map_congr_left fun one member => (answered.responds one member).msgID
  have sent := answered.frames.map headMsgID
  rw [same] at sent
  have requests := answered.requests.map fun work => headMsgID work.data
  have all : (s.server.handedOn conn).map (fun work => headMsgID work.data) <+:
      (netPkg.frames (s.received conn)).map headMsgID := by
    have initial := handed.map headMsgID
    rwa [List.map_map] at initial
  exact (sent.trans requests).trans (.of_sublist all.sublist)

/-- Whatever clients come and go, and however the threads take turns: the bytes sent on a connection
spell out responses that were pushed for it, each of them once, and each answers a request of this
connection, none of them twice, unless more was accepted behind a packet that was given up half way. -/
theorem responses_answer_requests (reach : Reach Service.step (onServer freshId) Service.init s)
    (clean : s.garbled conn = false) : Answered false s conn :=
  answered_reach reach (fun _ _ allowed => allowed) nofun clean

/-- The second request of a client, with another message id. -/
def secondPacket : List UInt8 := [0, 0, 2, 0, 0, 0, 0, 0, 0, 0]

/-- A response is given up half way, and the next one is sent behind it. -/
def garbles (fd : Int) : List ServerAct :=
  requests fd emptyPacket ++ answers 0 ++
    [.wait [(fd, false, true)], .dispatch, .loop .tau, .loop .tau, .loop (.send (.sent 5)),
      .loop (.send (.fail .other)), .loop (.ctl true)] ++
    requests fd emptyPacket ++ answers 0 ++ [.send true, .send true, .send true] ++ transmits fd 10

/-- The first client is answered and gone, and the stream of the second one is garbled, when the third one
is given the descriptor and the id of the first. It sends two packets, and the second one is answered first. -/
def crossedRun : List ServerAct :=
  visit ++ connects 6 8 ++ garbles 6 ++ connects 5 7 ++ requests 5 emptyPacket ++ requests 5 secondPacket ++
    [.take 0, .take 1, .respond 1 (some (emptyPacket, 0)), .signal 1, .respond 0 (some (emptyPacket, 0)), .signal 0] ++
    transmits 5 20

theorem responses_answer_requests_crossed : ∃ s,
    exec (guarded Service.step (orderlyReusing 2)) crossedRun Service.init = some s ∧
      s.server.ident 7 = some 2 ∧ s.garbled 1 = true ∧ (s.server.sentOn 2).length = 20 ∧ Answered false s 2 := by
  have ends : ∃ s, exec (guarded Service.step (orderlyReusing 2)) crossedRun Service.init = some s ∧
      s.server.ident 7 = some 2 ∧ s.garbled 1 = true ∧ (s.server.sentOn 2).length = 20 ∧ s.garbled 2 = false :=
    exec_ends (by decide +kernel)
  obtain ⟨s, run, owner, garbled, sent, clean⟩ := ends
  have reach := orderly_reach (reach_of_exec_guarded run)
  exact ⟨s, run, owner, garbled, sent,
    responses_answer_requests (reach.mono fun _ _ allowed => allowed.1) clean⟩

/-- Between the two ends of a connection: each packet that a client gets back carries the message id of
a packet that it sent, and no packet of it is answered twice. -/
theorem each_packet_answered_once (reach : Reach Service.step orderly Service.init s)
    (wellFormed : ∀ conn, ∀ packet ∈ packets conn, WellFormed packet)
    (initial : ∀ conn, s.received conn <+: (packets conn).flatten) (clean : s.garbled conn = false) :
    ((netPkg.frames (s.server.sentOn conn)).map headMsgID).Subperm
      ((netPkg.frames (s.received conn)).map headMsgID) :=
  (responses_answer_requests (reach.mono fun _ _ allowed => allowed.1) clean).msgIDs
    ((receiveInv_reach reach wellFormed initial).handed conn)

def crossedPackets : Nat → List (List TByte) :=
  sentBy [[emptyPacket], [emptyPacket, emptyPacket], [emptyPacket, secondPacket]]

theorem each_packet_answered_once_crossed : ∃ s,
    exec (guarded Service.step (orderlyReusing 2)) crossedRun Service.init = some s ∧
      (netPkg.frames (s.server.sentOn 2)).map headMsgID = [2, 1] ∧
      ((netPkg.frames (s.server.sentOn 2)).map headMsgID).Subperm
        ((netPkg.frames (s.received 2)).map headMsgID) := by
  have ends : ∃ s, exec (guarded Service.step (orderlyReusing 2)) crossedRun Service.init = some s ∧
      (netPkg.frames (s.server.sentOn 2)).map headMsgID = [2, 1] ∧ s.garbled 2 = false ∧
      ∀ conn < s.server.accepted, s.received conn <+: (crossedPackets conn).flatten := exec_ends (by decide +kernel)
  obtain ⟨s, run, sent, clean, begun⟩ := ends
  have reach := orderly_reach (reach_of_exec_guarded run)
  have known := serviceKnown_reach reach fun _ _ allowed => allowed.1
  exact ⟨s, run, sent,
    each_packet_answered_once reach (sentBy_wellFormed (by decide +kernel)) (known.initial begun) clean⟩

/-- With one worker, and as long as no response is merged past another one, the responses come in the
order of the requests. -/
theorem answered_in_order (reach : Reach Service.step (keeping true) Service.init s)
    (wellFormed : ∀ conn, ∀ packet ∈ packets conn, WellFormed packet)
    (initial : ∀ conn, s.received conn <+: (packets conn).flatten) (clean : s.garbled conn = false) :
    ((netPkg.frames (s.server.sentOn conn)).map headMsgID).Sublist
      ((netPkg.frames (s.received conn)).map headMsgID) :=
  have answered : Answered true s conn :=
    answered_reach reach (fun _ _ allowed => allowed.1.1) (fun once _ _ allowed => allowed.2 once) clean
  (answered.msgIDs ((receiveInv_reach (reach.mono fun _ _ allowed => allowed.1) wellFormed initial).handed conn)).sublist

/-- Two clients, whose requests are answered one after the other; the first of them has an id that was used
before. -/
def inTurnRun : List ServerAct :=
  visit ++ connects 5 7 ++ connects 6 8 ++ requests 5 emptyPacket ++ requests 6 emptyPacket ++
    requests 5 secondPacket ++ answers 0 ++ transmits 5 10 ++ answers 0 ++ answers 0 ++
    [.send true, .send true, .send true] ++ transmits 6 10 ++ [.send true, .send true, .send true] ++ transmits 5 10

def inTurnPackets : Nat → List (List TByte) := sentBy [[emptyPacket], [emptyPacket, secondPacket], [emptyPacket]]

theorem answered_in_order_one_worker : ∃ s,
    exec (guarded Service.step (keepingReusing 1 true)) inTurnRun Service.init = some s ∧
      s.server.ident 7 = some 1 ∧ (netPkg.frames (s.server.sentOn 1)).map headMsgID = [1, 2] ∧
      ((netPkg.frames (s.server.sentOn 1)).map headMsgID).Sublist
        ((netPkg.frames (s.received 1)).map headMsgID) := by
  have ends : ∃ s, exec (guarded Service.step (keepingReusing 1 true)) inTurnRun Service.init = some s ∧
      s.server.ident 7 = some 1 ∧ (netPkg.frames (s.server.sentOn 1)).map headMsgID = [1, 2] ∧ s.garbled 1 = false ∧
      ∀ conn < s.server.accepted, s.received conn <+: (inTurnPackets conn).flatten := exec_ends (by decide +kernel)
  obtain ⟨s, run, owner, sent, clean, begun⟩ := ends
  have reach : Reach Service.step (keeping true) Service.init s :=
    (keepingQuiet_reach (reach_of_exec_guarded run)).mono fun _ _ => And.right
  have known := serviceKnown_reach reach fun _ _ allowed => allowed.1.1
  exact ⟨s, run, owner, sent,
    answered_in_order reach (sentBy_wellFormed (by decide +kernel)) (known.initial begun) clean⟩

end Answers

end SvrNet

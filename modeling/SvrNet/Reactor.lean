import SvrNet.LoopSpec
import SvrNet.Reach

namespace SvrNet
open CData StepSystem

/-- The loop thread with the shared data it works on, and what has been observed of it so far on
each connection: the bytes `recv` returned, the requests that were accepted by the pool, the
packets pushed to the send queue, and the bytes that `send` got accepted. A stream is torn when
`send` failed for good in the middle of a packet. -/
structure Reactor (α : Type) where
  net : NetSvr α UInt8
  pc : LoopPc α UInt8
  received : ConnId → List α
  handed : ConnId → List (Work α)
  pushed : ConnId → List (List UInt8)
  accepted : ConnId → List UInt8
  torn : ConnId → Bool

/-- Besides the steps of the loop thread: an event of `epoll_wait` is dispatched to a handler, a
worker takes a request from the pool, a worker pushes the packet it built in `outdata`. -/
inductive ReactorAct (α : Type)
  | eventIn (connid : ConnId)
  | eventOut (connid : ConnId)
  | loop (act : LoopAct α)
  | take
  | respond (connid : ConnId) (outdata : List UInt8) (outlen : Nat) (msgID : Int)

section Steps

variable {α : Type} [Cell α]

def Reactor.observe (s : Reactor α) : LoopEvent α UInt8 → Reactor α
  | .received connid _ bytes =>
    { s with received := Function.update s.received connid (s.received connid ++ bytes) }
  | .handed _ work =>
    { s with handed := Function.update s.handed work.connid (s.handed work.connid ++ [work]) }
  | .sent connid _ bytes =>
    { s with accepted := Function.update s.accepted connid (s.accepted connid ++ bytes) }
  | .sendError connid _ =>
    let cut := !(netPkg.rest (s.accepted connid)).isEmpty
    { s with torn := Function.update s.torn connid (s.torn connid || cut) }
  | _ => s

/-- The packet that `create_pack` leaves in front of `outdata`. -/
def builtPack (outdata : List UInt8) (outlen : Nat) (msgID : Int) : List UInt8 :=
  (createPack outdata outlen msgID).1.take (createPack outdata outlen msgID).2.toNat

theorem builtPack_eq {outdata : List UInt8} {outlen : Nat} (msgID : Int)
    (room : outlen + netPkgSize ≤ outdata.length) (bound : outlen + netPkgSize ≤ intMax) :
    builtPack outdata outlen msgID = packHead outlen msgID ++ outdata.take outlen := by
  obtain ⟨result, framed⟩ := createPack_take msgID room bound
  rw [builtPack, result, Int.toNat_natCast, framed]

def Reactor.step (asserts : Bool) : ReactorAct α → Reactor α → Option (Reactor α)
  | .eventIn connid, s =>
    match s.pc with
    | .idle => some { s with pc := .inLookup connid }
    | _ => none
  | .eventOut connid, s =>
    match s.pc with
    | .idle => some { s with pc := .outLookup connid }
    | _ => none
  | .loop act, s =>
    match loopStep asserts act s.net s.pc with
    | none => none
    | some (net, pc, event) => some ({ s with net := net, pc := pc }.observe event)
  | .take, s =>
    match s.net.pool with
    | [] => none
    | _ :: later => some { s with net := { s.net with pool := later } }
  | .respond connid outdata outlen msgID, s =>
    if outlen + netPkgSize ≤ outdata.length ∧ outlen + netPkgSize ≤ intMax then
      let pack := builtPack outdata outlen msgID
      some { s with
        net := { s.net with sendQueue := qSendPush s.net.sendQueue connid pack }
        pushed := Function.update s.pushed connid (s.pushed connid ++ [pack]) }
    else none

/-- Connections are in the table, and nothing has happened on them yet. -/
def Reactor.init (conntable : ConnTable) : Reactor α where
  net := ⟨conntable, [], fun _ => none, []⟩
  pc := .idle
  received := fun _ => []
  handed := fun _ => []
  pushed := fun _ => []
  accepted := fun _ => []
  torn := fun _ => false

/-- A table with one connection, whose descriptor is 5. -/
def soleConn : ConnTable := Function.update (fun _ => none) 7 (some 5)

/-- The steps one by one. -/
inductive ReactorStep (asserts : Bool) (s : Reactor α) : ReactorAct α → Reactor α → Prop
  | eventIn {connid : ConnId} : s.pc = .idle →
      ReactorStep asserts s (.eventIn connid) { s with pc := .inLookup connid }
  | eventOut {connid : ConnId} : s.pc = .idle →
      ReactorStep asserts s (.eventOut connid) { s with pc := .outLookup connid }
  | inLookup {connid : ConnId} {pc : LoopPc α UInt8} : s.pc = .inLookup connid →
      (pc = .idle ∨ ∃ curfd, pc = .epollin connid curfd .firstRecv) →
      ReactorStep asserts s (.loop .tau) { s with pc := pc }
  | outLookup {connid : ConnId} {pc : LoopPc α UInt8} : s.pc = .outLookup connid →
      (pc = .idle ∨ ∃ sockfd, pc = .epollout connid sockfd .pop) →
      ReactorStep asserts s (.loop .tau) { s with pc := pc }
  | epollin {connid : ConnId} {curfd : Int} {pc : InPc α} {act : LoopAct α} {net : NetSvr α UInt8}
      {pc' : LoopPc α UInt8} {event : LoopEvent α UInt8} : s.pc = .epollin connid curfd pc →
      InStep asserts s.net connid curfd pc act net pc' event →
      ReactorStep asserts s (.loop act) ({ s with net := net, pc := pc' }.observe event)
  | epollout {connid : ConnId} {sockfd : Int} {pc : OutPc UInt8} {act : LoopAct α}
      {net : NetSvr α UInt8} {pc' : LoopPc α UInt8} {event : LoopEvent α UInt8} :
      s.pc = .epollout connid sockfd pc → OutStep s.net connid sockfd pc act net pc' event →
      ReactorStep asserts s (.loop act) ({ s with net := net, pc := pc' }.observe event)
  | take {work : Work α} {later : List (Work α)} : s.net.pool = work :: later →
      ReactorStep asserts s .take { s with net := { s.net with pool := later } }
  | respond {connid : ConnId} {outdata : List UInt8} {outlen : Nat} {msgID : Int} :
      outlen + netPkgSize ≤ outdata.length → outlen + netPkgSize ≤ intMax →
      ReactorStep asserts s (.respond connid outdata outlen msgID)
        { s with
          net := { s.net with
            sendQueue := qSendPush s.net.sendQueue connid (builtPack outdata outlen msgID) }
          pushed := Function.update s.pushed connid
            (s.pushed connid ++ [builtPack outdata outlen msgID]) }

theorem Reactor.step_spec {asserts : Bool} {act : ReactorAct α} {s s' : Reactor α}
    (run : Reactor.step asserts act s = some s') : ReactorStep asserts s act s' := by
  cases act with
  | eventIn connid =>
    simp only [Reactor.step] at run
    split at run
    · rename_i idle
      cases run
      exact .eventIn idle
    · simp at run
  | eventOut connid =>
    simp only [Reactor.step] at run
    split at run
    · rename_i idle
      cases run
      exact .eventOut idle
    · simp at run
  | loop act =>
    simp only [Reactor.step] at run
    split at run
    · simp at run
    · rename_i net pc event stepped
      cases run
      generalize at_ : s.pc = pc₀ at stepped
      cases loopStep_spec stepped with
      | inMissing => exact .inLookup at_ (Or.inl rfl)
      | inFound => exact .inLookup at_ (Or.inr ⟨_, rfl⟩)
      | outMissing => exact .outLookup at_ (Or.inl rfl)
      | outFound => exact .outLookup at_ (Or.inr ⟨_, rfl⟩)
      | epollin step => exact .epollin at_ step
      | epollout step => exact .epollout at_ step
  | take =>
    simp only [Reactor.step] at run
    split at run
    · simp at run
    · rename_i work later pool
      cases run
      exact .take pool
  | respond connid outdata outlen msgID =>
    simp only [Reactor.step] at run
    split at run
    · rename_i room
      cases run
      exact .respond room.1 room.2
    · simp at run

section Observe

variable (s : Reactor α) (event : LoopEvent α UInt8)

omit [Cell α] in
@[simp] theorem Reactor.observe_net : (s.observe event).net = s.net := by cases event <;> rfl

omit [Cell α] in
@[simp] theorem Reactor.observe_pc : (s.observe event).pc = s.pc := by cases event <;> rfl

variable {s event}

omit [Cell α] in
/-- Sending leaves the received bytes and the requests as they are. -/
theorem Reactor.observe_outgoing (out : event.outgoing = true) :
    (s.observe event).received = s.received ∧ (s.observe event).handed = s.handed := by
  cases event with
  | silent | sent | sendError | rearmed => exact ⟨rfl, rfl⟩
  | _ => cases out

end Observe

end Steps

end SvrNet

import SvrNet.Reactor

namespace SvrNet
open CData StepSystem

/-- A received byte, with the accepted connection on which it was received. Memory that was never
written holds bytes of no connection. -/
structure TByte where
  val : UInt8
  conn : Option Nat
  deriving DecidableEq

instance : Cell TByte where
  default := ⟨0, none⟩
  byte := TByte.val

/-- A byte of a response, with the request from which `work_proc` produced it. -/
structure RByte where
  val : UInt8
  req : Work TByte
  deriving DecidableEq

/-- What `epoll_ctl` stored for a descriptor. Each call arms the descriptor anew. -/
structure Registration where
  u64 : ConnId
  out : Bool
  arms : Nat
  deriving DecidableEq

/-- The points of `listen_thread`: in front of `accept`, `conn_insert`, `EPOLL_CTL_ADD`, and of
`conn_remove` when that failed. -/
inductive ListenPc
  | accept
  | insert (clientFd : Int)
  | add (clientFd : Int) (connId : ConnId)
  | remove (clientFd : Int) (connId : ConnId)
  deriving DecidableEq

/-- The points of `send_func`: in front of `QSend_connid_of_front`, of `send_wait`, inside of
`pthread_cond_wait` before and after a wake-up, and in front of `conn_get_sockfd`, of
`EPOLL_CTL_MOD`, and of the two removals when that failed. -/
inductive SendPc
  | front
  | wait
  | waiting
  | woken
  | lookup (connid : ConnId)
  | modify (connid : ConnId) (socket : Int)
  | purge (connid : ConnId)
  | remove (connid : ConnId)
  deriving DecidableEq

/-- A worker has no request, is in `work_proc` with one, or is between `QSend_push` and
`send_signal`. -/
inductive WorkerPc
  | idle
  | proc (work : Work TByte)
  | signal
  deriving DecidableEq

/-- A call that `work_routine` makes for an event of `epoll_wait`. -/
inductive HandlerCall
  | epollin (connid : ConnId)
  | epollout (connid : ConnId)

/-- The server with its threads, and the kernel's view of the client descriptors: which of them are
open, for which accepted connection, and what is registered for them. The last fields record what
has happened: the connection that an id was last given to, the requests and the sent bytes with
their connections, and the connections that the server stopped serving or closed. -/
structure Server where
  net : NetSvr TByte RByte
  fds : Int → Option Nat
  epoll : Int → Option Registration
  listen : ListenPc
  loop : LoopPc TByte RByte
  calls : List HandlerCall
  send : SendPc
  worker : Nat → WorkerPc
  accepted : Nat
  ident : ConnId → Option Nat
  handed : List (Nat × Work TByte)
  sent : List (Nat × List RByte)
  stopped : List Nat
  closed : List Nat

inductive ServerAct
  | accept (clientFd : Int)
  | insert (draws : List ConnId)
  | add (ok : Bool)
  | listenRemove
  | wait (events : List (Int × Bool × Bool))
  | dispatch
  | loop (act : LoopAct UInt8)
  | send (ok : Bool)
  | wake
  | take (i : Nat)
  | respond (i : Nat) (reply : Option (List UInt8 × Nat))
  | signal (i : Nat)

/-- The connection and the descriptor of the handler that is running. -/
def LoopPc.handler {α β : Type} : LoopPc α β → Option (ConnId × Int)
  | .epollin connid curfd _ => some (connid, curfd)
  | .epollout connid sockfd _ => some (connid, sockfd)
  | _ => none

/-- The connection whose handler has purged the send queue and is in front of `conn_remove`. -/
def LoopPc.dropping {α β : Type} : LoopPc α β → Option ConnId
  | .epollin connid _ .drop => some connid
  | _ => none

def ListenPc.inserting : ListenPc → Option Int
  | .insert clientFd => some clientFd
  | _ => none

def ListenPc.removing : ListenPc → Option ConnId
  | .remove _ connId => some connId
  | _ => none

def SendPc.modifying : SendPc → Option (ConnId × Int)
  | .modify connid socket => some (connid, socket)
  | _ => none

def SendPc.removing : SendPc → Option ConnId
  | .remove connid => some connid
  | _ => none

/-- The connection that the send thread is going to remove from the table. -/
def SendPc.dropping : SendPc → Option ConnId
  | .purge connid | .remove connid => some connid
  | _ => none

def WorkerPc.work : WorkerPc → Option (Work TByte)
  | .proc work => some work
  | _ => none

/-- What is received on a descriptor comes from the connection that it is open for. -/
def LoopAct.tagged (owner : Option Nat) : LoopAct UInt8 → LoopAct TByte
  | .tau => .tau
  | .recv (.data bytes) => .recv (.data (bytes.map (⟨·, owner⟩)))
  | .recv .closed => .recv .closed
  | .recv (.fail errno) => .recv (.fail errno)
  | .send ret => .send ret
  | .ctl ok => .ctl ok

/-- Nothing can be received or sent on a closed descriptor, and `EPOLL_CTL_MOD` succeeds on a
registered one only. -/
def Server.possible (s : Server) (curfd : Int) : LoopAct UInt8 → Bool
  | .recv (.data _) | .recv .closed | .send (.sent _) => (s.fds curfd).isSome
  | .ctl true => (s.epoll curfd).isSome
  | _ => true

/-- `EPOLL_CTL_MOD` on a registered descriptor. -/
def epollMod (epoll : Int → Option Registration) (fd : Int) (u64 : ConnId) (out : Bool) :
    Int → Option Registration :=
  Function.update epoll fd ((epoll fd).map fun registration => ⟨u64, out, registration.arms + 1⟩)

/-- The calls for the events of one `epoll_wait`. -/
def handlerCalls (epoll : Int → Option Registration) : List (Int × Bool × Bool) → List HandlerCall
  | [] => []
  | (fd, readable, writable) :: events =>
    match epoll fd with
    | none => handlerCalls epoll events
    | some registration =>
      (if readable then [.epollin registration.u64] else []) ++
        (if writable && registration.out then [.epollout registration.u64] else []) ++
        handlerCalls epoll events

/-- What a step of the loop thread does to the kernel's state and to the record. -/
def Server.observe (s : Server) : LoopEvent TByte RByte → Server
  | .silent | .received _ _ _ | .sendError _ _ => s
  | .recvError _ curfd | .peerClosed _ curfd => { s with stopped := s.stopped ++ (s.fds curfd).toList }
  | .handed curfd work => { s with handed := s.handed ++ (s.fds curfd).toList.map (·, work) }
  | .sent _ sockfd bytes => { s with sent := s.sent ++ (s.fds sockfd).toList.map (·, bytes) }
  | .rearmed connid sockfd => { s with epoll := epollMod s.epoll sockfd connid false }
  | .closed curfd =>
    { s with
      fds := Function.update s.fds curfd none
      epoll := Function.update s.epoll curfd none
      closed := s.closed ++ (s.fds curfd).toList }

/-- The assertion of `work_proc`, in the unsigned arithmetic of its operands. -/
def workAssert (work : Work TByte) : Bool :=
  headLength work.data + netPkgSize = (work.size % 2 ^ 32).toNat

/-- The packet that `work_proc` pushes for a request when the handler left `outlen` bytes in
`outdata`. -/
def workPack (work : Work TByte) (outdata : List UInt8) (outlen : Nat) : List RByte :=
  (builtPack outdata outlen (toInt (headMsgID work.data))).map (⟨·, work⟩)

/-- One step of `send_func`. The result of `EPOLL_CTL_MOD` comes from outside. -/
def Server.sendStep (ok : Bool) (s : Server) : Option Server :=
  match s.send with
  | .front =>
    let connid := qSendConnidOfFront s.net.sendQueue
    some { s with send := if connid = svrInvalidConnectId then .wait else .lookup connid }
  | .wait => some { s with send := .waiting }
  | .waiting => none
  | .woken => some { s with send := .front }
  | .lookup connid =>
    let socket := connGetSockfd s.net.conntable connid
    -- `continue` leaves the entries of a connection that is gone where they are
    some { s with send := if socket = -1 then .front else .modify connid socket }
  | .modify connid socket =>
    if ok then
      if (s.epoll socket).isSome then
        some { s with epoll := epollMod s.epoll socket connid true, send := .front }
      else none
    else some { s with send := .purge connid, stopped := s.stopped ++ (s.ident connid).toList }
  | .purge connid =>
    some { s with
      net := { s.net with sendQueue := qSendRemoveAllByConnid s.net.sendQueue connid }
      send := .remove connid }
  | .remove connid =>
    some { s with net := { s.net with conntable := connRemove s.net.conntable connid }, send := .front }

def Server.step : ServerAct → Server → Option Server
  | .accept clientFd, s =>
    match s.listen with
    | .accept =>
      if (s.fds clientFd).isNone ∧ 0 ≤ clientFd then
        some { s with
          fds := Function.update s.fds clientFd (some s.accepted)
          listen := .insert clientFd
          accepted := s.accepted + 1 }
      else none
    | _ => none
  | .insert draws, s =>
    match s.listen with
    | .insert clientFd =>
      match connInsert s.net.conntable clientFd draws with
      | none => none
      | some (connId, conntable) =>
        some { s with
          net := { s.net with conntable := conntable }
          listen := .add clientFd connId
          ident := Function.update s.ident connId (s.fds clientFd) }
    | _ => none
  | .add ok, s =>
    match s.listen with
    | .add clientFd connId =>
      if ok then
        if (s.fds clientFd).isSome ∧ (s.epoll clientFd).isNone then
          some { s with epoll := Function.update s.epoll clientFd (some ⟨connId, true, 0⟩), listen := .accept }
        else none
      else
        some { s with
          listen := .remove clientFd connId
          stopped := s.stopped ++ (s.fds clientFd).toList }
    | _ => none
  | .listenRemove, s =>
    match s.listen with
    | .remove _ connId =>
      some { s with net := { s.net with conntable := connRemove s.net.conntable connId }, listen := .accept }
    | _ => none
  | .wait events, s =>
    match s.loop, s.calls with
    | .idle, [] => some { s with calls := handlerCalls s.epoll events }
    | _, _ => none
  | .dispatch, s =>
    match s.loop, s.calls with
    | .idle, .epollin connid :: calls => some { s with loop := .inLookup connid, calls := calls }
    | .idle, .epollout connid :: calls => some { s with loop := .outLookup connid, calls := calls }
    | _, _ => none
  | .loop act, s =>
    if (s.loop.handler.map fun handler => s.possible handler.2 act).getD true then
      match loopStep true (act.tagged (s.loop.handler.bind fun handler => s.fds handler.2)) s.net s.loop with
      | none => none
      | some (net, loop, event) => some ({ s with net := net, loop := loop }.observe event)
    else none
  | .send ok, s => s.sendStep ok
  | .wake, s =>
    match s.send with
    | .waiting => some { s with send := .woken }
    | _ => none
  | .take i, s =>
    match s.worker i, s.net.pool with
    | .idle, work :: later =>
      some { s with
        net := { s.net with pool := later }
        worker := Function.update s.worker i (.proc work) }
    | _, _ => none
  | .respond i reply, s =>
    match s.worker i with
    | .proc work =>
      if workAssert work then
        match reply with
        | none => some { s with worker := Function.update s.worker i .idle }
        | some (outdata, outlen) =>
          if outlen + netPkgSize ≤ outdata.length ∧ outlen + netPkgSize ≤ intMax then
            some { s with
              net := { s.net with
                sendQueue := qSendPush s.net.sendQueue work.connid (workPack work outdata outlen) }
              worker := Function.update s.worker i .signal }
          else none
      else none
    | _ => none
  | .signal i, s =>
    match s.worker i with
    | .signal =>
      some { s with
        worker := Function.update s.worker i .idle
        send := match s.send with
          | .waiting => .woken
          | pc => pc }
    | _ => none

/-- The server after `net_start`, before the first connection. -/
def Server.init : Server where
  net := ⟨fun _ => none, [], fun _ => none, []⟩
  fds := fun _ => none
  epoll := fun _ => none
  listen := .accept
  loop := .idle
  calls := []
  send := .front
  worker := fun _ => .idle
  accepted := 0
  ident := fun _ => none
  handed := []
  sent := []
  stopped := []
  closed := []

section Scripts

/-- A connection is accepted and registered. -/
def connects (fd : Int) (id : ConnId) : List ServerAct := [.accept fd, .insert [id], .add true]

/-- One whole packet arrives and is handed to the pool. -/
def requests (fd : Int) (packet : List UInt8) : List ServerAct :=
  [.wait [(fd, true, false)], .dispatch, .loop .tau, .loop (.recv (.data packet)), .loop .tau, .loop .tau,
    .loop .tau, .loop .tau, .loop .tau, .loop (.recv (.fail .eagain))]

/-- The peer has closed the connection. -/
def disconnects (fd : Int) : List ServerAct :=
  [.wait [(fd, true, false)], .dispatch, .loop .tau, .loop (.recv .closed), .loop .tau, .loop .tau, .loop .tau,
    .loop .tau]

/-- The smallest packet: a header that announces no data. -/
def emptyPacket : List UInt8 := [0, 0, 1, 0, 0, 0, 0, 0, 0, 0]

/-- A worker takes a request and answers it with an empty packet. -/
def answers (i : Nat) : List ServerAct := [.take i, .respond i (some (emptyPacket, 0)), .signal i]

/-- The socket can be written: the first response of the connection is sent in one piece. -/
def transmits (fd : Int) (size : Nat) : List ServerAct :=
  [.wait [(fd, false, true)], .dispatch, .loop .tau, .loop .tau, .loop (.send (.sent size)), .loop (.ctl true)]

end Scripts

end SvrNet

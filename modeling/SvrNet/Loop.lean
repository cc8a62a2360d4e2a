import SvrNet.Pack
import SvrNet.RecvHelper
import SvrNet.SendHelper

namespace SvrNet
open CData

/-- `_work_t`: a request on its way to a worker. -/
structure Work (α : Type) where
  connid : ConnId
  size : Int
  data : List α
  deriving DecidableEq

/-- The parts of `net_svr_t` that the threads share. Of the thread pool only its task queue is
visible from outside. -/
structure NetSvr (α β : Type) where
  conntable : ConnTable
  sendQueue : SendQueue β
  recvMap : RecvMap α
  pool : List (Work α)

inductive Errno
  | eagain
  | ewouldblock
  | other
  deriving DecidableEq

/-- `errno == EAGAIN || errno == EWOULDBLOCK`. -/
def Errno.again : Errno → Bool
  | .eagain | .ewouldblock => true
  | .other => false

/-- What `recv` can return: bytes, 0 or -1. -/
inductive RecvRet (α : Type)
  | data (bytes : List α)
  | closed
  | fail (errno : Errno)

/-- What `send` can return: the number of bytes the kernel accepted, or -1. -/
inductive SendRet
  | sent (count : Nat)
  | fail (errno : Errno)

/-- The ways in which the loop thread can leave the defined behaviour of the program. -/
inductive Fault
  | cacheBufNotEnough
  | insertTaken
  | outOfBuffer
  | packAlloc
  deriving DecidableEq

/-- The points of `handle_EPOLLIN_event`, each in front of an operation on something shared
(`parse` excepted), with the variables that are live there. -/
inductive InPc (α : Type)
  | firstRecv
  | find (recvBuff : List α) (err : Int)
  | uncache (recvBuff : List α) (err : Int)
  | parse (recvBuff : List α) (err : Int)
  | push (recvBuff : List α) (err : Int) (pack : List α) (packLen : Int)
  | recv (recvBuff : List α) (cacheSize : Int)
  | store (recvBuff : List α) (cacheSize : Int)
  | purge
  | drop
  | forget
  | close

/-- The points behind a `recv` that returned 0. -/
def InPc.closing {α : Type} : InPc α → Bool
  | .purge | .drop | .forget | .close => true
  | _ => false

/-- The points of `handle_EPOLLOUT_event`; `ptr` is an offset into `sendbuf`. -/
inductive OutPc (β : Type)
  | pop
  | send (sendbuf : List β) (ptr buflen : Nat)
  | rearm

/-- Where the loop thread is. The lookups are the first operation of the two handlers. -/
inductive LoopPc (α β : Type)
  | idle
  | inLookup (connid : ConnId)
  | epollin (connid : ConnId) (curfd : Int) (pc : InPc α)
  | outLookup (connid : ConnId)
  | epollout (connid : ConnId) (sockfd : Int) (pc : OutPc β)
  | fault (fault : Fault)

/-- What the outside decides in a step of the loop thread: the result of a system call. -/
inductive LoopAct (α : Type)
  | tau
  | recv (ret : RecvRet α)
  | send (ret : SendRet)
  | ctl (ok : Bool)

/-- What a step of the loop thread does beyond the shared data. -/
inductive LoopEvent (α β : Type)
  | silent
  | received (connid : ConnId) (curfd : Int) (bytes : List α)
  | recvError (connid : ConnId) (curfd : Int)
  | peerClosed (connid : ConnId) (curfd : Int)
  | handed (curfd : Int) (work : Work α)
  | closed (curfd : Int)
  | sent (connid : ConnId) (sockfd : Int) (bytes : List β)
  | sendError (connid : ConnId) (sockfd : Int)
  | rearmed (connid : ConnId) (sockfd : Int)

/-- The task queue is full for `threadpool_push_work` when its size is above this. -/
def poolQueueLimit : Nat := 64

/-- The third argument of the `recv` in the loop, as the `size_t` it is converted to. -/
def recvCount (cacheSize : Int) : Nat := toSize (netRecvSizeLimit - cacheSize)

section Steps

variable {α β : Type} [Cell α]

/-- `handle_EPOLLIN_event`. The three uses of `err` and of `cache_size` are kept apart by the
program points: before `parse` the former counts the bytes in the buffer, behind it the latter
does. -/
def inStep (asserts : Bool) (net : NetSvr α β) (connid : ConnId) (curfd : Int) :
    InPc α → LoopAct α → Option (NetSvr α β × LoopPc α β × LoopEvent α β)
  | .firstRecv, .recv (.data bytes) =>
    if 0 < bytes.length ∧ bytes.length ≤ netRecvSizeLimit then
      some (net, .epollin connid curfd (.find bytes bytes.length), .received connid curfd bytes)
    else none
  | .firstRecv, .recv .closed => some (net, .epollin connid curfd .purge, .peerClosed connid curfd)
  | .firstRecv, .recv (.fail errno) =>
    some (net, .idle, if errno.again then .silent else .recvError connid curfd)
  | .find recvBuff err, .tau =>
    let (result, cacheBuf, cacheSize) := mRecvFind net.recvMap connid netRemainCacheSize
    if result = 0 then
      if cacheSize + err ≤ netRecvBuffSize then
        some (net, .epollin connid curfd (.uncache
          (writeAt (memmove recvBuff cacheSize.toNat 0 err.toNat) 0 cacheBuf) (err + cacheSize)), .silent)
      else some (net, .fault .outOfBuffer, .silent)
    else if result = -1 ∧ cacheSize ≠ -1 ∧ asserts then some (net, .fault .cacheBufNotEnough, .silent)
    else some (net, .epollin connid curfd (.uncache recvBuff err), .silent)
  | .uncache recvBuff err, .tau =>
    -- cache_size is 0 at the loop head, so the first `err += cache_size` adds nothing
    some ({ net with recvMap := mRecvRemove net.recvMap connid },
      .epollin connid curfd (.parse recvBuff err), .silent)
  | .parse recvBuff err, .tau =>
    match parsePack recvBuff err with
    | none => some (net, .fault .packAlloc, .silent)
    | some parsed =>
      if parsed.packLen ≠ 0 then
        some (net, .epollin connid curfd
          (.push parsed.buf parsed.bufLen (parsed.pack.getD []) parsed.packLen), .silent)
      else some (net, .epollin connid curfd (.recv parsed.buf parsed.bufLen), .silent)
  | .push recvBuff err pack packLen, .tau =>
    -- a full pool is tried again after 100 ms
    if poolQueueLimit < net.pool.length then
      some (net, .epollin connid curfd (.push recvBuff err pack packLen), .silent)
    else
      let work : Work α := ⟨connid, packLen, pack⟩
      some ({ net with pool := net.pool ++ [work] }, .epollin connid curfd (.parse recvBuff err),
        .handed curfd work)
  | .recv recvBuff cacheSize, .recv (.data bytes) =>
    if 0 < bytes.length ∧ bytes.length ≤ recvCount cacheSize then
      if cacheSize + bytes.length ≤ netRecvBuffSize then
        some (net, .epollin connid curfd
          (.parse (writeAt recvBuff cacheSize.toNat bytes) (bytes.length + cacheSize)),
          .received connid curfd bytes)
      else some (net, .fault .outOfBuffer, .received connid curfd bytes)
    else none
  | .recv _ _, .recv .closed => some (net, .epollin connid curfd .purge, .peerClosed connid curfd)
  | .recv recvBuff cacheSize, .recv (.fail errno) =>
    if errno.again then
      if cacheSize ≠ 0 then some (net, .epollin connid curfd (.store recvBuff cacheSize), .silent)
      else some (net, .idle, .silent)
    else some (net, .idle, .recvError connid curfd)
  | .store recvBuff cacheSize, .tau =>
    -- the insertion is the operand of the assert: without asserts it is not called
    if asserts then
      match mRecvInsert asserts net.recvMap connid (recvBuff.take (toSize cacheSize)) with
      | none => some (net, .fault .insertTaken, .silent)
      | some (ret, recvMap) =>
        if ret = 0 then some ({ net with recvMap := recvMap }, .idle, .silent)
        else some (net, .fault .insertTaken, .silent)
    else some (net, .idle, .silent)
  | .purge, .tau =>
    some ({ net with sendQueue := qSendRemoveAllByConnid net.sendQueue connid },
      .epollin connid curfd .drop, .silent)
  | .drop, .tau =>
    some ({ net with conntable := connRemove net.conntable connid },
      .epollin connid curfd .forget, .silent)
  | .forget, .tau =>
    some ({ net with recvMap := mRecvRemove net.recvMap connid },
      .epollin connid curfd .close, .silent)
  | .close, .tau => some (net, .idle, .closed curfd)
  | _, _ => none

/-- `handle_EPOLLOUT_event`. -/
def outStep (net : NetSvr α β) (connid : ConnId) (sockfd : Int) :
    OutPc β → LoopAct α → Option (NetSvr α β × LoopPc α β × LoopEvent α β)
  | .pop, .tau =>
    let popped := qSendPopFirst net.sendQueue connid netSendBuffSize
    if popped.ret = -1 then some (net, .epollout connid sockfd .rearm, .silent)
    else some ({ net with sendQueue := popped.queue },
      .epollout connid sockfd (.send popped.data 0 popped.len), .silent)
  | .send sendbuf ptr buflen, .send (.sent count) =>
    if count ≤ buflen ∧ (0 < count ∨ buflen = 0) then
      some (net, .epollout connid sockfd
        (if 0 < buflen - count then .send sendbuf (ptr + count) (buflen - count) else .rearm),
        .sent connid sockfd ((sendbuf.drop ptr).take count))
    else none
  | .send sendbuf ptr buflen, .send (.fail errno) =>
    if errno.again then
      -- `continue` goes to the test of the do-while loop
      some (net, .epollout connid sockfd (if 0 < buflen then .send sendbuf ptr buflen else .rearm), .silent)
    else some (net, .epollout connid sockfd .rearm, .sendError connid sockfd)
  | .rearm, .ctl ok => some (net, .idle, if ok then .rearmed connid sockfd else .silent)
  | _, _ => none

/-- One atomic step of the loop thread inside a handler. -/
def loopStep (asserts : Bool) (act : LoopAct α) (net : NetSvr α β) :
    LoopPc α β → Option (NetSvr α β × LoopPc α β × LoopEvent α β)
  | .idle => none
  | .inLookup connid =>
    match act with
    | .tau =>
      let curfd := connGetSockfd net.conntable connid
      some (net, if curfd = -1 then .idle else .epollin connid curfd .firstRecv, .silent)
    | _ => none
  | .epollin connid curfd pc => inStep asserts net connid curfd pc act
  | .outLookup connid =>
    match act with
    | .tau =>
      let sockfd := connGetSockfd net.conntable connid
      some (net, if sockfd = -1 then .idle else .epollout connid sockfd .pop, .silent)
    | _ => none
  | .epollout connid sockfd pc => outStep net connid sockfd pc act
  | .fault _ => none

end Steps

end SvrNet

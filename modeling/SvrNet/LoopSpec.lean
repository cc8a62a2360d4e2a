import SvrNet.Loop

namespace SvrNet
open CData

variable {α β : Type} [Cell α]

/-- The steps of `handle_EPOLLIN_event` one by one, each with what its branch tested. -/
inductive InStep (asserts : Bool) (net : NetSvr α β) (connid : ConnId) (curfd : Int) :
    InPc α → LoopAct α → NetSvr α β → LoopPc α β → LoopEvent α β → Prop
  | firstData {bytes : List α} : bytes ≠ [] → bytes.length ≤ netRecvSizeLimit →
      InStep asserts net connid curfd .firstRecv (.recv (.data bytes)) net
        (.epollin connid curfd (.find bytes bytes.length)) (.received connid curfd bytes)
  | firstClosed : InStep asserts net connid curfd .firstRecv (.recv .closed) net
      (.epollin connid curfd .purge) (.peerClosed connid curfd)
  | firstAgain {errno : Errno} : errno.again = true →
      InStep asserts net connid curfd .firstRecv (.recv (.fail errno)) net .idle .silent
  | firstError {errno : Errno} : errno.again = false →
      InStep asserts net connid curfd .firstRecv (.recv (.fail errno)) net .idle (.recvError connid curfd)
  | findMissing {recvBuff : List α} {err : Int} : net.recvMap connid = none →
      InStep asserts net connid curfd (.find recvBuff err) .tau net
        (.epollin connid curfd (.uncache recvBuff err)) .silent
  | findCached {recvBuff cached : List α} {err : Int} : net.recvMap connid = some cached →
      cached.length ≤ netRemainCacheSize → cached.length + err ≤ netRecvBuffSize →
      InStep asserts net connid curfd (.find recvBuff err) .tau net
        (.epollin connid curfd (.uncache
          (writeAt (memmove recvBuff cached.length 0 err.toNat) 0 cached) (err + cached.length))) .silent
  | findBeyond {recvBuff cached : List α} {err : Int} : net.recvMap connid = some cached →
      cached.length ≤ netRemainCacheSize → netRecvBuffSize < cached.length + err →
      InStep asserts net connid curfd (.find recvBuff err) .tau net (.fault .outOfBuffer) .silent
  | findLong {recvBuff cached : List α} {err : Int} {pc : LoopPc α β} : net.recvMap connid = some cached →
      netRemainCacheSize < cached.length →
      (pc = .fault .cacheBufNotEnough ∨ pc = .epollin connid curfd (.uncache recvBuff err)) →
      InStep asserts net connid curfd (.find recvBuff err) .tau net pc .silent
  | uncache {recvBuff : List α} {err : Int} : InStep asserts net connid curfd (.uncache recvBuff err) .tau
      { net with recvMap := mRecvRemove net.recvMap connid }
      (.epollin connid curfd (.parse recvBuff err)) .silent
  | parseFault {recvBuff : List α} {err : Int} : parsePack recvBuff err = none →
      InStep asserts net connid curfd (.parse recvBuff err) .tau net (.fault .packAlloc) .silent
  | parsePacket {recvBuff : List α} {err : Int} {parsed : Parsed α} : parsePack recvBuff err = some parsed → parsed.packLen ≠ 0 →
      InStep asserts net connid curfd (.parse recvBuff err) .tau net
        (.epollin connid curfd (.push parsed.buf parsed.bufLen (parsed.pack.getD []) parsed.packLen)) .silent
  | parseDone {recvBuff : List α} {err : Int} {parsed : Parsed α} : parsePack recvBuff err = some parsed → parsed.packLen = 0 →
      InStep asserts net connid curfd (.parse recvBuff err) .tau net
        (.epollin connid curfd (.recv parsed.buf parsed.bufLen)) .silent
  | pushFull {recvBuff pack : List α} {err packLen : Int} : poolQueueLimit < net.pool.length →
      InStep asserts net connid curfd (.push recvBuff err pack packLen) .tau net
        (.epollin connid curfd (.push recvBuff err pack packLen)) .silent
  | pushDone {recvBuff pack : List α} {err packLen : Int} : net.pool.length ≤ poolQueueLimit →
      InStep asserts net connid curfd (.push recvBuff err pack packLen) .tau
        { net with pool := net.pool ++ [⟨connid, packLen, pack⟩] }
        (.epollin connid curfd (.parse recvBuff err)) (.handed curfd ⟨connid, packLen, pack⟩)
  | recvData {recvBuff bytes : List α} {cacheSize : Int} : bytes ≠ [] → bytes.length ≤ recvCount cacheSize →
      cacheSize + bytes.length ≤ netRecvBuffSize →
      InStep asserts net connid curfd (.recv recvBuff cacheSize) (.recv (.data bytes)) net
        (.epollin connid curfd
          (.parse (writeAt recvBuff cacheSize.toNat bytes) (bytes.length + cacheSize)))
        (.received connid curfd bytes)
  | recvBeyond {recvBuff bytes : List α} {cacheSize : Int} : bytes.length ≤ recvCount cacheSize →
      netRecvBuffSize < cacheSize + bytes.length →
      InStep asserts net connid curfd (.recv recvBuff cacheSize) (.recv (.data bytes)) net
        (.fault .outOfBuffer) (.received connid curfd bytes)
  | recvClosed {recvBuff : List α} {cacheSize : Int} :
      InStep asserts net connid curfd (.recv recvBuff cacheSize) (.recv .closed) net
        (.epollin connid curfd .purge) (.peerClosed connid curfd)
  | recvAgain {recvBuff : List α} {cacheSize : Int} {errno : Errno} : errno.again = true → cacheSize ≠ 0 →
      InStep asserts net connid curfd (.recv recvBuff cacheSize) (.recv (.fail errno)) net
        (.epollin connid curfd (.store recvBuff cacheSize)) .silent
  | recvAgainEmpty {recvBuff : List α} {cacheSize : Int} {errno : Errno} : errno.again = true → cacheSize = 0 →
      InStep asserts net connid curfd (.recv recvBuff cacheSize) (.recv (.fail errno)) net .idle .silent
  | recvError {recvBuff : List α} {cacheSize : Int} {errno : Errno} : errno.again = false →
      InStep asserts net connid curfd (.recv recvBuff cacheSize) (.recv (.fail errno)) net .idle
        (.recvError connid curfd)
  | storeDone {recvBuff : List α} {cacheSize : Int} : asserts = true → net.recvMap connid = none →
      InStep asserts net connid curfd (.store recvBuff cacheSize) .tau
        { net with
          recvMap := Function.update net.recvMap connid (some (recvBuff.take (toSize cacheSize))) }
        .idle .silent
  | storeTaken {recvBuff : List α} {cacheSize : Int} : asserts = true → net.recvMap connid ≠ none →
      InStep asserts net connid curfd (.store recvBuff cacheSize) .tau net (.fault .insertTaken) .silent
  | storeSkipped {recvBuff : List α} {cacheSize : Int} : asserts = false →
      InStep asserts net connid curfd (.store recvBuff cacheSize) .tau net .idle .silent
  | purge : InStep asserts net connid curfd .purge .tau
      { net with sendQueue := qSendRemoveAllByConnid net.sendQueue connid }
      (.epollin connid curfd .drop) .silent
  | drop : InStep asserts net connid curfd .drop .tau
      { net with conntable := connRemove net.conntable connid }
      (.epollin connid curfd .forget) .silent
  | forget : InStep asserts net connid curfd .forget .tau
      { net with recvMap := mRecvRemove net.recvMap connid }
      (.epollin connid curfd .close) .silent
  | close : InStep asserts net connid curfd .close .tau net .idle (.closed curfd)

private theorem find_spec {asserts : Bool} {net net' : NetSvr α β} {connid : ConnId} {curfd : Int}
    {recvBuff cached : List α} {err : Int} {pc' : LoopPc α β} {event : LoopEvent α β}
    (found : net.recvMap connid = some cached)
    (run : inStep asserts net connid curfd (.find recvBuff err) .tau = some (net', pc', event)) :
    InStep asserts net connid curfd (.find recvBuff err) .tau net' pc' event := by
  have size : toSize netRemainCacheSize = netRemainCacheSize := by decide
  simp only [inStep, mRecvFind, found, size] at run
  by_cases long : netRemainCacheSize < cached.length
  · simp only [if_pos long, show ¬ ((-1 : Int) = 0) by decide, if_false] at run
    split at run
    · cases run; exact .findLong found long (Or.inl rfl)
    · cases run; exact .findLong found long (Or.inr rfl)
  · have short : cached.length ≤ netRemainCacheSize := Nat.not_lt.mp long
    have small : cached.length ≤ intMax := short.trans (by decide)
    simp only [if_neg long, toInt_of_le small, Int.toNat_natCast, if_true] at run
    split at run
    · rename_i inside
      cases run
      exact .findCached found short inside
    · rename_i beyond
      cases run
      exact .findBeyond found short (Int.not_le.mp beyond)

theorem inStep_spec {asserts : Bool} {net net' : NetSvr α β} {connid : ConnId} {curfd : Int}
    {pc : InPc α} {act : LoopAct α} {pc' : LoopPc α β} {event : LoopEvent α β}
    (run : inStep asserts net connid curfd pc act = some (net', pc', event)) :
    InStep asserts net connid curfd pc act net' pc' event := by
  cases pc with
  | firstRecv =>
    cases act with
    | recv ret =>
      cases ret with
      | data bytes =>
        simp only [inStep] at run
        split at run
        · rename_i size
          cases run
          exact .firstData (List.length_pos_iff.mp size.1) size.2
        · simp at run
      | closed => cases run; exact .firstClosed
      | fail errno =>
        cases run
        cases again : errno.again with
        | true => exact .firstAgain again
        | false => exact .firstError again
    | _ => simp [inStep] at run
  | find recvBuff err =>
    cases act with
    | tau =>
      cases cached : net.recvMap connid with
      | none =>
        simp only [inStep, mRecvFind, cached] at run
        cases run
        exact .findMissing cached
      | some found =>
        exact find_spec cached run
    | _ => simp [inStep] at run
  | uncache recvBuff err =>
    cases act with
    | tau => cases run; exact .uncache
    | _ => simp [inStep] at run
  | parse recvBuff err =>
    cases act with
    | tau =>
      simp only [inStep] at run
      split at run
      · rename_i failed
        cases run
        exact .parseFault failed
      · rename_i parsed done
        split at run
        · rename_i packet
          cases run
          exact .parsePacket done packet
        · rename_i unfinished
          cases run
          exact .parseDone done (not_ne_iff.mp unfinished)
    | _ => simp [inStep] at run
  | push recvBuff err pack packLen =>
    cases act with
    | tau =>
      simp only [inStep] at run
      split at run
      · rename_i full
        cases run
        exact .pushFull full
      · rename_i room
        cases run
        exact .pushDone (Nat.not_lt.mp room)
    | _ => simp [inStep] at run
  | recv recvBuff cacheSize =>
    cases act with
    | recv ret =>
      cases ret with
      | data bytes =>
        simp only [inStep] at run
        split at run
        · rename_i size
          split at run
          · rename_i inside
            cases run
            exact .recvData (List.length_pos_iff.mp size.1) size.2 inside
          · rename_i beyond
            cases run
            exact .recvBeyond size.2 (Int.not_le.mp beyond)
        · simp at run
      | closed => cases run; exact .recvClosed
      | fail errno =>
        simp only [inStep] at run
        split at run
        · rename_i again
          split at run
          · rename_i left
            cases run
            exact .recvAgain again left
          · rename_i empty
            cases run
            exact .recvAgainEmpty again (not_ne_iff.mp empty)
        · rename_i failed
          cases run
          exact .recvError (Bool.eq_false_iff.mpr failed)
    | _ => simp [inStep] at run
  | store recvBuff cacheSize =>
    cases act with
    | tau =>
      cases asserts with
      | false => cases run; exact .storeSkipped rfl
      | true =>
        cases taken : net.recvMap connid with
        | none =>
          simp only [inStep, mRecvInsert, taken, Option.isSome_none, if_true] at run
          cases run
          exact .storeDone rfl taken
        | some found =>
          simp only [inStep, mRecvInsert, taken, Option.isSome_some, if_true] at run
          cases run
          exact .storeTaken rfl (by simp [taken])
    | _ => simp [inStep] at run
  | purge =>
    cases act with
    | tau => cases run; exact .purge
    | _ => simp [inStep] at run
  | drop =>
    cases act with
    | tau => cases run; exact .drop
    | _ => simp [inStep] at run
  | forget =>
    cases act with
    | tau => cases run; exact .forget
    | _ => simp [inStep] at run
  | close =>
    cases act with
    | tau => cases run; exact .close
    | _ => simp [inStep] at run

section InFacts

variable {asserts : Bool} {net net' : NetSvr α β} {connid : ConnId} {curfd : Int} {pc : InPc α}
  {act : LoopAct α} {pc' : LoopPc α β} {event : LoopEvent α β}

/-- A handler stays with its connection until it returns. -/
theorem InStep.pc_next (step : InStep asserts net connid curfd pc act net' pc' event) :
    pc' = .idle ∨ (∃ fault, pc' = .fault fault) ∨ ∃ next, pc' = .epollin connid curfd next := by
  cases step with
  | findLong _ _ next =>
    rcases next with rfl | rfl <;> simp
  | _ => simp

theorem InStep.recvMap_other {id : ConnId} (step : InStep asserts net connid curfd pc act net' pc' event)
    (other : id ≠ connid) : net'.recvMap id = net.recvMap id := by
  cases step <;> simp [mRecvRemove, Function.update_of_ne other]

/-- What `recv` returns is received, whatever the handler does with it. -/
theorem InStep.event_of_data {bytes : List α}
    (step : InStep asserts net connid curfd pc (.recv (.data bytes)) net' pc' event) :
    event = .received connid curfd bytes := by
  cases step <;> rfl

/-- Of the send queue the handler for readable events only ever purges its connection. -/
theorem InStep.sendQueue_next (step : InStep asserts net connid curfd pc act net' pc' event) :
    net'.sendQueue = net.sendQueue ∨ net'.sendQueue = qSendRemoveAllByConnid net.sendQueue connid := by
  cases step <;> simp

end InFacts

/-- The steps of `handle_EPOLLOUT_event`. -/
inductive OutStep (net : NetSvr α β) (connid : ConnId) (sockfd : Int) :
    OutPc β → LoopAct α → NetSvr α β → LoopPc α β → LoopEvent α β → Prop
  | popNothing : (qSendPopFirst net.sendQueue connid netSendBuffSize).ret = -1 →
      OutStep net connid sockfd .pop .tau net (.epollout connid sockfd .rearm) .silent
  | popEntry : (qSendPopFirst net.sendQueue connid netSendBuffSize).ret ≠ -1 →
      OutStep net connid sockfd .pop .tau
        { net with sendQueue := (qSendPopFirst net.sendQueue connid netSendBuffSize).queue }
        (.epollout connid sockfd (.send (qSendPopFirst net.sendQueue connid netSendBuffSize).data 0
          (qSendPopFirst net.sendQueue connid netSendBuffSize).len)) .silent
  | sendSome {sendbuf : List β} {ptr buflen count : Nat} : count ≤ buflen → (0 < count ∨ buflen = 0) →
      OutStep net connid sockfd (.send sendbuf ptr buflen) (.send (.sent count)) net
        (.epollout connid sockfd
          (if 0 < buflen - count then .send sendbuf (ptr + count) (buflen - count) else .rearm))
        (.sent connid sockfd ((sendbuf.drop ptr).take count))
  | sendAgain {sendbuf : List β} {ptr buflen : Nat} {errno : Errno} : errno.again = true →
      OutStep net connid sockfd (.send sendbuf ptr buflen) (.send (.fail errno)) net
        (.epollout connid sockfd (if 0 < buflen then .send sendbuf ptr buflen else .rearm)) .silent
  | sendError {sendbuf : List β} {ptr buflen : Nat} {errno : Errno} : errno.again = false →
      OutStep net connid sockfd (.send sendbuf ptr buflen) (.send (.fail errno)) net
        (.epollout connid sockfd .rearm) (.sendError connid sockfd)
  | rearm {ok : Bool} : OutStep net connid sockfd .rearm (.ctl ok) net .idle
      (if ok then .rearmed connid sockfd else .silent)

omit [Cell α] in
theorem outStep_spec {net net' : NetSvr α β} {connid : ConnId} {sockfd : Int} {pc : OutPc β}
    {act : LoopAct α} {pc' : LoopPc α β} {event : LoopEvent α β}
    (run : outStep net connid sockfd pc act = some (net', pc', event)) :
    OutStep net connid sockfd pc act net' pc' event := by
  cases pc with
  | pop =>
    cases act with
    | tau =>
      simp only [outStep] at run
      split at run
      · rename_i nothing
        cases run
        exact .popNothing nothing
      · rename_i entry
        cases run
        exact .popEntry entry
    | _ => simp [outStep] at run
  | send sendbuf ptr buflen =>
    cases act with
    | send ret =>
      cases ret with
      | sent count =>
        simp only [outStep] at run
        split at run
        · rename_i admissible
          cases run
          exact .sendSome admissible.1 admissible.2
        · simp at run
      | fail errno =>
        simp only [outStep] at run
        split at run
        · rename_i again
          cases run
          exact .sendAgain again
        · rename_i failed
          cases run
          exact .sendError (Bool.eq_false_iff.mpr failed)
    | _ => simp [outStep] at run
  | rearm =>
    cases act with
    | ctl ok => cases run; exact .rearm
    | _ => simp [outStep] at run

/-- The events of a handler for writable events. -/
def LoopEvent.outgoing : LoopEvent α β → Bool
  | .silent | .sent _ _ _ | .sendError _ _ | .rearmed _ _ => true
  | _ => false

section OutFacts

variable {net net' : NetSvr α β} {connid : ConnId} {sockfd : Int} {pc : OutPc β} {act : LoopAct α}
  {pc' : LoopPc α β} {event : LoopEvent α β}

omit [Cell α] in
theorem OutStep.pc_next (step : OutStep net connid sockfd pc act net' pc' event) :
    pc' = .idle ∨ ∃ next, pc' = .epollout connid sockfd next := by
  cases step <;> simp

omit [Cell α] in
/-- What a handler for writable events does beyond the shared data concerns sending alone. -/
theorem OutStep.outgoing (step : OutStep net connid sockfd pc act net' pc' event) : event.outgoing = true := by
  cases step with
  | @rearm ok => cases ok <;> rfl
  | _ => rfl

omit [Cell α] in
/-- Sending changes nothing shared but the send queue. -/
theorem OutStep.net_next (step : OutStep net connid sockfd pc act net' pc' event) :
    net'.conntable = net.conntable ∧ net'.recvMap = net.recvMap ∧ net'.pool = net.pool := by
  cases step <;> exact ⟨rfl, rfl, rfl⟩

omit [Cell α] in
theorem OutStep.sendQueue_sublist (step : OutStep net connid sockfd pc act net' pc' event) :
    net'.sendQueue.Sublist net.sendQueue := by
  cases step with
  | popEntry => exact qSendPopFirst_sublist ..
  | _ => exact .refl _

end OutFacts

/-- The steps of the loop thread inside a handler. -/
inductive LoopStep (asserts : Bool) (net : NetSvr α β) :
    LoopPc α β → LoopAct α → NetSvr α β → LoopPc α β → LoopEvent α β → Prop
  | inMissing {connid : ConnId} : connGetSockfd net.conntable connid = -1 →
      LoopStep asserts net (.inLookup connid) .tau net .idle .silent
  | inFound {connid : ConnId} {curfd : Int} : net.conntable connid = some curfd →
      LoopStep asserts net (.inLookup connid) .tau net (.epollin connid curfd .firstRecv) .silent
  | outMissing {connid : ConnId} : connGetSockfd net.conntable connid = -1 →
      LoopStep asserts net (.outLookup connid) .tau net .idle .silent
  | outFound {connid : ConnId} {sockfd : Int} : net.conntable connid = some sockfd →
      LoopStep asserts net (.outLookup connid) .tau net (.epollout connid sockfd .pop) .silent
  | epollin {connid : ConnId} {curfd : Int} {pc : InPc α} {act : LoopAct α} {net' : NetSvr α β}
      {pc' : LoopPc α β} {event : LoopEvent α β} : InStep asserts net connid curfd pc act net' pc' event →
      LoopStep asserts net (.epollin connid curfd pc) act net' pc' event
  | epollout {connid : ConnId} {sockfd : Int} {pc : OutPc β} {act : LoopAct α} {net' : NetSvr α β}
      {pc' : LoopPc α β} {event : LoopEvent α β} : OutStep net connid sockfd pc act net' pc' event →
      LoopStep asserts net (.epollout connid sockfd pc) act net' pc' event

theorem loopStep_spec {asserts : Bool} {net net' : NetSvr α β} {act : LoopAct α} {pc pc' : LoopPc α β}
    {event : LoopEvent α β} (run : loopStep asserts act net pc = some (net', pc', event)) :
    LoopStep asserts net pc act net' pc' event := by
  cases pc with
  | idle => simp [loopStep] at run
  | fault fault => simp [loopStep] at run
  | inLookup connid =>
    cases act with
    | tau =>
      simp only [loopStep, Option.some.injEq, Prod.mk.injEq] at run
      obtain ⟨rfl, rfl, rfl⟩ := run
      split
      · rename_i missing
        exact .inMissing missing
      · rename_i found
        exact .inFound (connGetSockfd_spec found)
    | _ => simp [loopStep] at run
  | outLookup connid =>
    cases act with
    | tau =>
      simp only [loopStep, Option.some.injEq, Prod.mk.injEq] at run
      obtain ⟨rfl, rfl, rfl⟩ := run
      split
      · rename_i missing
        exact .outMissing missing
      · rename_i found
        exact .outFound (connGetSockfd_spec found)
    | _ => simp [loopStep] at run
  | epollin connid curfd pc => exact .epollin (inStep_spec run)
  | epollout connid sockfd pc => exact .epollout (outStep_spec run)

end SvrNet

import SvrNet.Reactor
import SvrNet.RecvPath

namespace SvrNet
open CData StepSystem

variable {α : Type} [Cell α]

/-- A condition on the bytes that `recv` returns, where it returns them. -/
def onReceive (P : Reactor α → ConnId → InPc α → List α → Prop) (act : ReactorAct α)
    (s : Reactor α) : Prop :=
  match act, s.pc with
  | .loop (.recv (.data bytes)), .epollin connid _ pc => P s connid pc bytes
  | _, _ => True

instance (P : Reactor α → ConnId → InPc α → List α → Prop)
    [∀ s connid pc bytes, Decidable (P s connid pc bytes)] (act : ReactorAct α) (s : Reactor α) :
    Decidable (onReceive P act s) := by
  cases act with
  | loop act =>
    cases act with
    | recv result =>
      cases result with
      | data => dsimp only [onReceive]; cases s.pc <;> infer_instance
      | _ => exact inferInstanceAs (Decidable True)
    | _ => exact inferInstanceAs (Decidable True)
  | _ => exact inferInstanceAs (Decidable True)

omit [Cell α] in
theorem onReceive_congr {P Q : Reactor α → ConnId → InPc α → List α → Prop} {act : ReactorAct α} {s : Reactor α}
    (same : ∀ connid curfd pc bytes, s.pc = .epollin connid curfd pc → (P s connid pc bytes ↔ Q s connid pc bytes)) :
    onReceive P act s ↔ onReceive Q act s := by
  unfold onReceive
  split
  · rename_i bytes connid curfd pc at_
    exact same connid curfd pc bytes at_
  · rfl

/-- Received bytes announce no size that is not a positive `int`. -/
def sizesInt : ReactorAct α → Reactor α → Prop :=
  onReceive fun s connid pc bytes => netPkg.TotalsLe intMax (inHeld (cached s.net connid) pc ++ bytes)

/-- Received bytes leave an unfinished packet that the receive path has room for. -/
def admittedOnly : ReactorAct α → Reactor α → Prop := onReceive fun s => Admitted s.net

instance (act : ReactorAct α) (s : Reactor α) : Decidable (admittedOnly act s) :=
  inferInstanceAs (Decidable (onReceive (fun s => Admitted s.net) act s))

/-- No operation of the receive path is about to go wrong: the cached prefix fits into the cache
buffer and in front of the new bytes, a `recv` in the loop asks for at least one byte and stays
inside the buffer, and the map has no entry when one is inserted. -/
def RecvSafe (net : NetSvr α UInt8) (pc : LoopPc α UInt8) : Prop :=
  (∀ fault, pc ≠ .fault fault) ∧
    match pc with
    | .epollin connid _ (.find _ err) => ∀ data, net.recvMap connid = some data →
        data.length ≤ netRemainCacheSize ∧ data.length + err ≤ netRecvBuffSize
    | .epollin _ _ (.recv _ cacheSize) =>
        0 ≤ cacheSize ∧ 0 < recvCount cacheSize ∧ cacheSize + recvCount cacheSize ≤ netRecvBuffSize
    | .epollin connid _ (.store _ _) => net.recvMap connid = none
    | _ => True

theorem RecvInv.safe {net : NetSvr α UInt8} {pc : LoopPc α UInt8} (inv : RecvInv net pc) :
    RecvSafe net pc := by
  refine ⟨inv.noFault, ?_⟩
  obtain ⟨_, buff, cache, recvLimit, _⟩ := limits
  cases pc with
  | epollin connid curfd inPc =>
    have locals := inv.locals _ _ _ rfl
    cases inPc with
    | find recvBuff err =>
      intro data entry
      obtain ⟨rfl, bound, short⟩ := locals
      rw [cached, entry, Option.getD_some] at short
      omega
    | recv recvBuff cacheSize =>
      obtain ⟨nonneg, room, count⟩ := inv.recv_room
      exact ⟨nonneg, by omega, by omega⟩
    | store recvBuff cacheSize => exact locals.2.1
    | _ => trivial
  | _ => trivial

/-- The receive buffer, up to the last byte that was written to it in this run of the handler. -/
def InPc.buffer : InPc α → List α
  | .find recvBuff _ | .uncache recvBuff _ | .parse recvBuff _ | .push recvBuff _ _ _ | .recv recvBuff _
  | .store recvBuff _ => recvBuff
  | _ => []

/-- What `RecvSafe` says in front of an operation is that everything it writes, the shift by the cached
prefix and the prefix in front of it as well as the bytes of a `recv`, stays inside the buffer. -/
theorem InStep.buffer_next {asserts : Bool} {net net' : NetSvr α UInt8} {connid : ConnId} {curfd : Int}
    {pc next : InPc α} {act : LoopAct α} {event : LoopEvent α UInt8}
    (step : InStep asserts net connid curfd pc act net' (.epollin connid curfd next) event)
    (safe : RecvSafe net (.epollin connid curfd pc)) (inside : pc.buffer.length ≤ netRecvBuffSize) :
    next.buffer.length ≤ netRecvBuffSize := by
  obtain ⟨_, buff, cache, recvLimit, _⟩ := limits
  have here := safe.2
  cases step with
  | firstData _ bound =>
    simp only [InPc.buffer]
    omega
  | findLong _ _ next =>
    rcases next with next | next <;> cases next
    exact inside
  | @findCached recvBuff kept err found =>
    obtain ⟨short, room⟩ := here kept found
    simp only [InPc.buffer] at inside ⊢
    rw [length_writeAt_memmove]
    omega
  | parsePacket done | parseDone done =>
    simp only [InPc.buffer] at inside ⊢
    rwa [parsePack_length done]
  | @recvData recvBuff bytes cacheSize _ bound =>
    obtain ⟨nonneg, _, room⟩ := here
    simp only [InPc.buffer] at inside ⊢
    rw [length_writeAt]
    omega
  | findMissing | uncache | pushFull | pushDone | recvAgain => exact inside
  | firstClosed | recvClosed | purge | drop | forget => exact Nat.zero_le _

/-- Only the handler for readable events moves received bytes. -/
theorem ReactorStep.streams {asserts : Bool} {act : ReactorAct α} {s s' : Reactor α}
    (step : ReactorStep asserts s act s') :
    (s'.received = s.received ∧ s'.handed = s.handed ∧ held s'.net s'.pc = held s.net s.pc ∧
        (s'.pc = s.pc ∨ ∀ connid curfd pc, s'.pc = .epollin connid curfd pc → pc = .firstRecv)) ∨
      ∃ connid curfd pc loopAct net pc' event, act = .loop loopAct ∧ s.pc = .epollin connid curfd pc ∧
        InStep asserts s.net connid curfd pc loopAct net pc' event ∧
        s' = ({ s with net := net, pc := pc' } : Reactor α).observe event := by
  cases step with
  | eventIn idle | eventOut idle =>
    refine Or.inl ⟨rfl, rfl, ?_, Or.inr (by simp)⟩
    funext id
    simp [held, idle]
  | inLookup at_ next =>
    refine Or.inl ⟨rfl, rfl, ?_, Or.inr ?_⟩
    · funext id
      rcases next with rfl | ⟨curfd, rfl⟩ <;> simp [held, at_, inHeld]
    · rcases next with rfl | ⟨curfd, rfl⟩ <;> simp
  | outLookup at_ next =>
    refine Or.inl ⟨rfl, rfl, ?_, Or.inr ?_⟩
    · funext id
      rcases next with rfl | ⟨sockfd, rfl⟩ <;> simp [held, at_]
    · rcases next with rfl | ⟨sockfd, rfl⟩ <;> simp
  | epollin at_ step => exact Or.inr ⟨_, _, _, _, _, _, _, rfl, at_, step, rfl⟩
  | @epollout _ _ _ _ net pc' event at_ step =>
    have same := step.net_next.2.1
    obtain ⟨received, handed⟩ :=
      Reactor.observe_outgoing (s := { s with net := net, pc := pc' }) step.outgoing
    refine Or.inl ⟨received, handed, ?_, Or.inr ?_⟩
    · funext id
      rw [Reactor.observe_net, Reactor.observe_pc]
      rcases step.pc_next with rfl | ⟨next, rfl⟩ <;> simp [held, at_, cached_congr same]
    · rw [Reactor.observe_pc]
      rcases step.pc_next with rfl | ⟨next, rfl⟩ <;> simp
  | take => exact Or.inl ⟨rfl, rfl, held_congr rfl, Or.inl rfl⟩
  | respond => exact Or.inl ⟨rfl, rfl, held_congr rfl, Or.inl rfl⟩

theorem Reactor.recvInv_init (conntable : ConnTable) :
    RecvInv (Reactor.init conntable : Reactor α).net (Reactor.init conntable : Reactor α).pc where
  noFault := by simp [Reactor.init]
  sized := fun _ => Framing.totalsLe_nil
  short := fun _ => show 0 < netRecvSizeLimit by decide
  kept := by simp [Reactor.init]
  locals := by simp [Reactor.init]

/-- Every step of the loop thread and of the other threads keeps the invariant, as long as what
is received is admitted. -/
theorem Reactor.recvInv_step {act : ReactorAct α} {s s' : Reactor α} (inv : RecvInv s.net s.pc)
    (admitted : admittedOnly act s) (run : Reactor.step true act s = some s') :
    RecvInv s'.net s'.pc := by
  cases Reactor.step_spec run with
  | eventIn idle | eventOut idle =>
    exact inv.outside (by simp [idle]) (by simp) (by simp)
  | inLookup at_ next =>
    rcases next with rfl | ⟨curfd, rfl⟩
    · exact inv.outside (by simp [at_]) (by simp) (by simp)
    · refine inv.outside (by simp [at_]) (by simp) ?_
      rintro _ _ _ same
      cases same
      rfl
  | outLookup at_ next =>
    rcases next with rfl | ⟨sockfd, rfl⟩ <;> exact inv.outside (by simp [at_]) (by simp) (by simp)
  | epollin at_ step =>
    rw [at_] at inv
    rw [Reactor.observe_net, Reactor.observe_pc]
    refine inv.step step (fun bytes received => ?_)
    subst received
    simpa [admittedOnly, onReceive, at_] using admitted
  | epollout at_ step =>
    rw [Reactor.observe_net, Reactor.observe_pc]
    cases step with
    | popEntry =>
      refine RecvInv.congr (inv.outside ?_ ?_ ?_) rfl
      · simp [at_]
      · simp
      · simp
    | _ => exact inv.outside (by simp [at_]) (by simp) (by simp)
  | take => exact inv.congr rfl
  | respond => exact inv.congr rfl

theorem Reactor.recvInv_reach {conntable : ConnTable} {s : Reactor α}
    (reach : Reach (Reactor.step true) admittedOnly (Reactor.init conntable) s) : RecvInv s.net s.pc :=
  reach.invariant (P := fun s => RecvInv s.net s.pc) (Reactor.recvInv_init conntable)
    (fun _ _ _ inv admitted run => Reactor.recvInv_step inv admitted run)

/-- As long as no unfinished packet outgrows the cache buffer between two runs, or what one `recv`
asks for inside a run, a peer cannot push the receive path out of its buffers or into an assertion. -/
theorem recv_path_safe {conntable : ConnTable} {s : Reactor α}
    (reach : Reach (Reactor.step true) admittedOnly (Reactor.init conntable) s) : RecvSafe s.net s.pc :=
  (Reactor.recvInv_reach reach).safe

/-- Nothing is written behind the receive buffer. -/
theorem recv_buffer_inside {conntable : ConnTable} {s : Reactor α}
    (reach : Reach (Reactor.step true) admittedOnly (Reactor.init conntable) s) {connid : ConnId} {curfd : Int}
    {pc : InPc α} (at_ : s.pc = .epollin connid curfd pc) : pc.buffer.length ≤ netRecvBuffSize := by
  refine reach.invariant_of (K := fun s => RecvSafe s.net s.pc) (P := fun s => ∀ connid curfd pc,
    s.pc = .epollin connid curfd pc → pc.buffer.length ≤ netRecvBuffSize) (fun _ => recv_path_safe) ?_ ?_ _ _ _ at_
  · simp [Reactor.init]
  · intro act old new safe _ inside _ run connid curfd pc at_
    rcases (Reactor.step_spec run).streams with
      ⟨_, _, _, same | first⟩ | ⟨id, fd, before, loopAct, net, after, event, rfl, here, step, rfl⟩
    · exact inside connid curfd pc (same ▸ at_)
    · rw [first connid curfd pc at_]
      exact Nat.zero_le _
    · rw [Reactor.observe_pc] at at_
      obtain rfl : after = .epollin connid curfd pc := at_
      rcases step.pc_next with stop | ⟨fault, stop⟩ | ⟨_, same⟩
      · simp at stop
      · simp at stop
      · cases same
        exact step.buffer_next (here ▸ safe) (inside _ _ _ here)

/-- A packet that arrives in two readable events. -/
def cutPacketRun : List (ReactorAct UInt8) :=
  [.eventIn 7, .loop .tau, .loop (.recv (.data [0, 0, 9, 0, 0])), .loop .tau, .loop .tau, .loop .tau,
    .loop (.recv (.fail .eagain)), .loop .tau,
    .eventIn 7, .loop .tau, .loop (.recv (.data [0, 1, 0, 0, 0, 65])), .loop .tau, .loop .tau, .loop .tau,
    .loop .tau, .loop .tau]

theorem recv_path_safe_in_two_events : ∃ s : Reactor UInt8,
    exec (guarded (Reactor.step true) admittedOnly) cutPacketRun (Reactor.init soleConn) = some s ∧
      s.net.pool.length = 1 ∧ RecvSafe s.net s.pc := by
  have ends : ∃ s, exec (guarded (Reactor.step true) admittedOnly) cutPacketRun (Reactor.init soleConn) =
      some s ∧ s.net.pool.length = 1 := exec_ends (by decide +kernel)
  obtain ⟨s, run, handed⟩ := ends
  exact ⟨s, run, handed, recv_path_safe (reach_of_exec_guarded run)⟩

/-- An unfinished packet that fills one `recv` leaves nothing to ask for in the next one. -/
theorem Reactor.unfinished_fills {conntable : ConnTable} {connid : ConnId} {fd : Int} {bytes : List α}
    (known : conntable connid = some fd) (valid : fd ≠ -1) (full : bytes.length = netRecvSizeLimit)
    (sized : netPkg.TotalsLe intMax bytes) (incomplete : ¬ netPkg.Complete bytes) :
    ∃ s, Reach (Reactor.step true) sizesInt (Reactor.init conntable) s ∧
      s.pc = .epollin connid fd (.recv bytes netRecvSizeLimit) := by
  have parsed : parsePack bytes (bytes.length : Int) = some ⟨0, none, bytes, bytes.length⟩ :=
    parsePack_incomplete le_rfl (full.trans_le (by decide)) (by rwa [List.take_length])
      (by rwa [List.take_length])
  have some : 0 < bytes.length := full ▸ (by decide)
  let first : Reactor α := { Reactor.init conntable with pc := .epollin connid fd .firstRecv }
  let second : Reactor α := { first with
    pc := .epollin connid fd (.find bytes bytes.length)
    received := Function.update first.received connid (first.received connid ++ bytes) }
  let third : Reactor α := { second with
    net := { second.net with recvMap := mRecvRemove second.net.recvMap connid }
    pc := .epollin connid fd (.parse bytes bytes.length) }
  have lookup : Reactor.step true (.loop .tau) { Reactor.init conntable with pc := .inLookup connid } =
      .some first := by
    simp [Reactor.step, loopStep, Reactor.init, connGetSockfd, known, valid, Reactor.observe, first]
  have receive : Reactor.step true (.loop (.recv (.data bytes))) first = .some second := by
    simp only [Reactor.step, first, loopStep, inStep, if_pos (And.intro some full.le)]
    rfl
  have allowed : sizesInt (.loop (.recv (.data bytes))) first := sized
  have parse : Reactor.step true (.loop .tau) third =
      .some { third with pc := .epollin connid fd (.recv bytes bytes.length) } := by
    simp [Reactor.step, third, loopStep, inStep, parsed, Reactor.observe]
  have silent : ∀ {old new : Reactor α}, Reach (Reactor.step true) sizesInt (Reactor.init conntable) old →
      Reactor.step true (.loop .tau) old = .some new →
      Reach (Reactor.step true) sizesInt (Reactor.init conntable) new := fun reach run =>
    reach.next (show sizesInt (.loop .tau : ReactorAct α) _ from trivial) run
  have dispatched : Reach (Reactor.step true) sizesInt (Reactor.init conntable)
      { Reactor.init conntable with pc := .inLookup connid } :=
    Reach.start.next (show sizesInt (.eventIn connid : ReactorAct α) _ from trivial) rfl
  have read := (silent dispatched lookup).next allowed receive
  have joined : Reach (Reactor.step true) sizesInt (Reactor.init conntable) third :=
    silent (silent read rfl) rfl
  exact ⟨_, silent joined parse, full ▸ rfl⟩

/-- A peer that announces a large packet and sends as much of it as one `recv` takes makes the
next `recv` of the loop ask for no bytes. -/
theorem recv_path_not_always_safe : ∃ s : Reactor UInt8,
    Reach (Reactor.step true) sizesInt (Reactor.init soleConn) s ∧
      ¬ RecvSafe s.net s.pc := by
  obtain ⟨bytes, size, total⟩ : ∃ bytes : List UInt8, bytes.length = netRecvSizeLimit ∧
      netPkg.total bytes = 200010 := by
    refine ⟨packHead (200000 : Nat) 1 ++ List.replicate 195574 0, ?_, ?_⟩
    · rw [List.length_append, length_packHead, List.length_replicate]
      decide
    · rw [netPkg_total, headLength_packHead _ _ (by decide)]
      decide
  have incomplete : ¬ netPkg.Complete bytes := by
    rintro ⟨_, whole⟩
    rw [total, size] at whole
    exact absurd whole (by decide)
  have sized : netPkg.TotalsLe intMax bytes := by
    refine ⟨by simp [Framing.frames_of_incomplete incomplete], fun _ => ?_⟩
    rw [Framing.rest_of_incomplete incomplete, total]
    decide
  have known : soleConn 7 = some 5 := rfl
  obtain ⟨s, reach, at_⟩ := Reactor.unfinished_fills known (by decide) size sized incomplete
  refine ⟨s, reach, fun safe => ?_⟩
  have asked := safe.2
  rw [at_] at asked
  exact absurd asked.2.1 (by decide)

end SvrNet

import SvrNet.Timely
import SvrNet.Trace

namespace SvrNet
open CData StepSystem Trace

section Kinds

/-- The steps of the loop thread. -/
def ServerAct.ofLoop : ServerAct → Prop
  | .wait _ | .dispatch | .loop _ => True
  | _ => False

/-- The steps of the send thread. -/
def ServerAct.ofSend : ServerAct → Prop
  | .send _ => True
  | _ => False

/-- The steps of a worker. -/
def ServerAct.ofWorker (i : Nat) : ServerAct → Prop
  | .take j | .respond j _ | .signal j => j = i
  | _ => False

/-- `recv` has no data. -/
def ServerAct.runsDry : ServerAct → Prop
  | .loop (.recv (.data _)) => False
  | .loop (.recv _) => True
  | _ => False

/-- `send` gets through, or fails for good. -/
def ServerAct.getsThrough : ServerAct → Prop
  | .loop (.send (.sent _)) => True
  | .loop (.send (.fail errno)) => errno.again = false
  | _ => False

/-- `epoll_wait` reports that a response can be sent on the connection. -/
def reportsWritable (id : ConnId) (act : ServerAct) (s : Service) : Prop :=
  ∃ events, act = .wait events ∧ .epollout id ∈ handlerCalls s.server.epoll events

variable {s s' : Server} {act : ServerAct}

theorem ServerStep.loop_kept (step : ServerStep s act s') (other : ¬ act.ofLoop) :
    s'.loop = s.loop ∧ s'.calls = s.calls := by
  cases step with
  | wait | dispatch | loop => exact absurd trivial other
  | _ => exact ⟨rfl, rfl⟩

theorem ServerStep.send_kept (step : ServerStep s act s') (other : ¬ act.ofSend) :
    s'.send = s.send ∨ s.send = .waiting ∧ s'.send = .woken := by
  cases step with
  | frontEmpty | front | sendWait | sendWoken | lookupMissing | lookupFound | modify | modifyFail | sendPurge
  | sendRemove => exact absurd trivial other
  | loop => exact Or.inl (by simp)
  | wake at_ => exact Or.inr ⟨at_, rfl⟩
  | signal =>
    dsimp only
    split
    · rename_i waits
      exact Or.inr ⟨waits, rfl⟩
    · exact Or.inl rfl
  | _ => exact Or.inl rfl

theorem ServerStep.worker_kept (step : ServerStep s act s') {i : Nat} (other : ¬ act.ofWorker i) :
    s'.worker i = s.worker i := by
  cases step with
  | loop => simp
  | @take j | @finish j | @respond j | @signal j => exact Function.update_of_ne (fun same => other same.symm) ..
  | _ => rfl

/-- A step of a handler. -/
theorem ServerStep.loop_spec {lact : LoopAct UInt8} (step : ServerStep s (.loop lact) s') :
    ∃ event, LoopStep true s.net s.loop (lact.tagged s.handlerOwner) s'.net s'.loop event := by
  cases step with
  | loop _ step => exact ⟨_, by simpa using step⟩

/-- A handler that is running goes on with one of its own steps. -/
theorem ServerStep.handler_goes (step : ServerStep s act s') (loop : act.ofLoop) (busy : s.loop ≠ .idle) :
    ∃ lact event, act = .loop lact ∧ LoopStep true s.net s.loop (lact.tagged s.handlerOwner) s'.net s'.loop event := by
  cases act with
  | loop lact =>
    obtain ⟨event, inner⟩ := step.loop_spec
    exact ⟨lact, event, rfl, inner⟩
  | wait | dispatch =>
    cases step
    exact absurd ‹s.loop = _› busy
  | _ => cases loop

/-- The calls for the events of `epoll_wait` are made one by one before the next events are fetched. -/
theorem ServerStep.calls_next (step : ServerStep s act s') : s'.calls = s.calls ∨
    (s.loop = .idle ∧ s.calls = []) ∨ act = .dispatch ∧ ∃ call, s.calls = call :: s'.calls := by
  cases step with
  | wait idle none => exact Or.inr (Or.inl ⟨idle, none⟩)
  | @dispatch _ call _ _ _ taken => exact Or.inr (Or.inr ⟨rfl, call, taken⟩)
  | @loop _ _ _ event => cases event <;> exact Or.inl rfl
  | _ => exact Or.inl rfl

theorem ServerStep.idle_goes (step : ServerStep s act s') (loop : act.ofLoop) (idle : s.loop = .idle) :
    s.calls = [] ∨ act = .dispatch ∧ ∃ call, s.calls = call :: s'.calls := by
  cases step with
  | wait _ none => exact Or.inl none
  | @dispatch _ call _ _ _ taken => exact Or.inr ⟨rfl, call, taken⟩
  | loop _ inner =>
    rw [idle] at inner
    cases inner
  | _ => cases loop

end Kinds

section Phases

variable {α β : Type}

/-- The handler has data that it has not looked through. -/
def InPc.parsing : InPc α → Bool
  | .find _ _ | .uncache _ _ | .parse _ _ | .push _ _ _ _ => true
  | _ => false

/-- The handler is in front of a `recv`. -/
def InPc.receives : InPc α → Bool
  | .firstRecv | .recv _ _ => true
  | _ => false

/-- The handler calls `recv` no more. -/
def InPc.finishing : InPc α → Bool
  | .store _ _ | .purge | .drop | .forget | .close => true
  | _ => false

/-- An upper bound of the steps to the end of the phase, without those that wait for the pool. -/
def InPc.left : InPc α → Nat
  | .find _ err => 2 * (err.toNat + netRemainCacheSize) + 4
  | .uncache _ err => 2 * err.toNat + 3
  | .push _ err _ _ => 2 * err.toNat + 2
  | .parse _ err => 2 * err.toNat + 1
  | .purge => 4
  | .drop => 3
  | .forget => 2
  | .store _ _ | .close => 1
  | _ => 0

def LoopPc.left : LoopPc α β → Nat
  | .epollin _ _ pc => pc.left
  | .epollout _ _ (.send _ _ buflen) => buflen
  | _ => 0

variable [Cell α] {net net' : NetSvr α β} {connid : ConnId} {curfd : Int} {pc : InPc α} {act : LoopAct α}
  {pc' : LoopPc α β} {event : LoopEvent α β}

omit [Cell α] in
theorem InPc.phases (pc : InPc α) : pc.parsing = true ∨ pc.receives = true ∨ pc.finishing = true := by
  cases pc <;> simp [InPc.parsing, InPc.receives, InPc.finishing]

theorem parsePack_left {buf : List α} {bufLen : Int} {parsed : Parsed α} (done : parsePack buf bufLen = some parsed)
    (packet : parsed.packLen ≠ 0) : parsed.bufLen.toNat < bufLen.toNat := by
  unfold parsePack at done
  split at done
  · cases done
    exact absurd rfl packet
  · dsimp only at done
    split at done
    · cases done
      exact absurd rfl packet
    · split at done
      · cases done
      · rw [Option.some.injEq] at done
        subst done
        dsimp only at packet ⊢
        omega

/-- The handler looks through its data, packet by packet, until it calls `recv` again; with a packet it
waits for the pool. -/
theorem InStep.parsing_next (step : InStep true net connid curfd pc act net' pc' event) (parsing : pc.parsing = true)
    (safe : ∀ fault, pc' ≠ .fault fault) : ∃ next, pc' = .epollin connid curfd next ∧
      (next.receives = true ∨ next.parsing = true ∧ next.left < pc.left ∨
        next = pc ∧ net' = net ∧ poolQueueLimit < net.pool.length) := by
  cases step with
  | findMissing => exact ⟨_, rfl, Or.inr (Or.inl ⟨rfl, by simp only [InPc.left]; omega⟩)⟩
  | findCached _ short =>
    refine ⟨_, rfl, Or.inr (Or.inl ⟨rfl, ?_⟩)⟩
    simp only [InPc.left]
    omega
  | findBeyond | parseFault => exact absurd rfl (safe _)
  | findLong _ _ next =>
    rcases next with rfl | rfl
    · exact absurd rfl (safe _)
    · exact ⟨_, rfl, Or.inr (Or.inl ⟨rfl, by simp only [InPc.left]; omega⟩)⟩
  | uncache => exact ⟨_, rfl, Or.inr (Or.inl ⟨rfl, by simp only [InPc.left]; omega⟩)⟩
  | parsePacket done packet =>
    have left := parsePack_left done packet
    exact ⟨_, rfl, Or.inr (Or.inl ⟨rfl, by simp only [InPc.left]; omega⟩)⟩
  | parseDone => exact ⟨_, rfl, Or.inl rfl⟩
  | pushFull full => exact ⟨_, rfl, Or.inr (Or.inr ⟨rfl, rfl, full⟩)⟩
  | pushDone => exact ⟨_, rfl, Or.inr (Or.inl ⟨rfl, by simp only [InPc.left]; omega⟩)⟩
  | _ => cases parsing

theorem InStep.parsing_tau (step : InStep true net connid curfd pc act net' pc' event) (parsing : pc.parsing = true) :
    act = .tau := by
  cases step <;> first | rfl | cases parsing

theorem InStep.receives_next (step : InStep true net connid curfd pc act net' pc' event) (receives : pc.receives = true)
    (safe : ∀ fault, pc' ≠ .fault fault) : pc' = .idle ∨ ∃ next, pc' = .epollin connid curfd next ∧
      (next.finishing = true ∨ next.parsing = true ∧ ∃ bytes, act = .recv (.data bytes)) := by
  cases step with
  | firstData | recvData => exact Or.inr ⟨_, rfl, Or.inr ⟨rfl, _, rfl⟩⟩
  | firstClosed | recvClosed | recvAgain => exact Or.inr ⟨_, rfl, Or.inl rfl⟩
  | firstAgain | firstError | recvAgainEmpty | recvError => exact Or.inl rfl
  | recvBeyond => exact absurd rfl (safe _)
  | _ => cases receives

theorem InStep.finishing_next (step : InStep true net connid curfd pc act net' pc' event) (finishing : pc.finishing = true)
    (safe : ∀ fault, pc' ≠ .fault fault) : pc' = .idle ∨ ∃ next, pc' = .epollin connid curfd next ∧
      next.finishing = true ∧ next.left < pc.left := by
  cases step with
  | storeDone | storeSkipped | close => exact Or.inl rfl
  | storeTaken => exact absurd rfl (safe _)
  | purge | drop | forget => exact Or.inr ⟨_, rfl, rfl, Nat.lt_succ_self _⟩
  | _ => cases finishing

/-- What a step does to the pool: a worker takes the first request, or the handler for readable events
adds one. -/
theorem ServerStep.pool_next {s s' : Server} {act : ServerAct} (step : ServerStep s act s') : s'.net.pool = s.net.pool ∨
    (∃ i work, act = .take i ∧ s'.worker i = .proc work ∧ s.net.pool = work :: s'.net.pool) ∨
    ∃ lact fd pc work, act = .loop lact ∧ s.loop = .epollin work.connid fd pc ∧ pc.parsing = true ∧
      s'.net.pool = s.net.pool ++ [work] := by
  cases step with
  | @loop lact net loop event _ step =>
    rw [Server.observe_net]
    generalize s.loop = before at step
    generalize lact.tagged s.handlerOwner = tact at step
    cases step with
    | epollin inner =>
      cases inner with
      | pushDone => exact Or.inr (Or.inr ⟨lact, _, _, _, rfl, rfl, rfl, rfl⟩)
      | _ => exact Or.inl rfl
    | epollout inner => exact Or.inl inner.net_next.2.2
    | _ => exact Or.inl rfl
  | @take i work _ _ pool => exact Or.inr (Or.inl ⟨i, work, rfl, Function.update_self .., pool⟩)
  | _ => exact Or.inl rfl

end Phases

section Ready

variable {n : Nat} {ordered : Bool} {s : Service} {act : ServerAct}

theorem Service.step_isSome (able : (Server.step act s.server).isSome) : (s.step act).isSome := by
  obtain ⟨server, stepped⟩ := Option.isSome_iff_exists.mp able
  unfold Service.step
  rw [stepped]
  cases act with
  | respond i reply =>
    cases Server.step_spec stepped with
    | finish at_ | respond at_ => simp [at_]
  | _ => rfl

/-- Everywhere but in front of a system call the handlers go on by themselves. -/
theorem inStep_tau {α β : Type} [Cell α] (net : NetSvr α β) (connid : ConnId) (curfd : Int) {pc : InPc α}
    (inside : pc ≠ .firstRecv ∧ ∀ recvBuff cacheSize, pc ≠ .recv recvBuff cacheSize) :
    (inStep true net connid curfd pc .tau).isSome := by
  cases pc with
  | firstRecv => exact absurd rfl inside.1
  | recv recvBuff cacheSize => exact absurd rfl (inside.2 recvBuff cacheSize)
  | find | parse | push | store =>
    unfold inStep
    repeat' split
    all_goals simp_all
  | _ => rfl

theorem LoopAct.tagged_send {lact : LoopAct UInt8} {owner : Option Nat} {ret : SendRet}
    (same : lact.tagged owner = .send ret) : lact = .send ret := by
  cases lact with
  | send =>
    cases same
    rfl
  | recv ret => cases ret <;> cases same
  | _ => cases same

theorem LoopAct.tagged_dry {lact : LoopAct UInt8} (owner : Option Nat) (dry : (ServerAct.loop lact).runsDry) :
    (∀ bytes, lact.tagged owner ≠ .recv (.data bytes)) ∧ ∃ ret, lact.tagged owner = .recv ret := by
  cases lact with
  | recv ret =>
    cases ret with
    | data => cases dry
    | closed => exact ⟨nofun, .closed, rfl⟩
    | fail errno => exact ⟨nofun, .fail errno, rfl⟩
  | _ => cases dry

/-- Results of system calls that are always possible: nothing moves. -/
def LoopAct.barren : LoopAct UInt8 → Bool
  | .tau | .recv (.fail _) | .send (.fail _) | .ctl false => true
  | _ => false

theorem Service.loop_enabled {lact : LoopAct UInt8} (barren : lact.barren = true)
    (able : (loopStep true (lact.tagged s.server.handlerOwner) s.server.net s.server.loop).isSome) :
    Enabled Service.step (prompt n ordered) (.loop lact) s := by
  have possible : ∀ fd, s.server.possible fd lact = true := by
    intro fd
    unfold LoopAct.barren at barren
    split at barren
    all_goals first | rfl | cases barren
  have allowed : inStream (.loop lact) s := by
    unfold LoopAct.barren at barren
    split at barren
    all_goals trivial
  obtain ⟨result, run⟩ := Option.isSome_iff_exists.mp able
  refine ⟨⟨⟨⟨trivial, allowed⟩, fun _ => trivial⟩, trivial, trivial, trivial⟩, Service.step_isSome ?_⟩
  unfold Server.handlerOwner at run
  simp only [Server.step]
  rw [if_pos]
  · rw [run]
    rfl
  · cases s.server.loop.handler with
    | none => rfl
    | some handler => exact possible handler.2

theorem Service.recv_enabled {connid : ConnId} {curfd : Int} {pc : InPc TByte}
    (at_ : s.server.loop = .epollin connid curfd pc)
    (waits : pc = .firstRecv ∨ ∃ recvBuff cacheSize, pc = .recv recvBuff cacheSize) :
    Enabled Service.step (prompt n ordered) (.loop (.recv (.fail .eagain))) s := by
  refine Service.loop_enabled rfl ?_
  rw [at_]
  rcases waits with rfl | ⟨recvBuff, cacheSize, rfl⟩
  · rfl
  · simp only [LoopAct.tagged, loopStep, inStep]
    repeat' split
    all_goals rfl

theorem Service.send_enabled {connid : ConnId} {sockfd : Int} {sendbuf : List RByte} {ptr buflen : Nat}
    (at_ : s.server.loop = .epollout connid sockfd (.send sendbuf ptr buflen)) :
    Enabled Service.step (prompt n ordered) (.loop (.send (.fail .other))) s :=
  Service.loop_enabled rfl (by rw [at_]; rfl)

/-- Every point of the loop thread has a step that the outside always allows. -/
theorem PromptInv.loop_ready (inv : PromptInv n s) :
    ∃ act, ServerAct.ofLoop act ∧ Enabled Service.step (prompt n ordered) act s := by
  cases at_ : s.server.loop with
  | idle =>
    cases calls : s.server.calls with
    | nil =>
      exact ⟨.wait [], trivial, ⟨⟨⟨trivial, trivial⟩, fun _ => trivial⟩, trivial, trivial, trivial⟩,
        Service.step_isSome (by simp [Server.step, at_, calls])⟩
    | cons call later =>
      refine ⟨.dispatch, trivial, ⟨⟨⟨trivial, trivial⟩, fun _ => trivial⟩, trivial, trivial, trivial⟩,
        Service.step_isSome ?_⟩
      cases call <;> simp [Server.step, at_, calls]
  | fault fault => exact absurd at_ (inv.receive.recvInv.noFault fault)
  | inLookup | outLookup => exact ⟨.loop .tau, trivial, Service.loop_enabled rfl (by rw [at_]; rfl)⟩
  | epollin connid curfd pc =>
    by_cases waits : pc = .firstRecv ∨ ∃ recvBuff cacheSize, pc = .recv recvBuff cacheSize
    · exact ⟨.loop (.recv (.fail .eagain)), trivial, Service.recv_enabled at_ waits⟩
    · rw [not_or, not_exists] at waits
      refine ⟨.loop .tau, trivial, Service.loop_enabled rfl ?_⟩
      rw [at_]
      exact inStep_tau _ _ _ ⟨waits.1, fun recvBuff cacheSize same => waits.2 recvBuff ⟨cacheSize, same⟩⟩
  | epollout connid sockfd pc =>
    cases pc with
    | pop =>
      refine ⟨.loop .tau, trivial, Service.loop_enabled rfl ?_⟩
      rw [at_]
      simp only [LoopAct.tagged, loopStep, outStep]
      split <;> rfl
    | send => exact ⟨.loop (.send (.fail .other)), trivial, Service.send_enabled at_⟩
    | rearm => exact ⟨.loop (.ctl false), trivial, Service.loop_enabled rfl (by rw [at_]; rfl)⟩

/-- The send thread can go on unless it sleeps. -/
theorem Service.send_ready (awake : s.server.send ≠ .waiting) :
    ∃ act, ServerAct.ofSend act ∧ Enabled Service.step (prompt n ordered) act s := by
  refine ⟨.send false, trivial, ⟨⟨⟨trivial, trivial⟩, fun _ => trivial⟩, trivial, trivial, trivial⟩,
    Service.step_isSome ?_⟩
  cases at_ : s.server.send with
  | waiting => exact absurd at_ awake
  | _ => simp [Server.step, Server.sendStep, at_]

/-- A worker with a request can refuse it, and one that has pushed its response can signal when that is
heard. -/
theorem PromptInv.worker_ready (inv : PromptInv n s) {i : Nat} (busy : s.server.worker i ≠ .idle)
    (heard : s.server.send ≠ .wait) : ∃ act, ServerAct.ofWorker i act ∧ Enabled Service.step (prompt n ordered) act s := by
  cases at_ : s.server.worker i with
  | idle => exact absurd at_ busy
  | proc work =>
    refine ⟨.respond i none, rfl, ⟨⟨⟨trivial, trivial⟩, fun _ => trivial⟩, trivial, trivial, trivial⟩,
      Service.step_isSome ?_⟩
    simp [Server.step, at_, inv.asserted i work at_]
  | signal =>
    refine ⟨.signal i, rfl, ⟨⟨⟨trivial, trivial⟩, fun _ => trivial⟩, fun window => absurd window heard, trivial, trivial⟩,
      Service.step_isSome ?_⟩
    simp [Server.step, at_]

end Ready

/-- Each thread that can take steps again and again takes them, and the outside does its part: `recv` runs
dry again and again, `send` gets through again and again, and `epoll_wait`, when it is called again and
again with a registration for responses on a connection, reports that connection again and again. -/
structure FairService {n : Nat} {ordered : Bool} {first : Service}
    (trace : Trace Service.step (prompt n ordered) first) : Prop where
  loop : trace.FairTo fun act _ => act.ofLoop
  send : trace.FairTo fun act _ => act.ofSend
  worker : ∀ i < n, trace.FairTo fun act _ => act.ofWorker i
  recv : trace.FairTo fun act _ => act.runsDry
  peer : trace.FairTo fun act _ => act.getsThrough
  epoll : ∀ id, trace.FairTo (reportsWritable id)

theorem FairService.suffix {n : Nat} {ordered : Bool} {first : Service}
    {trace : Trace Service.step (prompt n ordered) first} (fair : FairService trace) (k : Nat) :
    FairService (trace.suffix k) where
  loop := fair.loop.suffix k
  send := fair.send.suffix k
  worker := fun i inside => (fair.worker i inside).suffix k
  recv := fair.recv.suffix k
  peer := fair.peer.suffix k
  epoll := fun id => (fair.epoll id).suffix k

/-- A fair run of which `K` is known throughout. -/
structure FairRun {n : Nat} {ordered : Bool} {first : Service}
    (trace : Trace Service.step (prompt n ordered) first) (K : Service → Prop) : Prop extends FairService trace where
  threads : 0 < n
  known : ∀ k, K (trace.state k)
  inv : ∀ s, K s → PromptInv n s

namespace FairRun

variable {n : Nat} {ordered : Bool} {first : Service} {trace : Trace Service.step (prompt n ordered) first}
  {K P Q : Service → Prop}

section Threads

/-- The loop thread takes a step. -/
theorem loop_goes (fair : FairRun trace K)
    (stays : ∀ act before after, K before → K after → P before → prompt n ordered act before →
      Service.step act before = some after → ¬ act.ofLoop → P after ∨ Q after)
    (goes : ∀ act before after, K before → K after → P before → prompt n ordered act before →
      Service.step act before = some after → act.ofLoop → Q after) : trace.LeadsTo P Q :=
  fair.loop.leadsTo (R := fun _ => True) fair.known stays goes (LeadsTo.of_imp fun _ _ => trivial)
    fun s known _ _ => (fair.inv s known).loop_ready

/-- The same from a point in the loop thread, with what goes on holding while the other threads run. -/
theorem loop_goes_from (fair : FairRun trace K) (at_ : LoopPc TByte RByte → Prop)
    (stays : Unless Service.step (prompt n ordered) K P Q)
    (goes : ∀ act before after, K before → K after → P before → at_ before.server.loop → P after →
      Service.step act before = some after → act.ofLoop → Q after) :
    trace.LeadsTo (fun s => P s ∧ at_ s.server.loop) Q := by
  refine fair.loop_goes ?_ ?_
  · intro act before after old new holds allowed run other
    rcases stays act before after old new holds.1 allowed run with still | done
    · left
      rw [((Service.step_spec run).server.loop_kept other).1]
      exact ⟨still, holds.2⟩
    · exact Or.inr done
  · intro act before after old new holds allowed run loop
    rcases stays act before after old new holds.1 allowed run with still | done
    · exact goes act before after old new holds.1 holds.2 still run loop
    · exact done

/-- The send thread takes a step, unless it sleeps. -/
theorem send_goes (fair : FairRun trace K)
    (stays : ∀ act before after, K before → K after → P before → prompt n ordered act before →
      Service.step act before = some after → ¬ act.ofSend → P after ∨ Q after)
    (goes : ∀ act before after, K before → K after → P before → prompt n ordered act before →
      Service.step act before = some after → act.ofSend → Q after)
    (awake : ∀ s, K s → P s → s.server.send ≠ .waiting) : trace.LeadsTo P Q :=
  fair.send.leadsTo (R := fun _ => True) fair.known stays goes (LeadsTo.of_imp fun _ _ => trivial)
    fun s known holds _ => Service.send_ready (awake s known holds)

/-- The window in which a signal would be lost does not stay open. -/
theorem window_closes (fair : FairRun trace K) : trace.LeadsTo P fun s => s.server.send ≠ .wait := by
  intro k _
  by_cases window : (trace.state k).server.send = .wait
  · refine fair.send_goes (P := fun s => s.server.send = .wait) (Q := fun s => s.server.send ≠ .wait) ?_ ?_
      (fun s _ here => by simp [here]) k window
    · intro act before after _ _ here _ run other
      rcases (Service.step_spec run).server.send_kept other with same | ⟨waits, _⟩
      · exact Or.inl (same.trans here)
      · simp [here] at waits
    · intro act before after _ _ here _ run sends
      have step := (Service.step_spec run).server
      generalize after.server = server at step ⊢
      cases step with
      | sendWait => simp
      | frontEmpty at_ | front at_ | sendWoken at_ | lookupMissing at_ | lookupFound at_ | modify at_ | modifyFail at_
      | sendPurge at_ | sendRemove at_ => simp [here] at at_
      | _ => cases sends
  · exact ⟨k, Nat.le_refl k, window⟩

/-- A worker of the pool takes a step, unless it has nothing to do. -/
theorem worker_goes (fair : FairRun trace K) {i : Nat} (inside : i < n)
    (stays : ∀ act before after, K before → K after → P before → prompt n ordered act before →
      Service.step act before = some after → ¬ act.ofWorker i → P after ∨ Q after)
    (goes : ∀ act before after, K before → K after → P before → prompt n ordered act before →
      Service.step act before = some after → act.ofWorker i → Q after)
    (ready : ∀ s, K s → P s → s.server.worker i = .idle → ∃ act, ServerAct.ofWorker i act ∧
      Enabled Service.step (prompt n ordered) act s) : trace.LeadsTo P Q := by
  refine (fair.worker i inside).leadsTo fair.known stays goes fair.window_closes fun s known holds heard => ?_
  by_cases idle : s.server.worker i = .idle
  · exact ready s known holds idle
  · exact (fair.inv s known).worker_ready idle heard

/-- How many steps a worker is away from its next request. -/
def workerLeft : WorkerPc → Nat
  | .proc _ => 2
  | .signal => 1
  | .idle => 0

/-- While there are requests in the pool, some worker comes and takes the first one. -/
theorem takes (fair : FairRun trace K) (filled : ∀ s, K s → P s → s.server.net.pool ≠ [])
    (stays : Unless Service.step (prompt n ordered) K P Q)
    (goes : ∀ i work before after, K after → P before → Service.step (.take i) before = some after →
      before.server.net.pool = work :: after.server.net.pool → after.server.worker i = .proc work → Q after) :
    trace.LeadsTo P Q := by
  refine LeadsTo.ranked (fun s => workerLeft (s.server.worker 0)) fun r => ?_
  refine fair.worker_goes fair.threads ?_ ?_ ?_
  · intro act before after old new holds allowed run other
    obtain ⟨holds, rank⟩ := holds
    rcases stays act before after old new holds allowed run with still | done
    · left
      rw [(Service.step_spec run).server.worker_kept other]
      exact ⟨still, rank⟩
    · exact Or.inr (Or.inl done)
  · intro act before after old new holds allowed run own
    obtain ⟨holds, rank⟩ := holds
    have step := (Service.step_spec run).server
    rcases stays act before after old new holds allowed run with still | done
    · cases act with
      | take i =>
        rcases step.pool_next with same | ⟨_, work, ⟨⟩, takes, pool⟩ | ⟨_, _, _, _, ⟨⟩, _⟩
        · generalize after.server = server at step same
          cases step with
          | take _ pool => simp [pool] at same
        · exact Or.inl (goes i work before after new holds run pool takes)
      | respond i reply =>
        cases own
        refine Or.inr ⟨still, ?_⟩
        rw [← rank]
        generalize after.server = server at step ⊢
        cases step with
        | finish at_ | respond at_ => simp [at_, workerLeft]
      | signal i =>
        cases own
        refine Or.inr ⟨still, ?_⟩
        rw [← rank]
        generalize after.server = server at step ⊢
        cases step with
        | signal at_ => simp [at_, workerLeft]
      | _ => cases own
    · exact Or.inl done
  · intro s known holds idle
    obtain ⟨work, later, pool⟩ := List.exists_cons_of_ne_nil (filled s known holds.1)
    refine ⟨.take 0, rfl, ⟨⟨⟨fair.threads, trivial⟩, fun _ => rfl⟩, trivial, trivial, trivial⟩, Service.step_isSome ?_⟩
    simp [Server.step, idle, pool]

end Threads

section Returns

/-- The handler for readable events is in this phase. -/
def InPhase (phase : InPc TByte → Bool) (s : Service) : Prop :=
  ∃ connid curfd pc, s.server.loop = .epollin connid curfd pc ∧ phase pc = true

/-- What a step of the loop thread is in a phase of the handler. -/
theorem in_step (fair : FairRun trace K) {phase : InPc TByte → Bool} {act : ServerAct} {before after : Service}
    (new : K after) (here : InPhase phase before) (run : Service.step act before = some after) (loop : act.ofLoop) :
    ∃ connid curfd pc lact event, act = .loop lact ∧ before.server.loop = .epollin connid curfd pc ∧ phase pc = true ∧
      InStep true before.server.net connid curfd pc (lact.tagged before.server.handlerOwner) after.server.net
        after.server.loop event ∧ ∀ fault, after.server.loop ≠ .fault fault := by
  obtain ⟨connid, curfd, pc, at_, inside⟩ := here
  obtain ⟨lact, event, same, step⟩ := (Service.step_spec run).server.handler_goes loop (by simp [at_])
  rw [at_] at step
  cases step with
  | epollin inner =>
    exact ⟨connid, curfd, pc, lact, event, same, at_, inside, inner, (fair.inv after new).receive.recvInv.noFault⟩

/-- Other threads leave the handler where it is. -/
theorem in_kept {phase : InPc TByte → Bool} {act : ServerAct} {before after : Service}
    (here : InPhase phase before) (run : Service.step act before = some after) (other : ¬ act.ofLoop) :
    InPhase phase after ∧ after.server.loop.left = before.server.loop.left := by
  have same := ((Service.step_spec run).server.loop_kept other).1
  unfold InPhase
  rw [same]
  exact ⟨here, rfl⟩

/-- The handler looks through all of its data, even when the pool is full in between. -/
theorem parsing_ends (fair : FairRun trace K) : trace.LeadsTo (InPhase InPc.parsing) (InPhase InPc.receives) := by
  refine LeadsTo.ranked (fun s => s.server.loop.left) fun r => ?_
  -- a step of the handler, which waits as long as the pool is full
  have moves : ∀ act before after, K after → InPhase InPc.parsing before ∧ before.server.loop.left = r →
      Service.step act before = some after → act.ofLoop →
      (InPhase InPc.receives after ∨ InPhase InPc.parsing after ∧ after.server.loop.left < r) ∨
        (InPhase InPc.parsing after ∧ after.server.loop.left = r) ∧ after.server.net = before.server.net ∧
          poolQueueLimit < before.server.net.pool.length := by
    intro act before after new holds run loop
    obtain ⟨here, rank⟩ := holds
    obtain ⟨connid, curfd, pc, lact, event, _, at_, inside, step, safe⟩ := fair.in_step new here run loop
    rw [at_] at rank
    obtain ⟨next, there, change⟩ := step.parsing_next inside safe
    rw [there]
    rcases change with receives | ⟨goesOn, less⟩ | ⟨rfl, same, full⟩
    · exact Or.inl (Or.inl ⟨connid, curfd, next, there, receives⟩)
    · exact Or.inl (Or.inr ⟨⟨connid, curfd, next, there, goesOn⟩, rank ▸ less⟩)
    · exact Or.inr ⟨⟨⟨connid, curfd, _, there, inside⟩, rank⟩, same, full⟩
  have room : trace.LeadsTo (fun s => InPhase InPc.parsing s ∧ s.server.loop.left = r) fun s =>
      (InPhase InPc.receives s ∨ InPhase InPc.parsing s ∧ s.server.loop.left < r) ∨
        (InPhase InPc.parsing s ∧ s.server.loop.left = r) ∧ s.server.net.pool.length ≤ poolQueueLimit := by
    refine LeadsTo.ranked (fun s => s.server.net.pool.length) fun size => ?_
    by_cases fits : size ≤ poolQueueLimit
    · exact LeadsTo.of_imp fun k holds => Or.inl (Or.inr ⟨holds.1, holds.2 ▸ fits⟩)
    · have taken : ∀ i work before after, (InPhase InPc.parsing before ∧ before.server.loop.left = r) ∧
          before.server.net.pool.length = size → Service.step (.take i) before = some after →
          before.server.net.pool = work :: after.server.net.pool →
          (InPhase InPc.parsing after ∧ after.server.loop.left = r) ∧ after.server.net.pool.length < size := by
        intro i work before after holds run pool
        obtain ⟨⟨here, rank⟩, length⟩ := holds
        obtain ⟨still, left⟩ := in_kept here run nofun
        rw [pool, List.length_cons] at length
        exact ⟨⟨still, left.trans rank⟩, by omega⟩
      refine fair.takes (fun s _ holds empty => fits (by rw [← holds.2, empty]; exact Nat.zero_le _)) ?_ ?_
      · intro act before after _ new holds _ run
        by_cases loop : act.ofLoop
        · rcases moves act before after new holds.1 run loop with done | ⟨waits, same, _⟩
          · exact Or.inr (Or.inl (Or.inl done))
          · exact Or.inl ⟨waits, by rw [same]; exact holds.2⟩
        · obtain ⟨still, left⟩ := in_kept holds.1.1 run loop
          rcases (Service.step_spec run).server.pool_next with same | ⟨i, work, rfl, _, pool⟩ | ⟨_, _, _, _, rfl, _⟩
          · exact Or.inl ⟨⟨still, left.trans holds.1.2⟩, by rw [same]; exact holds.2⟩
          · exact Or.inr (Or.inr (taken i work before after holds run pool))
          · exact absurd trivial loop
      · intro i work before after _ holds run pool _
        exact Or.inr (taken i work before after holds run pool)
  refine room.resolve (fair.loop_goes ?_ ?_)
  · intro act before after _ _ holds _ run other
    obtain ⟨⟨here, rank⟩, fits⟩ := holds
    obtain ⟨still, left⟩ := in_kept here run other
    refine Or.inl ⟨⟨still, left.trans rank⟩, ?_⟩
    rcases (Service.step_spec run).server.pool_next with same | ⟨i, work, _, _, pool⟩ | ⟨_, _, _, _, rfl, _⟩
    · rw [same]
      exact fits
    · rw [pool, List.length_cons] at fits
      omega
    · exact absurd trivial other
  · intro act before after _ new holds _ run loop
    rcases moves act before after new holds.1 run loop with done | ⟨_, _, full⟩
    · exact done
    · exact absurd holds.2 (Nat.not_le.mpr full)

/-- Data does not keep coming for ever, so the handler gets to its end. -/
theorem reading_ends (fair : FairRun trace K) :
    trace.LeadsTo (InPhase fun pc => pc.parsing || pc.receives) fun s => s.server.loop = .idle ∨ InPhase InPc.finishing s := by
  refine fair.recv.leadsTo (R := InPhase InPc.receives) fair.known ?_ ?_ ?_ ?_
  · intro act before after _ new here _ run more
    by_cases loop : act.ofLoop
    · obtain ⟨connid, curfd, pc, lact, event, rfl, at_, inside, step, safe⟩ := fair.in_step new here run loop
      rw [Bool.or_eq_true] at inside
      rcases inside with parsing | receives
      · obtain ⟨next, there, change⟩ := step.parsing_next parsing safe
        refine Or.inl ⟨connid, curfd, next, there, ?_⟩
        rcases change with receives | ⟨goesOn, _⟩ | ⟨rfl, _⟩
        · simp [receives]
        · simp [goesOn]
        · simp [parsing]
      · rcases step.receives_next receives safe with idle | ⟨next, there, finishing | ⟨goesOn, _⟩⟩
        · exact Or.inr (Or.inl idle)
        · exact Or.inr (Or.inr ⟨connid, curfd, next, there, finishing⟩)
        · exact Or.inl ⟨connid, curfd, next, there, by simp [goesOn]⟩
    · exact Or.inl (in_kept here run loop).1
  · intro act before after _ new here _ run dry
    have loop : act.ofLoop := by
      cases act with
      | loop => trivial
      | _ => cases dry
    obtain ⟨connid, curfd, pc, lact, event, rfl, at_, inside, step, safe⟩ := fair.in_step new here run loop
    obtain ⟨noData, calls⟩ := LoopAct.tagged_dry before.server.handlerOwner dry
    rw [Bool.or_eq_true] at inside
    rcases inside with parsing | receives
    · obtain ⟨ret, same⟩ := calls
      cases same.symm.trans (step.parsing_tau parsing)
    · rcases step.receives_next receives safe with idle | ⟨next, there, finishing | ⟨_, bytes, data⟩⟩
      · exact Or.inl idle
      · exact Or.inr ⟨connid, curfd, next, there, finishing⟩
      · exact absurd data (noData bytes)
  · intro k here
    obtain ⟨connid, curfd, pc, at_, inside⟩ := here
    rw [Bool.or_eq_true] at inside
    rcases inside with parsing | receives
    · exact fair.parsing_ends k ⟨connid, curfd, pc, at_, parsing⟩
    · exact ⟨k, Nat.le_refl k, connid, curfd, pc, at_, receives⟩
  · intro s _ _ waits
    obtain ⟨connid, curfd, pc, at_, receives⟩ := waits
    refine ⟨.loop (.recv (.fail .eagain)), trivial, Service.recv_enabled at_ ?_⟩
    cases pc with
    | firstRecv => exact Or.inl rfl
    | recv recvBuff cacheSize => exact Or.inr ⟨recvBuff, cacheSize, rfl⟩
    | _ => cases receives

/-- A handler that is done with receiving returns. -/
theorem finishing_ends (fair : FairRun trace K) :
    trace.LeadsTo (InPhase InPc.finishing) fun s => s.server.loop = .idle := by
  refine LeadsTo.ranked (fun s => s.server.loop.left) fun r => fair.loop_goes ?_ ?_
  · intro act before after _ _ holds _ run other
    obtain ⟨still, left⟩ := in_kept holds.1 run other
    exact Or.inl ⟨still, left.trans holds.2⟩
  · intro act before after _ new holds _ run loop
    obtain ⟨here, rank⟩ := holds
    obtain ⟨connid, curfd, pc, lact, event, _, at_, inside, step, safe⟩ := fair.in_step new here run loop
    rw [at_] at rank
    rcases step.finishing_next inside safe with idle | ⟨next, there, goesOn, less⟩
    · exact Or.inl idle
    · refine Or.inr ⟨⟨connid, curfd, next, there, goesOn⟩, ?_⟩
      rw [there]
      exact rank ▸ less

theorem epollin_returns (fair : FairRun trace K) :
    trace.LeadsTo (InPhase fun _ => true) fun s => s.server.loop = .idle := by
  have reads : trace.LeadsTo (InPhase fun pc => pc.parsing || pc.receives) fun s => s.server.loop = .idle :=
    fair.reading_ends.resolve fair.finishing_ends
  intro k here
  obtain ⟨connid, curfd, pc, at_, _⟩ := here
  rcases pc.phases with parsing | receives | finishing
  · exact reads k ⟨connid, curfd, pc, at_, by simp [parsing]⟩
  · exact reads k ⟨connid, curfd, pc, at_, by simp [receives]⟩
  · exact fair.finishing_ends k ⟨connid, curfd, pc, at_, finishing⟩

/-- The handler for writable events is at one of these points. -/
def OutPhase (phase : OutPc RByte → Prop) (s : Service) : Prop :=
  ∃ connid sockfd pc, s.server.loop = .epollout connid sockfd pc ∧ phase pc

theorem out_step {phase : OutPc RByte → Prop} {act : ServerAct} {before after : Service} (here : OutPhase phase before)
    (run : Service.step act before = some after) (loop : act.ofLoop) :
    ∃ connid sockfd pc lact tact net next event, act = .loop lact ∧ lact.tagged before.server.handlerOwner = tact ∧
      before.server.loop = .epollout connid sockfd pc ∧ after.server.loop = next ∧ phase pc ∧
      OutStep before.server.net connid sockfd pc tact net next event := by
  obtain ⟨connid, sockfd, pc, at_, inside⟩ := here
  obtain ⟨lact, event, same, step⟩ := (Service.step_spec run).server.handler_goes loop (by simp [at_])
  rw [at_] at step
  cases step with
  | epollout inner => exact ⟨connid, sockfd, pc, lact, _, _, _, event, same, rfl, at_, rfl, inside, inner⟩

theorem out_kept {phase : OutPc RByte → Prop} {act : ServerAct} {before after : Service}
    (here : OutPhase phase before) (run : Service.step act before = some after) (other : ¬ act.ofLoop) :
    OutPhase phase after ∧ after.server.loop.left = before.server.loop.left := by
  have same := ((Service.step_spec run).server.loop_kept other).1
  unfold OutPhase
  rw [same]
  exact ⟨here, rfl⟩

theorem rearm_returns (fair : FairRun trace K) : trace.LeadsTo (OutPhase (· = .rearm)) fun s => s.server.loop = .idle := by
  refine fair.loop_goes ?_ ?_
  · exact fun act before after _ _ here _ run other => Or.inl (out_kept here run other).1
  · intro act before after _ _ here _ run loop
    obtain ⟨connid, sockfd, pc, lact, tact, net, next, event, _, _, at_, there, rfl, step⟩ := out_step here run loop
    cases step with
    | rearm => exact there

/-- The peer takes the data in the end, or `send` fails for good. -/
theorem sending_ends (fair : FairRun trace K) :
    trace.LeadsTo (OutPhase fun pc => ∃ sendbuf ptr buflen, pc = .send sendbuf ptr buflen) (OutPhase (· = .rearm)) := by
  refine LeadsTo.ranked (fun s => s.server.loop.left) fun r => ?_
  refine fair.peer.leadsTo (R := fun _ => True) fair.known ?_ ?_ (LeadsTo.of_imp fun _ _ => trivial) ?_
  · intro act before after _ _ holds _ run again
    obtain ⟨here, rank⟩ := holds
    by_cases loop : act.ofLoop
    · obtain ⟨connid, sockfd, pc, lact, tact, net, next, event, rfl, same, at_, there, inside, step⟩ := out_step here run loop
      obtain ⟨sendbuf, ptr, buflen, rfl⟩ := inside
      rw [at_] at rank
      cases step with
      | sendSome =>
        cases LoopAct.tagged_send same
        exact absurd trivial again
      | sendError failed =>
        cases LoopAct.tagged_send same
        exact absurd failed again
      | sendAgain =>
        by_cases more : 0 < buflen
        · rw [if_pos more] at there
          exact Or.inl ⟨⟨connid, sockfd, _, there, sendbuf, ptr, buflen, rfl⟩, by rw [there]; exact rank⟩
        · rw [if_neg more] at there
          exact Or.inr (Or.inl ⟨connid, sockfd, _, there, rfl⟩)
    · obtain ⟨still, left⟩ := out_kept here run loop
      exact Or.inl ⟨still, left.trans rank⟩
  · intro act before after _ _ holds _ run through
    obtain ⟨here, rank⟩ := holds
    have loop : act.ofLoop := by
      cases act with
      | loop => trivial
      | _ => cases through
    obtain ⟨connid, sockfd, pc, lact, tact, net, next, event, rfl, same, at_, there, inside, step⟩ := out_step here run loop
    obtain ⟨sendbuf, ptr, buflen, rfl⟩ := inside
    rw [at_] at rank
    cases step with
    | @sendSome _ _ _ count bound some =>
      by_cases more : 0 < buflen - count
      · rw [if_pos more] at there
        refine Or.inr ⟨⟨connid, sockfd, _, there, sendbuf, ptr + count, buflen - count, rfl⟩, ?_⟩
        have less : buflen - count < buflen := by omega
        rw [there]
        exact rank ▸ less
      · rw [if_neg more] at there
        exact Or.inl ⟨connid, sockfd, _, there, rfl⟩
    | sendError => exact Or.inl ⟨connid, sockfd, _, there, rfl⟩
    | sendAgain again =>
      cases LoopAct.tagged_send same
      cases again.symm.trans through
  · intro s _ holds _
    obtain ⟨⟨connid, sockfd, pc, at_, sendbuf, ptr, buflen, rfl⟩, _⟩ := holds
    exact ⟨.loop (.send (.fail .other)), rfl, Service.send_enabled at_⟩

theorem epollout_returns (fair : FairRun trace K) :
    trace.LeadsTo (OutPhase fun _ => True) fun s => s.server.loop = .idle := by
  have sends := fair.sending_ends.trans fair.rearm_returns
  have pops : trace.LeadsTo (OutPhase (· = .pop)) fun s =>
      OutPhase (fun pc => ∃ sendbuf ptr buflen, pc = .send sendbuf ptr buflen) s ∨ OutPhase (· = .rearm) s := by
    refine fair.loop_goes ?_ ?_
    · exact fun act before after _ _ here _ run other => Or.inl (out_kept here run other).1
    · intro act before after _ _ here _ run loop
      obtain ⟨connid, sockfd, pc, lact, tact, net, next, event, _, _, at_, there, rfl, step⟩ := out_step here run loop
      cases step with
      | popNothing => exact Or.inr ⟨connid, sockfd, _, there, rfl⟩
      | popEntry => exact Or.inl ⟨connid, sockfd, _, there, _, _, _, rfl⟩
  intro k here
  obtain ⟨connid, sockfd, pc, at_, _⟩ := here
  cases pc with
  | pop => exact (pops.trans (sends.or fair.rearm_returns)) k ⟨connid, sockfd, _, at_, rfl⟩
  | send sendbuf ptr buflen => exact sends k ⟨connid, sockfd, _, at_, sendbuf, ptr, buflen, rfl⟩
  | rearm => exact fair.rearm_returns k ⟨connid, sockfd, _, at_, rfl⟩

/-- Whatever the loop thread is doing, it gets back to the loop in `work_routine`. -/
theorem loop_returns (fair : FairRun trace K) : trace.LeadsTo P fun s => s.server.loop = .idle := by
  have looks : trace.LeadsTo (fun s => ∃ connid, s.server.loop = .inLookup connid ∨ s.server.loop = .outLookup connid)
      fun s => s.server.loop = .idle ∨ InPhase (fun _ => true) s ∨ OutPhase (fun _ => True) s := by
    refine fair.loop_goes ?_ ?_
    · intro act before after _ _ here _ run other
      rw [((Service.step_spec run).server.loop_kept other).1]
      exact Or.inl here
    · intro act before after _ _ here _ run loop
      obtain ⟨connid, at_⟩ := here
      obtain ⟨lact, event, _, step⟩ := (Service.step_spec run).server.handler_goes loop
        (by rcases at_ with at_ | at_ <;> simp [at_])
      generalize there : after.server.loop = next at step
      generalize after.server.net = net at step
      generalize lact.tagged before.server.handlerOwner = tact at step
      rcases at_ with at_ | at_
      · rw [at_] at step
        cases step with
        | inMissing => exact Or.inl rfl
        | inFound => exact Or.inr (Or.inl ⟨_, _, _, there, rfl⟩)
      · rw [at_] at step
        cases step with
        | outMissing => exact Or.inl rfl
        | outFound => exact Or.inr (Or.inr ⟨_, _, _, there, trivial⟩)
  intro k _
  cases at_ : (trace.state k).server.loop with
  | idle => exact ⟨k, Nat.le_refl k, at_⟩
  | fault fault => exact absurd at_ ((fair.inv _ (fair.known k)).receive.recvInv.noFault fault)
  | inLookup connid =>
    exact (looks.resolve (fair.epollin_returns.or fair.epollout_returns)) k
      ⟨connid, Or.inl at_⟩
  | outLookup connid =>
    exact (looks.resolve (fair.epollin_returns.or fair.epollout_returns)) k
      ⟨connid, Or.inr at_⟩
  | epollin connid curfd pc => exact fair.epollin_returns k ⟨connid, curfd, pc, at_, rfl⟩
  | epollout connid sockfd pc => exact fair.epollout_returns k ⟨connid, sockfd, pc, at_, trivial⟩

/-- The loop thread is in front of `epoll_wait`. -/
def AtWait (s : Service) : Prop := s.server.loop = .idle ∧ s.server.calls = []

/-- It comes back there again and again. -/
theorem loop_waits (fair : FairRun trace K) : trace.LeadsTo P AtWait := by
  have all : trace.LeadsTo (fun _ => True) AtWait := by
    refine LeadsTo.ranked (fun s => s.server.calls.length) fun r => ?_
    -- the calls of one `epoll_wait` are made before it is called again
    have stays : Unless Service.step (prompt n ordered) K (fun s => s.server.calls.length = r ∧ ¬ AtWait s)
        fun s => AtWait s ∨ True ∧ s.server.calls.length < r := by
      intro act before after _ _ holds _ run
      obtain ⟨length, busy⟩ := holds
      rcases (Service.step_spec run).server.calls_next with same | ⟨idle, none⟩ | ⟨_, call, taken⟩
      · by_cases waits : AtWait after
        · exact Or.inr (Or.inl waits)
        · exact Or.inl ⟨by rw [same]; exact length, waits⟩
      · exact absurd ⟨idle, none⟩ busy
      · rw [taken, List.length_cons] at length
        exact Or.inr (Or.inr ⟨trivial, by omega⟩)
    have idles : trace.LeadsTo (fun s => s.server.calls.length = r ∧ ¬ AtWait s) fun s =>
        (AtWait s ∨ True ∧ s.server.calls.length < r) ∨ (s.server.calls.length = r ∧ ¬ AtWait s) ∧ s.server.loop = .idle :=
      fair.loop_returns.along fun m => stays.next fair.known m
    have dispatches : trace.LeadsTo (fun s => (s.server.calls.length = r ∧ ¬ AtWait s) ∧ s.server.loop = .idle) fun s =>
        AtWait s ∨ True ∧ s.server.calls.length < r := by
      refine fair.loop_goes_from (· = .idle) stays fun act before after _ _ holds idle _ run loop => ?_
      obtain ⟨length, busy⟩ := holds
      rcases (Service.step_spec run).server.idle_goes loop idle with none | ⟨_, call, taken⟩
      · exact absurd ⟨idle, none⟩ busy
      · rw [taken, List.length_cons] at length
        exact Or.inr ⟨trivial, by omega⟩
    intro k holds
    by_cases waits : AtWait (trace.state k)
    · exact ⟨k, Nat.le_refl k, Or.inl waits⟩
    · exact (idles.resolve dispatches) k ⟨holds.2, waits⟩
  exact fun k _ => all k trivial

end Returns

end FairRun

end SvrNet

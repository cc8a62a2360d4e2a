import SvrNet.Isolation
import SvrNet.Reassembly

namespace SvrNet
open CData StepSystem

/-- The requests of an accepted connection, in the order in which they were handed to the pool. -/
def Server.handedOn (s : Server) (conn : Nat) : List (Work TByte) := (s.handed.filter (·.1 = conn)).map Prod.snd

/-- The bytes that the kernel accepted on an accepted connection. -/
def Server.sentOn (s : Server) (conn : Nat) : List UInt8 :=
  ((s.sent.filter (·.1 = conn)).flatMap Prod.snd).map RByte.val

/-- What a step of the loop thread does beyond the shared data. -/
def Server.event (act : ServerAct) (s : Server) : LoopEvent TByte RByte :=
  match act with
  | .loop act =>
    match loopStep true (act.tagged s.handlerOwner) s.net s.loop with
    | some (_, _, event) => event
    | none => .silent
  | _ => .silent

/-- The server with the streams of its accepted connections: what was received on each of them, and
the requests that the workers are done with, each with the packet that was pushed for it, if any. The
receiving side of a connection has ended when `recv` returned 0 or failed for good. A connection has
failed when `send` failed for good on it; its stream of responses is torn when that was in the middle
of a packet, and garbled when more bytes were accepted behind it. -/
structure Service where
  server : Server
  received : Nat → List TByte
  settled : Nat → List (Work TByte × Option (List UInt8))
  ended : Nat → Bool
  torn : Nat → Bool
  garbled : Nat → Bool
  failed : Nat → Bool

/-- The requests of a connection for which a packet was pushed, with their packets. -/
def Service.pushed (s : Service) (conn : Nat) : List (Work TByte × List UInt8) :=
  (s.settled conn).filterMap fun done => done.2.map (done.1, ·)

/-- The requests of a connection that the handler refused. -/
def Service.declined (s : Service) (conn : Nat) : List (Work TByte) :=
  ((s.settled conn).filter (·.2.isNone)).map Prod.fst

def Service.observe (s : Service) : LoopEvent TByte RByte → Service
  | .received _ curfd bytes =>
    { s with received := fun conn =>
        if s.server.fds curfd = some conn then s.received conn ++ bytes else s.received conn }
  | .recvError _ curfd | .peerClosed _ curfd =>
    { s with ended := fun conn => s.ended conn || decide (s.server.fds curfd = some conn) }
  | .sent _ sockfd bytes =>
    { s with garbled := fun conn =>
        s.garbled conn || s.torn conn && (decide (s.server.fds sockfd = some conn) && !bytes.isEmpty) }
  | .sendError _ sockfd =>
    { s with
      torn := fun conn =>
        s.torn conn || decide (s.server.fds sockfd = some conn) && !(netPkg.rest (s.server.sentOn conn)).isEmpty
      failed := fun conn => s.failed conn || decide (s.server.fds sockfd = some conn) }
  | _ => s

/-- What became of a request is recorded for the connection that its id stands for. -/
def Service.settle (s : Service) (work : Work TByte) (reply : Option (List UInt8 × Nat)) :
    Nat → List (Work TByte × Option (List UInt8)) := fun conn =>
  if s.server.ident work.connid = some conn then
    s.settled conn ++ [(work, reply.map fun out => builtPack out.1 out.2 (toInt (headMsgID work.data)))]
  else s.settled conn

def Service.step (act : ServerAct) (s : Service) : Option Service :=
  match Server.step act s.server with
  | none => none
  | some server =>
    match act with
    | .loop act => some { s.observe (s.server.event (.loop act)) with server := server }
    | .respond i reply =>
      match s.server.worker i with
      | .proc work => some { s with server := server, settled := s.settle work reply }
      | _ => none
    | _ => some { s with server := server }

def Service.init : Service where
  server := Server.init
  received := fun _ => []
  settled := fun _ => []
  ended := fun _ => false
  torn := fun _ => false
  garbled := fun _ => false
  failed := fun _ => false

/-- Nothing is received on a connection behind the end of its stream. -/
def inStream : ServerAct → Service → Prop
  | .loop (.recv (.data _)), s => ∀ conn ∈ s.server.handlerOwner, s.ended conn = false
  | _, _ => True

instance : ∀ (act : ServerAct) (s : Service), Decidable (inStream act s)
  | .loop (.recv (.data _)), s => inferInstanceAs (Decidable (∀ conn ∈ s.server.handlerOwner, s.ended conn = false))
  | .loop (.recv .closed), _ | .loop (.recv (.fail _)), _ | .loop (.send _), _ | .loop .tau, _ | .loop (.ctl _), _
  | .accept _, _ | .insert _, _ | .add _, _ | .listenRemove, _ | .wait _, _ | .dispatch, _ | .send _, _ | .wake, _
  | .take _, _ | .respond _ _, _ | .signal _, _ => inferInstanceAs (Decidable True)

/-- A guard that is about the server only. -/
def onServer (guard : ServerAct → Server → Prop) (act : ServerAct) (s : Service) : Prop := guard act s.server

/-- No id comes back while something still goes by it, and the streams end as the kernel says. -/
def orderly (act : ServerAct) (s : Service) : Prop := freshId act s.server ∧ inStream act s

/-- The same with `n` threads in the pool and ids that come back when nothing goes by them any more. -/
def orderlyReusing (n : Nat) (act : ServerAct) (s : Service) : Prop := reusesId n act s.server ∧ inStream act s

instance (n : Nat) (act : ServerAct) (s : Service) : Decidable (orderlyReusing n act s) :=
  inferInstanceAs (Decidable (_ ∧ _))

theorem Service.pushed_answered {s s' : Service} {work : Work TByte} {outdata : List UInt8} {outlen : Nat}
    (settled : s'.settled = s.settle work (some (outdata, outlen))) (conn : Nat) :
    s'.pushed conn = s.pushed conn ++ if s.server.ident work.connid = some conn then
      [(work, builtPack outdata outlen (toInt (headMsgID work.data)))] else [] := by
  rw [Service.pushed, settled]
  by_cases owner : s.server.ident work.connid = some conn
  · simp [Service.pushed, Service.settle, owner]
  · simp [Service.pushed, Service.settle, owner]

theorem Service.pushed_declined {s s' : Service} {work : Work TByte} (settled : s'.settled = s.settle work none)
    (conn : Nat) : s'.pushed conn = s.pushed conn := by
  rw [Service.pushed, settled]
  by_cases owner : s.server.ident work.connid = some conn
  · simp [Service.pushed, Service.settle, owner]
  · simp [Service.pushed, Service.settle, owner]

/-- Each request that the workers are done with was answered or refused. -/
theorem Service.settled_perm (s : Service) (conn : Nat) :
    ((s.settled conn).map Prod.fst).Perm ((s.pushed conn).map Prod.fst ++ s.declined conn) := by
  unfold Service.pushed Service.declined
  induction s.settled conn with
  | nil => exact .nil
  | cons done later ih =>
    obtain ⟨work, packet⟩ := done
    cases packet with
    | none => exact (ih.cons work).trans List.perm_middle.symm
    | some packet => exact ih.cons work

/-- The requests that were answered are among those that the workers are done with. -/
theorem Service.pushed_sublist (s : Service) (conn : Nat) :
    ((s.pushed conn).map Prod.fst).Sublist ((s.settled conn).map Prod.fst) := by
  unfold Service.pushed
  induction s.settled conn with
  | nil => exact .slnil
  | cons done later ih =>
    obtain ⟨work, packet⟩ := done
    cases packet with
    | none => exact ih.cons work
    | some packet => exact ih.cons_cons work

/-- The steps of the service one by one. -/
inductive ServiceStep (s : Service) : ServerAct → Service → Prop
  | loop {act : LoopAct UInt8} {net : NetSvr TByte RByte} {loop : LoopPc TByte RByte}
      {event : LoopEvent TByte RByte} : s.server.Allows act →
      LoopStep true s.server.net s.server.loop (act.tagged s.server.handlerOwner) net loop event →
      ServiceStep s (.loop act)
        { s.observe event with server := ({ s.server with net := net, loop := loop } : Server).observe event }
  | respond {i : Nat} {work : Work TByte} {outdata : List UInt8} {outlen : Nat} :
      s.server.worker i = .proc work → outlen + netPkgSize ≤ outdata.length → outlen + netPkgSize ≤ intMax →
      ServiceStep s (.respond i (some (outdata, outlen)))
        { s with
          server := { s.server with
            net := { s.server.net with
              sendQueue := qSendPush s.server.net.sendQueue work.connid (workPack work outdata outlen) }
            worker := Function.update s.server.worker i .signal }
          settled := s.settle work (some (outdata, outlen)) }
  | finish {i : Nat} {work : Work TByte} : s.server.worker i = .proc work →
      ServiceStep s (.respond i none)
        { s with
          server := { s.server with worker := Function.update s.server.worker i .idle }
          settled := s.settle work none }
  | other {act : ServerAct} {server : Server} : ServerStep s.server act server →
      (∀ act', act ≠ .loop act') → (∀ i reply, act ≠ .respond i reply) →
      ServiceStep s act { s with server := server }

theorem Service.step_server {act : ServerAct} {s s' : Service} (run : s.step act = some s') :
    Server.step act s.server = some s'.server := by
  unfold Service.step at run
  split at run
  · simp at run
  · rename_i server stepped
    split at run
    · cases run
      exact stepped
    · split at run
      · cases run
        exact stepped
      · simp at run
    · cases run
      exact stepped

theorem Service.step_spec {act : ServerAct} {s s' : Service} (run : s.step act = some s') :
    ServiceStep s act s' := by
  obtain ⟨server, stepped⟩ : ∃ server, Server.step act s.server = some server := ⟨_, Service.step_server run⟩
  cases act with
  | loop act =>
    simp only [Service.step, stepped] at run
    cases run
    simp only [Server.step] at stepped
    split at stepped
    · rename_i possible
      split at stepped
      · simp at stepped
      · rename_i net loop event looped
        have same : s.server.event (.loop act) = event := by
          simp only [Server.event, Server.handlerOwner, looped]
        cases stepped
        rw [same]
        refine .loop (fun connid fd handler => ?_) (loopStep_spec looped)
        simpa [handler] using possible
    · simp at stepped
  | respond i reply =>
    simp only [Service.step, stepped] at run
    cases Server.step_spec stepped with
    | finish at_ =>
      simp only [at_] at run
      cases run
      exact .finish at_
    | respond at_ room bound =>
      simp only [at_] at run
      cases run
      exact .respond at_ room bound
  | _ =>
    simp only [Service.step, stepped] at run
    cases run
    exact .other (Server.step_spec stepped) (by simp) (by simp)

theorem ServiceStep.server {act : ServerAct} {s s' : Service} (step : ServiceStep s act s') :
    ServerStep s.server act s'.server := by
  cases step with
  | loop allows step => exact .loop allows step
  | respond at_ room bound => exact .respond at_ room bound
  | finish at_ => exact .finish at_
  | other step => exact step

section Reachable

variable {s s' : Service} {guard : ServerAct → Service → Prop}

theorem Service.server_reach {wide : ServerAct → Server → Prop} (reach : Reach Service.step guard Service.init s)
    (weaker : ∀ act s, guard act s → wide act s.server) : Reach Server.step wide Server.init s.server := by
  induction reach with
  | start => exact .start
  | next _ allowed run ih => exact ih.next (weaker _ _ allowed) (Service.step_server run)

theorem orderly_reach {n : Nat} (reach : Reach Service.step (orderlyReusing n) Service.init s) :
    Reach Service.step orderly Service.init s :=
  reach.mono_of (K := fun s => ThreadsInv n s.server)
    (fun _ reach => threadsInv_reach (Service.server_reach reach fun _ _ allowed => allowed.1))
    fun _ _ threads allowed => ⟨freshId_of_quietId (quietId_of_reusesId threads allowed.1), allowed.2⟩

theorem isolationInv_reach {s : Server} (reach : Reach Server.step freshId Server.init s) : IsolationInv s :=
  reach.invariant_of (K := TableInv) (fun _ reach => tableInv_reach reach) isolationInv_init
    fun _ _ _ tableInv _ inv fresh run => inv.step tableInv fresh run

end Reachable

section Owners

variable {s s' : Server}

/-- Each accepted connection gets one id, when it is inserted. -/
structure OwnerInv (s : Server) : Prop where
  known : ∀ id conn, s.ident id = some conn → conn < s.accepted
  distinct : ∀ id id' conn, s.ident id = some conn → s.ident id' = some conn → id = id'
  inserting : ∀ fd conn, s.listen = .insert fd → s.fds fd = some conn → ∀ id, s.ident id ≠ some conn

theorem ownerInv_init : OwnerInv Server.init := by
  constructor <;> simp [Server.init]

/-- Steps that neither accept nor insert a connection. -/
theorem OwnerInv.quiet (inv : OwnerInv s) (ident : s'.ident = s.ident) (accepted : s'.accepted = s.accepted)
    (inserting : ∀ fd conn, s'.listen = .insert fd → s'.fds fd = some conn →
      s.listen = .insert fd ∧ s.fds fd = some conn) : OwnerInv s' where
  known := by
    rw [ident, accepted]
    exact inv.known
  distinct := by
    rw [ident]
    exact inv.distinct
  inserting := fun fd conn at_ open_ => by
    obtain ⟨before, owner⟩ := inserting fd conn at_ open_
    rw [ident]
    exact inv.inserting fd conn before owner

theorem OwnerInv.step {act : ServerAct} (inv : OwnerInv s) (numbers : NumberInv s)
    (step : ServerStep s act s') : OwnerInv s' := by
  cases step with
  | @accept fd at_ free =>
    refine ⟨fun id conn owner => Nat.lt_succ_of_lt (inv.known id conn owner), inv.distinct,
      fun other conn here open_ id owner => ?_⟩
    cases here
    have last : s.accepted = conn := by simpa using open_
    exact lt_irrefl _ (last ▸ inv.known id conn owner)
  | @insert fd draws id at_ =>
    have owners : ∀ other conn, Function.update s.ident id (s.fds fd) other = some conn →
        other = id ∧ s.fds fd = some conn ∨ other ≠ id ∧ s.ident other = some conn := by
      intro other conn owner
      by_cases same : other = id
      · subst same
        exact Or.inl ⟨rfl, by rwa [Function.update_self] at owner⟩
      · exact Or.inr ⟨same, by rwa [Function.update_of_ne same] at owner⟩
    refine ⟨fun other conn owner => ?_, fun one two conn left right => ?_, by simp⟩
    · rcases owners other conn owner with ⟨_, open_⟩ | ⟨_, old⟩
      · exact (numbers.known fd conn open_).1
      · exact inv.known other conn old
    · rcases owners one conn left with ⟨rfl, open_⟩ | ⟨_, old⟩
      · rcases owners two conn right with ⟨rfl, _⟩ | ⟨_, old⟩
        · rfl
        · exact absurd old (inv.inserting fd conn at_ open_ two)
      · rcases owners two conn right with ⟨rfl, open_⟩ | ⟨_, old'⟩
        · exact absurd old (inv.inserting fd conn at_ open_ one)
        · exact inv.distinct one two conn old old'
  | @loop act net loop event _ step =>
    refine inv.quiet (by simp) ?_ fun fd conn at_ open_ => ?_
    · cases event <;> rfl
    · rw [Server.observe_listen] at at_
      refine ⟨at_, ?_⟩
      cases event with
      | closed curfd =>
        have other : fd ≠ curfd := by
          rintro rfl
          simp [Server.observe] at open_
        simpa [Server.observe, other] using open_
      | _ => exact open_
  | add | addFail | listenRemove => exact inv.quiet rfl rfl (by simp)
  | _ => exact inv.quiet rfl rfl fun fd conn at_ open_ => ⟨at_, open_⟩

theorem ownerInv_reach {guard : ServerAct → Server → Prop} (reach : Reach Server.step guard Server.init s) :
    OwnerInv s :=
  reach.invariant_of (K := NumberInv) (fun _ reach => numberInv_reach reach) ownerInv_init
    fun _ _ _ numbers _ inv _ run => inv.step numbers (Server.step_spec run)

end Owners

section Streams

/-- The descriptor that an event is about. -/
def LoopEvent.source {α β : Type} : LoopEvent α β → Option Int
  | .silent => none
  | .received _ curfd _ | .recvError _ curfd | .peerClosed _ curfd | .handed curfd _ | .closed curfd
  | .sent _ curfd _ | .sendError _ curfd | .rearmed _ curfd => some curfd

/-- Every event is about the descriptor of the running handler. -/
theorem LoopStep.source_handler {α β : Type} [Cell α] {asserts : Bool} {net net' : NetSvr α β} {pc pc' : LoopPc α β}
    {act : LoopAct α} {event : LoopEvent α β} {fd : Int} (step : LoopStep asserts net pc act net' pc' event)
    (source : event.source = some fd) : ∃ connid, pc.handler = some (connid, fd) := by
  cases step with
  | @epollin connid curfd pc _ _ _ _ step =>
    cases step with
    | firstData | firstClosed | firstError | pushDone | recvData | recvBeyond | recvClosed | recvError | close =>
      cases source
      exact ⟨_, rfl⟩
    | _ => cases source
  | @epollout connid sockfd pc _ _ _ _ step =>
    cases step with
    | sendSome | sendError =>
      cases source
      exact ⟨_, rfl⟩
    | @rearm ok =>
      cases ok with
      | true => cases source; exact ⟨_, rfl⟩
      | false => cases source
    | _ => cases source
  | _ => cases source

/-- Nothing happened on a connection. -/
structure SameOn (s s' : Service) (conn : Nat) : Prop where
  received : s'.received conn = s.received conn
  settled : s'.settled conn = s.settled conn
  ended : s'.ended conn = s.ended conn
  torn : s'.torn conn = s.torn conn
  garbled : s'.garbled conn = s.garbled conn
  failed : s'.failed conn = s.failed conn
  handed : s'.server.handedOn conn = s.server.handedOn conn
  sent : s'.server.sentOn conn = s.server.sentOn conn

theorem Server.handedOn_append {s s' : Server} (conn : Nat) (owner : Option Nat) (work : Work TByte)
    (handed : s'.handed = s.handed ++ owner.toList.map (·, work)) :
    s'.handedOn conn = s.handedOn conn ++ if owner = some conn then [work] else [] := by
  unfold Server.handedOn
  rw [handed, List.filter_append, List.map_append]
  congr 1
  cases owner with
  | none => rfl
  | some other =>
    by_cases same : other = conn
    · simp [same]
    · simp [same]

theorem Server.sentOn_append {s s' : Server} (conn : Nat) (owner : Option Nat) (bytes : List RByte)
    (sent : s'.sent = s.sent ++ owner.toList.map (·, bytes)) :
    s'.sentOn conn = s.sentOn conn ++ if owner = some conn then bytes.map RByte.val else [] := by
  unfold Server.sentOn
  rw [sent, List.filter_append, List.flatMap_append, List.map_append]
  congr 1
  cases owner with
  | none => rfl
  | some other =>
    by_cases same : other = conn
    · simp [same]
    · simp [same]

variable {s s' : Service} {conn : Nat}

/-- An event changes the streams of the connection that its descriptor is open for. -/
theorem Service.observe_elsewhere {net : NetSvr TByte RByte} {loop : LoopPc TByte RByte} {event : LoopEvent TByte RByte}
    (other : ∀ fd, event.source = some fd → s.server.fds fd ≠ some conn) :
    SameOn s { s.observe event with server := ({ s.server with net := net, loop := loop } : Server).observe event }
      conn := by
  cases event with
  | silent | closed | rearmed => exact ⟨rfl, rfl, rfl, rfl, rfl, rfl, rfl, rfl⟩
  | received connid fd bytes => exact ⟨if_neg (other fd rfl), rfl, rfl, rfl, rfl, rfl, rfl, rfl⟩
  | recvError connid fd | peerClosed connid fd =>
    exact ⟨rfl, rfl, by simp [Service.observe, other fd rfl], rfl, rfl, rfl, rfl, rfl⟩
  | sendError connid fd =>
    exact ⟨rfl, rfl, rfl, by simp [Service.observe, other fd rfl], rfl, by simp [Service.observe, other fd rfl], rfl, rfl⟩
  | handed fd work =>
    refine ⟨rfl, rfl, rfl, rfl, rfl, rfl, ?_, rfl⟩
    rw [Server.handedOn_append (s := s.server) conn (s.server.fds fd) work rfl,
      if_neg (other fd rfl), List.append_nil]
  | sent connid fd bytes =>
    refine ⟨rfl, rfl, rfl, rfl, by simp [Service.observe, other fd rfl], rfl, rfl, ?_⟩
    rw [Server.sentOn_append (s := s.server) conn (s.server.fds fd) bytes rfl,
      if_neg (other fd rfl), List.append_nil]

/-- Steps outside of the handlers and of `work_proc` leave the streams as they are. -/
theorem sameOn_of_other {act : ServerAct} {server : Server} (step : ServerStep s.server act server)
    (notLoop : ∀ act', act ≠ .loop act') (conn : Nat) : SameOn s { s with server := server } conn := by
  cases step with
  | loop => exact absurd rfl (notLoop _)
  | _ => exact ⟨rfl, rfl, rfl, rfl, rfl, rfl, rfl, rfl⟩

/-- Nothing happens on a connection that no id stands for. -/
theorem ServiceStep.elsewhere {act : ServerAct} (step : ServiceStep s act s') (isolation : IsolationInv s.server)
    (nobody : ∀ id, s.server.ident id ≠ some conn) : SameOn s s' conn := by
  cases step with
  | loop _ step =>
    refine Service.observe_elsewhere fun fd source owner => ?_
    obtain ⟨connid, handler⟩ := step.source_handler source
    exact nobody connid ((isolation.owner connid fd handler).symm.trans owner)
  | respond | finish => exact ⟨rfl, if_neg (nobody _), rfl, rfl, rfl, rfl, rfl, rfl⟩
  | other step notLoop => exact sameOn_of_other step notLoop conn

/-- A connection that has no id yet: none of its streams has begun. -/
structure Blank (s : Service) (conn : Nat) : Prop where
  received : s.received conn = []
  settled : s.settled conn = []
  ended : s.ended conn = false
  torn : s.torn conn = false
  garbled : s.garbled conn = false
  failed : s.failed conn = false
  handed : s.server.handedOn conn = []
  sent : s.server.sentOn conn = []

/-- Connections that were not accepted yet, or not inserted yet, are blank. -/
structure BlankInv (s : Service) : Prop where
  later : ∀ conn, s.server.accepted ≤ conn → Blank s conn
  inserting : ∀ fd conn, s.server.listen = .insert fd → s.server.fds fd = some conn → Blank s conn

theorem Blank.same (blank : Blank s conn) (same : SameOn s s' conn) : Blank s' conn where
  received := same.received.trans blank.received
  settled := same.settled.trans blank.settled
  ended := same.ended.trans blank.ended
  torn := same.torn.trans blank.torn
  garbled := same.garbled.trans blank.garbled
  failed := same.failed.trans blank.failed
  handed := same.handed.trans blank.handed
  sent := same.sent.trans blank.sent

theorem BlankInv.step {act : ServerAct} (inv : BlankInv s) (owners : OwnerInv s.server)
    (isolation : IsolationInv s.server) (step : ServiceStep s act s') : BlankInv s' := by
  have later : ∀ conn, s.server.accepted ≤ conn → Blank s' conn := fun conn bound =>
    (inv.later conn bound).same (step.elsewhere isolation fun id owner =>
      absurd (owners.known id conn owner) (Nat.not_lt.mpr bound))
  have waiting : ∀ fd conn, s.server.listen = .insert fd → s.server.fds fd = some conn → Blank s' conn :=
    fun fd conn at_ owner => (inv.inserting fd conn at_ owner).same (step.elsewhere isolation
      (owners.inserting fd conn at_ owner))
  cases step with
  | @loop act net loop event _ inner =>
    have accepted : (({ s.server with net := net, loop := loop } : Server).observe event).accepted =
        s.server.accepted := by cases event <;> rfl
    refine ⟨fun conn bound => later conn (accepted ▸ bound), fun fd conn at_ owner => ?_⟩
    rw [Server.observe_listen] at at_
    refine waiting fd conn at_ ?_
    cases event with
    | closed curfd =>
      have other : fd ≠ curfd := by
        rintro rfl
        simp [Server.observe] at owner
      simpa [Server.observe, other] using owner
    | _ => exact owner
  | respond | finish => exact ⟨later, waiting⟩
  | other step notLoop =>
    cases step with
    | @accept fd at_ free =>
      refine ⟨fun conn bound => later conn (Nat.le_of_succ_le bound), fun other conn here owner => ?_⟩
      cases here
      have last : s.server.accepted = conn := by simpa using owner
      exact later conn last.le
    | insert | add | addFail | listenRemove => exact ⟨later, by simp⟩
    | loop => exact absurd rfl (notLoop _)
    | _ => exact ⟨later, waiting⟩

/-- What is known of the server in every reachable state of the service. -/
structure ServiceKnown (s : Service) : Prop where
  table : TableInv s.server
  numbers : NumberInv s.server
  owners : OwnerInv s.server
  isolation : IsolationInv s.server
  blank : BlankInv s

theorem serviceKnown_reach {guard : ServerAct → Service → Prop} (reach : Reach Service.step guard Service.init s)
    (fresh : ∀ act s, guard act s → freshId act s.server) : ServiceKnown s := by
  have known : ∀ s, Reach Service.step guard Service.init s →
      TableInv s.server ∧ NumberInv s.server ∧ OwnerInv s.server ∧ IsolationInv s.server := fun s reach =>
    have server := Service.server_reach reach fresh
    ⟨tableInv_reach server, numberInv_reach server, ownerInv_reach server, isolationInv_reach server⟩
  obtain ⟨table, numbers, owners, isolation⟩ := known s reach
  refine ⟨table, numbers, owners, isolation, ?_⟩
  refine reach.invariant_of (K := fun s => OwnerInv s.server ∧ IsolationInv s.server)
    (fun s reach => ⟨(known s reach).2.2.1, (known s reach).2.2.2⟩) ?_
    fun _ _ _ known _ inv _ run => inv.step known.1 known.2 (Service.step_spec run)
  exact ⟨fun _ _ => ⟨rfl, rfl, rfl, rfl, rfl, rfl, rfl, rfl⟩, by simp [Service.init, Server.init]⟩

end Streams

end SvrNet

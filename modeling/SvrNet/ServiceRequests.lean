import SvrNet.ParseExact
import SvrNet.Service

namespace SvrNet
open CData StepSystem

section Handler

variable {α β : Type}

/-- The points of the handler for readable events behind a `recv` that returned data. -/
def InPc.reading : InPc α → Bool
  | .find _ _ | .uncache _ _ | .parse _ _ | .push _ _ _ _ | .recv _ _ | .store _ _ => true
  | _ => false

/-- The receiving side of the connection of the handler has ended. -/
def LoopEvent.ends : LoopEvent α β → Bool
  | .recvError _ _ | .peerClosed _ _ => true
  | _ => false

variable [Cell α] {net net' : NetSvr α β} {connid : ConnId} {curfd : Int} {pc : InPc α} {act : LoopAct α}
  {pc' : LoopPc α β} {event : LoopEvent α β}

/-- What is held of a connection is given up when its receiving side ends, and once more when what is
kept is forgotten. -/
theorem InStep.leaves_event {asserts : Bool} (step : InStep asserts net connid curfd pc act net' pc' event)
    (leaves : Leaves pc act) :
    pc = .forget ∨ event = .peerClosed connid curfd ∨ event = .recvError connid curfd := by
  rcases leaves with rfl | rfl | ⟨errno, failed, rfl⟩
  · cases step <;> exact Or.inr (Or.inl rfl)
  · exact Or.inl rfl
  · cases step with
    | firstAgain again | recvAgain again | recvAgainEmpty again => simp [failed] at again
    | firstError | recvError => exact Or.inr (Or.inr rfl)

/-- A handler that goes on reading received something and did not meet the end of the stream; one
that closes its connection met it. -/
theorem InStep.reading_next {asserts : Bool} {next : InPc α}
    (step : InStep asserts net connid curfd pc act net' (.epollin connid curfd next) event) :
    (next.reading = true → event.ends = false ∧ (pc.reading = true ∨ ∃ bytes, act = .recv (.data bytes))) ∧
      (next.closing = true → pc.closing = true ∨ event = .peerClosed connid curfd) := by
  cases step with
  | findLong _ _ next =>
    rcases next with next | next <;> cases next
    exact ⟨fun _ => ⟨rfl, Or.inl rfl⟩, nofun⟩
  | firstData | recvData => exact ⟨fun _ => ⟨rfl, Or.inr ⟨_, rfl⟩⟩, nofun⟩
  | firstClosed | recvClosed => exact ⟨nofun, fun _ => Or.inr rfl⟩
  | purge | drop | forget => exact ⟨nofun, fun _ => Or.inl rfl⟩
  | _ => exact ⟨fun _ => ⟨rfl, Or.inl rfl⟩, nofun⟩

/-- Requests are handed on while the handler reads. -/
theorem InStep.reading_of_handed {asserts : Bool} {fd : Int} {work : Work α}
    (step : InStep asserts net connid curfd pc act net' pc' (.handed fd work)) : pc.reading = true := by
  cases step
  rfl

end Handler

/-- Of each connection that is still received from, the requests handed on and what is held make up
what was received; of the others, the requests are still the first packets that were received. -/
structure ReceiveInv (s : Service) : Prop where
  recvInv : RecvInv s.server.net s.server.loop
  delivered : ∀ id conn, s.server.ident id = some conn → s.ended conn = false →
    netPkg.Delivered ((s.server.handedOn conn).map Work.data) (held s.server.net s.server.loop id) (s.received conn)
  handed : ∀ conn, (s.server.handedOn conn).map Work.data <+: netPkg.frames (s.received conn)
  requests : ∀ conn, ∀ work ∈ s.server.handedOn conn, work = requestOf work.connid work.data
  named : ∀ id conn, s.server.ident id = some conn → ∀ work ∈ s.server.handedOn conn, work.connid = id
  reading : ∀ id fd pc conn, s.server.loop = .epollin id fd pc → s.server.ident id = some conn →
    pc.reading = true → s.ended conn = false
  closing : ∀ id fd pc conn, s.server.loop = .epollin id fd pc → s.server.ident id = some conn →
    pc.closing = true → s.ended conn = true

theorem receiveInv_init : ReceiveInv Service.init where
  recvInv := {
    noFault := by simp [Service.init, Server.init]
    sized := fun _ => Framing.totalsLe_nil
    short := fun _ => show 0 < netRecvSizeLimit by decide
    kept := by simp [Service.init, Server.init]
    locals := by simp [Service.init, Server.init] }
  delivered := by simp [Service.init, Server.init]
  handed := fun _ => List.nil_prefix
  requests := by simp [Service.init, Server.init, Server.handedOn]
  named := by simp [Service.init, Server.init]
  reading := by simp [Service.init, Server.init]
  closing := by simp [Service.init, Server.init]

variable {s s' : Service}

/-- Outside of a readable event only the map counts. -/
theorem held_outside {α β : Type} {net : NetSvr α β} {pc pc' : LoopPc α β}
    (before : ∀ connid curfd inPc, pc ≠ .epollin connid curfd inPc)
    (after : ∀ connid curfd inPc, pc' = .epollin connid curfd inPc → inPc = .firstRecv) (id : ConnId) :
    held net pc' id = held net pc id := by
  have old : held net pc id = cached net id := by
    cases pc with
    | epollin connid curfd inPc => exact absurd rfl (before connid curfd inPc)
    | _ => rfl
  cases pc' with
  | epollin connid curfd inPc =>
    cases after connid curfd inPc rfl
    rw [old]
    simp [held, inHeld]
  | _ => exact old.symm

/-- Steps that neither receive nor hand on anything, and give no id to a connection. -/
theorem ReceiveInv.quiet (inv : ReceiveInv s) (recvMap : s'.server.net.recvMap = s.server.net.recvMap)
    (ident : s'.server.ident = s.server.ident) (received : s'.received = s.received) (ended : s'.ended = s.ended)
    (handed : s'.server.handed = s.server.handed)
    (loop : s'.server.loop = s.server.loop ∨
      (∀ id fd pc, s.server.loop ≠ .epollin id fd pc) ∧ (∀ fault, s'.server.loop ≠ .fault fault) ∧
        ∀ id fd pc, s'.server.loop = .epollin id fd pc → pc = .firstRecv) : ReceiveInv s' := by
  have recvInv : RecvInv s.server.net s'.server.loop := by
    rcases loop with here | ⟨before, noFault, after⟩
    · rw [here]
      exact inv.recvInv
    · exact inv.recvInv.outside before noFault after
  have holds : ∀ id, held s'.server.net s'.server.loop id = held s.server.net s.server.loop id := by
    intro id
    rw [held_congr recvMap]
    rcases loop with here | ⟨before, _, after⟩
    · rw [here]
    · exact held_outside before after id
  have handedOn : ∀ conn, s'.server.handedOn conn = s.server.handedOn conn := fun conn => by
    rw [Server.handedOn, handed, Server.handedOn]
  refine ⟨recvInv.congr recvMap, fun id conn owner going => ?_, fun conn => ?_, fun conn => ?_,
    fun id conn owner => ?_, fun id fd pc conn at_ owner => ?_, fun id fd pc conn at_ owner => ?_⟩
  · rw [handedOn, received, holds]
    exact inv.delivered id conn (ident ▸ owner) (ended ▸ going)
  · rw [handedOn, received]
    exact inv.handed conn
  · rw [handedOn]
    exact inv.requests conn
  · rw [handedOn]
    exact inv.named id conn (ident ▸ owner)
  · rw [ended]
    rcases loop with here | ⟨_, _, after⟩
    · exact inv.reading id fd pc conn (here ▸ at_) (ident ▸ owner)
    · cases after id fd pc at_
      nofun
  · rw [ended]
    rcases loop with here | ⟨_, _, after⟩
    · exact inv.closing id fd pc conn (here ▸ at_) (ident ▸ owner)
    · cases after id fd pc at_
      nofun

/-- A connection that gets an id begins with empty streams, and nothing is held under the id. -/
theorem ReceiveInv.step_insert (inv : ReceiveInv s) (blank : BlankInv s) {fd : Int} {id : ConnId}
    {server : Server} (at_ : s.server.listen = .insert fd) (unused : ¬ Carries s.server id)
    (recvMap : server.net.recvMap = s.server.net.recvMap) (loop : server.loop = s.server.loop)
    (ident : server.ident = Function.update s.server.ident id (s.server.fds fd))
    (same : ∀ conn, SameOn s { s with server := server } conn) : ReceiveInv { s with server := server } := by
  have other : ∀ id' conn, server.ident id' = some conn → id' ≠ id → s.server.ident id' = some conn := by
    intro id' conn owner different
    rwa [ident, Function.update_of_ne different] at owner
  have handling : ∀ id' fd' pc, server.loop = .epollin id' fd' pc → id' ≠ id := by
    rintro id' fd' pc here rfl
    have running : s.server.loop.handler = some (id', fd') := by
      rw [← loop, here]
      rfl
    exact unused (.handler running)
  refine ⟨by rw [loop]; exact inv.recvInv.congr recvMap, fun id' conn owner going => ?_, fun conn => ?_, fun conn => ?_,
    fun id' conn owner => ?_, fun id' fd' pc conn here owner => ?_, fun id' fd' pc conn here owner => ?_⟩
  · rw [(same conn).handed, held_congr recvMap, loop]
    by_cases here : id' = id
    · subst here
      rw [ident, Function.update_self] at owner
      have begins := blank.inserting fd conn at_ owner
      have nothing : held s.server.net s.server.loop id' = [] := by
        have missing : s.server.net.recvMap id' = none := by
          by_contra some
          exact unused (.cache (Option.isSome_iff_ne_none.mpr some))
        cases running : s.server.loop with
        | epollin connid curfd pc =>
          have handler : s.server.loop.handler = some (connid, curfd) := by
            rw [running]
            rfl
          have other : id' ≠ connid := fun same => unused (same ▸ .handler handler)
          rw [held_other other]
          exact cached_of_none missing
        | _ => exact cached_of_none missing
      rw [begins.handed, nothing, begins.received]
      exact Framing.Delivered.nothing
    · exact inv.delivered id' conn (other id' conn owner here) going
  · rw [(same conn).handed]
    exact inv.handed conn
  · rw [(same conn).handed]
    exact inv.requests conn
  · rw [(same conn).handed]
    by_cases here : id' = id
    · subst here
      rw [ident, Function.update_self] at owner
      rw [(blank.inserting fd conn at_ owner).handed]
      nofun
    · exact inv.named id' conn (other id' conn owner here)
  · exact inv.reading id' fd' pc conn (loop ▸ here) (other id' conn owner (handling id' fd' pc here))
  · exact inv.closing id' fd' pc conn (loop ▸ here) (other id' conn owner (handling id' fd' pc here))

section Epollin

variable {id : ConnId} {fd : Int} {pc : InPc TByte} {act : LoopAct TByte} {net : NetSvr TByte RByte}
  {loop : LoopPc TByte RByte} {event : LoopEvent TByte RByte} {conn : Nat}

/-- An event ends the receiving side of the connection that its descriptor is open for, and of no other. -/
theorem Service.observe_ended (open_ : s.server.fds fd = some conn)
    (source : ∀ other, event.source = some other → other = fd) :
    (s.observe event).ended conn = (s.ended conn || event.ends) := by
  cases event with
  | recvError connid other | peerClosed connid other =>
    cases source other rfl
    simp [Service.observe, open_, LoopEvent.ends]
  | _ => simp [Service.observe, LoopEvent.ends]

/-- A step of the handler for readable events moves the bytes of its own connection only, as its event
says. -/
theorem ReceiveInv.step_epollin (inv : ReceiveInv s) (owners : OwnerInv s.server)
    (at_ : s.server.loop = .epollin id fd pc) (owner : s.server.ident id = some conn)
    (open_ : s.server.fds fd = some conn) (step : InStep true s.server.net id fd pc act net loop event)
    (going : ∀ bytes, act = .recv (.data bytes) → s.ended conn = false)
    (admitted : ∀ bytes, act = .recv (.data bytes) → Admitted s.server.net id pc bytes) :
    ReceiveInv { s.observe event with
      server := ({ s.server with net := net, loop := loop } : Server).observe event } := by
  have recvInv := inv.recvInv
  rw [at_] at recvInv
  have next := recvInv.step step admitted
  obtain ⟨others, change⟩ := step.held_change (recvInv.locals _ _ _ rfl)
    (by simpa using recvInv.sized id) next.noFault
  have source : ∀ other, event.source = some other → other = fd := by
    intro other source
    obtain ⟨connid, handler⟩ := (LoopStep.epollin step).source_handler source
    cases handler
    rfl
  have ended := Service.observe_ended (s := s) open_ source
  -- what the streams of the other connections are
  have elsewhere : ∀ other, other ≠ conn → SameOn s { s.observe event with
      server := ({ s.server with net := net, loop := loop } : Server).observe event } other := by
    intro other different
    refine Service.observe_elsewhere fun fd' from_ owner' => different ?_
    rw [source fd' from_, open_] at owner'
    exact (Option.some.inj owner').symm
  have here : (s.ended conn || event.ends) = false → netPkg.Delivered
      (((({ s.server with net := net, loop := loop } : Server).observe event).handedOn conn).map Work.data)
      (held net loop id) ((s.observe event).received conn) := by
    intro still
    rw [Bool.or_eq_false_iff] at still
    have delivered := inv.delivered id conn owner still.1
    rw [at_] at delivered
    cases event with
    | received other curfd bytes =>
      cases source curfd rfl
      obtain ⟨rfl, moved⟩ := change
      rw [moved, show (s.observe (.received other fd bytes)).received conn = s.received conn ++ bytes from
        if_pos open_]
      exact delivered.receive bytes
    | handed curfd work =>
      cases source curfd rfl
      obtain ⟨_, whole, split⟩ := change
      rw [split] at delivered
      rw [Server.handedOn_append (s := s.server) conn (s.server.fds fd) work rfl,
        if_pos open_, List.map_append]
      exact delivered.deliver whole
    | recvError | peerClosed => simp [LoopEvent.ends] at still
    | _ =>
      rcases change with same | ⟨_, leaves⟩
      · rw [same]
        exact delivered
      · rcases step.leaves_event leaves with forget | other | other
        · have finished := inv.closing id fd pc conn at_ owner (by rw [forget]; rfl)
          rw [still.1] at finished
          cases finished
        · cases other
        · cases other
  have stays : ∀ id' fd' pc', (({ s.server with net := net, loop := loop } : Server).observe event).loop =
      .epollin id' fd' pc' → id' = id ∧ fd' = fd ∧ loop = .epollin id fd pc' := by
    intro id' fd' pc' at_'
    rw [Server.observe_loop] at at_'
    rcases step.pc_next with stop | ⟨fault, stop⟩ | ⟨after, same⟩
    · cases at_'.symm.trans stop
    · cases at_'.symm.trans stop
    · cases at_'.symm.trans same
      exact ⟨rfl, rfl, same⟩
  have forms : ∀ conn', ∀ work ∈ (({ s.server with net := net, loop := loop } : Server).observe event).handedOn conn',
      work ∈ s.server.handedOn conn' ∨ conn' = conn ∧ work = requestOf id work.data := by
    intro conn' work member
    cases event with
    | handed curfd new =>
      rw [Server.handedOn_append (s := s.server) conn' (s.server.fds curfd) new rfl,
        List.mem_append, source curfd rfl, open_] at member
      rcases member with old | here
      · exact Or.inl old
      · split at here
        · rename_i same
          rw [List.mem_singleton.mp here]
          exact Or.inr ⟨(Option.some.inj same).symm, change.1⟩
        · simp at here
    | _ => exact Or.inl member
  refine ⟨by simpa using next, fun id' conn' owner' still => ?_, fun conn' => ?_, fun conn' work member => ?_,
    fun id' conn' owner' work member => ?_, fun id' fd' pc' conn' at_' owner' => ?_,
    fun id' fd' pc' conn' at_' owner' => ?_⟩
  · rw [Server.observe_ident] at owner'
    rw [Server.observe_net, Server.observe_loop]
    by_cases same : conn' = conn
    · subst same
      cases owners.distinct id id' conn' owner owner'
      exact here (ended ▸ still)
    · rw [(elsewhere conn' same).handed, (elsewhere conn' same).received, others id' fun this => same ?_, ← at_]
      · exact inv.delivered id' conn' owner' ((elsewhere conn' same).ended ▸ still)
      · rw [this, owner] at owner'
        exact (Option.some.inj owner').symm
  · by_cases same : conn' = conn
    · subst same
      cases event with
      | received other curfd bytes =>
        rw [show (s.observe (.received other curfd bytes)).received conn' = s.received conn' ++ bytes from
          if_pos (source curfd rfl ▸ open_), Framing.frames_append]
        exact (inv.handed conn').trans (List.prefix_append ..)
      | handed curfd work =>
        have reading := inv.reading id fd pc conn' at_ owner step.reading_of_handed
        rw [(here (by rw [reading]; rfl)).1]
        exact List.prefix_append ..
      | _ => exact inv.handed conn'
    · rw [(elsewhere conn' same).handed, (elsewhere conn' same).received]
      exact inv.handed conn'
  · rcases forms conn' work member with old | ⟨_, new⟩
    · exact inv.requests conn' work old
    · rw [new]
      rfl
  · rw [Server.observe_ident] at owner'
    rcases forms conn' work member with old | ⟨rfl, new⟩
    · exact inv.named id' conn' owner' work old
    · rw [new]
      exact owners.distinct id id' conn' owner owner'
  · intro reads
    obtain ⟨rfl, rfl, rfl⟩ := stays id' fd' pc' at_'
    rw [Server.observe_ident] at owner'
    cases owner.symm.trans owner'
    obtain ⟨goes, before⟩ := step.reading_next.1 reads
    refine ended.trans ?_
    rw [goes, Bool.or_false]
    rcases before with reading | ⟨bytes, data⟩
    · exact inv.reading id' fd' pc conn at_ owner reading
    · exact going bytes data
  · intro closes
    obtain ⟨rfl, rfl, rfl⟩ := stays id' fd' pc' at_'
    rw [Server.observe_ident] at owner'
    cases owner.symm.trans owner'
    refine ended.trans ?_
    rcases step.reading_next.2 closes with closing | closed
    · rw [inv.closing id' fd' pc conn at_ owner closing, Bool.true_or]
    · rw [closed]
      exact Bool.or_true _

end Epollin


section Steps

variable {packets : Nat → List (List TByte)}

/-- What a step receives of streams of well-formed packets is admitted, and the stream had not ended. -/
theorem ReceiveInv.admitted (inv : ReceiveInv s) {id : ConnId} {fd : Int} {pc : InPc TByte} {conn : Nat}
    {bytes : List TByte} (at_ : s.server.loop = .epollin id fd pc) (owner : s.server.ident id = some conn)
    (going : s.ended conn = false) (wellFormed : ∀ conn, ∀ packet ∈ packets conn, WellFormed packet)
    (initial : s.received conn ++ bytes <+: (packets conn).flatten) : Admitted s.server.net id pc bytes := by
  have delivered := inv.delivered id conn owner going
  rw [at_, held_self] at delivered
  have taken : StreamAdmitted pc (s.received conn) bytes := streamAdmitted_of_initial (wellFormed conn) initial
  exact (admitted_iff_stream (inv.recvInv.cached_incomplete id) delivered taken.1.of_append).mpr taken

/-- The streams only grow. -/
theorem ServiceStep.received_mono {act : ServerAct} (step : ServiceStep s act s') (conn : Nat) :
    s.received conn <+: s'.received conn := by
  cases step with
  | @loop act net loop event =>
    cases event with
    | received connid fd bytes =>
      by_cases here : s.server.fds fd = some conn
      · simp [Service.observe, here]
      · simp [Service.observe, here]
    | _ => exact List.prefix_rfl
  | _ => exact List.prefix_rfl

theorem orderly.going {act : LoopAct UInt8} {bytes : List TByte} {conn : Nat}
    (allowed : orderly (.loop act) s) (data : act.tagged s.server.handlerOwner = .recv (.data bytes))
    (own : s.server.handlerOwner = some conn) : s.ended conn = false := by
  cases act with
  | recv ret =>
    cases ret with
    | data raw => exact allowed.2 conn own
    | _ => cases data
  | _ => cases data

theorem ReceiveInv.step {act : ServerAct} (inv : ReceiveInv s) (known : ServiceKnown s)
    (wellFormed : ∀ conn, ∀ packet ∈ packets conn, WellFormed packet) (allowed : orderly act s)
    (step : ServiceStep s act s') (initial : ∀ conn, s'.received conn <+: (packets conn).flatten) :
    ReceiveInv s' := by
  cases step with
  | @loop act net loop event _ step =>
    generalize at_ : s.server.loop = before at step
    generalize tagged : act.tagged s.server.handlerOwner = tact at step
    cases step with
    | inMissing | outMissing | outFound =>
      exact inv.quiet rfl rfl rfl rfl rfl (Or.inr ⟨by simp [at_], by simp, by simp⟩)
    | inFound => exact inv.quiet rfl rfl rfl rfl rfl (Or.inr ⟨by simp [at_], by simp, by simp [Server.observe]⟩)
    | @epollin id fd pc _ _ _ _ inner =>
      have handler : s.server.loop.handler = some (id, fd) := by rw [at_]; rfl
      obtain ⟨conn, open_⟩ := Option.isSome_iff_exists.mp (known.table.handling id fd handler).1
      have owner : s.server.ident id = some conn := (known.isolation.owner id fd handler).symm.trans open_
      have own : s.server.handlerOwner = some conn := by rw [Server.handlerOwner, handler]; exact open_
      have going : ∀ bytes, tact = .recv (.data bytes) → s.ended conn = false := fun bytes data =>
        orderly.going allowed (tagged.trans data) own
      refine inv.step_epollin known.owners at_ owner open_ inner going fun bytes data => ?_
      refine inv.admitted at_ owner (going bytes data) wellFormed ?_
      subst data
      cases inner.event_of_data
      have received := initial conn
      rwa [show (s.observe (.received id fd bytes)).received conn = s.received conn ++ bytes from
        if_pos open_] at received
    | @epollout id fd pc _ _ _ _ inner =>
      obtain ⟨_, recvMap, _⟩ := inner.net_next
      obtain ⟨_, _, _, handed⟩ :=
        Server.observe_outgoing (s := { s.server with net := net, loop := loop }) inner.outgoing
      obtain ⟨received, ended⟩ : (s.observe event).received = s.received ∧ (s.observe event).ended = s.ended := by
        have out := inner.outgoing
        cases event with
        | silent | sent | sendError | rearmed => exact ⟨rfl, rfl⟩
        | _ => cases out
      refine inv.quiet (by simpa using recvMap) (by simp) received ended handed (Or.inr ⟨by simp [at_], ?_, ?_⟩)
      · rcases inner.pc_next with rfl | ⟨next, rfl⟩ <;> simp
      · rcases inner.pc_next with rfl | ⟨next, rfl⟩ <;> simp
  | respond | finish => exact inv.quiet rfl rfl rfl rfl rfl (Or.inl rfl)
  | other step notLoop =>
    cases step with
    | insert at_ inserted =>
      refine inv.step_insert known.blank at_ (fun carries => ?_) rfl rfl rfl
        (sameOn_of_other (.insert at_ inserted ‹_› ‹_›) notLoop)
      rcases allowed.1 _ (by rw [at_]; rfl) _ inserted with new | unused
      · have old := known.isolation.known known.table carries
        simp [new] at old
      · exact unused carries
    | dispatch idle _ loop =>
      refine inv.quiet rfl rfl rfl rfl rfl (Or.inr ⟨by simp [idle], ?_, ?_⟩)
      · rcases loop with rfl | rfl <;> simp
      · rcases loop with rfl | rfl <;> simp
    | loop => exact absurd rfl (notLoop _)
    | _ => exact inv.quiet rfl rfl rfl rfl rfl (Or.inl rfl)

theorem receiveInv_reach (reach : Reach Service.step orderly Service.init s)
    (wellFormed : ∀ conn, ∀ packet ∈ packets conn, WellFormed packet)
    (initial : ∀ conn, s.received conn <+: (packets conn).flatten) : ReceiveInv s := by
  induction reach with
  | start => exact receiveInv_init
  | @next old new act previous allowed run ih =>
    have step := Service.step_spec run
    have known := serviceKnown_reach previous fun _ _ allowed => allowed.1
    exact (ih fun conn => (step.received_mono conn).trans (initial conn)).step known wellFormed allowed step initial

/-- The bytes of a connection up to its last whole packet were handed on packet by packet and in order
under its id, and the receive map keeps the others. -/
def HandedOnWhole (s : Service) (id : ConnId) (conn : Nat) : Prop :=
  s.server.handedOn conn = (netPkg.frames (s.received conn)).map (requestOf id) ∧
    s.server.net.recvMap id =
      if (netPkg.rest (s.received conn)).isEmpty then none else some (netPkg.rest (s.received conn))

/-- Between two readable events of a connection that is still open. -/
theorem ReceiveInv.whole (inv : ReceiveInv s) {id : ConnId} {conn : Nat} (owner : s.server.ident id = some conn)
    (going : s.ended conn = false) (outside : ∀ fd pc, s.server.loop ≠ .epollin id fd pc) :
    HandedOnWhole s id conn := by
  have holds : held s.server.net s.server.loop id = cached s.server.net id := by
    cases at_ : s.server.loop with
    | epollin connid fd pc => exact held_other fun same => outside fd pc (same ▸ at_)
    | _ => rfl
  have delivered := inv.delivered id conn owner going
  rw [holds] at delivered
  obtain ⟨frames, rest⟩ := delivered.settled (inv.recvInv.cached_incomplete id)
  refine ⟨?_, ?_⟩
  · rw [frames, List.map_map]
    refine (List.map_id _).symm.trans (List.map_congr_left fun work member => ?_)
    have form := inv.requests conn work member
    rwa [inv.named id conn owner work member] at form
  · rw [rest]
    cases entry : s.server.net.recvMap id with
    | none => simp [cached, entry]
    | some data => simp [cached, entry, (inv.recvInv.kept id data entry).1]

/-- The assertion of `work_proc` holds for every request that a worker has. -/
theorem ReceiveInv.asserted (inv : ReceiveInv s) (isolation : IsolationInv s.server)
    (wellFormed : ∀ conn, ∀ packet ∈ packets conn, WellFormed packet)
    (initial : ∀ conn, s.received conn <+: (packets conn).flatten) {i : Nat} {work : Work TByte}
    (at_ : s.server.worker i = .proc work) : workAssert work = true := by
  obtain ⟨conn, _, request⟩ := isolation.working i work at_
  have member : work ∈ s.server.handedOn conn :=
    List.mem_map_of_mem (f := Prod.snd) (List.mem_filter.mpr ⟨request, decide_eq_true rfl⟩)
  have frame := (inv.handed conn).subset (List.mem_map_of_mem member)
  obtain ⟨count, taken, _⟩ :=
    Framing.frames_of_prefix (fun packet here => (wellFormed conn packet here).1) (initial conn)
  rw [taken] at frame
  obtain ⟨whole, limit⟩ := wellFormed conn work.data (List.mem_of_mem_take frame)
  obtain ⟨_, size⟩ := whole
  have bound : work.data.length ≤ intMax := by
    obtain ⟨space, _, _, _, _, max⟩ := limits
    rw [netPkg_total] at size
    unfold netPkgSize at size
    omega
  rw [inv.requests conn work member]
  exact decide_eq_true (sizeAsserted_frame (wellFormed conn work.data (List.mem_of_mem_take frame)).1 bound)

/-- Clients come and go, all threads take turns, and the streams of well-formed packets are cut
anywhere: the loop thread never leaves its buffers, no worker fails its assertion, the requests of a
connection are the packets that were received on it, and between two events nothing is missing. -/
theorem requests_exact (reach : Reach Service.step orderly Service.init s)
    (wellFormed : ∀ conn, ∀ packet ∈ packets conn, WellFormed packet)
    (initial : ∀ conn, s.received conn <+: (packets conn).flatten) :
    (∀ fault, s.server.loop ≠ .fault fault) ∧
      (∀ i work, s.server.worker i = .proc work → workAssert work = true) ∧
      (∀ conn, (s.server.handedOn conn).map Work.data <+: netPkg.frames (s.received conn)) ∧
      ∀ id conn, s.server.ident id = some conn → s.ended conn = false →
        (∀ fd pc, s.server.loop ≠ .epollin id fd pc) → HandedOnWhole s id conn := by
  have known := serviceKnown_reach reach fun _ _ allowed => allowed.1
  have inv := receiveInv_reach reach wellFormed initial
  exact ⟨inv.recvInv.noFault, fun _ _ => inv.asserted known.isolation wellFormed initial, inv.handed,
    fun _ _ => inv.whole⟩

end Steps

section Clients

variable {packets : Nat → List (List TByte)}

/-- What the clients send, packet by packet, as bytes of their connections. -/
def sentBy (clients : List (List (List UInt8))) (conn : Nat) : List (List TByte) :=
  (clients.getD conn []).map (·.map (⟨·, some conn⟩))

theorem sentBy_wellFormed {clients : List (List (List UInt8))}
    (each : ∀ conn < clients.length, ∀ packet ∈ sentBy clients conn, WellFormed packet) :
    ∀ conn, ∀ packet ∈ sentBy clients conn, WellFormed packet := by
  intro conn packet member
  by_cases inside : conn < clients.length
  · exact each conn inside packet member
  · simp [sentBy, List.getElem?_eq_none (Nat.not_lt.mp inside)] at member

/-- Only the streams of accepted connections have begun. -/
theorem ServiceKnown.initial (known : ServiceKnown s)
    (begun : ∀ conn < s.server.accepted, s.received conn <+: (packets conn).flatten) :
    ∀ conn, s.received conn <+: (packets conn).flatten := by
  intro conn
  by_cases inside : conn < s.server.accepted
  · exact begun conn inside
  · rw [(known.blank.later conn (Nat.not_lt.mp inside)).received]
    exact List.nil_prefix

end Clients

/-- A client is answered and gone; the next one sends a packet and closes its connection while the request
is with a worker; the last one is given the id of the first one, sends a packet and a half and stays. -/
def twoClientsRun : List ServerAct :=
  visit ++ connects 6 8 ++ connects 5 7 ++
    [.wait [(5, true, false)], .dispatch, .loop .tau,
      .loop (.recv (.data [0, 0, 1, 0, 0, 0, 1, 0, 0, 0, 65, 0, 0, 2, 0, 0, 0, 1, 0, 0, 0])),
      .loop .tau, .loop .tau, .loop .tau, .loop .tau, .loop .tau, .loop (.recv (.fail .eagain)), .loop .tau] ++
    requests 6 emptyPacket ++ [.take 0, .take 1] ++ disconnects 6

def twoClientsPackets : Nat → List (List TByte) :=
  sentBy [[emptyPacket], [emptyPacket],
    [[0, 0, 1, 0, 0, 0, 1, 0, 0, 0, 65], [0, 0, 2, 0, 0, 0, 1, 0, 0, 0, 66]]]

theorem requests_exact_two_clients : ∃ s,
    exec (guarded Service.step (orderlyReusing 2)) twoClientsRun Service.init = some s ∧
      (s.server.handedOn 1).length = 1 ∧ s.server.net.conntable 8 = none ∧ s.server.ident 7 = some 2 ∧
      HandedOnWhole s 7 2 := by
  have ends : ∃ s, exec (guarded Service.step (orderlyReusing 2)) twoClientsRun Service.init = some s ∧
      (s.server.handedOn 1).length = 1 ∧ s.server.net.conntable 8 = none ∧
      s.server.loop.handler = none ∧ s.server.ident 7 = some 2 ∧ s.ended 2 = false ∧
      ∀ conn < s.server.accepted, s.received conn <+: (twoClientsPackets conn).flatten :=
    exec_ends (by decide +kernel)
  obtain ⟨s, run, handed, gone, idle, owner, going, begun⟩ := ends
  have reach := orderly_reach (reach_of_exec_guarded run)
  have known := serviceKnown_reach reach fun _ _ allowed => allowed.1
  have exact_ := requests_exact reach (sentBy_wellFormed (by decide +kernel)) (known.initial begun)
  exact ⟨s, run, handed, gone, owner, exact_.2.2.2 7 2 owner going fun fd pc at_ => by simp [at_, LoopPc.handler] at idle⟩

end SvrNet

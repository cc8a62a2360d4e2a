import SvrNet.ServiceResponses

namespace SvrNet
open CData StepSystem

section Bytes

variable {β : Type} {queue : SendQueue β} {id other : ConnId}

/-- How many bytes wait in the queue under an id. -/
def queuedBytes (queue : SendQueue β) (id : ConnId) : Nat :=
  ((queue.filter (·.1 = id)).map (·.2.length)).sum

theorem queuedBytes_cons (entry : ConnId × List β) (later : SendQueue β) (id : ConnId) :
    queuedBytes (entry :: later) id = (if entry.1 = id then entry.2.length else 0) + queuedBytes later id := by
  unfold queuedBytes
  by_cases same : entry.1 = id
  · simp [same]
  · simp [same]

theorem queuedBytes_append (front back : SendQueue β) (id : ConnId) :
    queuedBytes (front ++ back) id = queuedBytes front id + queuedBytes back id := by
  simp [queuedBytes]

theorem queuedBytes_push (queue : SendQueue β) (id other : ConnId) (data : List β) :
    queuedBytes (qSendPush queue id data) other = queuedBytes queue other + if other = id then data.length else 0 := by
  have alone : queuedBytes [(id, data)] other = if other = id then data.length else 0 := by
    rw [queuedBytes_cons, if_congr eq_comm rfl rfl]
    rfl
  cases queue with
  | nil => rw [qSendPush, alone, queuedBytes, List.filter_nil, List.map_nil, List.sum_nil, Nat.zero_add]
  | cons entry later =>
    obtain ⟨frontId, front⟩ := entry
    rw [qSendPush]
    split
    · rename_i merged
      obtain ⟨rfl, _⟩ := merged
      rw [queuedBytes_cons, queuedBytes_cons]
      by_cases same : frontId = other
      · simp only [same, if_true, List.length_append]
        omega
      · simp [same, Ne.symm same]
    · rw [queuedBytes_append, alone]

theorem queuedBytes_eraseP {entry : ConnId × List β} (found : queue.find? (·.1 = id) = some entry) :
    queuedBytes queue other =
      (if other = id then entry.2.length else 0) + queuedBytes (queue.eraseP (·.1 = id)) other := by
  induction queue with
  | nil => simp at found
  | cons first later ih =>
    by_cases same : first.1 = id
    · rw [List.find?_cons_of_pos (by simpa using same)] at found
      cases found
      rw [List.eraseP_cons_of_pos (by simpa using same), queuedBytes_cons, same, if_congr eq_comm rfl rfl]
    · rw [List.find?_cons_of_neg (by simpa using same)] at found
      rw [List.eraseP_cons_of_neg (by simpa using same), queuedBytes_cons, queuedBytes_cons, ih found]
      omega

/-- What is popped is no longer in the queue. -/
theorem queuedBytes_popFirst (queue : SendQueue β) (id other : ConnId) (len : Nat) : queuedBytes queue other =
    (if other = id then (qSendPopFirst queue id len).data.length else 0) +
      queuedBytes (qSendPopFirst queue id len).queue other := by
  unfold qSendPopFirst
  cases found : queue.find? (·.1 = id) with
  | none => simp
  | some entry =>
    by_cases short : len < entry.2.length
    · simp [short]
    · simp only [if_neg short]
      exact queuedBytes_eraseP found

theorem queuedBytes_removeAll (different : other ≠ id) :
    queuedBytes (qSendRemoveAllByConnid queue id) other = queuedBytes queue other := by
  unfold queuedBytes qSendRemoveAllByConnid
  rw [List.filter_filter]
  congr 2
  refine List.filter_congr fun entry _ => ?_
  by_cases same : entry.1 = other
  · simp [same, different]
  · simp [same]

/-- The bytes that wait under an id are those of its packets. -/
theorem queuedBytes_joined (parts : SendQueue (List β)) (id : ConnId) :
    queuedBytes (joined parts) id = (packetsOf parts id).flatten.length := by
  induction parts with
  | nil => rfl
  | cons entry later ih =>
    have split : joined (entry :: later) = (entry.1, entry.2.flatten) :: joined later := rfl
    rw [split, queuedBytes_cons, packetsOf_cons, List.flatten_append, List.length_append, ih]
    by_cases same : entry.1 = id
    · rw [if_pos same, if_pos same]
    · rw [if_neg same, if_neg same]
      rfl

theorem queuedBytes_plain (queue : SendQueue RByte) (id : ConnId) :
    queuedBytes (plainQueue queue) id = queuedBytes queue id := by
  induction queue with
  | nil => rfl
  | cons entry later ih =>
    have split : plainQueue (entry :: later) = (entry.1, entry.2.map RByte.val) :: plainQueue later := rfl
    rw [split, queuedBytes_cons, queuedBytes_cons, ih, List.length_map]

end Bytes

/-- The server never stopped serving the connection, and `send` never failed for good on it. -/
structure Intact (s : Service) (conn : Nat) : Prop where
  serving : conn ∉ s.server.stopped
  sound : s.failed conn = false

/-- The connection whose responses and whose entry in the table the loop thread is about to remove. -/
def LoopPc.leaving {α β : Type} : LoopPc α β → Option ConnId
  | .epollin connid _ .purge | .epollin connid _ .drop => some connid
  | _ => none

theorem LoopPc.handler_of_leaving {α β : Type} {pc : LoopPc α β} {id : ConnId} (leaves : pc.leaving = some id) :
    ∃ fd, pc.handler = some (id, fd) := by
  unfold LoopPc.leaving at leaves
  split at leaves
  · cases leaves
    exact ⟨_, rfl⟩
  · cases leaves
    exact ⟨_, rfl⟩
  · cases leaves

theorem SendPc.lookedUp_of_dropping {pc : SendPc} {id : ConnId} (drops : pc.dropping = some id) : pc.lookedUp = some id := by
  cases pc with
  | purge | remove => exact drops
  | _ => cases drops

/-- Some thread is about to remove what waits under the id from the queue, or the id from the table. -/
inductive Server.GivesUp (s : Server) (id : ConnId) : Prop
  | loop : s.loop.leaving = some id → GivesUp s id
  | send : s.send.dropping = some id → GivesUp s id
  | listen : s.listen.removing = some id → GivesUp s id

section GivesUp

variable {s s' : Server} {id : ConnId}

theorem Server.GivesUp.of_loop (gives : s'.GivesUp id) (send : s'.send = s.send) (listen : s'.listen = s.listen) :
    s.GivesUp id ∨ s'.loop.leaving = some id := by
  rcases gives with leaves | drops | removes
  · exact Or.inr leaves
  · exact Or.inl (.send (send ▸ drops))
  · exact Or.inl (.listen (listen ▸ removes))

theorem Server.GivesUp.of_send (gives : s'.GivesUp id) (loop : s'.loop = s.loop) (listen : s'.listen = s.listen) :
    s.GivesUp id ∨ s'.send.dropping = some id := by
  rcases gives with leaves | drops | removes
  · exact Or.inl (.loop (loop ▸ leaves))
  · exact Or.inr drops
  · exact Or.inl (.listen (listen ▸ removes))

theorem Server.GivesUp.of_listen (gives : s'.GivesUp id) (loop : s'.loop = s.loop) (send : s'.send = s.send) :
    s.GivesUp id ∨ s'.listen.removing = some id := by
  rcases gives with leaves | drops | removes
  · exact Or.inl (.loop (loop ▸ leaves))
  · exact Or.inl (.send (send ▸ drops))
  · exact Or.inr removes

theorem Server.GivesUp.congr (gives : s'.GivesUp id) (loop : s'.loop = s.loop) (send : s'.send = s.send)
    (listen : s'.listen = s.listen) : s.GivesUp id :=
  (gives.of_loop send listen).elim (fun old => old) fun leaves => .loop (loop ▸ leaves)

end GivesUp

/-- Connections leave the table, and their responses are given up, only when the server has stopped serving
them, and what has ended is one of these. A stream breaks when `send` fails. -/
structure StopInv (s : Service) : Prop where
  givesUp : ∀ id, s.server.GivesUp id → ∃ conn ∈ s.server.stopped, s.server.ident id = some conn
  listed : ∀ id conn, s.server.ident id = some conn → conn ∈ s.server.stopped ∨ (s.server.net.conntable id).isSome
  adding : ∀ fd id, s.server.listen = .add fd id → ∃ conn, s.server.ident id = some conn ∧
    (conn ∈ s.server.stopped ∨ s.server.net.conntable id = some fd)
  looked : ∀ id fd, s.server.send = .modify id fd → (s.server.ident id).isSome
  ended : ∀ conn, s.ended conn = true → conn ∈ s.server.stopped
  broken : ∀ conn, s.torn conn = true ∨ s.garbled conn = true → s.failed conn = true

section Stopping

variable {s s' : Service} {act : ServerAct}

theorem stopInv_init : StopInv Service.init := by
  refine ⟨fun id gives => ?_, ?_, ?_, ?_, ?_, ?_⟩
  · rcases gives with leaves | leaves | leaves <;> cases leaves
  all_goals simp [Service.init, Server.init]

/-- Steps that give no id to a connection. -/
theorem StopInv.quiet (inv : StopInv s) (ident : s'.server.ident = s.server.ident)
    (stopped : s.server.stopped ⊆ s'.server.stopped)
    (table : ∀ id fd, s.server.net.conntable id = some fd → s'.server.net.conntable id = some fd ∨ s.server.GivesUp id)
    (givesUp : ∀ id, s'.server.GivesUp id → s.server.GivesUp id ∨
      ∃ conn ∈ s'.server.stopped, s.server.ident id = some conn)
    (adding : ∀ fd id, s'.server.listen = .add fd id → s.server.listen = .add fd id)
    (looked : ∀ id fd, s'.server.send = .modify id fd → (s.server.ident id).isSome)
    (ended : ∀ conn, s'.ended conn = true → s.ended conn = true ∨ conn ∈ s'.server.stopped)
    (broken : ∀ conn, s'.torn conn = true ∨ s'.garbled conn = true → s'.failed conn = true) : StopInv s' := by
  have stops : ∀ id conn, s.server.ident id = some conn → s.server.GivesUp id → conn ∈ s'.server.stopped := by
    intro id conn owner gives
    obtain ⟨other, member, same⟩ := inv.givesUp id gives
    cases owner.symm.trans same
    exact stopped member
  refine ⟨fun id gives => ?_, fun id conn owner => ?_, fun fd id at_ => ?_, by rwa [ident],
    fun conn finished => (ended conn finished).elim (fun old => stopped (inv.ended conn old)) id, broken⟩
  · rw [ident]
    rcases givesUp id gives with old | here
    · obtain ⟨conn, member, owner⟩ := inv.givesUp id old
      exact ⟨conn, stopped member, owner⟩
    · exact here
  · rw [ident] at owner
    rcases inv.listed id conn owner with old | listed
    · exact Or.inl (stopped old)
    · obtain ⟨fd, entry⟩ := Option.isSome_iff_exists.mp listed
      rcases table id fd entry with kept | gives
      · exact Or.inr (by rw [kept]; rfl)
      · exact Or.inl (stops id conn owner gives)
  · rw [ident]
    obtain ⟨conn, owner, place⟩ := inv.adding fd id (adding fd id at_)
    refine ⟨conn, owner, ?_⟩
    rcases place with old | entry
    · exact Or.inl (stopped old)
    · exact (table id fd entry).symm.imp_left (stops id conn owner)

theorem Server.observe_stopped (s : Server) (event : LoopEvent TByte RByte) :
    s.stopped ⊆ (s.observe event).stopped := by
  cases event with
  | recvError | peerClosed => exact List.subset_append_left ..
  | _ => exact List.Subset.refl _

theorem Service.observe_broken (s : Service) (event : LoopEvent TByte RByte) (conn : Nat)
    (failed : s.torn conn = true ∨ s.garbled conn = true → s.failed conn = true)
    (broken : (s.observe event).torn conn = true ∨ (s.observe event).garbled conn = true) :
    (s.observe event).failed conn = true := by
  cases event with
  | sent connid fd bytes =>
    simp only [Service.observe, Bool.or_eq_true, Bool.and_eq_true] at broken
    rcases broken with torn | garbled | ⟨torn, _⟩
    · exact failed (Or.inl torn)
    · exact failed (Or.inr garbled)
    · exact failed (Or.inl torn)
  | sendError connid fd =>
    simp only [Service.observe, Bool.or_eq_true, Bool.and_eq_true] at broken ⊢
    rcases broken with (torn | ⟨here, _⟩) | garbled
    · exact Or.inl (failed (Or.inl torn))
    · exact Or.inr here
    · exact Or.inl (failed (Or.inr garbled))
  | _ => exact failed broken

/-- The receiving side ends for connections that the server stops serving. -/
theorem Service.observe_stops (s : Service) (event : LoopEvent TByte RByte) (conn : Nat)
    (finished : (s.observe event).ended conn = true) :
    s.ended conn = true ∨ conn ∈ (s.server.observe event).stopped := by
  cases event with
  | recvError connid fd | peerClosed connid fd =>
    simp only [Service.observe, Bool.or_eq_true, decide_eq_true_eq] at finished
    exact finished.imp_right fun owner => List.mem_append_right _ (by simp [owner])
  | _ => exact Or.inl finished

theorem StopInv.step_loop (inv : StopInv s) (known : ServiceKnown s) {tact : LoopAct TByte}
    {net : NetSvr TByte RByte} {loop : LoopPc TByte RByte} {event : LoopEvent TByte RByte}
    (step : LoopStep true s.server.net s.server.loop tact net loop event) :
    StopInv { s.observe event with
      server := ({ s.server with net := net, loop := loop } : Server).observe event } := by
  have stops : ∀ conn, (s.observe event).ended conn = true → s.ended conn = true ∨
      conn ∈ (({ s.server with net := net, loop := loop } : Server).observe event).stopped := by
    have before := s.observe_stops event
    cases event <;> exact before
  have table : ∀ id fd, s.server.net.conntable id = some fd → net.conntable id = some fd ∨ s.server.GivesUp id := by
    intro id fd entry
    rcases step.conntable_next with same | ⟨connid, curfd, at_, _, removed⟩
    · exact Or.inl (same ▸ entry)
    · rw [removed]
      exact (connRemove_keeps entry connid).imp_right fun here => .loop (by rw [at_, ← here]; rfl)
  have going : (∀ id, loop.leaving = some id → s.server.GivesUp id ∨
      ∃ conn ∈ (({ s.server with net := net, loop := loop } : Server).observe event).stopped,
        s.server.ident id = some conn) →
      StopInv { s.observe event with
        server := ({ s.server with net := net, loop := loop } : Server).observe event } := by
    refine fun leaving => inv.quiet (by simp) (Server.observe_stopped { s.server with net := net, loop := loop } event)
      (by simpa using table) (fun id gives => ?_) (by simp) (by simpa using inv.looked) stops
      fun conn => s.observe_broken event conn (inv.broken conn)
    rcases gives.of_loop (s := s.server) (by simp) (by simp) with old | leaves
    · exact Or.inl old
    · rw [Server.observe_loop] at leaves
      exact leaving id leaves
  generalize at_ : s.server.loop = before at step
  cases step with
  | inMissing | outMissing | inFound | outFound => exact going nofun
  | epollout inner => exact going (by rcases inner.pc_next with rfl | ⟨next, rfl⟩ <;> nofun)
  | @epollin id fd pc _ _ _ _ inner =>
    cases inner with
    | firstClosed | recvClosed =>
      have handler : s.server.loop.handler = some (id, fd) := by rw [at_]; rfl
      obtain ⟨conn, open_⟩ := Option.isSome_iff_exists.mp (known.table.handling id fd handler).1
      have owner := (known.isolation.owner id fd handler).symm.trans open_
      refine going ?_
      rintro _ ⟨⟩
      exact Or.inr ⟨conn, List.mem_append_right _ (by simp [open_]), owner⟩
    | purge =>
      refine going ?_
      rintro _ ⟨⟩
      exact Or.inl (.loop (by rw [at_]; rfl))
    | findLong _ _ next => exact going (by rcases next with rfl | rfl <;> nofun)
    | _ => exact going nofun

/-- The id that a new connection is given was never used, or nothing gives it up any more. -/
theorem StopInv.step_insert (inv : StopInv s) (known : ServiceKnown s) {fd : Int} {id : ConnId}
    (at_ : s.server.listen = .insert fd)
    (quiet : s.server.ident id = none ∨ ¬ Carries s.server id ∧ s.server.send.lookedUp ≠ some id) :
    StopInv { s with
      server := { s.server with
        net := { s.server.net with conntable := Function.update s.server.net.conntable id (some fd) }
        listen := .add fd id
        ident := Function.update s.server.ident id (s.server.fds fd) } } := by
  obtain ⟨conn, open_⟩ := Option.isSome_iff_exists.mp (known.table.inserting fd at_).2.1
  have apart : ∀ other, s.server.GivesUp other → other ≠ id := by
    rintro other gives rfl
    rcases quiet with new | ⟨free, notLooked⟩
    · obtain ⟨_, _, owner⟩ := inv.givesUp other gives
      simp [new] at owner
    · rcases gives with leaves | drops | removes
      · obtain ⟨curfd, handler⟩ := LoopPc.handler_of_leaving leaves
        exact free (.handler handler)
      · exact notLooked (SendPc.lookedUp_of_dropping drops)
      · simp [at_, ListenPc.removing] at removes
  refine ⟨fun other gives => ?_, fun other conn' owner => ?_, ?_, fun other curfd sends => ?_, inv.ended, inv.broken⟩
  · have before : s.server.GivesUp other := (gives.of_listen (s := s.server) rfl rfl).resolve_right nofun
    obtain ⟨owner, member, same⟩ := inv.givesUp other before
    exact ⟨owner, member, (Function.update_of_ne (apart other before) ..).trans same⟩
  · by_cases here : other = id
    · exact Or.inr (by simp [here])
    · dsimp only at owner ⊢
      rw [Function.update_of_ne here] at owner ⊢
      exact inv.listed other conn' owner
  · rintro _ _ ⟨⟩
    exact ⟨conn, (Function.update_self ..).trans open_, Or.inr (Function.update_self ..)⟩
  · by_cases here : other = id
    · simp [here, open_]
    · exact (congrArg Option.isSome (Function.update_of_ne here ..)).trans (inv.looked other curfd sends)

theorem StopInv.step (inv : StopInv s) (known : ServiceKnown s) (quiet : quietId act s.server)
    (step : ServiceStep s act s') : StopInv s' := by
  have ends : ∀ conn, s.ended conn = true → s.ended conn = true ∨ conn ∈ s.server.stopped := fun _ => Or.inl
  have table : ∀ id fd, s.server.net.conntable id = some fd → s.server.net.conntable id = some fd ∨ s.server.GivesUp id :=
    fun _ _ => Or.inl
  cases step with
  | loop _ step => exact inv.step_loop known step
  | respond | finish =>
    exact inv.quiet rfl (List.Subset.refl _) table (fun _ gives => Or.inl (gives.congr rfl rfl rfl)) (fun _ _ => id)
      inv.looked ends inv.broken
  | other step notLoop notRespond =>
    cases step with
    | loop => exact absurd rfl (notLoop _)
    | respond | finish => exact absurd rfl (notRespond _ _)
    | @insert fd draws id at_ inserted => exact inv.step_insert known at_ (quiet fd (by rw [at_]; rfl) _ inserted)
    | @addFail fd id at_ =>
      refine inv.quiet rfl (List.subset_append_left ..) table (fun other gives => ?_) nofun inv.looked
        (fun _ => Or.inl) inv.broken
      rcases gives.of_listen (s := s.server) rfl rfl with old | removes
      · exact Or.inl old
      · cases removes
        obtain ⟨conn, owner, place⟩ := inv.adding fd id at_
        refine Or.inr ⟨conn, ?_, owner⟩
        rcases place with old | entry
        · exact List.mem_append_left _ old
        · have open_ := (known.table.entry id fd entry).2.2.trans owner
          exact List.mem_append_right _ (by simp [open_])
    | @listenRemove fd id at_ =>
      refine inv.quiet rfl (List.Subset.refl _) (fun other curfd entry => ?_)
        (fun _ gives => Or.inl ((gives.of_listen (s := s.server) rfl rfl).resolve_right nofun)) nofun inv.looked ends
        inv.broken
      exact (connRemove_keeps entry id).imp_right fun here => .listen (by rw [at_, ← here]; rfl)
    | accept | add =>
      exact inv.quiet rfl (List.Subset.refl _) table
        (fun _ gives => Or.inl ((gives.of_listen (s := s.server) rfl rfl).resolve_right nofun)) nofun inv.looked ends
        inv.broken
    | lookupFound at_ found =>
      refine inv.quiet rfl (List.Subset.refl _) table
        (fun _ gives => Or.inl ((gives.of_send (s := s.server) rfl rfl).resolve_right nofun)) (fun _ _ => id) ?_ ends
        inv.broken
      rintro _ _ ⟨⟩
      obtain ⟨_, open_, owner⟩ := known.table.entry _ _ found
      exact owner ▸ open_
    | modifyFail at_ =>
      obtain ⟨conn, owner⟩ := Option.isSome_iff_exists.mp (inv.looked _ _ at_)
      refine inv.quiet rfl (List.subset_append_left ..) table (fun other gives => ?_) (fun _ _ => id) nofun
        (fun _ => Or.inl) inv.broken
      refine (gives.of_send (s := s.server) rfl rfl).imp_right ?_
      rintro ⟨⟩
      exact ⟨conn, List.mem_append_right _ (by simp [owner]), owner⟩
    | sendPurge at_ =>
      refine inv.quiet rfl (List.Subset.refl _) table (fun other gives => ?_) (fun _ _ => id) nofun ends inv.broken
      refine Or.inl ((gives.of_send (s := s.server) rfl rfl).elim (fun old => old) ?_)
      rintro ⟨⟩
      exact .send (by rw [at_]; rfl)
    | @sendRemove _ id at_ =>
      refine inv.quiet rfl (List.Subset.refl _) (fun other curfd entry => ?_)
        (fun _ gives => Or.inl ((gives.of_send (s := s.server) rfl rfl).resolve_right nofun))
        (fun _ _ here => here) nofun ends inv.broken
      exact (connRemove_keeps entry id).imp_right fun here => .send (by rw [at_, ← here]; rfl)
    | frontEmpty | front | sendWait | sendWoken | lookupMissing | modify | wake =>
      exact inv.quiet rfl (List.Subset.refl _) table
        (fun _ gives => Or.inl ((gives.of_send (s := s.server) rfl rfl).resolve_right nofun)) (fun _ _ => id) nofun ends
        inv.broken
    | signal =>
      refine inv.quiet rfl (List.Subset.refl _) table (fun other gives => ?_) (fun _ _ => id) (fun other fd sends => ?_)
        ends inv.broken
      · refine Or.inl ((gives.of_send (s := s.server) rfl rfl).elim (fun old => old) fun drops => ?_)
        dsimp only at drops
        split at drops
        · cases drops
        · exact .send drops
      · dsimp only at sends
        split at sends
        · cases sends
        · exact inv.looked other fd sends
    | dispatch idle _ loop =>
      refine inv.quiet rfl (List.Subset.refl _) table (fun other gives => ?_) (fun _ _ => id) inv.looked ends inv.broken
      refine Or.inl ((gives.of_loop (s := s.server) rfl rfl).resolve_right ?_)
      rcases loop with rfl | rfl <;> nofun
    | wait | take =>
      exact inv.quiet rfl (List.Subset.refl _) table (fun _ gives => Or.inl (gives.congr rfl rfl rfl)) (fun _ _ => id)
        inv.looked ends inv.broken

end Stopping

section Balance

variable {s s' : Service} {act : ServerAct} {id : ConnId} {conn : Nat}

/-- Every byte of the packets that were pushed for a connection was sent, is being sent, or waits in
the queue under its id. -/
def Balanced (s : Service) (id : ConnId) (conn : Nat) : Prop :=
  ((s.packets conn).map List.length).sum =
    (s.server.sentOn conn).length + (s.server.unsent id).length + queuedBytes s.server.net.sendQueue id

def BalanceInv (s : Service) : Prop :=
  ∀ id conn, s.server.ident id = some conn → Intact s conn → Balanced s id conn

theorem balanceInv_init : BalanceInv Service.init := by
  simp [BalanceInv, Service.init, Server.init]

theorem Service.observe_intact {net : NetSvr TByte RByte} {loop : LoopPc TByte RByte} {event : LoopEvent TByte RByte}
    (intact : Intact { s.observe event with
      server := ({ s.server with net := net, loop := loop } : Server).observe event } conn) : Intact s conn where
  serving := fun member => intact.serving (Server.observe_stopped { s.server with net := net, loop := loop } event member)
  sound := by
    have sound := intact.sound
    cases event with
    | sendError connid fd =>
      simp only [Service.observe, Bool.or_eq_false_iff] at sound
      exact sound.1
    | _ => exact sound

/-- Once a connection is not intact it stays so. -/
theorem ServiceStep.intact (step : ServiceStep s act s') (intact : Intact s' conn) : Intact s conn := by
  cases step with
  | loop => exact Service.observe_intact intact
  | respond | finish => exact ⟨intact.serving, intact.sound⟩
  | other step notLoop =>
    cases step with
    | loop => exact absurd rfl (notLoop _)
    | addFail | modifyFail =>
      exact ⟨fun member => intact.serving (List.mem_append_left _ member), intact.sound⟩
    | _ => exact ⟨intact.serving, intact.sound⟩

/-- Steps that leave the queue and the streams as they are. -/
theorem BalanceInv.quiet (inv : BalanceInv s) (step : ServiceStep s act s') (ident : s'.server.ident = s.server.ident)
    (queue : s'.server.net.sendQueue = s.server.net.sendQueue) (settled : s'.settled = s.settled)
    (sent : s'.server.sent = s.server.sent) (left : s'.server.unsent = s.server.unsent) : BalanceInv s' := by
  intro id conn owner intact
  have before := inv id conn (ident ▸ owner) (step.intact intact)
  rwa [Balanced, Service.packets, Service.pushed, settled, Server.sentOn, sent, left, queue]

/-- Steps that concern what goes by one id only. -/
theorem BalanceInv.of_conn (inv : BalanceInv s) (step : ServiceStep s act s') (owners : OwnerInv s.server) (id : ConnId)
    (ident : s'.server.ident = s.server.ident)
    (same : ∀ conn, s.server.ident id ≠ some conn → SameOn s s' conn)
    (left : ∀ other, other ≠ id → s'.server.unsent other = s.server.unsent other)
    (queue : ∀ other, other ≠ id →
      queuedBytes s'.server.net.sendQueue other = queuedBytes s.server.net.sendQueue other)
    (own : ∀ conn, s.server.ident id = some conn → Intact s' conn → Balanced s id conn → Balanced s' id conn) :
    BalanceInv s' := by
  intro other conn owner intact
  rw [ident] at owner
  have before := inv other conn owner (step.intact intact)
  by_cases here : other = id
  · subst here
    exact own conn owner intact before
  · have apart : s.server.ident id ≠ some conn := fun both => here (owners.distinct other id conn owner both)
    rwa [Balanced, (same conn apart).packets, (same conn apart).sent, left other here, queue other here]

/-- A popped entry comes with its size. -/
theorem qSendPopFirst_len {β : Type} {queue : SendQueue β} {len : Nat} (popped : (qSendPopFirst queue id len).ret ≠ -1) :
    (qSendPopFirst queue id len).len = (qSendPopFirst queue id len).data.length := by
  unfold qSendPopFirst at popped ⊢
  cases found : queue.find? (·.1 = id) with
  | none => simp [found] at popped
  | some entry =>
    simp only [found] at popped ⊢
    split at popped
    · simp at popped
    · rename_i fits
      rw [if_neg fits]

theorem BalanceInv.step_epollout (inv : BalanceInv s) (known : ServiceKnown s) {fd : Int} {pc : OutPc RByte}
    {lact : LoopAct UInt8} {tact : LoopAct TByte} {net : NetSvr TByte RByte} {loop : LoopPc TByte RByte}
    {event : LoopEvent TByte RByte} (at_ : s.server.loop = .epollout id fd pc)
    (inner : OutStep s.server.net id fd pc tact net loop event)
    (step : ServiceStep s (.loop lact) { s.observe event with
      server := ({ s.server with net := net, loop := loop } : Server).observe event }) :
    BalanceInv { s.observe event with
      server := ({ s.server with net := net, loop := loop } : Server).observe event } := by
  have handler : s.server.loop.handler = some (id, fd) := by rw [at_]; rfl
  have open_ := known.isolation.owner id fd handler
  have whole_ : LoopStep true s.server.net s.server.loop tact net loop event := by
    rw [at_]
    exact .epollout inner
  have elsewhere := whole_.same_elsewhere known.isolation handler
  have others : ∀ other, other ≠ id → (({ s.server with net := net, loop := loop } : Server).observe event).unsent other =
      s.server.unsent other := by
    intro other different
    rw [Server.unsent_observe, Server.unsent_other different at_]
    rcases inner.pc_next with rfl | ⟨next, rfl⟩
    · rfl
    · exact Server.unsent_other different rfl
  cases inner with
  | popNothing =>
    have nothing : s.server.unsent = fun _ => [] := Server.unsent_none (by simp [at_])
    exact inv.quiet step rfl rfl rfl rfl ((Server.unsent_none (by simp [Server.observe])).trans nothing.symm)
  | popEntry popped =>
    have nothing : s.server.unsent = fun _ => [] := Server.unsent_none (by simp [at_])
    refine inv.of_conn step known.owners id rfl elsewhere others (fun other different => ?_)
      fun conn owner _ balanced => ?_
    · have moved := queuedBytes_popFirst s.server.net.sendQueue id other netSendBuffSize
      rw [if_neg different, Nat.zero_add] at moved
      exact moved.symm
    · have moved := queuedBytes_popFirst s.server.net.sendQueue id id netSendBuffSize
      rw [if_pos rfl] at moved
      have sending : (({ s.server with
          net := { s.server.net with sendQueue := (qSendPopFirst s.server.net.sendQueue id netSendBuffSize).queue }
          loop := .epollout id fd (.send (qSendPopFirst s.server.net.sendQueue id netSendBuffSize).data 0
            (qSendPopFirst s.server.net.sendQueue id netSendBuffSize).len) } : Server)).unsent id =
          (qSendPopFirst s.server.net.sendQueue id netSendBuffSize).data.map RByte.val := by
        rw [Server.unsent_send rfl, List.drop_zero, qSendPopFirst_len popped, List.take_length]
      unfold Balanced at balanced ⊢
      refine Eq.trans balanced ?_
      rw [Server.unsent_observe, sending, nothing, moved, List.length_map, List.length_nil]
      simp only [Server.observe, Server.sentOn]
      omega
  | @sendSome sendbuf ptr buflen count fits =>
    refine inv.of_conn step known.owners id rfl elsewhere others (fun _ _ => rfl) fun conn owner _ balanced => ?_
    have moved := congrArg List.length (Server.unsent_sendSome fits (s := { s.server with
      loop := .epollout id fd (if 0 < buflen - count then .send sendbuf (ptr + count) (buflen - count) else .rearm) })
      rfl)
    rw [← Server.unsent_send at_, List.length_append] at moved
    unfold Balanced at balanced ⊢
    rw [Server.sentOn_append (s := s.server) conn (s.server.fds fd) ((sendbuf.drop ptr).take count) rfl,
      if_pos (open_.trans owner), Server.unsent_observe, List.length_append]
    refine Eq.trans balanced ?_
    rw [← moved]
    simp only [Server.observe]
    omega
  | @sendAgain sendbuf ptr buflen errno again =>
    refine inv.quiet step rfl rfl rfl rfl ?_
    by_cases some : 0 < buflen
    · rw [if_pos some, ← at_]
      rfl
    · rw [if_neg some]
      funext other
      rw [Server.unsent_none (by simp [Server.observe])]
      by_cases here : other = id
      · rw [here, Server.unsent_send at_, Nat.eq_zero_of_not_pos some]
        rfl
      · rw [Server.unsent_other here at_]
  | sendError failed =>
    refine inv.of_conn step known.owners id rfl elsewhere others (fun _ _ => rfl) fun conn owner intact => ?_
    have sound := intact.sound
    simp [Service.observe, open_.trans owner] at sound
  | rearm =>
    have nothing : s.server.unsent = fun _ => [] := Server.unsent_none (by simp [at_])
    refine inv.quiet step (by simp) (by simp) ?_ ?_ ?_
    · split <;> rfl
    · split <;> rfl
    · rw [Server.unsent_observe]
      exact (Server.unsent_none (by simp)).trans nothing.symm

theorem BalanceInv.step_epollin (inv : BalanceInv s) (known : ServiceKnown s) (stops : StopInv s) {fd : Int}
    {pc : InPc TByte} {lact : LoopAct UInt8} {tact : LoopAct TByte} {net : NetSvr TByte RByte}
    {loop : LoopPc TByte RByte} {event : LoopEvent TByte RByte} (at_ : s.server.loop = .epollin id fd pc)
    (inner : InStep true s.server.net id fd pc tact net loop event)
    (step : ServiceStep s (.loop lact) { s.observe event with
      server := ({ s.server with net := net, loop := loop } : Server).observe event }) :
    BalanceInv { s.observe event with
      server := ({ s.server with net := net, loop := loop } : Server).observe event } := by
  have outside : ∀ id fd sendbuf ptr buflen, loop ≠ .epollout id fd (.send sendbuf ptr buflen) := by
    rcases inner.pc_next with rfl | ⟨fault, rfl⟩ | ⟨next, rfl⟩ <;> simp
  have before : s.server.unsent = fun _ => [] := Server.unsent_none (by simp [at_])
  have left : (({ s.server with net := net, loop := loop } : Server).observe event).unsent = s.server.unsent := by
    rw [Server.unsent_observe]
    exact (Server.unsent_none outside).trans before.symm
  have whole_ : LoopStep true s.server.net s.server.loop tact net loop event := by
    rw [at_]
    exact .epollin inner
  have elsewhere := whole_.same_elsewhere known.isolation (by rw [at_]; rfl)
  cases inner with
  | purge =>
    refine inv.of_conn step known.owners id rfl elsewhere (fun other _ => congrFun left other)
      (fun other different => queuedBytes_removeAll different) fun conn owner intact => ?_
    obtain ⟨gone, member, here⟩ := stops.givesUp id (.loop (by rw [at_]; rfl))
    cases here.symm.trans owner
    exact absurd member intact.serving
  | _ => exact inv.quiet step rfl rfl rfl rfl left

theorem BalanceInv.step_respond (inv : BalanceInv s) (known : ServiceKnown s) {i : Nat} {work : Work TByte}
    {outdata : List UInt8} {outlen : Nat} (at_ : s.server.worker i = .proc work)
    (room : outlen + netPkgSize ≤ outdata.length) (bound : outlen + netPkgSize ≤ intMax) :
    BalanceInv { s with
      server := { s.server with
        net := { s.server.net with
          sendQueue := qSendPush s.server.net.sendQueue work.connid (workPack work outdata outlen) }
        worker := Function.update s.server.worker i .signal }
      settled := s.settle work (some (outdata, outlen)) } := by
  refine inv.of_conn (.respond at_ room bound) known.owners work.connid rfl
    (fun conn apart => ⟨rfl, if_neg apart, rfl, rfl, rfl, rfl, rfl, rfl⟩) (fun _ _ => rfl) (fun other different => ?_)
    fun conn owner _ balanced => ?_
  · dsimp only
    rw [queuedBytes_push, if_neg different, Nat.add_zero]
  · have packets := Service.packets_answered
      (show Service.settled { s with settled := s.settle work (some (outdata, outlen)) } = s.settle work _ from rfl) owner
    have size : (workPack work outdata outlen).length =
        (builtPack outdata outlen (toInt (headMsgID work.data))).length := by rw [workPack, List.length_map]
    have queued := queuedBytes_push s.server.net.sendQueue work.connid work.connid (workPack work outdata outlen)
    rw [if_pos rfl, size] at queued
    have total : (((Service.packets { s with settled := s.settle work (some (outdata, outlen)) } conn).map
        List.length).sum) = ((s.packets conn).map List.length).sum +
          (builtPack outdata outlen (toInt (headMsgID work.data))).length := by
      rw [packets, List.map_append, List.sum_append, List.map_singleton, List.sum_singleton]
    calc _ = ((s.packets conn).map List.length).sum +
          (builtPack outdata outlen (toInt (headMsgID work.data))).length := total
      _ = _ := by rw [show _ = _ from balanced, Nat.add_assoc, ← queued]; rfl

/-- Nothing was pushed for a connection before it gets its id, and nothing waits under the id. -/
theorem BalanceInv.step_insert (inv : BalanceInv s) (known : ServiceKnown s) {fd : Int} {draws : List ConnId}
    (at_ : s.server.listen = .insert fd) (fresh : s.server.ident id = none ∨ ¬ Carries s.server id)
    (step : ServiceStep s (.insert draws) { s with
      server := { s.server with
        net := { s.server.net with conntable := Function.update s.server.net.conntable id (some fd) }
        listen := .add fd id
        ident := Function.update s.server.ident id (s.server.fds fd) } }) :
    BalanceInv { s with
      server := { s.server with
        net := { s.server.net with conntable := Function.update s.server.net.conntable id (some fd) }
        listen := .add fd id
        ident := Function.update s.server.ident id (s.server.fds fd) } } := by
  have free : ¬ Carries s.server id := by
    rcases fresh with unused | free
    · intro carries
      have used := known.isolation.known known.table carries
      simp [unused] at used
    · exact free
  intro other conn owner intact
  dsimp only at owner
  by_cases here : other = id
  · subst here
    rw [Function.update_self] at owner
    have begins := known.blank.inserting fd conn at_ owner
    have empty : queuedBytes s.server.net.sendQueue other = 0 := by
      rw [queuedBytes, List.filter_eq_nil_iff.mpr fun entry member => by
        simpa using fun same => free (.queue member same)]
      rfl
    have nothing : s.server.unsent other = [] := by
      unfold Server.unsent
      split
      · rename_i connid sockfd sendbuf ptr buflen running
        have handler : s.server.loop.handler = some (connid, sockfd) := by
          rw [running]
          rfl
        have different : connid ≠ other := fun same => free (same ▸ .handler handler)
        exact if_neg different
      · rfl
    have balanced : Balanced s other conn := by
      rw [Balanced, Service.packets, Service.pushed, begins.settled, begins.sent, nothing, empty]
      rfl
    exact balanced
  · rw [Function.update_of_ne here] at owner
    exact inv other conn owner (step.intact intact)

theorem BalanceInv.step (inv : BalanceInv s) (known : ServiceKnown s) (stops : StopInv s) (fresh : freshId act s.server)
    (step : ServiceStep s act s') : BalanceInv s' := by
  have whole_ := step
  cases step with
  | @loop lact net loop event _ inner =>
    generalize at_ : s.server.loop = before at inner
    generalize lact.tagged s.server.handlerOwner = tact at inner
    cases inner with
    | inMissing | outMissing | inFound | outFound =>
      have nothing : s.server.unsent = fun _ => [] := Server.unsent_none (by simp [at_])
      exact inv.quiet whole_ rfl rfl rfl rfl ((Server.unsent_none (by simp [Server.observe])).trans nothing.symm)
    | epollin inner => exact inv.step_epollin known stops at_ inner whole_
    | epollout inner => exact inv.step_epollout known at_ inner whole_
  | respond at_ room bound => exact inv.step_respond known at_ room bound
  | @finish i work at_ =>
    intro id conn owner intact
    have packets := Service.packets_declined
      (show Service.settled { s with settled := s.settle work none } = s.settle work none from rfl) conn
    have before := inv id conn owner (whole_.intact intact)
    unfold Balanced at before ⊢
    rw [← packets] at before
    exact before
  | other step notLoop notRespond =>
    cases step with
    | loop => exact absurd rfl (notLoop _)
    | respond | finish => exact absurd rfl (notRespond _ _)
    | insert at_ inserted =>
      exact inv.step_insert known at_ (fresh _ (by rw [at_]; rfl) _ inserted) whole_
    | dispatch idle _ loop =>
      have nothing : s.server.unsent = fun _ => [] := Server.unsent_none (by simp [idle])
      refine inv.quiet whole_ rfl rfl rfl rfl ((Server.unsent_none ?_).trans nothing.symm)
      rcases loop with rfl | rfl <;> simp
    | @sendPurge ok id at_ =>
      refine inv.of_conn whole_ known.owners id rfl (fun conn _ => ⟨rfl, rfl, rfl, rfl, rfl, rfl, rfl, rfl⟩)
        (fun _ _ => rfl) (fun other different => queuedBytes_removeAll different) fun conn owner intact => ?_
      obtain ⟨gone, member, here⟩ := stops.givesUp id (.send (by rw [at_]; rfl))
      cases here.symm.trans owner
      exact absurd member intact.serving
    | _ => exact inv.quiet whole_ rfl rfl rfl rfl rfl

end Balance

section Ledger

variable {ordered : Bool} {s : Service} {id : ConnId} {conn : Nat} {packets : Nat → List (List TByte)}

/-- Nothing is missing: each request that was handed on is settled, with a worker or in the pool, and
each packet that was pushed was sent, is being sent, or is part of an entry of the queue. -/
structure Conserved (ordered : Bool) (s : Service) (id : ConnId) (conn : Nat) : Prop where
  requests : ∃ hands : List (Nat × Work TByte), hands.Nodup ∧
    (∀ i work, (i, work) ∈ hands ↔ s.server.worker i = .proc work) ∧
      Arranged ordered ((s.settled conn).map Prod.fst ++ s.server.worksOf (hands.map Prod.snd ++ s.server.net.pool) conn)
        (s.server.handedOn conn)
  responses : ∃ used parts, plainQueue s.server.net.sendQueue = joined parts ∧
    Arranged ordered (used ++ packetsOf parts id) (s.packets conn) ∧
      s.server.sentOn conn ++ s.server.unsent id = used.flatten

theorem StopInv.unbroken (inv : StopInv s) (intact : Intact s conn) :
    s.torn conn = false ∧ s.garbled conn = false := by
  have sound := mt (inv.broken conn) (by simp [intact.sound])
  simpa using sound

theorem stopInv_reach (reach : Reach Service.step (keepingQuiet ordered) Service.init s) : StopInv s :=
  reach.invariant_of (K := ServiceKnown)
    (fun _ reach => serviceKnown_reach reach fun _ _ allowed => allowed.2.1.1) stopInv_init
    fun _ _ _ known _ inv allowed run => inv.step known allowed.1 (Service.step_spec run)

theorem conserved_reach (reach : Reach Service.step (keepingQuiet ordered) Service.init s)
    (owner : s.server.ident id = some conn) (intact : Intact s conn) : Conserved ordered s id conn := by
  have known : ∀ s, Reach Service.step (keepingQuiet ordered) Service.init s → ServiceKnown s := fun s reach =>
    serviceKnown_reach reach fun _ _ allowed => allowed.2.1.1
  obtain ⟨hands, accounts⟩ := reach.invariant_of (P := fun s => ∃ hands, AccountInv ordered hands s) known
    ⟨_, accountInv_init ordered⟩ fun _ _ _ known _ ⟨_, inv⟩ allowed run =>
      inv.step known allowed.2.1.1 allowed.2.2 (Service.step_spec run)
  obtain ⟨parts, streams⟩ := reach.invariant_of (P := fun s => ∃ parts, StreamInv ordered parts s) known
    ⟨_, streamInv_init ordered⟩ fun _ _ _ known _ ⟨_, inv⟩ allowed run =>
      inv.step known allowed.2.1.1 allowed.2.2 (Service.step_spec run)
  have stops := stopInv_reach reach
  have balance := reach.invariant_of (K := fun s => ServiceKnown s ∧ StopInv s)
    (fun s reach => ⟨known s reach, stopInv_reach reach⟩) balanceInv_init
    fun _ _ _ known _ inv allowed run => inv.step known.1 known.2 allowed.2.1.1 (Service.step_spec run)
  refine ⟨⟨hands, accounts.nodup, accounts.hand, accounts.account conn⟩, ?_⟩
  obtain ⟨untorn, clean⟩ := stops.unbroken intact
  obtain ⟨used, selected, spelled⟩ := streams.streamed id conn owner clean
  rw [Spelled, untorn, if_neg (by simp)] at spelled
  refine ⟨used, parts, streams.queue, selected.arranged_of_weight List.length (fun packet member => ?_) ?_, spelled⟩
  · obtain ⟨answered, pushed, rfl⟩ := List.mem_map.mp member
    exact List.length_pos_iff.mpr (streams.responds conn answered pushed).isFrame.ne_nil
  · have balanced := balance id conn owner intact
    rw [Balanced, ← queuedBytes_plain, streams.queue, queuedBytes_joined, ← List.length_append, spelled] at balanced
    rw [balanced, List.map_append, List.sum_append, List.length_flatten, List.length_flatten]

/-- As long as the server serves a connection and `send` does not fail on it for good, no request and
no response of it is lost, and none is there twice. -/
theorem nothing_lost (reach : Reach Service.step (keepingQuiet ordered) Service.init s)
    (owner : s.server.ident id = some conn) (intact : Intact s conn) : Conserved ordered s id conn :=
  conserved_reach reach owner intact

/-- The first response is half way out, the second one waits in the queue, and the request of another
client in the pool; the id was used before. -/
def halfSentRun : List ServerAct :=
  visit ++ connects 5 7 ++ connects 6 8 ++ requests 5 emptyPacket ++ requests 5 secondPacket ++
    requests 6 emptyPacket ++ answers 0 ++
    [.wait [(5, false, true)], .dispatch, .loop .tau, .loop .tau, .loop (.send (.sent 5))] ++ answers 0

theorem nothing_lost_half_sent : ∃ s,
    exec (guarded Service.step (keepingReusing 1 true)) halfSentRun Service.init = some s ∧
      (s.server.sentOn 1).length = 5 ∧ (s.server.unsent 7).length = 5 ∧ s.server.net.sendQueue.length = 1 ∧
      s.server.net.pool.map Work.connid = [8] ∧ Conserved true s 7 1 := by
  have ends : ∃ s, exec (guarded Service.step (keepingReusing 1 true)) halfSentRun Service.init = some s ∧
      (s.server.sentOn 1).length = 5 ∧ (s.server.unsent 7).length = 5 ∧ s.server.net.sendQueue.length = 1 ∧
        s.server.net.pool.map Work.connid = [8] ∧ s.server.ident 7 = some 1 ∧ s.server.stopped = [0] ∧
        s.failed 1 = false := exec_ends (by decide +kernel)
  obtain ⟨s, run, sent, left, queued, waits, owner, serving, sound⟩ := ends
  exact ⟨s, run, sent, left, queued, waits,
    nothing_lost (keepingQuiet_reach (reach_of_exec_guarded run)) owner ⟨by simp [serving], sound⟩⟩

/-- Nothing goes by the id: the pool, the workers, the queue and the loop thread are done with it. -/
structure Quiet (s : Server) (id : ConnId) : Prop where
  pool : ∀ work ∈ s.net.pool, work.connid ≠ id
  workers : ∀ i work, s.worker i = .proc work → work.connid ≠ id
  queue : ∀ entry ∈ s.net.sendQueue, entry.1 ≠ id
  handler : ∀ fd, s.loop.handler ≠ some (id, fd)

/-- When as many requests are settled as were handed on, none is in the pool or with a worker. -/
theorem Conserved.all_settled (conserved : Conserved ordered s id conn) (owner : s.server.ident id = some conn)
    (all : (s.server.handedOn conn).length ≤ (s.settled conn).length) :
    (∀ work ∈ s.server.net.pool, work.connid ≠ id) ∧ ∀ i work, s.server.worker i = .proc work → work.connid ≠ id := by
  obtain ⟨hands, _, held, requests⟩ := conserved.requests
  have size := requests.perm.length_eq
  rw [List.length_append, List.length_map] at size
  have none_ : s.server.worksOf (hands.map Prod.snd ++ s.server.net.pool) conn = [] :=
    List.length_eq_zero_iff.mp (by omega)
  have elsewhere : ∀ work ∈ hands.map Prod.snd ++ s.server.net.pool, work.connid ≠ id := fun work member same =>
    List.filter_eq_nil_iff.mp none_ work member (decide_eq_true (same ▸ owner))
  exact ⟨fun work member => elsewhere work (List.mem_append_right _ member), fun i work at_ =>
    elsewhere work (List.mem_append_left _ (List.mem_map_of_mem ((held i work).mpr at_)))⟩

theorem Quiet.unsent (quiet : Quiet s.server id) : s.server.unsent id = [] := by
  unfold Server.unsent
  split
  · rename_i connid sockfd sendbuf ptr buflen running
    refine if_neg fun same => quiet.handler sockfd ?_
    rw [running, same]
    rfl
  · rfl

theorem Quiet.works (quiet : Quiet s.server id) (owners : OwnerInv s.server) (owner : s.server.ident id = some conn)
    {hands : List (Nat × Work TByte)} (held : ∀ i work, (i, work) ∈ hands ↔ s.server.worker i = .proc work) :
    s.server.worksOf (hands.map Prod.snd ++ s.server.net.pool) conn = [] := by
  refine List.filter_eq_nil_iff.mpr fun work member same => ?_
  have here : work.connid = id := owners.distinct work.connid id conn (of_decide_eq_true same) owner
  rcases List.mem_append.mp member with hand | pool
  · obtain ⟨⟨i, _⟩, holds, rfl⟩ := List.mem_map.mp hand
    exact quiet.workers i _ ((held i _).mp holds) here
  · exact quiet.pool work pool here

/-- The packets that were received are those that were settled, each of them once, and the client got back
the answers and nothing else. -/
structure Served (ordered : Bool) (s : Service) (conn : Nat) : Prop where
  requests : Arranged ordered ((s.settled conn).map fun done => done.1.data) (netPkg.frames (s.received conn))
  responses : Arranged ordered (netPkg.frames (s.server.sentOn conn)) (s.packets conn)
  whole : netPkg.rest (s.server.sentOn conn) = []
  responds : ∀ answered ∈ s.pushed conn, Responds answered.1 answered.2

/-- The message ids that come back and those of the refused requests are the ones that were sent. -/
theorem Served.msgIDs (served : Served ordered s conn) :
    ((netPkg.frames (s.server.sentOn conn)).map headMsgID ++
      (s.declined conn).map fun work => headMsgID work.data).Perm
        ((netPkg.frames (s.received conn)).map headMsgID) := by
  have answers : (s.packets conn).map headMsgID = ((s.pushed conn).map Prod.fst).map fun work => headMsgID work.data := by
    rw [Service.packets, List.map_map, List.map_map]
    exact List.map_congr_left fun one member => (served.responds one member).msgID
  have settled := (s.settled_perm conn).map fun work => headMsgID work.data
  rw [List.map_append, ← answers, List.map_map] at settled
  have requests := served.requests.perm.map headMsgID
  rw [List.map_map] at requests
  exact ((served.responses.perm.map headMsgID).append_right _).trans (settled.symm.trans requests)

/-- What it means for the client that nothing goes by its id any more. -/
theorem served_of_quiet (reach : Reach Service.step (keepingQuiet ordered) Service.init s)
    (wellFormed : ∀ conn, ∀ packet ∈ packets conn, WellFormed packet)
    (initial : ∀ conn, s.received conn <+: (packets conn).flatten)
    (owner : s.server.ident id = some conn) (intact : Intact s conn) (quiet : Quiet s.server id) :
    Served ordered s conn := by
  have orderly_ : Reach Service.step orderly Service.init s := reach.mono fun _ _ allowed => allowed.2.1
  have known := serviceKnown_reach orderly_ fun _ _ allowed => allowed.1
  have going : s.ended conn = false := by
    cases finished : s.ended conn with
    | false => rfl
    | true => exact absurd ((stopInv_reach reach).ended conn finished) intact.serving
  obtain ⟨handedOn, _⟩ := (receiveInv_reach orderly_ wellFormed initial).whole owner going
    fun fd pc at_ => quiet.handler fd (by rw [at_]; rfl)
  obtain ⟨⟨hands, _, held, requests⟩, used, parts, queue, responses, spelled⟩ := conserved_reach reach owner intact
  have answered : Answered ordered s conn :=
    answered_reach reach (fun _ _ allowed => allowed.2.1.1) (fun once _ _ allowed => allowed.2.2 once)
      ((stopInv_reach reach).unbroken intact).2
  rw [quiet.works known.owners owner held, List.append_nil, handedOn] at requests
  rw [packetsOf_of_absent queue quiet.queue, List.append_nil] at responses
  rw [quiet.unsent, List.append_nil] at spelled
  have frames : ∀ packet ∈ used, netPkg.IsFrame packet := fun packet member => by
    obtain ⟨response, pushed, rfl⟩ := List.mem_map.mp (responses.perm.subset member)
    exact (answered.responds response pushed).isFrame
  obtain ⟨whole, rest⟩ := Framing.frames_flatten_append frames ([] : List UInt8)
  rw [List.append_nil, ← spelled] at whole rest
  refine ⟨?_, ?_, ?_, answered.responds⟩
  · have data : ((netPkg.frames (s.received conn)).map (requestOf id)).map Work.data = netPkg.frames (s.received conn) := by
      rw [List.map_map]
      exact List.map_id _
    have settled := requests.map Work.data
    rwa [List.map_map, data] at settled
  · rw [whole, Framing.frames_of_incomplete Framing.not_complete_nil, List.append_nil]
    exact responses
  · rw [rest, Framing.rest_of_incomplete Framing.not_complete_nil]

/-- When the server has come to rest over a connection that it still serves, every whole packet
received on it was settled exactly once: what was sent back is whole packets, one for each packet
received that the handler did not refuse, with its message id. -/
theorem every_packet_settled (reach : Reach Service.step (keepingQuiet ordered) Service.init s)
    (wellFormed : ∀ conn, ∀ packet ∈ packets conn, WellFormed packet)
    (initial : ∀ conn, s.received conn <+: (packets conn).flatten)
    (owner : s.server.ident id = some conn) (intact : Intact s conn) (quiet : Quiet s.server id) :
    Served ordered s conn ∧
      ((netPkg.frames (s.server.sentOn conn)).map headMsgID ++
        (s.declined conn).map fun work => headMsgID work.data).Perm
          ((netPkg.frames (s.received conn)).map headMsgID) :=
  have served := served_of_quiet reach wellFormed initial owner intact quiet
  ⟨served, served.msgIDs⟩

/-- Of two requests of a client, whose id was used before, the first one is refused, while a worker has the
request of another one. -/
def declinedRun : List ServerAct :=
  visit ++ connects 5 7 ++ connects 6 8 ++ requests 5 emptyPacket ++ requests 5 secondPacket ++
    requests 6 emptyPacket ++ [.take 0, .take 1, .take 2, .respond 1 (some (emptyPacket, 0)), .signal 1, .respond 0 none] ++
    transmits 5 10

theorem every_packet_settled_declined : ∃ s,
    exec (guarded Service.step (keepingReusing 3 false)) declinedRun Service.init = some s ∧
      (netPkg.frames (s.server.sentOn 1)).map headMsgID = [2] ∧
      (s.declined 1).map (fun work => headMsgID work.data) = [1] ∧ (s.server.worker 2).work.isSome ∧
      Served false s 1 := by
  have ends : ∃ s, exec (guarded Service.step (keepingReusing 3 false)) declinedRun Service.init = some s ∧
      ((netPkg.frames (s.server.sentOn 1)).map headMsgID = [2] ∧
        (s.declined 1).map (fun work => headMsgID work.data) = [1] ∧ (s.server.worker 2).work.isSome) ∧
      (∀ conn < s.server.accepted, s.received conn <+: (inTurnPackets conn).flatten) ∧
      (s.server.ident 7 = some 1 ∧ s.server.stopped = [0] ∧ s.failed 1 = false) ∧
      (s.server.handedOn 1).length ≤ (s.settled 1).length ∧ s.server.net.sendQueue = [] ∧
      s.server.loop.handler = none := exec_ends (by decide +kernel)
  obtain ⟨s, run, ⟨sent, declined, busy⟩, begun, ⟨owner, serving, sound⟩, all, queue, handler⟩ := ends
  have reach : Reach Service.step (keepingQuiet false) Service.init s := keepingQuiet_reach (reach_of_exec_guarded run)
  have intact : Intact s 1 := ⟨by simp [serving], sound⟩
  obtain ⟨pool, workers⟩ := (conserved_reach reach owner intact).all_settled owner all
  have quiet : Quiet s.server 7 := ⟨pool, workers, by simp [queue], by simp [handler]⟩
  have known := serviceKnown_reach reach fun _ _ allowed => allowed.2.1.1
  exact ⟨s, run, sent, declined, busy, (every_packet_settled reach (sentBy_wellFormed (by decide +kernel))
    (known.initial begun) owner intact quiet).1⟩

end Ledger

end SvrNet

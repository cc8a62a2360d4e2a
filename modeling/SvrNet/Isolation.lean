import SvrNet.ServerTable

namespace SvrNet
open CData StepSystem

section Cells

variable {α β : Type} [Cell α] (Q : α → Prop)

/-- The cells in the buffers of the handler for readable events all satisfy `Q`. The counts stay
inside the buffer, whatever sizes a peer announces. -/
def InPc.Holds : InPc α → Prop
  | .find recvBuff count | .uncache recvBuff count | .parse recvBuff count | .recv recvBuff count
  | .store recvBuff count => 0 ≤ count ∧ count ≤ recvBuff.length ∧ ∀ cell ∈ recvBuff, Q cell
  | .push recvBuff count pack _ => (0 ≤ count ∧ count ≤ recvBuff.length ∧ ∀ cell ∈ recvBuff, Q cell) ∧
      ∀ cell ∈ pack, Q cell
  | _ => True

variable {Q}

/-- `parse_pack` only moves cells around. -/
theorem parsePack_cells {buf : List α} {bufLen : Int} {parsed : Parsed α}
    (run : parsePack buf bufLen = some parsed) (nonneg : 0 ≤ bufLen) (inside : bufLen ≤ buf.length)
    (cells : ∀ cell ∈ buf, Q cell) :
    (0 ≤ parsed.bufLen ∧ parsed.bufLen ≤ parsed.buf.length ∧ ∀ cell ∈ parsed.buf, Q cell) ∧
      ∀ cell ∈ parsed.pack.getD [], Q cell := by
  unfold parsePack at run
  split at run
  · cases run
    exact ⟨⟨nonneg, inside, cells⟩, by simp⟩
  · simp only at run
    generalize toInt (headLength buf + netPkgSize) = packLen at run
    split at run
    · cases run
      exact ⟨⟨nonneg, inside, cells⟩, by simp⟩
    · rename_i fits
      split at run
      · simp at run
      · rename_i positive
        cases run
        refine ⟨⟨Int.sub_nonneg.mpr (Int.not_lt.mp fits), ?_, fun cell member => ?_⟩, fun cell member => ?_⟩
        · simp only
          rw [length_memmove_front]
          omega
        · exact cells cell (mem_memmove_front member)
        · rw [Option.getD_some] at member
          exact cells cell (List.mem_of_mem_take member)

variable {asserts : Bool} {net net' : NetSvr α β} {connid : ConnId} {curfd : Int} {pc : InPc α}
  {act : LoopAct α} {pc' : LoopPc α β} {event : LoopEvent α β}

/-- The cells that the handler works with are those it received and those kept for its connection. -/
theorem InStep.holds_next {next : InPc α}
    (step : InStep asserts net connid curfd pc act net' (.epollin connid curfd next) event)
    (holds : pc.Holds Q) (received : ∀ bytes, act = .recv (.data bytes) → ∀ cell ∈ bytes, Q cell)
    (kept : ∀ data, net.recvMap connid = some data → ∀ cell ∈ data, Q cell) : next.Holds Q := by
  cases step with
  | firstData => exact ⟨by omega, le_rfl, received _ rfl⟩
  | findMissing => exact holds
  | findLong _ _ next =>
    rcases next with next | next <;> cases next
    exact holds
  | @findCached recvBuff cached err found short inside =>
    obtain ⟨nonneg, bound, cells⟩ := holds
    refine ⟨by omega, ?_, fun cell member => ?_⟩
    · rw [length_writeAt_memmove]
      omega
    · rcases mem_writeAt_memmove member with old | new
      · exact kept cached found cell old
      · exact cells cell new
  | uncache => exact holds
  | parsePacket done =>
    obtain ⟨nonneg, inside, cells⟩ := holds
    exact parsePack_cells done nonneg inside cells
  | parseDone done =>
    obtain ⟨nonneg, inside, cells⟩ := holds
    exact (parsePack_cells done nonneg inside cells).1
  | pushFull => exact holds
  | pushDone => exact holds.1
  | recvData =>
    obtain ⟨nonneg, inside, cells⟩ := holds
    refine ⟨by omega, ?_, fun cell member => ?_⟩
    · rw [length_writeAt]
      omega
    · rcases mem_writeAt (by omega) member with old | new
      · exact cells cell old
      · exact received _ rfl cell new
  | recvAgain => exact holds
  | firstClosed | recvClosed | purge | drop | forget => trivial

/-- What is kept for a connection is what the handler held of it. -/
theorem InStep.kept_holds (step : InStep asserts net connid curfd pc act net' pc' event)
    (holds : pc.Holds Q) (kept : ∀ data, net.recvMap connid = some data → ∀ cell ∈ data, Q cell)
    {data : List α} (entry : net'.recvMap connid = some data) : ∀ cell ∈ data, Q cell := by
  cases step with
  | uncache | forget => simp [mRecvRemove] at entry
  | storeDone =>
    simp only [Function.update_self, Option.some.injEq] at entry
    subst entry
    exact fun cell member => holds.2.2 cell (List.mem_of_mem_take member)
  | _ => exact kept data entry

/-- A request that is handed on holds cells of the handler, under the id of its connection. -/
theorem InStep.handed_spec {fd : Int} {work : Work α}
    (step : InStep asserts net connid curfd pc act net' pc' (.handed fd work)) (holds : pc.Holds Q) :
    fd = curfd ∧ work.connid = connid ∧ ∀ cell ∈ work.data, Q cell := by
  cases step
  exact ⟨rfl, rfl, holds.2⟩

end Cells

/-- Something in the server still goes by the id: a kept remainder, a request in the pool or with a
worker, a response in the queue, or the handler that is running. -/
inductive Carries (s : Server) (id : ConnId) : Prop
  | cache : (s.net.recvMap id).isSome → Carries s id
  | pool {work : Work TByte} : work ∈ s.net.pool → work.connid = id → Carries s id
  | working {i : Nat} {work : Work TByte} : s.worker i = .proc work → work.connid = id → Carries s id
  | queue {entry : ConnId × List RByte} : entry ∈ s.net.sendQueue → entry.1 = id → Carries s id
  | handler {fd : Int} : s.loop.handler = some (id, fd) → Carries s id

/-- `conn_insert` gives a new connection an id that was never used, or that nothing goes by any more. -/
def freshId : ServerAct → Server → Prop
  | .insert draws, s => ∀ clientFd ∈ s.listen.inserting, ∀ drawn ∈ connInsert s.net.conntable clientFd draws,
      s.ident drawn.1 = none ∨ ¬ Carries s drawn.1
  | _, _ => True

/-- The request was handed on for the connection that its id stands for. -/
def Requested (s : Server) (work : Work TByte) : Prop :=
  ∃ conn, s.ident work.connid = some conn ∧ (conn, work) ∈ s.handed

/-- The bytes answer requests of the connection that the id stands for. -/
def Answers (s : Server) (id : ConnId) (bytes : List RByte) : Prop :=
  ∃ conn, s.ident id = some conn ∧ ∀ byte ∈ bytes, (conn, byte.req) ∈ s.handed

structure IsolationInv (s : Server) : Prop where
  owner : ∀ id fd, s.loop.handler = some (id, fd) → s.fds fd = s.ident id
  buffer : ∀ id fd pc, s.loop = .epollin id fd pc → ∀ conn, s.ident id = some conn →
    pc.Holds (·.conn = some conn)
  cache : ∀ id data, s.net.recvMap id = some data →
    ∃ conn, s.ident id = some conn ∧ ∀ cell ∈ data, cell.conn = some conn
  pool : ∀ work ∈ s.net.pool, Requested s work
  working : ∀ i work, s.worker i = .proc work → Requested s work
  queue : ∀ entry ∈ s.net.sendQueue, Answers s entry.1 entry.2
  sending : ∀ id fd sendbuf ptr buflen, s.loop = .epollout id fd (.send sendbuf ptr buflen) →
    Answers s id sendbuf
  handed : ∀ conn work, (conn, work) ∈ s.handed → ∀ cell ∈ work.data, cell.conn = some conn
  sent : ∀ conn bytes, (conn, bytes) ∈ s.sent → ∀ byte ∈ bytes, (conn, byte.req) ∈ s.handed

theorem isolationInv_init : IsolationInv Server.init := by
  constructor <;> simp [Server.init, LoopPc.handler]

variable {s s' : Server}

theorem Requested.mono {work : Work TByte} (requested : Requested s work)
    (ident : s'.ident work.connid = s.ident work.connid) (handed : s.handed ⊆ s'.handed) :
    Requested s' work := by
  obtain ⟨conn, owner, member⟩ := requested
  exact ⟨conn, ident.trans owner, handed member⟩

theorem Answers.mono {id : ConnId} {bytes : List RByte} (answers : Answers s id bytes)
    (ident : s'.ident id = s.ident id) (handed : s.handed ⊆ s'.handed) : Answers s' id bytes := by
  obtain ⟨conn, owner, member⟩ := answers
  exact ⟨conn, ident.trans owner, fun byte here => handed (member byte here)⟩

/-- Steps that neither receive, send nor hand on anything, nor answer a request. -/
theorem IsolationInv.shrink (inv : IsolationInv s) (ident : s'.ident = s.ident) (handed : s'.handed = s.handed)
    (sent : s'.sent = s.sent)
    (fds : ∀ id fd, s.loop.handler = some (id, fd) → s'.fds fd = s.fds fd)
    (loop : s'.loop = s.loop ∨ s'.loop.handler = none)
    (cache : s'.net.recvMap = s.net.recvMap) (pool : s'.net.pool ⊆ s.net.pool)
    (working : ∀ i work, s'.worker i = .proc work → s.worker i = .proc work ∨ work ∈ s.net.pool)
    (queue : s'.net.sendQueue.Sublist s.net.sendQueue) : IsolationInv s' where
  owner := fun id fd at_ => by
    rcases loop with same | none
    · rw [same] at at_
      rw [fds id fd at_, ident]
      exact inv.owner id fd at_
    · simp [none] at at_
  buffer := fun id fd pc at_ => by
    rw [ident]
    rcases loop with same | none
    · exact inv.buffer id fd pc (same ▸ at_)
    · simp [at_, LoopPc.handler] at none
  cache := by
    rw [cache, ident]
    exact inv.cache
  pool := fun work member => (inv.pool work (pool member)).mono (by rw [ident]) (by rw [handed]; exact List.Subset.refl _)
  working := fun i work at_ =>
    ((working i work at_).elim (inv.working i work) (inv.pool work)).mono (by rw [ident])
      (by rw [handed]; exact List.Subset.refl _)
  queue := fun entry member => (inv.queue entry (queue.subset member)).mono (by rw [ident])
    (by rw [handed]; exact List.Subset.refl _)
  sending := fun id fd sendbuf ptr buflen at_ => by
    rcases loop with same | none
    · exact (inv.sending id fd sendbuf ptr buflen (same ▸ at_)).mono (by rw [ident])
        (by rw [handed]; exact List.Subset.refl _)
    · simp [at_, LoopPc.handler] at none
  handed := by
    rw [handed]
    exact inv.handed
  sent := by
    rw [handed, sent]
    exact inv.sent

theorem IsolationInv.known (inv : IsolationInv s) (tableInv : TableInv s) {id : ConnId}
    (carries : Carries s id) : (s.ident id).isSome := by
  cases carries with
  | cache kept =>
    obtain ⟨data, entry⟩ := Option.isSome_iff_exists.mp kept
    obtain ⟨conn, owner, _⟩ := inv.cache id data entry
    rw [owner]
    rfl
  | pool member same =>
    obtain ⟨conn, owner, _⟩ := inv.pool _ member
    rw [← same, owner]
    rfl
  | working at_ same =>
    obtain ⟨conn, owner, _⟩ := inv.working _ _ at_
    rw [← same, owner]
    rfl
  | queue member same =>
    obtain ⟨conn, owner, _⟩ := inv.queue _ member
    rw [← same, owner]
    rfl
  | handler at_ =>
    rw [← inv.owner id _ at_]
    exact (tableInv.handling id _ at_).1

theorem IsolationInv.step_insert (inv : IsolationInv s) {fd : Int} {id : ConnId} (unused : ¬ Carries s id) :
    IsolationInv { s with
      net := { s.net with conntable := Function.update s.net.conntable id (some fd) }
      listen := .add fd id
      ident := Function.update s.ident id (s.fds fd) } := by
  have kept : ∀ other, Carries s other → Function.update s.ident id (s.fds fd) other = s.ident other := by
    intro other carries
    have different : other ≠ id := by
      rintro rfl
      exact unused carries
    rw [Function.update_of_ne different]
  have same : s.handed ⊆ s.handed := List.Subset.refl _
  refine ⟨fun other fd' at_ => ?_, fun other fd' pc at_ conn owner => ?_, fun other data entry => ?_,
    fun work member => ?_, fun i work at_ => ?_, fun entry member => ?_,
    fun other fd' sendbuf ptr buflen at_ => ?_, inv.handed, inv.sent⟩
  · exact (inv.owner other fd' at_).trans (kept other (.handler at_)).symm
  · have here : s.loop.handler = some (other, fd') := by rw [show s.loop = _ from at_]; rfl
    exact inv.buffer other fd' pc at_ conn ((kept other (.handler here)).symm.trans owner)
  · obtain ⟨conn, owner, cells⟩ := inv.cache other data entry
    exact ⟨conn, (kept other (.cache (by rw [entry]; rfl))).trans owner, cells⟩
  · exact (inv.pool work member).mono (kept _ (.pool member rfl)) same
  · exact (inv.working i work at_).mono (kept _ (.working at_ rfl)) same
  · exact (inv.queue entry member).mono (kept _ (.queue member rfl)) same
  · have here : s.loop.handler = some (other, fd') := by rw [show s.loop = _ from at_]; rfl
    exact (inv.sending other fd' sendbuf ptr buflen at_).mono (kept other (.handler here)) same

theorem IsolationInv.step_respond (inv : IsolationInv s) {i : Nat} {work : Work TByte} {outdata : List UInt8}
    {outlen : Nat} (at_ : s.worker i = .proc work) :
    IsolationInv { s with
      net := { s.net with
        sendQueue := qSendPush s.net.sendQueue work.connid (workPack work outdata outlen) }
      worker := Function.update s.worker i .signal } := by
  obtain ⟨conn, owner, request⟩ := inv.working i work at_
  have own : ∀ byte ∈ workPack work outdata outlen, (conn, byte.req) ∈ s.handed := by
    intro byte member
    obtain ⟨_, _, rfl⟩ := List.mem_map.mp member
    exact request
  refine { inv with working := fun j other here => ?_, queue := fun entry member => ?_ }
  · by_cases same : j = i
    · simp [same] at here
    · exact inv.working j other (by simpa [same] using here)
  · rcases mem_qSendPush member with old | ⟨same, bytes⟩
    · exact inv.queue entry old
    · refine ⟨conn, by rw [same]; exact owner, fun byte here => ?_⟩
      rcases bytes byte here with new | ⟨old, before, sameId, here⟩
      · exact own byte new
      · obtain ⟨conn', owner', answers⟩ := inv.queue old before
        rw [sameId] at owner'
        cases owner.symm.trans owner'
        exact answers byte here

theorem Server.handed_subset (s : Server) (event : LoopEvent TByte RByte) :
    s.handed ⊆ (s.observe event).handed := by
  cases event with
  | handed => exact List.subset_append_left ..
  | _ => exact List.Subset.refl _

section Handler

variable {connid : ConnId} {fd : Int} {act : LoopAct TByte} {net : NetSvr TByte RByte}
  {loop : LoopPc TByte RByte} {event : LoopEvent TByte RByte}

theorem IsolationInv.step_epollin {pc : InPc TByte} (inv : IsolationInv s) (tableInv : TableInv s)
    (at_ : s.loop = .epollin connid fd pc) (step : InStep true s.net connid fd pc act net loop event)
    (received : ∀ bytes, act = .recv (.data bytes) → ∀ cell ∈ bytes, cell.conn = s.fds fd) :
    IsolationInv (({ s with net := net, loop := loop } : Server).observe event) := by
  have handler : s.loop.handler = some (connid, fd) := by rw [at_]; rfl
  obtain ⟨conn, open_⟩ := Option.isSome_iff_exists.mp (tableInv.handling connid fd handler).1
  have owner : s.ident connid = some conn := (inv.owner connid fd handler).symm.trans open_
  have holds := inv.buffer connid fd pc at_ conn owner
  have kept : ∀ data, s.net.recvMap connid = some data → ∀ cell ∈ data, cell.conn = some conn := by
    intro data entry
    obtain ⟨conn', owner', cells⟩ := inv.cache connid data entry
    cases owner.symm.trans owner'
    exact cells
  have grows := Server.handed_subset ({ s with net := net, loop := loop } : Server) event
  refine ⟨fun id other here => ?_, fun id other next here conn' owner' => ?_, fun id data entry => ?_,
    fun work member => ?_, fun i work here => ?_, fun entry member => ?_,
    fun id other sendbuf ptr buflen here => ?_, ?_, ?_⟩
  · rw [Server.observe_loop] at here
    have fds : (({ s with net := net, loop := loop } : Server).observe event).fds = s.fds := by
      refine Server.observe_fds fun gone same => ?_
      subst same
      obtain ⟨_, _, rfl, _⟩ := (LoopStep.epollin step).closed_spec
      simp [LoopPc.handler] at here
    rw [fds, Server.observe_ident]
    rcases step.pc_next with rfl | ⟨fault, rfl⟩ | ⟨next, rfl⟩
    · simp [LoopPc.handler] at here
    · simp [LoopPc.handler] at here
    · exact inv.owner id other (handler.trans here)
  · rw [Server.observe_loop] at here
    rw [Server.observe_ident] at owner'
    subst here
    rcases step.pc_next with stop | ⟨fault, stop⟩ | ⟨_, same⟩
    · simp at stop
    · simp at stop
    · cases same
      cases owner.symm.trans owner'
      exact step.holds_next holds (fun bytes data cell member => (received bytes data cell member).trans open_) kept
  · rw [Server.observe_net] at entry
    rw [Server.observe_ident]
    by_cases here : id = connid
    · subst here
      exact ⟨conn, owner, step.kept_holds holds kept entry⟩
    · rw [step.recvMap_other here] at entry
      exact inv.cache id data entry
  · rw [Server.observe_net] at member
    rcases (LoopStep.epollin step).pool_next with same | ⟨_, _, new, handles, same, pushed, rfl⟩
    · rw [same] at member
      exact (inv.pool work member).mono (by simp) grows
    · cases handles
      rw [pushed] at member
      rcases List.mem_append.mp member with old | here
      · exact (inv.pool work old).mono (by simp) grows
      · rw [List.mem_singleton.mp here]
        refine ⟨conn, by rw [Server.observe_ident, same]; exact owner, ?_⟩
        simp [Server.observe, open_]
  · rw [Server.observe_worker] at here
    exact (inv.working i work here).mono (by simp) grows
  · rw [Server.observe_net] at member
    exact (inv.queue entry ((LoopStep.epollin step).sendQueue_sublist.subset member)).mono (by simp) grows
  · rw [Server.observe_loop] at here
    subst here
    rcases step.pc_next with stop | ⟨fault, stop⟩ | ⟨_, stop⟩ <;> simp at stop
  · intro conn' work member
    cases event with
    | handed curfd new =>
      rcases List.mem_append.mp member with old | here
      · exact inv.handed conn' work old
      · obtain ⟨rfl, _, cells⟩ := step.handed_spec holds
        simp only [open_, Option.toList_some, List.map_cons, List.map_nil, List.mem_singleton,
          Prod.mk.injEq] at here
        obtain ⟨rfl, rfl⟩ := here
        exact cells
    | _ => exact inv.handed conn' work member
  · intro conn' bytes member byte here
    cases event with
    | sent => cases step
    | _ => exact grows (inv.sent conn' bytes member byte here)

/-- What is sent on the socket is part of a response that was queued for the connection. -/
theorem IsolationInv.step_epollout {pc : OutPc RByte} (inv : IsolationInv s) (tableInv : TableInv s)
    (at_ : s.loop = .epollout connid fd pc) (step : OutStep s.net connid fd pc act net loop event) :
    IsolationInv (({ s with net := net, loop := loop } : Server).observe event) := by
  have handler : s.loop.handler = some (connid, fd) := by rw [at_]; rfl
  obtain ⟨conn, open_⟩ := Option.isSome_iff_exists.mp (tableInv.handling connid fd handler).1
  have owner : s.ident connid = some conn := (inv.owner connid fd handler).symm.trans open_
  obtain ⟨_, recvMap, pool⟩ := step.net_next
  obtain ⟨fds, _, _, handed⟩ :=
    Server.observe_outgoing (s := { s with net := net, loop := loop }) step.outgoing
  have same : s.handed ⊆ (({ s with net := net, loop := loop } : Server).observe event).handed := by
    rw [handed]
    exact List.Subset.refl _
  refine ⟨fun id other here => ?_, fun id other next here => ?_, ?_, fun work member => ?_,
    fun i work here => ?_, fun entry member => ?_, fun id other sendbuf ptr buflen here => ?_, ?_,
    fun conn' bytes member => ?_⟩
  · rw [Server.observe_loop] at here
    rw [fds, Server.observe_ident]
    rcases step.pc_next with rfl | ⟨next, rfl⟩
    · simp [LoopPc.handler] at here
    · exact inv.owner id other (handler.trans here)
  · rw [Server.observe_loop] at here
    subst here
    rcases step.pc_next with stop | ⟨_, stop⟩ <;> simp at stop
  · rw [Server.observe_net, Server.observe_ident, recvMap]
    exact inv.cache
  · rw [Server.observe_net, pool] at member
    exact (inv.pool work member).mono (by simp) same
  · rw [Server.observe_worker] at here
    exact (inv.working i work here).mono (by simp) same
  · rw [Server.observe_net] at member
    exact (inv.queue entry (step.sendQueue_sublist.subset member)).mono (by simp) same
  · rw [Server.observe_loop] at here
    refine Answers.mono (s := s) ?_ (by simp) same
    cases step with
    | popEntry popped =>
      cases here
      obtain ⟨entry, member, sameId, data⟩ := qSendPopFirst_entry popped
      rw [data, ← sameId]
      exact inv.queue entry member
    | sendSome | sendAgain =>
      simp only [LoopPc.epollout.injEq] at here
      obtain ⟨rfl, rfl, next⟩ := here
      split at next
      · cases next
        exact inv.sending _ _ _ _ _ at_
      · simp at next
    | _ => simp at here
  · rw [handed]
    exact inv.handed
  · intro byte here
    rw [handed]
    cases step with
    | @sendSome sendbuf ptr buflen count =>
      rcases List.mem_append.mp member with old | new
      · exact inv.sent conn' bytes old byte here
      · simp only [open_, Option.toList_some, List.map_cons, List.map_nil, List.mem_singleton,
          Prod.mk.injEq] at new
        obtain ⟨rfl, rfl⟩ := new
        obtain ⟨other, owner', answers⟩ := inv.sending _ _ _ _ _ at_
        cases owner.symm.trans owner'
        exact answers byte (List.mem_of_mem_drop (List.mem_of_mem_take here))
    | @rearm ok => cases ok <;> exact inv.sent conn' bytes member byte here
    | _ => exact inv.sent conn' bytes member byte here

end Handler

theorem LoopAct.tagged_data {act : LoopAct UInt8} {owner : Option Nat} {bytes : List TByte}
    (same : act.tagged owner = .recv (.data bytes)) : ∀ cell ∈ bytes, cell.conn = owner := by
  unfold LoopAct.tagged at same
  split at same
  · simp at same
  · cases same
    rintro cell member
    obtain ⟨_, _, rfl⟩ := List.mem_map.mp member
    rfl
  all_goals simp at same

theorem IsolationInv.step_lookup (inv : IsolationInv s) (tableInv : TableInv s) {id : ConnId} {fd : Int}
    {loop : LoopPc TByte RByte} (found : s.net.conntable id = some fd)
    (begins : loop = .epollin id fd .firstRecv ∨ loop = .epollout id fd .pop) :
    IsolationInv { s with loop := loop } := by
  refine { inv with owner := ?_, buffer := ?_, sending := ?_ }
  · intro other fd' handler
    have here : (id, fd) = (other, fd') := by
      rcases begins with rfl | rfl <;> exact Option.some.inj handler
    cases here
    exact (tableInv.entry id fd found).2.2
  · rintro other fd' pc rfl conn _
    rcases begins with here | here <;> cases here
    trivial
  · rintro other fd' sendbuf ptr buflen rfl
    rcases begins with here | here <;> cases here

theorem IsolationInv.step_loop (inv : IsolationInv s) (tableInv : TableInv s) {act : LoopAct UInt8}
    {net : NetSvr TByte RByte} {loop : LoopPc TByte RByte} {event : LoopEvent TByte RByte}
    (step : LoopStep true s.net s.loop (act.tagged s.handlerOwner) net loop event) :
    IsolationInv (({ s with net := net, loop := loop } : Server).observe event) := by
  generalize at_ : s.loop = pc at step
  generalize tagged : act.tagged s.handlerOwner = tact at step
  cases step with
  | inMissing | outMissing =>
    exact inv.shrink rfl rfl rfl (fun _ _ _ => rfl) (Or.inr rfl) rfl (List.Subset.refl _)
      (fun _ _ here => Or.inl here) (.refl _)
  | inFound found => exact inv.step_lookup tableInv found (Or.inl rfl)
  | outFound found => exact inv.step_lookup tableInv found (Or.inr rfl)
  | epollin step =>
    refine inv.step_epollin tableInv at_ step fun bytes data cell member => ?_
    rw [LoopAct.tagged_data (tagged.trans data) cell member, Server.handlerOwner, at_]
    rfl
  | epollout step => exact inv.step_epollout tableInv at_ step

theorem IsolationInv.step {act : ServerAct} (inv : IsolationInv s) (tableInv : TableInv s)
    (fresh : freshId act s) (run : Server.step act s = some s') : IsolationInv s' := by
  cases Server.step_spec run with
  | @accept fd _ free =>
    refine inv.shrink rfl rfl rfl (fun id other handler => ?_) (Or.inl rfl) rfl (List.Subset.refl _)
      (fun _ _ here => Or.inl here) (.refl _)
    have open_ := (tableInv.handling id other handler).1
    have different : other ≠ fd := by
      rintro rfl
      simp [free] at open_
    simp [different]
  | insert at_ inserted =>
    refine inv.step_insert fun carries => ?_
    rcases fresh _ (by rw [at_]; rfl) _ inserted with new | unused
    · have known := inv.known tableInv carries
      simp [new] at known
    · exact unused carries
  | dispatch idle _ loop =>
    refine inv.shrink rfl rfl rfl (fun _ _ _ => rfl) (Or.inr ?_) rfl (List.Subset.refl _)
      (fun _ _ here => Or.inl here) (.refl _)
    rcases loop with rfl | rfl <;> rfl
  | loop _ step => exact inv.step_loop tableInv step
  | sendPurge =>
    exact inv.shrink rfl rfl rfl (fun _ _ _ => rfl) (Or.inl rfl) rfl (List.Subset.refl _)
      (fun _ _ here => Or.inl here) (qSendRemoveAll_sublist ..)
  | @take i work later idle pool =>
    refine inv.shrink rfl rfl rfl (fun _ _ _ => rfl) (Or.inl rfl) rfl ?_ (fun j other here => ?_) (.refl _)
    · rw [pool]
      exact List.subset_cons_self ..
    · by_cases same : j = i
      · simp only [same, Function.update_self, WorkerPc.proc.injEq] at here
        rw [pool, here]
        exact Or.inr (List.mem_cons_self ..)
      · exact Or.inl (by simpa [same] using here)
  | respond at_ => exact inv.step_respond at_
  | @finish i | @signal i =>
    refine inv.shrink rfl rfl rfl (fun _ _ _ => rfl) (Or.inl rfl) rfl (List.Subset.refl _)
      (fun j other here => Or.inl ?_) (.refl _)
    by_cases same : j = i
    · simp [same] at here
    · simpa [same] using here
  | _ =>
    exact inv.shrink rfl rfl rfl (fun _ _ _ => rfl) (Or.inl rfl) rfl (List.Subset.refl _)
      (fun _ _ here => Or.inl here) (.refl _)

/-- As long as no id comes back while something still goes by it, requests consist of bytes of their
own connection, and what is sent on a connection answers its own requests. -/
theorem connections_isolated (reach : Reach Server.step freshId Server.init s) :
    (∀ conn work, (conn, work) ∈ s.handed → ∀ cell ∈ work.data, cell.conn = some conn) ∧
      ∀ conn bytes, (conn, bytes) ∈ s.sent → ∀ byte ∈ bytes, (conn, byte.req) ∈ s.handed := by
  have inv := reach.invariant_of (K := TableInv) (P := IsolationInv) (fun _ reach => tableInv_reach reach)
    isolationInv_init fun _ _ _ tableInv _ inv fresh run => inv.step tableInv fresh run
  exact ⟨inv.handed, inv.sent⟩

section Reuse

variable {n : Nat} {act : ServerAct} {id : ConnId}

/-- Only the threads of the pool ever have a request. -/
def ThreadsInv (n : Nat) (s : Server) : Prop := ∀ i, n ≤ i → s.worker i = .idle

theorem ThreadsInv.step (inv : ThreadsInv n s) (inside : ∀ i, act = .take i → i < n) (step : ServerStep s act s') :
    ThreadsInv n s' := by
  intro i beyond
  have idle := inv i beyond
  cases step with
  | loop => simpa using idle
  | @take j =>
    have inside := inside j rfl
    exact (Function.update_of_ne (by omega) ..).trans idle
  | @finish j _ at_ | @respond j _ _ _ at_ | @signal j at_ =>
    have different : i ≠ j := by
      rintro rfl
      simp [idle] at at_
    exact (Function.update_of_ne different ..).trans idle
  | _ => exact idle

/-- The connection that the send thread has looked up, or is giving up. -/
def SendPc.lookedUp : SendPc → Option ConnId
  | .modify connid _ | .purge connid | .remove connid => some connid
  | _ => none

/-- `conn_insert` gives a new connection an id that was never used, or that nothing goes by any more, the send
thread included. -/
def quietId : ServerAct → Server → Prop
  | .insert draws, s => ∀ clientFd ∈ s.listen.inserting, ∀ drawn ∈ connInsert s.net.conntable clientFd draws,
      s.ident drawn.1 = none ∨ ¬ Carries s drawn.1 ∧ s.send.lookedUp ≠ some drawn.1
  | _, _ => True

theorem freshId_of_quietId (quiet : quietId act s) : freshId act s := by
  cases act with
  | insert draws => exact fun clientFd inserting drawn member => (quiet clientFd inserting drawn member).imp_right And.left
  | _ => trivial

/-- Nothing goes by the id in a server that has `n` threads in its pool. -/
def Unused (n : Nat) (s : Server) (id : ConnId) : Prop :=
  (s.net.recvMap id).isNone ∧ (∀ work ∈ s.net.pool, work.connid ≠ id) ∧
    (∀ i < n, ∀ work ∈ (s.worker i).work, work.connid ≠ id) ∧ (∀ entry ∈ s.net.sendQueue, entry.1 ≠ id) ∧
    (∀ handler ∈ s.loop.handler, handler.1 ≠ id) ∧ s.send.lookedUp ≠ some id

instance (n : Nat) (s : Server) (id : ConnId) : Decidable (Unused n s id) := inferInstanceAs (Decidable (_ ∧ _))

theorem Unused.not_carries (unused : Unused n s id) (threads : ThreadsInv n s) : ¬ Carries s id := by
  obtain ⟨cache, pool, workers, queue, handler, _⟩ := unused
  rintro (kept | @⟨work, member, same⟩ | @⟨i, work, at_, same⟩ | @⟨entry, member, same⟩ | @⟨fd, at_⟩)
  · simp [Option.isNone_iff_eq_none.mp cache] at kept
  · exact pool work member same
  · by_cases inside : i < n
    · exact workers i inside work (by rw [at_]; rfl) same
    · simp [threads i (Nat.not_lt.mp inside)] at at_
  · exact queue entry member same
  · exact handler (id, fd) at_ rfl

/-- The pool has `n` threads, and an id comes back when nothing goes by it any more. -/
def reusesId (n : Nat) : ServerAct → Server → Prop
  | .insert draws, s => ∀ clientFd ∈ s.listen.inserting, ∀ drawn ∈ connInsert s.net.conntable clientFd draws,
      s.ident drawn.1 = none ∨ Unused n s drawn.1
  | .take i, _ => i < n
  | _, _ => True

instance (n : Nat) : ∀ (act : ServerAct) (s : Server), Decidable (reusesId n act s)
  | .insert _, _ => inferInstanceAs (Decidable (∀ clientFd ∈ _, ∀ drawn ∈ _, _ ∨ _))
  | .take i, _ => inferInstanceAs (Decidable (i < n))
  | .accept _, _ | .add _, _ | .listenRemove, _ | .wait _, _ | .dispatch, _ | .loop _, _ | .send _, _ | .wake, _
  | .respond _ _, _ | .signal _, _ => inferInstanceAs (Decidable True)

theorem reusesId.take {i : Nat} (allowed : reusesId n act s) (takes : act = .take i) : i < n := by
  subst takes
  exact allowed

theorem quietId_of_reusesId (threads : ThreadsInv n s) (allowed : reusesId n act s) : quietId act s := by
  cases act with
  | insert draws =>
    exact fun clientFd inserting drawn member => (allowed clientFd inserting drawn member).imp_right fun unused =>
      ⟨unused.not_carries threads, unused.2.2.2.2.2⟩
  | _ => trivial

theorem threadsInv_reach (reach : Reach Server.step (reusesId n) Server.init s) : ThreadsInv n s :=
  reach.invariant (P := ThreadsInv n) (fun _ _ => rfl)
    fun _ _ _ inv allowed run => inv.step (fun _ => allowed.take) (Server.step_spec run)

theorem freshId_reach (reach : Reach Server.step (reusesId n) Server.init s) :
    Reach Server.step freshId Server.init s :=
  reach.mono_of (fun _ => threadsInv_reach) fun _ _ threads allowed =>
    freshId_of_quietId (quietId_of_reusesId threads allowed)

end Reuse

/-- A client connects, is answered and leaves. -/
def visit : List ServerAct :=
  connects 5 7 ++ requests 5 emptyPacket ++ answers 0 ++ transmits 5 10 ++ disconnects 5

/-- The first client is answered and gone when the second one is given its id. -/
def reusedIdRun : List ServerAct :=
  visit ++ connects 5 7 ++ requests 5 emptyPacket ++ answers 1 ++ transmits 5 10

theorem connections_isolated_reused : ∃ s,
    exec (guarded Server.step (reusesId 2)) reusedIdRun Server.init = some s ∧
      s.ident 7 = some 1 ∧ s.sent.map Prod.fst = [0, 1] ∧
      ∀ conn bytes, (conn, bytes) ∈ s.sent → ∀ byte ∈ bytes, (conn, byte.req) ∈ s.handed := by
  have ends : ∃ s, exec (guarded Server.step (reusesId 2)) reusedIdRun Server.init = some s ∧
      s.ident 7 = some 1 ∧ s.sent.map Prod.fst = [0, 1] := exec_ends (by decide +kernel)
  obtain ⟨s, run, owner, sent⟩ := ends
  exact ⟨s, run, owner, sent, (connections_isolated (freshId_reach (reach_of_exec_guarded run))).2⟩

/-- A client closes its connection while a worker has its request, and the next one is given the id. -/
def successorRun : List ServerAct :=
  connects 5 7 ++ requests 5 emptyPacket ++ [.take 0] ++ disconnects 5 ++ connects 5 7 ++
    [.respond 0 (some (emptyPacket, 0)), .signal 0]

/-- With the id of the first connection, the second one is sent the response to the first. -/
theorem connections_not_isolated : ∃ s, Reach Server.step anyStep Server.init s ∧
    ∃ sent ∈ s.sent, ∃ byte ∈ sent.2, (sent.1, byte.req) ∉ s.handed := by
  have ends : ∃ s, exec Server.step (successorRun ++ transmits 5 10) Server.init = some s ∧
      ∃ sent ∈ s.sent, ∃ byte ∈ sent.2, (sent.1, byte.req) ∉ s.handed := exec_ends (by decide +kernel)
  obtain ⟨s, run, stray⟩ := ends
  exact ⟨s, reach_of_exec run, stray⟩

end SvrNet

import SvrNet.DeadFront
import Mathlib.Data.List.Nodup

namespace SvrNet
open CData StepSystem

/-- The one path on which the server stops serving a connection is that its peer closed it: no
`recv` fails for good, no `EPOLL_CTL_ADD` fails, and `EPOLL_CTL_MOD` fails in the send thread only
for connections that have left the table. Responses are pushed for connections that are not past
their purge, and no id comes back while a handler runs for it or the send thread is removing it. -/
def closedByPeer : ServerAct → Server → Prop
  | .insert draws, s => ∀ clientFd ∈ s.listen.inserting, ∀ drawn ∈ connInsert s.net.conntable clientFd draws,
      (∀ handler ∈ s.loop.handler, handler.1 ≠ drawn.1) ∧ s.send.dropping ≠ some drawn.1
  | .add ok, _ => ok = true
  | .loop (.recv (.fail errno)), _ => errno.again = true
  | .send ok, s => ∀ modifying ∈ s.send.modifying, ok = false → s.net.conntable modifying.1 = none
  | .respond i (some _), s => ∀ work ∈ (s.worker i).work,
      (s.net.conntable work.connid).isSome ∧ s.loop.dropping ≠ some work.connid
  | _, _ => True

instance : ∀ (act : ServerAct) (s : Server), Decidable (closedByPeer act s)
  | .insert _, _ => inferInstanceAs (Decidable (∀ clientFd ∈ _, ∀ drawn ∈ _, (∀ handler ∈ _, _) ∧ _))
  | .add ok, _ => inferInstanceAs (Decidable (ok = true))
  | .loop (.recv (.fail errno)), _ => inferInstanceAs (Decidable (errno.again = true))
  | .send ok, _ => inferInstanceAs (Decidable (∀ modifying ∈ _, ok = false → _ = none))
  | .respond _ (some _), _ => inferInstanceAs (Decidable (∀ work ∈ _, _ ∧ _ ≠ some _))
  | .respond _ none, _ | .accept _, _ | .listenRemove, _ | .wait _, _ | .dispatch, _ | .loop .tau, _
  | .loop (.recv (.data _)), _ | .loop (.recv .closed), _ | .loop (.send _), _ | .loop (.ctl _), _ | .wake, _
  | .take _, _ | .signal _, _ => inferInstanceAs (Decidable True)

/-- What is left of a connection that was closed: nothing. -/
structure TornDown (s : Server) (id : ConnId) (conn : Nat) : Prop where
  table : s.net.conntable id = none
  queue : Unqueued s.net.sendQueue id
  cache : s.net.recvMap id = none
  closed : s.closed.count conn = 1

variable {s s' : Server}

structure TeardownInv (s : Server) : Prop where
  owner : ∀ id fd, s.loop.handler = some (id, fd) → s.fds fd = s.ident id
  listed : ∀ id fd, s.loop.handler = some (id, fd) →
    s.loop.unlisted = some fd ∨ s.net.conntable id = some fd
  served : ∀ fd, (s.fds fd).isSome → (∃ id, s.net.conntable id = some fd) ∨ s.listen = .insert fd ∨
    s.loop.unlisted = some fd
  stopped : ∀ conn ∈ s.stopped, conn ∈ s.closed ∨
    ∃ fd, s.loop.closingFd = some fd ∧ s.fds fd = some conn
  gone : ∀ id conn, s.ident id = some conn → s.net.conntable id = none →
    conn ∈ s.closed ∨ ∃ fd, s.loop.unlisted = some fd ∧ s.fds fd = some conn
  queue : LiveQueue s
  purged : ∀ id fd, s.loop = .epollin id fd .drop → Unqueued s.net.sendQueue id
  cache : ∀ id, (s.net.recvMap id).isSome →
    (s.net.conntable id).isSome ∨ ∃ fd, s.loop = .epollin id fd .forget
  looked : ∀ id fd, s.send = .modify id fd → (s.ident id).isSome
  removing : ∀ id, s.send = .purge id ∨ s.send = .remove id →
    s.net.conntable id = none ∧ (s.ident id).isSome
  registers : ∀ fd id, s.listen ≠ .remove fd id

theorem teardownInv_init : TeardownInv Server.init := by
  constructor <;> simp [Server.init, LoopPc.handler, LiveQueue]

/-- Steps that open, close and remove nothing, and do not concern a connection that is being closed. -/
theorem TeardownInv.quiet (inv : TeardownInv s) (table : s'.net.conntable = s.net.conntable)
    (fds : s'.fds = s.fds) (ident : s'.ident = s.ident) (closed : s'.closed = s.closed)
    (stopped : ∀ conn ∈ s'.stopped, conn ∈ s.stopped ∨ conn ∈ s.closed ∨
      ∃ fd, s.loop.closingFd = some fd ∧ s.fds fd = some conn)
    (queue : s'.net.sendQueue.Sublist s.net.sendQueue)
    (cache : ∀ id, (s'.net.recvMap id).isSome → (s.net.recvMap id).isSome ∨ (s.net.conntable id).isSome)
    (listen : (∀ fd, s.listen = .insert fd → s'.listen = .insert fd) ∧ ∀ fd id, s'.listen ≠ .remove fd id)
    (looked : ∀ id fd, s'.send = .modify id fd → (s.ident id).isSome)
    (removing : ∀ id, s'.send = .purge id ∨ s'.send = .remove id →
      s.net.conntable id = none ∧ (s.ident id).isSome)
    (loop : s'.loop = s.loop ∨ s.loop.closingFd = none ∧ s'.loop.closingFd = none ∧
      ∀ id fd, s'.loop.handler = some (id, fd) → s.loop.handler = some (id, fd) ∨
        s.fds fd = s.ident id ∧ s.net.conntable id = some fd) : TeardownInv s' where
  owner := fun id fd at_ => by
    rw [fds, ident]
    rcases loop with same | ⟨_, _, begins⟩
    · exact inv.owner id fd (same ▸ at_)
    · exact (begins id fd at_).elim (inv.owner id fd) And.left
  listed := fun id fd at_ => by
    rw [table]
    rcases loop with same | ⟨before, after, begins⟩
    · rw [same] at at_ ⊢
      exact inv.listed id fd at_
    · right
      rcases begins id fd at_ with old | ⟨_, found⟩
      · simpa [LoopPc.unlisted_of_open before] using inv.listed id fd old
      · exact found
  served := fun fd open_ => by
    rw [fds] at open_
    rw [table]
    rcases inv.served fd open_ with found | inserting | gone
    · exact Or.inl found
    · exact Or.inr (Or.inl (listen.1 fd inserting))
    · rcases loop with same | ⟨before, _, _⟩
      · exact Or.inr (Or.inr (same ▸ gone))
      · simp [LoopPc.unlisted_of_open before] at gone
  stopped := fun conn member => by
    rw [closed, fds]
    have past : conn ∈ s.closed ∨ ∃ fd, s.loop.closingFd = some fd ∧ s.fds fd = some conn :=
      (stopped conn member).elim (inv.stopped conn) id
    rcases loop with same | ⟨before, _, _⟩
    · rwa [same]
    · exact Or.inl (by simpa [before] using past)
  gone := fun id conn owner missing => by
    rw [ident] at owner
    rw [table] at missing
    rw [closed, fds]
    have past := inv.gone id conn owner missing
    rcases loop with same | ⟨before, _, _⟩
    · rwa [same]
    · exact Or.inl (by simpa [LoopPc.unlisted_of_open before] using past)
  queue := inv.queue.shrink queue table
  purged := fun id fd at_ entry member => by
    rcases loop with same | ⟨_, after, _⟩
    · exact inv.purged id fd (same ▸ at_) entry (queue.subset member)
    · simp [at_, LoopPc.closingFd, InPc.closing] at after
  cache := fun id kept => by
    rw [table]
    rcases cache id kept with old | found
    · rcases inv.cache id old with found | ⟨fd, at_⟩
      · exact Or.inl found
      · rcases loop with same | ⟨before, _, _⟩
        · exact Or.inr ⟨fd, same.trans at_⟩
        · simp [at_, LoopPc.closingFd, InPc.closing] at before
    · exact Or.inl found
  looked := by
    rw [ident]
    exact looked
  removing := by
    rw [table, ident]
    exact removing
  registers := listen.2

section Handler

variable {connid : ConnId} {fd : Int} {pc : InPc TByte}

/-- The steps of a handler that closes its connection, up to `close` itself. -/
theorem TeardownInv.closing (inv : TeardownInv s) {next : InPc TByte} (at_ : s.loop = .epollin connid fd pc)
    (loop : s'.loop = .epollin connid fd next) (closing : next.closing = true)
    (fds : s'.fds = s.fds) (ident : s'.ident = s.ident) (closed : s'.closed = s.closed)
    (listen : s'.listen = s.listen) (send : s'.send = s.send)
    (stopped : ∀ conn ∈ s'.stopped, conn ∈ s.stopped ∨ s.fds fd = some conn)
    (others : ∀ id, id ≠ connid → s'.net.conntable id = s.net.conntable id)
    (own : s'.net.conntable connid = s.net.conntable connid ∧ s'.loop.unlisted = s.loop.unlisted ∨
      s'.net.conntable connid = none ∧ s.loop.unlisted = none ∧ s'.loop.unlisted = some fd)
    (queue : LiveQueue s') (purged : next = .drop → Unqueued s'.net.sendQueue connid)
    (cache : ∀ id, (s'.net.recvMap id).isSome → (s'.net.conntable id).isSome ∨ id = connid ∧ next = .forget) :
    TeardownInv s' where
  owner := fun id other handler => by
    rw [fds, ident]
    rw [loop] at handler
    exact inv.owner id other (by rw [at_]; exact handler)
  listed := fun id other handler => by
    rw [loop] at handler
    cases handler
    rcases own with ⟨same, still⟩ | ⟨_, _, gone⟩
    · rw [same, still]
      exact inv.listed connid fd (by rw [at_]; rfl)
    · exact Or.inl gone
  served := fun other open_ => by
    rw [fds] at open_
    rw [listen]
    rcases inv.served other open_ with ⟨id, found⟩ | inserting | gone
    · by_cases here : id = connid
      · subst here
        rcases own with ⟨same, _⟩ | ⟨_, before, gone⟩
        · exact Or.inl ⟨id, same.trans found⟩
        · have entry : s.net.conntable id = some fd := by
            simpa [before] using inv.listed id fd (by rw [at_]; rfl)
          cases found.symm.trans entry
          exact Or.inr (Or.inr gone)
      · exact Or.inl ⟨id, (others id here).trans found⟩
    · exact Or.inr (Or.inl inserting)
    · rcases own with ⟨_, still⟩ | ⟨_, before, _⟩
      · exact Or.inr (Or.inr (still.trans gone))
      · simp [before] at gone
  stopped := fun conn member => by
    rw [closed, fds, loop]
    have closes : (LoopPc.epollin connid fd next : LoopPc TByte RByte).closingFd = some fd := by
      rw [LoopPc.closingFd, closing, if_pos rfl]
    rcases stopped conn member with old | here
    · refine (inv.stopped conn old).imp_right fun ⟨other, before, owner⟩ => ⟨fd, closes, ?_⟩
      rw [at_, LoopPc.closingFd] at before
      split at before
      · cases before
        exact owner
      · simp at before
    · exact Or.inr ⟨fd, closes, here⟩
  gone := fun id conn owner missing => by
    rw [ident] at owner
    rw [closed, fds]
    by_cases here : id = connid
    · subst here
      rcases own with ⟨same, still⟩ | ⟨_, _, gone⟩
      · rw [still]
        exact inv.gone id conn owner (same ▸ missing)
      · exact Or.inr ⟨fd, gone, (inv.owner id fd (by rw [at_]; rfl)).trans owner⟩
    · have past := inv.gone id conn owner (others id here ▸ missing)
      rcases own with ⟨_, still⟩ | ⟨_, before, _⟩
      · rwa [still]
      · exact Or.inl (by simpa [before] using past)
  queue := queue
  purged := fun id other here => by
    cases loop.symm.trans here
    exact purged rfl
  cache := fun id kept => by
    refine (cache id kept).imp_right fun ⟨same, here⟩ => ⟨fd, ?_⟩
    rw [loop, same, here]
  looked := by
    rw [send, ident]
    exact inv.looked
  removing := fun id at_send => by
    rw [send] at at_send
    rw [ident]
    obtain ⟨missing, known⟩ := inv.removing id at_send
    refine ⟨?_, known⟩
    by_cases here : id = connid
    · subst here
      rcases own with ⟨same, _⟩ | ⟨none, _⟩
      · exact same.trans missing
      · exact none
    · exact (others id here).trans missing
  registers := by
    rw [listen]
    exact inv.registers

/-- Unless a handler is about to forget it, what is kept belongs to a connection of the table. -/
theorem TeardownInv.cached_listed (inv : TeardownInv s) {id : ConnId} (elsewhere : ∀ fd, s.loop ≠ .epollin id fd .forget)
    (kept : (s.net.recvMap id).isSome) : (s.net.conntable id).isSome := by
  rcases inv.cache id kept with found | ⟨fd, here⟩
  · exact found
  · exact absurd here (elsewhere fd)

theorem TeardownInv.close (inv : TeardownInv s)
    (at_ : s.loop = .epollin connid fd .close) :
    TeardownInv (({ s with loop := .idle } : Server).observe (.closed fd)) where
  owner := by simp [Server.observe, LoopPc.handler]
  listed := by simp [Server.observe, LoopPc.handler]
  served := fun other open_ => by
    have different : other ≠ fd := by
      rintro rfl
      simp [Server.observe] at open_
    have before : (s.fds other).isSome := by simpa [Server.observe, different] using open_
    rcases inv.served other before with found | inserting | gone
    · exact Or.inl found
    · exact Or.inr (Or.inl inserting)
    · rw [at_] at gone
      cases gone
      exact absurd rfl different
  stopped := fun conn member => by
    rcases inv.stopped conn member with past | ⟨other, closes, owner⟩
    · exact Or.inl (List.mem_append_left _ past)
    · rw [at_] at closes
      cases closes
      exact Or.inl (List.mem_append_right _ (by simp [owner]))
  gone := fun id conn owner missing => by
    rcases inv.gone id conn owner missing with past | ⟨other, gone, owner⟩
    · exact Or.inl (List.mem_append_left _ past)
    · rw [at_] at gone
      cases gone
      exact Or.inl (List.mem_append_right _ (by simp [owner]))
  queue := inv.queue
  purged := by simp [Server.observe]
  cache := fun id kept => by
    rcases inv.cache id kept with found | ⟨other, here⟩
    · exact Or.inl found
    · simp [at_] at here
  looked := inv.looked
  removing := inv.removing
  registers := inv.registers

variable {act : LoopAct TByte} {net : NetSvr TByte RByte} {loop : LoopPc TByte RByte}
  {event : LoopEvent TByte RByte}

/-- The steps of a handler for readable events before its peer has closed the connection. -/
theorem TeardownInv.step_serving (inv : TeardownInv s) (at_ : s.loop = .epollin connid fd pc)
    (step : InStep true s.net connid fd pc act net loop event) (serving : pc.closing = false)
    (stays : loop.closingFd = none) (quiet : ∀ s : Server, (s.observe event).fds = s.fds ∧
      (s.observe event).closed = s.closed ∧ (s.observe event).stopped = s.stopped) :
    TeardownInv (({ s with net := net, loop := loop } : Server).observe event) := by
  obtain ⟨fds, closed, stopped⟩ := quiet { s with net := net, loop := loop }
  have before : s.loop.closingFd = none := by
    rw [at_, LoopPc.closingFd, serving]
    rfl
  have listed : s.net.conntable connid = some fd := by
    have here := inv.listed connid fd (by rw [at_]; rfl)
    simpa [LoopPc.unlisted_of_open before] using here
  have table : net.conntable = s.net.conntable := by
    rcases (LoopStep.epollin step).conntable_next with same | ⟨_, _, drops, _, _⟩
    · exact same
    · cases drops
      simp [InPc.closing] at serving
  refine inv.quiet (by simpa using table) fds (by simp) closed (fun conn member => Or.inl (stopped ▸ member))
    (by simpa using (LoopStep.epollin step).sendQueue_sublist) (fun id kept => ?_)
    ⟨fun other inserting => by simpa using inserting, by simpa using inv.registers⟩
    (by simpa using inv.looked) (by simpa using inv.removing) (Or.inr ⟨before, by simpa using stays, ?_⟩)
  · by_cases here : id = connid
    · exact Or.inr (here ▸ Option.isSome_iff_exists.mpr ⟨fd, listed⟩)
    · rw [Server.observe_net, step.recvMap_other here] at kept
      exact Or.inl kept
  · rw [Server.observe_loop]
    intro id other handler
    rcases step.pc_next with rfl | ⟨fault, rfl⟩ | ⟨next, rfl⟩
    · simp [LoopPc.handler] at handler
    · simp [LoopPc.handler] at handler
    · exact Or.inl (by rw [at_]; exact handler)

theorem TeardownInv.step_epollin (inv : TeardownInv s) (at_ : s.loop = .epollin connid fd pc)
    (step : InStep true s.net connid fd pc act net loop event)
    (soft : ∀ errno : Errno, act = .recv (.fail errno) → errno.again = true) :
    TeardownInv (({ s with net := net, loop := loop } : Server).observe event) := by
  have whole := step
  cases step with
  | firstClosed | recvClosed =>
    refine inv.closing at_ rfl rfl rfl rfl rfl rfl rfl (fun conn member => ?_) (fun _ _ => rfl)
      (Or.inl ⟨rfl, by rw [at_]; rfl⟩) inv.queue (by simp) (fun id kept => ?_)
    · simpa [Server.observe] using member
    · exact Or.inl (inv.cached_listed (by simp [at_]) kept)
  | firstError failed | recvError failed => simp [soft _ rfl] at failed
  | purge =>
    refine inv.closing at_ rfl rfl rfl rfl rfl rfl rfl (fun _ member => Or.inl member) (fun _ _ => rfl)
      (Or.inl ⟨rfl, by rw [at_]; rfl⟩) (inv.queue.shrink (qSendRemoveAll_sublist ..) rfl)
      (fun _ entry member => by simpa using (List.mem_filter.mp member).2) (fun id kept => ?_)
    exact Or.inl (inv.cached_listed (by simp [at_]) kept)
  | drop =>
    refine inv.closing at_ rfl rfl rfl rfl rfl rfl rfl (fun _ member => Or.inl member)
      (fun id other => by simp [Server.observe, connRemove, other])
      (Or.inr ⟨by simp [Server.observe, connRemove], by rw [at_]; rfl, rfl⟩)
      (inv.queue.remove (inv.purged connid fd at_) (.refl _) rfl) (by simp) (fun id kept => ?_)
    by_cases here : id = connid
    · exact Or.inr ⟨here, rfl⟩
    · have found := inv.cached_listed (by simp [at_]) kept
      exact Or.inl (by simpa [Server.observe, connRemove, here] using found)
  | forget =>
    refine inv.closing at_ rfl rfl rfl rfl rfl rfl rfl (fun _ member => Or.inl member) (fun _ _ => rfl)
      (Or.inl ⟨rfl, by rw [at_]; rfl⟩) inv.queue (by simp) (fun id kept => ?_)
    by_cases here : id = connid
    · simp [Server.observe, mRecvRemove, here] at kept
    · rcases inv.cache id (by simpa [Server.observe, mRecvRemove, here] using kept) with found | ⟨other, forgets⟩
      · exact Or.inl found
      · rw [at_] at forgets
        cases forgets
        exact absurd rfl here
  | close => exact inv.close at_
  | findLong _ _ next =>
    refine inv.step_serving at_ whole rfl ?_ fun _ => ⟨rfl, rfl, rfl⟩
    rcases next with rfl | rfl <;> rfl
  | _ => exact inv.step_serving at_ whole rfl rfl fun _ => ⟨rfl, rfl, rfl⟩

end Handler

theorem LoopAct.tagged_fail {act : LoopAct UInt8} {owner : Option Nat} {errno : Errno}
    (same : act.tagged owner = .recv (.fail errno)) : act = .recv (.fail errno) := by
  unfold LoopAct.tagged at same
  split at same <;> simp_all

theorem TeardownInv.step_loop (inv : TeardownInv s) (tableInv : TableInv s) {act : LoopAct UInt8}
    {net : NetSvr TByte RByte} {loop : LoopPc TByte RByte} {event : LoopEvent TByte RByte}
    (step : LoopStep true s.net s.loop (act.tagged s.handlerOwner) net loop event)
    (byPeer : closedByPeer (.loop act) s) :
    TeardownInv (({ s with net := net, loop := loop } : Server).observe event) := by
  generalize at_ : s.loop = pc at step
  generalize tagged : act.tagged s.handlerOwner = tact at step
  cases step with
  | epollin step =>
    refine inv.step_epollin at_ step fun errno fails => ?_
    have same := LoopAct.tagged_fail (tagged.trans fails)
    subst same
    exact byPeer
  | epollout step =>
    have before : s.loop.closingFd = none := by
      rw [at_]
      rfl
    obtain ⟨fds, closed, stopped, _⟩ :=
      Server.observe_outgoing (s := { s with net := net, loop := loop }) step.outgoing
    refine inv.quiet (by simpa using step.net_next.1) fds (by simp) closed
      (fun conn member => Or.inl (stopped ▸ member))
      (by simpa using step.sendQueue_sublist)
      (fun id kept => Or.inl (by simpa [step.net_next.2.1] using kept))
      ⟨fun other inserting => by simpa using inserting, by simpa using inv.registers⟩
      (by simpa using inv.looked) (by simpa using inv.removing) (Or.inr ⟨before, ?_, ?_⟩)
    · rw [Server.observe_loop]
      rcases step.pc_next with rfl | ⟨next, rfl⟩ <;> rfl
    · rw [Server.observe_loop]
      intro id other handler
      rcases step.pc_next with rfl | ⟨next, rfl⟩
      · simp [LoopPc.handler] at handler
      · exact Or.inl (by rw [at_]; exact handler)
  | inMissing | outMissing =>
    exact inv.quiet rfl rfl rfl rfl (fun _ member => Or.inl member) (.refl _) (fun _ kept => Or.inl kept)
      ⟨fun _ inserting => inserting, inv.registers⟩ inv.looked inv.removing
      (Or.inr ⟨by rw [at_]; rfl, rfl, by simp [Server.observe, LoopPc.handler]⟩)
  | inFound found | outFound found =>
    refine inv.quiet rfl rfl rfl rfl (fun _ member => Or.inl member) (.refl _) (fun _ kept => Or.inl kept)
      ⟨fun _ inserting => inserting, inv.registers⟩ inv.looked inv.removing
      (Or.inr ⟨by rw [at_]; rfl, rfl, fun id other handler => ?_⟩)
    cases handler
    exact Or.inr ⟨(tableInv.entry _ _ found).2.2, found⟩

theorem TeardownInv.step_accept (inv : TeardownInv s) (tableInv : TableInv s) {fd : Int}
    (at_ : s.listen = .accept) (free : s.fds fd = none) :
    TeardownInv { s with
      fds := Function.update s.fds fd (some s.accepted)
      listen := .insert fd
      accepted := s.accepted + 1 } := by
  have kept : ∀ other, (s.fds other).isSome → Function.update s.fds fd (some s.accepted) other = s.fds other := by
    intro other open_
    have different : other ≠ fd := by
      rintro rfl
      simp [free] at open_
    rw [Function.update_of_ne different]
  have keptSome : ∀ other conn, s.fds other = some conn →
      Function.update s.fds fd (some s.accepted) other = some conn := fun other conn owner =>
    (kept other (by simp [owner])).trans owner
  refine { inv with owner := ?_, served := ?_, stopped := ?_, gone := ?_, registers := by simp }
  · intro id other handler
    exact (kept other (tableInv.handling id other handler).1).trans (inv.owner id other handler)
  · intro other open_
    by_cases same : other = fd
    · exact Or.inr (Or.inl (by rw [same]))
    · rcases inv.served other (by simpa [same] using open_) with found | inserting | gone
      · exact Or.inl found
      · simp [at_] at inserting
      · exact Or.inr (Or.inr gone)
  · intro conn member
    exact (inv.stopped conn member).imp_right fun ⟨other, closes, owner⟩ =>
      ⟨other, closes, keptSome other conn owner⟩
  · intro id conn owner missing
    exact (inv.gone id conn owner missing).imp_right fun ⟨other, gone, owner⟩ =>
      ⟨other, gone, keptSome other conn owner⟩

theorem TeardownInv.step_insert (inv : TeardownInv s) (tableInv : TableInv s) {fd : Int} {id : ConnId}
    (at_ : s.listen = .insert fd) (free : s.net.conntable id = none)
    (handled : ∀ other fd', s.loop.handler = some (other, fd') → other ≠ id) (dropping : s.send.dropping ≠ some id) :
    TeardownInv { s with
      net := { s.net with conntable := Function.update s.net.conntable id (some fd) }
      listen := .add fd id
      ident := Function.update s.ident id (s.fds fd) } := by
  have grows : ∀ other, (s.net.conntable other).isSome →
      (Function.update s.net.conntable id (some fd) other).isSome := by
    intro other found
    by_cases same : other = id <;> simp [same, found]
  refine ⟨fun other fd' handler => ?_, fun other fd' handler => ?_, fun fd' open_ => ?_, inv.stopped,
    fun other conn owner missing => ?_, fun entry member => grows _ (inv.queue entry member), inv.purged,
    fun other kept => ?_, fun other fd' sending => ?_, fun other sending => ?_, by simp⟩
  · have different := handled other fd' handler
    simpa [different] using inv.owner other fd' handler
  · have different := handled other fd' handler
    simpa [different] using inv.listed other fd' handler
  · rcases inv.served fd' open_ with ⟨other, found⟩ | inserting | gone
    · have different : other ≠ id := by
        rintro rfl
        simp [free] at found
      exact Or.inl ⟨other, by simpa [different] using found⟩
    · cases at_.symm.trans inserting
      exact Or.inl ⟨id, by simp⟩
    · exact Or.inr (Or.inr gone)
  · by_cases same : other = id
    · simp [same] at missing
    · exact inv.gone other conn (by simpa [same] using owner) (by simpa [same] using missing)
  · exact (inv.cache other kept).imp_left (grows other)
  · by_cases same : other = id
    · simpa [same] using (tableInv.inserting fd at_).2.1
    · simpa [same] using inv.looked other fd' sending
  · have different : other ≠ id := by
      rintro rfl
      rcases sending with purging | removing
      · exact dropping (by rw [purging]; rfl)
      · exact dropping (by rw [removing]; rfl)
    simpa [different] using inv.removing other sending

/-- Quiet steps of the other threads. -/
theorem TeardownInv.quiet_outside (inv : TeardownInv s) (table : s'.net.conntable = s.net.conntable)
    (fds : s'.fds = s.fds) (ident : s'.ident = s.ident) (closed : s'.closed = s.closed)
    (stopped : s'.stopped = s.stopped) (queue : s'.net.sendQueue.Sublist s.net.sendQueue)
    (cache : s'.net.recvMap = s.net.recvMap) (listen : s'.listen = s.listen)
    (looked : ∀ id fd, s'.send = .modify id fd → (s.ident id).isSome)
    (removing : ∀ id, s'.send = .purge id ∨ s'.send = .remove id →
      s.net.conntable id = none ∧ (s.ident id).isSome)
    (loop : s'.loop = s.loop) : TeardownInv s' :=
  inv.quiet table fds ident closed (fun _ member => Or.inl (stopped ▸ member)) queue
    (fun _ kept => Or.inl (cache ▸ kept)) ⟨fun _ inserting => listen.trans inserting, listen ▸ inv.registers⟩
    looked removing (Or.inl loop)

theorem TeardownInv.step_respond (inv : TeardownInv s) {i : Nat} {id : ConnId} {pack : List RByte}
    (alive : (s.net.conntable id).isSome) (unpurged : ∀ fd, s.loop ≠ .epollin id fd .drop) :
    TeardownInv { s with
      net := { s.net with sendQueue := qSendPush s.net.sendQueue id pack }
      worker := Function.update s.worker i .signal } := by
  refine { inv with queue := ?_, purged := ?_ }
  · intro entry member
    rcases mem_qSendPush member with old | ⟨owner, _⟩
    · exact inv.queue entry old
    · rw [owner]
      exact alive
  · intro other fd at_ entry member
    rcases mem_qSendPush member with old | ⟨owner, _⟩
    · exact inv.purged other fd at_ entry old
    · rw [owner]
      rintro rfl
      exact unpurged fd at_

theorem TeardownInv.step {act : ServerAct} (inv : TeardownInv s) (tableInv : TableInv s)
    (byPeer : closedByPeer act s) (run : Server.step act s = some s') : TeardownInv s' := by
  cases Server.step_spec run with
  | accept at_ free => exact inv.step_accept tableInv at_ free
  | insert at_ inserted =>
    obtain ⟨handled, dropping⟩ := byPeer _ (by rw [at_]; rfl) _ inserted
    exact inv.step_insert tableInv at_ (connInsert_spec inserted).1 (fun _ _ handler => handled _ handler) dropping
  | addFail => simp [closedByPeer] at byPeer
  | listenRemove at_ => exact absurd at_ (inv.registers _ _)
  | dispatch idle _ loop =>
    refine inv.quiet rfl rfl rfl rfl (fun _ member => Or.inl member) (.refl _) (fun _ kept => Or.inl kept)
      ⟨fun _ inserting => inserting, inv.registers⟩ inv.looked inv.removing (Or.inr ⟨by rw [idle]; rfl, ?_, ?_⟩)
    · rcases loop with rfl | rfl <;> rfl
    · rcases loop with rfl | rfl <;> simp [LoopPc.handler]
  | loop _ step => exact inv.step_loop tableInv step byPeer
  | @respond i work outdata outlen at_ =>
    obtain ⟨listed, dropping⟩ := byPeer work (by rw [at_]; rfl)
    exact inv.step_respond listed fun fd drops => dropping (by rw [drops]; rfl)
  | @add fd id at_ =>
    exact inv.quiet rfl rfl rfl rfl (fun _ member => Or.inl member) (.refl _) (fun _ kept => Or.inl kept)
      ⟨fun _ inserting => by simp [at_] at inserting, by simp⟩ inv.looked inv.removing (Or.inl rfl)
  | lookupFound at_ found =>
    refine inv.quiet_outside rfl rfl rfl rfl rfl (.refl _) rfl rfl (fun id fd sending => ?_) (by simp) rfl
    cases sending
    rw [← (tableInv.entry _ _ found).2.2]
    exact (tableInv.entry _ _ found).2.1
  | @modifyFail id fd at_ =>
    have missing : s.net.conntable id = none := byPeer (id, fd) (by rw [at_]; rfl) rfl
    have known := inv.looked id fd at_
    refine inv.quiet rfl rfl rfl rfl (fun conn member => ?_) (.refl _) (fun _ kept => Or.inl kept)
      ⟨fun _ inserting => inserting, inv.registers⟩ (by simp) (by simp [missing, known]) (Or.inl rfl)
    rcases List.mem_append.mp member with old | new
    · exact Or.inl old
    · right
      have owner : s.ident id = some conn := by simpa using new
      rcases inv.gone id conn owner missing with closed | ⟨other, gone, open_⟩
      · exact Or.inl closed
      · exact Or.inr ⟨other, LoopPc.closingFd_of_unlisted gone, open_⟩
  | @sendPurge ok id at_ =>
    exact inv.quiet_outside rfl rfl rfl rfl rfl (qSendRemoveAll_sublist ..) rfl rfl (by simp)
      (by simpa using inv.removing id (Or.inl at_)) rfl
  | @sendRemove ok id at_ =>
    have missing := (inv.removing id (Or.inr at_)).1
    have same : connRemove s.net.conntable id = s.net.conntable := by
      rw [connRemove, ← missing, Function.update_eq_self]
    exact inv.quiet_outside same rfl rfl rfl rfl (.refl _) rfl rfl (by simp) (by simp) rfl
  | @signal i =>
    refine inv.quiet_outside rfl rfl rfl rfl rfl (.refl _) rfl rfl (fun id fd sending => ?_)
      (fun id sending => ?_) rfl
    · refine inv.looked id fd ?_
      cases here : s.send <;> simp_all
    · refine inv.removing id ?_
      cases here : s.send <;> simp_all
  | wait | take | finish =>
    exact inv.quiet_outside rfl rfl rfl rfl rfl (.refl _) rfl rfl inv.looked inv.removing rfl
  | _ => exact inv.quiet_outside rfl rfl rfl rfl rfl (.refl _) rfl rfl (by simp) (by simp) rfl

/-- On runs in which connections are only closed by their peers, one that the server stopped serving
has been closed once when its handler is through, and it leaves nothing behind under its id; and an
open descriptor is in the table or on its way into or out of it. -/
theorem teardown_complete (reach : Reach Server.step closedByPeer Server.init s) :
    (∀ conn ∈ s.stopped, (∀ fd, s.loop.closingFd = some fd → s.fds fd ≠ some conn) → s.closed.count conn = 1) ∧
      (∀ id conn, s.ident id = some conn → conn ∈ s.stopped →
        (∀ fd, s.loop.closingFd = some fd → s.fds fd ≠ some conn) → TornDown s id conn) ∧
      ∀ fd, (s.fds fd).isSome →
        (∃ id, s.net.conntable id = some fd) ∨ s.listen = .insert fd ∨ s.loop.unlisted = some fd := by
  have tableInv := tableInv_reach reach
  have numbers := numberInv_reach reach
  have inv := reach.invariant_of (K := TableInv) (P := TeardownInv) (fun _ reach => tableInv_reach reach)
    teardownInv_init fun _ _ _ tableInv _ inv byPeer run => inv.step tableInv byPeer run
  have closed : ∀ conn ∈ s.stopped, (∀ fd, s.loop.closingFd = some fd → s.fds fd ≠ some conn) → conn ∈ s.closed := by
    intro conn stopped finished
    rcases inv.stopped conn stopped with past | ⟨fd, closes, open_⟩
    · exact past
    · exact absurd open_ (finished fd closes)
  have once : ∀ conn ∈ s.closed, s.closed.count conn = 1 := List.nodup_iff_count_eq_one.mp numbers.once
  refine ⟨fun conn stopped finished => once conn (closed conn stopped finished),
    fun id conn owner stopped finished => ?_, inv.served⟩
  have past := closed conn stopped finished
  have missing : s.net.conntable id = none := by
    cases entry : s.net.conntable id with
    | none => rfl
    | some fd =>
      have open_ := (tableInv.entry id fd entry).2.2.trans owner
      exact absurd past (numbers.known fd conn open_).2
  refine ⟨missing, ?_, ?_, once conn past⟩
  · rintro entry member rfl
    have live := inv.queue entry member
    simp [missing] at live
  · cases kept : s.net.recvMap id with
    | none => rfl
    | some data =>
      rcases inv.cache id (by simp [kept]) with found | ⟨fd, forgets⟩
      · simp [missing] at found
      · have open_ := (inv.owner id fd (by rw [forgets]; rfl)).trans owner
        exact absurd open_ (finished fd (by rw [forgets]; rfl))

/-- A client sends a request and half of another one, then closes its connection; the response to
its request is never sent. The next client is given its descriptor and its id, and parts as well. -/
def partedRun : List ServerAct :=
  connects 5 7 ++
    [.wait [(5, true, false)], .dispatch, .loop .tau, .loop (.recv (.data (emptyPacket ++ [0, 0, 1]))),
      .loop .tau, .loop .tau, .loop .tau, .loop .tau, .loop .tau, .loop (.recv (.fail .eagain)), .loop .tau] ++
    answers 0 ++ disconnects 5 ++ connects 5 7 ++ requests 5 emptyPacket ++ disconnects 5

theorem teardown_complete_parted : ∃ s,
    exec (guarded Server.step closedByPeer) partedRun Server.init = some s ∧ s.closed.count 0 = 1 ∧ TornDown s 7 1 := by
  have ends : ∃ s, exec (guarded Server.step closedByPeer) partedRun Server.init = some s ∧
      s.ident 7 = some 1 ∧ (0 ∈ s.stopped ∧ 1 ∈ s.stopped) ∧ s.loop.closingFd = none := exec_ends (by decide +kernel)
  obtain ⟨s, run, owner, ⟨first, second⟩, finished⟩ := ends
  obtain ⟨closed, tornDown, _⟩ := teardown_complete (reach_of_exec_guarded run)
  exact ⟨s, run, closed 0 first (by simp [finished]), tornDown 7 1 owner second (by simp [finished])⟩

/-- When `EPOLL_CTL_ADD` fails, the accepted descriptor stays open with no entry in the table. -/
theorem teardown_incomplete : ∃ s fd, Reach Server.step anyStep Server.init s ∧ (s.fds fd).isSome ∧
    (∀ id, s.net.conntable id ≠ some fd) ∧ s.listen = .accept ∧ s.loop.unlisted = none := by
  have ends : ∃ s, exec Server.step [.accept 5, .insert [7], .add false, .listenRemove] Server.init = some s ∧
      s.fds 5 = some 0 ∧ s.net.conntable = connRemove (Function.update (fun _ => none) 7 (some 5)) 7 ∧
      s.listen = .accept ∧ s.loop.unlisted = none := ⟨_, rfl, rfl, rfl, rfl, rfl⟩
  obtain ⟨s, run, open_, table, accepting, outside⟩ := ends
  refine ⟨s, 5, reach_of_exec run, by rw [open_]; rfl, fun id entry => ?_, accepting, outside⟩
  rw [table] at entry
  obtain ⟨other, entry⟩ := connRemove_shrinks entry
  simp [other] at entry

end SvrNet

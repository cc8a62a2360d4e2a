import SvrNet.ServerTable

namespace SvrNet
open CData StepSystem

/-- Every value that the code reads as "none" is no value of its kind in this state: the invalid
connection id is nobody's, a stored descriptor is a descriptor, and `close` is in front of one that
is open and that no entry of the table holds. -/
structure SentinelsSound (s : Server) : Prop where
  key : s.net.conntable svrInvalidConnectId = none
  pool : ∀ work ∈ s.net.pool, work.connid ≠ svrInvalidConnectId
  working : ∀ i work, s.worker i = .proc work → work.connid ≠ svrInvalidConnectId
  queue : ∀ entry ∈ s.net.sendQueue, entry.1 ≠ svrInvalidConnectId
  cache : s.net.recvMap svrInvalidConnectId = none
  stored : ∀ id fd, s.net.conntable id = some fd → 0 ≤ fd ∧ (s.fds fd).isSome
  distinct : ∀ id id' fd, s.net.conntable id = some fd → s.net.conntable id' = some fd → id = id'
  front : qSendConnidOfFront s.net.sendQueue = svrInvalidConnectId ↔ s.net.sendQueue = []
  sockfd : ∀ id, connGetSockfd s.net.conntable id = -1 ↔ s.net.conntable id = none
  closing : ∀ connid fd, s.loop = .epollin connid fd .close →
    (s.fds fd).isSome ∧ ∀ id, s.net.conntable id ≠ some fd
  once : s.closed.Nodup
  past : ∀ conn ∈ s.closed, ∀ fd, s.fds fd ≠ some conn

variable {s s' : Server}

/-- A stored descriptor is not negative, so -1 is read as "not in the table" only. -/
theorem TableInv.sockfd_invalid_iff (inv : TableInv s) (id : ConnId) :
    connGetSockfd s.net.conntable id = -1 ↔ s.net.conntable id = none := by
  unfold connGetSockfd
  cases entry : s.net.conntable id with
  | none => simp
  | some fd =>
    have nonneg := (inv.entry id fd entry).1
    have different : fd ≠ -1 := by omega
    simpa using different

theorem TableInv.closing (inv : TableInv s) {connid : ConnId} {fd : Int}
    (at_ : s.loop = .epollin connid fd .close) : (s.fds fd).isSome ∧ ∀ id, s.net.conntable id ≠ some fd := by
  have handler : s.loop.handler = some (connid, fd) := by rw [at_]; rfl
  have gone : s.loop.unlisted = some fd := by rw [at_]; rfl
  exact ⟨(inv.handling connid fd handler).1, inv.unlisted fd gone⟩

/-- Of all steps only `conn_insert` puts an entry into the table, and for an id that had none. -/
theorem Server.step_entry {act : ServerAct} (run : Server.step act s = some s') {id : ConnId} {fd : Int}
    (entry : s'.net.conntable id = some fd) :
    s.net.conntable id = some fd ∨ s.net.conntable id = none ∧ ∃ draws, act = .insert draws := by
  cases Server.step_spec run with
  | @insert inserted draws new _ _ free =>
    by_cases same : id = new
    · exact Or.inr ⟨same ▸ free, draws, rfl⟩
    · exact Or.inl ((Function.update_of_ne same ..).symm.trans entry)
  | listenRemove | sendRemove => exact Or.inl (connRemove_shrinks entry).2
  | loop _ step =>
    rw [Server.observe_net] at entry
    exact Or.inl (step.shrinks id fd entry)
  | _ => exact Or.inl entry

/-- `conn_insert` leaves every entry that was there as it is. -/
theorem Server.step_insert_keeps {draws : List ConnId} (run : Server.step (.insert draws) s = some s')
    {id : ConnId} {fd : Int} (entry : s.net.conntable id = some fd) : s'.net.conntable id = some fd := by
  cases Server.step_spec run with
  | @insert _ _ new _ _ free =>
    have different : id ≠ new := by
      rintro rfl
      simp [free] at entry
    exact (Function.update_of_ne different ..).trans entry

/-- In every interleaving of the listen, loop, send and worker threads the sentinels are sound, and
an entry of the connection table is never overwritten. -/
theorem sentinels_sound (reach : Reach Server.step anyStep Server.init s) :
    SentinelsSound s ∧
      (∀ draws s', Server.step (.insert draws) s = some s' →
        ∀ id fd, s.net.conntable id = some fd → s'.net.conntable id = some fd) ∧
      ∀ act s', Server.step act s = some s' → ∀ id fd, s'.net.conntable id = some fd →
        s.net.conntable id = some fd ∨ s.net.conntable id = none ∧ ∃ draws, act = .insert draws := by
  have table := tableInv_reach reach
  have sentinel := sentinelInv_reach reach
  have numbers := numberInv_reach reach
  refine ⟨?_, fun draws s' run id fd entry => Server.step_insert_keeps run entry,
    fun act s' run id fd entry => Server.step_entry run entry⟩
  exact {
    key := table.sentinel
    pool := sentinel.pool
    working := sentinel.working
    queue := sentinel.queue
    cache := sentinel.cache
    stored := fun id fd entry => ⟨(table.entry id fd entry).1, (table.entry id fd entry).2.1⟩
    distinct := table.distinct
    front := sentinel.front_invalid_iff
    sockfd := table.sockfd_invalid_iff
    closing := fun connid fd at_ => table.closing at_
    once := numbers.once
    past := fun conn closed fd owner => (numbers.known fd conn owner).2 closed }

/-- A connection comes, is served and goes; its id and its descriptor are given to the next one. -/
def reusedRun : List ServerAct :=
  connects 5 7 ++ requests 5 emptyPacket ++ answers 0 ++ disconnects 5 ++ connects 5 7

theorem sentinels_sound_reused : ∃ s, exec Server.step reusedRun Server.init = some s ∧
    s.net.conntable 7 = some 5 ∧ s.closed = [0] ∧ SentinelsSound s := by
  have ends : ∃ s, exec Server.step reusedRun Server.init = some s ∧ s.net.conntable 7 = some 5 ∧
      s.closed = [0] := exec_ends (by decide +kernel)
  obtain ⟨s, run, entry, closed⟩ := ends
  exact ⟨s, run, entry, closed, (sentinels_sound (reach_of_exec run)).1⟩

end SvrNet

import SvrNet.ServerSpec

namespace SvrNet
open CData StepSystem

/-- What links the connection table to the descriptors, in every state of every run: an entry holds
an open descriptor of its own, and a thread that works with a descriptor outside of the table cannot
lose it to another connection. -/
structure TableInv (s : Server) : Prop where
  entry : ∀ id fd, s.net.conntable id = some fd →
    0 ≤ fd ∧ (s.fds fd).isSome ∧ s.fds fd = s.ident id
  distinct : ∀ id id' fd, s.net.conntable id = some fd → s.net.conntable id' = some fd → id = id'
  sentinel : s.net.conntable svrInvalidConnectId = none
  inserting : ∀ fd, s.listen = .insert fd →
    0 ≤ fd ∧ (s.fds fd).isSome ∧ ∀ id, s.net.conntable id ≠ some fd
  adding : ∀ fd id, s.listen = .add fd id → ∀ id', s.net.conntable id' = some fd → id' = id
  handling : ∀ id fd, s.loop.handler = some (id, fd) →
    (s.fds fd).isSome ∧ s.listen ≠ .insert fd ∧ ∀ id', s.net.conntable id' = some fd → id' = id
  unlisted : ∀ fd, s.loop.unlisted = some fd → ∀ id, s.net.conntable id ≠ some fd

theorem tableInv_init : TableInv Server.init := by
  constructor <;> simp [Server.init, LoopPc.handler, LoopPc.unlisted]

variable {s s' : Server}

/-- Steps that open or close no descriptor and at most remove entries from the table. -/
theorem TableInv.shrink (inv : TableInv s)
    (table : ∀ id fd, s'.net.conntable id = some fd → s.net.conntable id = some fd)
    (fds : s'.fds = s.fds) (ident : s'.ident = s.ident)
    (listen : s'.listen = s.listen ∨ (∀ fd, s'.listen ≠ .insert fd) ∧ ∀ fd id, s'.listen ≠ .add fd id)
    (handler : ∀ id fd, s'.loop.handler = some (id, fd) →
      s.loop.handler = some (id, fd) ∨ s.net.conntable id = some fd)
    (unlisted : ∀ fd, s'.loop.unlisted = some fd → ∀ id, s'.net.conntable id ≠ some fd) : TableInv s' where
  entry := fun id fd here => by
    rw [fds, ident]
    exact inv.entry id fd (table id fd here)
  distinct := fun id id' fd here there => inv.distinct id id' fd (table id fd here) (table id' fd there)
  sentinel := by
    cases here : s'.net.conntable svrInvalidConnectId with
    | none => rfl
    | some fd => exact absurd (table _ _ here) (by simp [inv.sentinel])
  inserting := fun fd at_ => by
    rcases listen with same | ⟨other, _⟩
    · obtain ⟨nonneg, open_, unused⟩ := inv.inserting fd (same ▸ at_)
      exact ⟨nonneg, fds ▸ open_, fun id here => unused id (table id fd here)⟩
    · exact absurd at_ (other fd)
  adding := fun fd id at_ id' here => by
    rcases listen with same | ⟨_, other⟩
    · exact inv.adding fd id (same ▸ at_) id' (table id' fd here)
    · exact absurd at_ (other fd id)
  handling := fun id fd at_ => by
    have working : (s.fds fd).isSome ∧ s.listen ≠ .insert fd ∧ ∀ id', s.net.conntable id' = some fd → id' = id := by
      rcases handler id fd at_ with old | found
      · exact inv.handling id fd old
      · exact ⟨(inv.entry id fd found).2.1, fun inserts => (inv.inserting fd inserts).2.2 id found,
          fun id' here => inv.distinct id' id fd here found⟩
    obtain ⟨open_, notInserting, own⟩ := working
    refine ⟨fds ▸ open_, ?_, fun id' here => own id' (table id' fd here)⟩
    rcases listen with same | ⟨other, _⟩
    · rwa [same]
    · exact other fd
  unlisted := unlisted

/-- The steps among these that leave the loop thread alone. -/
theorem TableInv.shrink_outside (inv : TableInv s)
    (table : ∀ id fd, s'.net.conntable id = some fd → s.net.conntable id = some fd)
    (fds : s'.fds = s.fds) (ident : s'.ident = s.ident)
    (listen : s'.listen = s.listen ∨ (∀ fd, s'.listen ≠ .insert fd) ∧ ∀ fd id, s'.listen ≠ .add fd id)
    (loop : s'.loop = s.loop) : TableInv s' :=
  inv.shrink table fds ident listen (fun _ _ here => Or.inl (loop ▸ here))
    fun fd gone id here => inv.unlisted fd (loop ▸ gone) id (table id fd here)

theorem TableInv.step_accept (inv : TableInv s) {fd : Int} (free : s.fds fd = none) (nonneg : 0 ≤ fd)
    (table : s'.net.conntable = s.net.conntable) (fds : s'.fds = Function.update s.fds fd (some s.accepted))
    (ident : s'.ident = s.ident) (listen : s'.listen = .insert fd) (loop : s'.loop = s.loop) :
    TableInv s' := by
  have kept : ∀ other, (s.fds other).isSome → other ≠ fd := by
    rintro other open_ rfl
    simp [free] at open_
  refine ⟨fun id other here => ?_, ?_, ?_, fun other here => ?_, fun _ _ here => ?_,
    fun id other here => ?_, ?_⟩
  · rw [table] at here
    obtain ⟨positive, open_, owner⟩ := inv.entry id other here
    rw [fds, ident, Function.update_of_ne (kept other open_)]
    exact ⟨positive, open_, owner⟩
  · rw [table]
    exact inv.distinct
  · rw [table]
    exact inv.sentinel
  · cases listen.symm.trans here
    rw [fds, table, Function.update_self]
    exact ⟨nonneg, rfl, fun id here => kept fd (inv.entry id fd here).2.1 rfl⟩
  · simp [listen] at here
  · rw [loop] at here
    obtain ⟨open_, _, own⟩ := inv.handling id other here
    have different := kept other open_
    rw [fds, table, listen, Function.update_of_ne different]
    exact ⟨open_, by simpa using different.symm, own⟩
  · rw [loop, table]
    exact inv.unlisted

theorem TableInv.step_insert (inv : TableInv s) {fd : Int} {id : ConnId} (at_ : s.listen = .insert fd)
    (free : s.net.conntable id = none) (valid : id ≠ svrInvalidConnectId)
    (table : s'.net.conntable = Function.update s.net.conntable id (some fd)) (fds : s'.fds = s.fds)
    (ident : s'.ident = Function.update s.ident id (s.fds fd)) (listen : s'.listen = .add fd id)
    (loop : s'.loop = s.loop) : TableInv s' := by
  obtain ⟨nonneg, open_, unused⟩ := inv.inserting fd at_
  have entries : ∀ id' fd', s'.net.conntable id' = some fd' →
      id' = id ∧ fd' = fd ∨ id' ≠ id ∧ s.net.conntable id' = some fd' := by
    intro id' fd' here
    rw [table] at here
    by_cases same : id' = id
    · rw [same, Function.update_self] at here
      exact Or.inl ⟨same, (Option.some.inj here).symm⟩
    · rw [Function.update_of_ne same] at here
      exact Or.inr ⟨same, here⟩
  refine ⟨fun id' fd' here => ?_, fun one two fd' here there => ?_, ?_, fun fd' here => ?_,
    fun fd' id' here other there => ?_, fun id' fd' here => ?_, fun fd' gone id' here => ?_⟩
  · rw [fds, ident]
    rcases entries id' fd' here with ⟨rfl, rfl⟩ | ⟨other, old⟩
    · rw [Function.update_self]
      exact ⟨nonneg, open_, rfl⟩
    · rw [Function.update_of_ne other]
      exact inv.entry id' fd' old
  · rcases entries one fd' here with ⟨rfl, rfl⟩ | ⟨_, old⟩
    · rcases entries two fd' there with ⟨rfl, _⟩ | ⟨_, old⟩
      · rfl
      · exact absurd old (unused two)
    · rcases entries two fd' there with ⟨rfl, rfl⟩ | ⟨_, old'⟩
      · exact absurd old (unused one)
      · exact inv.distinct one two fd' old old'
  · rw [table, Function.update_of_ne valid.symm]
    exact inv.sentinel
  · simp [listen] at here
  · cases listen.symm.trans here
    rcases entries other fd there with ⟨rfl, _⟩ | ⟨_, old⟩
    · rfl
    · exact absurd old (unused other)
  · rw [loop] at here
    obtain ⟨handled, notInserting, own⟩ := inv.handling id' fd' here
    rw [fds, listen]
    refine ⟨handled, by simp, fun other there => ?_⟩
    rcases entries other fd' there with ⟨rfl, rfl⟩ | ⟨_, old⟩
    · exact absurd at_ notInserting
    · exact own other old
  · rw [loop] at gone
    rcases entries id' fd' here with ⟨rfl, rfl⟩ | ⟨_, old⟩
    · obtain ⟨handled, handler⟩ := LoopPc.handler_of_unlisted gone
      exact (inv.handling handled fd' handler).2.1 at_
    · exact inv.unlisted fd' gone id' old

/-- `close` only hits a descriptor that no entry holds. -/
theorem TableInv.step_close (inv : TableInv s) {connid : ConnId} {fd : Int}
    (at_ : s.loop = .epollin connid fd .close) (table : s'.net.conntable = s.net.conntable)
    (fds : s'.fds = Function.update s.fds fd none) (ident : s'.ident = s.ident)
    (listen : s'.listen = s.listen) (loop : s'.loop = .idle) : TableInv s' := by
  have unused := inv.unlisted fd (by rw [at_]; rfl)
  obtain ⟨_, notInserting, _⟩ := inv.handling connid fd (by rw [at_]; rfl)
  refine ⟨fun id other here => ?_, ?_, ?_, fun other here => ?_, fun other id here => ?_,
    fun id other here => ?_, fun other gone => ?_⟩
  · rw [table] at here
    have different : other ≠ fd := by rintro rfl; exact unused id here
    rw [fds, ident, Function.update_of_ne different]
    exact inv.entry id other here
  · rw [table]
    exact inv.distinct
  · rw [table]
    exact inv.sentinel
  · rw [listen] at here
    have different : other ≠ fd := by rintro rfl; exact notInserting here
    rw [fds, table, Function.update_of_ne different]
    exact inv.inserting other here
  · rw [table]
    exact inv.adding other id (listen ▸ here)
  · simp [loop, LoopPc.handler] at here
  · simp [loop, LoopPc.unlisted] at gone

theorem TableInv.step_loop (inv : TableInv s) {act : LoopAct TByte} {net : NetSvr TByte RByte}
    {loop : LoopPc TByte RByte} {event : LoopEvent TByte RByte}
    (step : LoopStep true s.net s.loop act net loop event) :
    TableInv (({ s with net := net, loop := loop } : Server).observe event) := by
  by_cases closes : ∃ fd, event = .closed fd
  · obtain ⟨fd, rfl⟩ := closes
    obtain ⟨connid, at_, rfl, rfl⟩ := step.closed_spec
    exact inv.step_close at_ rfl rfl rfl rfl rfl
  · have fds : (({ s with net := net, loop := loop } : Server).observe event).fds = s.fds :=
      Server.observe_fds fun fd same => closes ⟨fd, same⟩
    have gone : ∀ fd, loop.unlisted = some fd → ∀ id, net.conntable id ≠ some fd := by
      intro fd gone id here
      obtain ⟨connid, handler, _, old | removed⟩ := step.unlisted_next gone
      · exact inv.unlisted fd old id (step.shrinks id fd here)
      · have own := (inv.handling connid fd handler).2.2 id (step.shrinks id fd here)
        rw [removed] at here
        exact (connRemove_shrinks here).1 own
    refine inv.shrink (by simpa using step.shrinks) fds (by simp) (Or.inl (by simp)) ?_ (by simpa using gone)
    rw [Server.observe_loop]
    intro id fd handler
    rcases step.handler_next with none | same | ⟨connid, other, found, begun⟩
    · simp [none] at handler
    · exact Or.inl (same ▸ handler)
    · cases begun.symm.trans handler
      exact Or.inr found

theorem TableInv.step {act : ServerAct} (inv : TableInv s) (run : Server.step act s = some s') :
    TableInv s' := by
  cases Server.step_spec run with
  | accept at_ free nonneg => exact inv.step_accept free nonneg rfl rfl rfl rfl rfl
  | insert at_ _ free valid => exact inv.step_insert at_ free valid rfl rfl rfl rfl rfl
  | add | addFail =>
    exact inv.shrink_outside (fun _ _ here => here) rfl rfl (Or.inr (by simp)) rfl
  | listenRemove =>
    exact inv.shrink_outside (fun _ _ here => (connRemove_shrinks here).2) rfl rfl (Or.inr (by simp)) rfl
  | dispatch idle _ loop =>
    refine inv.shrink (fun _ _ here => here) rfl rfl (Or.inl rfl) ?_ ?_
    · rcases loop with rfl | rfl <;> simp [LoopPc.handler]
    · rcases loop with rfl | rfl <;> simp [LoopPc.unlisted]
  | loop _ step => exact inv.step_loop step
  | sendRemove =>
    exact inv.shrink_outside (fun _ _ here => (connRemove_shrinks here).2) rfl rfl (Or.inl rfl) rfl
  | _ => exact inv.shrink_outside (fun _ _ here => here) rfl rfl (Or.inl rfl) rfl

theorem tableInv_reach {guard : ServerAct → Server → Prop} (reach : Reach Server.step guard Server.init s) :
    TableInv s :=
  reach.invariant tableInv_init fun _ _ _ inv _ run => inv.step run

/-- No part of the server ever holds the invalid connection id. -/
structure SentinelInv (s : Server) : Prop where
  handling : ∀ id fd, s.loop.handler = some (id, fd) → id ≠ svrInvalidConnectId
  cache : s.net.recvMap svrInvalidConnectId = none
  pool : ∀ work ∈ s.net.pool, work.connid ≠ svrInvalidConnectId
  working : ∀ i work, s.worker i = .proc work → work.connid ≠ svrInvalidConnectId
  queue : ∀ entry ∈ s.net.sendQueue, entry.1 ≠ svrInvalidConnectId

theorem sentinelInv_init : SentinelInv Server.init := by
  constructor <;> simp [Server.init, LoopPc.handler]

/-- Steps that add nothing. -/
theorem SentinelInv.shrink (inv : SentinelInv s) (loop : s'.loop.handler = s.loop.handler ∨ s'.loop.handler = none)
    (cache : s'.net.recvMap = s.net.recvMap) (pool : s'.net.pool = s.net.pool)
    (worker : ∀ i work, s'.worker i = .proc work → s.worker i = .proc work)
    (queue : s'.net.sendQueue.Sublist s.net.sendQueue) : SentinelInv s' where
  handling := fun id fd at_ => by
    rcases loop with same | none
    · exact inv.handling id fd (same ▸ at_)
    · simp [none] at at_
  cache := by
    rw [cache]
    exact inv.cache
  pool := by
    rw [pool]
    exact inv.pool
  working := fun i work at_ => inv.working i work (worker i work at_)
  queue := fun entry member => inv.queue entry (queue.subset member)

theorem SentinelInv.step_loop (inv : SentinelInv s) (tableInv : TableInv s) {act : LoopAct TByte}
    {net : NetSvr TByte RByte} {loop : LoopPc TByte RByte} {event : LoopEvent TByte RByte}
    (step : LoopStep true s.net s.loop act net loop event) :
    SentinelInv (({ s with net := net, loop := loop } : Server).observe event) where
  handling := fun id fd at_ => by
    rw [Server.observe_loop] at at_
    rcases step.handler_next with none | same | ⟨connid, other, found, begun⟩
    · simp [none] at at_
    · exact inv.handling id fd (same ▸ at_)
    · cases begun.symm.trans at_
      rintro rfl
      simp [tableInv.sentinel] at found
  cache := by
    rw [Server.observe_net, step.recvMap_other fun fd same => inv.handling _ fd same rfl]
    exact inv.cache
  pool := by
    rw [Server.observe_net]
    rcases step.pool_next with same | ⟨connid, curfd, work, at_, owner, pushed, _⟩
    · rw [same]
      exact inv.pool
    · rw [pushed]
      intro other member
      rcases List.mem_append.mp member with old | new
      · exact inv.pool other old
      · rw [List.mem_singleton.mp new, owner]
        exact inv.handling connid curfd at_
  working := by
    rw [Server.observe_worker]
    exact inv.working
  queue := by
    rw [Server.observe_net]
    exact fun entry member => inv.queue entry (step.sendQueue_sublist.subset member)

theorem SentinelInv.step {act : ServerAct} (inv : SentinelInv s) (tableInv : TableInv s)
    (run : Server.step act s = some s') : SentinelInv s' := by
  cases Server.step_spec run with
  | dispatch idle _ loop =>
    refine inv.shrink (Or.inr ?_) rfl rfl (fun _ _ at_ => at_) (.refl _)
    rcases loop with rfl | rfl <;> rfl
  | loop _ step => exact inv.step_loop tableInv step
  | sendPurge => exact inv.shrink (Or.inl rfl) rfl rfl (fun _ _ at_ => at_) (qSendRemoveAll_sublist ..)
  | @take i work later idle pool =>
    refine ⟨inv.handling, inv.cache, fun other member => ?_, fun j other at_ => ?_, inv.queue⟩
    · exact inv.pool other (by rw [pool]; exact List.mem_cons_of_mem _ member)
    · by_cases same : j = i
      · simp only [same, Function.update_self, WorkerPc.proc.injEq] at at_
        subst at_
        exact inv.pool work (by rw [pool]; exact List.mem_cons_self ..)
      · exact inv.working j other (by simpa [same] using at_)
  | @finish i =>
    refine inv.shrink (Or.inl rfl) rfl rfl (fun j other at_ => ?_) (.refl _)
    by_cases same : j = i
    · simp [same] at at_
    · simpa [same] using at_
  | @respond i work outdata outlen at_ =>
    refine ⟨inv.handling, inv.cache, inv.pool, fun j other here => ?_, fun entry member => ?_⟩
    · by_cases same : j = i
      · simp [same] at here
      · exact inv.working j other (by simpa [same] using here)
    · rcases mem_qSendPush member with old | ⟨owner, _⟩
      · exact inv.queue entry old
      · rw [owner]
        exact inv.working i work at_
  | @signal i =>
    refine inv.shrink (Or.inl rfl) rfl rfl (fun j other at_ => ?_) (.refl _)
    by_cases same : j = i
    · simp [same] at at_
    · simpa [same] using at_
  | _ => exact inv.shrink (Or.inl rfl) rfl rfl (fun _ _ at_ => at_) (.refl _)

theorem sentinelInv_reach {guard : ServerAct → Server → Prop} (reach : Reach Server.step guard Server.init s) :
    SentinelInv s :=
  reach.invariant_of (K := TableInv) (fun _ reach => tableInv_reach reach) sentinelInv_init
    fun _ _ _ tableInv _ inv _ run => inv.step tableInv run

/-- `QSend_connid_of_front` tells an empty queue from one with entries. -/
theorem SentinelInv.front_invalid_iff (inv : SentinelInv s) :
    qSendConnidOfFront s.net.sendQueue = svrInvalidConnectId ↔ s.net.sendQueue = [] := by
  refine ⟨fun invalid => ?_, fun empty => by rw [empty]; rfl⟩
  by_contra some
  obtain ⟨entry, member, front⟩ := qSendConnidOfFront_mem some
  exact inv.queue entry member (front.symm.trans invalid)

/-- Numbers of accepted connections: each belongs to one open descriptor, or was closed once. -/
structure NumberInv (s : Server) : Prop where
  known : ∀ fd conn, s.fds fd = some conn → conn < s.accepted ∧ conn ∉ s.closed
  distinct : ∀ fd fd' conn, s.fds fd = some conn → s.fds fd' = some conn → fd = fd'
  past : ∀ conn ∈ s.closed, conn < s.accepted
  once : s.closed.Nodup

theorem numberInv_init : NumberInv Server.init := by
  constructor <;> simp [Server.init]

theorem NumberInv.congr (inv : NumberInv s) (fds : s'.fds = s.fds) (accepted : s'.accepted = s.accepted)
    (closed : s'.closed = s.closed) : NumberInv s' := by
  refine ⟨?_, ?_, ?_, ?_⟩
  · rw [fds, accepted, closed]
    exact inv.known
  · rw [fds]
    exact inv.distinct
  · rw [accepted, closed]
    exact inv.past
  · rw [closed]
    exact inv.once

theorem NumberInv.step {act : ServerAct} (inv : NumberInv s) (run : Server.step act s = some s') :
    NumberInv s' := by
  cases Server.step_spec run with
  | @accept fd _ free =>
    refine ⟨fun other conn at_ => ?_, fun one two conn here there => ?_, fun conn member => ?_, inv.once⟩
    · by_cases same : other = fd
      · simp only [same, Function.update_self, Option.some.injEq] at at_
        subst at_
        exact ⟨Nat.lt_succ_self _, fun member => lt_irrefl _ (inv.past _ member)⟩
      · obtain ⟨bound, open_⟩ := inv.known other conn (by simpa [same] using at_)
        exact ⟨Nat.lt_succ_of_lt bound, open_⟩
    · have fresh : ∀ fd', s.fds fd' ≠ some s.accepted := fun fd' at_ =>
        lt_irrefl _ (inv.known fd' _ at_).1
      by_cases first : one = fd
      · by_cases second : two = fd
        · rw [first, second]
        · simp only [first, Function.update_self, Option.some.injEq] at here
          subst here
          exact absurd (by simpa [second] using there) (fresh two)
      · by_cases second : two = fd
        · simp only [second, Function.update_self, Option.some.injEq] at there
          subst there
          exact absurd (by simpa [first] using here) (fresh one)
        · exact inv.distinct one two conn (by simpa [first] using here) (by simpa [second] using there)
    · exact Nat.lt_succ_of_lt (inv.past conn member)
  | @loop act net loop event _ step =>
    cases event with
    | closed fd =>
      cases owner : s.fds fd with
      | none =>
        have same : Function.update s.fds fd none = s.fds := by
          rw [← owner, Function.update_eq_self]
        exact inv.congr same rfl (by simp [Server.observe, owner])
      | some conn =>
        obtain ⟨bound, open_⟩ := inv.known fd conn owner
        have others : ∀ other number, Function.update s.fds fd none other = some number →
            other ≠ fd ∧ s.fds other = some number := by
          intro other number at_
          by_cases same : other = fd
          · simp [same] at at_
          · exact ⟨same, by simpa [same] using at_⟩
        refine ⟨fun other number at_ => ?_, fun one two number here there => ?_, fun number member => ?_, ?_⟩
        · obtain ⟨different, before⟩ := others other number at_
          obtain ⟨small, kept⟩ := inv.known other number before
          refine ⟨small, fun member => ?_⟩
          rcases List.mem_append.mp member with old | new
          · exact kept old
          · rw [owner, Option.toList_some, List.mem_singleton] at new
            subst new
            exact different (inv.distinct other fd number before owner)
        · exact inv.distinct one two number (others one number here).2 (others two number there).2
        · rcases List.mem_append.mp member with old | new
          · exact inv.past number old
          · rw [owner, Option.toList_some, List.mem_singleton] at new
            exact new ▸ bound
        · show (s.closed ++ (s.fds fd).toList).Nodup
          rw [owner, Option.toList_some]
          exact List.nodup_append.mpr ⟨inv.once, by simp, fun a old b new => by
            rw [List.mem_singleton.mp new]
            rintro rfl
            exact open_ old⟩
    | _ => exact inv.congr rfl rfl rfl
  | _ => exact inv.congr rfl rfl rfl

theorem numberInv_reach {guard : ServerAct → Server → Prop} (reach : Reach Server.step guard Server.init s) :
    NumberInv s :=
  reach.invariant numberInv_init fun _ _ _ inv _ run => inv.step run

end SvrNet

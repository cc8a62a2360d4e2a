import SvrNet.Registration
import SvrNet.Serving

namespace SvrNet
open CData StepSystem Trace

section Clients

variable {n : Nat} {ordered : Bool} {packets : Nat → List (List TByte)} {s s' : Service} {act : ServerAct} {id : ConnId}
  {conn : Nat}

theorem serving_reach (reach : Reach Service.step (prompt n ordered) Service.init s)
    (wellFormed : ∀ conn, ∀ packet ∈ packets conn, WellFormed packet)
    (initial : ∀ conn, s.received conn <+: (packets conn).flatten)
    (owner : s.server.ident id = some conn) (intact : Intact s conn) : Serving n ordered id conn s := by
  have keeping := prompt_reach reach
  refine ⟨promptInv_reach reach wellFormed initial, owner, ?_, ?_, conserved_reach keeping owner intact⟩
  · cases finished : s.ended conn with
    | false => rfl
    | true => exact absurd ((stopInv_reach keeping).ended conn finished) intact.serving
  · exact reach.invariant (P := fun s => FilledInv s.server) (fun _ member => absurd member List.not_mem_nil)
      fun _ _ _ inv _ run => inv.step (Service.step_spec run).server

theorem subperm_map {α β : Type} {xs ys : List α} (f : α → β) (subperm : xs.Subperm ys) :
    (xs.map f).Subperm (ys.map f) := by
  obtain ⟨zs, perm, sublist⟩ := subperm
  exact ⟨zs.map f, perm.map f, sublist.map f⟩

theorem frames_mono {α : Type} [Cell α] {xs ys : List α} (initial : xs <+: ys) : netPkg.frames xs <+: netPkg.frames ys := by
  obtain ⟨more, rfl⟩ := initial
  rw [Framing.frames_append]
  exact List.prefix_append ..

theorem ServiceStep.handedOn_mono (step : ServiceStep s act s') (conn : Nat) :
    s.server.handedOn conn <+: s'.server.handedOn conn := by
  have grows : ∀ more, s'.server.handed = s.server.handed ++ more → s.server.handedOn conn <+: s'.server.handedOn conn := by
    intro more handed
    rw [Server.handedOn, Server.handedOn, handed, List.filter_append, List.map_append]
    exact List.prefix_append ..
  cases step with
  | @loop _ _ _ event =>
    cases event with
    | handed => exact grows _ rfl
    | _ => exact grows [] (List.append_nil _).symm
  | respond | finish => exact grows [] (List.append_nil _).symm
  | other step notLoop =>
    cases step with
    | loop => exact absurd rfl (notLoop _)
    | _ => exact grows [] (List.append_nil _).symm

/-- An id that is in the table is not given to another connection. -/
theorem ServerStep.owner_kept {s s' : Server} (step : ServerStep s act s') (listed : (s.net.conntable id).isSome)
    (owner : s.ident id = some conn) : s'.ident id = some conn := by
  cases step with
  | insert _ _ free =>
    refine (Function.update_of_ne ?_ ..).trans owner
    rintro rfl
    rw [free] at listed
    cases listed
  | loop =>
    rw [Server.observe_ident]
    exact owner
  | _ => exact owner

section Along

variable {guard : ServerAct → Service → Prop} {first : Service} (trace : Trace Service.step guard first) {k m : Nat}

/-- The streams only grow. -/
theorem received_along (later : k ≤ m) (conn : Nat) :
    (trace.state k).received conn <+: (trace.state m).received conn :=
  trace.kept (P := fun s => (trace.state k).received conn <+: s.received conn)
    (fun _ _ _ soFar _ run => soFar.trans ((Service.step_spec run).received_mono conn)) later (List.prefix_refl _)

/-- A connection that is intact has always been so. -/
theorem intact_along (later : k ≤ m) (intact : Intact (trace.state m) conn) : Intact (trace.state k) conn := by
  by_contra torn
  exact trace.kept (P := fun s => ¬ Intact s conn)
    (fun _ _ _ torn _ run intact => torn ((Service.step_spec run).intact intact)) later torn intact

/-- As long as a connection is intact it is in the table, and its id stays with it. -/
theorem owner_along (trace : Trace Service.step (prompt n ordered) Service.init) (later : k ≤ m)
    (owner : (trace.state k).server.ident id = some conn) (intact : Intact (trace.state m) conn) :
    (trace.state m).server.ident id = some conn := by
  have along := trace.kept (P := fun s => Reach Service.step (prompt n ordered) Service.init s ∧
      (Intact s conn → s.server.ident id = some conn)) ?_ later ⟨trace.reach k, fun _ => owner⟩
  · exact along.2 intact
  · rintro act before after ⟨reach, owned⟩ allowed run
    refine ⟨reach.next allowed run, fun intact => ?_⟩
    have unbroken := (Service.step_spec run).intact intact
    have listed := ((stopInv_reach (prompt_reach reach)).listed id conn (owned unbroken)).resolve_left unbroken.serving
    exact (Service.step_spec run).server.owner_kept listed (owned unbroken)

theorem handedOn_along (later : k ≤ m) (conn : Nat) :
    (trace.state k).server.handedOn conn <+: (trace.state m).server.handedOn conn :=
  trace.kept (P := fun s => (trace.state k).server.handedOn conn <+: s.server.handedOn conn)
    (fun _ _ _ soFar _ run => soFar.trans ((Service.step_spec run).handedOn_mono conn)) later (List.prefix_refl _)

theorem settled_along (later : k ≤ m) (conn : Nat) : (trace.state k).settled conn <+: (trace.state m).settled conn := by
  refine trace.kept (P := fun s => (trace.state k).settled conn <+: s.settled conn) ?_ later (List.prefix_refl _)
  intro act before after soFar _ run
  rcases (Service.step_spec run).settled_next conn with same | ⟨done, more⟩
  · rw [same]
    exact soFar
  · rw [more]
    exact soFar.trans (List.prefix_append ..)

theorem packets_along (later : k ≤ m) (conn : Nat) : (trace.state k).packets conn <+: (trace.state m).packets conn :=
  ((settled_along trace later conn).filterMap _).map _

end Along

/-- Where the server has nothing to do, only the loop thread goes on, and `epoll_wait` reports no connection
that a response could be sent on. -/
structure AtRest (n : Nat) (s : Server) : Prop where
  loop : s.loop = .idle
  calls : s.calls = []
  send : s.send = .waiting
  workers : ∀ i < n, s.worker i = .idle
  pool : s.net.pool = []
  epoll : ∀ fd registration, s.epoll fd = some registration → registration.out = false

theorem AtRest.wait (rest : AtRest n s.server) :
    prompt n ordered (.wait []) s ∧ Service.step (.wait []) s = some s := by
  refine ⟨⟨⟨⟨trivial, trivial⟩, fun _ => trivial⟩, trivial, trivial, trivial⟩, ?_⟩
  have called : Server.step (.wait []) s.server = some { s.server with calls := [] } := by
    simp only [Server.step, rest.loop, rest.calls, handlerCalls]
  rw [Service.step, called, ← rest.calls]

theorem AtRest.unreported (rest : AtRest n s.server) (events : List (Int × Bool × Bool)) :
    .epollout id ∉ handlerCalls s.server.epoll events := by
  induction events with
  | nil => exact List.not_mem_nil
  | cons event events ih =>
    rw [handlerCalls]
    split
    · exact ih
    · rename_i registration at_
      simp [rest.epoll _ registration at_, ih]

/-- Only the descriptors of accepted connections that are still open are registered. -/
theorem unreported_of_accepted {s : Server} (reach : Reach Server.step descriptorKept Server.init s) (fdOf : Nat → Int)
    (each : ∀ conn < s.accepted, conn ∉ s.closed →
      s.fds (fdOf conn) = some conn ∧ (s.epoll (fdOf conn)).any (·.out) = false) {fd : Int}
    {registration : Registration} (registered : s.epoll fd = some registration) : registration.out = false := by
  have numbers := numberInv_reach reach
  obtain ⟨conn, fds⟩ := Option.isSome_iff_exists.mp ((registrationInv_reach reach).opened fd (by rw [registered]; rfl))
  obtain ⟨accepted, notClosed⟩ := numbers.known fd conn fds
  obtain ⟨open_, out⟩ := each conn accepted notClosed
  rw [numbers.distinct (fdOf conn) fd conn open_ fds, registered] at out
  exact out

/-- A run that ends so is fair. -/
theorem AtRest.fair (rest : AtRest n s.server) [∀ act s, Decidable (prompt n ordered act s)] {labels : List ServerAct}
    (run : exec (guarded Service.step (prompt n ordered)) labels Service.init = some s) :
    FairService (ofLasso run (.wait []) rest.wait) := by
  have step : ∀ {act}, Enabled Service.step (prompt n ordered) act s → ∃ s', ServerStep s.server act s' := fun able =>
    have ⟨after, run⟩ := Option.isSome_iff_exists.mp able.2
    ⟨after.server, (Service.step_spec run).server⟩
  have noLoop : ∀ lact, ¬ Enabled Service.step (prompt n ordered) (.loop lact) s := by
    intro lact able
    obtain ⟨s', step⟩ := step able
    obtain ⟨event, inner⟩ := step.loop_spec
    rw [rest.loop] at inner
    cases inner
  have outside : ∀ act : ServerAct, act.runsDry ∨ act.getsThrough → ∃ lact, act = .loop lact := by
    intro act kind
    cases act with
    | loop lact => exact ⟨lact, rfl⟩
    | _ => exact absurd kind (by simp [ServerAct.runsDry, ServerAct.getsThrough])
  constructor
  · exact ofLasso_fairTo run rest.wait fun _ _ _ => trivial
  · refine ofLasso_fairTo run rest.wait fun act sends able => ?_
    obtain ⟨s', step⟩ := step able
    cases step with
    | frontEmpty at_ | front at_ | sendWait at_ | sendWoken at_ | lookupMissing at_ | lookupFound at_ | modify at_
    | modifyFail at_ | sendPurge at_ | sendRemove at_ => simp [rest.send] at at_
    | _ => cases sends
  · intro i inside
    refine ofLasso_fairTo run rest.wait fun act own able => ?_
    obtain ⟨s', step⟩ := step able
    cases step with
    | take _ pool => simp [rest.pool] at pool
    | finish at_ | respond at_ | signal at_ =>
      cases own
      simp [rest.workers i inside] at at_
    | _ => cases own
  · refine ofLasso_fairTo run rest.wait fun act dry able => ?_
    obtain ⟨lact, rfl⟩ := outside act (Or.inl dry)
    exact absurd able (noLoop lact)
  · refine ofLasso_fairTo run rest.wait fun act through able => ?_
    obtain ⟨lact, rfl⟩ := outside act (Or.inr through)
    exact absurd able (noLoop lact)
  · intro id
    refine ofLasso_fairTo run rest.wait fun act reports _ => ?_
    obtain ⟨events, _, member⟩ := reports
    exact absurd member (rest.unreported events)

/-- A client is given the id of another one that has left. It sends two packets and pauses before any of them
is answered; a third client goes on. -/
def pausedRun : List ServerAct :=
  visit ++ connects 5 7 ++ connects 6 8 ++ [.send true, .send true] ++ requests 5 emptyPacket ++ requests 5 secondPacket ++
    answers 0 ++ requests 6 emptyPacket ++ answers 0 ++ answers 0 ++ [.send true, .send true, .send true, .send true] ++
    transmits 5 20 ++ transmits 6 10 ++ [.send true, .send true]

theorem pausedRun_fair : ∃ trace : Trace Service.step (prompt 1 true) Service.init, FairService trace ∧
    (∀ k s, exec (guarded Service.step (promptly 1 true)) (pausedRun.take k) Service.init = some s → trace.state k = s) ∧
    (∀ m conn, (trace.state m).received conn <+: (inTurnPackets conn).flatten) ∧ ∀ m, Intact (trace.state m) 1 := by
  have ends : ∃ s, exec (guarded Service.step fun act s => promptly 1 true act s ∧ descriptorKept act s.server)
        pausedRun Service.init = some s ∧
      ((Server.step (.wait []) s.server).isSome ∧ s.server.send = .waiting) ∧
      (s.server.worker 0 = .idle ∧ s.server.net.pool = []) ∧
      (∀ conn < s.server.accepted, conn ∉ s.server.closed →
        s.server.fds (4 + conn) = some conn ∧ (s.server.epoll (4 + conn)).any (·.out) = false) ∧
      (∀ conn < s.server.accepted, s.received conn <+: (inTurnPackets conn).flatten) ∧ s.server.stopped = [0] ∧
      s.failed 1 = false := exec_ends (by decide +kernel)
  obtain ⟨s, run, ⟨waits, send⟩, ⟨worker, pool⟩, out, begun, serving, sound⟩ := ends
  have decidable : ∀ act s, Decidable (prompt 1 true act s) := fun _ _ => Classical.propDecidable _
  have widened := exec_wider run fun _ _ allowed => prompt_of_promptly allowed.1
  have rest : AtRest 1 s.server := by
    obtain ⟨server, one⟩ := Option.isSome_iff_exists.mp waits
    obtain ⟨idle, none_⟩ : s.server.loop = .idle ∧ s.server.calls = [] := by
      cases Server.step_spec one with
      | wait idle none_ => exact ⟨idle, none_⟩
    refine ⟨idle, none_, send, fun i inside => by rwa [Nat.lt_one_iff.mp inside], pool, fun fd registration => ?_⟩
    exact unreported_of_accepted (Service.server_reach (reach_of_exec_guarded run) fun _ _ allowed => allowed.2)
      (fun conn => 4 + conn) out
  have ends : ∀ m, (ofLasso widened (.wait []) rest.wait).state (max m 95) = s := fun m =>
    ofExec_last widened (Nat.le_max_right ..)
  have known := serviceKnown_reach (prompt_reach (reach_of_exec_guarded widened)) fun _ _ allowed => allowed.2.1.1
  refine ⟨ofLasso widened (.wait []) rest.wait, rest.fair widened, ?_, ?_, ?_⟩
  · exact fun k early here => ofExec_state widened (exec_wider here fun _ _ => prompt_of_promptly)
  · intro m conn
    refine (received_along _ (Nat.le_max_left m 95) conn).trans ?_
    rw [ends m]
    exact known.initial begun conn
  · intro m
    refine intact_along _ (Nat.le_max_left m 95) ?_
    rw [ends m]
    exact ⟨by simp [serving], sound⟩

/-- With one worker the requests are settled in the order in which they were received. -/
theorem Serving.settled_in_order (serving : Serving n true id conn s) :
    (s.settled conn).map (fun done => done.1.data) <+: netPkg.frames (s.received conn) := by
  obtain ⟨hands, _, _, requests⟩ := serving.conserved.requests
  have handed := serving.inv.receive.handed conn
  rw [Arranged, if_pos rfl] at requests
  rw [← requests, List.map_append, List.map_map] at handed
  exact (List.prefix_append ..).trans handed

/-- And what was sent are their answers in the same order. -/
theorem Serving.sent_in_order (serving : Serving n true id conn s) : s.server.sentOn conn <+: (s.packets conn).flatten := by
  obtain ⟨used, parts, _, responses, spelled⟩ := serving.conserved.responses
  rw [Arranged, if_pos rfl] at responses
  rw [← responses, List.flatten_append, ← spelled, List.append_assoc]
  exact List.prefix_append ..

/-- What was handed on is settled some time, however the workers share it. -/
theorem handedOn_settled {first : Service} {trace : Trace Service.step (prompt n ordered) first}
    (fair : FairRun trace (Serving n ordered id conn)) :
    ∃ j, ((trace.state 0).server.handedOn conn).Subperm (((trace.state j).settled conn).map Prod.fst) := by
  have each : ∀ works : List (Work TByte), ∃ j, ∀ work ∈ works,
      ((trace.state 0).server.handedOn conn).count work ≤ (trace.state j).times conn work := by
    intro works
    induction works with
    | nil => exact ⟨0, fun work member => absurd member List.not_mem_nil⟩
    | cons work works ih =>
      obtain ⟨j, before⟩ := ih
      obtain ⟨j', later, here⟩ := fair.all_settled work
        (fun k => (handedOn_along trace (Nat.zero_le k) conn).sublist.count_le work) j trivial
      refine ⟨j', fun other member => ?_⟩
      rcases List.mem_cons.mp member with rfl | behind
      · exact here
      · exact (before other behind).trans (((settled_along trace later conn).map _).sublist.count_le other)
  obtain ⟨j, all⟩ := each ((trace.state 0).server.handedOn conn)
  exact ⟨j, List.subperm_ext_iff.mpr all⟩

/-- What was received is settled, and the answers that were pushed until then are sent. -/
theorem served_later {first : Service} {trace : Trace Service.step (prompt n ordered) first} (fair : FairService trace)
    (threads : 0 < n) {k : Nat} (serving : ∀ m, k ≤ m → Serving n ordered id conn (trace.state m)) :
    ∃ j m, k ≤ j ∧ j ≤ m ∧
      (netPkg.frames ((trace.state k).received conn)).Subperm
        (((trace.state j).settled conn).map fun done => done.1.data) ∧
      (trace.state m).server.loop = .idle ∧
      ((trace.state j).packets conn).flatten.length ≤ ((trace.state m).server.sentOn conn).length := by
  have run : ∀ m, k ≤ m → FairRun (trace.suffix m) (Serving n ordered id conn) := fun m later =>
    { toFairService := fair.suffix m
      threads := threads
      known := fun i => serving (m + i) (later.trans (Nat.le_add_right ..))
      inv := fun s known => known.inv }
  -- all that was received is handed on once the loop thread is back
  obtain ⟨i, _, idle⟩ := (run k (Nat.le_refl k)).loop_returns (P := fun _ => True) 0 trivial
  have here := Nat.le_add_right k i
  have back := serving (k + i) here
  have whole := back.inv.receive.whole back.owner back.going fun fd pc at_ => by cases idle.symm.trans at_
  obtain ⟨i', settled⟩ := handedOn_settled (run (k + i) here)
  have data : (((trace.state (k + i)).server.handedOn conn).map Work.data) =
      netPkg.frames ((trace.state (k + i)).received conn) := by
    rw [whole.1, List.map_map]
    exact List.map_id _
  have received : (netPkg.frames ((trace.state k).received conn)).Subperm
      (((trace.state (k + i + i')).settled conn).map fun done => done.1.data) := by
    refine (frames_mono (received_along trace here conn)).sublist.subperm.trans ?_
    have works := subperm_map Work.data settled
    rw [List.map_map] at works
    exact data ▸ works
  have there : k ≤ k + i + i' := here.trans (Nat.le_add_right ..)
  obtain ⟨i'', _, back, sent⟩ := (run (k + i + i') there).all_sent
    (fun m => (packets_along trace (Nat.le_add_right (k + i + i') m) conn).flatten.length_le) 0 trivial
  exact ⟨k + i + i', k + i + i' + i'', there, Nat.le_add_right .., received, back, sent⟩

end Clients

end SvrNet

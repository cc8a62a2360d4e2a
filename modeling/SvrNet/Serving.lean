import SvrNet.FrontLeaves

namespace SvrNet
open CData StepSystem Trace

section First

variable {α : Type} {p : α → Bool} {x : α} {l later : List α}

theorem findIdx_tail_lt (other : p x = false) : later.findIdx p < (x :: later).findIdx p := by
  rw [List.findIdx_cons, other]
  exact Nat.lt_succ_self _

theorem findIdx_of_append (some : ∃ x ∈ l, p x = true) : (l ++ later).findIdx p = l.findIdx p :=
  (List.prefix_append l later).findIdx_eq_of_findIdx_lt_length (List.findIdx_lt_length.mpr some)

end First

section Queued

variable {β : Type} {queue later : SendQueue β} {id other : ConnId} {data : List β}

/-- How many entries stand in front of the first one of the connection. -/
def firstOf (queue : SendQueue β) (id : ConnId) : Nat := queue.findIdx (·.1 = id)

theorem firstOf_tail_lt {entry : ConnId × List β} (different : entry.1 ≠ id) : firstOf later id < firstOf (entry :: later) id :=
  findIdx_tail_lt (decide_eq_false different)

theorem queuedBytes_sublist (id : ConnId) (sublist : later.Sublist queue) : queuedBytes later id ≤ queuedBytes queue id := by
  induction sublist with
  | slnil => exact Nat.le_refl _
  | cons entry _ ih =>
    rw [queuedBytes_cons]
    omega
  | cons_cons entry _ ih =>
    rw [queuedBytes_cons, queuedBytes_cons]
    omega

/-- Entries of other connections that leave do not push the first one of this connection back. -/
theorem firstOf_sublist (sublist : later.Sublist queue) (filled : ∀ entry ∈ queue, entry.2 ≠ [])
    (same : queuedBytes later id = queuedBytes queue id) : firstOf later id ≤ firstOf queue id := by
  induction sublist with
  | slnil => exact Nat.le_refl _
  | @cons later queue entry sublist ih =>
    rw [queuedBytes_cons] at same
    have fewer := queuedBytes_sublist id sublist
    have size := List.length_pos_iff.mpr (filled entry (List.mem_cons_self ..))
    by_cases own : entry.1 = id
    · rw [if_pos own] at same
      omega
    · rw [if_neg own, Nat.zero_add] at same
      exact (ih (fun entry member => filled entry (List.mem_cons_of_mem _ member)) same).trans (firstOf_tail_lt own).le
  | @cons_cons later queue entry sublist ih =>
    rw [queuedBytes_cons, queuedBytes_cons, Nat.add_left_cancel_iff] at same
    have behind := ih (fun entry member => filled entry (List.mem_cons_of_mem _ member)) same
    unfold firstOf at behind ⊢
    rw [List.findIdx_cons, List.findIdx_cons]
    cases decide (entry.1 = id) with
    | true => exact Nat.le_refl _
    | false => exact Nat.succ_le_succ behind

theorem queued_of_bytes (some : 0 < queuedBytes queue id) : ∃ entry ∈ queue, entry.1 = id := by
  by_contra none
  have free : queue.filter (·.1 = id) = [] :=
    List.filter_eq_nil_iff.mpr fun entry member here => none ⟨entry, member, of_decide_eq_true here⟩
  rw [queuedBytes, free] at some
  cases some

theorem queuedBytes_pos (filled : ∀ entry ∈ queue, entry.2 ≠ []) (some : ∃ entry ∈ queue, entry.1 = id) :
    0 < queuedBytes queue id := by
  obtain ⟨entry, member, here⟩ := some
  have alone := queuedBytes_sublist id (List.singleton_sublist.mpr member)
  have size := List.length_pos_iff.mpr (filled entry member)
  rw [queuedBytes_cons, if_pos here] at alone
  omega

theorem firstOf_push (some : ∃ entry ∈ queue, entry.1 = id) : firstOf (qSendPush queue other data) id = firstOf queue id := by
  cases queue with
  | nil =>
    obtain ⟨entry, member, _⟩ := some
    cases member
  | cons front later =>
    rw [qSendPush]
    split
    · rfl
    · exact findIdx_of_append (by simpa using some)

theorem queued_push (some : ∃ entry ∈ queue, entry.1 = id) : ∃ entry ∈ qSendPush queue other data, entry.1 = id := by
  obtain ⟨entry, member, here⟩ := some
  cases queue with
  | nil => cases member
  | cons front later =>
    rw [qSendPush]
    split
    · rcases List.mem_cons.mp member with rfl | behind
      · exact ⟨_, List.mem_cons_self .., here⟩
      · exact ⟨entry, List.mem_cons_of_mem _ behind, here⟩
    · exact ⟨entry, List.mem_append_left _ member, here⟩

/-- There is data in every entry of the send queue. -/
def FilledInv (s : Server) : Prop := ∀ entry ∈ s.net.sendQueue, entry.2 ≠ []

theorem FilledInv.step {s s' : Server} {act : ServerAct} (inv : FilledInv s) (step : ServerStep s act s') : FilledInv s' := by
  refine step.entries_kept (P := fun data => data ≠ []) inv ?_ ?_
  · intro i outdata outlen work _ size _
    have head : 0 < netPkgSize := by decide
    refine List.length_pos_iff.mp ?_
    rw [size]
    omega
  · exact fun front data _ some _ => List.append_ne_nil_of_right_ne_nil _ some

end Queued

/-- A connection that the server goes on serving. -/
structure Serving (n : Nat) (ordered : Bool) (id : ConnId) (conn : Nat) (s : Service) : Prop where
  inv : PromptInv n s
  owner : s.server.ident id = some conn
  going : s.ended conn = false
  filled : FilledInv s.server
  conserved : Conserved ordered s id conn

section Requests

variable {n : Nat} {ordered : Bool} {id : ConnId} {conn : Nat} {s s' : Service} {act : ServerAct}

/-- Requests are settled one by one. -/
theorem ServiceStep.settled_next (step : ServiceStep s act s') (conn : Nat) :
    s'.settled conn = s.settled conn ∨ ∃ done, s'.settled conn = s.settled conn ++ [done] := by
  have settles : ∀ work reply, s'.settled = s.settle work reply →
      s'.settled conn = s.settled conn ∨ ∃ done, s'.settled conn = s.settled conn ++ [done] := by
    intro work reply settled
    rw [settled, Service.settle]
    split
    · exact Or.inr ⟨_, rfl⟩
    · exact Or.inl rfl
  cases step with
  | @loop _ _ _ event => cases event <;> exact Or.inl rfl
  | respond | finish => exact settles _ _ rfl
  | other => exact Or.inl rfl

/-- A worker that is done with a request of the connection has settled it. -/
theorem ServiceStep.settles_own {i : Nat} {work : Work TByte} (step : ServiceStep s act s') (own : act.ofWorker i)
    (proc : s.server.worker i = .proc work) (owner : s.server.ident work.connid = some conn) :
    ∃ reply, s'.settled conn = s.settled conn ++ [(work, reply)] := by
  cases step with
  | loop => cases own
  | respond at_ | finish at_ =>
    cases own
    cases at_.symm.trans proc
    exact ⟨_, if_pos owner⟩
  | other step _ noRespond =>
    cases step with
    | take at_ | signal at_ =>
      cases own
      cases at_.symm.trans proc
    | respond | finish => exact absurd rfl (noRespond _ _)
    | _ => cases own

/-- How often a request of the connection is settled. -/
def Service.times (s : Service) (conn : Nat) (work : Work TByte) : Nat := ((s.settled conn).map Prod.fst).count work

theorem ServiceStep.times_next (step : ServiceStep s act s') (conn : Nat) (work : Work TByte) :
    s'.times conn work = s.times conn work ∨ s.times conn work < s'.times conn work := by
  rcases step.settled_next conn with same | ⟨done, more⟩
  · exact Or.inl (by rw [Service.times, Service.times, same])
  · rw [Service.times, Service.times, more, List.map_append, List.count_append]
    omega

theorem ServiceStep.times_own {i : Nat} {work : Work TByte} (step : ServiceStep s act s') (own : act.ofWorker i)
    (proc : s.server.worker i = .proc work) (owner : s.server.ident work.connid = some conn) :
    s.times conn work < s'.times conn work := by
  obtain ⟨reply, more⟩ := step.settles_own own proc owner
  rw [Service.times, Service.times, more, List.map_append, List.count_append, List.map_singleton, List.count_singleton_self]
  exact Nat.lt_succ_self _

/-- What is not settled yet is with a worker or in the pool. -/
theorem Serving.unsettled {work : Work TByte} (serving : Serving n ordered id conn s)
    (fewer : s.times conn work < (s.server.handedOn conn).count work) :
    work.connid = id ∧ ((∃ i, s.server.worker i = .proc work) ∨ work ∈ s.server.net.pool) := by
  obtain ⟨hands, _, held, requests⟩ := serving.conserved.requests
  have size := requests.perm.count_eq work
  rw [List.count_append, ← Service.times] at size
  have member : work ∈ s.server.worksOf (hands.map Prod.snd ++ s.server.net.pool) conn :=
    List.count_pos_iff.mp (by omega)
  obtain ⟨somewhere, same⟩ := List.mem_filter.mp member
  refine ⟨serving.inv.known.owners.distinct work.connid id conn (of_decide_eq_true same) serving.owner, ?_⟩
  rcases List.mem_append.mp somewhere with hand | pool
  · obtain ⟨⟨i, _⟩, holds, rfl⟩ := List.mem_map.mp hand
    exact Or.inl ⟨i, (held i _).mp holds⟩
  · exact Or.inr pool

end Requests

section Responses

variable {n : Nat} {ordered : Bool} {id : ConnId} {conn : Nat} {s s' : Service} {act : ServerAct} {front : ConnId}
  {data : List RByte} {later : SendQueue RByte}

/-- How many bytes of the responses have left the queue. -/
def Service.taken (s : Service) (id : ConnId) (conn : Nat) : Nat :=
  (s.server.sentOn conn).length + (s.server.unsent id).length

theorem Conserved.balanced (conserved : Conserved ordered s id conn) :
    (s.packets conn).flatten.length = s.taken id conn + queuedBytes s.server.net.sendQueue id := by
  obtain ⟨used, parts, queue, responses, spelled⟩ := conserved.responses
  rw [← queuedBytes_plain, queue, queuedBytes_joined, Service.taken, ← List.length_append, spelled, ← List.length_append,
    ← List.flatten_append]
  exact responses.perm.symm.flatten.length_eq

/-- A step lets entries leave the queue, or a worker pushes a response. -/
theorem ServiceStep.responses_next (step : ServiceStep s act s') (id : ConnId) (conn : Nat) :
    (s'.packets conn = s.packets conn ∧ s'.server.net.sendQueue.Sublist s.server.net.sendQueue) ∨
      (∃ other bytes, s'.server.net.sendQueue = qSendPush s.server.net.sendQueue other bytes) ∧
        s'.taken id conn = s.taken id conn := by
  cases step with
  | @loop _ _ _ event _ inner =>
    refine Or.inl ⟨?_, ?_⟩
    · cases event <;> rfl
    · rw [Server.observe_net]
      exact inner.sendQueue_sublist
  | respond => exact Or.inr ⟨⟨_, _, rfl⟩, rfl⟩
  | finish => exact Or.inl ⟨Service.packets_declined rfl conn, List.Sublist.refl _⟩
  | other step notLoop noRespond =>
    refine Or.inl ⟨rfl, ?_⟩
    cases step with
    | loop => exact absurd rfl (notLoop _)
    | respond => exact absurd rfl (noRespond _ _)
    | sendPurge => exact qSendRemoveAll_sublist ..
    | _ => exact List.Sublist.refl _

/-- What leaves the queue under the id is sent. -/
theorem Serving.shrunk (old : Serving n ordered id conn s) (new : Serving n ordered id conn s')
    (packets : s'.packets conn = s.packets conn) (sublist : s'.server.net.sendQueue.Sublist s.server.net.sendQueue) :
    s.taken id conn < s'.taken id conn ∨ s'.taken id conn = s.taken id conn ∧
      queuedBytes s'.server.net.sendQueue id = queuedBytes s.server.net.sendQueue id := by
  have before := old.conserved.balanced
  have after := new.conserved.balanced
  have fewer := queuedBytes_sublist id sublist
  rw [packets] at after
  omega

theorem Serving.taken_mono (old : Serving n ordered id conn s) (new : Serving n ordered id conn s')
    (step : ServiceStep s act s') : s.taken id conn ≤ s'.taken id conn := by
  rcases step.responses_next id conn with ⟨packets, sublist⟩ | ⟨_, same⟩
  · rcases old.shrunk new packets sublist with more | ⟨same, _⟩
    · exact more.le
    · exact same.ge
  · exact same.ge

/-- When the front entry leaves, some of the responses to the connection is sent, or its first entry moves up. -/
theorem Serving.moves_up (old : Serving n ordered id conn s) (new : Serving n ordered id conn s')
    (packets : s'.packets conn = s.packets conn) (queue : s.server.net.sendQueue = (front, data) :: later)
    (behind : s'.server.net.sendQueue.Sublist later) (waits : ∃ entry ∈ s.server.net.sendQueue, entry.1 = id) :
    s.taken id conn < s'.taken id conn ∨
      (s'.taken id conn = s.taken id conn ∧ ∃ entry ∈ s'.server.net.sendQueue, entry.1 = id) ∧
        firstOf s'.server.net.sendQueue id < firstOf s.server.net.sendQueue id := by
  have some := queuedBytes_pos old.filled waits
  have filled := old.filled
  have sublist : s'.server.net.sendQueue.Sublist s.server.net.sendQueue := by
    rw [queue]
    exact behind.cons _
  rcases old.shrunk new packets sublist with more | ⟨same, bytes⟩
  · exact Or.inl more
  · refine Or.inr ⟨⟨same, queued_of_bytes (by rw [bytes]; exact some)⟩, ?_⟩
    unfold FilledInv at filled
    rw [queue] at bytes filled ⊢
    have fewer := queuedBytes_sublist id behind
    have size := List.length_pos_iff.mpr (filled _ (List.mem_cons_self ..))
    rw [queuedBytes_cons] at bytes
    by_cases own : front = id
    · rw [if_pos own] at bytes
      omega
    · rw [if_neg own, Nat.zero_add] at bytes
      exact (firstOf_sublist behind (fun entry member => filled entry (List.mem_cons_of_mem _ member)) bytes).trans_lt
        (firstOf_tail_lt own)

/-- No more is settled than was handed on. -/
theorem Serving.settled_le (serving : Serving n ordered id conn s) :
    (s.settled conn).length ≤ (s.server.handedOn conn).length := by
  obtain ⟨hands, _, _, requests⟩ := serving.conserved.requests
  have size := requests.perm.length_eq
  rw [List.length_append, List.length_map] at size
  omega

/-- When all requests are settled and all responses sent, nothing goes by the id. -/
theorem Serving.quiet (serving : Serving n ordered id conn s) (idle : s.server.loop = .idle)
    (all : (s.server.handedOn conn).length ≤ (s.settled conn).length)
    (sent : (s.packets conn).flatten.length ≤ (s.server.sentOn conn).length) : Quiet s.server id := by
  obtain ⟨pool, workers⟩ := serving.conserved.all_settled serving.owner all
  refine ⟨pool, workers, fun entry member here => ?_, fun fd => by rw [idle]; nofun⟩
  have some := queuedBytes_pos serving.filled ⟨entry, member, here⟩
  have balanced := serving.conserved.balanced
  rw [Service.taken] at balanced
  omega

end Responses

namespace FairRun

variable {n : Nat} {ordered : Bool} {first : Service} {trace : Trace Service.step (prompt n ordered) first} {id : ConnId}
  {conn g : Nat}

/-- A worker settles the request that it has. -/
theorem held_settled (fair : FairRun trace (Serving n ordered id conn)) {i : Nat} (inside : i < n) {work : Work TByte}
    (here : work.connid = id) : trace.LeadsTo (fun s => s.times conn work = g ∧ s.server.worker i = .proc work)
      fun s => g < s.times conn work := by
  refine fair.worker_goes inside ?_ ?_ ?_
  · intro act before after _ _ holds _ run other
    obtain ⟨count, busy⟩ := holds
    have step := Service.step_spec run
    rcases step.times_next conn work with same | more
    · exact Or.inl ⟨same.trans count, (step.server.worker_kept other).trans busy⟩
    · exact Or.inr (count ▸ more)
  · intro act before after old _ holds _ run own
    obtain ⟨count, proc⟩ := holds
    exact count ▸ (Service.step_spec run).times_own own proc (here ▸ old.owner)
  · intro s _ holds idle
    cases idle.symm.trans holds.2

/-- A request comes to the front of the pool, and a worker takes it. -/
theorem pooled_taken (fair : FairRun trace (Serving n ordered id conn)) {work : Work TByte} :
    trace.LeadsTo (fun s => s.times conn work = g ∧ work ∈ s.server.net.pool) fun s =>
      g < s.times conn work ∨ s.times conn work = g ∧ ∃ i, s.server.worker i = .proc work := by
  refine LeadsTo.ranked (fun s => s.server.net.pool.findIdx (· = work)) fun r => ?_
  have taken : ∀ (i : Nat) (first : Work TByte) (before after : Service),
      (before.times conn work = g ∧ work ∈ before.server.net.pool) ∧ before.server.net.pool.findIdx (· = work) = r →
      after.times conn work = g → before.server.net.pool = first :: after.server.net.pool →
      after.server.worker i = .proc first →
      (g < after.times conn work ∨ after.times conn work = g ∧ ∃ i, after.server.worker i = .proc work) ∨
      (after.times conn work = g ∧ work ∈ after.server.net.pool) ∧ after.server.net.pool.findIdx (· = work) < r := by
    intro i first before after holds count pool takes
    obtain ⟨⟨_, member⟩, rank⟩ := holds
    by_cases own : first = work
    · exact Or.inl (Or.inr ⟨count, i, own ▸ takes⟩)
    · rw [pool] at member rank
      rcases List.mem_cons.mp member with same | later
      · exact absurd same.symm own
      · exact Or.inr ⟨⟨count, later⟩, rank ▸ findIdx_tail_lt (decide_eq_false own)⟩
  refine fair.takes ?_ ?_ ?_
  · intro s _ holds empty
    have member := holds.1.2
    rw [empty] at member
    cases member
  · intro act before after _ _ holds _ run
    have step := Service.step_spec run
    rcases step.times_next conn work with same | more
    · have count := same.trans holds.1.1
      rcases step.server.pool_next with same | ⟨i, first, _, takes, pool⟩ | ⟨_, _, _, last, _, _, _, added⟩
      · exact Or.inl ⟨⟨count, by rw [same]; exact holds.1.2⟩, by rw [same]; exact holds.2⟩
      · exact Or.inr (taken i first before after holds count pool takes)
      · obtain ⟨⟨_, member⟩, rank⟩ := holds
        have same : (before.server.net.pool ++ [last]).findIdx (· = work) = before.server.net.pool.findIdx (· = work) :=
          findIdx_of_append ⟨work, member, decide_eq_true rfl⟩
        refine Or.inl ⟨⟨count, ?_⟩, ?_⟩
        · rw [added]
          exact List.mem_append_left _ member
        · rw [added, same, rank]
    · exact Or.inr (Or.inl (Or.inl (holds.1.1 ▸ more)))
  · intro i first before after _ holds run pool takes
    rcases (Service.step_spec run).times_next conn work with same | more
    · exact taken i first before after holds (same.trans holds.1.1) pool takes
    · exact Or.inl (Or.inl (holds.1.1 ▸ more))

/-- So the server goes on settling a request as long as it was handed on more often. -/
theorem more_settled (fair : FairRun trace (Serving n ordered id conn)) {work : Work TByte} :
    trace.LeadsTo (fun s => s.times conn work = g ∧ g < (s.server.handedOn conn).count work)
      fun s => g < s.times conn work := by
  have held : work.connid = id → trace.LeadsTo
      (fun s => s.times conn work = g ∧ ∃ i, s.server.worker i = .proc work) fun s => g < s.times conn work := by
    intro here k holds
    obtain ⟨count, i, proc⟩ := holds
    have inside : i < n := by
      by_contra beyond
      cases proc.symm.trans ((fair.inv _ (fair.known k)).threads i (Nat.not_lt.mp beyond))
    exact fair.held_settled inside here k ⟨count, proc⟩
  intro k holds
  obtain ⟨count, fewer⟩ := holds
  obtain ⟨here, busy | waiting⟩ := (fair.known k).unsettled (count ▸ fewer)
  · exact held here k ⟨count, busy⟩
  · exact (fair.pooled_taken.resolve (held here)) k ⟨count, waiting⟩

/-- As often as a request was handed on, it is settled some time. -/
theorem all_settled (fair : FairRun trace (Serving n ordered id conn)) (work : Work TByte) {target : Nat}
    (handed : ∀ k, target ≤ ((trace.state k).server.handedOn conn).count work) :
    trace.LeadsTo (fun _ => True) fun s => target ≤ s.times conn work := by
  refine LeadsTo.ranked (fun s => target - s.times conn work) fun r => ?_
  intro k holds
  by_cases done : target ≤ (trace.state k).times conn work
  · exact ⟨k, Nat.le_refl k, Or.inl done⟩
  · obtain ⟨m, later, more⟩ := fair.more_settled k ⟨rfl, (Nat.not_le.mp done).trans_le (handed k)⟩
    refine ⟨m, later, Or.inr ⟨trivial, ?_⟩⟩
    have rank := holds.2
    omega

/-- Some response to the connection is in the queue, and so many bytes have left it. -/
def Waiting (id : ConnId) (conn g : Nat) (s : Service) : Prop :=
  s.taken id conn = g ∧ ∃ entry ∈ s.server.net.sendQueue, entry.1 = id

/-- The entries in front of it leave the queue one after the other. -/
theorem fronting_first {front : ConnId} {r : Nat} : Fronting n ordered (Serving n ordered id conn)
    (fun s => (Waiting id conn g s ∧ firstOf s.server.net.sendQueue id = r) ∧
      ∃ data later, s.server.net.sendQueue = (front, data) :: later)
    (fun s => g < s.taken id conn ∨ Waiting id conn g s ∧ firstOf s.server.net.sendQueue id < r) front := by
  have leaves : ∀ (before after : Service) (data : List RByte) (later : SendQueue RByte), Serving n ordered id conn before →
      Serving n ordered id conn after → after.packets conn = before.packets conn →
      before.server.net.sendQueue = (front, data) :: later → after.server.net.sendQueue.Sublist later →
      Waiting id conn g before ∧ firstOf before.server.net.sendQueue id = r →
      g < after.taken id conn ∨ Waiting id conn g after ∧ firstOf after.server.net.sendQueue id < r := by
    intro before after data later old new packets queue behind holds
    obtain ⟨⟨count, waits⟩, rank⟩ := holds
    rw [← count, ← rank]
    exact old.moves_up new packets queue behind waits
  refine ⟨fun s _ holds => holds.2, ?_, ?_⟩
  · intro act before after old new holds _ run
    obtain ⟨⟨⟨count, waits⟩, rank⟩, data, later, queue⟩ := holds
    rcases (Service.step_spec run).responses_next id conn with ⟨packets, sublist⟩ | ⟨⟨other, bytes, pushed⟩, same⟩
    · have within := sublist
      rw [queue] at within
      rcases List.sublist_cons_iff.mp within with behind | ⟨rest, there, _⟩
      · exact Or.inr (leaves before after data later old new packets queue behind ⟨⟨count, waits⟩, rank⟩)
      · rcases old.shrunk new packets sublist with more | ⟨same, bytes⟩
        · exact Or.inr (Or.inl (count ▸ more))
        · have some := queuedBytes_pos old.filled waits
          have still : Waiting id conn g after := ⟨same.trans count, queued_of_bytes (by rw [bytes]; exact some)⟩
          rcases Nat.lt_or_eq_of_le (firstOf_sublist sublist old.filled bytes) with less | kept
          · exact Or.inr (Or.inr ⟨still, rank ▸ less⟩)
          · exact Or.inl ⟨⟨still, kept.trans rank⟩, data, rest, there⟩
    · refine Or.inl ⟨⟨⟨same.trans count, by rw [pushed]; exact queued_push waits⟩, ?_⟩, ?_⟩
      · rw [pushed, firstOf_push waits, rank]
      · rw [pushed, queue, qSendPush]
        split
        · exact ⟨_, _, rfl⟩
        · exact ⟨_, _, rfl⟩
  · intro act before after old new holds _ run gone
    obtain ⟨holds, data, later, queue⟩ := holds
    rcases (Service.step_spec run).responses_next id conn with ⟨packets, sublist⟩ | ⟨⟨other, bytes, pushed⟩, _⟩
    · refine leaves before after data later old new packets queue ?_ holds
      rcases gone with tail | none
      · rw [tail, queue]
        exact List.Sublist.refl _
      · rw [queue] at sublist
        rcases List.sublist_cons_iff.mp sublist with behind | ⟨rest, there, _⟩
        · exact behind
        · exact absurd none (unqueued_not_front there)
    · rw [queue, qSendPush] at pushed
      rcases gone with tail | none
      · rw [tail, queue, List.tail_cons] at pushed
        have size := congrArg List.length pushed
        split at size
        · simp at size
        · simp at size
          omega
      · split at pushed
        · exact absurd none (unqueued_not_front pushed)
        · exact absurd none (unqueued_not_front pushed)

/-- So the server goes on sending responses to the connection as long as there are any. -/
theorem more_taken (fair : FairRun trace (Serving n ordered id conn)) :
    trace.LeadsTo (Waiting id conn g) fun s => g < s.taken id conn := by
  refine LeadsTo.ranked (fun s => firstOf s.server.net.sendQueue id) fun r => ?_
  intro k holds
  cases queue : (trace.state k).server.net.sendQueue with
  | nil =>
    obtain ⟨⟨_, entry, member, _⟩, _⟩ := holds
    rw [queue] at member
    cases member
  | cons entry later => exact fronting_first.leaves fair k ⟨holds, entry.2, later, queue⟩

/-- Whatever number of bytes was pushed, as many are sent some time when the loop thread is back. -/
theorem all_sent (fair : FairRun trace (Serving n ordered id conn)) {target : Nat}
    (pushed : ∀ k, target ≤ ((trace.state k).packets conn).flatten.length) :
    trace.LeadsTo (fun _ => True) fun s => s.server.loop = .idle ∧ target ≤ (s.server.sentOn conn).length := by
  have leave : trace.LeadsTo (fun _ => True) fun s => target ≤ s.taken id conn := by
    refine LeadsTo.ranked (fun s => target - s.taken id conn) fun r => ?_
    intro k holds
    by_cases done : target ≤ (trace.state k).taken id conn
    · exact ⟨k, Nat.le_refl k, Or.inl done⟩
    · have balanced := (fair.known k).conserved.balanced
      have enough := pushed k
      obtain ⟨m, later, more⟩ := fair.more_taken k ⟨rfl, queued_of_bytes (by omega)⟩
      refine ⟨m, later, Or.inr ⟨trivial, ?_⟩⟩
      have rank := holds.2
      omega
  have stays : Unless Service.step (prompt n ordered) (Serving n ordered id conn) (fun s => target ≤ s.taken id conn)
      fun s => s.server.loop = .idle ∧ target ≤ (s.server.sentOn conn).length := fun act before after old new reached _ run =>
    Or.inl (reached.trans (old.taken_mono new (Service.step_spec run)))
  refine (leave.trans (fair.loop_returns.along fun m => stays.next fair.known m)).resolve (LeadsTo.of_imp fun k holds => ?_)
  obtain ⟨reached, idle⟩ := holds
  have nothing := Server.unsent_none (s := (trace.state k).server) (by simp [idle])
  rw [Service.taken, nothing] at reached
  exact ⟨idle, reached⟩

end FairRun

end SvrNet

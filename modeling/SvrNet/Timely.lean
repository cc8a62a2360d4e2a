import SvrNet.DeadFront
import SvrNet.ServiceLedger
import SvrNet.Wakeup

namespace SvrNet
open CData StepSystem

/-- The connection that the listening thread has put into the table and not yet registered. -/
def ListenPc.joining : ListenPc → Option ConnId
  | .add _ connId | .remove _ connId => some connId
  | _ => none

/-- Some thread is about to remove the connection from the table, or may have to. -/
def Server.Leaving (s : Server) (id : ConnId) : Prop :=
  s.loop.dropping = some id ∨ s.send.removing = some id ∨ s.listen.joining = some id

instance (s : Server) (id : ConnId) : Decidable (s.Leaving id) := inferInstanceAs (Decidable (_ ∨ _ ∨ _))

/-- Responses are pushed for connections in the table, and not while they are being removed. -/
def timely : ServerAct → Server → Prop
  | .respond i (some _), s => ∀ work ∈ (s.worker i).work,
      (s.net.conntable work.connid).isSome ∧ ¬ s.Leaving work.connid
  | _, _ => True

instance : ∀ (act : ServerAct) (s : Server), Decidable (timely act s)
  | .respond i (some _), s => inferInstanceAs (Decidable (∀ work ∈ (s.worker i).work,
      (s.net.conntable work.connid).isSome ∧ ¬ s.Leaving work.connid))
  | .respond _ none, _ | .accept _, _ | .insert _, _ | .add _, _ | .listenRemove, _ | .wait _, _ | .dispatch, _
  | .loop _, _ | .send _, _ | .wake, _ | .take _, _ | .signal _, _ => inferInstanceAs (Decidable True)

/-- The handlers stay in the buffer that they are given. -/
def within : ServerAct → Prop
  | .respond _ (some (outdata, _)) => outdata.length ≤ netPackSizeLimit
  | _ => True

instance : ∀ act : ServerAct, Decidable (within act)
  | .respond _ (some (outdata, _)) => inferInstanceAs (Decidable (outdata.length ≤ netPackSizeLimit))
  | .respond _ none | .accept _ | .insert _ | .add _ | .listenRemove | .wait _ | .dispatch | .loop _ | .send _ | .wake
  | .take _ | .signal _ => inferInstanceAs (Decidable True)

/-- The runs in which the send thread gets to every response: no wake-up is lost, and no response is
pushed that the send thread could not get rid of. -/
def prompt (n : Nat) (ordered : Bool) (act : ServerAct) (s : Service) : Prop :=
  keepingReusing n ordered act s ∧ signalHeard act s.server ∧ timely act s.server ∧ within act

/-- The same without any signal in the window before `pthread_cond_wait`. -/
def promptly (n : Nat) (ordered : Bool) (act : ServerAct) (s : Service) : Prop :=
  keepingReusing n ordered act s ∧ windowFree act s.server ∧ timely act s.server ∧ within act

instance (n : Nat) (ordered : Bool) (act : ServerAct) (s : Service) : Decidable (promptly n ordered act s) :=
  inferInstanceAs (Decidable (_ ∧ _ ∧ _ ∧ _))

theorem prompt_of_promptly {n : Nat} {ordered : Bool} {act : ServerAct} {s : Service}
    (allowed : promptly n ordered act s) : prompt n ordered act s := by
  obtain ⟨keeping, free, timely, within⟩ := allowed
  refine ⟨keeping, ?_, timely, within⟩
  cases act with
  | signal i => exact fun window => absurd window free
  | _ => trivial

section Leaving

variable {s s' : Server} {act : ServerAct} {id : ConnId}

/-- Nothing is queued for a connection that is being removed. -/
def LeavingInv (s : Server) : Prop := ∀ id, s.Leaving id → Unqueued s.net.sendQueue id

theorem leavingInv_init : LeavingInv Server.init := fun _ _ _ member => absurd member List.not_mem_nil

theorem Unqueued.shrink {β : Type} {queue later : SendQueue β} (unqueued : Unqueued queue id)
    (sublist : later.Sublist queue) : Unqueued later id :=
  fun entry member => unqueued entry (sublist.subset member)

theorem unqueued_removeAll {β : Type} (queue : SendQueue β) (id : ConnId) :
    Unqueued (qSendRemoveAllByConnid queue id) id := by
  intro entry member
  simpa using (List.mem_filter.mp member).2

theorem Unqueued.push {β : Type} {queue : SendQueue β} {data : List β} {other : ConnId}
    (unqueued : Unqueued queue id) (different : other ≠ id) : Unqueued (qSendPush queue other data) id := by
  intro entry member
  rcases mem_qSendPush member with old | ⟨owner, _⟩
  · exact unqueued entry old
  · rw [owner]
    exact different

/-- Steps that push nothing. -/
theorem LeavingInv.quiet (inv : LeavingInv s) (queue : s'.net.sendQueue.Sublist s.net.sendQueue)
    (leaving : ∀ id, s'.Leaving id → s.Leaving id ∨ Unqueued s'.net.sendQueue id) : LeavingInv s' :=
  fun id about => (leaving id about).elim (fun old => (inv id old).shrink queue) fun gone => gone

theorem LeavingInv.step_loop (inv : LeavingInv s) {lact : LoopAct TByte} {net : NetSvr TByte RByte}
    {loop : LoopPc TByte RByte} {event : LoopEvent TByte RByte} (step : LoopStep true s.net s.loop lact net loop event) :
    LeavingInv (({ s with net := net, loop := loop } : Server).observe event) := by
  refine inv.quiet (by simpa using step.sendQueue_sublist) ?_
  rintro id (dropping | removing | joining)
  · right
    rw [Server.observe_loop] at dropping
    rw [Server.observe_net]
    generalize s.loop = before at step
    cases step with
    | inMissing | inFound | outMissing | outFound => cases dropping
    | epollout inner => rcases inner.pc_next with rfl | ⟨next, rfl⟩ <;> cases dropping
    | epollin inner =>
      cases inner with
      | purge =>
        cases dropping
        exact unqueued_removeAll _ _
      | findLong _ _ next => rcases next with rfl | rfl <;> cases dropping
      | _ => cases dropping
  · rw [Server.observe_send] at removing
    exact Or.inl (Or.inr (Or.inl removing))
  · rw [Server.observe_listen] at joining
    exact Or.inl (Or.inr (Or.inr joining))

theorem LeavingInv.step (inv : LeavingInv s) (tableInv : TableInv s) (isolation : IsolationInv s)
    (fresh : freshId act s) (inTime : timely act s) (step : ServerStep s act s') : LeavingInv s' := by
  have same : s'.net.sendQueue = s.net.sendQueue → (∀ id, s'.Leaving id → s.Leaving id) → LeavingInv s' :=
    fun queue leaving => inv.quiet (by rw [queue]) fun id about => Or.inl (leaving id about)
  cases step with
  | loop _ step => exact inv.step_loop step
  | @insert fd draws id at_ inserted =>
    refine inv.quiet (.refl _) ?_
    rintro other (dropping | removing | joining)
    · exact Or.inl (Or.inl dropping)
    · exact Or.inl (Or.inr (Or.inl removing))
    · -- an id that nothing goes by has no entries
      cases joining
      refine Or.inr fun entry member owner => ?_
      rcases fresh fd (by rw [at_]; rfl) _ inserted with unused | free
      · have known := isolation.known tableInv (.queue member owner)
        simp [unused] at known
      · exact free (.queue member owner)
  | sendPurge at_ =>
    refine inv.quiet (qSendRemoveAll_sublist ..) ?_
    rintro other (dropping | removing | joining)
    · exact Or.inl (Or.inl dropping)
    · cases removing
      exact Or.inr (unqueued_removeAll _ _)
    · exact Or.inl (Or.inr (Or.inr joining))
  | respond at_ =>
    intro other leaving
    refine (inv other leaving).push fun owner => ?_
    have staying := (inTime _ (by rw [at_]; rfl)).2
    rw [owner] at staying
    exact staying leaving
  | accept at_ | add at_ | listenRemove at_ =>
    refine same rfl ?_
    rintro other (dropping | removing | joining)
    · exact Or.inl dropping
    · exact Or.inr (Or.inl removing)
    · cases joining
  | addFail at_ =>
    refine same rfl ?_
    rintro other (dropping | removing | joining)
    · exact Or.inl dropping
    · exact Or.inr (Or.inl removing)
    · refine Or.inr (Or.inr ?_)
      rw [at_]
      exact joining
  | dispatch _ _ loop =>
    refine same rfl ?_
    rintro other (dropping | outside)
    · rcases loop with rfl | rfl <;> cases dropping
    · exact Or.inr outside
  | frontEmpty | front | sendWait | sendWoken | lookupMissing | lookupFound | modify | modifyFail | sendRemove | wake =>
    refine same rfl ?_
    rintro other (dropping | removing | joining)
    · exact Or.inl dropping
    · cases removing
    · exact Or.inr (Or.inr joining)
  | signal =>
    refine same rfl ?_
    rintro other (dropping | removing | joining)
    · exact Or.inl dropping
    · refine Or.inr (Or.inl ?_)
      dsimp only at removing
      split at removing
      · cases removing
      · exact removing
    · exact Or.inr (Or.inr joining)
  | wait | take | finish => exact same rfl fun _ leaving => leaving

theorem LeavingInv.aliveOnly (inv : LeavingInv s) (inTime : timely act s) : aliveOnly act s := by
  cases act with
  | respond i reply =>
    cases reply with
    | none => trivial
    | some out => exact fun work member => (inTime work member).1
  | loop => exact fun connid dropping => inv connid (Or.inl dropping)
  | send => exact fun connid removing => inv connid (Or.inr (Or.inl removing))
  | listenRemove =>
    intro connId removing
    refine inv connId (Or.inr (Or.inr ?_))
    cases at_ : s.listen with
    | remove fd id =>
      rw [at_] at removing
      exact removing
    | _ => simp [at_, ListenPc.removing] at removing
  | _ => trivial

end Leaving

section Fits

variable {s s' : Server} {act : ServerAct} {n : Nat}

/-- Every entry of the send queue fits into the buffer of `handle_EPOLLOUT_event`. -/
def FitInv (s : Server) : Prop := ∀ entry ∈ s.net.sendQueue, entry.2.length ≤ netSendBuffSize

theorem qSendPush_entries {β : Type} {P : List β → Prop} {queue : SendQueue β} {id : ConnId} {data : List β}
    (entries : ∀ entry ∈ queue, P entry.2) (alone : P data)
    (merged : ∀ front, P front → front.length + data.length < netSendBuffSize → P (front ++ data)) :
    ∀ entry ∈ qSendPush queue id data, P entry.2 := by
  intro entry member
  cases queue with
  | nil =>
    rw [List.mem_singleton.mp member]
    exact alone
  | cons front later =>
    simp only [qSendPush] at member
    split at member
    · rename_i room
      rcases List.mem_cons.mp member with rfl | behind
      · exact merged front.2 (entries front (List.mem_cons_self ..)) room.2
      · exact entries entry (List.mem_cons_of_mem _ behind)
    · rcases List.mem_append.mp member with before | new
      · exact entries entry before
      · rw [List.mem_singleton.mp new]
        exact alone

theorem length_workPack {work : Work TByte} {outdata : List UInt8} {outlen : Nat}
    (room : outlen + netPkgSize ≤ outdata.length) (bound : outlen + netPkgSize ≤ intMax) :
    (workPack work outdata outlen).length = outlen + netPkgSize := by
  rw [workPack, List.length_map, builtPack_eq _ room bound, List.length_append, length_packHead,
    List.length_take_of_le (by omega)]
  omega

/-- What every entry of the send queue has, as long as it holds of the packets that are pushed. -/
theorem ServerStep.entries_kept {P : List RByte → Prop} (step : ServerStep s act s')
    (entries : ∀ entry ∈ s.net.sendQueue, P entry.2)
    (pushed : ∀ i outdata outlen work, act = .respond i (some (outdata, outlen)) →
      (workPack work outdata outlen).length = outlen + netPkgSize → outlen + netPkgSize ≤ outdata.length →
      P (workPack work outdata outlen))
    (merged : ∀ front data, P front → P data → front.length + data.length < netSendBuffSize → P (front ++ data)) :
    ∀ entry ∈ s'.net.sendQueue, P entry.2 := by
  cases step with
  | loop _ step =>
    intro entry member
    rw [Server.observe_net] at member
    exact entries entry (step.sendQueue_sublist.subset member)
  | sendPurge => exact fun entry member => entries entry ((qSendRemoveAll_sublist ..).subset member)
  | @respond i work outdata outlen _ room bound =>
    have alone := pushed i outdata outlen work rfl (length_workPack room bound) room
    exact qSendPush_entries entries alone fun front before => merged front _ before alone
  | _ => exact entries

theorem FitInv.step (inv : FitInv s) (inside : within act) (step : ServerStep s act s') : FitInv s' := by
  refine step.entries_kept (P := fun data => data.length ≤ netSendBuffSize) inv ?_ ?_
  · intro i outdata outlen work same size room
    rw [same] at inside
    have inside : outdata.length ≤ netPackSizeLimit := inside
    have limit : netRemainCacheSize = netPackSizeLimit := rfl
    obtain ⟨_, _, cache, _, buff, _⟩ := limits
    rw [size]
    omega
  · intro front data _ _ room
    rw [List.length_append]
    exact room.le

end Fits

/-- What holds in every state of a prompt run. -/
structure PromptInv (n : Nat) (s : Service) : Prop where
  known : ServiceKnown s
  receive : ReceiveInv s
  asserted : ∀ i work, s.server.worker i = .proc work → workAssert work = true
  sentinel : SentinelInv s.server
  live : LiveQueue s.server
  leaving : LeavingInv s.server
  fits : FitInv s.server
  wake : WakeInv s.server
  threads : ThreadsInv n s.server

variable {n : Nat} {ordered : Bool} {s : Service} {packets : Nat → List (List TByte)}

theorem prompt_reach (reach : Reach Service.step (prompt n ordered) Service.init s) :
    Reach Service.step (keepingQuiet ordered) Service.init s :=
  keepingQuiet_reach (reach.mono fun _ _ allowed => allowed.1)

theorem promptInv_reach (reach : Reach Service.step (prompt n ordered) Service.init s)
    (wellFormed : ∀ conn, ∀ packet ∈ packets conn, WellFormed packet)
    (initial : ∀ conn, s.received conn <+: (packets conn).flatten) : PromptInv n s := by
  have known : ∀ s, Reach Service.step (prompt n ordered) Service.init s → ServiceKnown s := fun s reach =>
    serviceKnown_reach (prompt_reach reach) fun _ _ allowed => allowed.2.1.1
  have threads : ∀ s, Reach Service.step (prompt n ordered) Service.init s → ThreadsInv n s.server := fun s reach =>
    threadsInv_reach (Service.server_reach reach fun _ _ allowed => allowed.1.1.1)
  have receive := receiveInv_reach ((prompt_reach reach).mono fun _ _ allowed => allowed.2.1) wellFormed initial
  have server : ∀ s, Reach Service.step (prompt n ordered) Service.init s →
      SentinelInv s.server ∧ LeavingInv s.server := fun s reach =>
    ⟨sentinelInv_reach (Service.server_reach (prompt_reach reach) fun _ _ allowed => allowed.1),
      reach.invariant_of (P := fun s => LeavingInv s.server) (fun s reach => And.intro (known s reach) (threads s reach))
        leavingInv_init fun _ _ _ old _ inv allowed run =>
          inv.step old.1.table old.1.isolation (freshId_of_quietId (quietId_of_reusesId old.2 allowed.1.1.1))
            allowed.2.2.1 (Service.step_spec run).server⟩
  obtain ⟨sentinel, leaving⟩ := server s reach
  refine ⟨known s reach, receive, fun _ _ => receive.asserted (known s reach).isolation wellFormed initial, sentinel,
    ?_, leaving, ?_, ?_, ?_⟩
  · exact reach.invariant_of (P := fun s => LiveQueue s.server) server (fun _ member => absurd member List.not_mem_nil)
      fun _ _ _ server _ inv allowed run => inv.step (server.2.aliveOnly allowed.2.2.1) (Service.step_server run)
  · exact reach.invariant (P := fun s => FitInv s.server) (fun _ member => absurd member List.not_mem_nil)
      fun _ _ _ inv allowed run => inv.step allowed.2.2.2 (Service.step_spec run).server
  · exact reach.invariant_of (P := fun s => WakeInv s.server) server
      (fun blocking => by simp [Service.init, Server.init] at blocking)
      fun _ _ _ server _ inv allowed run => inv.step server.1 allowed.2.1 (Service.step_server run)
  · exact threads s reach

end SvrNet

import SvrNet.RecvBounds

namespace SvrNet
open CData StepSystem

variable {α : Type} [Cell α]

/-- A packet as the protocol allows it. -/
def WellFormed (packet : List α) : Prop :=
  netPkg.IsFrame packet ∧ headLength packet ≤ netPackSpaceSizeLimit

instance (packet : List α) : Decidable (WellFormed packet) := inferInstanceAs (Decidable (_ ∧ _))

/-- Every run of the handler for readable events ends because there is nothing more to read. -/
def onlyAgain : ReactorAct α → Reactor α → Prop
  | .loop (.recv .closed), _ => False
  | .loop (.recv (.fail errno)), _ => errno.again = true
  | _, _ => True

instance : ∀ (act : ReactorAct α) (s : Reactor α), Decidable (onlyAgain act s)
  | .loop (.recv .closed), _ => inferInstanceAs (Decidable False)
  | .loop (.recv (.fail errno)), _ => inferInstanceAs (Decidable (errno.again = true))
  | .loop (.recv (.data _)), _ | .loop .tau, _ | .loop (.send _), _ | .loop (.ctl _), _ | .eventIn _, _
  | .eventOut _, _ | .take, _ | .respond _ _ _ _, _ => inferInstanceAs (Decidable True)

/-- The request that a packet of a connection becomes. -/
def requestOf (id : ConnId) (packet : List α) : Work α := ⟨id, packet.length, packet⟩

/-- Of the packets that make up the stream of a connection, as many as have been received whole
were handed on, one by one and in order, and what was received of the next one is kept. -/
def Reassembled (s : Reactor α) (id : ConnId) (packets : List (List α)) : Prop :=
  ∃ count tail, s.received id = (packets.take count).flatten ++ tail ∧
    (tail = [] ∨ ∃ next, packets[count]? = some next ∧ tail <+: next ∧ tail ≠ next) ∧
    s.handed id = (packets.take count).map (requestOf id) ∧
    s.net.recvMap id = if tail.isEmpty then none else some tail

section Stream

variable {β : Type} {net : NetSvr α β} {connid : ConnId} {pc : InPc α} {packets : List (List α)}
  {stream bytes : List α}

/-- New bytes of a stream that the receive path can take, wherever the stream was cut before: every
announced size is a positive `int`, the unfinished packet at their end is smaller than one `recv` asks
for, and the one that a run starts with fits into the cache buffer. -/
def StreamAdmitted (pc : InPc α) (stream bytes : List α) : Prop :=
  netPkg.TotalsLe intMax (stream ++ bytes) ∧ (netPkg.rest (stream ++ bytes)).length < netRecvSizeLimit ∧
    (pc.isFirstRecv = true → (netPkg.rest stream).length ≤ netRemainCacheSize)

/-- Received bytes are what the receive path can take of the stream of their connection. -/
def streamAdmittedOnly : ReactorAct α → Reactor α → Prop :=
  onReceive fun s connid pc bytes => StreamAdmitted pc (s.received connid) bytes

/-- Streams of well-formed packets can be taken however they are cut. -/
theorem streamAdmitted_of_initial (wellFormed : ∀ packet ∈ packets, WellFormed packet)
    (initial : stream ++ bytes <+: packets.flatten) : StreamAdmitted pc stream bytes := by
  have each : ∀ packet ∈ packets, netPkg.IsFrame packet := fun packet member => (wellFormed packet member).1
  have small : ∀ packet ∈ packets, packet.length ≤ netPkgSize + netPackSpaceSizeLimit := by
    intro packet member
    obtain ⟨⟨_, whole⟩, limit⟩ := wellFormed packet member
    rw [netPkg_total] at whole
    omega
  have sizes := Framing.TotalsLe.of_initial each small initial
  have unfinished := Framing.rest_length_lt_of_prefix (by decide) each small initial
  have before := Framing.rest_length_lt_of_prefix (by decide) each small
    ((List.prefix_append stream bytes).trans initial)
  exact ⟨sizes.mono (by decide), unfinished.trans_le (by decide), fun _ => (before.trans_le (by decide)).le⟩

/-- A receiver of a stream whose sizes were bounded so far takes of it what it has room for. -/
theorem admitted_iff_stream {done : List (List α)} (incomplete : ¬ netPkg.Complete (cached net connid))
    (delivered : netPkg.Delivered done (inHeld (cached net connid) pc) stream)
    (sized : netPkg.TotalsLe intMax stream) : Admitted net connid pc bytes ↔ StreamAdmitted pc stream bytes := by
  have moved := delivered.receive bytes
  have sizes : netPkg.TotalsLe intMax (stream ++ bytes) ↔ _ := moved.totalsLe_iff
  have kept : pc.isFirstRecv = true → netPkg.rest stream = cached net connid := by
    -- in front of the first `recv` nothing but the kept remainder is held
    intro first
    obtain rfl : pc = .firstRecv := by cases pc <;> simp_all [InPc.isFirstRecv]
    rw [delivered.2, inHeld_firstRecv, Framing.rest_of_incomplete incomplete]
  rw [Admitted, StreamAdmitted, sizes, moved.2, and_iff_right (delivered.totalsLe_iff.mp sized).1]
  refine and_congr_right fun _ => and_congr_right fun _ => forall_congr' fun first => ?_
  rw [kept first]

end Stream

/-- What has been received of each connection is what was handed on, then what is held. -/
structure ReassemblyInv (s : Reactor α) : Prop where
  recvInv : RecvInv s.net s.pc
  sized : ∀ id, netPkg.TotalsLe intMax (s.received id)
  delivered : ∀ id, netPkg.Delivered ((s.handed id).map Work.data) (held s.net s.pc id) (s.received id)
  requests : ∀ id, ∀ work ∈ s.handed id, work = requestOf id work.data
  serving : ∀ connid curfd pc, s.pc = .epollin connid curfd pc → pc.closing = false

theorem reassemblyInv_init (conntable : ConnTable) :
    ReassemblyInv (Reactor.init conntable : Reactor α) where
  recvInv := Reactor.recvInv_init conntable
  sized := fun _ => Framing.totalsLe_nil
  delivered := fun _ => Framing.Delivered.nothing
  requests := by simp [Reactor.init]
  serving := by simp [Reactor.init]

/-- What is received is only ever added to. -/
theorem ReactorStep.received_mono {asserts : Bool} {act : ReactorAct α} {s s' : Reactor α}
    (step : ReactorStep asserts s act s') (id : ConnId) : s.received id <+: s'.received id := by
  rcases step.streams with ⟨same, _⟩ | ⟨connid, curfd, pc, loopAct, net, pc', event, _, _, _, rfl⟩
  · rw [same]
  · cases event with
    | received other fd bytes =>
      by_cases here : id = other
      · subst here
        simp [Reactor.observe]
      · simp [Reactor.observe, here]
    | _ => exact List.prefix_refl _

section Step

variable {connid : ConnId} {curfd : Int} {pc : InPc α} {act : LoopAct α} {net net' : NetSvr α UInt8}
  {pc' : LoopPc α UInt8} {event : LoopEvent α UInt8}

/-- A handler that serves its connection goes on doing so, as long as nothing but a lack of data
ends it. -/
theorem InStep.serving_next {asserts : Bool} {next : InPc α}
    (step : InStep asserts net connid curfd pc act net' (.epollin connid curfd next) event)
    (serving : pc.closing = false) (open_ : act ≠ .recv .closed) : next.closing = false := by
  cases step with
  | firstClosed | recvClosed => exact absurd rfl open_
  | purge | drop | forget => simp [InPc.closing] at serving
  | findLong _ _ next =>
    rcases next with next | next <;> cases next
    rfl
  | _ => rfl

theorem ReassemblyInv.step_epollin {s : Reactor α} (inv : ReassemblyInv s)
    (at_ : s.pc = .epollin connid curfd pc)
    (step : InStep true s.net connid curfd pc act net' pc' event)
    (again : onlyAgain (.loop act) s)
    (admitted : ∀ bytes, act = .recv (.data bytes) → Admitted s.net connid pc bytes) :
    ReassemblyInv (({ s with net := net', pc := pc' } : Reactor α).observe event) := by
  obtain ⟨recvInv, sized, delivered, requests, serving⟩ := inv
  rw [at_] at recvInv delivered
  have open_ : act ≠ .recv .closed := by rintro rfl; exact again
  have stays : ¬ Leaves pc act := by
    rintro (closed | forget | ⟨errno, failed, hard⟩)
    · exact open_ closed
    · have := serving _ _ _ at_
      simp [forget, InPc.closing] at this
    · subst hard
      exact Bool.false_ne_true (failed.symm.trans again)
  have next := recvInv.step step admitted
  obtain ⟨others, change⟩ := step.held_change (recvInv.locals _ _ _ rfl)
    (by simpa using recvInv.sized connid) next.noFault
  have streams : ∀ id, netPkg.Delivered
      (((({ s with net := net', pc := pc' } : Reactor α).observe event).handed id).map Work.data)
      (held net' pc' id) ((({ s with net := net', pc := pc' } : Reactor α).observe event).received id) ∧
      ∀ work ∈ (({ s with net := net', pc := pc' } : Reactor α).observe event).handed id,
        work = requestOf id work.data := by
    intro id
    have old := delivered id
    by_cases here : id = connid
    · subst here
      cases event with
      | received other fd bytes =>
        obtain ⟨rfl, moved⟩ := change
        rw [held_self] at old moved
        simpa [Reactor.observe, moved] using ⟨old.receive bytes, requests other⟩
      | handed fd work =>
        obtain ⟨form, whole, split⟩ := change
        have owner : work.connid = id := by rw [form]
        rw [split] at old
        refine ⟨by simpa [Reactor.observe, owner] using old.deliver whole, ?_⟩
        simp only [Reactor.observe, owner, Function.update_self, List.mem_append, List.mem_singleton]
        rintro one (earlier | rfl)
        · exact requests id one earlier
        · exact form
      | _ =>
        rcases change with same | ⟨_, leaves⟩
        · exact ⟨same ▸ old, requests id⟩
        · exact absurd leaves stays
    · rw [others id here]
      cases event with
      | received other fd bytes =>
        obtain ⟨rfl, _⟩ := change
        simpa [Reactor.observe, here] using ⟨old, requests id⟩
      | handed fd work =>
        obtain ⟨form, _⟩ := change
        have owner : id ≠ work.connid := by rwa [form]
        simpa [Reactor.observe, owner] using ⟨old, requests id⟩
      | _ => exact ⟨old, requests id⟩
  have sizes : ∀ id, netPkg.TotalsLe intMax
      ((({ s with net := net', pc := pc' } : Reactor α).observe event).received id) := by
    intro id
    cases event with
    | received other fd bytes =>
      by_cases here : id = other
      · subst here
        obtain ⟨rfl, _⟩ := change
        have old := delivered id
        rw [held_self] at old
        have taken := admitted bytes step.act_of_received
        simpa [Reactor.observe] using
          ((admitted_iff_stream (recvInv.cached_incomplete id) old (sized id)).mp taken).1
      · simpa [Reactor.observe, here] using sized id
    | _ => exact sized id
  refine ⟨by simpa using next, sizes, fun id => ?_, fun id => (streams id).2, ?_⟩
  · simpa using (streams id).1
  · rw [Reactor.observe_pc]
    rintro other fd pc₂ rfl
    rcases step.pc_next with stop | ⟨fault, stop⟩ | ⟨_, same⟩
    · simp at stop
    · simp at stop
    · cases same
      exact step.serving_next (serving _ _ _ at_) open_

theorem ReassemblyInv.step {act : ReactorAct α} {s s' : Reactor α} (inv : ReassemblyInv s)
    (again : onlyAgain act s) (admitted : admittedOnly act s) (run : Reactor.step true act s = some s') :
    ReassemblyInv s' := by
  rcases (Reactor.step_spec run).streams with
    ⟨received, handed, holds, fresh⟩ | ⟨connid, curfd, pc, loopAct, net, pc', event, rfl, at_, inStep, rfl⟩
  · refine ⟨Reactor.recvInv_step inv.recvInv admitted run, ?_, ?_, ?_, fun connid curfd pc here => ?_⟩
    · rw [received]
      exact inv.sized
    · rw [received, handed, holds]
      exact inv.delivered
    · rw [handed]
      exact inv.requests
    · rcases fresh with same | first
      · exact inv.serving connid curfd pc (same ▸ here)
      · rw [first connid curfd pc here]
        rfl
  · refine inv.step_epollin at_ inStep again fun bytes data => ?_
    subst data
    simpa [admittedOnly, onReceive, at_] using admitted

/-- What the receive path has room for is decided by the streams alone. -/
theorem ReassemblyInv.admitted_iff {act : ReactorAct α} {s : Reactor α} (inv : ReassemblyInv s) :
    admittedOnly act s ↔ streamAdmittedOnly act s := by
  refine onReceive_congr fun connid curfd pc bytes at_ => ?_
  have delivered := inv.delivered connid
  rw [at_, held_self] at delivered
  exact admitted_iff_stream (inv.recvInv.cached_incomplete connid) delivered (inv.sized connid)

/-- What a step receives of streams of well-formed packets can be taken. -/
theorem ReactorStep.streamAdmitted {act : ReactorAct α} {s s' : Reactor α} {packets : ConnId → List (List α)}
    (step : ReactorStep true s act s') (wellFormed : ∀ id, ∀ packet ∈ packets id, WellFormed packet)
    (initial : ∀ id, s'.received id <+: (packets id).flatten) : streamAdmittedOnly act s := by
  unfold streamAdmittedOnly onReceive
  split
  · rename_i bytes connid curfd pc at_
    refine streamAdmitted_of_initial (wellFormed connid) ?_
    cases step with
    | epollin here inStep =>
      cases here.symm.trans at_
      cases inStep.event_of_data
      simpa [Reactor.observe] using initial connid
    | epollout here => simp [at_] at here
  · trivial

theorem reassemblyInv_of {guard : ReactorAct α → Reactor α → Prop} {conntable : ConnTable} {s : Reactor α}
    (reach : Reach (Reactor.step true) guard (Reactor.init conntable) s)
    (narrow : ∀ act s, ReassemblyInv s → guard act s → onlyAgain act s ∧ admittedOnly act s) : ReassemblyInv s :=
  reach.invariant (reassemblyInv_init conntable) fun _ _ _ inv allowed run =>
    inv.step (narrow _ _ inv allowed).1 (narrow _ _ inv allowed).2 run

theorem reassemblyInv_reach {conntable : ConnTable} {s : Reactor α} {packets : ConnId → List (List α)}
    (wellFormed : ∀ id, ∀ packet ∈ packets id, WellFormed packet)
    (reach : Reach (Reactor.step true) onlyAgain (Reactor.init conntable) s)
    (initial : ∀ id, s.received id <+: (packets id).flatten) : ReassemblyInv s := by
  induction reach with
  | start => exact reassemblyInv_init conntable
  | next _ again run ih =>
    have step := Reactor.step_spec run
    have earlier := ih fun id => (step.received_mono id).trans (initial id)
    exact earlier.step again (earlier.admitted_iff.mpr (step.streamAdmitted wellFormed initial)) run

/-- Where every run of the handler ends because there is nothing more to read, the condition under
which the receive path keeps to its buffers is one on the received bytes. -/
theorem admittedOnly_iff_streams {conntable : ConnTable} {s : Reactor α} :
    Reach (Reactor.step true) (fun act s => onlyAgain act s ∧ admittedOnly act s) (Reactor.init conntable) s ↔
      Reach (Reactor.step true) (fun act s => onlyAgain act s ∧ streamAdmittedOnly act s)
        (Reactor.init conntable) s := by
  constructor
  · intro reach
    refine reach.mono_of (K := ReassemblyInv) (fun _ reach => ?_) fun _ _ inv allowed => ?_
    · exact reassemblyInv_of reach fun _ _ _ allowed => allowed
    · exact ⟨allowed.1, inv.admitted_iff.mp allowed.2⟩
  · intro reach
    refine reach.mono_of (K := ReassemblyInv) (fun _ reach => ?_) fun _ _ inv allowed => ?_
    · exact reassemblyInv_of reach fun _ _ inv allowed => ⟨allowed.1, inv.admitted_iff.mpr allowed.2⟩
    · exact ⟨allowed.1, inv.admitted_iff.mpr allowed.2⟩

theorem recv_path_safe_of_streams {conntable : ConnTable} {s : Reactor α}
    (reach : Reach (Reactor.step true) (fun act s => onlyAgain act s ∧ streamAdmittedOnly act s)
      (Reactor.init conntable) s) : RecvSafe s.net s.pc := by
  have admitted := admittedOnly_iff_streams.mpr reach
  exact (Reactor.recvInv_reach (admitted.mono fun _ _ allowed => allowed.2)).safe

/-- One connection gets a packet and the header of the next one, another gets a whole packet. -/
def twoConnRun : List (ReactorAct UInt8) :=
  [.eventIn 7, .loop .tau,
    .loop (.recv (.data [0, 0, 1, 0, 0, 0, 1, 0, 0, 0, 65, 0, 0, 2, 0, 0, 0, 1, 0, 0, 0])),
    .loop .tau, .loop .tau, .loop .tau, .loop .tau, .loop .tau, .loop (.recv (.fail .eagain)), .loop .tau,
    .eventIn 8, .loop .tau, .loop (.recv (.data [0, 0, 9, 0, 0, 0, 0, 0, 0, 0])),
    .loop .tau, .loop .tau, .loop .tau, .loop .tau, .loop .tau, .loop (.recv (.fail .ewouldblock))]

def twoConnPackets (id : ConnId) : List (List UInt8) :=
  if id = 7 then [[0, 0, 1, 0, 0, 0, 1, 0, 0, 0, 65], [0, 0, 2, 0, 0, 0, 1, 0, 0, 0, 66]]
  else if id = 8 then [[0, 0, 9, 0, 0, 0, 0, 0, 0, 0]] else []

end Step

end SvrNet

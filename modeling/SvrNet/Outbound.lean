import SvrNet.Reactor
import SvrNet.SendParts

namespace SvrNet
open CData StepSystem

variable {α : Type} [Cell α]

/-- The connection that the loop thread is sending on. -/
def LoopPc.sending {β : Type} : LoopPc α β → Option ConnId
  | .epollout connid _ _ => some connid
  | _ => none

/-- The kernel accepts nothing more on a connection whose stream is torn. -/
def untornOnly : ReactorAct α → Reactor α → Prop
  | .loop (.send (.sent count)), s => 0 < count → ∀ connid ∈ s.pc.sending, s.torn connid = false
  | _, _ => True

instance : ∀ (act : ReactorAct α) (s : Reactor α), Decidable (untornOnly act s)
  | .loop (.send (.sent count)), s =>
    have := Option.decidableForallMem (p := fun connid => s.torn connid = false) s.pc.sending
    inferInstanceAs (Decidable (0 < count → ∀ connid ∈ s.pc.sending, s.torn connid = false))
  | .loop (.send (.fail _)), _ | .loop .tau, _ | .loop (.recv _), _ | .loop (.ctl _), _ | .eventIn _, _
  | .eventOut _, _ | .take, _ | .respond _ _ _ _, _ => inferInstanceAs (Decidable True)

/-- What is left of the entry that the loop thread is sending on a connection. -/
def unsent : LoopPc α UInt8 → ConnId → List UInt8
  | .epollout connid _ (.send sendbuf ptr buflen), id =>
    if connid = id then (sendbuf.drop ptr).take buflen else []
  | _, _ => []

/-- The packets `used` on a stream: those whose bytes were all accepted or are being sent. Once the
stream is torn it ends within one of them. -/
def Spelled (used : List (List UInt8)) (accepted unsent : List UInt8) (torn : Bool) : Prop :=
  if torn then accepted <+: used.flatten else accepted ++ unsent = used.flatten

structure OutboundInv (parts : SendQueue (List UInt8)) (s : Reactor α) : Prop where
  queue : s.net.sendQueue = joined parts
  frames : ∀ id, ∀ packet ∈ s.pushed id, netPkg.IsFrame packet
  spelled : ∀ id, ∃ used, (used ++ packetsOf parts id).Subperm (s.pushed id) ∧
    Spelled used (s.accepted id) (unsent s.pc id) (s.torn id)
  inside : ∀ connid sockfd sendbuf ptr buflen, s.pc = .epollout connid sockfd (.send sendbuf ptr buflen) →
    ptr + buflen = sendbuf.length

omit [Cell α] in
theorem outboundInv_init (conntable : ConnTable) :
    OutboundInv [] (Reactor.init conntable : Reactor α) where
  queue := rfl
  frames := by simp [Reactor.init]
  spelled := fun _ => ⟨[], List.nil_subperm, rfl⟩
  inside := by simp [Reactor.init]

theorem builtPack_isFrame {outdata : List UInt8} {outlen : Nat} (msgID : Int)
    (room : outlen + netPkgSize ≤ outdata.length) (bound : outlen + netPkgSize ≤ intMax) :
    netPkg.IsFrame (builtPack outdata outlen msgID) := by
  have size : (outdata.take outlen).length = outlen := List.length_take_of_le (by omega)
  have whole := packHead_isFrame msgID (show (outdata.take outlen).length ≤ intMax by omega)
  rw [size] at whole
  rwa [builtPack_eq msgID room bound]

section Spelled

variable {used whole : List (List UInt8)} {accepted bytes left : List UInt8} {torn : Bool}

theorem Spelled.pop (spelled : Spelled used accepted [] torn) :
    Spelled (used ++ whole) accepted whole.flatten torn := by
  unfold Spelled at spelled ⊢
  rw [List.flatten_append]
  split
  · rename_i cut
    rw [if_pos cut] at spelled
    exact spelled.trans (List.prefix_append ..)
  · rename_i intact
    rw [if_neg intact, List.append_nil] at spelled
    rw [spelled]

theorem Spelled.accept (spelled : Spelled used accepted (bytes ++ left) torn)
    (allowed : 0 < bytes.length → torn = false) : Spelled used (accepted ++ bytes) left torn := by
  unfold Spelled at spelled ⊢
  split at spelled
  · rename_i cut
    cases bytes with
    | nil => rwa [List.append_nil, if_pos cut]
    | cons => simp [cut] at allowed
  · rename_i intact
    rw [if_neg intact, List.append_assoc, spelled]

/-- When sending is given up, the stream is torn, or it ends with a whole packet. -/
theorem Spelled.giveUp (spelled : Spelled used accepted left torn)
    (frames : ∀ packet ∈ used, netPkg.IsFrame packet) :
    ∃ kept, kept.Sublist used ∧ Spelled kept accepted [] (torn || !(netPkg.rest accepted).isEmpty) := by
  cases torn with
  | true => exact ⟨used, .refl used, spelled⟩
  | false =>
    have initial : accepted <+: used.flatten := ⟨left, spelled⟩
    cases ending : netPkg.rest accepted with
    | cons => exact ⟨used, .refl used, initial⟩
    | nil =>
      obtain ⟨count, taken, _⟩ := Framing.frames_of_prefix frames initial
      have spelt := Framing.flatten_frames_append_rest (F := netPkg) accepted
      rw [taken, ending, List.append_nil] at spelt
      refine ⟨used.take count, List.take_sublist .., ?_⟩
      simpa [Spelled] using spelt.symm

theorem Spelled.initial (spelled : Spelled used accepted left torn) : accepted <+: used.flatten := by
  unfold Spelled at spelled
  split at spelled
  · exact spelled
  · exact ⟨left, spelled⟩

end Spelled

omit [Cell α] in
theorem unsent_other {connid id : ConnId} {sockfd : Int} {pc : OutPc UInt8} (other : id ≠ connid) :
    unsent (.epollout connid sockfd pc : LoopPc α UInt8) id = [] := by
  cases pc <;> simp [unsent, Ne.symm other]

omit [Cell α] in
/-- Every accepted byte is the next one of those not yet sent. -/
theorem unsent_sendSome (connid : ConnId) (sockfd : Int) (sendbuf : List UInt8) (ptr : Nat)
    {buflen count : Nat} (fits : count ≤ buflen) :
    (sendbuf.drop ptr).take count ++ unsent (.epollout connid sockfd
        (if 0 < buflen - count then .send sendbuf (ptr + count) (buflen - count) else .rearm) :
          LoopPc α UInt8) connid = (sendbuf.drop ptr).take buflen := by
  have split : (sendbuf.drop ptr).take buflen =
      (sendbuf.drop ptr).take count ++ (sendbuf.drop (ptr + count)).take (buflen - count) := by
    rw [← List.drop_drop, ← List.take_add, Nat.add_sub_cancel' fits]
  rw [split]
  split
  · simp [unsent]
  · rename_i none
    simp [unsent, Nat.eq_zero_of_not_pos none]

section Step

variable {parts : SendQueue (List UInt8)} {s s' : Reactor α}

omit [Cell α] in
/-- A step that concerns one connection only. -/
theorem OutboundInv.of_conn {parts' : SendQueue (List UInt8)} (inv : OutboundInv parts s) (connid : ConnId)
    (queue : s'.net.sendQueue = joined parts') (pushed : s'.pushed = s.pushed)
    (others : ∀ id, id ≠ connid → packetsOf parts' id = packetsOf parts id ∧
      s'.accepted id = s.accepted id ∧ s'.torn id = s.torn id ∧ unsent s'.pc id = unsent s.pc id)
    (own : ∀ used, (used ++ packetsOf parts connid).Subperm (s.pushed connid) →
      Spelled used (s.accepted connid) (unsent s.pc connid) (s.torn connid) →
      ∃ used', (used' ++ packetsOf parts' connid).Subperm (s.pushed connid) ∧
        Spelled used' (s'.accepted connid) (unsent s'.pc connid) (s'.torn connid))
    (inside : ∀ connid sockfd sendbuf ptr buflen, s'.pc = .epollout connid sockfd (.send sendbuf ptr buflen) →
      ptr + buflen = sendbuf.length) : OutboundInv parts' s' := by
  refine ⟨queue, pushed ▸ inv.frames, fun id => ?_, inside⟩
  obtain ⟨used, subperm, spelled⟩ := inv.spelled id
  rw [pushed]
  by_cases here : id = connid
  · subst here
    exact own used subperm spelled
  · obtain ⟨packets, accepted, torn, left⟩ := others id here
    exact ⟨used, packets ▸ subperm, by rwa [accepted, torn, left]⟩

omit [Cell α] in
/-- Steps that leave the streams as they are. -/
theorem OutboundInv.congr (inv : OutboundInv parts s) (queue : s'.net.sendQueue = s.net.sendQueue)
    (pushed : s'.pushed = s.pushed) (accepted : s'.accepted = s.accepted) (torn : s'.torn = s.torn)
    (left : unsent s'.pc = unsent s.pc) (inside : ∀ connid sockfd sendbuf ptr buflen,
      s'.pc = .epollout connid sockfd (.send sendbuf ptr buflen) → ptr + buflen = sendbuf.length) :
    OutboundInv parts s' := by
  refine ⟨queue.trans inv.queue, pushed ▸ inv.frames, fun id => ?_, inside⟩
  obtain ⟨used, subperm, spelled⟩ := inv.spelled id
  exact ⟨used, pushed ▸ subperm, by rwa [accepted, torn, left]⟩

omit [Cell α] in
theorem OutboundInv.step_epollout {connid : ConnId} {sockfd : Int} {pc : OutPc UInt8} {act : LoopAct α}
    {net : NetSvr α UInt8} {pc' : LoopPc α UInt8} {event : LoopEvent α UInt8}
    (inv : OutboundInv parts s) (at_ : s.pc = .epollout connid sockfd pc)
    (step : OutStep s.net connid sockfd pc act net pc' event) (allowed : untornOnly (.loop act) s) :
    ∃ parts', OutboundInv parts' (({ s with net := net, pc := pc' } : Reactor α).observe event) := by
  cases step with
  | popNothing =>
    exact ⟨parts, inv.congr rfl rfl rfl rfl (by rw [at_]; rfl) (by simp [Reactor.observe])⟩
  | popEntry entry =>
    rw [inv.queue] at entry ⊢
    obtain ⟨whole, rest, popped, packets, others⟩ := qSendPopFirst_joined entry
    rw [popped]
    refine ⟨rest, inv.of_conn connid rfl rfl (fun id other => ?_) (fun used subperm spelled => ?_) ?_⟩
    · exact ⟨others id other, rfl, rfl, by rw [at_, unsent_other other]; exact unsent_other other⟩
    · rw [at_] at spelled
      refine ⟨used ++ whole, by rwa [List.append_assoc, ← packets], ?_⟩
      have sending : unsent (.epollout connid sockfd (.send whole.flatten 0 whole.flatten.length) :
          LoopPc α UInt8) connid = whole.flatten := by
        rw [unsent, if_pos rfl, List.drop_zero, List.take_length]
      simpa only [Reactor.observe, sending] using Spelled.pop spelled
    · rintro _ _ _ _ _ ⟨⟩
      exact Nat.zero_add _
  | @sendSome sendbuf ptr buflen count fits =>
    have inside := inv.inside _ _ _ _ _ at_
    refine ⟨parts, inv.of_conn connid inv.queue rfl (fun id other => ?_) (fun used subperm spelled => ?_) ?_⟩
    · refine ⟨rfl, ?_, rfl, ?_⟩
      · simp [Reactor.observe, other]
      · rw [at_, unsent_other other]
        exact unsent_other other
    · have moved := unsent_sendSome (α := α) connid sockfd sendbuf ptr fits
      rw [at_, unsent, if_pos rfl, ← moved] at spelled
      have untorn : 0 < ((sendbuf.drop ptr).take count).length → s.torn connid = false := by
        intro some
        rw [List.length_take] at some
        exact allowed (by omega) connid (by rw [at_]; rfl)
      refine ⟨used, subperm, ?_⟩
      simpa [Reactor.observe] using spelled.accept untorn
    · intro other fd buf start left here
      simp only [Reactor.observe, LoopPc.epollout.injEq] at here
      obtain ⟨_, _, next⟩ := here
      split at next
      · cases next
        omega
      · simp at next
  | @sendAgain sendbuf ptr buflen errno again =>
    by_cases some : 0 < buflen
    · rw [if_pos some, ← at_]
      exact ⟨parts, inv.congr rfl rfl rfl rfl rfl inv.inside⟩
    · rw [if_neg some]
      have none : unsent s.pc = unsent (.epollout connid sockfd .rearm : LoopPc α UInt8) := by
        rw [at_, Nat.eq_zero_of_not_pos some]
        funext id
        simp [unsent]
      exact ⟨parts, inv.congr rfl rfl rfl rfl none.symm (by simp [Reactor.observe])⟩
  | @sendError sendbuf ptr buflen errno failed =>
    refine ⟨parts, inv.of_conn connid inv.queue rfl (fun id other => ?_) (fun used subperm spelled => ?_) ?_⟩
    · refine ⟨rfl, rfl, ?_, ?_⟩
      · simp [Reactor.observe, other]
      · rw [at_, unsent_other other]
        exact unsent_other other
    · have frames : ∀ packet ∈ used, netPkg.IsFrame packet := fun packet member =>
        inv.frames connid packet (subperm.subset (List.mem_append_left _ member))
      obtain ⟨kept, sublist, ended⟩ := spelled.giveUp frames
      refine ⟨kept, (sublist.append_right _).subperm.trans subperm, ?_⟩
      simpa [Reactor.observe, unsent] using ended
    · simp [Reactor.observe]
  | @rearm ok =>
    cases ok with
    | true => exact ⟨parts, inv.congr rfl rfl rfl rfl (by rw [at_]; rfl) (by simp [Reactor.observe])⟩
    | false => exact ⟨parts, inv.congr rfl rfl rfl rfl (by rw [at_]; rfl) (by simp [Reactor.observe])⟩

theorem OutboundInv.step_epollin {asserts : Bool} {connid : ConnId} {curfd : Int} {pc : InPc α}
    {act : LoopAct α} {net : NetSvr α UInt8} {pc' : LoopPc α UInt8} {event : LoopEvent α UInt8}
    (inv : OutboundInv parts s) (at_ : s.pc = .epollin connid curfd pc)
    (step : InStep asserts s.net connid curfd pc act net pc' event) :
    ∃ parts', OutboundInv parts' (({ s with net := net, pc := pc' } : Reactor α).observe event) := by
  have quiet : ∀ s : Reactor α, (s.observe event).pushed = s.pushed ∧
      (s.observe event).accepted = s.accepted ∧ (s.observe event).torn = s.torn := by
    cases step <;> exact fun _ => ⟨rfl, rfl, rfl⟩
  have outside : ∀ connid sockfd pc₂, pc' ≠ .epollout connid sockfd pc₂ := by
    rcases step.pc_next with rfl | ⟨fault, rfl⟩ | ⟨next, rfl⟩ <;> simp
  have left : unsent pc' = unsent s.pc := by
    rw [at_]
    rcases step.pc_next with rfl | ⟨fault, rfl⟩ | ⟨next, rfl⟩ <;> rfl
  obtain ⟨pushed, accepted, torn⟩ := quiet { s with net := net, pc := pc' }
  rcases step.sendQueue_next with same | purged
  · refine ⟨parts, inv.congr (by simpa using same) pushed accepted torn (by simpa using left) ?_⟩
    rw [Reactor.observe_pc]
    exact fun _ _ _ _ _ here => absurd here (outside _ _ _)
  · rw [inv.queue, joined_removeAll] at purged
    refine ⟨qSendRemoveAllByConnid parts connid, inv.of_conn connid (by simpa using purged) pushed
      (fun id other => ?_) (fun used subperm spelled => ?_) ?_⟩
    · rw [accepted, torn, Reactor.observe_pc, left]
      exact ⟨packetsOf_removeAll_other other, rfl, rfl, rfl⟩
    · rw [accepted, torn, Reactor.observe_pc, left, packetsOf_removeAll]
      refine ⟨used, ?_, spelled⟩
      rw [List.append_nil]
      exact (List.sublist_append_left ..).subperm.trans subperm
    · rw [Reactor.observe_pc]
      exact fun _ _ _ _ _ here => absurd here (outside _ _ _)

omit [Cell α] in
theorem OutboundInv.step_respond {connid : ConnId} {pack : List UInt8} (inv : OutboundInv parts s)
    (whole : netPkg.IsFrame pack) :
    OutboundInv (pushPart parts connid pack)
      { s with
        net := { s.net with sendQueue := qSendPush s.net.sendQueue connid pack }
        pushed := Function.update s.pushed connid (s.pushed connid ++ [pack]) } := by
  refine ⟨?_, fun id packet member => ?_, fun id => ?_, inv.inside⟩
  · rw [inv.queue]
    exact qSendPush_joined
  · dsimp only at member
    by_cases here : id = connid
    · subst here
      rw [Function.update_self, List.mem_append, List.mem_singleton] at member
      rcases member with old | rfl
      · exact inv.frames id packet old
      · exact whole
    · rw [Function.update_of_ne here] at member
      exact inv.frames id packet member
  · obtain ⟨used, subperm, spelled⟩ := inv.spelled id
    refine ⟨used, ?_, spelled⟩
    dsimp only
    by_cases here : id = connid
    · subst here
      have joins : (used ++ packetsOf (pushPart parts id pack) id).Perm
          ((used ++ packetsOf parts id) ++ [pack]) := by
        rw [List.append_assoc]
        exact packetsOf_pushPart.append_left used
      rw [Function.update_self]
      exact joins.subperm.trans ((List.subperm_append_right [pack]).mpr subperm)
    · rw [Function.update_of_ne here, packetsOf_pushPart_other here]
      exact subperm

theorem OutboundInv.step {asserts : Bool} {act : ReactorAct α} (inv : OutboundInv parts s)
    (allowed : untornOnly act s) (run : Reactor.step asserts act s = some s') :
    ∃ parts', OutboundInv parts' s' := by
  cases Reactor.step_spec run with
  | eventIn idle | eventOut idle =>
    exact ⟨parts, inv.congr rfl rfl rfl rfl (by rw [idle]; rfl) (by simp)⟩
  | inLookup at_ next =>
    refine ⟨parts, inv.congr rfl rfl rfl rfl ?_ ?_⟩
    · rcases next with rfl | ⟨curfd, rfl⟩ <;> rw [at_] <;> rfl
    · rcases next with rfl | ⟨curfd, rfl⟩ <;> simp
  | outLookup at_ next =>
    refine ⟨parts, inv.congr rfl rfl rfl rfl ?_ ?_⟩
    · rcases next with rfl | ⟨sockfd, rfl⟩ <;> rw [at_] <;> rfl
    · rcases next with rfl | ⟨sockfd, rfl⟩ <;> simp
  | epollin at_ step => exact inv.step_epollin at_ step
  | epollout at_ step => exact inv.step_epollout at_ step allowed
  | take => exact ⟨parts, inv.congr rfl rfl rfl rfl rfl inv.inside⟩
  | respond room bound => exact ⟨_, inv.step_respond (builtPack_isFrame _ room bound)⟩

/-- As long as nothing is accepted behind a packet that was given up half way, the bytes accepted
on a connection spell out pushed packets, each at most once, and a reader who goes by the length
fields finds just these. -/
theorem outbound_never_torn {asserts : Bool} {conntable : ConnTable} {s : Reactor α}
    (reach : Reach (Reactor.step asserts) untornOnly (Reactor.init conntable) s) (id : ConnId) :
    (∃ used : List (List UInt8), used.Subperm (s.pushed id) ∧ s.accepted id <+: used.flatten) ∧
      (netPkg.frames (s.accepted id)).Subperm (s.pushed id) := by
  obtain ⟨parts, inv⟩ := reach.invariant (P := fun s => ∃ parts, OutboundInv parts s)
    ⟨[], outboundInv_init conntable⟩ fun _ _ _ ⟨_, inv⟩ allowed run => inv.step allowed run
  obtain ⟨used, subperm, spelled⟩ := inv.spelled id
  have usedSubperm := (List.sublist_append_left used (packetsOf parts id)).subperm.trans subperm
  have frames : ∀ packet ∈ used, netPkg.IsFrame packet := fun packet member =>
    inv.frames id packet (usedSubperm.subset member)
  obtain ⟨count, taken, _⟩ := Framing.frames_of_prefix frames spelled.initial
  refine ⟨⟨used, usedSubperm, spelled.initial⟩, ?_⟩
  rw [taken]
  exact (List.take_sublist count used).subperm.trans usedSubperm

end Step

/-- A response is sent in two parts, and then a second one. -/
def twoResponses (failed : Bool) : List (ReactorAct UInt8) :=
  [.respond 7 [97, 98, 99, 0, 0, 0, 0, 0, 0, 0, 0, 0, 0] 3 1, .eventOut 7, .loop .tau, .loop .tau,
    .loop (.send (.sent 5)), .loop (.send (if failed then .fail .other else .sent 8)), .loop (.ctl true),
    .respond 7 [100, 101, 102, 0, 0, 0, 0, 0, 0, 0, 0, 0, 0] 3 2, .eventOut 7, .loop .tau, .loop .tau,
    .loop (.send (.fail .eagain)), .loop (.send (.sent 13))]

theorem outbound_never_torn_two_responses : ∃ s : Reactor UInt8,
    exec (guarded (Reactor.step true) untornOnly) (twoResponses false) (Reactor.init soleConn) = some s ∧
      (s.accepted 7).length = 26 ∧
      (∃ used : List (List UInt8), used.Subperm (s.pushed 7) ∧ s.accepted 7 <+: used.flatten) ∧
      (netPkg.frames (s.accepted 7)).Subperm (s.pushed 7) := by
  have ends : ∃ s, exec (guarded (Reactor.step true) untornOnly) (twoResponses false)
      (Reactor.init soleConn) = some s ∧ (s.accepted 7).length = 26 := exec_ends (by decide +kernel)
  obtain ⟨s, run, size⟩ := ends
  exact ⟨s, run, size, outbound_never_torn (reach_of_exec_guarded run) 7⟩

/-- When the first response fails half way, what follows on the socket is no packet any more. -/
theorem outbound_torn : ∃ s : Reactor UInt8,
    Reach (Reactor.step true) anyStep (Reactor.init soleConn) s ∧
      ¬ ∃ used : List (List UInt8), used.Subperm (s.pushed 7) ∧ s.accepted 7 <+: used.flatten := by
  have ends : ∃ s, exec (Reactor.step true) (twoResponses true) (Reactor.init soleConn) = some s ∧
      s.pushed 7 = [[0, 0, 1, 0, 0, 0, 3, 0, 0, 0, 97, 98, 99], [0, 0, 2, 0, 0, 0, 3, 0, 0, 0, 100, 101, 102]] ∧
      s.accepted 7 = [0, 0, 1, 0, 0, 0, 0, 2, 0, 0, 0, 3, 0, 0, 0, 100, 101, 102] := ⟨_, rfl, rfl, rfl⟩
  obtain ⟨s, run, pushed, accepted⟩ := ends
  refine ⟨s, reach_of_exec run, ?_⟩
  rintro ⟨used, subperm, initial⟩
  rw [accepted] at initial
  rw [pushed] at subperm
  cases used with
  | nil => exact absurd initial (by decide)
  | cons first later =>
    have member := subperm.subset (List.mem_cons_self ..)
    have whole : first.length = 13 ∧ ¬ first <+: [0, 0, 1, 0, 0, 0, 0, 2, 0, 0, 0, 3, 0, 0, 0, 100, 101, 102] := by
      simp only [List.mem_cons, List.not_mem_nil, or_false] at member
      rcases member with rfl | rfl <;> decide
    exact whole.2 (List.prefix_of_prefix_length_le (List.prefix_append first later.flatten) initial
      (by rw [whole.1]; decide))

end SvrNet

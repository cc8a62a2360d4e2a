import SvrNet.Reassembly

namespace SvrNet
open CData StepSystem

/-- In front of the insertion into the receive map, which is the operand of an assertion. -/
def LoopPc.storing {α β : Type} : LoopPc α β → Bool
  | .epollin _ _ (.store _ _) => true
  | _ => false

variable {α : Type} [Cell α]

/-- No unfinished bytes are put into the receive map. -/
def savesNothing : ReactorAct α → Reactor α → Prop
  | .loop _, s => s.pc.storing = false
  | _, _ => True

instance : ∀ (act : ReactorAct α) (s : Reactor α), Decidable (savesNothing act s)
  | .loop _, s => inferInstanceAs (Decidable (s.pc.storing = false))
  | .eventIn _, _ | .eventOut _, _ | .take, _ | .respond _ _ _ _, _ => inferInstanceAs (Decidable True)

/-- The build without assertions makes the same run, and whenever no handler is running it has handed
on the same packets in the same order and has the same receive map. -/
def NdebugAgrees (conntable : ConnTable) (acts : List (ReactorAct α)) : Prop :=
  ∀ done, done <+: acts → ∀ s, exec (Reactor.step true) done (Reactor.init conntable) = some s → s.pc = .idle →
    ∃ t, exec (Reactor.step false) done (Reactor.init conntable) = some t ∧ t.handed = s.handed ∧
      t.net.pool = s.net.pool ∧ t.net.recvMap = s.net.recvMap

/-- Whenever no handler is running, whole packets have been received on every connection. -/
def EndsWhole (conntable : ConnTable) (acts : List (ReactorAct α)) : Prop :=
  ∀ done, done <+: acts → ∀ s, exec (Reactor.step true) done (Reactor.init conntable) = some s → s.pc = .idle →
    ∀ id, netPkg.rest (s.received id) = []

/-- The asserting build has not stopped at an assertion. -/
def Unasserted (s : Reactor α) : Prop :=
  s.pc ≠ .fault .cacheBufNotEnough ∧ s.pc ≠ .fault .insertTaken

section Step

variable {net net' : NetSvr α UInt8} {connid : ConnId} {curfd : Int} {pc : InPc α} {act : LoopAct α}
  {pc' : LoopPc α UInt8} {event : LoopEvent α UInt8}

/-- Apart from the insertion, the handler does the same in both builds unless it stops at the
assertion. -/
theorem inStep_ndebug (run : inStep true net connid curfd pc act = some (net', pc', event))
    (quiet : ∀ recvBuff cacheSize, pc ≠ .store recvBuff cacheSize) (sound : pc' ≠ .fault .cacheBufNotEnough) :
    inStep false net connid curfd pc act = some (net', pc', event) := by
  cases pc with
  | find recvBuff err =>
    cases act with
    | tau =>
      simp only [inStep] at run ⊢
      split at run
      · rename_i found
        rw [if_pos found]
        exact run
      · rename_i missing
        rw [if_neg missing]
        split at run
        · cases run
          exact absurd rfl sound
        · rw [if_neg (by simp)]
          exact run
    | _ => simp [inStep] at run
  | store recvBuff cacheSize => exact absurd rfl (quiet recvBuff cacheSize)
  | firstRecv | recv =>
    cases act with
    | recv ret => cases ret <;> exact run
    | _ => exact run
  | uncache | parse | push | purge | drop | forget | close => cases act <;> exact run

theorem loopStep_ndebug {pc : LoopPc α UInt8} (run : loopStep true act net pc = some (net', pc', event))
    (quiet : pc.storing = false) (sound : pc' ≠ .fault .cacheBufNotEnough) :
    loopStep false act net pc = some (net', pc', event) := by
  cases pc with
  | epollin connid curfd pc =>
    refine inStep_ndebug run (fun recvBuff cacheSize same => ?_) sound
    subst same
    simp [LoopPc.storing] at quiet
  | idle | inLookup | outLookup | epollout | fault => exact run

end Step

variable {s s' : Reactor α} {act : ReactorAct α} {acts : List (ReactorAct α)} {conntable : ConnTable}

theorem Reactor.step_ndebug (run : Reactor.step true act s = some s') (quiet : savesNothing act s)
    (sound : Unasserted s') : Reactor.step false act s = some s' := by
  cases act with
  | loop act =>
    simp only [Reactor.step] at run ⊢
    split at run
    · simp at run
    · rename_i net pc event stepped
      cases run
      have sound : pc ≠ .fault .cacheBufNotEnough := by simpa using sound.1
      rw [loopStep_ndebug stepped quiet sound]
  | eventIn | eventOut | take | respond => exact run

/-- A thread that has left the defined behaviour takes no further step. -/
theorem Reactor.fault_stays {asserts : Bool} {fault : Fault} (run : Reactor.step asserts act s = some s')
    (stopped : s.pc = .fault fault) : s'.pc = .fault fault := by
  cases Reactor.step_spec run with
  | eventIn at_ | eventOut at_ | inLookup at_ | outLookup at_ | epollin at_ | epollout at_ =>
    simp [stopped] at at_
  | take | respond => exact stopped

theorem Unasserted.before {asserts : Bool} (sound : Unasserted s') (run : Reactor.step asserts act s = some s') :
    Unasserted s :=
  ⟨fun stopped => sound.1 (Reactor.fault_stays run stopped), fun stopped => sound.2 (Reactor.fault_stays run stopped)⟩

theorem Unasserted.before_exec {asserts : Bool} (sound : Unasserted s')
    (run : exec (Reactor.step asserts) acts s = some s') : Unasserted s := by
  induction acts generalizing s with
  | nil =>
    cases run
    exact sound
  | cons act acts ih =>
    obtain ⟨middle, one, rest⟩ := Option.bind_eq_some_iff.mp run
    exact (ih rest).before one

/-- A run that saves nothing is one of both builds. -/
theorem exec_ndebug (run : exec (guarded (Reactor.step true) savesNothing) acts s = some s') (sound : Unasserted s') :
    exec (Reactor.step false) acts s = some s' := by
  induction acts generalizing s with
  | nil => exact run
  | cons act acts ih =>
    obtain ⟨middle, one, rest⟩ := Option.bind_eq_some_iff.mp run
    have later := sound.before_exec (exec_of_guarded rest)
    unfold guarded at one
    split at one
    · rename_i quiet
      exact Option.bind_eq_some_iff.mpr ⟨middle, Reactor.step_ndebug one quiet later, ih rest⟩
    · simp at one

/-- The insertion ends the handler, and only the build with assertions makes it. -/
theorem Reactor.step_saves (run : Reactor.step true act s = some s') (saves : ¬ savesNothing act s)
    (sound : Unasserted s') :
    s'.pc = .idle ∧ ∃ connid data, s'.net.recvMap connid = some data ∧
      ∀ t, Reactor.step false act s = some t → t.net.recvMap connid = none := by
  cases Reactor.step_spec run with
  | @epollin connid curfd pc loopAct net pc' event at_ step =>
    have storing : s.pc.storing = true := by simpa [savesNothing] using saves
    rw [at_] at storing
    cases step with
    | @storeDone recvBuff cacheSize _ missing =>
      refine ⟨by simp, connid, recvBuff.take (toSize cacheSize), by simp, fun t skipped => ?_⟩
      simp only [Reactor.step, at_, loopStep, inStep] at skipped
      cases skipped
      simpa using missing
    | storeTaken => exact absurd (by simp) sound.2
    | storeSkipped asserts => simp at asserts
    | _ => simp [LoopPc.storing] at storing
  | inLookup at_ | outLookup at_ | epollout at_ =>
    simp [savesNothing, at_, LoopPc.storing] at saves
  | _ => exact absurd trivial saves

/-- Nothing is ever kept in a run that saves nothing. -/
theorem recvMap_of_savesNothing (reach : Reach (Reactor.step true) savesNothing (Reactor.init conntable) s) :
    ∀ id, s.net.recvMap id = none := by
  refine reach.invariant (P := fun s => ∀ id, s.net.recvMap id = none) (fun id => rfl) ?_
  intro act old new empty quiet run id
  cases Reactor.step_spec run with
  | epollin at_ step =>
    rw [Reactor.observe_net]
    cases step with
    | storeDone => simp [savesNothing, at_, LoopPc.storing] at quiet
    | uncache | forget => simp [mRecvRemove, Function.update_apply, empty id]
    | _ => exact empty id
  | epollout at_ step =>
    rw [Reactor.observe_net, step.net_next.2.1]
    exact empty id
  | _ => exact empty id

/-- The two builds differ from the first unfinished packet on. -/
theorem savesNothing_of_agrees (run : exec (Reactor.step true) acts (Reactor.init conntable) = some s)
    (sound : Unasserted s) (agrees : NdebugAgrees conntable acts) :
    exec (guarded (Reactor.step true) savesNothing) acts (Reactor.init conntable) = some s := by
  refine exec_guarded_of run fun done act before after initial soFar through => ?_
  by_contra saves
  obtain ⟨_, rest, here, later⟩ := exec_of_prefix run initial
  cases here.symm.trans through
  have sound := sound.before_exec later
  obtain ⟨_, before_, one⟩ := Option.bind_eq_some_iff.mp (exec_concat.symm.trans through)
  cases before_.symm.trans (exec_of_guarded soFar)
  obtain ⟨idle, connid, data, saved, skipped⟩ := Reactor.step_saves one saves sound
  obtain ⟨t, ndebug, _, _, same⟩ := agrees _ initial _ through idle
  rw [exec_concat, exec_ndebug soFar (sound.before one)] at ndebug
  have missing := skipped t ndebug
  simp [same, saved] at missing

theorem agrees_of_savesNothing (sound : Unasserted s)
    (run : exec (guarded (Reactor.step true) savesNothing) acts (Reactor.init conntable) = some s) :
    NdebugAgrees conntable acts := by
  intro done initial t asserting _
  obtain ⟨_, rest, here, later⟩ := exec_of_prefix run initial
  cases asserting.symm.trans (exec_of_guarded here)
  have ndebug := exec_ndebug here (sound.before_exec (exec_of_guarded later))
  exact ⟨t, ndebug, rfl, rfl, rfl⟩

theorem Reactor.received_mono {asserts : Bool} (run : exec (Reactor.step asserts) acts s = some s') (id : ConnId) :
    s.received id <+: s'.received id := by
  induction acts generalizing s with
  | nil =>
    cases run
    exact List.prefix_rfl
  | cons act acts ih =>
    obtain ⟨middle, one, rest⟩ := Option.bind_eq_some_iff.mp run
    exact ((Reactor.step_spec one).received_mono id).trans (ih rest)

/-- Between two events the receive map keeps what is unfinished of the bytes received. -/
theorem ReassemblyInv.rest_received (inv : ReassemblyInv s) (idle : s.pc = .idle) (id : ConnId) :
    netPkg.rest (s.received id) = cached s.net id := by
  have delivered := inv.delivered id
  rw [idle, held_idle] at delivered
  exact (delivered.settled (inv.recvInv.cached_incomplete id)).2

section Stream

variable {packets : ConnId → List (List α)}

theorem reassemblyInv_of_prefix (wellFormed : ∀ id, ∀ packet ∈ packets id, WellFormed packet)
    (run : exec (guarded (Reactor.step true) onlyAgain) acts (Reactor.init conntable) = some s)
    (initial : ∀ id, s.received id <+: (packets id).flatten) {done : List (ReactorAct α)} {middle : Reactor α}
    (soFar : done <+: acts) (through : exec (Reactor.step true) done (Reactor.init conntable) = some middle) :
    ReassemblyInv middle := by
  obtain ⟨_, rest, here, later⟩ := exec_of_prefix run soFar
  cases through.symm.trans (exec_of_guarded here)
  refine reassemblyInv_reach wellFormed (reach_of_exec_guarded here) fun id => ?_
  exact (Reactor.received_mono (exec_of_guarded later) id).trans (initial id)

/-- In streams of well-formed packets a run saves nothing exactly when its events end on the boundaries
of packets. -/
theorem savesNothing_iff_endsWhole (wellFormed : ∀ id, ∀ packet ∈ packets id, WellFormed packet)
    (run : exec (guarded (Reactor.step true) onlyAgain) acts (Reactor.init conntable) = some s)
    (initial : ∀ id, s.received id <+: (packets id).flatten) :
    exec (guarded (Reactor.step true) savesNothing) acts (Reactor.init conntable) = some s ↔
      EndsWhole conntable acts := by
  constructor
  · intro quiet done soFar middle through idle id
    have inv := reassemblyInv_of_prefix wellFormed run initial soFar through
    obtain ⟨_, rest, here, _⟩ := exec_of_prefix quiet soFar
    cases through.symm.trans (exec_of_guarded here)
    rw [inv.rest_received idle, cached_of_none (recvMap_of_savesNothing (reach_of_exec_guarded here) id)]
  · intro whole
    refine exec_guarded_of (exec_of_guarded run) fun done act before after soFar quiet through => ?_
    by_contra saves
    have inv := reassemblyInv_of_prefix wellFormed run initial soFar through
    obtain ⟨_, before_, one⟩ := Option.bind_eq_some_iff.mp (exec_concat.symm.trans through)
    cases before_.symm.trans (exec_of_guarded quiet)
    obtain ⟨idle, connid, data, saved, _⟩ :=
      Reactor.step_saves one saves ⟨inv.recvInv.noFault _, inv.recvInv.noFault _⟩
    have rest := inv.rest_received idle connid
    rw [whole _ soFar _ through idle connid, cached, saved] at rest
    exact (inv.recvInv.kept connid data saved).1 rest.symm

end Stream

/-- Compiling the assertions out changes nothing exactly as long as no event leaves an unfinished packet
to be saved; in streams of well-formed packets, as long as the events end on their boundaries. -/
theorem ndebug_agrees (run : exec (Reactor.step true) acts (Reactor.init conntable) = some s)
    (sound : Unasserted s) :
    (NdebugAgrees conntable acts ↔
      exec (guarded (Reactor.step true) savesNothing) acts (Reactor.init conntable) = some s) ∧
    ∀ packets : ConnId → List (List α), (∀ id, ∀ packet ∈ packets id, WellFormed packet) →
      exec (guarded (Reactor.step true) onlyAgain) acts (Reactor.init conntable) = some s →
      (∀ id, s.received id <+: (packets id).flatten) →
      (NdebugAgrees conntable acts ↔ EndsWhole conntable acts) := by
  have saves : NdebugAgrees conntable acts ↔
      exec (guarded (Reactor.step true) savesNothing) acts (Reactor.init conntable) = some s :=
    ⟨savesNothing_of_agrees run sound, agrees_of_savesNothing sound⟩
  refine ⟨saves, fun packets wellFormed again initial => ?_⟩
  exact saves.trans (savesNothing_iff_endsWhole wellFormed again initial)

/-- Two events for one connection: a packet, then another one in two parts. -/
def wholeEvents : List (ReactorAct UInt8) :=
  [.eventIn 7, .loop .tau, .loop (.recv (.data [0, 0, 1, 0, 0, 0, 1, 0, 0, 0, 65])),
    .loop .tau, .loop .tau, .loop .tau, .loop .tau, .loop .tau, .loop (.recv (.fail .eagain)),
    .eventIn 7, .loop .tau, .loop (.recv (.data [0, 0, 2, 0, 0])), .loop .tau, .loop .tau, .loop .tau,
    .loop (.recv (.data [0, 1, 0, 0, 0, 66])), .loop .tau, .loop .tau, .loop .tau,
    .loop (.recv (.fail .eagain))]

theorem ndebug_agrees_whole_events : ∃ s : Reactor UInt8,
    exec (Reactor.step true) wholeEvents (Reactor.init soleConn) = some s ∧ (s.handed 7).length = 2 ∧
      NdebugAgrees soleConn wholeEvents ∧ EndsWhole soleConn wholeEvents := by
  have ends : ∃ s : Reactor UInt8,
      exec (guarded (Reactor.step true) savesNothing) wholeEvents (Reactor.init soleConn) = some s ∧
      exec (guarded (Reactor.step true) onlyAgain) wholeEvents (Reactor.init soleConn) = some s ∧
      s.pc = .idle ∧ (s.handed 7).length = 2 ∧ s.received =
        Function.update (Function.update (Function.update (fun _ => []) 7
          [0, 0, 1, 0, 0, 0, 1, 0, 0, 0, 65]) 7
          [0, 0, 1, 0, 0, 0, 1, 0, 0, 0, 65, 0, 0, 2, 0, 0]) 7
          [0, 0, 1, 0, 0, 0, 1, 0, 0, 0, 65, 0, 0, 2, 0, 0, 0, 1, 0, 0, 0, 66] := ⟨_, rfl, rfl, rfl, rfl, rfl⟩
  obtain ⟨s, quiet, again, idle, handed, received⟩ := ends
  have run := exec_of_guarded quiet
  have agrees := ndebug_agrees run ⟨by simp [idle], by simp [idle]⟩
  have both := agrees.1.mpr quiet
  refine ⟨s, run, handed, both, (agrees.2 (fun id => if id = 7 then
    [[0, 0, 1, 0, 0, 0, 1, 0, 0, 0, 65], [0, 0, 2, 0, 0, 0, 1, 0, 0, 0, 66]] else []) ?_ again ?_).mp both⟩
  · intro id
    split
    · decide
    · decide
  · intro id
    rw [received, Function.update_idem, Function.update_idem]
    by_cases here : id = 7
    · subst here
      decide
    · simp [here]

/-- A packet of which the first event sees five bytes, and the second one the others. -/
def cutEvents : List (ReactorAct UInt8) :=
  [.eventIn 7, .loop .tau, .loop (.recv (.data [0, 0, 1, 0, 0])), .loop .tau, .loop .tau, .loop .tau,
    .loop (.recv (.fail .eagain)), .loop .tau,
    .eventIn 7, .loop .tau, .loop (.recv (.data [0, 1, 0, 0, 0, 65])), .loop .tau, .loop .tau, .loop .tau,
    .loop .tau, .loop .tau, .loop (.recv (.fail .eagain))]

/-- The same results of `recv` in the build without assertions, where the second event completes no packet. -/
def cutEventsNdebug : List (ReactorAct UInt8) :=
  cutEvents.take 14 ++ [.loop (.recv (.fail .eagain)), .loop .tau]

theorem ndebug_disagrees : ¬ NdebugAgrees soleConn cutEvents ∧ ∃ s t : Reactor UInt8,
    exec (Reactor.step true) cutEvents (Reactor.init soleConn) = some s ∧
      exec (Reactor.step false) cutEventsNdebug (Reactor.init soleConn) = some t ∧
      s.pc = .idle ∧ t.pc = .idle ∧ t.received 7 = s.received 7 ∧
      s.handed 7 = [⟨7, 11, [0, 0, 1, 0, 0, 0, 1, 0, 0, 0, 65]⟩] ∧ t.handed 7 = [] := by
  refine ⟨fun agrees => ?_, _, _, rfl, rfl, rfl, rfl, rfl, by decide +kernel, rfl⟩
  have first : ∃ s t : Reactor UInt8,
      exec (Reactor.step true) (cutEvents.take 8) (Reactor.init soleConn) = some s ∧
      exec (Reactor.step false) (cutEvents.take 8) (Reactor.init soleConn) = some t ∧
      s.pc = .idle ∧ s.net.recvMap 7 = some [0, 0, 1, 0, 0] ∧ t.net.recvMap 7 = none :=
    ⟨_, _, rfl, rfl, rfl, rfl, rfl⟩
  obtain ⟨s, t, asserting, ndebug, idle, kept, missing⟩ := first
  obtain ⟨_, run, _, _, same⟩ := agrees _ (List.take_prefix _ _) s asserting idle
  cases ndebug.symm.trans run
  simp [same, kept] at missing

end SvrNet

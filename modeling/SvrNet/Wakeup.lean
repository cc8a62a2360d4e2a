import SvrNet.ServerTable

namespace SvrNet
open CData StepSystem

/-- A signal that comes between the test of the queue and `pthread_cond_wait` finds the queue empty
again, or another worker is still to signal. -/
def signalHeard : ServerAct → Server → Prop
  | .signal i, s => s.send = .wait → s.net.sendQueue = [] ∨ ∃ j, j ≠ i ∧ s.worker j = .signal
  | _, _ => True

/-- While the send thread is about to block, or blocks, on a queue that is not empty, some worker is
still to signal. -/
def WakeInv (s : Server) : Prop :=
  s.send = .wait ∨ s.send = .waiting → s.net.sendQueue = [] ∨ ∃ i, s.worker i = .signal

variable {s s' : Server}

/-- Steps that add no response and end no signal. -/
theorem WakeInv.quiet (inv : WakeInv s)
    (send : s'.send = .wait ∨ s'.send = .waiting → s.send = .wait ∨ s.send = .waiting)
    (queue : s'.net.sendQueue.Sublist s.net.sendQueue)
    (worker : ∀ i, s.worker i = .signal → s'.worker i = .signal) : WakeInv s' := by
  intro blocking
  rcases inv (send blocking) with empty | ⟨i, signals⟩
  · left
    rw [empty] at queue
    exact List.sublist_nil.mp queue
  · exact Or.inr ⟨i, worker i signals⟩

theorem WakeInv.step {act : ServerAct} (inv : WakeInv s) (sentinel : SentinelInv s)
    (heard : signalHeard act s) (run : Server.step act s = some s') : WakeInv s' := by
  cases Server.step_spec run with
  | loop _ step =>
    exact inv.quiet (by simp) (by simpa using step.sendQueue_sublist) (by simp)
  | frontEmpty _ empty => exact fun _ => Or.inl (sentinel.front_invalid_iff.mp empty)
  | sendWait at_ => exact inv.quiet (fun _ => Or.inl at_) (.refl _) fun _ signals => signals
  | @take i _ _ at_ | @finish i _ at_ =>
    refine inv.quiet (fun blocking => blocking) (.refl _) fun j signals => ?_
    have different : j ≠ i := by rintro rfl; simp [at_] at signals
    simpa [different] using signals
  | @respond i => exact fun _ => Or.inr ⟨i, by simp⟩
  | @signal i at_ =>
    -- a signal is only consumed by a thread that waits; before that it is lost
    intro blocking
    have testing : s.send = .wait := by
      cases here : s.send <;> simp [here] at blocking ⊢
    rcases heard testing with empty | ⟨j, other, signals⟩
    · exact Or.inl empty
    · exact Or.inr ⟨j, by simpa [other] using signals⟩
  | front | sendWoken | lookupMissing | lookupFound | modify | modifyFail | sendPurge | sendRemove | wake =>
    exact fun blocking => by simp at blocking
  | _ => exact inv.quiet (fun blocking => blocking) (.refl _) fun _ signals => signals

/-- As long as no signal falls into the window before `pthread_cond_wait`, the send thread does not
sleep on a response: the queue is empty, or a worker is still to signal. -/
theorem no_wakeup_lost (reach : Reach Server.step signalHeard Server.init s) (blocked : s.send = .waiting)
    (signalled : ∀ i, s.worker i ≠ .signal) : s.net.sendQueue = [] := by
  have inv : WakeInv s := reach.invariant_of (K := SentinelInv) (fun _ reach => sentinelInv_reach reach)
    (fun blocking => by simp [Server.init] at blocking)
    fun _ _ _ sentinel _ inv heard run => inv.step sentinel heard run
  rcases inv (Or.inr blocked) with empty | ⟨i, signals⟩
  · exact empty
  · exact absurd signals (signalled i)

/-- A worker that never takes a request stays idle. -/
theorem worker_idle {labels : List ServerAct} {i : Nat} (run : exec Server.step labels s = some s')
    (never : ServerAct.take i ∉ labels) (idle : s.worker i = .idle) : s'.worker i = .idle := by
  induction labels generalizing s with
  | nil => cases run; exact idle
  | cons label labels ih =>
    obtain ⟨middle, one, rest⟩ := Option.bind_eq_some_iff.mp run
    rw [List.mem_cons, not_or] at never
    refine ih rest never.2 ?_
    cases Server.step_spec one with
    | loop => simpa using idle
    | @take j =>
      have different : i ≠ j := by rintro rfl; exact never.1 rfl
      simpa [different] using idle
    | @finish j _ at_ | @respond j _ _ _ at_ | @signal j at_ =>
      by_cases same : i = j
      · subst same
        simp [idle] at at_
      · simpa [same] using idle
    | _ => exact idle

/-- No signal at all falls into the window. -/
def windowFree : ServerAct → Server → Prop
  | .signal _, s => s.send ≠ .wait
  | _, _ => True

instance : ∀ (act : ServerAct) (s : Server), Decidable (windowFree act s)
  | .signal _, s => inferInstanceAs (Decidable (s.send ≠ .wait))
  | .accept _, _ | .insert _, _ | .add _, _ | .listenRemove, _ | .wait _, _ | .dispatch, _ | .loop _, _ | .send _, _
  | .wake, _ | .take _, _ | .respond _ _, _ => inferInstanceAs (Decidable True)

/-- The send thread blocks, is woken by a response, has it sent, and blocks again. -/
def wokenRun : List ServerAct :=
  connects 5 7 ++ [.send true, .send true] ++ requests 5 emptyPacket ++ answers 0 ++
    [.send true, .send true, .send true, .send true] ++ transmits 5 10 ++ [.send true, .send true]

theorem no_wakeup_lost_woken : ∃ s, exec (guarded Server.step windowFree) wokenRun Server.init = some s ∧
    s.send = .waiting ∧ s.net.sendQueue = [] := by
  have ends : ∃ s, exec (guarded Server.step windowFree) wokenRun Server.init = some s ∧
      s.send = .waiting ∧ s.worker 0 = .idle := exec_ends (by decide +kernel)
  obtain ⟨s, run, blocked, idle⟩ := ends
  have reach : Reach Server.step signalHeard Server.init s := by
    refine (reach_of_exec_guarded run).mono fun act s free => ?_
    cases act with
    | signal i => exact fun window => absurd window free
    | _ => trivial
  have signalled : ∀ i, s.worker i ≠ .signal := by
    intro i
    by_cases first : i = 0
    · rw [first, idle]
      simp
    · rw [worker_idle (exec_of_guarded run) (by simp [wokenRun, connects, requests, answers, transmits, first]) rfl]
      simp
  exact ⟨s, run, blocked, no_wakeup_lost reach blocked signalled⟩

/-- A response and its signal between the test of the queue and `pthread_cond_wait`: the send thread
sleeps and nobody is going to wake it. -/
def lostRun : List ServerAct :=
  connects 5 7 ++ [.send true] ++ requests 5 emptyPacket ++ answers 0 ++ [.send true]

theorem wakeup_lost : ∃ s, Reach Server.step anyStep Server.init s ∧ s.send = .waiting ∧
    (∀ i, s.worker i ≠ .signal) ∧ s.net.sendQueue ≠ [] := by
  have ends : ∃ s, exec Server.step lostRun Server.init = some s ∧ s.send = .waiting ∧
      s.worker 0 = .idle ∧ s.net.sendQueue.length = 1 := exec_ends (by decide +kernel)
  obtain ⟨s, run, blocked, idle, some⟩ := ends
  refine ⟨s, reach_of_exec run, blocked, fun i => ?_, fun none => by simp [none] at some⟩
  by_cases first : i = 0
  · rw [first, idle]
    simp
  · rw [worker_idle run (by simp [lostRun, connects, requests, answers, first]) rfl]
    simp

end SvrNet

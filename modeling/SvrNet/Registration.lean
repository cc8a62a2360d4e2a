import SvrNet.ServerTable

namespace SvrNet
open CData StepSystem

/-- A descriptor is not given to a new connection while the send thread is between its lookup of
that descriptor and `EPOLL_CTL_MOD`. -/
def descriptorKept : ServerAct → Server → Prop
  | .accept clientFd, s => ∀ modifying ∈ s.send.modifying, modifying.2 ≠ clientFd
  | _, _ => True

instance : ∀ (act : ServerAct) (s : Server), Decidable (descriptorKept act s)
  | .accept _, _ => inferInstanceAs (Decidable (∀ modifying ∈ _, _ ≠ _))
  | .insert _, _ | .add _, _ | .listenRemove, _ | .wait _, _ | .dispatch, _ | .loop _, _ | .send _, _ | .wake, _
  | .take _, _ | .respond _ _, _ | .signal _, _ => inferInstanceAs (Decidable True)

structure RegistrationInv (s : Server) : Prop where
  carries : ∀ id fd registration, s.net.conntable id = some fd → s.epoll fd = some registration →
    registration.u64 = id
  modifying : ∀ id fd, s.send = .modify id fd →
    s.listen ≠ .insert fd ∧ ∀ id', s.net.conntable id' = some fd → id' = id
  opened : ∀ fd, (s.epoll fd).isSome → (s.fds fd).isSome
  fresh : ∀ fd, s.listen = .insert fd → s.epoll fd = none

theorem registrationInv_init : RegistrationInv Server.init := by
  constructor <;> simp [Server.init]

variable {s s' : Server}

/-- Steps that leave the descriptors and their registrations alone. -/
theorem RegistrationInv.shrink (inv : RegistrationInv s)
    (table : ∀ id fd, s'.net.conntable id = some fd → s.net.conntable id = some fd)
    (fds : s'.fds = s.fds) (epoll : s'.epoll = s.epoll)
    (listen : ∀ fd, s'.listen = .insert fd → s.listen = .insert fd)
    (send : ∀ id fd, s'.send = .modify id fd → s.send = .modify id fd ∨
      s.listen ≠ .insert fd ∧ ∀ id', s.net.conntable id' = some fd → id' = id) : RegistrationInv s' where
  carries := fun id fd registration here => by
    rw [epoll]
    exact inv.carries id fd registration (table id fd here)
  modifying := fun id fd at_ => by
    have own : s.listen ≠ .insert fd ∧ ∀ id', s.net.conntable id' = some fd → id' = id :=
      (send id fd at_).elim (inv.modifying id fd) fun found => found
    exact ⟨fun inserts => own.1 (listen fd inserts), fun id' here => own.2 id' (table id' fd here)⟩
  opened := by
    rw [fds, epoll]
    exact inv.opened
  fresh := fun fd at_ => by
    rw [epoll]
    exact inv.fresh fd (listen fd at_)

/-- A registration is made or renewed for a descriptor whose entry, if any, has the right id. -/
theorem RegistrationInv.step_epoll (inv : RegistrationInv s) {fd : Int} {id : ConnId}
    {registration : Option Registration} (open_ : registration.isSome → (s.fds fd).isSome)
    (notInserting : s.listen ≠ .insert fd) (owner : ∀ new, registration = some new → new.u64 = id)
    (own : ∀ id', s.net.conntable id' = some fd → id' = id)
    (table : ∀ id fd, s'.net.conntable id = some fd → s.net.conntable id = some fd)
    (fds : s'.fds = s.fds) (epoll : s'.epoll = Function.update s.epoll fd registration)
    (listen : ∀ fd, s'.listen = .insert fd → s.listen = .insert fd)
    (send : ∀ id fd, s'.send = .modify id fd → s.send = .modify id fd) : RegistrationInv s' where
  carries := fun id' other new here at_ => by
    have before := table id' other here
    rw [epoll] at at_
    by_cases same : other = fd
    · subst same
      rw [Function.update_self] at at_
      rw [own id' before]
      exact owner new at_
    · rw [Function.update_of_ne same] at at_
      exact inv.carries id' other new before at_
  modifying := fun id' other at_ => by
    obtain ⟨before, own⟩ := inv.modifying id' other (send id' other at_)
    exact ⟨fun inserts => before (listen other inserts), fun id here => own id (table id other here)⟩
  opened := fun other registered => by
    rw [epoll] at registered
    rw [fds]
    by_cases same : other = fd
    · subst same
      rw [Function.update_self] at registered
      exact open_ registered
    · rw [Function.update_of_ne same] at registered
      exact inv.opened other registered
  fresh := fun other at_ => by
    have inserts := listen other at_
    have different : other ≠ fd := by rintro rfl; exact notInserting inserts
    rw [epoll, Function.update_of_ne different]
    exact inv.fresh other inserts

theorem epollMod_owner {epoll : Int → Option Registration} {fd : Int} {u64 : ConnId} {out : Bool}
    (new : Registration)
    (made : ((epoll fd).map fun registration => ⟨u64, out, registration.arms + 1⟩) = some new) :
    new.u64 = u64 := by
  obtain ⟨_, _, rfl⟩ := Option.map_eq_some_iff.mp made
  rfl

theorem RegistrationInv.step_accept (inv : RegistrationInv s) {fd : Int} (free : s.fds fd = none)
    (kept : descriptorKept (.accept fd) s) :
    RegistrationInv { s with
      fds := Function.update s.fds fd (some s.accepted)
      listen := .insert fd
      accepted := s.accepted + 1 } where
  carries := inv.carries
  modifying := fun id other at_ => by
    have at_ : s.send = .modify id other := at_
    have different : other ≠ fd := kept (id, other) (by rw [at_]; rfl)
    exact ⟨by simpa using different.symm, (inv.modifying id other at_).2⟩
  opened := fun other registered => by
    by_cases same : other = fd
    · simp [same]
    · simpa [same] using inv.opened other registered
  fresh := fun other at_ => by
    cases at_
    by_contra registered
    have := inv.opened fd (Option.isSome_iff_ne_none.mpr registered)
    simp [free] at this

theorem RegistrationInv.step_close (inv : RegistrationInv s) {fd : Int} {loop : LoopPc TByte RByte}
    {closed : List Nat} : RegistrationInv { s with
      loop := loop
      fds := Function.update s.fds fd none
      epoll := Function.update s.epoll fd none
      closed := closed } where
  carries := fun id other registration here at_ => by
    by_cases same : other = fd
    · simp [same] at at_
    · exact inv.carries id other registration here (by simpa [same] using at_)
  modifying := inv.modifying
  opened := fun other registered => by
    by_cases same : other = fd
    · simp [same] at registered
    · simp only [Function.update_of_ne same] at registered ⊢
      exact inv.opened other registered
  fresh := fun other at_ => by
    by_cases same : other = fd
    · simp [same]
    · simpa [same] using inv.fresh other at_

theorem RegistrationInv.step_loop (inv : RegistrationInv s) (tableInv : TableInv s) {act : LoopAct TByte}
    {net : NetSvr TByte RByte} {loop : LoopPc TByte RByte} {event : LoopEvent TByte RByte}
    (step : LoopStep true s.net s.loop act net loop event) :
    RegistrationInv (({ s with net := net, loop := loop } : Server).observe event) := by
  cases event with
  | closed fd =>
    obtain ⟨_, _, _, rfl⟩ := step.closed_spec
    exact inv.step_close
  | rearmed connid fd =>
    obtain ⟨open_, notInserting, own⟩ := tableInv.handling connid fd step.rearmed_spec
    exact inv.step_epoll (fun _ => open_) notInserting epollMod_owner own step.shrinks rfl rfl
      (fun _ at_ => at_) fun _ _ at_ => at_
  | _ => exact inv.shrink step.shrinks rfl rfl (fun _ at_ => at_) fun _ _ at_ => Or.inl at_

theorem RegistrationInv.step {act : ServerAct} (inv : RegistrationInv s) (tableInv : TableInv s)
    (kept : descriptorKept act s) (run : Server.step act s = some s') : RegistrationInv s' := by
  cases Server.step_spec run with
  | accept _ free => exact inv.step_accept free kept
  | @insert fd draws id at_ =>
    have fresh := inv.fresh fd at_
    refine ⟨fun id' fd' new here registered => ?_, fun id' fd' sending => ?_, inv.opened, by simp⟩
    · by_cases same : id' = id
      · simp only [same, Function.update_self, Option.some.injEq] at here
        subst here
        simp [fresh] at registered
      · exact inv.carries id' fd' new (by simpa [same] using here) registered
    · obtain ⟨notInserting, own⟩ := inv.modifying id' fd' sending
      refine ⟨by simp, fun other here => ?_⟩
      by_cases same : other = id
      · simp only [same, Function.update_self, Option.some.injEq] at here
        subst here
        exact absurd at_ notInserting
      · exact own other (by simpa [same] using here)
  | @add fd id at_ open_ =>
    exact inv.step_epoll (fun _ => open_) (by simp [at_]) (fun _ made => by cases made; rfl)
      (tableInv.adding fd id at_) (fun _ _ here => here) rfl rfl (by simp) fun _ _ sending => sending
  | addFail => exact inv.shrink (fun _ _ here => here) rfl rfl (by simp) fun _ _ sending => Or.inl sending
  | listenRemove =>
    exact inv.shrink (fun _ _ here => (connRemove_shrinks here).2) rfl rfl (by simp)
      fun _ _ sending => Or.inl sending
  | loop _ step => exact inv.step_loop tableInv step
  | lookupFound at_ found =>
    refine inv.shrink (fun _ _ here => here) rfl rfl (fun _ here => here) fun id' fd' sending => Or.inr ?_
    cases sending
    exact ⟨fun inserts => (tableInv.inserting _ inserts).2.2 _ found,
      fun other here => tableInv.distinct _ _ _ here found⟩
  | @modify id fd at_ registered =>
    obtain ⟨notInserting, own⟩ := inv.modifying id fd at_
    exact inv.step_epoll (fun _ => inv.opened fd registered) notInserting epollMod_owner own
      (fun _ _ here => here) rfl rfl (fun _ here => here) (by simp)
  | sendRemove =>
    exact inv.shrink (fun _ _ here => (connRemove_shrinks here).2) rfl rfl (fun _ here => here) (by simp)
  | signal =>
    refine inv.shrink (fun _ _ here => here) rfl rfl (fun _ here => here) fun id' fd' sending => Or.inl ?_
    cases at_ : s.send <;> simp_all
  | wait | dispatch | take | finish | respond =>
    exact inv.shrink (fun _ _ here => here) rfl rfl (fun _ here => here) fun _ _ sending => Or.inl sending
  | _ => exact inv.shrink (fun _ _ here => here) rfl rfl (fun _ here => here) (by simp)

theorem registrationInv_reach (reach : Reach Server.step descriptorKept Server.init s) : RegistrationInv s :=
  reach.invariant_of (K := TableInv) (P := RegistrationInv) (fun _ reach => tableInv_reach reach)
    registrationInv_init fun _ _ _ tableInv _ inv kept run => inv.step tableInv kept run

/-- As long as no new connection gets a descriptor that the send thread is about to modify, the
registration of a connection in the table carries its id. -/
theorem registration_carries_id {id : ConnId} {fd : Int} {registration : Registration}
    (reach : Reach Server.step descriptorKept Server.init s) (entry : s.net.conntable id = some fd)
    (registered : s.epoll fd = some registration) : registration.u64 = id :=
  (registrationInv_reach reach).carries id fd registration entry registered

/-- A response to the first connection is looked up, and that connection goes away. -/
def staleLookup : List ServerAct :=
  connects 5 7 ++ requests 5 emptyPacket ++ answers 0 ++ [.send true, .send true] ++ disconnects 5

theorem registration_carries_id_other_descriptor : ∃ s,
    exec (guarded Server.step descriptorKept) (staleLookup ++ connects 6 8 ++ [.send false]) Server.init =
        some s ∧
      s.net.conntable 8 = some 6 ∧ ∀ registration, s.epoll 6 = some registration → registration.u64 = 8 := by
  have ends : ∃ s, exec (guarded Server.step descriptorKept) (staleLookup ++ connects 6 8 ++ [.send false])
      Server.init = some s ∧ s.net.conntable 8 = some 6 := exec_ends (by decide +kernel)
  obtain ⟨s, run, entry⟩ := ends
  exact ⟨s, run, entry, fun _ registered => registration_carries_id (reach_of_exec_guarded run) entry registered⟩

/-- When the next connection gets the same descriptor, its registration gets the old id. -/
theorem registration_of_reused_descriptor : ∃ s id fd registration,
    Reach Server.step anyStep Server.init s ∧ s.net.conntable id = some fd ∧
      s.epoll fd = some registration ∧ registration.u64 ≠ id := by
  have ends : ∃ s, exec Server.step (staleLookup ++ connects 5 8 ++ [.send true]) Server.init = some s ∧
      s.net.conntable 8 = some 5 ∧ s.epoll 5 = some ⟨7, true, 1⟩ := exec_ends (by decide +kernel)
  obtain ⟨s, run, entry, registered⟩ := ends
  exact ⟨s, 8, 5, ⟨7, true, 1⟩, reach_of_exec run, entry, registered, by decide⟩

end SvrNet

import SvrNet.Selection
import SvrNet.SendOrder
import SvrNet.Service

namespace SvrNet
open CData StepSystem

/-- One worker serves all requests, and no response is merged past another one of its connection. -/
def alone : ServerAct → Service → Prop
  | .take i, _ => i = 0
  | .respond i (some (outdata, outlen)), s => ∀ work ∈ (s.server.worker i).work,
      ¬ overtakes s.server.net.sendQueue work.connid (workPack work outdata outlen)
  | _, _ => True

instance : ∀ (act : ServerAct) (s : Service), Decidable (alone act s)
  | .take i, _ => inferInstanceAs (Decidable (i = 0))
  | .respond i (some (outdata, outlen)), s => inferInstanceAs (Decidable (∀ work ∈ (s.server.worker i).work,
      ¬ overtakes s.server.net.sendQueue work.connid (workPack work outdata outlen)))
  | .respond _ none, _ | .accept _, _ | .insert _, _ | .add _, _ | .listenRemove, _ | .wait _, _ | .dispatch, _
  | .loop _, _ | .send _, _ | .wake, _ | .signal _, _ => inferInstanceAs (Decidable True)

/-- The requests that are for an accepted connection. -/
def Server.worksOf (s : Server) (works : List (Work TByte)) (conn : Nat) : List (Work TByte) :=
  works.filter fun work => s.ident work.connid = some conn

/-- The workers with their requests, in the order in which they took them, and where the requests of
each connection are: the workers are done with them or have them, or they are in the pool. -/
structure AccountInv (ordered : Bool) (hands : List (Nat × Work TByte)) (s : Service) : Prop where
  nodup : hands.Nodup
  hand : ∀ i work, (i, work) ∈ hands ↔ s.server.worker i = .proc work
  sole : ordered = true → ∀ hand ∈ hands, hand.1 = 0
  account : ∀ conn, Arranged ordered
    ((s.settled conn).map Prod.fst ++ s.server.worksOf (hands.map Prod.snd ++ s.server.net.pool) conn)
    (s.server.handedOn conn)

theorem accountInv_init (ordered : Bool) : AccountInv ordered [] Service.init where
  nodup := List.nodup_nil
  hand := by simp [Service.init, Server.init]
  sole := nofun
  account := fun _ => .refl _

section Steps

variable {ordered : Bool} {hands : List (Nat × Work TByte)} {s s' : Service}

/-- Steps that neither hand on, take nor settle a request. -/
theorem AccountInv.quiet (inv : AccountInv ordered hands s) (worker : ∀ i work,
      s'.server.worker i = .proc work ↔ s.server.worker i = .proc work)
    (pool : s'.server.net.pool = s.server.net.pool) (settled : s'.settled = s.settled)
    (handed : s'.server.handed = s.server.handed)
    (ident : ∀ work ∈ hands.map Prod.snd ++ s.server.net.pool,
      s'.server.ident work.connid = s.server.ident work.connid) : AccountInv ordered hands s' where
  nodup := inv.nodup
  hand := fun i work => (inv.hand i work).trans (worker i work).symm
  sole := inv.sole
  account := fun conn => by
    have same : s'.server.worksOf (hands.map Prod.snd ++ s.server.net.pool) conn =
        s.server.worksOf (hands.map Prod.snd ++ s.server.net.pool) conn :=
      List.filter_congr fun work member => by rw [ident work member]
    rw [settled, pool, same, Server.handedOn, handed]
    exact inv.account conn

/-- A request that is handed on goes into the pool. -/
theorem LoopStep.handed_spec {α β : Type} [Cell α] {net net' : NetSvr α β} {pc pc' : LoopPc α β} {act : LoopAct α}
    {fd : Int} {work : Work α} (step : LoopStep true net pc act net' pc' (.handed fd work)) :
    pc.handler = some (work.connid, fd) ∧ net'.pool = net.pool ++ [work] := by
  cases step with
  | epollin step =>
    cases step
    exact ⟨rfl, rfl⟩
  | epollout step => cases step.outgoing

theorem AccountInv.step_loop (inv : AccountInv ordered hands s) (isolation : IsolationInv s.server)
    {act : LoopAct TByte} {net : NetSvr TByte RByte} {loop : LoopPc TByte RByte} {event : LoopEvent TByte RByte}
    (step : LoopStep true s.server.net s.server.loop act net loop event) :
    AccountInv ordered hands { s.observe event with
      server := ({ s.server with net := net, loop := loop } : Server).observe event } := by
  have settled : (s.observe event).settled = s.settled := by cases event <;> rfl
  by_cases on : ∃ fd work, event = .handed fd work
  · obtain ⟨fd, work, rfl⟩ := on
    obtain ⟨handler, pool⟩ := step.handed_spec
    have owner := isolation.owner work.connid fd handler
    refine ⟨inv.nodup, inv.hand, inv.sole, fun conn => ?_⟩
    rw [Server.handedOn_append (s := s.server) conn (s.server.fds fd) work rfl, owner]
    have split : s.server.worksOf (hands.map Prod.snd ++ net.pool) conn =
        s.server.worksOf (hands.map Prod.snd ++ s.server.net.pool) conn ++
          if s.server.ident work.connid = some conn then [work] else [] := by
      rw [pool, ← List.append_assoc, Server.worksOf, List.filter_append, ← Server.worksOf]
      simp [List.filter_cons]
    have joined := (inv.account conn).append_right (if s.server.ident work.connid = some conn then [work] else [])
    rwa [List.append_assoc, ← split] at joined
  · have handed : (({ s.server with net := net, loop := loop } : Server).observe event).handed = s.server.handed := by
      cases event with
      | handed fd work => exact absurd ⟨fd, work, rfl⟩ on
      | _ => rfl
    have pool : net.pool = s.server.net.pool := by
      rcases step.pool_next with same | ⟨_, fd, work, _, _, _, here⟩
      · exact same
      · exact absurd ⟨fd, work, here⟩ on
    exact inv.quiet (by simp) (by simpa using pool) settled handed (by simp)

/-- A worker is done with its request. -/
theorem AccountInv.hand_erase (inv : AccountInv ordered hands s) {i : Nat} {work : Work TByte} {pc : WorkerPc}
    (at_ : s.server.worker i = .proc work) (done : pc.work = none) (j : Nat) (other : Work TByte) :
    (j, other) ∈ hands.erase (i, work) ↔ Function.update s.server.worker i pc j = .proc other := by
  rw [inv.nodup.mem_erase_iff, inv.hand j other]
  by_cases same : j = i
  · subst same
    rw [Function.update_self, at_]
    constructor
    · rintro ⟨different, here⟩
      cases here
      exact absurd rfl different
    · rintro rfl
      cases done
  · rw [Function.update_of_ne same]
    exact ⟨fun here => here.2, fun here => ⟨fun pair => same (congrArg Prod.fst pair), here⟩⟩

/-- When one worker serves all requests it holds the only one. -/
theorem AccountInv.only (inv : AccountInv true hands s) {i : Nat} {work : Work TByte}
    (at_ : s.server.worker i = .proc work) : hands = [(i, work)] := by
  have here := (inv.hand i work).mpr at_
  have zero : i = 0 := inv.sole rfl _ here
  have same : ∀ hand ∈ hands, hand = (i, work) := by
    rintro ⟨j, other⟩ member
    have first : j = 0 := inv.sole rfl _ member
    subst first zero
    cases ((inv.hand 0 other).mp member).symm.trans at_
    rfl
  exact (List.perm_singleton.mp ((List.perm_ext_iff_of_nodup inv.nodup (by simp)).mpr fun hand =>
    ⟨fun member => List.mem_singleton.mpr (same hand member), fun member => List.mem_singleton.mp member ▸ here⟩))

/-- What a worker is done with is settled. -/
theorem AccountInv.step_done (inv : AccountInv ordered hands s) {i : Nat} {work : Work TByte} {pc : WorkerPc}
    {reply : Option (List UInt8 × Nat)} (at_ : s.server.worker i = .proc work) (done : pc.work = none)
    (worker : s'.server.worker = Function.update s.server.worker i pc)
    (pool : s'.server.net.pool = s.server.net.pool) (ident : s'.server.ident = s.server.ident)
    (handed : s'.server.handed = s.server.handed) (settled : s'.settled = s.settle work reply) :
    AccountInv ordered (hands.erase (i, work)) s' := by
  refine ⟨inv.nodup.erase _, fun j other => ?_, fun once hand member => ?_, fun conn => ?_⟩
  · rw [worker]
    exact inv.hand_erase at_ done j other
  · exact inv.sole once hand (List.mem_of_mem_erase member)
  rw [Server.handedOn, handed, ← Server.handedOn, pool, Server.worksOf, ident, ← Server.worksOf, settled]
  refine Arranged.trans ?_ (inv.account conn)
  have moved : (s.settle work reply conn).map Prod.fst ++
        s.server.worksOf ((hands.erase (i, work)).map Prod.snd ++ s.server.net.pool) conn =
      (s.settled conn).map Prod.fst ++
        s.server.worksOf (work :: (hands.erase (i, work)).map Prod.snd ++ s.server.net.pool) conn := by
    by_cases owner : s.server.ident work.connid = some conn
    · simp [Service.settle, Server.worksOf, owner]
    · simp [Service.settle, Server.worksOf, owner]
  rw [moved]
  refine Arranged.append_left _ ?_
  cases ordered with
  | true =>
    rw [inv.only at_]
    simp [Arranged.refl]
  | false =>
    have taken := ((List.perm_cons_erase ((inv.hand i work).mpr at_)).map Prod.snd).append_right s.server.net.pool
    exact Arranged.of_perm rfl (taken.symm.filter _)

theorem AccountInv.step {act : ServerAct} (inv : AccountInv ordered hands s) (known : ServiceKnown s)
    (fresh : freshId act s.server) (order : ordered = true → alone act s) (step : ServiceStep s act s') :
    ∃ hands', AccountInv ordered hands' s' := by
  cases step with
  | loop _ step => exact ⟨hands, inv.step_loop known.isolation step⟩
  | respond at_ => exact ⟨_, inv.step_done at_ rfl rfl rfl rfl rfl rfl⟩
  | finish at_ => exact ⟨_, inv.step_done at_ rfl rfl rfl rfl rfl rfl⟩
  | other step notLoop notRespond =>
    cases step with
    | loop => exact absurd rfl (notLoop _)
    | respond | finish => exact absurd rfl (notRespond _ _)
    | insert at_ inserted =>
      refine ⟨hands, inv.quiet (fun _ _ => Iff.rfl) rfl rfl rfl fun work member => Function.update_of_ne ?_ _ _⟩
      rintro here
      have carries : Carries s.server work.connid := by
        rcases List.mem_append.mp member with held | queued
        · obtain ⟨⟨i, _⟩, holds, rfl⟩ := List.mem_map.mp held
          exact .working ((inv.hand i _).mp holds) rfl
        · exact .pool queued rfl
      rcases fresh _ (by rw [at_]; rfl) _ inserted with new | unused
      · have old := known.isolation.known known.table carries
        rw [here, new] at old
        cases old
      · exact unused (here ▸ carries)
    | @take i work later idle pool =>
      refine ⟨hands ++ [(i, work)], ?_, fun j other => ?_, fun once hand member => ?_, fun conn => ?_⟩
      · refine List.nodup_append.mpr ⟨inv.nodup, by simp, fun hand here pair there same => ?_⟩
        rw [List.mem_singleton.mp there] at same
        have busy := (inv.hand i work).mp (same ▸ here)
        rw [idle] at busy
        cases busy
      · rw [List.mem_append, inv.hand j other, List.mem_singleton]
        by_cases same : j = i
        · subst same
          simp [idle, eq_comm]
        · simp [same]
      · rcases List.mem_append.mp member with old | new
        · exact inv.sole once hand old
        · rw [List.mem_singleton.mp new]
          exact order once
      · have account := inv.account conn
        rw [pool] at account
        simpa [Server.worksOf, Server.handedOn] using account
    | @signal i at_ =>
      refine ⟨hands, inv.quiet (fun j work => ?_) rfl rfl rfl fun _ _ => rfl⟩
      by_cases same : j = i
      · subst same
        simp [at_]
      · simp [same]
    | _ => exact ⟨hands, inv.quiet (fun _ _ => Iff.rfl) rfl rfl rfl fun _ _ => rfl⟩

end Steps

end SvrNet

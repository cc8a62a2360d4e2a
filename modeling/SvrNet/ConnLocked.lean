import SvrNet.Conn
import SvrNet.Locked

namespace SvrNet
open StepSystem LockedObject

/-- The functions on `conn_table_t`. -/
inductive ConnCall
  | insert (clientFd : Int)
  | remove (id : ConnId)
  | find (id : ConnId)
  | getSockfd (id : ConnId)

inductive ConnRet
  | connid (id : ConnId)
  | ret (value : Int)
  | found (clientFd : Option Int)
  deriving DecidableEq

/-- Where a function is between locking and `unlock`: in front of `Gen_ConnID`, behind the last test of
the loop, or with the iterator that `find` returned. -/
inductive ConnPc
  | draw
  | store (id : ConnId)
  | start
  | it (found : Bool)

def ConnCall.start : ConnCall → ConnPc
  | .insert _ => .draw
  | _ => .start

/-- The bodies. The input of a step is what `Gen_ConnID` returns in it. -/
def connBody : ConnCall → ConnId → ConnTable → ConnPc → Option (ConnTable × (ConnPc ⊕ ConnRet))
  | .insert _, id, table, .draw =>
    some (table, .inl (if (table id).isSome ∨ id = svrInvalidConnectId then .draw else .store id))
  | .insert clientFd, _, table, .store id => some (Function.update table id (some clientFd), .inr (.connid id))
  | .remove id, _, table, .start => some (table, .inl (.it (table id).isSome))
  | .remove id, _, table, .it found => some (if found then Function.update table id none else table, .inr (.ret 0))
  | .find id, _, table, .start | .getSockfd id, _, table, .start => some (table, .inl (.it (table id).isSome))
  | .find id, _, table, .it found => some (table, .inr (.found (if found then table id else none)))
  | .getSockfd id, _, table, .it found => some (table, .inr (.ret (if found then (table id).getD (-1) else -1)))
  | _, _, _, _ => none

/-- `conn_table_t`: a map behind a read-write lock. -/
def connObject : LockedObject ConnTable ConnCall ConnRet ConnPc ConnId where
  shared
    | .find _ | .getSockfd _ => true
    | _ => false
  start := ConnCall.start
  body := connBody
  reads := by
    intro call id table pc after next shared went
    cases call with
    | find | getSockfd =>
      cases pc with
      | start | it =>
        cases went
        rfl
      | _ => cases went
    | _ => cases shared

/-- What a call does to the table, and its result. -/
def ConnCall.Does (table after : ConnTable) : ConnCall → ConnRet → Prop
  | .insert clientFd, ret => ∃ draws id, connInsert table clientFd draws = some (id, after) ∧ ret = .connid id
  | .remove id, ret => after = connRemove table id ∧ ret = .ret 0
  | .find id, ret => after = table ∧ ret = .found (table id)
  | .getSockfd id, ret => after = table ∧ ret = .ret (connGetSockfd table id)

/-- What a call has established since it found `table`: the ids that it drew were all refused. -/
def ConnCall.Inv (table : ConnTable) : ConnCall → ConnTable → ConnPc → Prop
  | .insert clientFd, now, .draw => now = table ∧
      ∃ draws, ∀ more, connInsert table clientFd (draws ++ more) = connInsert table clientFd more
  | .insert clientFd, now, .store id => now = table ∧
      ∃ draws, connInsert table clientFd draws = some (id, Function.update table id (some clientFd))
  | .remove id, now, .it found | .find id, now, .it found | .getSockfd id, now, .it found =>
      now = table ∧ found = (table id).isSome
  | .remove _, now, .start | .find _, now, .start | .getSockfd _, now, .start => now = table
  | _, _, _ => False

/-- The same behind an access: the loop goes on, or the call has done what it is for. -/
def ConnCall.Post (call : ConnCall) (table after : ConnTable) : ConnPc ⊕ ConnRet → Prop
  | .inl pc => call.Inv table after pc
  | .inr ret => call.Does table after ret

variable {call : ConnCall} {table now after : ConnTable} {pc : ConnPc} {id : ConnId}

theorem ConnCall.inv_start (call : ConnCall) (table : ConnTable) : call.Inv table table call.start := by
  cases call with
  | insert => exact ⟨rfl, [], fun _ => rfl⟩
  | _ => rfl

/-- A drawn id that is taken or invalid is refused, and another one is the id of the connection. -/
theorem ConnCall.inv_draw {clientFd : Int} {draws : List ConnId}
    (refused : ∀ more, connInsert table clientFd (draws ++ more) = connInsert table clientFd more) (id : ConnId) :
    (ConnCall.insert clientFd).Inv table table
      (if (table id).isSome ∨ id = svrInvalidConnectId then .draw else .store id) := by
  by_cases taken : (table id).isSome ∨ id = svrInvalidConnectId
  · rw [if_pos taken]
    refine ⟨rfl, draws ++ [id], fun more => ?_⟩
    rw [List.append_assoc, refused]
    exact if_pos taken
  · rw [if_neg taken]
    refine ⟨rfl, draws ++ [id], ?_⟩
    rw [refused]
    exact if_neg taken

theorem ConnCall.inv_body {next : ConnPc ⊕ ConnRet} (inv : call.Inv table now pc)
    (went : connBody call id now pc = some (after, next)) : call.Post table after next := by
  cases call with
  | insert clientFd =>
    cases pc with
    | draw =>
      obtain ⟨rfl, draws, refused⟩ := inv
      cases went
      exact ConnCall.inv_draw refused id
    | store stored =>
      obtain ⟨rfl, draws, inserted⟩ := inv
      cases went
      exact ⟨draws, stored, inserted, rfl⟩
    | _ => exact inv.elim
  | remove gone =>
    cases pc with
    | start =>
      cases inv
      cases went
      exact ⟨rfl, rfl⟩
    | it found =>
      obtain ⟨rfl, rfl⟩ := inv
      cases went
      refine ⟨?_, rfl⟩
      cases entry : now gone with
      | some fd => rfl
      | none => exact (Function.update_eq_self_iff.mpr entry.symm).symm
    | _ => exact inv.elim
  | find known =>
    cases pc with
    | start =>
      cases inv
      cases went
      exact ⟨rfl, rfl⟩
    | it found =>
      obtain ⟨rfl, rfl⟩ := inv
      cases went
      refine ⟨rfl, ?_⟩
      cases now known <;> rfl
    | _ => exact inv.elim
  | getSockfd known =>
    cases pc with
    | start =>
      cases inv
      cases went
      exact ⟨rfl, rfl⟩
    | it found =>
      obtain ⟨rfl, rfl⟩ := inv
      cases went
      refine ⟨rfl, ?_⟩
      unfold connGetSockfd
      cases now known <;> rfl
    | _ => exact inv.elim

theorem ConnCall.inv_live (inv : call.Inv table now pc) (id : ConnId) : (connBody call id now pc).isSome := by
  cases call <;> cases pc <;> first | rfl | exact inv.elim

theorem ConnCall.inv_moves {before last : ConnTable × ConnPc} (inv : call.Inv table before.1 before.2)
    (moves : Relation.ReflTransGen (connObject.Moves call) before last) : call.Inv table last.1 last.2 := by
  induction moves with
  | refl => exact inv
  | tail _ one ih =>
    obtain ⟨_, went⟩ := one
    exact ConnCall.inv_body ih went

/-- Any number of threads look up, insert and remove connections, and readers share the lock: what they
get back is what they would get if each call were one step on the table, where an insertion ends with
the first drawn id that was neither taken nor invalid. No call is left waiting for nothing. -/
theorem conn_table_linearizable {Thread : Type} [DecidableEq Thread] {s : State Thread ConnTable ConnCall ConnRet ConnPc}
    (reach : Reach connObject.step anyStep (State.init table) s) :
    (∃ atomic, Relation.ReflTransGen (AtomicStep fun call table after ret => call.Does table after ret)
        (Atomic.init table) atomic ∧ atomic.log = s.log ∧ (s.writer = none → atomic.data = s.data)) ∧
      ∀ thread, (s.phase thread).seen ≠ none →
        ∃ act, (connObject.step act s).isSome ∧ ∀ other call, act ≠ .call other call := by
  refine ⟨linearizable (fun call table after ret finishes => ?_) reach, fun thread busy => ?_⟩
  · obtain ⟨last, _, moves, went⟩ := finishes
    exact ConnCall.inv_body (ConnCall.inv_moves (call.inv_start table) moves) went
  · refine never_stuck (fun call before now pc moves => ⟨0, ?_⟩) reach busy
    exact ConnCall.inv_live (ConnCall.inv_moves (call.inv_start before) moves) 0

/-- Two readers are inside together while a thread waits to insert; the first id that it draws is taken. -/
def sharedLookupsRun : List (Act Nat ConnCall ConnId) :=
  [.call 0 (.getSockfd 7), .call 1 (.find 8), .call 2 (.insert 6), .acquire 0, .acquire 1, .body 1 0, .body 0 0,
    .body 0 0, .release 0, .body 1 0, .release 1, .acquire 2, .body 2 7, .body 2 8, .body 2 0, .release 2]

theorem conn_table_linearizable_shared : ∃ s,
    exec connObject.step sharedLookupsRun (State.init (Function.update (fun _ => none) 7 (some 5))) = some s ∧
      s.data 8 = some 6 ∧
      ∃ atomic, Relation.ReflTransGen (AtomicStep fun call table after ret => ConnCall.Does table after call ret)
          (Atomic.init (Function.update (fun _ => none) 7 (some 5))) atomic ∧ atomic.log = s.log ∧
          (s.writer = none → atomic.data = s.data) := by
  have ends : ∃ s, exec connObject.step sharedLookupsRun (State.init (Function.update (fun _ => none) 7 (some 5))) =
      some s ∧ s.data 8 = some 6 := exec_ends (by decide +kernel)
  obtain ⟨s, run, stored⟩ := ends
  exact ⟨s, run, stored, (conn_table_linearizable (reach_of_exec run)).1⟩

end SvrNet

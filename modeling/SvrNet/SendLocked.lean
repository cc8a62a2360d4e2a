import SvrNet.CData
import SvrNet.Locked
import SvrNet.SendHelper
import Mathlib.Data.List.Basic

namespace SvrNet
open CData StepSystem LockedObject

variable {β : Type}

/-- The functions on `send_queue_t`. -/
inductive QSendCall (β : Type)
  | push (connectId : ConnId) (data : List β)
  | popFirst (connId : ConnId) (len : Nat)
  | connidOfFront
  | removeAll (connid : ConnId)
  | size

inductive QSendRet (β : Type)
  | ret (value : Int)
  | popped (ret : Int) (len : Nat) (data : List β)
  | connid (id : ConnId)

/-- Where a function is between `lock` and `unlock`; an iterator is a position in the list. -/
inductive QSendPc
  | start
  | hit (hit : Bool)
  | scan (it : Nat)
  | found (it : Nat)

def QSendCall.start : QSendCall β → QSendPc
  | .popFirst _ _ | .removeAll _ => .scan 0
  | _ => .start

/-- The bodies, one access to the list after the other. -/
def qSendBody : QSendCall β → Unit → SendQueue β → QSendPc → Option (SendQueue β × (QSendPc ⊕ QSendRet β))
  | .push connectId _, _, queue, .start =>
    some (queue, .inl (.hit (queue.head?.any fun front => front.1 = connectId)))
  | .push connectId data, _, queue, .hit hit =>
    match queue with
    | [] => if hit then none else some ([(connectId, data)], .inr (.ret 0))
    | (frontId, front) :: later =>
      if hit ∧ front.length + data.length < netSendBuffSize then
        some ((frontId, front ++ data) :: later, .inr (.ret 0))
      else some ((frontId, front) :: later ++ [(connectId, data)], .inr (.ret 0))
  | .popFirst connId len, _, queue, .scan it =>
    match queue[it]? with
    | none => some (queue, .inr (.popped (-1) len []))
    | some entry => some (queue, .inl (if entry.1 = connId then .found it else .scan (it + 1)))
  | .popFirst _ len, _, queue, .found it =>
    match queue[it]? with
    | none => none
    | some entry =>
      if len < entry.2.length then some (queue, .inr (.popped (-1) entry.2.length []))
      else some (queue.eraseIdx it, .inr (.popped 0 entry.2.length entry.2))
  | .connidOfFront, _, queue, .start =>
    match queue with
    | [] => some (queue, .inr (.connid svrInvalidConnectId))
    | (frontId, _) :: _ => some (queue, .inr (.connid frontId))
  | .removeAll connid, _, queue, .scan it =>
    match queue[it]? with
    | none => some (queue, .inr (.ret 0))
    | some entry =>
      if entry.1 = connid then some (queue.eraseIdx it, .inl (.scan it))
      else some (queue, .inl (.scan (it + 1)))
  | .size, _, queue, .start => some (queue, .inr (.ret (toInt queue.length)))
  | _, _, _, _ => none

/-- `send_queue_t`: a list behind a mutex. -/
def qSendObject (β : Type) : LockedObject (SendQueue β) (QSendCall β) (QSendRet β) QSendPc Unit where
  shared := fun _ => false
  start := QSendCall.start
  body := qSendBody
  reads := nofun

/-- What a call does to the queue, and its result. -/
def QSendCall.apply : QSendCall β → SendQueue β → SendQueue β × QSendRet β
  | .push connectId data, queue => (qSendPush queue connectId data, .ret 0)
  | .popFirst connId len, queue =>
    let popped := qSendPopFirst queue connId len
    (popped.queue, .popped popped.ret popped.len popped.data)
  | .connidOfFront, queue => (queue, .connid (qSendConnidOfFront queue))
  | .removeAll connid, queue => (qSendRemoveAllByConnid queue connid, .ret 0)
  | .size, queue => (queue, .ret (toInt queue.length))

/-- What the loops of a call have established since it found `queue`. -/
def QSendCall.Inv (queue : SendQueue β) : QSendCall β → SendQueue β → QSendPc → Prop
  | .push connectId _, now, .hit hit => now = queue ∧ hit = queue.head?.any fun front => front.1 = connectId
  | .popFirst connId _, now, .scan it => now = queue ∧ ∀ entry ∈ queue.take it, entry.1 ≠ connId
  | .popFirst connId _, now, .found it => now = queue ∧ (∀ entry ∈ queue.take it, entry.1 ≠ connId) ∧
      ∃ entry, queue[it]? = some entry ∧ entry.1 = connId
  | .removeAll connid, now, .scan it => (∀ entry ∈ now.take it, entry.1 ≠ connid) ∧
      qSendRemoveAllByConnid now connid = qSendRemoveAllByConnid queue connid
  | .push _ _, now, .start | .connidOfFront, now, .start | .size, now, .start => now = queue
  | _, _, _ => False

/-- The same behind an access: the loop goes on, or the call has done what it is for. -/
def QSendCall.Post (call : QSendCall β) (queue after : SendQueue β) : QSendPc ⊕ QSendRet β → Prop
  | .inl pc => call.Inv queue after pc
  | .inr ret => (after, ret) = call.apply queue

section Loops

variable {queue now : SendQueue β} {connid : ConnId} {it : Nat} {entry : ConnId × List β}

/-- An iterator that passes an entry has seen all entries up to it. -/
theorem take_succ_other (passed : ∀ entry ∈ queue.take it, entry.1 ≠ connid) (at_ : queue[it]? = some entry)
    (other : entry.1 ≠ connid) : ∀ entry ∈ queue.take (it + 1), entry.1 ≠ connid := by
  intro one member
  rw [List.take_add_one, at_, Option.toList_some, List.mem_append, List.mem_singleton] at member
  rcases member with before | rfl
  · exact passed one before
  · exact other

theorem take_append_drop_at (at_ : queue[it]? = some entry) :
    queue = queue.take it ++ entry :: queue.drop (it + 1) := by
  obtain ⟨inside, rfl⟩ := List.getElem?_eq_some_iff.mp at_
  rw [List.cons_getElem_drop_succ, List.take_append_drop]

/-- The entry that the scan stops at is the first one of its connection. -/
theorem popFirst_found {len : Nat} (passed : ∀ entry ∈ queue.take it, entry.1 ≠ connid)
    (at_ : queue[it]? = some entry) (owner : entry.1 = connid) :
    qSendPopFirst queue connid len =
      if len < entry.2.length then ⟨-1, entry.2.length, [], queue⟩
      else ⟨0, entry.2.length, entry.2, queue.eraseIdx it⟩ := by
  have split := take_append_drop_at at_
  have skipped : ∀ one ∈ queue.take it, ¬ (decide (one.1 = connid)) = true := by simpa using passed
  have found : queue.find? (·.1 = connid) = some entry :=
    List.find?_eq_some_iff_append.mpr ⟨by simpa using owner, _, _, split, by simpa using passed⟩
  have erased : queue.eraseP (·.1 = connid) = queue.eraseIdx it := by
    rw [List.eraseIdx_eq_take_drop_succ]
    conv => lhs; rw [split]
    rw [List.eraseP_append_right _ skipped, List.eraseP_cons_of_pos (by simpa using owner)]
  simp only [qSendPopFirst, found, erased]

theorem popFirst_missing {len : Nat} (passed : ∀ entry ∈ queue.take it, entry.1 ≠ connid)
    (at_ : queue[it]? = none) : qSendPopFirst queue connid len = ⟨-1, len, [], queue⟩ := by
  rw [List.take_of_length_le (List.getElem?_eq_none_iff.mp at_)] at passed
  have missing : queue.find? (·.1 = connid) = none := List.find?_eq_none.mpr (by simpa using passed)
  simp only [qSendPopFirst, missing]

/-- Erasing an entry of the connection at the iterator leaves the others. -/
theorem removeAll_eraseIdx (at_ : now[it]? = some entry) (owner : entry.1 = connid) :
    qSendRemoveAllByConnid (now.eraseIdx it) connid = qSendRemoveAllByConnid now connid := by
  rw [List.eraseIdx_eq_take_drop_succ]
  conv => rhs; rw [take_append_drop_at at_]
  simp [qSendRemoveAllByConnid, owner]

theorem removeAll_passed (passed : ∀ entry ∈ now.take it, entry.1 ≠ connid) (at_ : now[it]? = none) :
    qSendRemoveAllByConnid now connid = now := by
  rw [List.take_of_length_le (List.getElem?_eq_none_iff.mp at_)] at passed
  exact List.filter_eq_self.mpr fun entry member => decide_eq_true (passed entry member)

end Loops

variable {call : QSendCall β} {queue now after : SendQueue β} {pc : QSendPc}

theorem QSendCall.inv_start (call : QSendCall β) (queue : SendQueue β) : call.Inv queue queue call.start := by
  cases call <;> simp [QSendCall.start, QSendCall.Inv]

/-- One access keeps what was established, or completes the call. -/
theorem QSendCall.inv_body {next : QSendPc ⊕ QSendRet β} (inv : call.Inv queue now pc)
    (went : qSendBody call () now pc = some (after, next)) : call.Post queue after next := by
  cases call with
  | push connectId data =>
    cases pc with
    | start =>
      cases inv
      cases went
      exact ⟨rfl, rfl⟩
    | hit hit =>
      obtain ⟨rfl, rfl⟩ := inv
      cases now with
      | nil =>
        cases went
        rfl
      | cons front later =>
        obtain ⟨frontId, front⟩ := front
        simp only [qSendBody, List.head?_cons, Option.any_some, decide_eq_true_eq] at went
        split at went
        · rename_i merged
          cases went
          simp only [QSendCall.Post, QSendCall.apply, qSendPush, if_pos merged]
        · rename_i apart
          cases went
          simp only [QSendCall.Post, QSendCall.apply, qSendPush, if_neg apart]
    | _ => exact inv.elim
  | popFirst connId len =>
    cases pc with
    | scan it =>
      obtain ⟨rfl, passed⟩ := inv
      simp only [qSendBody] at went
      split at went
      · rename_i outside
        cases went
        simp only [QSendCall.Post, QSendCall.apply, popFirst_missing passed outside]
      · rename_i entry at_
        by_cases owner : entry.1 = connId
        · rw [if_pos owner] at went
          cases went
          exact ⟨rfl, passed, entry, at_, owner⟩
        · rw [if_neg owner] at went
          cases went
          exact ⟨rfl, take_succ_other passed at_ owner⟩
    | found it =>
      obtain ⟨rfl, passed, entry, at_, owner⟩ := inv
      simp only [qSendBody, at_] at went
      split at went
      · rename_i large
        cases went
        simp only [QSendCall.Post, QSendCall.apply, popFirst_found passed at_ owner, if_pos large]
      · rename_i fits
        cases went
        simp only [QSendCall.Post, QSendCall.apply, popFirst_found passed at_ owner, if_neg fits]
    | _ => exact inv.elim
  | connidOfFront =>
    cases pc with
    | start =>
      cases inv
      cases queue with
      | nil =>
        cases went
        rfl
      | cons =>
        cases went
        rfl
    | _ => exact inv.elim
  | removeAll connid =>
    cases pc with
    | scan it =>
      obtain ⟨passed, same⟩ := inv
      simp only [qSendBody] at went
      split at went
      · rename_i outside
        cases went
        simp only [QSendCall.Post, QSendCall.apply]
        rw [← same, removeAll_passed passed outside]
      · rename_i entry at_
        split at went
        · rename_i owner
          cases went
          refine ⟨fun one member => passed one ?_, (removeAll_eraseIdx at_ owner).trans same⟩
          obtain ⟨inside, _⟩ := List.getElem?_eq_some_iff.mp at_
          rwa [List.eraseIdx_eq_take_drop_succ,
            List.take_left' (List.length_take_of_le inside.le)] at member
        · rename_i other
          cases went
          exact ⟨take_succ_other passed at_ other, same⟩
    | _ => exact inv.elim
  | size =>
    cases pc with
    | start =>
      cases inv
      cases went
      rfl
    | _ => exact inv.elim

/-- In a body there is always something to do. -/
theorem QSendCall.inv_live (inv : call.Inv queue now pc) : (qSendBody call () now pc).isSome := by
  cases call with
  | push connectId data =>
    cases pc with
    | start => rfl
    | hit hit =>
      obtain ⟨rfl, rfl⟩ := inv
      cases now with
      | nil => rfl
      | cons front later =>
        simp only [qSendBody]
        split <;> rfl
    | _ => exact inv.elim
  | popFirst connId len =>
    cases pc with
    | scan it =>
      simp only [qSendBody]
      split <;> rfl
    | found it =>
      obtain ⟨rfl, _, entry, at_, _⟩ := inv
      simp only [qSendBody, at_]
      split <;> rfl
    | _ => exact inv.elim
  | connidOfFront =>
    cases pc with
    | start => cases now <;> rfl
    | _ => exact inv.elim
  | removeAll connid =>
    cases pc with
    | scan it =>
      simp only [qSendBody]
      split
      · rfl
      · split <;> rfl
    | _ => exact inv.elim
  | size =>
    cases pc with
    | start => rfl
    | _ => exact inv.elim

theorem QSendCall.inv_moves {before last : SendQueue β × QSendPc} (inv : call.Inv queue before.1 before.2)
    (moves : Relation.ReflTransGen ((qSendObject β).Moves call) before last) : call.Inv queue last.1 last.2 := by
  induction moves with
  | refl => exact inv
  | tail _ one ih =>
    obtain ⟨_, went⟩ := one
    exact QSendCall.inv_body ih went

theorem qSend_finishes {ret : QSendRet β} (finishes : (qSendObject β).Finishes call queue after ret) :
    (after, ret) = call.apply queue := by
  obtain ⟨last, _, moves, went⟩ := finishes
  exact QSendCall.inv_body (QSendCall.inv_moves (call.inv_start queue) moves) went

/-- Any number of threads call the functions of the send queue, and are interrupted at every access to
the list: what they get back is what they would get if each call were one step on the queue, and no
call is ever left waiting for nothing. -/
theorem send_queue_linearizable {Thread : Type} [DecidableEq Thread] {queue : SendQueue β}
    {s : State Thread (SendQueue β) (QSendCall β) (QSendRet β) QSendPc}
    (reach : Reach (qSendObject β).step anyStep (State.init queue) s) :
    (∃ atomic, Relation.ReflTransGen (AtomicStep fun call queue after ret => (after, ret) = call.apply queue)
        (Atomic.init queue) atomic ∧ atomic.log = s.log ∧ (s.writer = none → atomic.data = s.data)) ∧
      ∀ thread, (s.phase thread).seen ≠ none →
        ∃ act, ((qSendObject β).step act s).isSome ∧ ∀ other call, act ≠ .call other call := by
  refine ⟨linearizable (fun _ _ _ _ finishes => qSend_finishes finishes) reach, fun thread busy => ?_⟩
  refine never_stuck (fun call before now pc moves => ⟨(), ?_⟩) reach busy
  exact QSendCall.inv_live (QSendCall.inv_moves (call.inv_start before) moves)

/-- One thread removes the entries of a connection while another one waits to push. -/
def contendedRun : List (Act Nat (QSendCall UInt8) Unit) :=
  [.call 0 (.removeAll 7), .call 1 (.push 7 [3]), .acquire 0, .body 0 (), .body 0 (), .body 0 (), .release 0,
    .acquire 1, .body 1 (), .body 1 (), .release 1]

theorem send_queue_linearizable_contended : ∃ s,
    exec (qSendObject UInt8).step contendedRun (State.init [(7, [1]), (8, [2])]) = some s ∧ s.data.length = 2 ∧
      ∃ atomic, Relation.ReflTransGen
          (AtomicStep fun call queue after ret => (after, ret) = QSendCall.apply call queue)
          (Atomic.init [(7, [1]), (8, [2])]) atomic ∧ atomic.log = s.log ∧ (s.writer = none → atomic.data = s.data) := by
  have ends : ∃ s, exec (qSendObject UInt8).step contendedRun (State.init [(7, [1]), (8, [2])]) = some s ∧
      s.data.length = 2 := exec_ends (by decide +kernel)
  obtain ⟨s, run, size⟩ := ends
  exact ⟨s, run, size, (send_queue_linearizable (reach_of_exec run)).1⟩

end SvrNet

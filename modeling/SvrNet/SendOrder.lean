import SvrNet.SendHistory
import Mathlib.Data.List.Flatten

namespace SvrNet
open StepSystem

variable {β : Type}

/-- The packet is merged into the front entry although another entry of its connection waits further
back. -/
def overtakes (queue : SendQueue β) (id : ConnId) (data : List β) : Prop :=
  match queue with
  | [] => False
  | (frontId, front) :: later =>
    (frontId = id ∧ front.length + data.length < netSendBuffSize) ∧ ∃ entry ∈ later, entry.1 = id

instance : ∀ (queue : SendQueue β) (id : ConnId) (data : List β), Decidable (overtakes queue id data)
  | [], _, _ => inferInstanceAs (Decidable False)
  | (_, _) :: _, _, _ => inferInstanceAs (Decidable ((_ ∧ _) ∧ _))

/-- No pushed packet overtakes one that is queued for its connection. -/
def inTurn : QSendOp β → QSend β → Prop
  | .push id data, s => ¬ overtakes s.queue id data
  | _, _ => True

instance : ∀ (op : QSendOp β) (s : QSend β), Decidable (inTurn op s)
  | .push _ _, _ => inferInstanceAs (Decidable (¬ _))
  | .popFirst _, _ => inferInstanceAs (Decidable True)
  | .removeAll _, _ => inferInstanceAs (Decidable True)

/-- The packets of the connection come out in the order in which they were pushed: those popped since
its last removal are the first ones pushed since then, and of the whole history only removed packets
are missing in between. -/
structure InOrder (s : QSend β) (id : ConnId) : Prop where
  current : ∃ kept waiting, s.pushed id = kept ++ waiting ∧ (s.popped id).flatten = kept.flatten
  history : ∃ kept : List (List β), kept.Sublist (s.allPushed id) ∧ (s.allPopped id).flatten = kept.flatten

variable {s s' : QSend β} {parts : SendQueue (List β)} {taken : ConnId → List (List (List β))}

theorem packetsOf_pushPart_inTurn {id : ConnId} {pack : List β} (turn : ¬ overtakes (joined parts) id pack) :
    packetsOf (pushPart parts id pack) id = packetsOf parts id ++ [pack] := by
  cases parts with
  | nil => simp [pushPart, packetsOf]
  | cons entry later =>
    obtain ⟨frontId, front⟩ := entry
    rw [pushPart]
    split
    · rename_i merged
      have alone : packetsOf later id = [] := by
        rw [packetsOf, List.flatMap_eq_nil_iff]
        intro entry member
        obtain ⟨here, owner⟩ := List.mem_filter.mp member
        refine absurd ⟨merged, (entry.1, entry.2.flatten), ?_, by simpa using owner⟩ turn
        exact List.mem_map_of_mem here
      rw [packetsOf_cons, packetsOf_cons, if_pos merged.1, if_pos merged.1, alone, List.append_nil,
        List.append_nil]
    · rw [packetsOf_append, packetsOf_cons (id, [pack]), if_pos rfl, packetsOf_nil, List.append_nil]

/-- The packets that were popped, then those of the queue, are the pushed ones in their order. What was
popped before the last removal was pushed before it, in the same order. -/
structure OrderInv (s : QSend β) (parts : SendQueue (List β)) (taken : ConnId → List (List (List β))) :
    Prop where
  queue : s.queue = joined parts
  popped : ∀ id, s.popped id = (taken id).map List.flatten
  order : ∀ id, (taken id).flatten ++ packetsOf parts id = s.pushed id
  past : ∀ id, ∃ (kept : List (List β)) (buffers before : List (List β)),
    s.allPopped id = buffers ++ s.popped id ∧ s.allPushed id = before ++ s.pushed id ∧
      kept.Sublist before ∧ buffers.flatten = kept.flatten

/-- What is logged in two logs of which one continues an older one is logged behind the older one. -/
theorem logged_behind {log allLog : ConnId → List (List β)} {id other : ConnId} {data : List β}
    {before : List (List β)} (continues : allLog other = before ++ log other) :
    logged allLog id data other = before ++ logged log id data other := by
  by_cases same : other = id
  · subst same
    rw [logged_self, logged_self, continues, List.append_assoc]
  · rw [logged_other same, logged_other same, continues]

theorem orderInv_init : OrderInv (QSend.init : QSend β) [] (fun _ => []) where
  queue := rfl
  popped := fun _ => rfl
  order := fun _ => rfl
  past := fun _ => ⟨[], [], [], rfl, rfl, .refl _, rfl⟩

theorem OrderInv.step_push (inv : OrderInv s parts taken) {id : ConnId} {data : List β}
    (turn : ¬ overtakes s.queue id data) :
    OrderInv { s with
      queue := qSendPush s.queue id data
      pushed := logged s.pushed id data
      allPushed := logged s.allPushed id data } (pushPart parts id data) taken where
  queue := by rw [← qSendPush_joined, ← inv.queue]
  popped := inv.popped
  order := fun other => by
    show _ = logged s.pushed id data other
    by_cases same : other = id
    · subst same
      rw [logged_self, packetsOf_pushPart_inTurn (inv.queue ▸ turn), ← List.append_assoc, inv.order]
    · rw [logged_other same, packetsOf_pushPart_other same, inv.order]
  past := fun other => by
    obtain ⟨kept, buffers, before, popped, pushed, sublist, spelled⟩ := inv.past other
    exact ⟨kept, buffers, before, popped, logged_behind pushed, sublist, spelled⟩

theorem OrderInv.step_pop (inv : OrderInv s parts taken) {id : ConnId}
    (popped : (qSendPopFirst s.queue id netSendBuffSize).ret ≠ -1) :
    ∃ parts' taken', OrderInv { s with
      queue := (qSendPopFirst s.queue id netSendBuffSize).queue
      popped := logged s.popped id (qSendPopFirst s.queue id netSendBuffSize).data
      allPopped := logged s.allPopped id (qSendPopFirst s.queue id netSendBuffSize).data } parts' taken' := by
  rw [inv.queue] at popped ⊢
  obtain ⟨whole, rest, result, split, others⟩ := qSendPopFirst_joined popped
  rw [result]
  refine ⟨rest, Function.update taken id (taken id ++ [whole]), rfl, fun other => logged_flatten inv.popped,
    fun other => ?_, fun other => ?_⟩
  · by_cases same : other = id
    · rw [same, Function.update_self, List.flatten_append, List.flatten_singleton, List.append_assoc, ← split,
        inv.order]
    · rw [Function.update_of_ne same, others other same, inv.order]
  · obtain ⟨kept, buffers, before, old, pushed, sublist, spelled⟩ := inv.past other
    exact ⟨kept, buffers, before, logged_behind old, pushed, sublist, spelled⟩

/-- With a removal the packets that were popped become past, and those that were queued are gone. -/
theorem OrderInv.step_removeAll (inv : OrderInv s parts taken) (id : ConnId) :
    OrderInv { s with
      queue := qSendRemoveAllByConnid s.queue id
      pushed := Function.update s.pushed id []
      popped := Function.update s.popped id [] } (qSendRemoveAllByConnid parts id)
      (Function.update taken id []) where
  queue := by rw [← joined_removeAll, ← inv.queue]
  popped := fun other => by
    by_cases same : other = id
    · simp [same]
    · simpa [same] using inv.popped other
  order := fun other => by
    by_cases same : other = id
    · simp [same, packetsOf_removeAll]
    · simpa [same, packetsOf_removeAll_other same] using inv.order other
  past := fun other => by
    obtain ⟨kept, buffers, before, popped, pushed, sublist, spelled⟩ := inv.past other
    by_cases same : other = id
    · subst same
      have order := inv.order other
      refine ⟨kept ++ (taken other).flatten, s.allPopped other, s.allPushed other, by simp, by simp, ?_, ?_⟩
      · rw [pushed, ← order]
        exact sublist.append (List.sublist_append_left ..)
      · rw [popped, inv.popped, List.flatten_append, List.flatten_append, spelled, List.flatten_flatten]
    · refine ⟨kept, buffers, before, ?_, ?_, sublist, spelled⟩
      · simpa [same] using popped
      · simpa [same] using pushed

theorem OrderInv.step {op : QSendOp β} (inv : OrderInv s parts taken) (turn : inTurn op s)
    (run : QSend.step op s = some s') : ∃ parts' taken', OrderInv s' parts' taken' := by
  cases op with
  | push id data =>
    cases run
    exact ⟨_, _, inv.step_push turn⟩
  | popFirst id =>
    simp only [QSend.step] at run
    split at run
    · rename_i fails
      cases run
      rw [qSendPopFirst_fail fails]
      exact ⟨parts, taken, inv⟩
    · rename_i popped
      cases run
      exact inv.step_pop popped
  | removeAll id =>
    cases run
    exact ⟨_, _, inv.step_removeAll id⟩

theorem OrderInv.inOrder (inv : OrderInv s parts taken) (id : ConnId) : InOrder s id := by
  have popped : (s.popped id).flatten = (taken id).flatten.flatten := by
    rw [inv.popped, List.flatten_flatten]
  refine ⟨⟨(taken id).flatten, packetsOf parts id, (inv.order id).symm, popped⟩, ?_⟩
  obtain ⟨kept, buffers, before, old, pushed, sublist, spelled⟩ := inv.past id
  refine ⟨kept ++ (taken id).flatten, ?_, ?_⟩
  · rw [pushed, ← inv.order id]
    exact sublist.append (List.sublist_append_left ..)
  · rw [old, List.flatten_append, List.flatten_append, spelled, popped]

/-- As long as no packet is merged past another one of its connection, the packets of each connection
come out in the order in which they were pushed. -/
theorem coalescing_in_order (reach : Reach QSend.step inTurn QSend.init s) (id : ConnId) : InOrder s id := by
  have inv : ∃ parts taken, OrderInv s parts taken :=
    reach.invariant (P := fun s => ∃ parts taken, OrderInv s parts taken) ⟨_, _, orderInv_init⟩
      fun _ _ _ ⟨_, _, inv⟩ turn run => inv.step turn run
  obtain ⟨_, _, inv⟩ := inv
  exact inv.inOrder id

/-- A small packet is merged into the only entry of its connection. -/
def orderedRun : List (QSendOp UInt8) := [.push 7 [1], .push 8 [2], .push 7 [3], .popFirst 7]

theorem coalescing_in_order_merged : ∃ s, exec (guarded QSend.step inTurn) orderedRun QSend.init = some s ∧
    s.popped 7 = [[1, 3]] ∧ InOrder s 7 := by
  have ends : ∃ s, exec (guarded QSend.step inTurn) orderedRun QSend.init = some s ∧
      s.popped 7 = [[1, 3]] := exec_ends (by decide +kernel)
  obtain ⟨s, run, popped⟩ := ends
  exact ⟨s, run, popped, coalescing_in_order (reach_of_exec_guarded run) 7⟩

/-- Two packets of connection 7 are queued behind one of connection 8. When that is gone, a third one
is merged into the first of them. -/
def overtakingRun : List (QSendOp UInt8) :=
  [.push 8 [0], .push 7 [1], .push 7 [2], .popFirst 8, .push 7 [3], .popFirst 7, .popFirst 7]

theorem coalescing_reorders : ∃ s : QSend UInt8, Reach QSend.step sizedPush QSend.init s ∧ ¬ InOrder s 7 := by
  have ends : ∃ s, exec (guarded QSend.step sizedPush) overtakingRun QSend.init = some s ∧
      s.allPushed 7 = [[1], [2], [3]] ∧ s.allPopped 7 = [[1, 3], [2]] := exec_ends (by decide +kernel)
  obtain ⟨s, run, pushed, popped⟩ := ends
  refine ⟨s, reach_of_exec_guarded run, fun inOrder => ?_⟩
  obtain ⟨kept, sublist, spelled⟩ := inOrder.history
  rw [pushed] at sublist
  rw [popped] at spelled
  have bytes : kept.flatten.Sublist [1, 2, 3] := sublist.flatten
  rw [← spelled] at bytes
  revert bytes
  decide

end SvrNet

import SvrNet.SendParts
import SvrNet.Reach

namespace SvrNet
open StepSystem

variable {β : Type}

/-- The send queue with its history. Of every connection it is kept which packets were pushed and
which buffers were popped, since its last `QSend_remove_all_by_connid` and in all. -/
structure QSend (β : Type) where
  queue : SendQueue β
  pushed : ConnId → List (List β)
  popped : ConnId → List (List β)
  allPushed : ConnId → List (List β)
  allPopped : ConnId → List (List β)

/-- The calls; the buffer for popping is the one of the loop thread. -/
inductive QSendOp (β : Type)
  | push (id : ConnId) (data : List β)
  | popFirst (id : ConnId)
  | removeAll (id : ConnId)

/-- The connection that a call is for. -/
def QSendOp.id : QSendOp β → ConnId
  | .push id _ | .popFirst id | .removeAll id => id

def logged (log : ConnId → List (List β)) (id : ConnId) (data : List β) : ConnId → List (List β) :=
  Function.update log id (log id ++ [data])

section Log

variable {log : ConnId → List (List β)} {id other : ConnId} {data : List β}

theorem logged_self : logged log id data id = log id ++ [data] := Function.update_self ..

theorem logged_other (different : other ≠ id) : logged log id data other = log other :=
  Function.update_of_ne different ..

theorem mem_logged {packet : List β} (member : packet ∈ log other) : packet ∈ logged log id data other := by
  by_cases same : other = id
  · subst same
    rw [logged_self]
    exact List.mem_append_left _ member
  · rwa [logged_other same]

/-- A buffer is logged as the packets that it is made of. -/
theorem logged_flatten {taken : ConnId → List (List (List β))} {whole : List (List β)}
    (spelled : ∀ id, log id = (taken id).map List.flatten) :
    logged log id whole.flatten other =
      (Function.update taken id (taken id ++ [whole]) other).map List.flatten := by
  by_cases same : other = id
  · subst same
    rw [logged_self, Function.update_self, spelled, List.map_append, List.map_singleton]
  · rw [logged_other same, Function.update_of_ne same, spelled]

end Log

def QSend.step : QSendOp β → QSend β → Option (QSend β)
  | .push id data, s =>
    some { s with
      queue := qSendPush s.queue id data
      pushed := logged s.pushed id data
      allPushed := logged s.allPushed id data }
  | .popFirst id, s =>
    let popped := qSendPopFirst s.queue id netSendBuffSize
    if popped.ret = -1 then some { s with queue := popped.queue }
    else some { s with
      queue := popped.queue
      popped := logged s.popped id popped.data
      allPopped := logged s.allPopped id popped.data }
  | .removeAll id, s =>
    some { s with
      queue := qSendRemoveAllByConnid s.queue id
      pushed := Function.update s.pushed id []
      popped := Function.update s.popped id [] }

def QSend.init : QSend β where
  queue := []
  pushed := fun _ => []
  popped := fun _ => []
  allPushed := fun _ => []
  allPopped := fun _ => []

/-- Every pushed packet has at least one byte and fits into the send buffer. -/
def sizedPush : QSendOp β → QSend β → Prop
  | .push _ data, _ => 0 < data.length ∧ data.length ≤ netSendBuffSize
  | _, _ => True

section Queue

variable {queue : SendQueue β} {id other : ConnId} {data : List β}

/-- A call for one connection leaves the entries of the others as they are. -/
theorem qSendPush_others : (qSendPush queue id data).filter (·.1 ≠ id) = queue.filter (·.1 ≠ id) := by
  cases queue with
  | nil => simp [qSendPush]
  | cons front later =>
    rw [qSendPush]
    split
    · rename_i merged
      rw [List.filter_cons_of_neg (by simpa using merged.1), List.filter_cons_of_neg (by simpa using merged.1)]
    · rw [List.filter_append]
      simp

theorem qSendPopFirst_others (len : Nat) :
    (qSendPopFirst queue id len).queue.filter (·.1 ≠ id) = queue.filter (·.1 ≠ id) := by
  have erased : ∀ queue : SendQueue β, (queue.eraseP (·.1 = id)).filter (·.1 ≠ id) = queue.filter (·.1 ≠ id) := by
    intro queue
    induction queue with
    | nil => rfl
    | cons first later ih =>
      by_cases same : first.1 = id
      · rw [List.eraseP_cons_of_pos (by simpa using same), List.filter_cons_of_neg (by simpa using same)]
      · rw [List.eraseP_cons_of_neg (by simpa using same), List.filter_cons_of_pos (by simpa using same),
          List.filter_cons_of_pos (by simpa using same), ih]
  unfold qSendPopFirst
  split
  · rfl
  · split
    · rfl
    · exact erased queue

theorem qSendRemoveAll_others :
    (qSendRemoveAllByConnid queue id).filter (·.1 ≠ id) = queue.filter (·.1 ≠ id) := by
  rw [qSendRemoveAllByConnid, List.filter_filter]
  simp

theorem qSendPopFirst_fail {len : Nat} (fails : (qSendPopFirst queue id len).ret = -1) :
    (qSendPopFirst queue id len).queue = queue := by
  unfold qSendPopFirst at fails ⊢
  split at fails
  · rfl
  · split at fails
    · rename_i short
      rw [if_pos short]
    · simp at fails

/-- With entries that fit into the buffer, popping fails for want of an entry only. -/
theorem qSendPopFirst_fail_iff {len : Nat} (poppable : ∀ entry ∈ queue, entry.2.length ≤ len) :
    (qSendPopFirst queue id len).ret = -1 ↔ ∀ entry ∈ queue, entry.1 ≠ id := by
  unfold qSendPopFirst
  cases found : queue.find? (·.1 = id) with
  | none => simpa using found
  | some entry =>
    have member := List.mem_of_find?_eq_some found
    have owner : entry.1 = id := by simpa using List.find?_some found
    have fits := poppable entry member
    simp only
    rw [if_neg (by omega)]
    refine ⟨by simp, fun none => absurd owner (none entry member)⟩

/-- Merging stops below the size of the send buffer. -/
theorem qSendPush_poppable (poppable : ∀ entry ∈ queue, entry.2.length ≤ netSendBuffSize)
    (fits : data.length ≤ netSendBuffSize) :
    ∀ entry ∈ qSendPush queue id data, entry.2.length ≤ netSendBuffSize := by
  cases queue with
  | nil =>
    intro entry member
    rw [qSendPush, List.mem_singleton] at member
    rw [member]
    exact fits
  | cons front later =>
    intro entry member
    rw [qSendPush] at member
    split at member
    · rename_i merged
      rcases List.mem_cons.mp member with rfl | old
      · rw [List.length_append]
        exact merged.2.le
      · exact poppable entry (List.mem_cons_of_mem _ old)
    · rcases List.mem_append.mp member with old | new
      · exact poppable entry old
      · rw [List.mem_singleton.mp new]
        exact fits

end Queue

section Ledger

variable {s s' : QSend β} {parts : SendQueue (List β)} {taken : ConnId → List (List (List β))}

/-- The packets of the queue's entries and of the popped buffers, kept apart, account for everything
that was pushed since the last removal. -/
structure Ledger (s : QSend β) (parts : SendQueue (List β)) (taken : ConnId → List (List (List β))) : Prop where
  queue : s.queue = joined parts
  popped : ∀ id, s.popped id = (taken id).map List.flatten
  balance : ∀ id, ((taken id).flatten ++ packetsOf parts id).Perm (s.pushed id)
  known : ∀ id, ∀ packet ∈ s.pushed id, packet ∈ s.allPushed id
  whole : ∀ id, ∀ buffer ∈ s.allPopped id, ∃ packets : List (List β),
    buffer = packets.flatten ∧ ∀ packet ∈ packets, packet ∈ s.allPushed id

theorem ledger_init : Ledger (QSend.init : QSend β) [] (fun _ => []) := by
  constructor <;> simp [QSend.init, joined]

theorem Ledger.step_push (ledger : Ledger s parts taken) (id : ConnId) (data : List β) :
    Ledger { s with
      queue := qSendPush s.queue id data
      pushed := logged s.pushed id data
      allPushed := logged s.allPushed id data } (pushPart parts id data) taken where
  queue := by
    rw [← qSendPush_joined, ← ledger.queue]
  popped := ledger.popped
  balance := fun other => by
    show ((taken other).flatten ++ _).Perm (logged s.pushed id data other)
    by_cases same : other = id
    · subst same
      have pushed : (packetsOf (pushPart parts other data) other).Perm _ := packetsOf_pushPart
      have before := (ledger.balance other).append_right [data]
      rw [List.append_assoc] at before
      rw [logged_self]
      exact (pushed.append_left _).trans before
    · rw [logged_other same, packetsOf_pushPart_other same]
      exact ledger.balance other
  known := fun other packet member => by
    have member : packet ∈ logged s.pushed id data other := member
    show packet ∈ logged s.allPushed id data other
    by_cases same : other = id
    · subst same
      rw [logged_self] at member ⊢
      rcases List.mem_append.mp member with old | new
      · exact List.mem_append_left _ (ledger.known other packet old)
      · exact List.mem_append_right _ new
    · rw [logged_other same] at member ⊢
      exact ledger.known other packet member
  whole := fun other buffer member => by
    obtain ⟨packets, spelled, pushed⟩ := ledger.whole other buffer member
    exact ⟨packets, spelled, fun packet here => mem_logged (pushed packet here)⟩

theorem Ledger.step_pop (ledger : Ledger s parts taken) {id : ConnId}
    (popped : (qSendPopFirst s.queue id netSendBuffSize).ret ≠ -1) :
    ∃ parts' taken', Ledger { s with
      queue := (qSendPopFirst s.queue id netSendBuffSize).queue
      popped := logged s.popped id (qSendPopFirst s.queue id netSendBuffSize).data
      allPopped := logged s.allPopped id (qSendPopFirst s.queue id netSendBuffSize).data } parts' taken' := by
  rw [ledger.queue] at popped ⊢
  obtain ⟨whole, rest, result, split, others⟩ := qSendPopFirst_joined popped
  rw [result]
  refine ⟨rest, Function.update taken id (taken id ++ [whole]), rfl, fun other => logged_flatten ledger.popped,
    fun other => ?_, ledger.known, fun other buffer member => ?_⟩
  · by_cases same : other = id
    · rw [same, Function.update_self, List.flatten_append, List.flatten_singleton, List.append_assoc, ← split]
      exact ledger.balance id
    · rw [Function.update_of_ne same, others other same]
      exact ledger.balance other
  · have member : buffer ∈ logged s.allPopped id whole.flatten other := member
    by_cases same : other = id
    · subst same
      rw [logged_self] at member
      rcases List.mem_append.mp member with old | new
      · exact ledger.whole other buffer old
      · refine ⟨whole, List.mem_singleton.mp new, fun packet here => ?_⟩
        refine ledger.known other packet ((ledger.balance other).subset ?_)
        rw [split]
        exact List.mem_append_right _ (List.mem_append_left _ here)
    · rw [logged_other same] at member
      exact ledger.whole other buffer member

theorem Ledger.step_removeAll (ledger : Ledger s parts taken) (id : ConnId) :
    Ledger { s with
      queue := qSendRemoveAllByConnid s.queue id
      pushed := Function.update s.pushed id []
      popped := Function.update s.popped id [] } (qSendRemoveAllByConnid parts id)
      (Function.update taken id []) where
  queue := by rw [← joined_removeAll, ← ledger.queue]
  popped := fun other => by
    by_cases same : other = id
    · simp [same]
    · simpa [same] using ledger.popped other
  balance := fun other => by
    by_cases same : other = id
    · simp [same, packetsOf_removeAll]
    · simpa [same, packetsOf_removeAll_other same] using ledger.balance other
  known := fun other packet member => by
    by_cases same : other = id
    · simp [same] at member
    · exact ledger.known other packet (by simpa [same] using member)
  whole := ledger.whole

theorem Ledger.step {op : QSendOp β} (ledger : Ledger s parts taken) (run : QSend.step op s = some s') :
    ∃ parts' taken', Ledger s' parts' taken' := by
  cases op with
  | push id data =>
    cases run
    exact ⟨_, _, ledger.step_push id data⟩
  | popFirst id =>
    simp only [QSend.step] at run
    split at run
    · rename_i fails
      cases run
      rw [qSendPopFirst_fail fails]
      exact ⟨parts, taken, ledger⟩
    · rename_i popped
      cases run
      exact ledger.step_pop popped
  | removeAll id =>
    cases run
    exact ⟨_, _, ledger.step_removeAll id⟩

theorem ledger_reach {guard : QSendOp β → QSend β → Prop} (reach : Reach QSend.step guard QSend.init s) :
    ∃ parts taken, Ledger s parts taken :=
  reach.invariant (P := fun s => ∃ parts taken, Ledger s parts taken) ⟨_, _, ledger_init⟩
    fun _ _ _ ⟨_, _, ledger⟩ _ run => ledger.step run

end Ledger

section Step

variable {s s' : QSend β} {op : QSendOp β}

theorem QSend.step_others (run : QSend.step op s = some s') :
    s'.queue.filter (·.1 ≠ op.id) = s.queue.filter (·.1 ≠ op.id) := by
  cases op with
  | push id data =>
    cases run
    exact qSendPush_others
  | popFirst id =>
    simp only [QSend.step] at run
    split at run
    · cases run
      exact qSendPopFirst_others netSendBuffSize
    · cases run
      exact qSendPopFirst_others netSendBuffSize
  | removeAll id =>
    cases run
    exact qSendRemoveAll_others

theorem QSend.step_poppable (poppable : ∀ entry ∈ s.queue, entry.2.length ≤ netSendBuffSize)
    (sized : sizedPush op s) (run : QSend.step op s = some s') :
    ∀ entry ∈ s'.queue, entry.2.length ≤ netSendBuffSize := by
  cases op with
  | push id data =>
    cases run
    exact qSendPush_poppable poppable sized.2
  | popFirst id =>
    have fewer := qSendPopFirst_sublist s.queue id netSendBuffSize
    simp only [QSend.step] at run
    split at run
    · cases run
      exact fun entry member => poppable entry (fewer.subset member)
    · cases run
      exact fun entry member => poppable entry (fewer.subset member)
  | removeAll id =>
    cases run
    exact fun entry member => poppable entry ((qSendRemoveAll_sublist s.queue id).subset member)

theorem poppable_reach (reach : Reach QSend.step sizedPush QSend.init s) :
    ∀ entry ∈ s.queue, entry.2.length ≤ netSendBuffSize :=
  reach.invariant (P := fun s : QSend β => ∀ entry ∈ s.queue, entry.2.length ≤ netSendBuffSize)
    (by simp [QSend.init]) fun _ _ _ poppable sized run => QSend.step_poppable poppable sized run

end Step

/-- What holds of the send queue and its history in a state that calls with packets of 1 to
`NET_SEND_BUFF_SIZE` bytes lead to. -/
structure SendQueueExact (s : QSend β) : Prop where
  ledger : ∃ parts taken, Ledger s parts taken
  poppable : ∀ entry ∈ s.queue, entry.2.length ≤ netSendBuffSize
  empty : ∀ id, (qSendPopFirst s.queue id netSendBuffSize).ret = -1 ↔ ∀ entry ∈ s.queue, entry.1 ≠ id

/-- The send queue loses, duplicates and mixes nothing: the packets of a connection are those popped
and those queued, a call for one connection leaves the entries of the others as they are and in their
order, and a removal leaves nothing of its connection. -/
theorem send_queue_exact {s : QSend β} (reach : Reach QSend.step sizedPush QSend.init s) :
    SendQueueExact s ∧
      (∀ op s', QSend.step op s = some s' →
        s'.queue.filter (·.1 ≠ op.id) = s.queue.filter (·.1 ≠ op.id)) ∧
      ∀ id s', QSend.step (.removeAll id) s = some s' →
        (∀ entry ∈ s'.queue, entry.1 ≠ id) ∧ s'.pushed id = [] ∧ s'.popped id = [] := by
  have poppable := poppable_reach reach
  refine ⟨⟨ledger_reach reach, poppable, fun id => qSendPopFirst_fail_iff poppable⟩,
    fun op s' run => QSend.step_others run, fun id s' run => ?_⟩
  cases run
  refine ⟨fun entry member => ?_, Function.update_self .., Function.update_self ..⟩
  simpa using (List.mem_filter.mp member).2

/-- Two packets of one connection are merged, one of another stays apart. -/
def mergedRun : List (QSendOp UInt8) := [.push 7 [1], .push 8 [2], .push 7 [3], .popFirst 7]

instance : ∀ (op : QSendOp β) (s : QSend β), Decidable (sizedPush op s)
  | .push _ _, _ => inferInstanceAs (Decidable (_ ∧ _))
  | .popFirst _, _ => inferInstanceAs (Decidable True)
  | .removeAll _, _ => inferInstanceAs (Decidable True)

theorem send_queue_exact_merged : ∃ s, exec (guarded QSend.step sizedPush) mergedRun QSend.init = some s ∧
    s.queue = [(8, [2])] ∧ s.popped 7 = [[1, 3]] ∧ SendQueueExact s := by
  have ends : ∃ s, exec (guarded QSend.step sizedPush) mergedRun QSend.init = some s ∧
      s.queue = [(8, [2])] ∧ s.popped 7 = [[1, 3]] := exec_ends (by decide +kernel)
  obtain ⟨s, run, queue, popped⟩ := ends
  exact ⟨s, run, queue, popped, (send_queue_exact (reach_of_exec_guarded run)).1⟩

end SvrNet

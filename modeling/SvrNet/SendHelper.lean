import SvrNet.Conn
import SvrNet.Config

namespace SvrNet

variable {β : Type}

/-- `m_list`: the responses not yet sent, each entry for one connection. -/
abbrev SendQueue (β : Type) := List (ConnId × List β)

/-- `QSend_push`. Small packets of the connection at the front are sent together. -/
def qSendPush (queue : SendQueue β) (connectId : ConnId) (data : List β) : SendQueue β :=
  match queue with
  | [] => [(connectId, data)]
  | (frontId, front) :: later =>
    if frontId = connectId ∧ front.length + data.length < netSendBuffSize then
      (frontId, front ++ data) :: later
    else (frontId, front) :: later ++ [(connectId, data)]

/-- What a call of `QSend_pop_first` gives back. -/
structure Popped (β : Type) where
  ret : Int
  len : Nat
  data : List β
  queue : SendQueue β

/-- `QSend_pop_first`, with the size of the caller's buffer. -/
def qSendPopFirst (queue : SendQueue β) (connId : ConnId) (len : Nat) : Popped β :=
  match queue.find? (·.1 = connId) with
  | none => ⟨-1, len, [], queue⟩
  | some (_, data) =>
    if len < data.length then ⟨-1, data.length, [], queue⟩
    else ⟨0, data.length, data, queue.eraseP (·.1 = connId)⟩

def qSendConnidOfFront (queue : SendQueue β) : ConnId :=
  match queue with
  | [] => svrInvalidConnectId
  | (frontId, _) :: _ => frontId

def qSendRemoveAllByConnid (queue : SendQueue β) (connid : ConnId) : SendQueue β :=
  queue.filter (·.1 ≠ connid)

variable {queue : SendQueue β} {id : ConnId} {data : List β}

/-- After a push every entry was there before, or it is for the connection and holds nothing but
what was pushed and what an entry for the connection held before. -/
theorem mem_qSendPush {entry : ConnId × List β} (member : entry ∈ qSendPush queue id data) :
    entry ∈ queue ∨ entry.1 = id ∧
      ∀ byte ∈ entry.2, byte ∈ data ∨ ∃ old ∈ queue, old.1 = id ∧ byte ∈ old.2 := by
  cases queue with
  | nil =>
    rw [qSendPush, List.mem_singleton] at member
    subst member
    exact Or.inr ⟨rfl, fun byte here => Or.inl here⟩
  | cons front later =>
    obtain ⟨frontId, front⟩ := front
    simp only [qSendPush] at member
    split at member
    · rename_i merged
      rcases List.mem_cons.mp member with rfl | old
      · refine Or.inr ⟨merged.1, fun byte here => ?_⟩
        rcases List.mem_append.mp here with old | new
        · exact Or.inr ⟨(frontId, front), List.mem_cons_self .., merged.1, old⟩
        · exact Or.inl new
      · exact Or.inl (List.mem_cons_of_mem _ old)
    · rcases List.mem_append.mp member with old | new
      · exact Or.inl old
      · rw [List.mem_singleton] at new
        subst new
        exact Or.inr ⟨rfl, fun byte here => Or.inl here⟩

/-- Pushing depends on the bytes only through their number. -/
theorem qSendPush_map {γ : Type} (f : β → γ) :
    qSendPush (queue.map fun entry => (entry.1, entry.2.map f)) id (data.map f) =
      (qSendPush queue id data).map fun entry => (entry.1, entry.2.map f) := by
  cases queue with
  | nil => rfl
  | cons front later =>
    simp only [qSendPush, List.map_cons, List.length_map]
    split <;> simp

theorem qSendPopFirst_sublist (queue : SendQueue β) (id : ConnId) (len : Nat) :
    (qSendPopFirst queue id len).queue.Sublist queue := by
  unfold qSendPopFirst
  split
  · exact .refl queue
  · split
    · exact .refl queue
    · exact List.eraseP_sublist

/-- What is popped is what an entry for the connection holds. -/
theorem qSendPopFirst_entry {queue : SendQueue β} {id : ConnId} {len : Nat}
    (popped : (qSendPopFirst queue id len).ret ≠ -1) :
    ∃ entry ∈ queue, entry.1 = id ∧ (qSendPopFirst queue id len).data = entry.2 := by
  unfold qSendPopFirst at popped ⊢
  cases found : queue.find? (·.1 = id) with
  | none => simp [found] at popped
  | some entry =>
    simp only [found] at popped ⊢
    split at popped
    · simp at popped
    · rename_i fits
      rw [if_neg fits]
      exact ⟨entry, List.mem_of_find?_eq_some found, by simpa using List.find?_some found, rfl⟩

theorem qSendRemoveAll_sublist (queue : SendQueue β) (id : ConnId) :
    (qSendRemoveAllByConnid queue id).Sublist queue :=
  List.filter_sublist

theorem qSendConnidOfFront_mem {queue : SendQueue β} (some : queue ≠ []) :
    ∃ entry ∈ queue, qSendConnidOfFront queue = entry.1 := by
  cases queue with
  | nil => exact absurd rfl some
  | cons entry later => exact ⟨entry, List.mem_cons_self .., rfl⟩

end SvrNet

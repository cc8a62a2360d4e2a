import SvrNet.SendHelper
import Mathlib.Data.List.Perm.Subperm

namespace SvrNet

variable {β : Type}

/-- The send queue that stores what the packets of its entries spell out. The packets themselves
are kept apart only in the specification: an entry there is a list of whole packets. -/
def joined (parts : SendQueue (List β)) : SendQueue β := parts.map fun entry => (entry.1, entry.2.flatten)

/-- The packets of a connection in the order of the queue. -/
def packetsOf (parts : SendQueue (List β)) (id : ConnId) : List (List β) :=
  (parts.filter (·.1 = id)).flatMap (·.2)

/-- `QSend_push` on the queue of packets: it depends on the bytes of the front entry only through
their number. -/
def pushPart (parts : SendQueue (List β)) (id : ConnId) (pack : List β) : SendQueue (List β) :=
  match parts with
  | [] => [(id, [pack])]
  | (frontId, front) :: later =>
    if frontId = id ∧ front.flatten.length + pack.length < netSendBuffSize then
      (frontId, front ++ [pack]) :: later
    else (frontId, front) :: later ++ [(id, [pack])]

variable {parts : SendQueue (List β)} {id other : ConnId} {pack : List β}

@[simp] theorem packetsOf_nil (id : ConnId) : packetsOf ([] : SendQueue (List β)) id = [] := rfl

theorem packetsOf_cons (entry : ConnId × List (List β)) (later : SendQueue (List β)) (id : ConnId) :
    packetsOf (entry :: later) id = (if entry.1 = id then entry.2 else []) ++ packetsOf later id := by
  unfold packetsOf
  by_cases same : entry.1 = id
  · rw [List.filter_cons_of_pos (by simpa using same), List.flatMap_cons, if_pos same]
  · rw [List.filter_cons_of_neg (by simpa using same), if_neg same, List.nil_append]

theorem packetsOf_append (front back : SendQueue (List β)) (id : ConnId) :
    packetsOf (front ++ back) id = packetsOf front id ++ packetsOf back id := by
  rw [packetsOf, List.filter_append, List.flatMap_append, packetsOf, packetsOf]

theorem qSendPush_joined : qSendPush (joined parts) id pack = joined (pushPart parts id pack) := by
  cases parts with
  | nil => simp [joined, qSendPush, pushPart]
  | cons entry later =>
    obtain ⟨frontId, front⟩ := entry
    simp only [joined, qSendPush, pushPart, List.map_cons]
    split <;> simp

/-- A pushed packet joins those of its connection, though not always behind all of them. -/
theorem packetsOf_pushPart : (packetsOf (pushPart parts id pack) id).Perm (packetsOf parts id ++ [pack]) := by
  cases parts with
  | nil => simp [pushPart, packetsOf]
  | cons entry later =>
    obtain ⟨frontId, front⟩ := entry
    rw [pushPart]
    split
    · rename_i merged
      obtain ⟨rfl, _⟩ := merged
      rw [packetsOf_cons, packetsOf_cons, if_pos rfl, if_pos rfl, List.append_assoc, List.append_assoc]
      exact List.perm_append_comm.append_left front
    · rw [packetsOf_append, packetsOf_cons (id, [pack]), if_pos rfl, packetsOf_nil, List.append_nil]

theorem packetsOf_pushPart_other (different : other ≠ id) :
    packetsOf (pushPart parts id pack) other = packetsOf parts other := by
  cases parts with
  | nil => simp [pushPart, packetsOf_cons, Ne.symm different]
  | cons entry later =>
    obtain ⟨frontId, front⟩ := entry
    rw [pushPart]
    split
    · rename_i merged
      obtain ⟨rfl, _⟩ := merged
      simp [packetsOf_cons, Ne.symm different]
    · simp [packetsOf_append, packetsOf_cons, Ne.symm different]

theorem joined_removeAll :
    qSendRemoveAllByConnid (joined parts) id = joined (qSendRemoveAllByConnid parts id) := by
  simp only [qSendRemoveAllByConnid, joined, List.filter_map, Function.comp_def]

theorem packetsOf_removeAll : packetsOf (qSendRemoveAllByConnid parts id) id = [] := by
  simp [packetsOf, qSendRemoveAllByConnid]

theorem packetsOf_removeAll_other (different : other ≠ id) :
    packetsOf (qSendRemoveAllByConnid parts id) other = packetsOf parts other := by
  unfold packetsOf qSendRemoveAllByConnid
  rw [List.filter_filter]
  congr 1
  refine List.filter_congr fun entry _ => ?_
  by_cases same : entry.1 = other
  · simp [same, different]
  · simp [same]

theorem packetsOf_of_find {entry : ConnId × List (List β)} (found : parts.find? (·.1 = id) = some entry) :
    packetsOf parts id = entry.2 ++ packetsOf (parts.eraseP (·.1 = id)) id := by
  induction parts with
  | nil => simp at found
  | cons first later ih =>
    by_cases same : first.1 = id
    · rw [List.find?_cons_of_pos (by simpa using same)] at found
      cases found
      rw [List.eraseP_cons_of_pos (by simpa using same), packetsOf_cons, if_pos same]
    · rw [List.find?_cons_of_neg (by simpa using same)] at found
      rw [List.eraseP_cons_of_neg (by simpa using same), packetsOf_cons, packetsOf_cons, if_neg same,
        List.nil_append, List.nil_append, ih found]

theorem packetsOf_eraseP_other (different : other ≠ id) :
    packetsOf (parts.eraseP (·.1 = id)) other = packetsOf parts other := by
  induction parts with
  | nil => rfl
  | cons first later ih =>
    by_cases same : first.1 = id
    · have skipped : first.1 ≠ other := fun here => different (here.symm.trans same)
      rw [List.eraseP_cons_of_pos (by simpa using same), packetsOf_cons, if_neg skipped, List.nil_append]
    · rw [List.eraseP_cons_of_neg (by simpa using same), packetsOf_cons, packetsOf_cons, ih]

/-- Popping takes the first entry of the connection with all its packets off the queue. -/
theorem qSendPopFirst_joined {len : Nat} (popped : (qSendPopFirst (joined parts) id len).ret ≠ -1) :
    ∃ whole rest, qSendPopFirst (joined parts) id len =
        ⟨0, whole.flatten.length, whole.flatten, joined rest⟩ ∧
      packetsOf parts id = whole ++ packetsOf rest id ∧
      ∀ other, other ≠ id → packetsOf rest other = packetsOf parts other := by
  have find : (joined parts).find? (·.1 = id) =
      (parts.find? (·.1 = id)).map fun entry => (entry.1, entry.2.flatten) := List.find?_map ..
  have erase : (joined parts).eraseP (·.1 = id) = joined (parts.eraseP (·.1 = id)) := List.eraseP_map ..
  unfold qSendPopFirst at popped ⊢
  rw [find] at popped ⊢
  cases found : parts.find? (·.1 = id) with
  | none => simp [found] at popped
  | some entry =>
    simp only [found, Option.map_some] at popped ⊢
    split at popped
    · simp at popped
    · rename_i fits
      refine ⟨entry.2, parts.eraseP (·.1 = id), ?_, packetsOf_of_find found,
        fun other different => packetsOf_eraseP_other different⟩
      rw [if_neg fits, erase]

end SvrNet

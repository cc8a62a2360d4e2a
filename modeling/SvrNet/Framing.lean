import Mathlib.Data.List.Infix
import Mathlib.Data.List.TakeDrop

/-- A self-delimiting framing of streams: a header of fixed size, from which the size of the
body that follows it can be read. Only the cells of the header are looked at. -/
structure Framing (α : Type) where
  headerSize : Nat
  bodySize : List α → Nat
  headerSize_pos : 0 < headerSize
  bodySize_append : ∀ xs ys, headerSize ≤ xs.length → bodySize (xs ++ ys) = bodySize xs

namespace Framing

variable {α : Type} (F : Framing α)

/-- Header and body together, as announced by the header at the front of `xs`. -/
def total (xs : List α) : Nat := F.headerSize + F.bodySize xs

/-- The stream starts with a whole frame. -/
def Complete (xs : List α) : Prop := F.headerSize ≤ xs.length ∧ F.total xs ≤ xs.length

instance (xs : List α) : Decidable (F.Complete xs) := inferInstanceAs (Decidable (_ ∧ _))

def framesFuel : Nat → List α → List (List α)
  | 0, _ => []
  | fuel + 1, xs =>
    if F.Complete xs then xs.take (F.total xs) :: framesFuel fuel (xs.drop (F.total xs)) else []

def restFuel : Nat → List α → List α
  | 0, xs => xs
  | fuel + 1, xs => if F.Complete xs then restFuel fuel (xs.drop (F.total xs)) else xs

/-- The whole frames at the front of a stream. A frame has at least one cell, so the length of
the stream bounds their number. -/
def frames (xs : List α) : List (List α) := F.framesFuel xs.length xs

/-- What follows the last whole frame. -/
def rest (xs : List α) : List α := F.restFuel xs.length xs

/-- Exactly one frame, with nothing after it. -/
def IsFrame (xs : List α) : Prop := F.headerSize ≤ xs.length ∧ F.total xs = xs.length

instance (xs : List α) : Decidable (F.IsFrame xs) := inferInstanceAs (Decidable (_ ∧ _))

/-- Every size announced at a frame boundary of the stream is at most `bound`, that of an
unfinished last frame included. -/
def TotalsLe (bound : Nat) (xs : List α) : Prop :=
  (∀ frame ∈ F.frames xs, frame.length ≤ bound) ∧
    (F.headerSize ≤ (F.rest xs).length → F.total (F.rest xs) ≤ bound)

instance (bound : Nat) (xs : List α) : Decidable (F.TotalsLe bound xs) :=
  inferInstanceAs (Decidable (_ ∧ _))

variable {F} {xs ys frame : List α} {bound : Nat}

theorem total_pos : 0 < F.total xs := Nat.add_pos_left F.headerSize_pos _

theorem total_append (header : F.headerSize ≤ xs.length) : F.total (xs ++ ys) = F.total xs := by
  rw [total, F.bodySize_append xs ys header, total]

theorem Complete.append (complete : F.Complete xs) (ys : List α) : F.Complete (xs ++ ys) := by
  obtain ⟨header, body⟩ := complete
  refine ⟨?_, ?_⟩
  · rw [List.length_append]; omega
  · rw [total_append header, List.length_append]; omega

theorem Complete.drop_length (complete : F.Complete xs) :
    (xs.drop (F.total xs)).length + F.total xs = xs.length := by
  rw [List.length_drop]
  have := complete.2
  omega

theorem not_complete_nil : ¬ F.Complete [] := by
  intro complete
  have := F.headerSize_pos
  have := complete.1
  simp only [List.length_nil] at this
  omega

/-- Streams are taken apart frame by frame. -/
theorem frame_induction {P : List α → Prop} (incomplete : ∀ xs, ¬ F.Complete xs → P xs)
    (complete : ∀ xs, F.Complete xs → P (xs.drop (F.total xs)) → P xs) (xs : List α) : P xs := by
  by_cases whole : F.Complete xs
  · have shorter := whole.drop_length
    have positive : 0 < F.total xs := total_pos
    exact complete xs whole (frame_induction incomplete complete (xs.drop (F.total xs)))
  · exact incomplete xs whole
termination_by xs.length

/-- More fuel than cells changes nothing. -/
theorem framesFuel_enough {fuel : Nat} (enough : xs.length ≤ fuel) :
    F.framesFuel fuel xs = F.frames xs ∧ F.restFuel fuel xs = F.rest xs := by
  have fuels : ∀ xs : List α, ∀ one two, xs.length ≤ one → xs.length ≤ two →
      F.framesFuel one xs = F.framesFuel two xs ∧ F.restFuel one xs = F.restFuel two xs := by
    intro xs
    induction xs using frame_induction (F := F) with
    | incomplete xs incomplete =>
      intro one two _ _
      cases one <;> cases two <;> simp [framesFuel, restFuel, incomplete]
    | complete xs complete ih =>
      intro one two boundOne boundTwo
      have shorter := complete.drop_length
      have positive : 0 < F.total xs := total_pos
      obtain ⟨one, rfl⟩ := Nat.exists_eq_add_one_of_ne_zero (n := one) (by omega)
      obtain ⟨two, rfl⟩ := Nat.exists_eq_add_one_of_ne_zero (n := two) (by omega)
      obtain ⟨sameFrames, sameRest⟩ := ih one two (by omega) (by omega)
      simp only [framesFuel, restFuel, complete, if_true, sameFrames, sameRest, and_self]
  exact fuels xs fuel xs.length enough le_rfl

theorem frames_of_complete (complete : F.Complete xs) :
    F.frames xs = xs.take (F.total xs) :: F.frames (xs.drop (F.total xs)) := by
  have shorter := complete.drop_length
  have positive : 0 < F.total xs := total_pos
  obtain ⟨fuel, size⟩ := Nat.exists_eq_add_one_of_ne_zero (n := xs.length) (by omega)
  rw [frames, size, framesFuel, if_pos complete, (framesFuel_enough (by omega)).1]

theorem rest_of_complete (complete : F.Complete xs) :
    F.rest xs = F.rest (xs.drop (F.total xs)) := by
  have shorter := complete.drop_length
  have positive : 0 < F.total xs := total_pos
  obtain ⟨fuel, size⟩ := Nat.exists_eq_add_one_of_ne_zero (n := xs.length) (by omega)
  rw [rest, size, restFuel, if_pos complete, (framesFuel_enough (by omega)).2]

theorem frames_of_incomplete (incomplete : ¬ F.Complete xs) : F.frames xs = [] := by
  unfold frames
  cases xs.length <;> simp [framesFuel, incomplete]

theorem rest_of_incomplete (incomplete : ¬ F.Complete xs) : F.rest xs = xs := by
  unfold rest
  cases xs.length <;> simp [restFuel, incomplete]

@[simp] theorem frames_nil : F.frames [] = [] := rfl

@[simp] theorem rest_nil : F.rest [] = [] := rfl

/-- Taking a stream apart loses nothing. -/
theorem flatten_frames_append_rest (xs : List α) : (F.frames xs).flatten ++ F.rest xs = xs := by
  induction xs using frame_induction (F := F) with
  | incomplete xs incomplete => simp [frames_of_incomplete incomplete, rest_of_incomplete incomplete]
  | complete xs complete ih =>
    rw [frames_of_complete complete, rest_of_complete complete, List.flatten_cons,
      List.append_assoc, ih, List.take_append_drop]

/-- It does not matter where a stream is cut: the frames of the whole are those of the first
part, then those of its unfinished end with the second part behind it. -/
theorem frames_append (xs ys : List α) :
    F.frames (xs ++ ys) = F.frames xs ++ F.frames (F.rest xs ++ ys) := by
  induction xs using frame_induction (F := F) with
  | incomplete xs incomplete => simp [frames_of_incomplete incomplete, rest_of_incomplete incomplete]
  | complete xs complete ih =>
    rw [frames_of_complete (complete.append ys), frames_of_complete complete,
      rest_of_complete complete, total_append complete.1, List.take_append_of_le_length complete.2,
      List.drop_append_of_le_length complete.2, ih, List.cons_append]

theorem rest_append (xs ys : List α) : F.rest (xs ++ ys) = F.rest (F.rest xs ++ ys) := by
  induction xs using frame_induction (F := F) with
  | incomplete xs incomplete => rw [rest_of_incomplete incomplete]
  | complete xs complete ih =>
    rw [rest_of_complete (complete.append ys), rest_of_complete complete, total_append complete.1,
      List.drop_append_of_le_length complete.2, ih]

theorem IsFrame.complete (whole : F.IsFrame frame) : F.Complete frame := ⟨whole.1, whole.2.le⟩

theorem IsFrame.ne_nil (whole : F.IsFrame frame) : frame ≠ [] := by
  rintro rfl
  exact not_complete_nil whole.complete

theorem Complete.take_isFrame (complete : F.Complete xs) : F.IsFrame (xs.take (F.total xs)) := by
  have header : F.headerSize ≤ (xs.take (F.total xs)).length := by
    rw [List.length_take, total]
    have := complete.1
    have := complete.2
    rw [total] at this
    omega
  have same : F.total (xs.take (F.total xs) ++ xs.drop (F.total xs)) = F.total (xs.take (F.total xs)) :=
    total_append header
  rw [List.take_append_drop] at same
  exact ⟨header, by rw [← same, List.length_take_of_le complete.2]⟩

theorem frames_frame_append (whole : F.IsFrame frame) (xs : List α) :
    F.frames (frame ++ xs) = frame :: F.frames xs := by
  rw [frames_of_complete (whole.complete.append xs), total_append whole.1, whole.2,
    List.take_left, List.drop_left]

theorem rest_frame_append (whole : F.IsFrame frame) (xs : List α) :
    F.rest (frame ++ xs) = F.rest xs := by
  rw [rest_of_complete (whole.complete.append xs), total_append whole.1, whole.2, List.drop_left]

/-- A concatenation of frames is taken apart into just these frames. -/
theorem frames_flatten_append {whole : List (List α)} (each : ∀ frame ∈ whole, F.IsFrame frame)
    (xs : List α) :
    F.frames (whole.flatten ++ xs) = whole ++ F.frames xs ∧
      F.rest (whole.flatten ++ xs) = F.rest xs := by
  induction whole with
  | nil => simp
  | cons frame more ih =>
    have first := each frame (List.mem_cons_self ..)
    obtain ⟨sameFrames, sameRest⟩ := ih (fun other member => each other (List.mem_cons_of_mem _ member))
    rw [List.flatten_cons, List.append_assoc, frames_frame_append first, rest_frame_append first,
      sameFrames, sameRest]
    exact ⟨rfl, rfl⟩

/-- A strict prefix of a frame is incomplete. -/
theorem not_complete_of_strict_prefix (whole : F.IsFrame frame) (initial : xs <+: frame)
    (strict : xs ≠ frame) : ¬ F.Complete xs := by
  rintro ⟨header, body⟩
  obtain ⟨ys, rfl⟩ := initial
  have size := whole.2
  rw [total_append header, List.length_append] at size
  have none : ys = [] := List.eq_nil_of_length_eq_zero (by omega)
  exact strict (by rw [none, List.append_nil])

/-- A prefix of a concatenation of frames consists of the first of them and a strict prefix of
the next one. -/
theorem frames_of_prefix {whole : List (List α)} (each : ∀ frame ∈ whole, F.IsFrame frame)
    (initial : xs <+: whole.flatten) :
    ∃ count, F.frames xs = whole.take count ∧
      (F.rest xs = [] ∨ ∃ next, whole[count]? = some next ∧ F.rest xs <+: next ∧ F.rest xs ≠ next) := by
  induction whole generalizing xs with
  | nil =>
    have empty : xs = [] := by simpa using initial
    subst empty
    exact ⟨0, rfl, Or.inl rfl⟩
  | cons frame more ih =>
    have first := each frame (List.mem_cons_self ..)
    have later : ∀ other ∈ more, F.IsFrame other := fun other member =>
      each other (List.mem_cons_of_mem _ member)
    rw [List.flatten_cons] at initial
    rcases List.prefix_or_prefix_of_prefix initial (List.prefix_append frame _) with short | ⟨ys, rfl⟩
    · by_cases same : xs = frame
      · subst same
        exact ⟨1, by simpa using frames_frame_append first [],
          Or.inl (by simpa using rest_frame_append first [])⟩
      · have incomplete := not_complete_of_strict_prefix first short same
        refine ⟨0, by simp [frames_of_incomplete incomplete], Or.inr ⟨frame, rfl, ?_⟩⟩
        rw [rest_of_incomplete incomplete]
        exact ⟨short, same⟩
    · have tail := (List.prefix_append_right_inj frame).mp initial
      obtain ⟨count, sameFrames, state⟩ := ih later tail
      refine ⟨count + 1, ?_, ?_⟩
      · rw [frames_frame_append first, sameFrames, List.take_succ_cons]
      · rw [rest_frame_append first]
        simpa using state

theorem rest_length_lt_of_prefix {whole : List (List α)} (positive : 0 < bound)
    (each : ∀ frame ∈ whole, F.IsFrame frame) (small : ∀ frame ∈ whole, frame.length ≤ bound)
    (initial : xs <+: whole.flatten) : (F.rest xs).length < bound := by
  obtain ⟨_, _, none | ⟨next, atNext, short, strict⟩⟩ := frames_of_prefix each initial
  · simpa [none] using positive
  · have limit := small next (List.mem_of_getElem? atNext)
    have size := short.length_le
    have different : (F.rest xs).length ≠ next.length := fun same => strict (short.eq_of_length same)
    omega

theorem TotalsLe.of_initial {whole : List (List α)} (each : ∀ frame ∈ whole, F.IsFrame frame)
    (small : ∀ frame ∈ whole, frame.length ≤ bound) (initial : xs <+: whole.flatten) :
    F.TotalsLe bound xs := by
  obtain ⟨count, taken, unfinished⟩ := frames_of_prefix each initial
  refine ⟨fun frame member => small frame (List.mem_of_mem_take (taken ▸ member)), fun header => ?_⟩
  rcases unfinished with none | ⟨next, atNext, ⟨ys, split⟩, _⟩
  · have := F.headerSize_pos
    simp only [none, List.length_nil] at header
    omega
  · have member := List.mem_of_getElem? atNext
    have size := (each next member).2
    rw [← split, total_append header] at size
    rw [size, split]
    exact small next member

theorem TotalsLe.total_le (sized : F.TotalsLe bound xs) (header : F.headerSize ≤ xs.length) :
    F.total xs ≤ bound := by
  by_cases complete : F.Complete xs
  · have first := sized.1 (xs.take (F.total xs)) (by simp [frames_of_complete complete])
    rwa [List.length_take_of_le complete.2] at first
  · have last := sized.2
    rw [rest_of_incomplete complete] at last
    exact last header

theorem totalsLe_of_incomplete (incomplete : ¬ F.Complete xs)
    (small : F.headerSize ≤ xs.length → F.total xs ≤ bound) : F.TotalsLe bound xs := by
  refine ⟨by simp [frames_of_incomplete incomplete], ?_⟩
  rwa [rest_of_incomplete incomplete]

theorem totalsLe_iff_of_complete (complete : F.Complete xs) :
    F.TotalsLe bound xs ↔ F.total xs ≤ bound ∧ F.TotalsLe bound (xs.drop (F.total xs)) := by
  unfold TotalsLe
  rw [frames_of_complete complete, rest_of_complete complete, List.forall_mem_cons,
    List.length_take_of_le complete.2, and_assoc]

theorem totalsLe_nil : F.TotalsLe bound [] := by
  refine ⟨by simp, fun header => ?_⟩
  have := F.headerSize_pos
  simp only [rest_nil, List.length_nil] at header
  omega

theorem TotalsLe.of_frame_append (sized : F.TotalsLe bound (frame ++ xs)) (whole : F.IsFrame frame) :
    F.TotalsLe bound xs := by
  obtain ⟨each, last⟩ := sized
  rw [frames_frame_append whole] at each
  rw [rest_frame_append whole] at last
  exact ⟨fun other member => each other (List.mem_cons_of_mem _ member), last⟩

theorem TotalsLe.of_append (sized : F.TotalsLe bound (xs ++ ys)) : F.TotalsLe bound xs := by
  obtain ⟨each, last⟩ := sized
  rw [frames_append] at each
  rw [rest_append] at last
  have tail : F.TotalsLe bound (F.rest xs ++ ys) :=
    ⟨fun frame member => each frame (List.mem_append_right _ member), last⟩
  refine ⟨fun frame member => each frame (List.mem_append_left _ member), fun header => ?_⟩
  rw [← total_append header]
  exact tail.total_le (header.trans (List.length_append ▸ Nat.le_add_right _ _))

/-- A receiver of `stream` that has delivered the frames `done` and still holds `pending`: what
it delivered and what it will deliver of the rest are the frames of the stream. -/
def Delivered (F : Framing α) (done : List (List α)) (pending stream : List α) : Prop :=
  F.frames stream = done ++ F.frames pending ∧ F.rest stream = F.rest pending

variable {done : List (List α)} {pending stream : List α}

theorem Delivered.nothing : F.Delivered [] [] [] := ⟨rfl, rfl⟩

/-- New cells of the stream go behind what is held, however little that is. -/
theorem Delivered.receive (delivered : F.Delivered done pending stream) (xs : List α) :
    F.Delivered done (pending ++ xs) (stream ++ xs) := by
  obtain ⟨sameFrames, sameRest⟩ := delivered
  refine ⟨?_, ?_⟩
  · rw [frames_append, sameFrames, sameRest, List.append_assoc, ← frames_append]
  · rw [rest_append, sameRest, ← rest_append]

theorem Delivered.deliver (delivered : F.Delivered done (frame ++ pending) stream)
    (whole : F.IsFrame frame) : F.Delivered (done ++ [frame]) pending stream := by
  obtain ⟨sameFrames, sameRest⟩ := delivered
  rw [frames_frame_append whole] at sameFrames
  rw [rest_frame_append whole] at sameRest
  exact ⟨by rw [sameFrames, List.append_assoc, List.singleton_append], sameRest⟩

/-- When only an unfinished frame is held, all the others have been delivered. -/
theorem Delivered.settled (delivered : F.Delivered done pending stream)
    (incomplete : ¬ F.Complete pending) : F.frames stream = done ∧ F.rest stream = pending := by
  obtain ⟨sameFrames, sameRest⟩ := delivered
  rw [frames_of_incomplete incomplete, List.append_nil] at sameFrames
  rw [rest_of_incomplete incomplete] at sameRest
  exact ⟨sameFrames, sameRest⟩

/-- The sizes in the stream are bounded if those of what was delivered and of what is held are. -/
theorem Delivered.totalsLe_iff (delivered : F.Delivered done pending stream) :
    F.TotalsLe bound stream ↔ (∀ frame ∈ done, frame.length ≤ bound) ∧ F.TotalsLe bound pending := by
  obtain ⟨sameFrames, sameRest⟩ := delivered
  rw [TotalsLe, TotalsLe, sameFrames, sameRest, List.forall_mem_append, and_assoc]

theorem TotalsLe.mono {wide : Nat} (sized : F.TotalsLe bound xs) (wider : bound ≤ wide) :
    F.TotalsLe wide xs :=
  ⟨fun frame member => (sized.1 frame member).trans wider, fun header => (sized.2 header).trans wider⟩

end Framing

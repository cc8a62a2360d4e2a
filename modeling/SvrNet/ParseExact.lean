import SvrNet.Pack

namespace SvrNet
open CData

section ParseExact

variable {α : Type} [Cell α]

/-- Calling `parse_pack` until it returns 0: the packets, and the buffer with `*buf_len` at the end.
There is no result when a call has none or `calls` calls are not enough. -/
def parseLoop : Nat → List α → Int → Option (List (List α) × List α × Int)
  | 0, _, _ => none
  | calls + 1, buf, bufLen =>
    match parsePack buf bufLen with
    | none => none
    | some parsed =>
      if parsed.packLen ≠ 0 then
        (parseLoop calls parsed.buf parsed.bufLen).map fun ended => (parsed.pack.getD [] :: ended.1, ended.2)
      else some ([], parsed.buf, parsed.bufLen)

/-- What a call of `parse_pack` is to give back, with the size of the packet in mathematical integers. -/
inductive ParseExact (buf : List α) (bufLen : Nat) : Option (Parsed α) → Prop
  | unfinished : bufLen < netPkgSize ∨ bufLen < netPkgSize + headLength buf →
      ParseExact buf bufLen (some ⟨0, none, buf, bufLen⟩)
  | packet {left : List α} : netPkgSize + headLength buf ≤ bufLen → left.length = buf.length →
      left.take (bufLen - (netPkgSize + headLength buf)) = (buf.take bufLen).drop (netPkgSize + headLength buf) →
      ParseExact buf bufLen (some ⟨(netPkgSize + headLength buf : Nat),
        some (buf.take (netPkgSize + headLength buf)), left, (bufLen - (netPkgSize + headLength buf) : Nat)⟩)

/-- The assertion of `work_proc`, which has the size of the packet as an `unsigned int`. -/
def SizeAsserted (pack : List α) (packLen : Int) : Prop :=
  headLength pack + netPkgSize = (packLen % 2 ^ 32).toNat

instance (pack : List α) (packLen : Int) : Decidable (SizeAsserted pack packLen) :=
  inferInstanceAs (Decidable (_ = _))

/-- A call of `parse_pack` takes exactly a complete packet, and one that passes the assertion. -/
def CallExact (buf : List α) (bufLen : Nat) : Prop :=
  ParseExact buf bufLen (parsePack buf bufLen) ∧
    ∀ parsed pack, parsePack buf bufLen = some parsed → parsed.pack = some pack →
      SizeAsserted pack parsed.packLen

/-- Calling `parse_pack` until it returns 0 comes to an end, with exact calls only. -/
inductive LoopExact : List α → Nat → Prop
  | last {buf : List α} {bufLen : Nat} {parsed : Parsed α} : CallExact buf bufLen →
      parsePack buf bufLen = some parsed → parsed.packLen = 0 → LoopExact buf bufLen
  | next {buf : List α} {bufLen left : Nat} {parsed : Parsed α} : CallExact buf bufLen →
      parsePack buf bufLen = some parsed → parsed.packLen ≠ 0 → parsed.bufLen = left →
      LoopExact parsed.buf left → LoopExact buf bufLen

theorem headField_lt (offset count : Nat) (buf : List α) : headField offset count buf < 256 ^ count := by
  have value := leValue_lt (((buf.drop offset).take count).map Cell.byte)
  have short : (((buf.drop offset).take count).map Cell.byte).length ≤ count := by
    rw [List.length_map, List.length_take]
    omega
  exact value.trans_le (Nat.pow_le_pow_right (by decide) short)

theorem headLength_lt (buf : List α) : headLength buf < 2 ^ 32 := headField_lt 6 4 buf

/-- A message id survives its way through an `int`. -/
theorem toInt_headMsgID (buf : List α) : (toInt (headMsgID buf) % 2 ^ 32).toNat = headMsgID buf := by
  have small : headMsgID buf < 256 ^ 4 := headField_lt 2 4 buf
  rw [toInt_emod]
  omega

variable {buf : List α} {bufLen : Nat}

theorem complete_take_iff (inside : bufLen ≤ buf.length) :
    netPkg.Complete (buf.take bufLen) ↔ netPkgSize + headLength buf ≤ bufLen := by
  have length := List.length_take_of_le inside
  refine ⟨fun complete => ?_, fun body => ?_⟩
  · obtain ⟨header, body⟩ := complete
    rw [length] at header body
    rwa [netPkg_total_take header inside] at body
  · have header : netPkgSize ≤ bufLen := by omega
    exact ⟨by rwa [length], by rwa [length, netPkg_total_take header inside]⟩

/-- A frame that is pushed with its own length passes the assertion. -/
theorem sizeAsserted_frame {pack : List α} (whole : netPkg.IsFrame pack) (bound : pack.length ≤ intMax) :
    SizeAsserted pack pack.length := by
  obtain ⟨_, size⟩ := whole
  rw [netPkg_total] at size
  unfold SizeAsserted
  unfold intMax at bound
  omega

/-- While the sum in the header is an `int`, `parse_pack` works by the framing of the protocol. -/
theorem parsePack_small (inside : bufLen ≤ buf.length) (bound : bufLen ≤ intMax)
    (small : bufLen < netPkgSize ∨ netPkgSize + headLength buf ≤ intMax) :
    (¬ netPkg.Complete (buf.take bufLen) ∧ netPkg.TotalsLe intMax (buf.take bufLen) ∧
        parsePack buf bufLen = some ⟨0, none, buf, bufLen⟩) ∨
      ∃ total left, netPkg.Complete (buf.take bufLen) ∧ total = netPkg.total (buf.take bufLen) ∧
        total ≤ bufLen ∧ left.length = buf.length ∧ left.take (bufLen - total) = (buf.take bufLen).drop total ∧
        parsePack buf bufLen = some ⟨total, some ((buf.take bufLen).take total), left, (bufLen - total : Nat)⟩ := by
  have length := List.length_take_of_le inside
  by_cases complete : netPkg.Complete (buf.take bufLen)
  · have body := complete.2
    rw [length] at body
    refine Or.inr ⟨_, _, complete, rfl, body, length_memmove_front, ?_,
      parsePack_complete inside bound complete⟩
    rw [take_memmove_front (by omega), List.drop_take]
  · have sized : netPkg.TotalsLe intMax (buf.take bufLen) := by
      refine Framing.totalsLe_of_incomplete complete fun header => ?_
      rw [length, netPkg_headerSize] at header
      rw [netPkg_total_take header inside]
      omega
    exact Or.inl ⟨complete, sized, parsePack_incomplete inside bound sized complete⟩

/-- A frame is parsed as a whole when nothing follows it. -/
theorem parsePack_frame {pack : List α} (whole : netPkg.IsFrame pack) (bound : pack.length ≤ intMax) :
    ∃ left, parsePack pack pack.length = some ⟨pack.length, some pack, left, 0⟩ := by
  have complete := whole.complete
  have parsed := parsePack_complete le_rfl bound (by rwa [List.take_length])
  rw [List.take_length, whole.2, List.take_length, Nat.sub_self] at parsed
  exact ⟨_, parsed⟩

/-- What is known of a packet that `parse_pack` returned and whose length field is an `int`. -/
theorem parsePack_packet {pack : List α} {parsed : Parsed α} (inside : bufLen ≤ buf.length) (bound : bufLen ≤ intMax)
    (run : parsePack buf bufLen = some parsed) (some_ : parsed.pack = some pack)
    (small : netPkgSize + headLength buf ≤ intMax) :
    netPkg.IsFrame pack ∧ headLength pack = headLength buf ∧ parsed.packLen = pack.length ∧ pack.length ≤ intMax := by
  rcases parsePack_small inside bound (Or.inr small) with
    ⟨_, _, done⟩ | ⟨total, left, complete, same, body, _, _, done⟩
  · cases run.symm.trans done
    cases some_
  · cases run.symm.trans done
    cases some_
    have isFrame := complete.take_isFrame
    rw [← same] at isFrame
    have size : ((buf.take bufLen).take total).length = total := by
      rw [List.length_take, List.length_take_of_le inside]
      omega
    have header := complete.1
    rw [List.length_take_of_le inside, netPkg_headerSize] at header
    have announced := same.trans (netPkg_total_take header inside)
    have field := isFrame.2
    rw [netPkg_total, size] at field
    exact ⟨isFrame, by omega, by rw [size], by omega⟩

theorem callExact_of_small (inside : bufLen ≤ buf.length) (bound : bufLen ≤ intMax)
    (small : bufLen < netPkgSize ∨ netPkgSize + headLength buf ≤ intMax) : CallExact buf bufLen := by
  rcases parsePack_small inside bound small with ⟨incomplete, _, parsed⟩ | ⟨total, left, complete, same, body, size, rest, parsed⟩
  · refine ⟨?_, fun other pack run some => ?_⟩
    · rw [parsed]
      rw [complete_take_iff inside] at incomplete
      exact .unfinished (by omega)
    · cases parsed.symm.trans run
      cases some
  · have whole := (complete_take_iff inside).mp complete
    have isFrame := complete.take_isFrame
    rw [← same] at isFrame
    rw [netPkg_total_take (by omega) inside] at same
    subst same
    rw [List.take_take, Nat.min_eq_left whole] at parsed isFrame
    have length := List.length_take_of_le (whole.trans inside)
    refine ⟨?_, fun other pack run some => ?_⟩
    · rw [parsed]
      exact .packet whole size rest
    · cases parsed.symm.trans run
      cases some
      have asserted := sizeAsserted_frame isFrame (by omega)
      rwa [length] at asserted

/-- Only a call that finds the whole packet in the buffer gives one back. -/
theorem ParseExact.body_le {parsed : Parsed α} {pack : List α} (call : ParseExact buf bufLen (some parsed))
    (some : parsed.pack = some pack) : netPkgSize + headLength buf ≤ bufLen := by
  generalize same : Option.some parsed = result at call
  cases call with
  | unfinished =>
    cases same
    cases some
  | packet body => exact body

/-- Beyond `INT_MAX` the sum turns negative, or so small that the buffer seems to hold the packet. -/
theorem small_of_parseExact (bound : bufLen ≤ intMax) (exact_ : ParseExact buf bufLen (parsePack buf bufLen)) :
    bufLen < netPkgSize ∨ netPkgSize + headLength buf ≤ intMax := by
  by_contra large
  obtain ⟨header, beyond⟩ := not_or.mp large
  have field := headLength_lt buf
  have wrapped : toInt (headLength buf + netPkgSize) = (headLength buf : Int) + netPkgSize - 2 ^ 32 := by
    unfold toInt
    unfold netPkgSize intMax at *
    rw [Int.bmod_def]
    omega
  unfold parsePack at exact_
  rw [toSize_of_le bound, if_neg header] at exact_
  simp only [wrapped] at exact_
  have less : ¬ (bufLen : Int) < (headLength buf : Int) + netPkgSize - 2 ^ 32 := by
    unfold netPkgSize at *
    omega
  rw [if_neg less] at exact_
  split at exact_
  · cases exact_
  · have body := exact_.body_le rfl
    omega

theorem callExact_iff (inside : bufLen ≤ buf.length) (bound : bufLen ≤ intMax) :
    CallExact buf bufLen ↔ bufLen < netPkgSize ∨ netPkgSize + headLength buf ≤ intMax :=
  ⟨fun call => small_of_parseExact bound call.1, callExact_of_small inside bound⟩

/-- In a loop of exact calls every packet is a frame of what the buffer held, and the sizes in the
headers are `int`s; the loop ends with the unfinished frame at the front of the buffer. -/
theorem LoopExact.frames (loop : LoopExact buf bufLen) (inside : bufLen ≤ buf.length) (bound : bufLen ≤ intMax) :
    netPkg.TotalsLe intMax (buf.take bufLen) ∧
      ∃ left : List α, left.take (netPkg.rest (buf.take bufLen)).length = netPkg.rest (buf.take bufLen) ∧
        ∀ calls, (netPkg.frames (buf.take bufLen)).length < calls → parseLoop calls buf bufLen =
          some (netPkg.frames (buf.take bufLen), left, ((netPkg.rest (buf.take bufLen)).length : Int)) := by
  induction loop with
  | @last buf bufLen parsed call run none =>
    rcases parsePack_small inside bound ((callExact_iff inside bound).mp call) with
      ⟨incomplete, sized, done⟩ | ⟨total, left, _, same, _, _, _, done⟩
    · rw [Framing.frames_of_incomplete incomplete, Framing.rest_of_incomplete incomplete,
        List.length_take_of_le inside]
      refine ⟨sized, buf, rfl, fun calls enough => ?_⟩
      obtain ⟨calls, rfl⟩ := Nat.exists_eq_add_one_of_ne_zero (n := calls) (by omega)
      simp [parseLoop, done]
    · cases run.symm.trans done
      have positive : 0 < netPkg.total (buf.take bufLen) := Framing.total_pos
      simp only at none
      omega
  | @next buf bufLen left parsed call run some leaves _ ih =>
    rcases parsePack_small inside bound ((callExact_iff inside bound).mp call) with
      ⟨_, _, done⟩ | ⟨total, buf', complete, same, body, size, rest, done⟩
    · cases run.symm.trans done
      exact absurd rfl some
    · cases run.symm.trans done
      have count : left = bufLen - total := (Int.ofNat.inj leaves).symm
      subst count
      obtain ⟨sized, later, ends, runs⟩ := ih (by simp only [size]; omega) (by omega)
      simp only [rest] at sized ends runs
      have frames := Framing.frames_of_complete complete
      have tail := Framing.rest_of_complete complete
      rw [← same] at frames tail
      rw [frames, tail]
      refine ⟨(Framing.totalsLe_iff_of_complete complete).mpr ⟨by omega, same ▸ sized⟩, later, ends,
        fun calls enough => ?_⟩
      obtain ⟨calls, rfl⟩ := Nat.exists_eq_add_one_of_ne_zero (n := calls) (by omega)
      rw [List.length_cons] at enough
      rw [parseLoop, done]
      simp only
      rw [if_pos some, runs calls (by omega)]
      rfl

/-- When every size in a header is an `int`, the loop runs through the frames one by one. -/
theorem loopExact_of_totalsLe (inside : bufLen ≤ buf.length) (bound : bufLen ≤ intMax)
    (sized : netPkg.TotalsLe intMax (buf.take bufLen)) : LoopExact buf bufLen := by
  generalize held : buf.take bufLen = stream at sized
  induction stream using Framing.frame_induction (F := (netPkg : Framing α)) generalizing buf bufLen with
  | incomplete stream incomplete =>
    subst held
    have small : bufLen < netPkgSize ∨ netPkgSize + headLength buf ≤ intMax := by
      by_cases short : bufLen < netPkgSize
      · exact Or.inl short
      · have total := sized.total_le (by rw [List.length_take_of_le inside, netPkg_headerSize]; omega)
        rw [netPkg_total_take (by omega) inside] at total
        exact Or.inr total
    exact .last (callExact_of_small inside bound small) (parsePack_incomplete inside bound sized incomplete) rfl
  | complete stream complete ih =>
    subst held
    have small := (complete_take_iff inside).mp complete
    have call := callExact_of_small inside bound (Or.inr (small.trans bound))
    rcases parsePack_small inside bound (Or.inr (small.trans bound)) with
      ⟨incomplete, _⟩ | ⟨total, buf', _, same, body, size, rest, done⟩
    · exact absurd complete incomplete
    · have positive : 0 < netPkg.total (buf.take bufLen) := Framing.total_pos
      have later : LoopExact buf' (bufLen - total) := by
        refine ih (by omega) (by omega) ?_ ((Framing.totalsLe_iff_of_complete complete).mp sized).2
        rw [rest, same]
      exact .next call done (by simp only; omega) rfl later

/-- A call of `parse_pack` takes the packet at the front off the buffer when it is complete, and leaves the buffer
alone when it is not, exactly when the size of the packet is an `int`; so does every turn of the loop exactly when
that holds at every packet boundary. -/
theorem parse_pack_exact (inside : bufLen ≤ buf.length) (bound : bufLen ≤ intMax) :
    (CallExact buf bufLen ↔ bufLen < netPkgSize ∨ netPkgSize + headLength buf ≤ intMax) ∧
      (LoopExact buf bufLen ↔ netPkg.TotalsLe intMax (buf.take bufLen)) :=
  ⟨callExact_iff inside bound,
    fun loop => (loop.frames inside bound).1, loopExact_of_totalsLe inside bound⟩

/-- A packet without data, and half a header. -/
theorem parse_pack_exact_empty_packet :
    CallExact [(0 : UInt8), 0, 1, 0, 0, 0, 0, 0, 0, 0, 0, 0, 2] 13 ∧
      LoopExact [(0 : UInt8), 0, 1, 0, 0, 0, 0, 0, 0, 0, 0, 0, 2] 13 := by
  constructor
  · exact (parse_pack_exact (by decide) (by decide)).1.mpr (by decide)
  · exact (parse_pack_exact (by decide) (by decide)).2.mpr (by decide)

/-- The length field of this header is the largest one: the sum wraps around to 9. -/
theorem parse_pack_inexact : ¬ CallExact (List.replicate 10 (0xFF : UInt8)) 10 := by
  intro call
  have small := small_of_parseExact (by decide) call.1
  revert small
  decide

end ParseExact

end SvrNet

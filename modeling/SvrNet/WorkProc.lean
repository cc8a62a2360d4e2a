import SvrNet.PackStream
import SvrNet.Server

namespace SvrNet
open CData

/-- What a call of `processmsg` gives back: its result, the memory at `out_data`, and `*out_len`. -/
structure Handled where
  ret : Int
  outData : List UInt8
  outLen : Int

/-- `TASKHANDLER`: a function of the request, of the memory for the response and of its capacity. -/
abbrev TaskHandler := List UInt8 → Int → List UInt8 → Int → Handled

/-- The handler writes nothing outside of the memory it is given, and a response takes no more of it
than the capacity that it was told. -/
def TaskHandler.Honours (handler : TaskHandler) : Prop :=
  ∀ inData inLen outData, outData.length = netPackSizeLimit →
    (handler inData inLen outData netPackSizeLimit).outData.length = netPackSizeLimit ∧
      ((handler inData inLen outData netPackSizeLimit).ret = 0 →
        0 ≤ (handler inData inLen outData netPackSizeLimit).outLen ∧
          (handler inData inLen outData netPackSizeLimit).outLen ≤ netPackSizeLimit)

/-- The offsets at which `create_pack` reads or writes: the `memmove` reads the payload and writes it
behind the header, then the fields of the header are written. -/
def createPackTouches (bufLen : Int) (offset : Nat) : Prop :=
  offset < toSize bufLen ∨ (netPkgSize ≤ offset ∧ offset < netPkgSize + toSize bufLen) ∨ offset < netPkgSize

/-- What `work_proc` leaves behind: the send queue, the `buf_len` that `create_pack` was called with,
and whether the send thread was signalled. -/
structure WorkDone where
  sendQueue : SendQueue UInt8
  packed : Option Int
  signalled : Bool

section WorkProc

variable {α : Type} [Cell α]

/-- `work_proc`, with the memory that `malloc` returns for `outdata`. There is no result when the
assertion fails. -/
def workProc (processmsg : Option TaskHandler) (outdata : List UInt8) (work : Work α)
    (sendQueue : SendQueue UInt8) : Option WorkDone :=
  if SizeAsserted work.data work.size then
    match processmsg with
    | none => some ⟨sendQueue, none, false⟩
    | some handler =>
      let request := (work.data.drop netPkgSize).map Cell.byte
      let handled := handler request (toInt (headLength work.data)) outdata netPackSizeLimit
      if handled.ret = 0 then
        let (pack, outlen) := createPack handled.outData handled.outLen (toInt (headMsgID work.data))
        some ⟨qSendPush sendQueue work.connid (pack.take (toSize outlen)), some handled.outLen, true⟩
      else some ⟨sendQueue, none, false⟩
  else none

/-- The response stays within its buffer and answers the request, and without a response the queue is
as it was. -/
structure ResponseFramed (handled : Handled) (work : Work α) (sendQueue : SendQueue UInt8)
    (done : WorkDone) : Prop where
  inside : ∀ bufLen, done.packed = some bufLen → ∀ offset, createPackTouches bufLen offset →
    offset < netPackSizeLimit
  answered : handled.ret = 0 → done.signalled = true ∧ ∃ pack left,
    done.sendQueue = qSendPush sendQueue work.connid pack ∧
      parsePack pack pack.length = some ⟨pack.length, some pack, left, 0⟩ ∧
      readPkg pack =
        ⟨packVersion, headMsgID work.data, handled.outLen.toNat, handled.outData.take handled.outLen.toNat⟩
  refused : handled.ret ≠ 0 → done.sendQueue = sendQueue

/-- `create_pack` needs room for the payload and the header. -/
theorem createPackTouches_inside {size : Nat} (limit : Nat) (bound : size ≤ intMax) :
    (∀ offset, createPackTouches size offset → offset < limit) ↔ netPkgSize + size ≤ limit := by
  unfold createPackTouches
  rw [toSize_of_le bound]
  refine ⟨fun inside => ?_, fun room offset touched => by omega⟩
  have last : netPkgSize + size - 1 < limit := by
    refine inside (netPkgSize + size - 1) ?_
    unfold netPkgSize
    omega
  unfold netPkgSize at *
  omega

/-- What `create_pack` does not touch it leaves as it is. -/
theorem createPack_untouched {buf : List UInt8} {bufLen : Int} (msgID : Int) {offset : Nat}
    (untouched : ¬ createPackTouches bufLen offset) : (createPack buf bufLen msgID).1[offset]? = buf[offset]? := by
  unfold createPackTouches at untouched
  have moved : (buf.take (toSize bufLen)).length ≤ toSize bufLen := List.length_take_le _ _
  rw [createPack, getElem?_writeAt (by rw [length_packHead]; omega), memmove, List.drop_zero,
    getElem?_writeAt (by omega)]

/-- A payload in the memory makes `create_pack` write behind it exactly when one of the offsets is behind it. -/
theorem createPack_inside {outData : List UInt8} {size : Nat} (msgID : Int) (given : size ≤ outData.length)
    (bound : size ≤ intMax) :
    (createPack outData size msgID).1.length = outData.length ↔
      ∀ offset, createPackTouches size offset → offset < outData.length := by
  have length : (createPack outData size msgID).1.length = max outData.length (netPkgSize + size) := by
    rw [createPack, length_writeAt, length_packHead, memmove, length_writeAt, List.drop_zero, toSize_of_le bound,
      List.length_take_of_le given]
    omega
  rw [createPackTouches_inside _ bound, length]
  omega

theorem workProc_refuse {handler : TaskHandler} {outdata : List UInt8} {work : Work α}
    {sendQueue : SendQueue UInt8} (sized : SizeAsserted work.data work.size)
    (refuses : (handler ((work.data.drop netPkgSize).map Cell.byte) (toInt (headLength work.data)) outdata
      netPackSizeLimit).ret ≠ 0) :
    workProc (some handler) outdata work sendQueue = some ⟨sendQueue, none, false⟩ := by
  unfold workProc
  rw [if_pos sized]
  simp only
  rw [if_neg refuses]

theorem workProc_answer {handler : TaskHandler} {outdata : List UInt8} {work : Work α}
    {sendQueue : SendQueue UInt8} {handled : Handled} (sized : SizeAsserted work.data work.size)
    (reply : handler ((work.data.drop netPkgSize).map Cell.byte) (toInt (headLength work.data)) outdata
      netPackSizeLimit = handled) (succeeds : handled.ret = 0) :
    workProc (some handler) outdata work sendQueue =
      some ⟨qSendPush sendQueue work.connid
        ((createPack handled.outData handled.outLen (toInt (headMsgID work.data))).1.take
          (toSize (createPack handled.outData handled.outLen (toInt (headMsgID work.data))).2)),
        some handled.outLen, true⟩ := by
  unfold workProc
  rw [if_pos sized]
  simp only [reply]
  rw [if_pos succeeds]

/-- With room for the header, the packet that is pushed is the framed output of the handler. -/
theorem readPkg_createPack {outData : List UInt8} {size : Nat} (work : Work α)
    (room : size + netPkgSize ≤ outData.length) (bound : size + netPkgSize ≤ intMax) :
    ∃ pack left, (createPack outData size (toInt (headMsgID work.data))).1.take
          (toSize (createPack outData size (toInt (headMsgID work.data))).2) = pack ∧
      parsePack pack pack.length = some ⟨pack.length, some pack, left, 0⟩ ∧
      readPkg pack = ⟨packVersion, headMsgID work.data, size, outData.take size⟩ := by
  obtain ⟨result, framed⟩ := createPack_take (toInt (headMsgID work.data)) room bound
  have length : (outData.take size).length = size := List.length_take_of_le (by omega)
  have isFrame := packHead_isFrame (toInt (headMsgID work.data)) (show (outData.take size).length ≤ intMax by omega)
  rw [length] at isFrame
  have whole : (packHead size (toInt (headMsgID work.data)) ++ outData.take size).length ≤ intMax := by
    rw [List.length_append, length_packHead, length]
    omega
  obtain ⟨left, parsed⟩ := parsePack_frame isFrame whole
  refine ⟨_, left, ?_, parsed, ?_⟩
  · rw [result, toSize_of_le bound, framed]
  · rw [readPkg_packHead _ (by omega), toInt_headMsgID]

theorem ResponseFramed.of_refused {work : Work α} {sendQueue : SendQueue UInt8} {handled : Handled}
    (refuses : handled.ret ≠ 0) : ResponseFramed handled work sendQueue ⟨sendQueue, none, false⟩ := by
  refine ⟨?_, fun succeeds => absurd succeeds refuses, fun _ => rfl⟩
  intro bufLen packed
  cases packed

/-- The response to a request is framed exactly when there is room for the header. -/
theorem responseFramed_iff {work : Work α} {sendQueue : SendQueue UInt8} {handled : Handled} {size : Nat}
    (succeeds : handled.ret = 0) (outLen : handled.outLen = size) (bound : size ≤ intMax)
    (memory : handled.outData.length = netPackSizeLimit) :
    ResponseFramed handled work sendQueue
        ⟨qSendPush sendQueue work.connid
          ((createPack handled.outData handled.outLen (toInt (headMsgID work.data))).1.take
            (toSize (createPack handled.outData handled.outLen (toInt (headMsgID work.data))).2)),
          some handled.outLen, true⟩ ↔
      size + netPkgSize ≤ netPackSizeLimit := by
  have limit : netPackSizeLimit ≤ intMax := by decide
  have touches := createPackTouches_inside netPackSizeLimit bound
  rw [Nat.add_comm size]
  constructor
  · intro framed
    exact touches.mp (framed.inside size (by rw [outLen]))
  · intro fits
    rw [Nat.add_comm] at fits
    obtain ⟨packet, left, pushed, decoded, fields⟩ :=
      readPkg_createPack work (show size + netPkgSize ≤ handled.outData.length from memory ▸ fits) (fits.trans limit)
    refine ⟨?_, fun _ => ⟨rfl, packet, left, ?_, decoded, ?_⟩, fun fails => absurd succeeds fails⟩
    · intro bufLen packed
      cases packed
      rw [outLen]
      exact touches.mpr (Nat.add_comm size netPkgSize ▸ fits)
    · rw [outLen, ← pushed]
    · rw [fields, outLen, Int.toNat_natCast]

variable {buf pack : List α} {bufLen : Nat} {parsed : Parsed α} {handler : TaskHandler} {handled : Handled}
  {outdata : List UInt8}

/-- A request within the protocol's limit gets a framed response exactly when the handler fails, or
leaves room for the header in the memory that it was given. -/
theorem response_framed (connid : ConnId) (sendQueue : SendQueue UInt8) (inside : bufLen ≤ buf.length)
    (bound : bufLen ≤ intMax) (run : parsePack buf bufLen = some parsed) (some_ : parsed.pack = some pack)
    (small : headLength buf ≤ netPackSpaceSizeLimit) (honours : handler.Honours)
    (room : outdata.length = netPackSizeLimit)
    (reply : handler ((pack.drop netPkgSize).map Cell.byte) (headLength pack) outdata netPackSizeLimit = handled) :
    ∃ done, workProc (some handler) outdata ⟨connid, parsed.packLen, pack⟩ sendQueue = some done ∧
      (ResponseFramed handled (⟨connid, parsed.packLen, pack⟩ : Work α) sendQueue done ↔
        handled.ret ≠ 0 ∨ handled.outLen + netPkgSize ≤ netPackSizeLimit) := by
  have protocol : netPkgSize + netPackSpaceSizeLimit ≤ intMax := by decide
  have memoryBound : netPackSizeLimit ≤ intMax := by decide
  obtain ⟨isFrame, length, packLen, limit⟩ := parsePack_packet inside bound run some_ (by omega)
  have sized : SizeAsserted pack parsed.packLen := by
    rw [packLen]
    exact sizeAsserted_frame isFrame limit
  have argument : toInt (headLength pack) = headLength pack := toInt_of_le (by omega)
  have honest := honours ((pack.drop netPkgSize).map Cell.byte) (headLength pack) outdata room
  rw [reply] at honest
  obtain ⟨memory, capacity⟩ := honest
  rw [← argument] at reply
  by_cases succeeds : handled.ret = 0
  · obtain ⟨nonneg, told⟩ := capacity succeeds
    obtain ⟨size, outLen⟩ := Int.eq_ofNat_of_zero_le nonneg
    have sizeBound : size ≤ intMax := (Int.ofNat_le.mp (outLen ▸ told)).trans memoryBound
    refine ⟨_, workProc_answer sized reply succeeds, ?_⟩
    rw [responseFramed_iff succeeds outLen sizeBound memory, or_iff_right (not_not_intro succeeds), outLen]
    exact_mod_cast Iff.rfl
  · refine ⟨_, workProc_refuse sized ?_, fun _ => Or.inl succeeds, fun _ => ResponseFramed.of_refused succeeds⟩
    rw [reply]
    exact succeeds

end WorkProc

/-- The bytes of the responses in the send queue of the server. -/
def plainQueue (queue : SendQueue RByte) : SendQueue UInt8 :=
  queue.map fun entry => (entry.1, entry.2.map RByte.val)

/-- The step with which a worker of the server responds is `work_proc` for its request, up to the
signal that follows as a step of its own. -/
theorem Server.respond_workProc {s s' : Server} {i : Nat} {work : Work TByte} {handler : TaskHandler}
    {handled : Handled} {outdata : List UInt8} {outlen : Nat} (at_ : s.worker i = .proc work)
    (reply : handler ((work.data.drop netPkgSize).map Cell.byte) (toInt (headLength work.data)) outdata
      netPackSizeLimit = handled) (succeeds : handled.ret = 0) (size : handled.outLen = outlen)
    (run : Server.step (.respond i (some (handled.outData, outlen))) s = some s') :
    workProc (some handler) outdata work (plainQueue s.net.sendQueue) =
      some ⟨plainQueue s'.net.sendQueue, some outlen, true⟩ := by
  simp only [Server.step, at_] at run
  split at run
  · rename_i asserted
    split at run
    · rename_i room
      obtain ⟨fits, bound⟩ := room
      cases run
      have sized : SizeAsserted work.data work.size := of_decide_eq_true asserted
      obtain ⟨result, framed⟩ := createPack_take (toInt (headMsgID work.data)) fits bound
      have plain : (workPack work handled.outData outlen).map RByte.val =
          builtPack handled.outData outlen (toInt (headMsgID work.data)) := by
        rw [workPack, List.map_map]
        exact List.map_id _
      rw [workProc_answer sized reply succeeds, size, result, toSize_of_le bound, framed,
        ← builtPack_eq _ fits bound, ← plain, plainQueue, qSendPush_map]
      rfl
    · simp at run
  · simp at run

/-- A handler that answers with one byte. -/
def oneByteHandler : TaskHandler := fun _ _ outData _ => ⟨0, outData.set 0 65, 1⟩

theorem response_framed_one_byte : ∃ done,
    workProc (some oneByteHandler) (List.replicate netPackSizeLimit 0) (⟨7, 10, emptyPacket⟩ : Work UInt8) [] =
        some done ∧
      ResponseFramed ⟨0, (List.replicate netPackSizeLimit 0).set 0 65, 1⟩ (⟨7, 10, emptyPacket⟩ : Work UInt8) [] done := by
  have honours : oneByteHandler.Honours := by
    intro inData inLen outData room
    have capacity : (0 : Int) ≤ 1 ∧ (1 : Int) ≤ netPackSizeLimit := by decide
    exact ⟨by simpa [oneByteHandler] using room, fun _ => capacity⟩
  obtain ⟨left, run⟩ := parsePack_frame (show netPkg.IsFrame emptyPacket by decide) (by decide)
  obtain ⟨done, ran, framed⟩ := response_framed 7 [] le_rfl (by decide) run rfl (by decide) honours
    List.length_replicate rfl
  exact ⟨done, ran, framed.mpr (Or.inr (by decide))⟩

/-- A handler that makes use of all the memory it is told to have. -/
def fullHandler : TaskHandler := fun _ _ _ capacity => ⟨0, List.replicate capacity.toNat 65, capacity⟩

/-- The framed response of that handler ends ten bytes behind its buffer. -/
theorem response_overflows : fullHandler.Honours ∧ ∃ left done,
    parsePack emptyPacket 10 = some ⟨10, some emptyPacket, left, 0⟩ ∧
      workProc (some fullHandler) (List.replicate netPackSizeLimit 0) (⟨7, 10, emptyPacket⟩ : Work UInt8) [] =
        some done ∧
      ¬ ResponseFramed ⟨0, List.replicate netPackSizeLimit 65, netPackSizeLimit⟩
          (⟨7, 10, emptyPacket⟩ : Work UInt8) [] done := by
  refine ⟨fun inData inLen outData room => ⟨?_, fun _ => ⟨Int.natCast_nonneg _, le_rfl⟩⟩, ?_⟩
  · simp [fullHandler]
  obtain ⟨left, run⟩ := parsePack_frame (show netPkg.IsFrame emptyPacket by decide) (by decide)
  refine ⟨left, _, run, workProc_answer (by decide) rfl rfl, fun framed => ?_⟩
  have touched := (createPackTouches_inside netPackSizeLimit (by decide)).mp (framed.inside _ rfl)
  unfold netPkgSize at touched
  omega

end SvrNet

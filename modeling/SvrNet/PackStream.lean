import SvrNet.ParseExact
import SvrNet.Reactor
import Mathlib.Algebra.Order.BigOperators.Group.List

namespace SvrNet
open CData

/-- `net_pkg_t`, as it is read from the bytes of a packet. -/
structure NetPkg where
  version : Nat
  msgID : Nat
  length : Nat
  data : List UInt8
  deriving DecidableEq

def readPkg (pack : List UInt8) : NetPkg where
  version := headVersion pack
  msgID := headMsgID pack
  length := headLength pack
  data := pack.drop netPkgSize

/-- A payload at the front of the buffer in which `create_pack` frames it. -/
structure Message where
  msgID : Int
  payload : List UInt8
  room : List UInt8
  fits : netPkgSize ≤ room.length

def Message.framed (message : Message) : List UInt8 :=
  builtPack (message.payload ++ message.room) message.payload.length message.msgID

def Message.pkg (message : Message) : NetPkg where
  version := packVersion
  msgID := (message.msgID % 2 ^ 32).toNat
  length := message.payload.length
  data := message.payload

theorem headField_leBytes {front : List UInt8} {offset : Nat} (before : front.length = offset)
    (count value : Nat) (back : List UInt8) :
    headField offset count (front ++ (leBytes count value ++ back)) = value % 256 ^ count := by
  have cells : (leBytes count value).map Cell.byte = leBytes count value := List.map_id _
  rw [headField, List.drop_left' before, List.take_left' (length_leBytes ..), cells, leValue_leBytes]

/-- Reading a field and writing it back gives its bytes. -/
theorem leBytes_headField {pack : List UInt8} {offset count : Nat} (inside : offset + count ≤ pack.length) :
    leBytes count (headField offset count pack) = (pack.drop offset).take count := by
  have cells : ((pack.drop offset).take count).map Cell.byte = (pack.drop offset).take count := List.map_id _
  have size : ((pack.drop offset).take count).length = count := by
    rw [List.length_take, List.length_drop]
    omega
  have spelled := leBytes_leValue ((pack.drop offset).take count)
  rw [size] at spelled
  rw [headField, cells, spelled]

/-- What `create_pack` writes is read back from the packet. -/
theorem readPkg_packHead {size : Nat} (msgID : Int) (bound : size ≤ intMax) (payload : List UInt8) :
    readPkg (packHead size msgID ++ payload) = ⟨packVersion, (msgID % 2 ^ 32).toNat, size, payload⟩ := by
  have version : headVersion (packHead size msgID ++ payload) = packVersion := by
    have field := headField_leBytes (List.length_nil (α := UInt8)) 2 packVersion
      (leBytes 4 (msgID % 2 ^ 32).toNat ++ (leBytes 4 ((size : Int) % 2 ^ 32).toNat ++ payload))
    have small : packVersion % 256 ^ 2 = packVersion := rfl
    rw [headVersion, packHead]
    simpa only [List.append_assoc, List.nil_append, small] using field
  have msgID_ : headMsgID (packHead size msgID ++ payload) = (msgID % 2 ^ 32).toNat := by
    have field := headField_leBytes (length_leBytes 2 packVersion) 4 (msgID % 2 ^ 32).toNat
      (leBytes 4 ((size : Int) % 2 ^ 32).toNat ++ payload)
    have small : (msgID % 2 ^ 32).toNat % 256 ^ 4 = (msgID % 2 ^ 32).toNat := by omega
    rw [headMsgID, packHead]
    simpa only [List.append_assoc, small] using field
  have data : (packHead size msgID ++ payload).drop netPkgSize = payload := List.drop_left' (length_packHead ..)
  rw [readPkg, version, msgID_, headLength_packHead size msgID bound, data]

/-- The header of a packet of the current version is the one that `create_pack` writes for its fields. -/
theorem packHead_readPkg {pack : List UInt8} (header : netPkgSize ≤ pack.length)
    (version : headVersion pack = packVersion) :
    packHead (headLength pack) (toInt (headMsgID pack)) = pack.take netPkgSize := by
  unfold netPkgSize at header
  have low : leBytes 2 packVersion = (pack.drop 0).take 2 := by
    rw [← version]
    exact leBytes_headField (by omega)
  have middle : leBytes 4 (toInt (headMsgID pack) % 2 ^ 32).toNat = (pack.drop 2).take 4 := by
    rw [toInt_headMsgID]
    exact leBytes_headField (by omega)
  have high : leBytes 4 ((headLength pack : Int) % 2 ^ 32).toNat = (pack.drop 6).take 4 := by
    have field := headLength_lt pack
    have bits : ((headLength pack : Int) % 2 ^ 32).toNat = headLength pack := by omega
    rw [bits]
    exact leBytes_headField (by omega)
  have split : pack.take netPkgSize = (pack.drop 0).take 2 ++ (pack.drop 2).take 4 ++ (pack.drop 6).take 4 := by
    rw [show netPkgSize = 2 + 4 + 4 from rfl, List.take_add, List.take_add, List.drop_zero]
  rw [packHead, low, middle, high, split]

variable {message : Message}

theorem Message.framed_eq (bound : message.payload.length + netPkgSize ≤ intMax) :
    message.framed = packHead message.payload.length message.msgID ++ message.payload := by
  have fits := message.fits
  have room : message.payload.length + netPkgSize ≤ (message.payload ++ message.room).length := by
    rw [List.length_append]
    omega
  rw [Message.framed, builtPack_eq _ room bound, List.take_left]

theorem Message.framed_isFrame (bound : message.payload.length + netPkgSize ≤ intMax) :
    netPkg.IsFrame message.framed ∧ message.framed.length = message.payload.length + netPkgSize ∧
      readPkg message.framed = message.pkg := by
  rw [framed_eq bound]
  refine ⟨packHead_isFrame _ (by omega), ?_, readPkg_packHead _ (by omega) _⟩
  rw [List.length_append, length_packHead, Nat.add_comm]

section Stream

variable {messages : List Message} {unfinished next : List UInt8}

/-- The bytes that the framed messages take together. -/
def streamSize (messages : List Message) : Nat := (messages.map (·.payload.length + netPkgSize)).sum

theorem payload_le_of_mem (bound : streamSize messages ≤ intMax) (member : message ∈ messages) :
    message.payload.length + netPkgSize ≤ intMax :=
  (List.le_sum_of_mem (List.mem_map_of_mem member)).trans bound

theorem length_framed (bound : streamSize messages ≤ intMax) :
    (messages.map Message.framed).flatten.length = streamSize messages := by
  have sizes : (messages.map Message.framed).map List.length =
      messages.map fun message => message.payload.length + netPkgSize := by
    rw [List.map_map]
    refine List.map_congr_left fun message member => ?_
    obtain ⟨_, size, _⟩ := Message.framed_isFrame (payload_le_of_mem bound member)
    rw [Function.comp_apply, size]
  rw [List.length_flatten, sizes, streamSize]

/-- The stream is taken apart into the framed messages and the unfinished packet. -/
theorem frames_stream (bound : streamSize messages ≤ intMax) (whole : netPkg.IsFrame next)
    (initial : unfinished <+: next) (proper : unfinished ≠ next) :
    netPkg.frames ((messages.map Message.framed).flatten ++ unfinished) = messages.map Message.framed ∧
      netPkg.rest ((messages.map Message.framed).flatten ++ unfinished) = unfinished := by
  have each : ∀ frame ∈ messages.map Message.framed, netPkg.IsFrame frame := by
    intro frame member
    obtain ⟨message, here, rfl⟩ := List.mem_map.mp member
    exact (Message.framed_isFrame (payload_le_of_mem bound here)).1
  have incomplete := Framing.not_complete_of_strict_prefix whole initial proper
  obtain ⟨frames, rest⟩ := Framing.frames_flatten_append each unfinished
  rw [frames, rest, Framing.frames_of_incomplete incomplete, Framing.rest_of_incomplete incomplete,
    List.append_nil]
  exact ⟨rfl, rfl⟩

theorem totalsLe_stream (bound : streamSize messages ≤ intMax) (whole : netPkg.IsFrame next)
    (small : next.length ≤ intMax) (initial : unfinished <+: next) :
    netPkg.TotalsLe intMax ((messages.map Message.framed).flatten ++ unfinished) := by
  have sized : ∀ frame ∈ messages.map Message.framed ++ [next], netPkg.IsFrame frame ∧ frame.length ≤ intMax := by
    intro frame member
    rcases List.mem_append.mp member with framed | last
    · obtain ⟨message, here, rfl⟩ := List.mem_map.mp framed
      have payload := payload_le_of_mem bound here
      obtain ⟨isFrame, size, _⟩ := Message.framed_isFrame payload
      exact ⟨isFrame, by omega⟩
    · rw [List.mem_singleton.mp last]
      exact ⟨whole, small⟩
  refine Framing.TotalsLe.of_initial (fun frame member => (sized frame member).1)
    (fun frame member => (sized frame member).2) ?_
  rw [List.flatten_append, List.flatten_singleton]
  exact (List.prefix_append_right_inj _).mpr initial

/-- A stream of framed messages and an unfinished packet is parsed into these messages and leaves the
unfinished packet, whatever else the buffer holds behind it. -/
theorem parseLoop_stream {slack : List UInt8} (whole : netPkg.IsFrame next) (small : next.length ≤ intMax)
    (initial : unfinished <+: next) (proper : unfinished ≠ next)
    (bound : streamSize messages + unfinished.length ≤ intMax) :
    ∃ left : List UInt8, left.take unfinished.length = unfinished ∧
      ∀ calls, messages.length < calls →
        parseLoop calls ((messages.map Message.framed).flatten ++ unfinished ++ slack)
            (streamSize messages + unfinished.length : Nat) =
          some (messages.map Message.framed, left, (unfinished.length : Int)) := by
  have sum : streamSize messages ≤ intMax := by omega
  obtain ⟨frames, rest⟩ := frames_stream sum whole initial proper
  have size : ((messages.map Message.framed).flatten ++ unfinished).length =
      streamSize messages + unfinished.length := by
    rw [List.length_append, length_framed sum]
  have held : ((messages.map Message.framed).flatten ++ unfinished ++ slack).take
      (streamSize messages + unfinished.length) = (messages.map Message.framed).flatten ++ unfinished :=
    List.take_left' size
  have inside : streamSize messages + unfinished.length ≤
      ((messages.map Message.framed).flatten ++ unfinished ++ slack).length := by
    rw [List.length_append]
    omega
  have sized := totalsLe_stream sum whole small initial
  rw [← held] at sized
  obtain ⟨_, left, ends, runs⟩ := (loopExact_of_totalsLe inside bound sized).frames inside bound
  rw [held, rest] at ends
  rw [held, frames, rest, List.length_map] at runs
  exact ⟨left, ends, runs⟩

theorem readPkg_framed (bound : streamSize messages ≤ intMax) :
    (messages.map Message.framed).map readPkg = messages.map Message.pkg := by
  rw [List.map_map]
  exact List.map_congr_left fun message member =>
    (Message.framed_isFrame (payload_le_of_mem bound member)).2.2

/-- Framing the data of a packet that was parsed gives the packet back. -/
theorem builtPack_of_parsePack {buf pack room : List UInt8} {bufLen : Nat} {parsed : Parsed UInt8}
    (inside : bufLen ≤ buf.length) (bound : bufLen ≤ intMax) (run : parsePack buf bufLen = some parsed)
    (some_ : parsed.pack = some pack) (version : headVersion pack = packVersion)
    (small : netPkgSize + headLength buf ≤ intMax) (fits : netPkgSize ≤ room.length) :
    builtPack (pack.drop netPkgSize ++ room) (headLength pack) (toInt (headMsgID pack)) = pack := by
  obtain ⟨⟨header, length⟩, _, _, limit⟩ := parsePack_packet inside bound run some_ small
  rw [netPkg_headerSize] at header
  rw [netPkg_total] at length
  have data : (pack.drop netPkgSize).length = headLength pack := by
    rw [List.length_drop]
    omega
  rw [builtPack_eq _ (by rw [List.length_append]; omega) (by omega), List.take_left' data,
    packHead_readPkg header version, List.take_append_drop]

/-- Encoding and decoding are inverse to each other. -/
theorem pack_stream_round_trip :
    (∀ (messages : List Message) (unfinished next slack : List UInt8),
      netPkg.IsFrame next → next.length ≤ intMax → unfinished <+: next → unfinished ≠ next →
      streamSize messages + unfinished.length ≤ intMax →
      ∃ left : List UInt8, left.take unfinished.length = unfinished ∧
        (messages.map Message.framed).map readPkg = messages.map Message.pkg ∧
        ∀ calls, messages.length < calls →
          parseLoop calls ((messages.map Message.framed).flatten ++ unfinished ++ slack)
              (streamSize messages + unfinished.length : Nat) =
            some (messages.map Message.framed, left, (unfinished.length : Int))) ∧
      ∀ (buf : List UInt8) (bufLen : Nat) (parsed : Parsed UInt8) (pack room : List UInt8),
        bufLen ≤ buf.length → bufLen ≤ intMax → parsePack buf bufLen = some parsed → parsed.pack = some pack →
        headVersion pack = packVersion → netPkgSize + headLength buf ≤ intMax → netPkgSize ≤ room.length →
        builtPack (pack.drop netPkgSize ++ room) (headLength pack) (toInt (headMsgID pack)) = pack := by
  refine ⟨?_, ?_⟩
  · intro messages unfinished next slack whole small initial proper bound
    obtain ⟨left, ends, runs⟩ := parseLoop_stream whole small initial proper bound
    exact ⟨left, ends, readPkg_framed (by omega), runs⟩
  · intro buf bufLen parsed pack room inside bound run some_ version small fits
    exact builtPack_of_parsePack inside bound run some_ version small fits

/-- A response of two bytes and one without data. -/
def twoMessages : List Message :=
  [⟨4, [7, 8], List.replicate 10 0, by decide⟩, ⟨-1, [], List.replicate 12 1, by decide⟩]

/-- A packet with one byte of data. -/
def onePacket : List UInt8 := [0, 0, 4, 0, 0, 0, 1, 0, 0, 0, 7]

theorem pack_stream_round_trip_two_messages :
    (∃ left : List UInt8, left.take 3 = [0, 0, 1] ∧
      (twoMessages.map Message.framed).map readPkg = [⟨0, 4, 2, [7, 8]⟩, ⟨0, 2 ^ 32 - 1, 0, []⟩] ∧
      parseLoop 3 ((twoMessages.map Message.framed).flatten ++ [0, 0, 1] ++ [9]) 25 =
        some (twoMessages.map Message.framed, left, 3)) ∧
      builtPack (onePacket.drop netPkgSize ++ List.replicate 10 0) (headLength onePacket)
        (toInt (headMsgID onePacket)) = onePacket := by
  obtain ⟨left, ends, pkgs, runs⟩ := pack_stream_round_trip.1 twoMessages [0, 0, 1] [0, 0, 1, 0, 0, 0, 0, 0, 0, 0]
    [9] (by decide) (by decide) (by decide) (by decide) (by decide)
  refine ⟨⟨left, ends, pkgs, runs 3 (by decide)⟩, ?_⟩
  have run := parsePack_complete (show 11 ≤ onePacket.length by decide) (by decide) (by decide)
  have whole : (onePacket.take 11).take (netPkg.total (onePacket.take 11)) = onePacket := by decide
  rw [whole] at run
  exact pack_stream_round_trip.2 onePacket 11 _ onePacket (List.replicate 10 0) (by decide) (by decide) run rfl
    (by decide) (by decide) (by decide)

end Stream

end SvrNet

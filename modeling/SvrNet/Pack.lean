import SvrNet.Config
import SvrNet.Framing

namespace SvrNet
open CData

/-- A cell of a buffer holds one byte. The kind of cell is left open, so that a cell can also
remember where its byte came from. -/
class Cell (α : Type) extends Inhabited α where
  byte : α → UInt8

instance : Cell UInt8 where
  byte := id

/-- `sizeof(net_pkg_t)`: the packed header of version, msgID and length. -/
def netPkgSize : Nat := 10

section Decode

variable {α : Type} [Cell α]

/-- An unsigned field of the packed header. -/
def headField (offset count : Nat) (buf : List α) : Nat :=
  leValue (((buf.drop offset).take count).map Cell.byte)

def headVersion (buf : List α) : Nat := headField 0 2 buf

def headMsgID (buf : List α) : Nat := headField 2 4 buf

def headLength (buf : List α) : Nat := headField 6 4 buf

/-- What a call of `parse_pack` gives back: its result, `*pack`, the buffer and `*buf_len`. -/
structure Parsed (α : Type) where
  packLen : Int
  pack : Option (List α)
  buf : List α
  bufLen : Int

/-- `parse_pack`. A negative size makes `malloc` fail and `memcpy` write through NULL, which is
the case without a result. -/
def parsePack (buf : List α) (bufLen : Int) : Option (Parsed α) :=
  if toSize bufLen < netPkgSize then some ⟨0, none, buf, bufLen⟩
  else
    let packLen := toInt (headLength buf + netPkgSize)
    if bufLen < packLen then some ⟨0, none, buf, bufLen⟩
    else if packLen < 0 then none
    else some ⟨packLen, some (buf.take packLen.toNat),
      memmove buf 0 packLen.toNat (bufLen - packLen).toNat, bufLen - packLen⟩

/-- The rest is moved to the front inside the buffer. -/
theorem parsePack_length {buf : List α} {bufLen : Int} {parsed : Parsed α}
    (done : parsePack buf bufLen = some parsed) : parsed.buf.length = buf.length := by
  rw [parsePack] at done
  split at done
  · cases done
    rfl
  · simp only at done
    generalize toInt (headLength buf + netPkgSize) = packLen at done
    split at done
    · cases done
      rfl
    · split at done
      · simp at done
      · cases done
        exact length_memmove_front

theorem headField_append {offset count : Nat} {buf : List α} (inside : offset + count ≤ buf.length)
    (more : List α) : headField offset count (buf ++ more) = headField offset count buf := by
  have long : count ≤ (buf.drop offset).length := by rw [List.length_drop]; omega
  rw [headField, List.drop_append_of_le_length (by omega), List.take_append_of_le_length long, headField]

/-- The framing of the protocol: the length field of the header announces the data. -/
def netPkg : Framing α where
  headerSize := netPkgSize
  bodySize := headLength
  headerSize_pos := by decide
  bodySize_append := fun _ more header => headField_append header more

@[simp] theorem netPkg_headerSize : (netPkg : Framing α).headerSize = netPkgSize := rfl

theorem netPkg_total (buf : List α) : netPkg.total buf = netPkgSize + headLength buf := rfl

theorem netPkg_total_take {buf : List α} {size : Nat} (header : netPkgSize ≤ size)
    (inside : size ≤ buf.length) : netPkg.total (buf.take size) = netPkgSize + headLength buf := by
  have known : (netPkg : Framing α).headerSize ≤ (buf.take size).length := by
    rw [List.length_take_of_le inside]
    exact header
  have same : netPkg.total (buf.take size ++ buf.drop size) = netPkg.total (buf.take size) :=
    Framing.total_append known
  rw [← same, List.take_append_drop, netPkg_total]

variable {buf : List α} {size : Nat}

/-- `parse_pack` leaves everything as it is while the first packet is unfinished. -/
theorem parsePack_incomplete (inside : size ≤ buf.length) (bound : size ≤ intMax)
    (sized : netPkg.TotalsLe intMax (buf.take size)) (incomplete : ¬ netPkg.Complete (buf.take size)) :
    parsePack buf size = some ⟨0, none, buf, size⟩ := by
  have length := List.length_take_of_le inside
  unfold parsePack
  rw [toSize_of_le bound]
  by_cases short : size < netPkgSize
  · rw [if_pos short]
  · have total := netPkg_total_take (by omega) inside
    have small := sized.total_le (by rw [length]; exact Nat.not_lt.mp short)
    have beyond : size < netPkgSize + headLength buf := by
      by_contra within
      exact incomplete ⟨by rw [length]; exact Nat.not_lt.mp short, by rw [length, total]; omega⟩
    rw [if_neg short]
    have value := toInt_of_le (show headLength buf + netPkgSize ≤ intMax by omega)
    rw [Nat.cast_add] at value
    simp only [value]
    rw [if_pos (by omega)]

/-- `parse_pack` takes the first packet off the buffer when all of it is there. -/
theorem parsePack_complete (inside : size ≤ buf.length) (bound : size ≤ intMax)
    (complete : netPkg.Complete (buf.take size)) :
    parsePack buf size = some ⟨netPkg.total (buf.take size),
      some ((buf.take size).take (netPkg.total (buf.take size))),
      memmove buf 0 (netPkg.total (buf.take size)) (size - netPkg.total (buf.take size)),
      (size - netPkg.total (buf.take size) : Nat)⟩ := by
  obtain ⟨header, body⟩ := complete
  rw [List.length_take_of_le inside] at header body
  rw [netPkg_headerSize] at header
  have total := netPkg_total_take header inside
  have value := toInt_of_le (show headLength buf + netPkgSize ≤ intMax by omega)
  rw [Nat.cast_add] at value
  unfold parsePack
  rw [toSize_of_le bound, if_neg (by omega)]
  have same : (headLength buf : Int) + (netPkgSize : Int) = netPkg.total (buf.take size) := by
    rw [total]
    omega
  rw [same] at value
  simp only [same, value]
  rw [if_neg (by omega), if_neg (by omega), List.take_take, Nat.min_eq_left body]
  have left : ((size : Int) - (netPkg.total (buf.take size) : Nat)).toNat =
      size - netPkg.total (buf.take size) := by omega
  simp only [Int.toNat_natCast, left, Nat.cast_sub body]

end Decode

/-- The header that `create_pack` writes. -/
def packHead (bufLen msgID : Int) : List UInt8 :=
  leBytes 2 packVersion ++ leBytes 4 (msgID % 2 ^ 32).toNat ++ leBytes 4 (bufLen % 2 ^ 32).toNat

/-- `create_pack`: the buffer afterwards and the result. The payload is moved up behind the
header first, as both lie in the same memory. -/
def createPack (buf : List UInt8) (bufLen msgID : Int) : List UInt8 × Int :=
  let moved := memmove buf netPkgSize 0 (toSize bufLen)
  (writeAt moved 0 (packHead bufLen msgID), toInt (bufLen + netPkgSize))

@[simp] theorem length_packHead (bufLen msgID : Int) : (packHead bufLen msgID).length = netPkgSize := by
  simp [packHead, netPkgSize]

theorem headLength_packHead (size : Nat) (msgID : Int) (bound : size ≤ intMax) (payload : List UInt8) :
    headLength (packHead size msgID ++ payload) = size := by
  have field : ((packHead size msgID ++ payload).drop 6).take 4 = leBytes 4 size := by
    have small : ((size : Int) % 2 ^ 32).toNat = size := by unfold intMax at bound; omega
    rw [packHead, small, List.append_assoc, List.drop_left' (by simp), List.take_left' (by simp)]
  rw [headLength, headField, field]
  have cells : (leBytes 4 size).map Cell.byte = leBytes 4 size := List.map_id _
  rw [cells, leValue_leBytes]
  unfold intMax at bound
  omega

theorem packHead_isFrame {payload : List UInt8} (msgID : Int) (bound : payload.length ≤ intMax) :
    netPkg.IsFrame (packHead payload.length msgID ++ payload) := by
  refine ⟨?_, ?_⟩
  · rw [List.length_append, length_packHead, netPkg_headerSize]
    omega
  · rw [netPkg_total, headLength_packHead _ _ bound, List.length_append, length_packHead]

/-- The bytes that `create_pack` announces by its result are the header and the payload that
was in front of the buffer before. -/
theorem createPack_take {buf : List UInt8} {size : Nat} (msgID : Int)
    (room : size + netPkgSize ≤ buf.length) (bound : size + netPkgSize ≤ intMax) :
    (createPack buf size msgID).2 = (size + netPkgSize : Nat) ∧
      (createPack buf size msgID).1.take (size + netPkgSize) = packHead size msgID ++ buf.take size := by
  have value := toInt_of_le bound
  rw [Nat.cast_add] at value
  refine ⟨by rw [createPack, value, Nat.cast_add], ?_⟩
  have head := length_packHead size msgID
  have framed : _ = packHead size msgID ++ _ := take_writeAt_memmove (show size ≤ buf.length by omega)
  rw [head, Nat.add_comm] at framed
  rw [createPack, toSize_of_le (by omega)]
  exact framed

end SvrNet

import Mathlib.Data.List.TakeDrop
import Mathlib.Tactic.Ring

/- The C data that the translated functions compute with: 32-bit `int`, 64-bit `size_t`,
little-endian integers, and memory that is written at an offset. -/
namespace CData

/-- Conversion to a 32-bit `int`. -/
def toInt (value : Int) : Int := value.bmod (2 ^ 32)

/-- Conversion of an `int` to a 64-bit `size_t`; a negative value wraps around. -/
def toSize (value : Int) : Nat := (value % 2 ^ 64).toNat

def intMax : Nat := 2 ^ 31 - 1

theorem toInt_of_le {value : Nat} (bound : value ≤ intMax) : toInt value = value := by
  unfold intMax at bound
  exact Int.bmod_eq_of_le (by omega) (by omega)

theorem toSize_of_le {value : Nat} (bound : value ≤ intMax) : toSize value = value := by
  unfold intMax at bound
  rw [toSize, Int.emod_eq_of_lt (by omega) (by omega), Int.toNat_natCast]

/-- The conversion to `int` keeps the low 32 bits. -/
theorem toInt_emod (value : Int) : toInt value % 2 ^ 32 = value % 2 ^ 32 := Int.bmod_emod

theorem toSize_of_nonneg {value : Int} (nonneg : 0 ≤ value) (bound : value < 2 ^ 64) :
    toSize value = value.toNat := by
  rw [toSize, Int.emod_eq_of_lt nonneg bound]

/-- The value of a little-endian sequence of bytes. -/
def leValue : List UInt8 → Nat
  | [] => 0
  | byte :: bytes => byte.toNat + 256 * leValue bytes

/-- The `count` low bytes of a value, the lowest first. -/
def leBytes : Nat → Nat → List UInt8
  | 0, _ => []
  | count + 1, value => UInt8.ofNat value :: leBytes count (value / 256)

@[simp] theorem length_leBytes (count value : Nat) : (leBytes count value).length = count := by
  induction count generalizing value with
  | zero => rfl
  | succ count ih => simp [leBytes, ih]

theorem leValue_leBytes (count value : Nat) : leValue (leBytes count value) = value % 256 ^ count := by
  induction count generalizing value with
  | zero => simp [leBytes, leValue, Nat.mod_one]
  | succ count ih =>
    have low : (UInt8.ofNat value).toNat = value % 256 := UInt8.toNat_ofNat'
    rw [leBytes, leValue, ih, low, pow_succ', Nat.mod_mul]

theorem leValue_lt (bytes : List UInt8) : leValue bytes < 256 ^ bytes.length := by
  induction bytes with
  | nil => simp [leValue]
  | cons byte bytes ih =>
    have := byte.toNat_lt
    rw [leValue, List.length_cons, pow_succ']
    omega

/-- A sequence of bytes is spelled by its value. -/
theorem leBytes_leValue (bytes : List UInt8) : leBytes bytes.length (leValue bytes) = bytes := by
  induction bytes with
  | nil => rfl
  | cons byte bytes ih =>
    have size := byte.toNat_lt
    have high : (byte.toNat + 256 * leValue bytes) / 256 = leValue bytes := by omega
    have low : UInt8.ofNat (byte.toNat + 256 * leValue bytes) = byte := by
      apply UInt8.toNat_inj.mp
      rw [UInt8.toNat_ofNat']
      omega
    rw [List.length_cons, leBytes, leValue, high, low, ih]

variable {α : Type} [Inhabited α]

/-- Memory after `data` has been stored from `offset` on. A cell that was never written holds
some value of its type; such cells at the end of the memory are not listed. -/
def writeAt (memory : List α) (offset : Nat) (data : List α) : List α :=
  memory.take offset ++ List.replicate (offset - memory.length) default ++ data ++
    memory.drop (offset + data.length)

/-- `memmove(memory + dest, memory + src, count)`: the cells are read before any is written. -/
def memmove (memory : List α) (dest src count : Nat) : List α :=
  writeAt memory dest ((memory.drop src).take count)

variable {memory data : List α} {offset src count : Nat}

theorem length_writeAt :
    (writeAt memory offset data).length = max memory.length (offset + data.length) := by
  unfold writeAt
  simp only [List.length_append, List.length_take, List.length_replicate, List.length_drop]
  omega

/-- From the offset on, memory is what was written, then what was there before. -/
theorem drop_writeAt :
    (writeAt memory offset data).drop offset = data ++ memory.drop (offset + data.length) := by
  have size : (memory.take offset ++ List.replicate (offset - memory.length) default).length = offset := by
    simp only [List.length_append, List.length_take, List.length_replicate]
    omega
  rw [writeAt, List.append_assoc, List.drop_left' size]

/-- Behind what was written memory is as it was. -/
theorem getElem?_writeAt {index : Nat} (behind : offset + data.length ≤ index) :
    (writeAt memory offset data)[index]? = memory[index]? := by
  obtain ⟨more, rfl⟩ := Nat.exists_eq_add_of_le behind
  rw [Nat.add_assoc, ← List.getElem?_drop, drop_writeAt, List.getElem?_append_right (Nat.le_add_right _ _),
    Nat.add_sub_cancel_left, List.getElem?_drop, Nat.add_assoc]

/-- Up to the end of what was written, memory is what was there before the offset, then the data. -/
theorem take_writeAt (inside : offset ≤ memory.length) :
    (writeAt memory offset data).take (offset + data.length) = memory.take offset ++ data := by
  have none : offset - memory.length = 0 := by omega
  have size : (memory.take offset ++ data).length = offset + data.length := by
    rw [List.length_append, List.length_take_of_le inside]
  rw [writeAt, none, List.replicate_zero, List.append_nil, List.take_left' size]

theorem take_memmove_front (inside : src + count ≤ memory.length) :
    (memmove memory 0 src count).take count = (memory.drop src).take count := by
  have size : ((memory.drop src).take count).length = count := by
    rw [List.length_take, List.length_drop]
    omega
  have written : (memmove memory 0 src count).take (0 + ((memory.drop src).take count).length) = _ :=
    take_writeAt (Nat.zero_le memory.length)
  simpa only [size, Nat.zero_add, List.take_zero, List.nil_append] using written

theorem length_memmove_front : (memmove memory 0 src count).length = memory.length := by
  rw [memmove, length_writeAt, List.length_take, List.length_drop]
  omega

/-- Moving the first cells up and storing other data in front of them puts the two together. -/
theorem take_writeAt_memmove {front : List α} (inside : count ≤ memory.length) :
    (writeAt (memmove memory front.length 0 count) 0 front).take (front.length + count) =
      front ++ memory.take count := by
  have size : (memory.take count).length = count := List.length_take_of_le inside
  rw [writeAt, List.take_zero, List.nil_append, Nat.zero_sub, List.replicate_zero, List.nil_append,
    Nat.zero_add, memmove, List.drop_zero, drop_writeAt, ← List.append_assoc, List.take_left']
  rw [List.length_append, size]

/-- That leaves memory as long as the last of the moved cells needs it. -/
theorem length_writeAt_memmove {front : List α} :
    (writeAt (memmove memory front.length 0 count) 0 front).length =
      max memory.length (front.length + min count memory.length) := by
  simp only [length_writeAt, memmove, List.length_take, List.drop_zero]
  omega

theorem mem_writeAt {cell : α} (inside : offset ≤ memory.length) (member : cell ∈ writeAt memory offset data) :
    cell ∈ memory ∨ cell ∈ data := by
  have none : offset - memory.length = 0 := by omega
  rw [writeAt, none, List.replicate_zero, List.append_nil, List.mem_append, List.mem_append] at member
  rcases member with (before | new) | behind
  · exact Or.inl (List.mem_of_mem_take before)
  · exact Or.inr new
  · exact Or.inl (List.mem_of_mem_drop behind)

theorem mem_memmove_front {cell : α} (member : cell ∈ memmove memory 0 src count) : cell ∈ memory := by
  rcases mem_writeAt (Nat.zero_le _) member with old | moved
  · exact old
  · exact List.mem_of_mem_drop (List.mem_of_mem_take moved)

/-- Cells that were never written do not remain when the gap in front of the moved ones is filled. -/
theorem mem_writeAt_memmove {front : List α} {cell : α}
    (member : cell ∈ writeAt (memmove memory front.length 0 count) 0 front) :
    cell ∈ front ∨ cell ∈ memory := by
  rw [writeAt, List.take_zero, List.nil_append, Nat.zero_sub, List.replicate_zero, List.nil_append,
    Nat.zero_add, memmove, List.drop_zero, drop_writeAt, List.mem_append, List.mem_append] at member
  rcases member with new | moved | behind
  · exact Or.inl new
  · exact Or.inr (List.mem_of_mem_take moved)
  · exact Or.inr (List.mem_of_mem_drop behind)

end CData

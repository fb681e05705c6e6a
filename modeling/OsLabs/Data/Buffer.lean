import Mathlib.Data.List.Basic
import OsLabs.Data.Memory

/-! Write buffers: bytes that a stream of the C library has not handed to the kernel yet. -/

namespace OsLabs

/-- The bytes, and the offset at which they were written. -/
structure Buffer where
  offset : Nat
  data : List Byte

/-- A write at an offset; what lies between the end of the file and the offset reads as zero. -/
def pwrite (bytes : List Byte) (offset : Nat) (data : List Byte) : List Byte :=
  bytes.take offset ++ List.replicate (offset - bytes.length) 0 ++ data ++ bytes.drop (offset + data.length)

def flushed (bytes : List Byte) : Option Buffer → List Byte
  | none => bytes
  | some b => pwrite bytes b.offset b.data

/-- Where the file will end once the buffer is handed over. -/
def Buffer.reach : Option Buffer → Nat
  | none => 0
  | some b => b.offset + b.data.length

variable {bytes data : List Byte}

theorem length_pwrite (bytes : List Byte) (offset : Nat) (data : List Byte) :
    (pwrite bytes offset data).length = max bytes.length (offset + data.length) := by
  simp only [pwrite, List.length_append, List.length_take, List.length_replicate, List.length_drop]
  omega

theorem pwrite_end : pwrite bytes bytes.length data = bytes ++ data := by
  simp [pwrite]

theorem pwrite_middle {front old back : List Byte} (same : data.length = old.length) :
    pwrite (front ++ (old ++ back)) front.length data = front ++ (data ++ back) := by
  have rest : (front ++ (old ++ back)).drop (front.length + data.length) = back := by
    rw [← List.append_assoc]
    exact List.drop_left' (by rw [List.length_append, same])
  have none : front.length - (front ++ (old ++ back)).length = 0 := Nat.sub_eq_zero_of_le (by simp)
  rw [pwrite, rest, none, List.take_left, List.replicate_zero, List.append_nil, List.append_assoc]

theorem getElem?_pwrite {offset : Nat} (inside : offset ≤ bytes.length) (p : Nat) :
    (pwrite bytes offset data)[p]? = if offset ≤ p ∧
    p < offset + data.length then data[p - offset]? else bytes[p]? := by
  have before : (bytes.take offset).length = offset := by
    rw [List.length_take]
    omega
  rw [pwrite, Nat.sub_eq_zero_of_le (by omega), List.replicate_zero, List.append_nil, List.append_assoc]
  by_cases early : p < offset
  · rw [List.getElem?_append_left (by omega), List.getElem?_take_of_lt early, if_neg (by omega)]
  · rw [List.getElem?_append_right (by omega), before]
    by_cases late : offset + data.length ≤ p
    · rw [List.getElem?_append_right (by omega), List.getElem?_drop, if_neg (by omega)]
      congr 1
      omega
    · rw [List.getElem?_append_left (by omega), if_pos (by omega)]

theorem pwrite_nil {offset : Nat} (inside : offset ≤ bytes.length) : pwrite bytes offset [] = bytes := by
  apply List.ext_getElem?
  intro p
  rw [getElem?_pwrite inside, List.length_nil, if_neg (by omega)]

theorem length_flushed (bytes : List Byte) (buffer : Option Buffer) :
    (flushed bytes buffer).length = max bytes.length (Buffer.reach buffer) := by
  cases buffer with
  | none => exact (Nat.max_eq_left (Nat.zero_le _)).symm
  | some b => exact length_pwrite ..

end OsLabs

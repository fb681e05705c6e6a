import Mathlib.Data.List.Basic
import OsLabs.Ext2.Layout

/-! # The inode map and the data map -/

namespace OsLabs.Ext2

def map (blk i : Nat) : Nat := block blk + i / 8

def mask (i : Nat) : Byte := 1 <<< UInt8.ofNat (i % 8)

def readMap (dev : Device) (blk i : Nat) : Bool := dev (map blk i) &&& mask i ≠ 0

def setMap (dev : Device) (blk i : Nat) (x : Bool) : Device :=
  let b := dev (map blk i)
  dev.write (map blk i) [if x then b ||| mask i else b &&& ~~~mask i]

def writeMap (dev : Device) (blk i : Nat) (x : Bool) : Except Fault Device :=
  if readMap dev blk i = x then .error .assertion
  else if readMap (setMap dev blk i x) blk i ≠ x then .error .assertion
  else .ok (setMap dev blk i x)

/-- The scan stops before bit `BLOCK_BYTES`; `none` is the return of -1. -/
def freeMap (dev : Device) (blk : Nat) : Option Nat :=
  (List.range blockBytes).find? fun i => !readMap dev blk i

/-- The bits that `free_map` would find, one after the other. -/
def freeBits (dev : Device) (blk : Nat) : List Nat :=
  (List.range blockBytes).filter fun i => !readMap dev blk i

variable {dev dev' : Device} {blk i j : Nat} {x : Bool}

/-! ### Single bits -/

theorem and_mask (b : Byte) (i : Fin 8) : (b &&& mask i ≠ 0) ↔ b.toNat.testBit i = true := by
  have all : ∀ (n : Fin 256) (i : Fin 8), (UInt8.ofFin n &&& mask i ≠ 0) ↔
      (UInt8.ofFin n).toNat.testBit i = true := by decide +kernel
  exact all b.toFin i

theorem testBit_mask : ∀ i j : Fin 8, (mask i).toNat.testBit j = decide (i = j) ∧
    (~~~mask i).toNat.testBit j = decide (i ≠ j) := by
  decide +kernel

theorem or_mask (b : Byte) (i j : Fin 8) :
    ((b ||| mask i) &&& mask j ≠ 0) ↔ i = j ∨ (b &&& mask j ≠ 0) := by
  rw [and_mask, and_mask, UInt8.toNat_or, Nat.testBit_or, (testBit_mask i j).1]
  simp [or_comm]

theorem and_not_mask (b : Byte) (i j : Fin 8) :
    ((b &&& ~~~mask i) &&& mask j ≠ 0) ↔ i ≠ j ∧ (b &&& mask j ≠ 0) := by
  rw [and_mask, and_mask, UInt8.toNat_and, Nat.testBit_and, (testBit_mask i j).2]
  simp [and_comm]

theorem mask_mod (i : Nat) : mask (i % 8) = mask i := by simp [mask]

theorem map_eq_iff : map blk i = map blk j ↔ i / 8 = j / 8 := by
  unfold map
  omega

theorem setMap_at (dev : Device) (blk i : Nat) (x : Bool) : setMap dev blk i x (map blk i) =
    if x then dev (map blk i) ||| mask i else dev (map blk i) &&& ~~~mask i := by
  have := @Mem.write_at dev (map blk i) [if x then dev (map blk i) ||| mask i else dev (map blk i) &&& ~~~mask i] 0
    (by simp)
  simpa [setMap] using this

theorem setMap_other {a : Nat} (h : a ≠ map blk i) : setMap dev blk i x a = dev a :=
  Mem.write_outside (by simp; omega)

theorem readMap_setMap (dev : Device) (blk i j : Nat) (x : Bool) :
    readMap (setMap dev blk i x) blk j = if j = i then x else readMap dev blk j := by
  have hi := Nat.mod_lt i (show 0 < 8 by decide)
  have hj := Nat.mod_lt j (show 0 < 8 by decide)
  by_cases same : map blk j = map blk i
  · have bits : (⟨i % 8, hi⟩ : Fin 8) = ⟨j % 8, hj⟩ ↔ j = i := by
      have := map_eq_iff.mp same
      rw [Fin.mk.injEq]
      omega
    have set := or_mask (dev (map blk i)) ⟨i % 8, hi⟩ ⟨j % 8, hj⟩
    have clear := and_not_mask (dev (map blk i)) ⟨i % 8, hi⟩ ⟨j % 8, hj⟩
    simp only [mask_mod, bits, ne_eq] at set clear
    unfold readMap
    rw [same, setMap_at]
    cases x <;> by_cases ji : j = i <;> simp_all
  · have ji : j ≠ i := by rintro rfl; exact same rfl
    unfold readMap
    rw [setMap_other same, if_neg ji]

theorem readMap_congr (h : dev' (map blk i) = dev (map blk i)) : readMap dev' blk i = readMap dev blk i := by
  unfold readMap
  rw [h]

theorem writeMap_eq (h : readMap dev blk i ≠ x) : writeMap dev blk i x = .ok (setMap dev blk i x) := by
  simp [writeMap, h, readMap_setMap]

/-! ### Free bits -/

theorem freeMap_eq (dev : Device) (blk : Nat) : freeMap dev blk = (freeBits dev blk).head? := by
  unfold freeMap freeBits
  rw [List.head?_filter]

theorem mem_freeBits : i ∈ freeBits dev blk ↔ i < blockBytes ∧ readMap dev blk i = false := by
  simp [freeBits]

theorem freeBits_nodup (dev : Device) (blk : Nat) : (freeBits dev blk).Nodup := List.nodup_range.filter _

theorem freeMap_some (h : freeMap dev blk = some i) : i < blockBytes ∧ readMap dev blk i = false := by
  rw [freeMap_eq] at h
  exact mem_freeBits.mp (List.mem_of_mem_head? h)

/-- Once the first free bit is set, the scan goes on at the next one. -/
theorem freeBits_setMap {rest : List Nat} (h : freeBits dev blk = i :: rest) :
    freeBits (setMap dev blk i true) blk = rest := by
  have nodup := freeBits_nodup dev blk
  rw [h] at nodup
  have filtered : freeBits (setMap dev blk i true) blk = (freeBits dev blk).filter (· ≠ i) := by
    unfold freeBits
    rw [List.filter_filter]
    apply List.filter_congr
    intro j _
    rw [readMap_setMap]
    by_cases ji : j = i <;> simp [ji]
  rw [filtered, h, List.filter_cons_of_neg (by simp)]
  apply List.filter_eq_self.mpr
  intro j hj
  have : i ∉ rest := (List.nodup_cons.mp nodup).1
  simp only [ne_eq, decide_eq_true_eq]
  rintro rfl
  exact this hj

theorem freeBits_congr (h : ∀ i, i < blockBytes → readMap dev' blk i = readMap dev blk i) :
    freeBits dev' blk = freeBits dev blk := by
  unfold freeBits
  apply List.filter_congr
  intro i hi
  rw [h i (List.mem_range.mp hi)]

/-! ### Maps and the rest of the device -/

/-- The bits of a map that lie in its block. -/
def mapBits : Nat := 8 * blockBytes

theorem map_in_block (h : i < mapBits) : block blk ≤ map blk i ∧ map blk i < block blk + blockBytes := by
  simp only [map, mapBits, blockBytes] at *
  omega

theorem map_lt_table (hb : blk < itable) (h : i < mapBits) : map blk i < block itable := by
  simp only [map, mapBits, itable, block, blockBytes] at *
  omega

theorem readMap_setMap_other {blk' : Nat} (h : blk' ≠ blk) (hi : i < mapBits) (hj : j < mapBits) :
    readMap (setMap dev blk i x) blk' j = readMap dev blk' j := by
  refine readMap_congr (setMap_other ?_)
  have hi : block blk ≤ map blk i ∧ map blk i < block blk + blockBytes := map_in_block hi
  have hj : block blk' ≤ map blk' j ∧ map blk' j < block blk' + blockBytes := map_in_block hj
  simp only [block, blockBytes] at hi hj
  omega

def SameMaps (dev dev' : Device) : Prop := ∀ x, x < block itable → dev' x = dev x

theorem SameMaps.readMap (h : SameMaps dev dev') (hb : blk < itable) (hi : i < mapBits) :
    readMap dev' blk i = readMap dev blk i :=
  readMap_congr (h _ (map_lt_table hb hi))

theorem SameMaps.freeBits (h : SameMaps dev dev') (hb : blk < itable) : freeBits dev' blk = freeBits dev blk :=
  freeBits_congr fun i hi => h.readMap hb (by simp only [mapBits, blockBytes] at *; omega)

/-! ### Writing and finding bits -/

theorem freeMap_first : freeMap dev blk = some i ↔
    i < blockBytes ∧ readMap dev blk i = false ∧ ∀ j < i, readMap dev blk j = true := by
  unfold freeMap
  rw [List.find?_range_eq_some]
  simp only [Bool.not_eq_true', List.mem_range, Bool.not_not]
  constructor
  · intro ⟨free, inside, set⟩
    exact ⟨inside, free, set⟩
  · intro ⟨inside, free, set⟩
    exact ⟨free, inside, set⟩

theorem freeMap_full : freeMap dev blk = none ↔ ∀ i < blockBytes, readMap dev blk i = true := by
  simp [freeMap]

theorem writeMap_spec (different : readMap dev blk i ≠ x) : ∃ dev', writeMap dev blk i x = .ok dev' ∧
    readMap dev' blk i = x ∧ (∀ j, j ≠ i → readMap dev' blk j = readMap dev blk j) ∧
    ∀ a, a ≠ block blk + i / 8 → dev' a = dev a := by
  refine ⟨setMap dev blk i x, writeMap_eq different, ?_, ?_, ?_⟩
  · rw [readMap_setMap, if_pos rfl]
  · intro j other
    rw [readMap_setMap, if_neg other]
  · intro a outside
    exact setMap_other outside

/-- **`write_map` changes one bit, in a byte of the map block, and `free_map` finds the first clear bit.** -/
theorem map_bits (dev : Device) (blk : Nat) :
    (∀ i x, i < 8 * blockBytes → readMap dev blk i ≠ x → ∃ dev', writeMap dev blk i x = .ok dev' ∧
      readMap dev' blk i = x ∧ (∀ j < 8 * blockBytes, j ≠ i → readMap dev' blk j = readMap dev blk j) ∧
      i / 8 < blockBytes ∧ ∀ a, a ≠ block blk + i / 8 → dev' a = dev a) ∧
    (∀ i, freeMap dev blk = some i ↔
      i < blockBytes ∧ readMap dev blk i = false ∧ ∀ j < i, readMap dev blk j = true) ∧
    (freeMap dev blk = none ↔ ∀ i < blockBytes, readMap dev blk i = true) := by
  refine ⟨?_, fun i => freeMap_first, freeMap_full⟩
  intro i x inside different
  obtain ⟨dev', written, bit, others, outside⟩ := writeMap_spec different
  refine ⟨dev', written, bit, ?_, by omega, outside⟩
  intro j _ other
  exact others j other

end OsLabs.Ext2

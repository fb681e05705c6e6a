import Mathlib.Data.Int.DivMod
import OsLabs.Data.Memory

/-!
# Literals and numbers

String literals, `isdigit`, `isnum` and `atoi`. A C `int` has 32 bits and wraps, so `atoi` gives the
decimal value of a string of digits up to a multiple of 2^32.
-/

namespace OsLabs.Util

def cstr (s : String) : List Byte := s.toList.map fun c => c.toNat.toUInt8

abbrev CInt := BitVec 32

def ofChar (ch : Byte) : CInt := ch.toBitVec.signExtend 32

def isdigit (ch : Byte) : Bool := 48 ≤ ch ∧ ch ≤ 57

def isnum (s : List Byte) : Bool := s.all isdigit

def atoiLoop : List Byte → CInt → CInt
  | [], i => i
  | ch :: s, i => if isdigit ch then atoiLoop s (i * 10 + ofChar ch - 48) else i

def atoi (s : List Byte) : CInt :=
  match s with
  | 45 :: s => atoiLoop s 0 * (-1)
  | s => atoiLoop s 0 * 1

def decimal (s : List Byte) : Nat := s.foldl (fun i ch => i * 10 + (ch.toNat - 48)) 0

variable {s : List Byte} {ch : Byte}

theorem ofChar_digit (digit : isdigit ch = true) : ofChar ch = BitVec.ofNat 32 ch.toNat := by
  have small : ch.toNat ≤ 57 := by
    simp only [isdigit, decide_eq_true_eq, UInt8.le_iff_toNat_le] at digit
    exact digit.2
  have table : ∀ x : BitVec 8, x.toNat ≤ 57 → x.signExtend 32 = BitVec.ofNat 32 x.toNat := by decide +kernel
  exact table ch.toBitVec small

theorem atoiLoop_digits (digits : ∀ ch ∈ s, isdigit ch = true) (v : Nat) :
    atoiLoop s (BitVec.ofNat 32 v) = BitVec.ofNat 32 (s.foldl (fun i ch => i * 10 + (ch.toNat - 48)) v) := by
  induction s generalizing v with
  | nil => rfl
  | cons ch s ih =>
    obtain ⟨digit, digits⟩ := List.forall_mem_cons.mp digits
    have low : 48 ≤ ch.toNat := by
      simp only [isdigit, decide_eq_true_eq, UInt8.le_iff_toNat_le] at digit
      exact digit.1
    have next : BitVec.ofNat 32 v * 10 + ofChar ch - 48 = BitVec.ofNat 32 (v * 10 + (ch.toNat - 48)) := by
      rw [ofChar_digit digit, ← Nat.add_sub_assoc low]
      apply BitVec.eq_of_toNat_eq
      simp only [BitVec.toNat_sub, BitVec.toNat_add, BitVec.toNat_mul, BitVec.toNat_ofNat,
        show (10 : CInt).toNat = 10 from rfl,
        show (48 : CInt).toNat = 48 from rfl]
      omega
    rw [atoiLoop, if_pos digit, next, ih digits, List.foldl_cons]

/-- The value modulo 2^32, as a signed number. -/
theorem atoi_digits (digits : ∀ ch ∈ s, isdigit ch = true) : atoi s = BitVec.ofNat 32 (decimal s) := by
  have loop := atoiLoop_digits digits 0
  unfold atoi
  split
  · rename_i s
    have := digits 45 List.mem_cons_self
    simp [isdigit] at this
  · exact (BitVec.mul_one _).trans loop

end OsLabs.Util

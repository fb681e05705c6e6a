import Mathlib.Data.Nat.Digits.Lemmas
import OsLabs.Util.Number

/-! Numbers in decimal, as the formats print them and the scanners read them back. -/

namespace OsLabs.Util

def digitChar (d : Nat) : Byte := UInt8.ofNat (48 + d)

def decimalText (v : Nat) : List Byte := if v = 0 then [48] else (Nat.digits 10 v).reverse.map digitChar

variable {v d : Nat}

theorem digitChar_toNat (small : d < 10) : (digitChar d).toNat = 48 + d := by
  rw [digitChar, UInt8.toNat_ofNat']
  omega

theorem isdigit_digitChar (small : d < 10) : isdigit (digitChar d) = true := by
  have value := digitChar_toNat small
  simp only [isdigit, decide_eq_true_eq, UInt8.le_iff_toNat_le]
  rw [value]
  exact ⟨Nat.le_add_right 48 d, (by omega : 48 + d ≤ 57)⟩

theorem decimalText_step (v : Nat) :
    decimalText v = (if v < 10 then [] else decimalText (v / 10)) ++ [digitChar (v % 10)] := by
  unfold decimalText
  by_cases zero : v = 0
  · rw [zero]
    rfl
  · rw [if_neg zero, Nat.digits_def' (by decide) (Nat.pos_of_ne_zero zero), List.reverse_cons, List.map_append]
    by_cases small : v < 10
    · rw [if_pos small, Nat.div_eq_of_lt small]
      rfl
    · rw [if_neg small, if_neg (by omega)]
      rfl

theorem decimalText_isdigit : ∀ ch ∈ decimalText v, isdigit ch = true := by
  induction v using Nat.strong_induction_on with
  | _ v ih =>
    rw [decimalText_step]
    intro ch mem
    rcases List.mem_append.mp mem with front | last
    · split at front
      · cases front
      · exact ih (v / 10) (by omega) ch front
    · rw [List.mem_singleton.mp last]
      exact isdigit_digitChar (Nat.mod_lt v (by decide))

theorem decimalText_ne_nil : decimalText v ≠ [] := by
  rw [decimalText_step]
  simp

theorem decimal_decimalText (v : Nat) : decimal (decimalText v) = v := by
  induction v using Nat.strong_induction_on with
  | _ v ih =>
    have last := digitChar_toNat (Nat.mod_lt v (show 0 < 10 by decide))
    rw [decimalText_step, decimal, List.foldl_append]
    simp only [List.foldl_cons, List.foldl_nil, last]
    split
    · simp only [List.foldl_nil]
      omega
    · have front := ih (v / 10) (by omega)
      rw [decimal] at front
      rw [front]
      omega

/-- Lean prints the same digits. -/
theorem cstr_toString (v : Nat) : cstr (toString v) = decimalText v := by
  have digits (v : Nat) : (Nat.toDigits 10 v).map (fun c => c.toNat.toUInt8) = decimalText v := by
    induction v using Nat.strong_induction_on with
    | _ v ih =>
      have table : ∀ d < 10, (Nat.digitChar d).toNat.toUInt8 = digitChar d := by decide
      rw [Nat.toDigits_eq_if (by decide), decimalText_step]
      by_cases small : v < 10
      · rw [if_pos small, if_pos small, Nat.mod_eq_of_lt small, List.map_singleton, table v small]
        rfl
      · rw [if_neg small, if_neg small, List.map_append, ih (v / 10) (by omega), List.map_singleton,
          table _ (Nat.mod_lt v (by decide))]
  rw [cstr, Nat.toString_eq_ofList_toDigits, String.toList_ofList, digits]

theorem atoiLoop_decimalText (v : Nat) : atoiLoop (decimalText v) 0 = BitVec.ofNat 32 v := by
  have loop := atoiLoop_digits (s := decimalText v) (fun ch mem => decimalText_isdigit ch mem) 0
  have value := decimal_decimalText v
  rw [decimal] at value
  rw [value] at loop
  exact loop

end OsLabs.Util

import OsLabs.Data.Stream
import OsLabs.Util.Decimal

/-! Numbers read from a stream, as the conversion `%d` does. -/

namespace OsLabs
open Util

namespace Stream

/-- `%d`: white space, a sign and digits; nothing is stored when there is no digit. -/
def getInt (f : Stream) : Option Int × Stream :=
  let rest := f.bytes.drop f.pos
  let text := rest.dropWhile isspace
  let sign := (text.take 1).filter fun b => b = 43 || b = 45
  let digits := (text.drop sign.length).takeWhile isdigit
  let f := { f with pos := f.pos + (rest.takeWhile isspace).length + sign.length + digits.length }
  if digits = [] then (none, f) else (some (if sign = [45] then -decimal digits else decimal digits), f)

variable {f : Stream} {before after space : List Byte} {v : Nat}

theorem isspace_digit {b : Byte} (digit : isdigit b = true) : isspace b = false := by
  have table : ∀ x : Fin 256, isdigit (UInt8.ofNat x) = true → isspace (UInt8.ofNat x) = false := by decide +kernel
  have byte := table ⟨b.toNat, b.toNat_lt⟩
  simp only [UInt8.ofNat_toNat] at byte
  exact byte digit

/-- A number without a sign, behind white space and in front of anything but a digit. -/
theorem At.getInt (h : f.At before (space ++ (decimalText v ++ after))) (blank : ∀ b ∈ space, isspace b = true)
    (next : ∀ b ∈ after.head?, isdigit b = false) :
    ∃ f', f.getInt = (some (v : Int), f') ∧ f'.At (before ++ space ++ decimalText v) after := by
  obtain ⟨d, digits, text⟩ := List.exists_cons_of_ne_nil (@decimalText_ne_nil v)
  have isDigit (b : Byte) (mem : b ∈ decimalText v) : isdigit b = true := decimalText_isdigit b mem
  have first : isdigit d = true := isDigit d (text ▸ List.mem_cons_self)
  have rest : f.bytes.drop f.pos = space ++ (decimalText v ++ after) := by rw [h.bytes, h.pos, List.drop_left]
  have behind : (space ++ (decimalText v ++ after)).dropWhile isspace = decimalText v ++ after := by
    rw [List.dropWhile_append_of_pos blank, text, List.cons_append,
      List.dropWhile_cons_of_neg (by rw [isspace_digit first]; decide)]
  have front : (space ++ (decimalText v ++ after)).takeWhile isspace = space := by
    rw [List.takeWhile_append_of_pos blank, text, List.cons_append,
      List.takeWhile_cons_of_neg (by rw [isspace_digit first]; decide), List.append_nil]
  have unsigned : ((decimalText v ++ after).take 1).filter (fun b => b = 43 || b = 45) = [] := by
    have table : ∀ x : Fin 256, isdigit (UInt8.ofNat x) = true →
        (UInt8.ofNat x = 43 || UInt8.ofNat x = 45) = false := by decide +kernel
    have byte := table ⟨d.toNat, d.toNat_lt⟩
    simp only [UInt8.ofNat_toNat] at byte
    rw [text, List.cons_append, List.take_succ_cons, List.take_zero,
      List.filter_cons_of_neg (by rw [byte first]; decide)]
    rfl
  have number : (decimalText v ++ after).takeWhile isdigit = decimalText v := by
    rw [List.takeWhile_append_of_pos isDigit]
    cases after with
    | nil => simp
    | cons b after => rw [List.takeWhile_cons_of_neg (by rw [next b rfl]; decide), List.append_nil]
  refine ⟨{ f with pos := f.pos + space.length + (decimalText v).length }, ?_, ?_, ?_⟩
  · simp only [Stream.getInt, rest, behind, front, unsigned, List.length_nil, List.drop_zero, number,
      if_neg (@decimalText_ne_nil v), decimal_decimalText, Nat.add_zero]
    rfl
  · rw [h.bytes, List.append_assoc, List.append_assoc]
  · simp only [h.pos, List.length_append]

end Stream

end OsLabs

import Mathlib.Data.Nat.Digits.Lemmas
import OsLabs.Util.Number

/-!
# get_number

The number formatter behind `printf`, with `int`, `long` and `unsigned` of 32 bits. `size` is
one counter for the sign, the prefix, the digits and three loops of padding, and each loop
leaves it one below where it stopped.
-/

namespace OsLabs.Klib
open Util

/-- An assertion that fails, a write outside `tmp`, `_halt` on ":", a format that ends too early, or an argument of
another type. -/
inductive StdioFault where
  | assert
  | tmp
  | halt
  | format
  | argument
  deriving DecidableEq, Repr

/-! The flags of a conversion. -/

namespace Flag

def zeropad : CInt := 1
def sign : CInt := 2
def plus : CInt := 4
def space : CInt := 8
def left : CInt := 16
def special : CInt := 32
def large : CInt := 64

end Flag

def has (type flag : CInt) : Bool := type &&& flag != 0

def digitSet (type : CInt) : List Byte :=
  if has type Flag.large then cstr "0123456789ABCDEFGHIJKLMNOPQRSTUVWXYZ" else cstr
    "0123456789abcdefghijklmnopqrstuvwxyz"

variable {num base size precision type i : CInt} {digits : List Byte}

theorem toInt_pred (positive : -2 ^ 31 < size.toInt) : (size - 1).toInt = size.toInt - 1 := by
  have top := size.toInt_lt
  rw [BitVec.toInt_sub, show (1 : CInt).toInt = 1 from rfl]
  exact Int.bmod_eq_of_le (by omega) (by omega)

/-- `while (size-- > 0) *str++ = c`: the bytes, and what is left in `size`. -/
def padLoop (c : Byte) (size : CInt) : List Byte × CInt :=
  if 0 < size.toInt then
    let (bytes, left) := padLoop c (size - 1)
    (c :: bytes, left)
  else ([], size - 1)
termination_by size.toInt.toNat
decreasing_by
  rw [toInt_pred (by omega)]
  omega

def zerosLoop (i precision : CInt) : List Byte :=
  if i.toInt < precision.toInt then 48 :: zerosLoop i (precision - 1) else []
termination_by (precision.toInt - i.toInt).toNat
decreasing_by
  have low := i.le_toInt
  rw [toInt_pred (by omega)]
  omega

/-- `while (num!=0) tmp[i++] = digits[div(&num,base)]`, with so many elements left in `tmp`. -/
def digitsLoop (digits : List Byte) (base : CInt) : Nat → CInt → Except StdioFault (List Byte)
  | 0, num => if num = 0 then .ok [] else .error .tmp
  | room + 1, num =>
    if num = 0 then .ok []
    else do
      let tmp ← digitsLoop digits base room (num / base)
      .ok (digits.getD (num % base).toNat 0 :: tmp)

/-! `get_number`, a block of its body at a time. -/

def takeSign (num size type : CInt) : Byte × CInt × CInt :=
  if has type Flag.sign then
    if num.toInt < 0 then (45, -num, size - 1)
    else if has type Flag.plus then (43, num, size - 1)
    else if has type Flag.space then (32, num, size - 1)
    else (0, num, size)
  else (0, num, size)

def takeSpecial (base size type : CInt) : CInt :=
  if has type Flag.special then
    if base = 16 then size - 2 else if base = 8 then size - 1 else size
  else size

/-- The digits in `tmp`, the last one first. -/
def takeDigits (digits : List Byte) (num base : CInt) : Except StdioFault (List Byte) :=
  if num = 0 then .ok [48] else digitsLoop digits base 128 num

/-- What is stored in `str`, from `if (i>precision)` on. -/
def putNumber (digits tmp : List Byte) (c sign : Byte) (base size precision type : CInt) : List Byte :=
  let i := BitVec.ofNat 32 tmp.length
  let precision := if precision.toInt < i.toInt then i else precision
  let size := size - precision
  let (spaces, size) := if !has type (Flag.zeropad + Flag.left) then padLoop 32 size else ([], size)
  let signs := if sign ≠ 0 then [sign] else []
  let mark :=
    if has type Flag.special then
      if base = 8 then [48] else if base = 16 then [48, digits.getD 33 0] else []
    else []
  let (fill, size) := if !has type Flag.left then padLoop c size else ([], size)
  let zeros := zerosLoop i precision
  -- while (i-- > 0) *str++ = tmp[i]
  spaces ++ signs ++ mark ++ fill ++ zeros ++ tmp.reverse ++ (padLoop 32 size).1

def getNumber (num base size precision type : CInt) : Except StdioFault (List Byte) := do
  let digits := digitSet type
  let type := if has type Flag.left then type &&& ~~~Flag.zeropad else type
  if base.toInt < 2 ∨ 36 < base.toInt then .error .assert
  else
    let c : Byte := if has type Flag.zeropad then 48 else 32
    let (sign, num, size) := takeSign num size type
    let size := takeSpecial base size type
    let tmp ← takeDigits digits num base
    .ok (putNumber digits tmp c sign base size precision type)

/-! ### The loops -/

theorem padLoop_eq (c : Byte) (size : CInt) :
    padLoop c size = (List.replicate size.toInt.toNat c, if 0 < size.toInt then -1 else size - 1) := by
  induction size using padLoop.induct c with
  | case1 size positive bytes left same ih =>
    rw [padLoop, if_pos positive, if_pos positive, ih, toInt_pred (by omega)]
    have count : size.toInt.toNat = (size.toInt - 1).toNat + 1 := by omega
    rw [count, List.replicate_succ]
    by_cases more : 0 < size.toInt - 1
    · rw [if_pos more]
    · have one : size = 1 := BitVec.eq_of_toInt_eq (by rw [show (1 : CInt).toInt = 1 from rfl]; omega)
      rw [if_neg more, one]
      rfl
  | case2 size done =>
    rw [padLoop, if_neg done, if_neg done, Int.toNat_of_nonpos (by omega)]
    rfl

theorem zerosLoop_eq (i precision : CInt) :
    zerosLoop i precision = List.replicate (precision.toInt - i.toInt).toNat 48 := by
  induction precision using zerosLoop.induct i with
  | case1 precision more ih =>
    have low := i.le_toInt
    rw [zerosLoop, if_pos more, ih, toInt_pred (by omega)]
    have count : (precision.toInt - i.toInt).toNat = (precision.toInt - 1 - i.toInt).toNat + 1 := by omega
    rw [count, List.replicate_succ]
  | case2 precision done => rw [zerosLoop, if_neg done, Int.toNat_of_nonpos (by omega), List.replicate_zero]

/-- The digits from the last one on, which is how `tmp` holds them. -/
theorem digitsLoop_eq (large : 2 ≤ base.toNat) {room : Nat} (enough : (Nat.digits base.toNat num.toNat).length ≤ room) :
    digitsLoop digits base room num = .ok ((Nat.digits base.toNat num.toNat).map fun d => digits.getD d 0) := by
  induction room generalizing num with
  | zero =>
    have zero : num = 0 := by
      have none := List.length_eq_zero_iff.mp (Nat.le_zero.mp enough)
      exact BitVec.eq_of_toNat_eq (Nat.digits_eq_nil_iff_eq_zero.mp none)
    rw [digitsLoop, if_pos zero, zero]
    simp
  | succ room ih =>
    rw [digitsLoop]
    by_cases zero : num = 0
    · rw [if_pos zero, zero]
      simp
    · have positive : 0 < num.toNat := Nat.pos_of_ne_zero fun none => zero (BitVec.eq_of_toNat_eq none)
      have split := Nat.digits_def' large positive
      rw [split, List.length_cons] at enough
      have rest := @ih (num / base) (by rw [BitVec.toNat_udiv]; omega)
      rw [if_neg zero, rest, split, BitVec.toNat_udiv, BitVec.toNat_umod]
      rfl

/-! ### The text -/

/-- What is printed in front of a number for its sign. -/
def signText (num type : CInt) : List Byte :=
  if has type Flag.sign then
    if num.toInt < 0 then cstr "-" else if has type Flag.plus then cstr "+" else if has type
      Flag.space then cstr " " else []
  else []

def prefixText (base type : CInt) : List Byte :=
  if has type Flag.special then
    if base = 8 then cstr "0" else if base = 16 then (if has type Flag.large then cstr "0X" else cstr "0x") else []
  else []

def printed (num type : CInt) : Nat := if has type Flag.sign then num.toInt.natAbs else num.toNat

def digitsText (num base type : CInt) : List Byte :=
  if printed num type = 0 then [48]
  else (Nat.digits base.toNat (printed num type)).reverse.map fun d => (digitSet type).getD d 0

def bareLength (num base precision type : CInt) : Int :=
  (signText num type).length + (prefixText base type).length + max precision.toInt (digitsText num base type).length

def gap (num base size precision type : CInt) : Nat := (size.toInt - bareLength num base precision type).toNat

/-- Spaces, the sign, the prefix, zeros, the digits, and spaces. -/
def formatted (num base size precision type : CInt) : List Byte :=
  let gap := gap num base size precision type
  let left := has type Flag.left
  let zeropad := has type Flag.zeropad
  List.replicate (if !left && !zeropad then gap else 0) 32 ++ signText num type ++ prefixText base type ++
    List.replicate
      ((if !left && zeropad then gap else 0) + (precision.toInt - (digitsText num base type).length).toNat) 48 ++
    digitsText num base type ++ List.replicate (if left then gap else 0) 32

/-! ### Flags -/

theorem has_or (type f g : CInt) : has type (f ||| g) = (has type f || has type g) := by
  unfold has
  rw [BitVec.and_or_distrib_left]
  by_cases first : type &&& f = 0
  · simp [first]
  · have either : ¬(type &&& f ||| type &&& g) = 0 := fun none => first (BitVec.or_eq_zero_iff.mp none).1
    rw [bne_iff_ne.mpr either, bne_iff_ne.mpr first, Bool.true_or]

theorem has_without {type f mask : CInt} (apart : mask &&& f = f) : has (type &&& mask) f = has type f := by
  rw [has, BitVec.and_assoc, apart]
  rfl

/-- The flags once ZEROPAD was cleared under LEFT. -/
def cleared (type : CInt) : CInt := if has type Flag.left then type &&& ~~~Flag.zeropad else type

theorem has_cleared {f : CInt} (apart : ~~~Flag.zeropad &&& f = f) : has (cleared type) f = has type f := by
  unfold cleared
  split
  · exact has_without apart
  · rfl

theorem zeropad_cleared : has (cleared type) Flag.zeropad = (!has type Flag.left && has type Flag.zeropad) := by
  unfold cleared
  split
  · rename_i left
    rw [left, has, BitVec.and_assoc, show ~~~Flag.zeropad &&& Flag.zeropad = 0#32 by decide, BitVec.and_zero]
    rfl
  · rename_i right
    rw [Bool.eq_false_iff.mpr right]
    simp

theorem either_cleared :
    has (cleared type) (Flag.zeropad + Flag.left) = (has type Flag.zeropad || has type Flag.left) := by
  rw [show Flag.zeropad + Flag.left =
    Flag.zeropad ||| Flag.left by decide, has_or, zeropad_cleared, has_cleared (by decide)]
  cases has type Flag.left <;> simp

/-! ### What is appended -/

theorem takeSign_eq (num size type : CInt) : ∃ sign value,
    takeSign num size (cleared type) = (sign, value, size - BitVec.ofNat 32 (signText num type).length) ∧
      (if sign ≠ 0 then [sign] else []) = signText num type ∧ value.toNat = printed num type := by
  unfold takeSign
  rw [has_cleared (by decide), has_cleared (by decide), has_cleared (by decide)]
  unfold signText printed
  by_cases signed : has type Flag.sign
  · simp only [signed, if_true]
    by_cases negative : num.toInt < 0
    · refine ⟨45, -num, by simp only [negative, if_true]; rfl, by simp only [negative, if_true]; rfl, ?_⟩
      have top := num.isLt
      rw [BitVec.toInt_eq_toNat_cond] at negative ⊢
      rw [BitVec.toNat_neg]
      split at negative <;> omega
    · have same : num.toNat = num.toInt.natAbs := by
        rw [BitVec.toInt_eq_toNat_cond] at negative ⊢
        split at negative <;> omega
      simp only [negative, if_false]
      by_cases plus : has type Flag.plus
      · simp only [plus, if_true]
        exact ⟨43, num, rfl, rfl, same⟩
      · by_cases space : has type Flag.space
        · simp only [plus, space, Bool.false_eq_true, if_true, if_false]
          exact ⟨32, num, rfl, rfl, same⟩
        · simp only [plus, space, Bool.false_eq_true, if_false]
          exact ⟨0, num, by simp, rfl, same⟩
  · simp only [signed, Bool.false_eq_true, if_false]
    exact ⟨0, num, by simp, rfl, rfl⟩

theorem takeSpecial_eq (base size type : CInt) :
    takeSpecial base size (cleared type) = size - BitVec.ofNat 32 (prefixText base type).length := by
  unfold takeSpecial
  rw [has_cleared (by decide)]
  unfold prefixText
  by_cases special : has type Flag.special
  · simp only [special, if_true]
    by_cases octal : base = 8
    · rw [octal]
      rfl
    · by_cases hex : base = 16
      · rw [hex]
        cases has type Flag.large <;> rfl
      · rw [if_neg hex, if_neg octal, if_neg octal, if_neg hex]
        exact (BitVec.sub_zero size).symm
  · simp [special]

theorem prefix_bytes (base type : CInt) :
    (if has type Flag.special then if base = 8 then [48] else if base = 16 then [48, (digitSet type).getD 33 0] else []
      else ([] : List Byte)) = prefixText base type := by
  unfold prefixText digitSet
  by_cases large : has type Flag.large
  · simp only [large, if_true]
    rfl
  · simp only [large, Bool.false_eq_true, if_false]
    rfl

theorem takeDigits_eq {value : CInt} (low : 2 ≤ base.toInt) (same : value.toNat = printed num type) :
    takeDigits (digitSet type) value base = .ok (digitsText num base type).reverse := by
  have large : 2 ≤ base.toNat := by
    rw [BitVec.toInt_eq_toNat_cond] at low
    split at low <;> omega
  unfold digitsText takeDigits
  rw [← same]
  by_cases zero : value = 0
  · rw [if_pos zero, if_pos (by rw [zero]; rfl)]
    rfl
  · have nonzero : value.toNat ≠ 0 := fun none => zero (BitVec.eq_of_toNat_eq none)
    have short : (Nat.digits base.toNat value.toNat).length ≤ 128 := by
      rw [Nat.digits_length_le_iff (by omega)]
      calc value.toNat < 2 ^ 32 := value.isLt
        _ ≤ 2 ^ 128 := Nat.pow_le_pow_right (by decide) (by decide)
        _ ≤ base.toNat ^ 128 := Nat.pow_le_pow_left large 128
    rw [if_neg zero, if_neg nonzero, digitsLoop_eq large short, List.map_reverse, List.reverse_reverse]

theorem digitsText_length (low : 2 ≤ base.toInt) :
    0 < (digitsText num base type).length ∧ (digitsText num base type).length ≤ 32 := by
  have large : 2 ≤ base.toNat := by
    rw [BitVec.toInt_eq_toNat_cond] at low
    split at low <;> omega
  have small : printed num type < 2 ^ 32 := by
    have top := num.isLt
    unfold printed
    split
    · rw [BitVec.toInt_eq_toNat_cond]
      split <;> omega
    · exact top
  unfold digitsText
  split
  · decide
  · rename_i nonzero
    rw [List.length_map, List.length_reverse, Nat.digits_length_le_iff (by omega)]
    refine ⟨List.length_pos_of_ne_nil fun none => nonzero (Nat.digits_eq_nil_iff_eq_zero.mp none), ?_⟩
    calc printed num type < 2 ^ 32 := small
      _ ≤ base.toNat ^ 32 := Nat.pow_le_pow_left large 32

/-- What the three loops of padding print when `size` is `rest` before the first of them. -/
def padding (type rest : CInt) : List Byte × List Byte × List Byte :=
  let left := has type Flag.left
  let zeropad := has type Flag.zeropad
  let (spaces, rest) := if !(zeropad || left) then padLoop 32 rest else ([], rest)
  let (fill, rest) := if !left then padLoop (if !left && zeropad then 48 else 32) rest else ([], rest)
  (spaces, fill, (padLoop 32 rest).1)

/-- `precision` once it is at least the number of digits. -/
def precisionOf (num base precision type : CInt) : CInt :=
  if precision.toInt < (digitsText num base type).length then BitVec.ofNat 32
    (digitsText num base type).length else precision

/-- `size` behind the sign, the prefix and the digits. -/
def restOf (num base size precision type : CInt) : CInt :=
  size - BitVec.ofNat 32 (signText num type).length - BitVec.ofNat 32 (prefixText base type).length -
    precisionOf num base precision type

theorem getNumber_eq (low : 2 ≤ base.toInt) (high : base.toInt ≤ 36) : getNumber num base size precision type =
    let p := padding type (restOf num base size precision type)
    .ok (p.1 ++ signText num type ++ prefixText base type ++ p.2.1 ++
      List.replicate (precision.toInt - (digitsText num base type).length).toNat 48 ++
        digitsText num base type ++ p.2.2) := by
  obtain ⟨sign, value, taken, signs, same⟩ := takeSign_eq num size type
  have guard : ¬(base.toInt < 2 ∨ 36 < base.toInt) := by omega
  have kept : (if has type Flag.left then type &&& ~~~Flag.zeropad else type) = cleared type := rfl
  simp only [getNumber, kept, if_neg guard, taken, takeSpecial_eq, takeDigits_eq low same, bind, Except.bind]
  apply congrArg Except.ok
  obtain ⟨-, short⟩ := @digitsText_length num base type low
  have count : (BitVec.ofNat 32 (digitsText num base type).length : CInt).toInt =
      (digitsText num base type).length := by
    rw [BitVec.toInt_ofNat']
    exact Int.bmod_eq_of_le (by omega) (by omega)
  have zeros : zerosLoop (BitVec.ofNat 32 (digitsText num base type).length) (precisionOf num base precision type) =
      List.replicate (precision.toInt - (digitsText num base type).length).toNat 48 := by
    rw [zerosLoop_eq, count, precisionOf]
    split
    · rw [count, Int.sub_self, Int.toNat_of_nonpos (show precision.toInt - _ ≤ 0 by omega)]
      rfl
    · rfl
  unfold putNumber
  simp only [has_cleared (f := Flag.special) (by decide), has_cleared (f := Flag.left) (by decide), zeropad_cleared,
    either_cleared, prefix_bytes, signs, List.length_reverse, List.reverse_reverse, count]
  rw [← zeros]
  rfl

/-! ### Where `size` does not wrap around -/

theorem padLoop_bytes (c : Byte) (size : CInt) : (padLoop c size).1 = List.replicate size.toInt.toNat c := by
  rw [padLoop_eq]

theorem padLoop_left (c : Byte) (room : -2 ^ 31 < size.toInt) : (padLoop c size).2.toInt = min size.toInt 0 - 1 := by
  rw [padLoop_eq]
  dsimp only
  split
  · rename_i positive
    rw [Int.min_eq_right (Int.le_of_lt positive)]
    rfl
  · rename_i done
    rw [toInt_pred room, Int.min_eq_left (Int.not_lt.mp done)]

/-- How often `size` is decremented below 0 before the last comparison with it. -/
def decrements (type : CInt) : Int := if has type Flag.left then 0 else if has type Flag.zeropad then 1 else 2

/-- One of the three loops prints the whole padding. -/
theorem padding_eq {rest : CInt} (room : -2 ^ 31 + decrements type ≤ rest.toInt) : padding type rest =
    (List.replicate (if !has type Flag.left && !has type Flag.zeropad then rest.toInt.toNat else 0) 32,
      List.replicate (if !has type Flag.left && has type Flag.zeropad then rest.toInt.toNat else 0) 48,
      List.replicate (if has type Flag.left then rest.toInt.toNat else 0) 32) := by
  unfold decrements at room
  unfold padding
  by_cases left : has type Flag.left
  · simp [left, padLoop_bytes]
  · by_cases zeropad : has type Flag.zeropad
    · simp only [left, zeropad, Bool.false_eq_true, if_true, if_false] at room
      have after := @padLoop_left rest 48 (by omega)
      simp only [left, zeropad, padLoop_bytes, Bool.not_true, Bool.not_false, Bool.true_or, Bool.false_eq_true,
        Bool.and_self, Bool.and_false, if_true, if_false, List.replicate_zero, Prod.mk.injEq, true_and]
      rw [Int.toNat_of_nonpos (by omega), List.replicate_zero]
    · simp only [left, zeropad, Bool.false_eq_true, if_false] at room
      have after := @padLoop_left rest 32 (by omega)
      have twice := @padLoop_left (padLoop 32 rest).2 32 (by omega)
      simp [left, zeropad, padLoop_bytes]
      omega

theorem signText_length : (signText num type).length ≤ 1 := by
  unfold signText
  split
  · split
    · decide
    · split
      · decide
      · split <;> decide
  · decide

theorem prefixText_length : (prefixText base type).length ≤ 2 := by
  unfold prefixText
  split
  · split
    · decide
    · split
      · split <;> decide
      · decide
  · decide

theorem toInt_ofNat_small {n : Nat} (small : n < 2 ^ 31) : (BitVec.ofNat 32 n : CInt).toInt = n := by
  rw [BitVec.toInt_ofNat']
  exact Int.bmod_eq_of_le (by omega) (by omega)

theorem toInt_sub_small {x y : CInt} (positive : 0 ≤ y.toInt) (room : -2 ^ 31 ≤ x.toInt - y.toInt) :
    (x - y).toInt = x.toInt - y.toInt := by
  have top := x.toInt_lt
  rw [BitVec.toInt_sub]
  exact Int.bmod_eq_of_le (by omega) (by omega)

theorem restOf_toInt (low : 2 ≤ base.toInt) (room : -2 ^ 31 ≤ size.toInt - bareLength num base precision type) :
    (restOf num base size precision type).toInt = size.toInt - bareLength num base precision type := by
  unfold bareLength at room ⊢
  obtain ⟨some_digit, short⟩ := @digitsText_length num base type low
  have one := @signText_length num type
  have two := @prefixText_length base type
  have digits : (precisionOf num base precision type).toInt = max precision.toInt
      (digitsText num base type).length := by
    unfold precisionOf
    split
    · rw [toInt_ofNat_small (by omega)]
      omega
    · omega
  have first := toInt_ofNat_small (n := (signText num type).length) (by omega)
  have second := toInt_ofNat_small (n := (prefixText base type).length) (by omega)
  have behindSign := @toInt_sub_small size (BitVec.ofNat 32 (signText num type).length) (by omega) (by omega)
  have behindPrefix := @toInt_sub_small (size - BitVec.ofNat 32 (signText num type).length)
    (BitVec.ofNat 32 (prefixText base type).length) (by omega) (by omega)
  rw [restOf, toInt_sub_small (by omega) (by omega)]
  omega

theorem formatted_length : ((formatted num base size precision type).length : Int) =
    max size.toInt ((signText num type).length + (prefixText base type).length +
      max precision.toInt (digitsText num base type).length) := by
  unfold formatted gap bareLength
  simp only [List.length_append, List.length_replicate]
  cases has type Flag.left <;> cases has type Flag.zeropad <;> simp <;> omega

/-- **The text is as expected, and as long, unless the counter for the padding wraps around.** -/
theorem getNumber_formatted (low : 2 ≤ base.toInt) (high : base.toInt ≤ 36)
    (room : -2 ^ 31 + decrements type ≤ size.toInt - bareLength num base precision type) :
    getNumber num base size precision type = .ok (formatted num base size precision type) ∧
      ((formatted num base size precision type).length : Int) =
        max size.toInt ((signText num type).length + (prefixText base type).length +
          max precision.toInt (digitsText num base type).length) := by
  refine ⟨?_, formatted_length⟩
  have positive : 0 ≤ decrements type := by
    unfold decrements
    split
    · decide
    · split <;> decide
  have rest := @restOf_toInt num base size precision type low (by omega)
  rw [getNumber_eq low high, padding_eq (by omega), rest]
  unfold formatted gap
  simp only [List.append_assoc, List.replicate_add]

/-- The smallest number in a field of 12 characters, with a sign. -/
theorem getNumber_formatted_sample :
    getNumber (-2147483648) 10 12 (-1) Flag.sign = .ok (cstr " -2147483648") := by
  have room : (-2 ^ 31 + decrements Flag.sign : Int) ≤ (12 : CInt).toInt - bareLength (-2147483648) 10
      (-1) Flag.sign := by decide +kernel
  have text : formatted (-2147483648) 10 12 (-1) Flag.sign = cstr " -2147483648" := by decide +kernel
  rw [(getNumber_formatted (by decide) (by decide) room).1, text]

/-- A field and a precision near the bound: `size` wraps around below the smallest `int`, and 2^31 - 1 spaces follow. -/
theorem getNumber_counterexample : ¬∀ num base size precision type : CInt, 2 ≤ base.toInt → base.toInt ≤ 36 →
    |size.toInt| < 2 ^ 30 → |precision.toInt| < 2 ^ 30 →
      getNumber num base size precision type = .ok (formatted num base size precision type) := by
  intro all
  have expected := all (-1) 10 (-(2 ^ 30 - 1)) (2 ^ 30 - 1) Flag.sign (by decide) (by decide) (by decide) (by decide)
  have rest : restOf (-1) 10 (-(2 ^ 30 - 1)) (2 ^ 30 - 1) Flag.sign = -(2 ^ 31 - 1) := by decide +kernel
  have spaces : padding Flag.sign (-(2 ^ 31 - 1)) = ([], [], List.replicate (2 ^ 31 - 1) 32) := by
    have left : has Flag.sign Flag.left = false := by decide
    have zeropad : has Flag.sign Flag.zeropad = false := by decide
    simp only [padding, left, zeropad, padLoop_eq]
    rfl
  rw [getNumber_eq (by decide) (by decide), rest, spaces] at expected
  have lengths := congrArg (fun text => (text.length : Int)) (Except.ok.inj expected)
  have digit : (digitsText (-1) 10 Flag.sign).length = 1 := by decide +kernel
  have sign : (signText (-1) Flag.sign).length = 1 := by decide +kernel
  have mark : (prefixText 10 Flag.sign).length = 0 := by decide +kernel
  simp only [formatted_length, List.length_append, List.length_replicate, digit, sign, mark] at lengths
  exact absurd lengths (by decide)

end OsLabs.Klib

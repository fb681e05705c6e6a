import OsLabs.Klib.Number

/-!
# vsprintf

The formats of klib, on a machine with `int`, `long` and pointers of 32 bits. An argument is
a word or a string. The characters that are printed, and what `%n` stores.
-/

namespace OsLabs.Klib
open Util

inductive Arg where
  | word (value : CInt)
  | string (text : List Byte)
  deriving DecidableEq, Repr

/-- `va_arg(args, int)`, and the other types of a word. -/
def vaWord : List Arg → Except StdioFault (CInt × List Arg)
  | .word value :: args => .ok (value, args)
  | _ => .error .argument

def vaString : List Arg → Except StdioFault (List Byte × List Arg)
  | .string text :: args => .ok (text, args)
  | _ => .error .argument

/-- `my_atoi`: the number, and the format behind its last digit. -/
def myAtoi : List Byte → CInt → CInt × List Byte
  | [], i => (i, [])
  | ch :: fmt, i => if isdigit ch then myAtoi fmt (i * 10 + ofChar ch - 48) else (i, ch :: fmt)

/-- `flags`, `field_width`, `precision` and `qualifier`. -/
structure Directive where
  flags : CInt
  fieldWidth : CInt
  precision : CInt
  qualifier : Option Byte
  deriving DecidableEq, Repr

def Directive.flag (d : Directive) (f : CInt) : Directive := { d with flags := d.flags ||| f }

theorem myAtoi_length {fmt : List Byte} {i : CInt} : (myAtoi fmt i).2.length ≤ fmt.length := by
  induction fmt generalizing i with
  | nil => exact Nat.le_refl _
  | cons ch fmt ih =>
    rw [myAtoi]
    split
    · exact Nat.le_succ_of_le ih
    · exact Nat.le_refl _

theorem myAtoi_shorter {ch : Byte} {fmt : List Byte} {i : CInt} (digit : isdigit ch = true) :
    (myAtoi (ch :: fmt) i).2.length < (ch :: fmt).length := by
  rw [myAtoi, if_pos digit]
  exact Nat.lt_succ_of_le myAtoi_length

/-- The code behind the label `repeat`, on the format behind `++fmt`: what the directive says, the character that ends
it and the format behind this. -/
def parseDirective (fmt : List Byte) (d : Directive) (args : List Arg) :
    Except StdioFault (Directive × Byte × List Byte × List Arg) :=
  match fmt with
  | [] => .error .assert
  | ch :: rest =>
    if ch = 58 then .error .halt
    else if ch = 45 then parseDirective rest (d.flag Flag.left) args
    else if ch = 43 then parseDirective rest (d.flag Flag.plus) args
    else if ch = 32 then parseDirective rest (d.flag Flag.space) args
    else if ch = 35 then parseDirective rest (d.flag Flag.special) args
    else if ch = 48 then parseDirective rest (d.flag Flag.zeropad) args
    else if _digit : isdigit ch then
      parseDirective (myAtoi (ch :: rest) 0).2 { d with fieldWidth := (myAtoi (ch :: rest) 0).1 } args
    else if ch = 42 then
      match vaWord args with
      | .error fault => .error fault
      | .ok (width, args) =>
        if width.toInt < 0 then parseDirective rest { d.flag Flag.left with fieldWidth := -width } args
        else parseDirective rest { d with fieldWidth := width } args
    else if ch = 46 then
      match rest with
      | [] => .error .format
      | next :: behind =>
        let atLeast (precision : CInt) : Directive :=
          { d with precision := if precision.toInt < 0 then 0 else precision }
        if _number : isdigit next then parseDirective (myAtoi (next :: behind) 0).2
          (atLeast (myAtoi (next :: behind) 0).1) args
        else if next = 42 then
          match vaWord args with
          | .error fault => .error fault
          | .ok (precision, args) => parseDirective behind (atLeast precision) args
        -- `goto repeat` skips the character behind the dot
        else parseDirective behind (atLeast d.precision) args
    else if ch = 104 ∨ ch = 108 ∨ ch = 76 then parseDirective rest { d with qualifier := some ch } args
    else .ok (d, ch, rest, args)
termination_by fmt.length
decreasing_by
  all_goals first
    | exact Nat.lt_succ_self _
    | exact myAtoi_shorter (by assumption)
    | exact Nat.lt_succ_of_lt (myAtoi_shorter (by assumption))
    | exact Nat.lt_succ_of_lt (Nat.lt_succ_self _)

/-- `while (--field_width>0) *str++ = ' '`: the spaces, and what is left in `field_width`. -/
def padBefore (width : CInt) : List Byte × CInt := ((padLoop 32 (width - 1)).1, (padLoop 32 (width - 1)).2 + 1)

/-- What a conversion prints, the arguments behind it, and what it stores through `%n`. -/
structure Converted where
  text : List Byte
  args : List Arg
  stores : List (CInt × CInt)
  deriving DecidableEq, Repr

/-- `strnlen(s, precision)`, for a precision that becomes a `size_t`. -/
def strnlen (s : List Byte) (precision : CInt) : Nat := min s.length precision.toNat

/-- The number for the conversions that `get_number` prints: `num` is an unsigned of 32 bits. -/
def vaNumber (d : Directive) (args : List Arg) : Except StdioFault (CInt × List Arg) := do
  let (value, args) ← vaWord args
  if d.qualifier = some 104 then
    let short := value.setWidth 16
    .ok (if has d.flags Flag.sign then short.signExtend 32 else short.setWidth 32, args)
  else .ok (value, args)

/-- The behaviour for the character that ends a directive, with so many characters printed before. -/
def convert (d : Directive) (ch : Byte) (args : List Arg) (printed : Nat) : Except StdioFault Converted :=
  let number (base : CInt) (d : Directive) : Except StdioFault Converted := do
    let (num, args) ← vaNumber d args
    .ok ⟨← getNumber num base d.fieldWidth d.precision d.flags, args, []⟩
  let padded (c : Byte) (args : List Arg) : Converted :=
    let (front, width) := if has d.flags Flag.left then ([], d.fieldWidth) else padBefore d.fieldWidth
    ⟨front ++ [c] ++ (padBefore width).1, args, []⟩
  if ch = 99 then do
    let (c, args) ← vaWord args
    .ok (padded (UInt8.ofBitVec (c.setWidth 8)) args)
  else if ch = 115 then do
    let (s, args) ← vaString args
    let len := strnlen s d.precision
    let blank := List.replicate (d.fieldWidth.toInt - len).toNat 32
    if has d.flags Flag.left then .ok ⟨s.take len ++ blank, args, []⟩ else .ok ⟨blank ++ s.take len, args, []⟩
  else if ch = 112 then do
    let d := d.flag Flag.special
    let d := if d.fieldWidth = -1 then { d with fieldWidth := 8 }.flag Flag.zeropad else d
    let (pointer, args) ← vaWord args
    .ok ⟨← getNumber pointer 16 d.fieldWidth d.precision d.flags, args, []⟩
  else if ch = 110 then do
    let (ip, args) ← vaWord args
    .ok ⟨[], args, [(ip, BitVec.ofNat 32 printed)]⟩
  else if ch = 37 then .ok (padded 37 args)
  else if ch = 111 then number 8 d
  else if ch = 88 then number 16 (d.flag Flag.large)
  else if ch = 120 then number 16 d
  else if ch = 100 ∨ ch = 105 then number 10 (d.flag Flag.sign)
  else if ch = 117 then number 10 d
  else .error .assert

theorem parseDirective_shorter {fmt rest : List Byte} {d d' : Directive} {args args' : List Arg} {ch : Byte}
    (done : parseDirective fmt d args = .ok (d', ch, rest, args')) : rest.length < fmt.length := by
  fun_induction parseDirective fmt d args with
  | case1 | case2 | case9 | case12 | case14 => cases done
  | case3 | case4 | case5 | case6 | case7 | case10 | case11 =>
    rename_i ih
    exact Nat.lt_succ_of_lt (ih done)
  | case8 =>
    rename_i digit ih
    exact Nat.lt_trans (ih done) (myAtoi_shorter digit)
  | case13 =>
    rename_i ih
    exact Nat.lt_succ_of_lt (Nat.lt_trans (ih done) (myAtoi_shorter (by assumption)))
  | case15 | case16 =>
    rename_i ih
    exact Nat.lt_succ_of_lt (Nat.lt_succ_of_lt (ih done))
  | case17 =>
    rename_i ih
    exact Nat.lt_succ_of_lt (ih done)
  | case18 =>
    obtain ⟨-, -, rfl, -⟩ := Except.ok.inj done
    exact Nat.lt_succ_self _

/-- The loop of `vsprintf`, with what was printed and stored so far. -/
def vsprintfLoop (fmt : List Byte) (args : List Arg) (out : List Byte) (stores : List (CInt × CInt)) :
    Except StdioFault (List Byte × List (CInt × CInt)) :=
  match fmt with
  | [] => .ok (out, stores)
  | ch :: fmt =>
    if ch = 37 then
      match _parsed : parseDirective fmt ⟨0, -1, -1, none⟩ args with
      | .error fault => .error fault
      | .ok (d, ch, rest, args) =>
        match convert d ch args out.length with
        | .error fault => .error fault
        | .ok c => vsprintfLoop rest c.args (out ++ c.text) (stores ++ c.stores)
    else vsprintfLoop fmt args (out ++ [ch]) stores
termination_by fmt.length
decreasing_by
  · exact Nat.lt_succ_of_lt (parseDirective_shorter (by assumption))
  · exact Nat.lt_succ_self _

theorem vsprintfLoop_directive {fmt rest out : List Byte} {args args' : List Arg} {stores : List (CInt × CInt)}
    {d : Directive} {ch : Byte} {c : Converted}
    (parsed : parseDirective fmt ⟨0, -1, -1, none⟩ args = .ok (d, ch, rest, args'))
    (converted : convert d ch args' out.length = .ok c) :
    vsprintfLoop (37 :: fmt) args out stores = vsprintfLoop rest c.args (out ++ c.text) (stores ++ c.stores) := by
  rw [vsprintfLoop, if_pos rfl]
  split
  · rename_i failed
    cases parsed.symm.trans failed
  · rename_i same
    obtain ⟨rfl, rfl, rfl, rfl⟩ := Except.ok.inj (parsed.symm.trans same)
    rw [converted]

theorem vsprintfLoop_plain {fmt out : List Byte} {args : List Arg} {stores : List (CInt × CInt)} {ch : Byte}
    (plain : ch ≠ 37) :
    vsprintfLoop (ch :: fmt) args out stores = vsprintfLoop fmt args (out ++ [ch]) stores := by
  rw [vsprintfLoop, if_neg plain]

def vsprintf (fmt : List Byte) (args : List Arg) : Except StdioFault (List Byte × List (CInt × CInt)) :=
  vsprintfLoop fmt args [] []

/-- The characters that `sprintf` leaves in front of the terminating zero. -/
def sprintf (fmt : List Byte) (args : List Arg) : Except StdioFault (List Byte) := do
  let (out, _) ← vsprintf fmt args
  .ok out

end OsLabs.Klib

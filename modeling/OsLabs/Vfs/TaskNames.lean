import OsLabs.Klib.Stdio
import OsLabs.Util.Decimal
import OsLabs.Vfs.Procfs

/-!
# The names of the tasks

`procfs_inode_read` lists the tasks with `%d`, and `procfs_lookup` reads the number back with
`atoi`.
-/

namespace OsLabs.Vfs
open Kmt Util Klib

variable {n : CInt}

/-! ### What `%d` prints -/

def signedText (n : CInt) : List Byte := (if n.toInt < 0 then [45] else []) ++ decimalText n.toInt.natAbs

theorem signText_plain : signText n Flag.sign = if n.toInt < 0 then [45] else [] := by
  unfold signText
  rw [if_pos (by decide), if_neg (show ¬has Flag.sign Flag.plus = true by decide),
    if_neg (show ¬has Flag.sign Flag.space = true by decide)]
  rfl

theorem digitsText_plain : digitsText n 10 Flag.sign = decimalText n.toInt.natAbs := by
  unfold digitsText decimalText
  rw [show printed n Flag.sign = n.toInt.natAbs from if_pos (by decide)]
  split
  · rfl
  · apply List.map_congr_left
    intro d mem
    have table : ∀ d < 10, (digitSet Flag.sign).getD d 0 = digitChar d := by decide +kernel
    exact table d (Nat.digits_lt_base (by decide) (List.mem_reverse.mp mem))

theorem getNumber_plain (n : CInt) : getNumber n 10 (-1) (-1) Flag.sign = .ok (signedText n) := by
  have one := @signText_length n Flag.sign
  have none : prefixText 10 Flag.sign = [] := if_neg (by decide)
  obtain ⟨some_digit, short⟩ := @digitsText_length n 10 Flag.sign (by decide)
  have small : (-1 : CInt).toInt = -1 := by decide
  have room : -2 ^ 31 + decrements Flag.sign ≤ (-1 : CInt).toInt - bareLength n 10 (-1) Flag.sign := by
    rw [small, show decrements Flag.sign = 2 by decide, bareLength, none, small, List.length_nil]
    omega
  have full : gap n 10 (-1) (-1) Flag.sign = 0 := by
    rw [gap, small, bareLength, none, small, List.length_nil]
    omega
  rw [(getNumber_formatted (by decide) (by decide) room).1, formatted]
  simp only [full, none, small, signText_plain, digitsText_plain, signedText]
  rw [Int.toNat_of_nonpos (by omega)]
  simp

theorem vaNumber_plain (d : Directive) (args : List Arg) (plain : d.qualifier = none) :
    vaNumber d (.word n :: args) = .ok (n, args) := by
  rw [vaNumber, plain]
  rfl

theorem vsprintfLoop_int (fmt : List Byte) (args : List Arg) (out : List Byte) (stores : List (CInt × CInt)) :
    vsprintfLoop (37 :: 100 :: fmt) (.word n :: args) out stores = vsprintfLoop fmt args
    (out ++ signedText n) stores := by
  have parsed : parseDirective (100 :: fmt) ⟨0, -1, -1, none⟩ (.word n :: args) =
      .ok (⟨0, -1, -1, none⟩, 100, fmt, .word n :: args) := by
    rw [parseDirective.eq_def]
    simp [isdigit]
  have converted : convert ⟨0, -1, -1, none⟩ 100 (.word n :: args) out.length = .ok ⟨signedText n, args, []⟩ := by
    have made : getNumber n 10#32 4294967295#32 4294967295#32 Flag.sign = .ok (signedText n) := getNumber_plain n
    simp [convert, Directive.flag, vaNumber_plain, made, bind, Except.bind]
  rw [vsprintfLoop_directive parsed converted, List.append_nil]

theorem sprintf_int (n : CInt) : sprintf (cstr "%d") [.word n] = .ok (signedText n) := by
  have looped := vsprintfLoop_int (n := n) [] [] [] []
  rw [vsprintfLoop] at looped
  show (do let r ← vsprintfLoop [37, 100] [.word n] [] []; Except.ok r.1) = _
  rw [looped]
  rfl

/-- The line that `procfs_inode_read` appends for a task. -/
theorem sprintf_line (n : CInt) : sprintf (cstr "%d\n") [.word n] = .ok (signedText n ++ [10]) := by
  have last : vsprintfLoop [10] [] (signedText n) [] = .ok (signedText n ++ [10], []) := by
    rw [vsprintfLoop_plain (by decide), vsprintfLoop]
  have looped := vsprintfLoop_int (n := n) [10] [] [] []
  rw [List.nil_append, last] at looped
  show (do let r ← vsprintfLoop [37, 100, 10] [.word n] [] []; Except.ok r.1) = _
  rw [looped]
  rfl

/-! ### What `atoi` reads -/

/-- Every number is read back, the smallest one by wrapping around. -/
theorem atoi_signedText (n : CInt) : atoi (signedText n) = n := by
  have top := n.isLt
  unfold signedText
  by_cases negative : n.toInt < 0
  · have value : BitVec.ofNat 32 n.toInt.natAbs = -n := by
      apply BitVec.eq_of_toNat_eq
      rw [BitVec.toNat_ofNat, BitVec.toNat_neg]
      rw [BitVec.toInt_eq_toNat_cond] at negative ⊢
      split at negative <;> omega
    rw [if_pos negative]
    show atoiLoop (decimalText n.toInt.natAbs) 0 * (-1) = n
    rw [atoiLoop_decimalText, value, BitVec.mul_neg]
    simp
  · have value : BitVec.ofNat 32 n.toInt.natAbs = n := by
      apply BitVec.eq_of_toNat_eq
      rw [BitVec.toNat_ofNat]
      rw [BitVec.toInt_eq_toNat_cond] at negative ⊢
      split at negative <;> omega
    rw [if_neg negative, List.nil_append, atoi_digits fun ch mem => decimalText_isdigit ch mem,
      decimal_decimalText, value]

theorem isnum_signedText (positive : 0 ≤ n.toInt) : isnum (signedText n) = true := by
  rw [signedText, if_neg (Int.not_lt.mpr positive), List.nil_append]
  exact List.all_eq_true.mpr decimalText_isdigit

/-! ### The tasks -/

variable {Cpu Sem Ctx : Type} {texts : ProcTexts Cpu} {k : Kernel Cpu Sem Ctx} {i : Nat}

def taskNumbers (k : Kernel Cpu Sem Ctx) : List Nat := (List.range maxTask).filter fun i => (k.tasks i).isSome

/-- What is listed: the lines that `sprintf` makes of the numbers. -/
theorem procfsInodeRead_root {inode : ProcInode} (root : inode.id = 0) :
    ∃ buf, procfsInodeRead texts k inode = .ok (some buf) ∧
    cstr buf = cstr ".\n..\ncpuinfo\nmeminfo\n" ++ (taskNumbers k).flatMap fun i => decimalText i ++ [10] := by
  have lines (numbers : List Nat) (buf : String) :
      cstr (numbers.foldl (fun buf i => buf ++ toString i ++ "\n") buf) =
        cstr buf ++ numbers.flatMap fun i => decimalText i ++ [10] := by
    induction numbers generalizing buf with
    | nil => simp
    | cons i numbers ih =>
      have line : cstr (buf ++ toString i ++ "\n") = cstr buf ++ (decimalText i ++ [10]) := by
        rw [← cstr_toString]
        simp [cstr]
      rw [List.foldl_cons, ih, line, List.flatMap_cons, List.append_assoc]
  unfold procfsInodeRead
  rw [root]
  exact ⟨_, rfl, lines _ _⟩

theorem signedText_small (small : i < maxTask) : signedText (BitVec.ofNat 32 i) = decimalText i := by
  have bound : i < 1024 := small
  rw [signedText, toInt_ofNat_small (by omega), if_neg (by omega)]
  rfl

theorem procfsLookup_decimalText {t : TaskPtr Cpu} (small : i < maxTask) (slot : k.tasks i = some t) :
    procfsLookup k (decimalText i) = .ok (some (procInode 3 .nf 0 (some (decimalText i)))) ∧
      procfsInodeRead texts k (procInode 3 .nf 0 (some (decimalText i))) = .ok (some (describe texts k t)) := by
  have bound : i < 1024 := small
  have index : taskIndex (decimalText i) = i := by
    rw [taskIndex_small (by rw [decimal_decimalText]; exact small), decimal_decimalText]
  have range : 0 ≤ taskIndex (decimalText i) ∧ taskIndex (decimalText i) < maxTask := by
    rw [index]
    exact ⟨Int.natCast_nonneg i, Int.ofNat_lt.mpr small⟩
  rw [procfsLookup_digits decimalText_ne_nil decimalText_isdigit,
    procfsInodeRead_digits decimalText_isdigit, if_pos range,
    if_pos range, index, Int.toNat_natCast, slot]
  exact ⟨rfl, rfl⟩

/-- **Every number is read back by `atoi` from what `%d` prints, the numbers from 0 on are made of digits, and every
task that is listed is looked up again by its line.** -/
theorem sprintf_atoi (texts : ProcTexts Cpu) (k : Kernel Cpu Sem Ctx) (n : CInt) :
    (∃ s, sprintf (cstr "%d") [.word n] = .ok s ∧ atoi s = n ∧ (0 ≤ n.toInt → isnum s = true)) ∧
    ∀ inode : ProcInode, inode.id = 0 → ∃ (buf : String) (name : Nat → List Byte), procfsInodeRead texts k inode =
    .ok (some buf) ∧
      cstr buf = cstr ".\n..\ncpuinfo\nmeminfo\n" ++ (taskNumbers k).flatMap (fun i => name i ++ [10]) ∧
      ∀ i ∈ taskNumbers k, sprintf (cstr "%d\n") [.word (BitVec.ofNat 32 i)] = .ok (name i ++ [10]) ∧
        ∃ t task, k.tasks i = some t ∧ procfsLookup k (name i) = .ok (some task) ∧
          procfsInodeRead texts k task = .ok (some (describe texts k t)) := by
  refine ⟨⟨signedText n, sprintf_int n, atoi_signedText n, isnum_signedText⟩, fun inode root => ?_⟩
  obtain ⟨buf, read, listed⟩ := @procfsInodeRead_root _ _ _ texts k inode root
  refine ⟨buf, decimalText, read, listed, fun i mem => ?_⟩
  obtain ⟨inside, used⟩ := List.mem_filter.mp mem
  have small := List.mem_range.mp inside
  obtain ⟨t, slot⟩ := Option.isSome_iff_exists.mp used
  obtain ⟨found, described⟩ := @procfsLookup_decimalText _ _ _ texts k i t small slot
  refine ⟨?_, t, _, slot, found, described⟩
  rw [sprintf_line, signedText_small small]

end OsLabs.Vfs

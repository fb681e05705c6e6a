import OsLabs.Util.Number

/-!
# Key codes

`input_keydown`: the modifiers follow the codes of their keys, and any other key that
goes down pushes the character of `keymap` or of `keymap_shift`. The guard looks at
`keymap` alone, and `RETURN` has no character in the other table.
-/

namespace OsLabs.Devices
open Util

inductive AmKey where
  | none | escape
  | f1 | f2 | f3 | f4 | f5 | f6 | f7 | f8 | f9 | f10 | f11 | f12
  | grave | key1 | key2 | key3 | key4 | key5 | key6 | key7 | key8 | key9 | key0
  | minus | equals | backspace
  | tab | keyQ | keyW | keyE | keyR | keyT | keyY | keyU | keyI | keyO | keyP
  | leftbracket | rightbracket | backslash
  | capslock | keyA | keyS | keyD | keyF | keyG | keyH | keyJ | keyK | keyL
  | semicolon | apostrophe | keyReturn
  | lshift | keyZ | keyX | keyC | keyV | keyB | keyN | keyM
  | comma | period | slash | rshift
  | lctrl | application | lalt | space | ralt | rctrl
  | up | down | left | right | insert | delete
  | home | keyEnd | pageup | pagedown
  deriving DecidableEq, Repr

def AmKey.code (key : AmKey) : Nat := key.ctorIdx

/-! ### The two tables -/

def keymapChars : List (AmKey × Char) := [
  (.key0, '0'), (.key1, '1'), (.key2, '2'), (.key3, '3'), (.key4, '4'),
  (.key5, '5'), (.key6, '6'), (.key7, '7'), (.key8, '8'), (.key9, '9'),
  (.grave, Char.ofNat 96), (.minus, '-'), (.equals, '='),
  (.leftbracket, '['), (.rightbracket, ']'), (.backslash, '\\'),
  (.semicolon, ';'), (.apostrophe, Char.ofNat 39), (.keyReturn, '\n'),
  (.comma, ','), (.period, '.'), (.slash, '/'), (.space, ' '), (.backspace, Char.ofNat 8),
  (.keyA, 'a'), (.keyB, 'b'), (.keyC, 'c'), (.keyD, 'd'), (.keyE, 'e'), (.keyF, 'f'), (.keyG, 'g'),
  (.keyH, 'h'), (.keyI, 'i'), (.keyJ, 'j'), (.keyK, 'k'), (.keyL, 'l'), (.keyM, 'm'), (.keyN, 'n'),
  (.keyO, 'o'), (.keyP, 'p'), (.keyQ, 'q'), (.keyR, 'r'), (.keyS, 's'), (.keyT, 't'), (.keyU, 'u'),
  (.keyV, 'v'), (.keyW, 'w'), (.keyX, 'x'), (.keyY, 'y'), (.keyZ, 'z')]

def keymapShiftChars : List (AmKey × Char) := [
  (.key0, ')'), (.key1, '!'), (.key2, '@'), (.key3, '#'), (.key4, '$'),
  (.key5, '%'), (.key6, '^'), (.key7, '&'), (.key8, '*'), (.key9, '('),
  (.grave, '~'), (.minus, '_'), (.equals, '+'),
  (.leftbracket, '{'), (.rightbracket, '}'), (.backslash, '|'),
  (.semicolon, ':'), (.apostrophe, Char.ofNat 34),
  (.comma, '<'), (.period, '>'), (.slash, '?'), (.space, ' '), (.backspace, Char.ofNat 8),
  (.keyA, 'A'), (.keyB, 'B'), (.keyC, 'C'), (.keyD, 'D'), (.keyE, 'E'), (.keyF, 'F'), (.keyG, 'G'),
  (.keyH, 'H'), (.keyI, 'I'), (.keyJ, 'J'), (.keyK, 'K'), (.keyL, 'L'), (.keyM, 'M'), (.keyN, 'N'),
  (.keyO, 'O'), (.keyP, 'P'), (.keyQ, 'Q'), (.keyR, 'R'), (.keyS, 'S'), (.keyT, 'T'), (.keyU, 'U'),
  (.keyV, 'V'), (.keyW, 'W'), (.keyX, 'X'), (.keyY, 'Y'), (.keyZ, 'Z')]

/-- The table of 256 characters with these designated initializers; `none` is a read outside it. -/
def charTable (chars : List (AmKey × Char)) (key : Nat) : Option Byte :=
  if key < 256 then some (((chars.find? fun entry => entry.1.code = key).map fun entry => entry.2.toNat.toUInt8).getD 0)
  else none

def keymap (key : Nat) : Option Byte := charTable keymapChars key

def keymapShift (key : Nat) : Option Byte := charTable keymapShiftChars key

/-! ### The device -/

structure InputEvent where
  ctrl : BitVec 1
  alt : BitVec 1
  data : BitVec 16
  deriving DecidableEq, Repr

def event (ctrl alt data : CInt) : InputEvent := ⟨ctrl.setWidth 1, alt.setWidth 1, data.setWidth 16⟩

/-- The fields of `input_t` for the modifier keys. -/
structure Modifiers where
  capslock : CInt
  shiftDown : CInt × CInt
  ctrlDown : CInt × CInt
  altDown : CInt × CInt
  deriving DecidableEq, Repr

def either (flags : CInt × CInt) : CInt := if flags.1 ≠ 0 ∨ flags.2 ≠ 0 then 1 else 0

/-- The default case of a key that goes down: the event pushed, if any. -/
def pressed (inp : Modifiers) (key : Nat) : Option (Option InputEvent) := do
  let ch := ofChar (← keymap key)
  if ch ≠ 0 then
    let shift := either inp.shiftDown
    let ctrl := either inp.ctrlDown
    let alt := either inp.altDown
    if ctrl ≠ 0 ∨ alt ≠ 0 then some (some (event ctrl alt ch))
    else
      let shift := if 97 ≤ ch.toInt ∧ ch.toInt ≤ 122 then shift ^^^ inp.capslock else shift
      if shift ≠ 0 then some (some (event 0 0 (ofChar (← keymapShift key))))
      else some (some (event 0 0 ch))
  else some none

/-- The modifiers after the code, and the event pushed, if any; `none` is a read outside a table. -/
def inputKeydown (inp : Modifiers) (code : CInt) : Option (Modifiers × Option InputEvent) :=
  let key := (code &&& ~~~0x8000#32).toNat
  if code &&& 0x8000#32 ≠ 0 then
    if key = AmKey.capslock.code then some ({ inp with capslock := inp.capslock ^^^ 1 }, none)
    else if key = AmKey.lctrl.code then some ({ inp with ctrlDown := (1, inp.ctrlDown.2) }, none)
    else if key = AmKey.rctrl.code then some ({ inp with ctrlDown := (inp.ctrlDown.1, 1) }, none)
    else if key = AmKey.lalt.code then some ({ inp with altDown := (1, inp.altDown.2) }, none)
    else if key = AmKey.ralt.code then some ({ inp with altDown := (inp.altDown.1, 1) }, none)
    else if key = AmKey.lshift.code then some ({ inp with shiftDown := (1, inp.shiftDown.2) }, none)
    else if key = AmKey.rshift.code then some ({ inp with shiftDown := (inp.shiftDown.1, 1) }, none)
    else (pressed inp key).map fun ev => (inp, ev)
  else
    if code.toNat = AmKey.lctrl.code then some ({ inp with ctrlDown := (0, inp.ctrlDown.2) }, none)
    else if code.toNat = AmKey.rctrl.code then some ({ inp with ctrlDown := (inp.ctrlDown.1, 0) }, none)
    else if code.toNat = AmKey.lalt.code then some ({ inp with altDown := (0, inp.altDown.2) }, none)
    else if code.toNat = AmKey.ralt.code then some ({ inp with altDown := (inp.altDown.1, 0) }, none)
    else if code.toNat = AmKey.lshift.code then some ({ inp with shiftDown := (0, inp.shiftDown.2) }, none)
    else if code.toNat = AmKey.rshift.code then some ({ inp with shiftDown := (inp.shiftDown.1, 0) }, none)
    else some (inp, none)

def inputKeydowns (inp : Modifiers) : List CInt → Option (Modifiers × List InputEvent)
  | [] => some (inp, [])
  | code :: codes => do
    let (inp, ev) ← inputKeydown inp code
    let (inp, evs) ← inputKeydowns inp codes
    some (inp, ev.toList ++ evs)

/-- The character that `tty_task` hands to `tty_cook` for an event. -/
def cookedChar (ev : InputEvent) : Option Byte :=
  if ev.ctrl = 0 ∧ ev.alt = 0 then some ⟨ev.data.setWidth 8⟩ else none

/-! ### Codes -/

/-- What `read_key` returns for a key that goes down, and for one that goes up. -/
def downCode (key : Nat) : CInt := BitVec.ofNat 32 key ||| 0x8000#32

def upCode (key : Nat) : CInt := BitVec.ofNat 32 key

inductive IsCode : CInt → Prop where
  | down (key : Nat) (small : key < 256) : IsCode (downCode key)
  | up (key : Nat) (small : key < 256) : IsCode (upCode key)

theorem downCode_bits : ∀ key < 256, downCode key &&& 0x8000#32 ≠ 0 ∧ (downCode key &&& ~~~0x8000#32).toNat = key := by
  decide +kernel

theorem upCode_bits : ∀ key < 256, upCode key &&& 0x8000#32 = 0 ∧ (upCode key).toNat = key := by
  decide +kernel

theorem downCode_inj {key key' : Nat} (small : key < 256) (small' : key' < 256) (same : downCode key = downCode key') :
    key = key' := by
  rw [← (downCode_bits key small).2, same, (downCode_bits key' small').2]

theorem upCode_inj {key key' : Nat} (small : key < 256) (small' : key' < 256) (same : upCode key = upCode key') :
    key = key' := by
  rw [← (upCode_bits key small).2, same, (upCode_bits key' small').2]

theorem downCode_ne_upCode {key key' : Nat} (small : key < 256) (small' : key' < 256) : downCode key ≠ upCode key' := by
  intro same
  have set := (downCode_bits key small).1
  rw [same, (upCode_bits key' small').1] at set
  exact set rfl

theorem code_inj {key key' : AmKey} : key.code = key'.code ↔ key = key' := by
  refine ⟨fun same => ?_, congrArg AmKey.code⟩
  rw [← AmKey.ofNat_ctorIdx key, ← AmKey.ofNat_ctorIdx key']
  exact congrArg AmKey.ofNat same

theorem code_lt (key : AmKey) : key.code < 256 := by
  cases key <;> decide

/-! ### Modifiers -/

def heldKeys : List AmKey := [.lctrl, .rctrl, .lalt, .ralt, .lshift, .rshift]

def Modifiers.flag (inp : Modifiers) : AmKey → CInt
  | .lctrl => inp.ctrlDown.1
  | .rctrl => inp.ctrlDown.2
  | .lalt => inp.altDown.1
  | .ralt => inp.altDown.2
  | .lshift => inp.shiftDown.1
  | .rshift => inp.shiftDown.2
  | _ => 0

def Modifiers.hold (inp : Modifiers) (down : CInt) : AmKey → Modifiers
  | .lctrl => { inp with ctrlDown := (down, inp.ctrlDown.2) }
  | .rctrl => { inp with ctrlDown := (inp.ctrlDown.1, down) }
  | .lalt => { inp with altDown := (down, inp.altDown.2) }
  | .ralt => { inp with altDown := (inp.altDown.1, down) }
  | .lshift => { inp with shiftDown := (down, inp.shiftDown.2) }
  | .rshift => { inp with shiftDown := (inp.shiftDown.1, down) }
  | _ => inp

/-- Whether the key is down after the codes, by the last of them that is its own. -/
def heldAfter (key : AmKey) (held : Prop) (codes : List CInt) : Prop :=
  codes.foldl (fun held code => code = downCode key.code ∨ (held ∧ code ≠ upCode key.code)) held

variable {inp inp' : Modifiers} {code : CInt} {codes : List CInt} {ev : Option InputEvent} {evs : List InputEvent}
  {key : Nat} {held : AmKey}

theorem flag_hold {down : CInt} {key : AmKey} (mem : held ∈ heldKeys) :
    (inp.hold down held).flag key = if key = held then down else inp.flag key := by
  simp only [heldKeys, List.mem_cons, List.not_mem_nil, or_false] at mem
  rcases mem with rfl | rfl | rfl | rfl | rfl | rfl <;> cases key <;> rfl

/-- A code of one of these keys changes its state, and any other code leaves them alone. -/
theorem inputKeydown_cases (isCode : IsCode code) (done : inputKeydown inp code = some (inp', ev)) :
    (∃ held ∈ heldKeys, code = downCode held.code ∧ inp' = inp.hold 1 held) ∨
    (∃ held ∈ heldKeys, code = upCode held.code ∧ inp' = inp.hold 0 held) ∨
    ((∀ held ∈ heldKeys, code ≠ downCode held.code ∧ code ≠ upCode held.code) ∧
      ∀ held ∈ heldKeys, inp'.flag held = inp.flag held) := by
  cases isCode with
  | down key small =>
    obtain ⟨set, masked⟩ := downCode_bits key small
    simp only [inputKeydown, set, masked, ne_eq, not_false_eq_true, if_true] at done
    have other (free : ∀ held ∈ heldKeys, key ≠ held.code) :
        ∀ held ∈ heldKeys, downCode key ≠ downCode held.code ∧ downCode key ≠ upCode held.code := fun held mem =>
      ⟨fun same => free held mem (downCode_inj small (code_lt held) same), downCode_ne_upCode small (code_lt held)⟩
    split_ifs at done with caps lctrl rctrl lalt ralt lshift rshift
    · obtain ⟨rfl, -⟩ := Prod.mk.inj (Option.some.inj done)
      refine .inr (.inr ⟨other ?_, fun held _ => by cases held <;> rfl⟩)
      rw [caps]
      decide
    · exact .inl ⟨.lctrl, by decide, by rw [lctrl], (Prod.mk.inj (Option.some.inj done)).1.symm⟩
    · exact .inl ⟨.rctrl, by decide, by rw [rctrl], (Prod.mk.inj (Option.some.inj done)).1.symm⟩
    · exact .inl ⟨.lalt, by decide, by rw [lalt], (Prod.mk.inj (Option.some.inj done)).1.symm⟩
    · exact .inl ⟨.ralt, by decide, by rw [ralt], (Prod.mk.inj (Option.some.inj done)).1.symm⟩
    · exact .inl ⟨.lshift, by decide, by rw [lshift], (Prod.mk.inj (Option.some.inj done)).1.symm⟩
    · exact .inl ⟨.rshift, by decide, by rw [rshift], (Prod.mk.inj (Option.some.inj done)).1.symm⟩
    · obtain ⟨_, _, same⟩ := Option.map_eq_some_iff.mp done
      cases same
      exact .inr (.inr ⟨other (by simp [heldKeys, lctrl, rctrl, lalt, ralt, lshift, rshift]), fun _ _ => rfl⟩)
  | up key small =>
    obtain ⟨clear, itself⟩ := upCode_bits key small
    simp only [inputKeydown, clear, itself, ne_eq, not_true_eq_false, if_false] at done
    have other (free : ∀ held ∈ heldKeys, key ≠ held.code) :
        ∀ held ∈ heldKeys, upCode key ≠ downCode held.code ∧ upCode key ≠ upCode held.code := fun held mem =>
      ⟨(downCode_ne_upCode (code_lt held) small).symm, fun same => free held mem (upCode_inj small (code_lt held) same)⟩
    split_ifs at done with lctrl rctrl lalt ralt lshift rshift
    · exact .inr (.inl ⟨.lctrl, by decide, by rw [lctrl], (Prod.mk.inj (Option.some.inj done)).1.symm⟩)
    · exact .inr (.inl ⟨.rctrl, by decide, by rw [rctrl], (Prod.mk.inj (Option.some.inj done)).1.symm⟩)
    · exact .inr (.inl ⟨.lalt, by decide, by rw [lalt], (Prod.mk.inj (Option.some.inj done)).1.symm⟩)
    · exact .inr (.inl ⟨.ralt, by decide, by rw [ralt], (Prod.mk.inj (Option.some.inj done)).1.symm⟩)
    · exact .inr (.inl ⟨.lshift, by decide, by rw [lshift], (Prod.mk.inj (Option.some.inj done)).1.symm⟩)
    · exact .inr (.inl ⟨.rshift, by decide, by rw [rshift], (Prod.mk.inj (Option.some.inj done)).1.symm⟩)
    · obtain ⟨rfl, -⟩ := Prod.mk.inj (Option.some.inj done)
      exact .inr (.inr ⟨other (by simp [heldKeys, lctrl, rctrl, lalt, ralt, lshift, rshift]), fun _ _ => rfl⟩)

theorem inputKeydown_flag (isCode : IsCode code) (mem : held ∈ heldKeys)
    (done : inputKeydown inp code = some (inp', ev)) :
    inp'.flag held ≠ 0 ↔ code = downCode held.code ∨ (inp.flag held ≠ 0 ∧ code ≠ upCode held.code) := by
  have small := code_lt held
  rcases inputKeydown_cases isCode done with ⟨key, keyMem, rfl, rfl⟩ | ⟨key, keyMem, rfl, rfl⟩ | ⟨other, same⟩
  · have apart : downCode key.code ≠ upCode held.code := downCode_ne_upCode (code_lt key) small
    have inj : downCode key.code = downCode held.code ↔ held = key :=
      ⟨fun same => (code_inj.mp (downCode_inj (code_lt key) small same)).symm, fun same => same ▸ rfl⟩
    rw [flag_hold keyMem, inj]
    by_cases same : held = key
    · simp [same]
    · simp [same, apart]
  · have apart : upCode key.code ≠ downCode held.code := (downCode_ne_upCode small (code_lt key)).symm
    have inj : upCode key.code = upCode held.code ↔ held = key :=
      ⟨fun same => (code_inj.mp (upCode_inj (code_lt key) small same)).symm, fun same => same ▸ rfl⟩
    rw [flag_hold keyMem, ne_eq (upCode key.code), inj]
    by_cases same : held = key
    · subst same
      simp [apart]
    · simp [same, apart]
  · rw [same held mem]
    simp [other held mem]

/-- The event has a character, and so has what `tty_cook` is given of it. -/
def HasChar (ev : InputEvent) : Prop := ev.data ≠ 0 ∧ cookedChar ev ≠ some 0

theorem char_bits : ∀ ch : BitVec 8, (ch.signExtend 32 = 0 → ch = 0) ∧ ((ch.signExtend 32).setWidth 16 = 0 → ch = 0) ∧
    ((ch.signExtend 32).setWidth 16).setWidth 8 = ch := by
  decide +kernel

theorem ofChar_eq_zero {ch : Byte} : ofChar ch = 0 ↔ ch = 0 := by
  constructor
  · intro zero
    exact UInt8.toBitVec_inj.mp ((char_bits ch.toBitVec).1 zero)
  · rintro rfl
    rfl

theorem event_hasChar {ctrl alt : CInt} {ch : Byte} : HasChar (event ctrl alt (ofChar ch)) ↔ ch ≠ 0 := by
  obtain ⟨-, wide, narrow⟩ := char_bits ch.toBitVec
  constructor
  · rintro ⟨data, -⟩ rfl
    exact data rfl
  · intro nonzero
    refine ⟨fun zero => nonzero (UInt8.toBitVec_inj.mp (wide zero)), fun cooked => ?_⟩
    unfold cookedChar at cooked
    split at cooked
    · have same : (⟨((ch.toBitVec.signExtend 32).setWidth 16).setWidth 8⟩ : Byte) = 0 := Option.some.inj cooked
      rw [narrow] at same
      exact nonzero same
    · cases cooked

theorem keymap_some : ∀ key < 256, ∃ ch, keymap key = some ch := fun _ small => ⟨_, if_pos small⟩

theorem keymapShift_some : ∀ key < 256, ∃ ch, keymapShift key = some ch := fun _ small => ⟨_, if_pos small⟩

/-- The one key with a character in `keymap` and none in `keymap_shift`. -/
theorem keymaps_return :
    ∀ key < 256, keymap key ≠ some 0 → (keymapShift key = some 0 ↔ key = AmKey.keyReturn.code) := by
  decide +kernel

theorem either_eq_zero {flags : CInt × CInt} : either flags = 0 ↔ flags.1 = 0 ∧ flags.2 = 0 := by
  rw [either, ← not_not (a := flags.1 = 0 ∧ flags.2 = 0), not_and_or]
  split
  · rename_i down
    exact iff_of_false (by decide) (not_not.mpr down)
  · rename_i free
    exact iff_of_true rfl free

/-- `shift` is down after the codes, and neither `ctrl` nor `alt` is. -/
def ShiftAlone (inp : Modifiers) (codes : List CInt) : Prop :=
  (∃ key ∈ [AmKey.lshift, .rshift], heldAfter key (inp.flag key ≠ 0) codes) ∧
    ∀ key ∈ [AmKey.lctrl, .rctrl, .lalt, .ralt], ¬heldAfter key (inp.flag key ≠ 0) codes

theorem shiftAlone_nil : ShiftAlone inp [] ↔
    either inp.shiftDown ≠ 0 ∧ either inp.ctrlDown = 0 ∧ either inp.altDown = 0 := by
  rw [ne_eq, either_eq_zero, not_and_or, either_eq_zero, either_eq_zero]
  simp [ShiftAlone, heldAfter, Modifiers.flag, and_assoc]

theorem shiftAlone_cons (isCode : IsCode code) (done : inputKeydown inp code = some (inp', ev)) :
    ShiftAlone inp (code :: codes) ↔ ShiftAlone inp' codes := by
  have step : ∀ held ∈ heldKeys, heldAfter held (inp.flag held ≠ 0) (code :: codes) ↔
      heldAfter held (inp'.flag held ≠ 0) codes := by
    intro held mem
    rw [heldAfter, List.foldl_cons, ← propext (inputKeydown_flag isCode mem done), heldAfter]
  have shifts : [AmKey.lshift, .rshift] ⊆ heldKeys := by decide
  have others : [AmKey.lctrl, .rctrl, .lalt, .ralt] ⊆ heldKeys := by decide
  exact and_congr (exists_congr fun key => and_congr_right fun mem => step key (shifts mem))
    (forall₂_congr fun key mem => not_congr (step key (others mem)))

/-- `RETURN` under `shift`, with neither `ctrl` nor `alt`. -/
def ShiftReturn (inp : Modifiers) (key : Nat) : Prop :=
  key = AmKey.keyReturn.code ∧ either inp.shiftDown ≠ 0 ∧ either inp.ctrlDown = 0 ∧ either inp.altDown = 0

theorem pressed_event (small : key < 256) :
    ∃ ev, pressed inp key = some ev ∧ ((∃ e, ev = some e ∧ ¬HasChar e) ↔ ShiftReturn inp key) := by
  obtain ⟨ch, low⟩ := keymap_some key small
  obtain ⟨ch', high⟩ := keymapShift_some key small
  have table := keymaps_return key small
  rw [low, high] at table
  simp only [ne_eq, Option.some.injEq] at table
  have newline : key = AmKey.keyReturn.code → ch = 10 := by
    rintro rfl
    exact Option.some.inj (low.symm.trans (by decide +kernel))
  rw [pressed, low]
  simp only [high, Option.bind_eq_bind, Option.bind_some, ne_eq, ofChar_eq_zero]
  by_cases char : ch = 0
  · refine ⟨none, by simp [char], ?_⟩
    simp only [reduceCtorEq, false_and, exists_false, false_iff]
    rintro ⟨here, -⟩
    rw [newline here] at char
    cases char
  by_cases hotkey : either inp.ctrlDown ≠ 0 ∨ either inp.altDown ≠ 0
  · refine ⟨_, by rw [if_pos char, if_pos hotkey], ?_⟩
    simp only [Option.some.injEq, exists_eq_left', event_hasChar, char, ne_eq, not_false_eq_true,
      not_true_eq_false, false_iff]
    rintro ⟨-, -, ctrl, alt⟩
    exact hotkey.elim (fun h => h ctrl) (fun h => h alt)
  obtain ⟨ctrl, alt⟩ := not_or.mp hotkey
  rw [if_pos char, if_neg hotkey]
  generalize chosen : (if 97 ≤ (ofChar ch).toInt ∧ (ofChar ch).toInt ≤ 122 then either inp.shiftDown ^^^ inp.capslock
    else either inp.shiftDown) = shift
  have plain : key = AmKey.keyReturn.code → shift = either inp.shiftDown := by
    intro here
    rw [← chosen, newline here]
    rfl
  by_cases shifted : shift = 0
  · refine ⟨_, if_neg (not_not.mpr shifted), ?_⟩
    simp only [Option.some.injEq, exists_eq_left', event_hasChar, char, ne_eq, not_false_eq_true,
      not_true_eq_false, false_iff]
    rintro ⟨here, held, -⟩
    exact held ((plain here).symm.trans shifted)
  · refine ⟨_, if_pos shifted, ?_⟩
    simp only [Option.some.injEq, exists_eq_left', event_hasChar, ne_eq, not_not, table char]
    constructor
    · intro here
      exact ⟨here, (plain here) ▸ shifted, not_not.mp ctrl, not_not.mp alt⟩
    · exact fun held => held.1

/-- A code is taken, and what it pushes has a character unless it is `RETURN` under `shift`. -/
theorem inputKeydown_event (isCode : IsCode code) : ∃ inp' ev, inputKeydown inp code = some (inp', ev) ∧
    ((∃ e, ev = some e ∧ ¬HasChar e) ↔ code = downCode AmKey.keyReturn.code ∧ ShiftAlone inp []) := by
  cases isCode with
  | down key small =>
    obtain ⟨set, masked⟩ := downCode_bits key small
    have same : downCode key = downCode AmKey.keyReturn.code ↔ key = AmKey.keyReturn.code :=
      ⟨downCode_inj small (code_lt _), congrArg downCode⟩
    obtain ⟨ev, done, bad⟩ := @pressed_event inp key small
    rw [same, shiftAlone_nil, ← ShiftReturn]
    simp only [inputKeydown, set, masked, ne_eq, not_false_eq_true, if_true]
    split_ifs with caps lctrl rctrl lalt ralt lshift rshift
    · exact ⟨_, none, rfl, by simp [ShiftReturn, caps, code_inj]⟩
    · exact ⟨_, none, rfl, by simp [ShiftReturn, lctrl, code_inj]⟩
    · exact ⟨_, none, rfl, by simp [ShiftReturn, rctrl, code_inj]⟩
    · exact ⟨_, none, rfl, by simp [ShiftReturn, lalt, code_inj]⟩
    · exact ⟨_, none, rfl, by simp [ShiftReturn, ralt, code_inj]⟩
    · exact ⟨_, none, rfl, by simp [ShiftReturn, lshift, code_inj]⟩
    · exact ⟨_, none, rfl, by simp [ShiftReturn, rshift, code_inj]⟩
    · exact ⟨inp, ev, by rw [done, Option.map_some], bad⟩
  | up key small =>
    obtain ⟨clear, itself⟩ := upCode_bits key small
    have other : upCode key ≠ downCode AmKey.keyReturn.code := (downCode_ne_upCode (code_lt _) small).symm
    simp only [inputKeydown, clear, itself, ne_eq, not_true_eq_false, if_false, other, false_and, iff_false]
    split_ifs
    all_goals exact ⟨_, none, rfl, by simp⟩

/-- Every code of a run is taken, and no event without a character is pushed exactly when `RETURN` never goes down while
`shift` is down and neither `ctrl` nor `alt` is. -/
theorem inputKeydowns_hasChar (inp : Modifiers) (codes : List CInt) (isCodes : ∀ code ∈ codes, IsCode code) :
    ∃ inp' evs, inputKeydowns inp codes = some (inp', evs) ∧
      ((∀ ev ∈ evs, ev.data ≠ 0 ∧ cookedChar ev ≠ some 0) ↔
        ∀ before rest, codes = before ++ downCode AmKey.keyReturn.code :: rest → ¬ShiftAlone inp before) := by
  induction codes generalizing inp with
  | nil => exact ⟨inp, [], rfl, by simp⟩
  | cons code codes ih =>
    obtain ⟨isCode, isCodes⟩ := List.forall_mem_cons.mp isCodes
    obtain ⟨middle, ev, first, bad⟩ := @inputKeydown_event inp code isCode
    obtain ⟨inp', evs, rest, good⟩ := ih middle isCodes
    refine ⟨inp', ev.toList ++ evs, ?_, ?_⟩
    · rw [inputKeydowns, first]
      show (inputKeydowns middle codes).bind _ = _
      rw [rest]
      rfl
    · have head : (∀ e ∈ ev.toList, HasChar e) ↔ ¬(code = downCode AmKey.keyReturn.code ∧ ShiftAlone inp []) := by
        rw [← bad]
        cases ev <;> simp
      rw [List.forall_mem_append, good]
      show (∀ e ∈ ev.toList, HasChar e) ∧ _ ↔ _
      rw [head]
      constructor
      · rintro ⟨here, later⟩ before rest same alone
        cases before with
        | nil => exact here ⟨(List.cons.inj same).1, alone⟩
        | cons first' before =>
          obtain ⟨same, tail⟩ := List.cons.inj same
          subst same
          exact later before rest tail ((shiftAlone_cons isCode first).mp alone)
      · intro all
        refine ⟨?_, fun before rest same alone => ?_⟩
        · rintro ⟨rfl, alone⟩
          exact all [] codes rfl alone
        · exact all (code :: before) rest (by rw [same]; rfl) ((shiftAlone_cons isCode first).mpr alone)

def released : Modifiers := ⟨0, (0, 0), (0, 0), (0, 0)⟩

/-- `a` and `RETURN`, the second after `shift` is up again. -/
def shiftedLine : List CInt := [downCode AmKey.lshift.code, downCode AmKey.keyA.code, upCode AmKey.lshift.code,
  downCode AmKey.keyReturn.code]

theorem inputKeydowns_hasChar_sample : ∃ inp' evs, inputKeydowns released shiftedLine = some (inp', evs) ∧
    ((∀ ev ∈ evs, ev.data ≠ 0 ∧ cookedChar ev ≠ some 0) ↔
      ∀ before rest, shiftedLine = before ++ downCode AmKey.keyReturn.code :: rest → ¬ShiftAlone released before) :=
  inputKeydowns_hasChar released shiftedLine (by
    simp only [shiftedLine, List.forall_mem_cons, List.not_mem_nil, false_implies, implies_true, and_true]
    exact ⟨.down _ (code_lt _), .down _ (code_lt _), .up _ (code_lt _), .down _ (code_lt _)⟩)

/-- `shift` and `RETURN` from the released keyboard push an event without a character. -/
theorem inputKeydowns_hasChar_counterexample :
    ¬∀ (inp : Modifiers) (codes : List CInt), (∀ code ∈ codes, IsCode code) →
      ∃ inp' evs, inputKeydowns inp codes = some (inp', evs) ∧ ∀ ev ∈ evs, ev.data ≠ 0 ∧ cookedChar ev ≠ some 0 := by
  intro all
  obtain ⟨inp', evs, done, good⟩ := all released [downCode AmKey.lshift.code, downCode AmKey.keyReturn.code] (by
    simp only [List.forall_mem_cons, List.not_mem_nil, false_implies, implies_true, and_true]
    exact ⟨.down _ (code_lt _), .down _ (code_lt _)⟩)
  have run : inputKeydowns released [downCode AmKey.lshift.code, downCode AmKey.keyReturn.code] =
      some (⟨0, (1, 0), (0, 0), (0, 0)⟩, [⟨0, 0, 0⟩]) := by decide +kernel
  rw [run] at done
  obtain ⟨-, rfl⟩ := Prod.mk.inj (Option.some.inj done)
  exact (good _ List.mem_cons_self).1 rfl

end OsLabs.Devices

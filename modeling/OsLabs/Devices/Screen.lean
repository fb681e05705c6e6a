import Mathlib.Logic.Function.Basic
import Mathlib.Tactic.Ring
import Mathlib.Tactic.Push
import OsLabs.Data.Memory
import OsLabs.Devices.Tty

/-!
# The screen of a tty

`tty_putc` draws on a buffer of `lines` rows and moves it up by a row when the
cursor runs off its end. The rows it keeps are a window on a grid without an
end, on which the same bytes are interpreted with no scrolling at all.
-/

namespace OsLabs.Devices
open Function

def carriageReturn : Byte := 13

structure Character where
  metadata : Nat
  ch : Byte
deriving DecidableEq, Repr

def ttyDefaultch : Character := ⟨0, 0⟩

/-- The screen in `tty_t`. The cursor is its distance from `buf`, the distance of `end` is `size`,
and `buf` and `dirty` have `size` elements. -/
structure Screen where
  lines : Nat
  columns : Nat
  size : Nat
  buf : Nat → Character
  dirty : Nat → Byte
  cursor : Int

/-- The element of `buf` or `dirty` at a distance from its start; `none` is an access outside. -/
def Screen.slot (tty : Screen) (i : Int) : Option Nat :=
  if 0 ≤ i ∧ i < tty.size then some i.toNat else none

def Screen.store (tty : Screen) (i : Int) (c : Character) : Option Screen := do
  let p ← tty.slot i
  some { tty with buf := update tty.buf p c }

def Screen.storeCh (tty : Screen) (i : Int) (ch : Byte) : Option Screen := do
  let p ← tty.slot i
  some { tty with buf := update tty.buf p { tty.buf p with ch := ch } }

def forLoop (body : Nat → Screen → Option Screen) : Nat → Screen → Option Screen
  | 0, tty => some tty
  | n + 1, tty => do
    let tty ← forLoop body n tty
    body n tty

/-- `memmove(a, a + src, n)` within `size` elements. -/
def memmove {α : Type} (size : Nat) (a : Nat → α) (src n : Int) : Option (Nat → α) :=
  if 0 ≤ n ∧ 0 ≤ src ∧ src + n ≤ size then some fun i => if i < n then a (i + src.toNat) else a i else none

def ttyUpdScrollup (tty : Screen) : Option Screen := do
  let moveSz : Int := tty.columns * (tty.lines - 1)
  let buf ← memmove tty.size tty.buf tty.columns moveSz
  let dirty ← memmove tty.size tty.dirty tty.columns moveSz
  let tty := { tty with buf := buf, dirty := dirty, cursor := tty.cursor - tty.columns }
  forLoop (fun i tty => tty.store (tty.cursor + i) ttyDefaultch) tty.columns tty

def ttyUpdCr (tty : Screen) : Screen :=
  let x := tty.cursor.tmod tty.columns
  { tty with cursor := tty.cursor - x }

def ttyUpdLf (tty : Screen) : Screen := { tty with cursor := tty.cursor + tty.columns }

def ttyUpdBacksp (tty : Screen) : Option Screen :=
  if tty.cursor > 0 then
    let tty := { tty with cursor := tty.cursor - 1 }
    tty.storeCh tty.cursor 0
  else some tty

def ttyUpdPutc (tty : Screen) (ch : Byte) : Option Screen := do
  let tty ← tty.storeCh tty.cursor ch
  some { tty with cursor := tty.cursor + 1 }

def ttyMark (tty : Screen) (ch : Int) : Option Screen := do
  let p ← tty.slot ch
  some { tty with dirty := update tty.dirty p 1 }

def ttyMarkLine (tty : Screen) (ch : Int) : Option Screen :=
  let x := ch.tmod tty.columns
  forLoop (fun i tty => ttyMark tty (ch - x + i)) tty.columns tty

def ttyMarkAll (tty : Screen) : Option Screen := forLoop (fun i tty => ttyMark tty i) tty.size tty

def ttyPutc (tty : Screen) (ch : Byte) : Option Screen :=
  if ch = carriageReturn then
    let tty := ttyUpdCr tty
    ttyMarkLine tty tty.cursor
  else if ch = backspace then do
    let tty ← ttyUpdBacksp tty
    let tty ← ttyMark tty tty.cursor
    ttyMark tty (tty.cursor + 1)
  else if ch = newline then do
    let tty := ttyUpdLf (ttyUpdCr tty)
    if tty.cursor = tty.size then do
      let tty ← ttyUpdScrollup tty
      ttyMarkAll tty
    else do
      let tty ← ttyMarkLine tty (tty.cursor - tty.columns)
      ttyMarkLine tty tty.cursor
  else do
    let tty ← ttyUpdPutc tty ch
    if tty.cursor = tty.size then do
      let tty ← ttyUpdScrollup tty
      ttyMarkAll tty
    else do
      let tty ← ttyMark tty (tty.cursor - 1)
      ttyMark tty tty.cursor

def ttyInit (lines columns : Nat) : Screen :=
  ⟨lines, columns, columns * lines, fun _ => ttyDefaultch, fun _ => 1, 0⟩

def putAll (tty : Screen) (bytes : List Byte) : Option Screen := bytes.foldlM ttyPutc tty

/-! ### The grid -/

/-- Rows without an end, a cursor on them, and the first row of the window. -/
structure Grid where
  cell : Nat → Nat → Byte
  row : Nat
  col : Nat
  top : Nat

def Grid.blank : Grid := ⟨fun _ _ => 0, 0, 0, 0⟩

def Grid.put (g : Grid) (row col : Nat) (ch : Byte) : Grid :=
  { g with cell := update g.cell row (update (g.cell row) col ch) }

def Grid.goto (g : Grid) (row col : Nat) : Grid := { g with row := row, col := col }

/-- The window moves down a row when the cursor has left its last one. -/
def Grid.follow (lines : Nat) (g : Grid) : Grid :=
  if g.row = g.top + lines then { g with top := g.top + 1 } else g

theorem Grid.follow_below {g : Grid} {lines col : Nat} :
    (g.goto (g.top + lines) col).follow lines = { g with top := g.top + 1 }.goto (g.top + lines) col :=
  if_pos rfl

theorem Grid.follow_inside {g : Grid} {lines : Nat} (inside : g.row ≠ g.top + lines) : g.follow lines = g :=
  if_neg inside

def Grid.interpret (lines columns : Nat) (g : Grid) (ch : Byte) : Grid :=
  if ch = newline then (g.goto (g.row + 1) 0).follow lines
  else if ch = carriageReturn then g.goto g.row 0
  else if ch = backspace then
    if 0 < g.col then (g.put g.row (g.col - 1) 0).goto g.row (g.col - 1)
    else if g.top < g.row then (g.put (g.row - 1) (columns - 1) 0).goto (g.row - 1) (columns - 1)
    else g
  else if g.col + 1 < columns then (g.put g.row g.col ch).goto g.row (g.col + 1)
  else ((g.put g.row g.col ch).goto (g.row + 1) 0).follow lines

def interpretAll (lines columns : Nat) (bytes : List Byte) : Grid :=
  bytes.foldl (Grid.interpret lines columns) Grid.blank

/-! ### Loops and marks -/

variable {tty tty' : Screen} {p n lines columns : Nat} {g : Grid} {ch : Byte} {c : Character}

theorem slot_inside (inside : p < tty.size) : tty.slot p = some p := by
  rw [Screen.slot, if_pos ⟨Int.natCast_nonneg p, Int.ofNat_lt.mpr inside⟩, Int.toNat_natCast]

theorem store_inside (inside : p < tty.size) : tty.store p c = some { tty with buf := update tty.buf p c } := by
  rw [Screen.store, slot_inside inside]
  rfl

theorem storeCh_inside (inside : p < tty.size) :
    tty.storeCh p ch = some { tty with buf := update tty.buf p { tty.buf p with ch := ch } } := by
  rw [Screen.storeCh, slot_inside inside]
  rfl

theorem ttyMark_inside (inside : p < tty.size) : ttyMark tty p = some { tty with dirty := update tty.dirty p 1 } := by
  rw [ttyMark, slot_inside inside]
  rfl

/-- Cells that are cleared one after the other. -/
theorem clearLoop_eq (here : tty.cursor = p) (inside : p + n ≤ tty.size) :
    forLoop (fun i tty => tty.store (tty.cursor + i) ttyDefaultch) n tty =
      some { tty with buf := fun i => if p ≤ i ∧ i < p + n then ttyDefaultch else tty.buf i } := by
  induction n with
  | zero =>
    have none : ∀ i, ¬ (p ≤ i ∧ i < p + 0) := by omega
    simp only [forLoop, none, if_false]
  | succ n ih =>
    rw [forLoop, ih (by omega)]
    simp only [Option.bind_eq_bind, Option.bind_some, here, ← Int.natCast_add]
    have next : p + n < tty.size := by omega
    apply (store_inside (by exact next)).trans
    congr 2
    funext i
    simp only [update_apply]
    split_ifs <;> first | rfl | omega

/-- Only `dirty` changes where cells are marked one after the other. -/
theorem markLoop_eq (inside : p + n ≤ tty.size) :
    ∃ dirty, forLoop (fun i tty => ttyMark tty (p + i)) n tty = some { tty with dirty := dirty } := by
  induction n with
  | zero => exact ⟨tty.dirty, rfl⟩
  | succ n ih =>
    obtain ⟨dirty, done⟩ := ih (by omega)
    rw [forLoop, done]
    simp only [Option.bind_eq_bind, Option.bind_some, ← Int.natCast_add]
    exact ⟨_, ttyMark_inside (show p + n < tty.size by omega)⟩

theorem ttyMarkAll_eq : ∃ dirty, ttyMarkAll tty = some { tty with dirty := dirty } := by
  have all := @markLoop_eq tty 0 tty.size (by omega)
  simpa only [ttyMarkAll, Int.natCast_zero, Int.zero_add] using all

/-! ### The rows of the buffer -/

theorem row_fits {row : Nat} (inside : row < lines) : row * columns + columns ≤ columns * lines := by
  rw [← Nat.succ_mul, Nat.mul_comm columns]
  exact Nat.mul_le_mul_right columns inside

variable {row col : Nat}

theorem cell_mod (inside : col < columns) : ((row * columns + col : Nat) : Int).tmod columns = col := by
  rw [← Int.ofNat_tmod, Nat.mul_comm, Nat.mul_add_mod, Nat.mod_eq_of_lt inside]

theorem ttyMarkLine_eq (size : tty.size = tty.columns * tty.lines) (onRow : row < tty.lines)
    (onCol : col < tty.columns) :
    ∃ dirty, ttyMarkLine tty (row * tty.columns + col : Nat) = some { tty with dirty := dirty } := by
  have start : ((row * tty.columns + col : Nat) : Int) - col = (row * tty.columns : Nat) := by
    rw [Int.natCast_add]
    omega
  simp only [ttyMarkLine, cell_mod onCol, start]
  exact markLoop_eq (by rw [size]; exact row_fits onRow)

def Screen.rowsUp (tty : Screen) (i : Nat) : Character :=
  if (tty.lines - 1) * tty.columns ≤ i ∧ i < (tty.lines - 1) * tty.columns + tty.columns then ttyDefaultch
  else if i < (tty.lines - 1) * tty.columns then tty.buf (i + tty.columns) else tty.buf i

theorem ttyUpdScrollup_eq (size : tty.size = tty.columns * tty.lines) (some_line : 1 ≤ tty.lines)
    (atEnd : tty.cursor = tty.size) :
    ∃ dirty, ttyUpdScrollup tty =
      some { tty with buf := tty.rowsUp, dirty := dirty, cursor := ((tty.lines - 1) * tty.columns : Nat) } := by
  have whole : tty.size = (tty.lines - 1) * tty.columns + tty.columns := by
    rw [size, ← Nat.succ_mul, Nat.mul_comm, Nat.succ_eq_add_one, Nat.sub_add_cancel some_line]
  have moved : (tty.columns * (tty.lines - 1) : Int) = ((tty.lines - 1) * tty.columns : Nat) := by
    rw [Int.natCast_mul, Nat.cast_sub some_line, Nat.cast_one, mul_comm]
  have back : tty.cursor - tty.columns = ((tty.lines - 1) * tty.columns : Nat) := by
    rw [atEnd, whole]
    push_cast
    ring
  have fits : (0 : Int) ≤ ((tty.lines - 1) * tty.columns : Nat) ∧ (0 : Int) ≤ tty.columns ∧
      (tty.columns : Int) + ((tty.lines - 1) * tty.columns : Nat) ≤ tty.size := by
    omega
  unfold Screen.rowsUp
  generalize hkept : (tty.lines - 1) * tty.columns = kept at *
  simp only [ttyUpdScrollup, moved, memmove, if_pos fits, Option.bind_eq_bind, Option.bind_some, back,
    Int.toNat_natCast,
    Nat.cast_lt]
  exact ⟨_, clearLoop_eq rfl (le_of_eq whole.symm)⟩

/-! ### The window -/

/-- The buffer is the window on the grid, and the rows below it are blank. -/
structure Screen.Drawn (lines columns : Nat) (tty : Screen) (g : Grid) : Prop where
  height : tty.lines = lines
  width : tty.columns = columns
  size : tty.size = columns * lines
  window : ∀ r < lines, ∀ c < columns, tty.buf (r * columns + c) = ⟨0, g.cell (g.top + r) c⟩
  below : ∀ r c, g.top + lines ≤ r → g.cell r c = 0

/-- And the cursor is where the one of the grid is, inside the window. -/
structure Screen.Shows (lines columns : Nat) (tty : Screen) (g : Grid) : Prop extends Screen.Drawn lines
    columns tty g where
  top : g.top ≤ g.row
  bottom : g.row < g.top + lines
  col : g.col < columns
  cursor : tty.cursor = ((g.row - g.top) * columns + g.col : Nat)

theorem cell_inj {r c r' c' : Nat} (hc : c < columns) (hc' : c' < columns) :
    r * columns + c = r' * columns + c' ↔ r = r' ∧ c = c' := by
  constructor
  · intro same
    have onCol := congrArg (· % columns) same
    simp only [Nat.mul_comm _ columns, Nat.mul_add_mod, Nat.mod_eq_of_lt hc, Nat.mod_eq_of_lt hc'] at onCol
    subst onCol
    exact ⟨Nat.eq_of_mul_eq_mul_right (by omega) (Nat.add_right_cancel same), rfl⟩
  · rintro ⟨rfl, rfl⟩
    rfl

namespace Screen.Drawn

theorem mark (h : tty.Drawn lines columns g) (dirty : Nat → Byte) : { tty with dirty := dirty }.Drawn lines columns g :=
  ⟨h.height, h.width, h.size, h.window, h.below⟩

theorem move (h : tty.Drawn lines columns g) (cursor : Int) : { tty with cursor := cursor }.Drawn lines columns g :=
  ⟨h.height, h.width, h.size, h.window, h.below⟩

theorem goto (h : tty.Drawn lines columns g) : tty.Drawn lines columns (g.goto row col) :=
  ⟨h.height, h.width, h.size, h.window, h.below⟩

theorem put (ch : Byte) (h : tty.Drawn lines columns g) (onRow : row < lines) (onCol : col < columns) :
    { tty with buf := update tty.buf (row * columns + col) { tty.buf (row * columns + col) with ch := ch } }.Drawn
      lines columns (g.put (g.top + row) col ch) where
  height := h.height
  width := h.width
  size := h.size
  window := by
    intro r hr c hc
    simp only [Grid.put, update_apply, cell_inj hc onCol, Nat.add_left_cancel_iff]
    by_cases there : r = row
    · subst there
      by_cases here : c = col
      · subst here
        simp [h.window r hr c hc]
      · simp [here, h.window r hr c hc]
    · simp [there, h.window r hr c hc]
  below := by
    intro r c low
    have apart : r ≠ g.top + row := by
      simp only [Grid.put] at low
      omega
    show update g.cell (g.top + row) _ r c = 0
    rw [update_of_ne apart]
    exact h.below r c low

/-- The window moves onto a row that is blank on both sides. -/
theorem scroll (h : tty.Drawn lines columns g) (some_line : 1 ≤ lines) :
    { tty with buf := tty.rowsUp }.Drawn lines columns { g with top := g.top + 1 } where
  height := h.height
  width := h.width
  size := h.size
  window := by
    intro r hr c hc
    simp only [rowsUp, h.height, h.width]
    rcases Nat.lt_or_ge r (lines - 1) with upper | last
    · have above : r * columns + c < (lines - 1) * columns := by
        have fits := (row_fits upper : r * columns + columns ≤ columns * (lines - 1))
        rw [Nat.mul_comm columns (lines - 1)] at fits
        omega
      have next : r * columns + c + columns = (r + 1) * columns + c := by ring
      have here : g.top + (r + 1) = g.top + 1 + r := by omega
      rw [if_neg (by omega), if_pos above, next, h.window (r + 1) (by omega) c hc, here]
    · obtain rfl : r = lines - 1 := by omega
      rw [if_pos ⟨Nat.le_add_right _ _, Nat.add_lt_add_left hc _⟩, h.below _ c (by omega)]
      rfl
  below := by
    intro r c low
    dsimp only at low ⊢
    exact h.below r c (by omega)

theorem index (h : tty.Drawn lines columns g) (onRow : row < lines) (onCol : col < columns) :
    row * columns + col < tty.size := by
  have := (row_fits onRow : row * columns + columns ≤ columns * lines)
  have := h.size
  omega

theorem markLine (h : tty.Drawn lines columns g) (onRow : row < lines) (onCol : col < columns) :
    ∃ dirty, ttyMarkLine tty (row * columns + col : Nat) = some { tty with dirty := dirty } := by
  obtain rfl := h.height
  obtain rfl := h.width
  exact ttyMarkLine_eq h.size onRow onCol

end Screen.Drawn

/-! ### One byte -/

namespace Screen.Shows

theorem mark (h : tty.Shows lines columns g) (dirty : Nat → Byte) : { tty with dirty := dirty }.Shows lines columns g :=
  { h.toDrawn.mark dirty with top := h.top, bottom := h.bottom, col := h.col, cursor := h.cursor }

theorem land (h : tty.Drawn lines columns g) (onRow : row < lines) (onCol : col < columns)
    (here : tty.cursor = (row * columns + col : Nat)) : tty.Shows lines columns (g.goto (g.top + row) col) :=
  { h.goto with
    top := Nat.le_add_right _ _
    bottom := Nat.add_lt_add_left onRow _
    col := onCol
    cursor := by
      rw [here, Grid.goto, Nat.add_sub_cancel_left] }

/-- Below the last row both sides scroll. -/
theorem scroll (h : tty.Drawn lines columns g) (some_line : 1 ≤ lines) (some_column : 1 ≤ columns)
    (atEnd : tty.cursor = tty.size) :
    ∃ tty', (do let tty ← ttyUpdScrollup tty; ttyMarkAll tty) = some tty' ∧
      tty'.Shows lines columns ((g.goto (g.top + lines) 0).follow lines) := by
  obtain rfl := h.height
  obtain rfl := h.width
  obtain ⟨dirty, scrolled⟩ := ttyUpdScrollup_eq h.size some_line atEnd
  rw [scrolled, Option.bind_eq_bind, Option.bind_some]
  obtain ⟨marks, marked⟩ := ttyMarkAll_eq
  refine ⟨_, marked, Shows.mark ?_ marks⟩
  have drawn := ((h.scroll some_line).mark dirty).move ((tty.lines - 1) * tty.columns : Nat)
  have shows := land drawn (Nat.sub_lt some_line Nat.one_pos) some_column rfl
  have last : g.top + 1 + (tty.lines - 1) = g.top + tty.lines := by omega
  rw [Grid.follow_below, ← last]
  exact shows

theorem row_lt (h : tty.Shows lines columns g) : g.row - g.top < lines := by
  have := h.top
  have := h.bottom
  omega

theorem row_eq (h : tty.Shows lines columns g) : g.top + (g.row - g.top) = g.row := Nat.add_sub_cancel' h.top

theorem cr (h : tty.Shows lines columns g) :
    ttyUpdCr tty = { tty with cursor := ((g.row - g.top) * columns + 0 : Nat) } := by
  have start : (((g.row - g.top) * columns + g.col : Nat) : Int) - g.col = ((g.row - g.top) * columns + 0 : Nat) := by
    push_cast
    omega
  rw [ttyUpdCr, h.cursor, h.width, cell_mod h.col, start]

theorem putc_cr (h : tty.Shows lines columns g) :
    ∃ tty', ttyPutc tty carriageReturn = some tty' ∧ tty'.Shows lines columns (g.goto g.row 0) := by
  have some_column : 0 < columns := Nat.zero_lt_of_lt h.col
  have landed := land (h.move ((g.row - g.top) * columns + 0 : Nat)) h.row_lt some_column rfl
  rw [h.row_eq] at landed
  obtain ⟨dirty, marked⟩ := landed.markLine h.row_lt some_column
  refine ⟨_, ?_, landed.mark dirty⟩
  rw [ttyPutc, if_pos rfl, h.cr]
  exact marked

theorem putc_newline (h : tty.Shows lines columns g) :
    ∃ tty', ttyPutc tty newline = some tty' ∧ tty'.Shows lines columns ((g.goto (g.row + 1) 0).follow lines) := by
  have some_column : 0 < columns := Nat.zero_lt_of_lt h.col
  have down : ttyUpdLf (ttyUpdCr tty) = { tty with cursor := ((g.row - g.top + 1) * columns + 0 : Nat) } := by
    rw [h.cr, ttyUpdLf, h.width, Nat.succ_mul]
    push_cast
    ring_nf
  have moved := h.move ((g.row - g.top + 1) * columns + 0 : Nat)
  rw [ttyPutc, if_neg (by decide), if_neg (by decide), if_pos rfl, down]
  rcases Nat.lt_or_ge (g.row - g.top + 1) lines with inside | below
  · have landed := land moved inside some_column rfl
    have apart : ¬ (((g.row - g.top + 1) * columns + 0 : Nat) : Int) = tty.size := by
      have := moved.index inside some_column
      dsimp only at this
      omega
    have above : (((g.row - g.top + 1) * columns + 0 : Nat) : Int) - tty.columns =
        ((g.row - g.top) * columns + 0 : Nat) := by
      rw [h.width]
      push_cast
      ring
    obtain ⟨first, marked⟩ := moved.markLine h.row_lt some_column
    obtain ⟨second, marked'⟩ := (moved.mark first).markLine inside some_column
    refine ⟨{ tty with cursor := ((g.row - g.top + 1) * columns + 0 : Nat), dirty := second }, ?_, ?_⟩
    · rw [if_neg apart, above, marked]
      exact marked'
    · have row : g.row + 1 = g.top + (g.row - g.top + 1) := by
        have := h.top
        omega
      have within : (g.goto (g.row + 1) 0).row ≠ (g.goto (g.row + 1) 0).top + lines := by
        simp only [Grid.goto]
        omega
      rw [Grid.follow_inside within, row]
      exact landed.mark second
  · have last : g.row - g.top + 1 = lines := by
      have := h.row_lt
      omega
    have atEnd : (((g.row - g.top + 1) * columns + 0 : Nat) : Int) = tty.size := by
      rw [last, h.size, Nat.mul_comm, Nat.add_zero]
    obtain ⟨tty', done, shows⟩ := scroll moved (by omega) some_column atEnd
    refine ⟨tty', ?_, ?_⟩
    · rw [if_pos atEnd]
      exact done
    · have row : g.row + 1 = g.top + lines := by
        have := h.top
        omega
      rw [row]
      exact shows

theorem erase (h : tty.Drawn lines columns g) (onRow : row < lines) (onCol : col < columns)
    (here : tty.cursor = (row * columns + col + 1 : Nat)) (inside : row * columns + col + 1 < tty.size) :
    ∃ tty', ttyPutc tty backspace = some tty' ∧
      tty'.Shows lines columns ((g.put (g.top + row) col 0).goto (g.top + row) col) := by
  have back : tty.cursor - 1 = (row * columns + col : Nat) := by omega
  have after : ((row * columns + col : Nat) : Int) + 1 = (row * columns + col + 1 : Nat) := rfl
  have before : row * columns + col < tty.size := by omega
  have erased := (h.move (row * columns + col : Nat)).put 0 onRow onCol
  have landed := land erased onRow onCol rfl
  refine ⟨_, ?_, landed.mark (update (update tty.dirty (row * columns + col) 1) (row * columns + col + 1) 1)⟩
  rw [ttyPutc, if_neg (by decide), if_pos rfl, ttyUpdBacksp, if_pos (by omega)]
  simp only [back, after, Option.bind_eq_bind, Option.bind_some, storeCh_inside, ttyMark_inside, before, inside]

theorem putc_backspace (h : tty.Shows lines columns g) (two : 2 ≤ columns * lines) :
    ∃ tty', ttyPutc tty backspace = some tty' ∧ tty'.Shows lines columns (g.interpret lines columns backspace) := by
  have index := h.index h.row_lt h.col
  have col := h.col
  rw [Grid.interpret, if_neg (by decide), if_neg (by decide), if_pos rfl]
  split_ifs with onRow below
  · have here : (g.row - g.top) * columns + g.col = (g.row - g.top) * columns + (g.col - 1) + 1 := by omega
    have erased := erase h.toDrawn h.row_lt (show g.col - 1 < columns by omega) (by rw [h.cursor, here]) (by omega)
    rwa [h.row_eq] at erased
  · have first : g.col = 0 := by omega
    have here : (g.row - g.top) * columns + g.col = (g.row - 1 - g.top) * columns + (columns - 1) + 1 := by
      have up : g.row - g.top = g.row - 1 - g.top + 1 := by omega
      rw [first, up, Nat.succ_mul]
      omega
    have row : g.top + (g.row - 1 - g.top) = g.row - 1 := by omega
    have upper : g.row - 1 - g.top < lines := by
      have := h.row_lt
      omega
    have erased := erase h.toDrawn upper (show columns - 1 < columns by omega) (by rw [h.cursor, here]) (by omega)
    rwa [row] at erased
  · have home : tty.cursor = (0 : Nat) := by
      have row : g.row - g.top = 0 := by omega
      have first : g.col = 0 := by omega
      rw [h.cursor, row, first, Nat.zero_mul]
    have size := h.size
    refine ⟨_, ?_, h.mark (update (update tty.dirty 0 1) 1 1)⟩
    rw [ttyPutc, if_neg (by decide), if_pos rfl, ttyUpdBacksp, if_neg (by omega)]
    have zero : 0 < tty.size := by omega
    have one : 1 < tty.size := by omega
    have next : ((0 : Nat) : Int) + 1 = (1 : Nat) := rfl
    simp only [home, next, Option.bind_eq_bind, Option.bind_some, ttyMark_inside, zero, one]

/-- Inside the window the cell before the cursor and the one at it are marked. -/
theorem settle (h : tty.Drawn lines columns g) (onRow : row < lines) (onCol : col < columns)
    (here : tty.cursor = (row * columns + col : Nat)) (moved : 0 < row * columns + col) :
    ∃ tty', (if tty.cursor = tty.size then do let tty ← ttyUpdScrollup tty; ttyMarkAll tty
        else do let tty ← ttyMark tty (tty.cursor - 1); ttyMark tty tty.cursor) = some tty' ∧
      tty'.Shows lines columns (g.goto (g.top + row) col) := by
  have inside := h.index onRow onCol
  have before : row * columns + col - 1 < tty.size := by omega
  have back : ((row * columns + col : Nat) : Int) - 1 = (row * columns + col - 1 : Nat) := by omega
  have landed := land h onRow onCol here
  refine ⟨_, ?_, landed.mark (update (update tty.dirty (row * columns + col - 1) 1) (row * columns + col) 1)⟩
  rw [if_neg (by omega)]
  simp only [here, back, Option.bind_eq_bind, Option.bind_some, ttyMark_inside, before, inside]

theorem putc_other (h : tty.Shows lines columns g) (other : ch ≠ newline ∧ ch ≠ carriageReturn ∧ ch ≠ backspace) :
    ∃ tty', ttyPutc tty ch = some tty' ∧ tty'.Shows lines columns (g.interpret lines columns ch) := by
  obtain ⟨notNewline, notReturn, notBackspace⟩ := other
  have inside := h.index h.row_lt h.col
  have next : (((g.row - g.top) * columns + g.col : Nat) : Int) + 1 = ((g.row - g.top) * columns + g.col + 1 : Nat) :=
    rfl
  have stored := (h.put ch h.row_lt h.col).move ((g.row - g.top) * columns + g.col + 1 : Nat)
  rw [h.row_eq] at stored
  rw [ttyPutc, if_neg notReturn, if_neg notBackspace, if_neg notNewline, Grid.interpret, if_neg notNewline,
    if_neg notReturn, if_neg notBackspace]
  simp only [ttyUpdPutc, h.cursor, storeCh_inside inside, next, Option.bind_eq_bind, Option.bind_some]
  by_cases along : g.col + 1 < columns
  · have settled := settle stored h.row_lt along rfl (Nat.succ_pos _)
    rw [show (g.put g.row g.col ch).top + (g.row - g.top) = g.row from h.row_eq] at settled
    rw [if_pos along]
    exact settled
  · have last : g.col + 1 = columns := by
      have := h.col
      omega
    have wrapped : (g.row - g.top) * columns + g.col + 1 = (g.row - g.top + 1) * columns + 0 := by
      rw [Nat.succ_mul]
      omega
    rw [if_neg along]
    rw [wrapped] at stored ⊢
    rcases Nat.lt_or_ge (g.row - g.top + 1) lines with inside | below
    · have settled := settle stored inside (by omega) rfl (by rw [← wrapped]; exact Nat.succ_pos _)
      rw [show (g.put g.row g.col ch).top + (g.row - g.top + 1) = g.row + 1 from congrArg (· + 1) h.row_eq] at settled
      rw [Grid.follow_inside]
      · exact settled
      · have := h.row_eq
        simp only [Grid.goto, Grid.put]
        omega
    · have bottom : g.row - g.top + 1 = lines := by
        have := h.row_lt
        omega
      have row : g.row + 1 = g.top + lines := by rw [← bottom, ← Nat.add_assoc, h.row_eq]
      have atEnd : (((g.row - g.top + 1) * columns + 0 : Nat) : Int) = tty.size := by
        rw [bottom, h.size, Nat.mul_comm, Nat.add_zero]
      obtain ⟨tty', done, shows⟩ := scroll stored (by omega) (by omega) atEnd
      refine ⟨tty', ?_, ?_⟩
      · rw [if_pos atEnd]
        exact done
      · rw [row]
        exact shows

theorem putc (ch : Byte) (h : tty.Shows lines columns g) (two : 2 ≤ columns * lines) :
    ∃ tty', ttyPutc tty ch = some tty' ∧ tty'.Shows lines columns (g.interpret lines columns ch) := by
  by_cases isReturn : ch = carriageReturn
  · subst isReturn
    exact h.putc_cr
  by_cases isBackspace : ch = backspace
  · subst isBackspace
    exact h.putc_backspace two
  by_cases isNewline : ch = newline
  · subst isNewline
    exact h.putc_newline
  exact h.putc_other ⟨isNewline, isReturn, isBackspace⟩

theorem putAll (h : tty.Shows lines columns g) (two : 2 ≤ columns * lines) (bytes : List Byte) :
    ∃ tty', Devices.putAll tty bytes = some tty' ∧
      tty'.Shows lines columns (bytes.foldl (Grid.interpret lines columns) g) := by
  induction bytes generalizing tty g with
  | nil => exact ⟨tty, rfl, h⟩
  | cons ch bytes ih =>
    obtain ⟨next, done, shows⟩ := h.putc ch two
    obtain ⟨tty', rest, shows'⟩ := ih shows
    refine ⟨tty', ?_, shows'⟩
    rw [Devices.putAll, List.foldlM_cons, done]
    exact rest

end Screen.Shows

theorem ttyInit_shows (some_line : 1 ≤ lines) (some_column : 1 ≤ columns) :
    (ttyInit lines columns).Shows lines columns Grid.blank where
  height := rfl
  width := rfl
  size := rfl
  window := fun _ _ _ _ => rfl
  below := fun _ _ _ => rfl
  top := Nat.zero_le _
  bottom := by
    show 0 < 0 + lines
    omega
  col := some_column
  cursor := by simp [ttyInit, Grid.blank]

/-- Whatever is typed, every access is in bounds, the cursor stays in the buffer, and the buffer is the window on the
grid; the rows the window has still to reach are blank. -/
theorem putAll_window (lines columns : Nat) (some_line : 1 ≤ lines) (some_column : 1 ≤ columns)
    (two : 2 ≤ lines * columns)
    (bytes : List Byte) :
    ∃ tty, putAll (ttyInit lines columns) bytes = some tty ∧ 0 ≤ tty.cursor ∧ tty.cursor < tty.size ∧
      tty.Shows lines columns (interpretAll lines columns bytes) := by
  obtain ⟨tty, done, shows⟩ := (ttyInit_shows some_line some_column).putAll (by rwa [Nat.mul_comm]) bytes
  have inside := shows.index shows.row_lt shows.col
  have cursor := shows.cursor
  exact ⟨tty, done, by omega, by omega, shows⟩

/-- A backspace after a scroll goes back to the row above. -/
example :
    ((putAll (ttyInit 2 3) [97, 98, 99, 10, 8, 100]).map fun tty => (tty.cursor, (tty.buf 0).ch, (tty.buf 2).ch)) =
    some (3, 0, 100) := by decide

theorem putAll_window_sample :
    (1 ≤ 2 ∧ 1 ≤ 3 ∧ 2 ≤ 2 * 3) ∧
      ∃ tty, putAll (ttyInit 2 3) [97, 98, 99, 10, 8, 100] = some tty ∧ 0 ≤ tty.cursor ∧ tty.cursor < tty.size ∧
        tty.Shows 2 3 (interpretAll 2 3 [97, 98, 99, 10, 8, 100]) :=
  ⟨by decide, putAll_window 2 3 (by decide) (by decide) (by decide) _⟩

end OsLabs.Devices

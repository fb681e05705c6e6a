import Mathlib.Data.Nat.ModEq
import OsLabs.Devices.Console

/-!
# The line on the screen

`tty_task` writes what `tty_cook` took, one character after the other. As long as
nothing else is written on a tty since the line began, the cells in front of the
cursor are the unfinished line of its queue, also where it wraps and scrolls.
-/

namespace OsLabs.Devices
open Function Util

variable {lines columns k : Nat} {g : Grid} {rest : Line} {ch : Byte}

/-! ### Positions on the grid -/

def Grid.linear (columns : Nat) (g : Grid) (k : Nat) : Byte := g.cell (k / columns) (k % columns)

def Grid.pos (columns : Nat) (g : Grid) : Nat := g.row * columns + g.col

/-- The cursor is on the rows of the window. -/
structure Grid.Inside (lines columns : Nat) (g : Grid) : Prop where
  top : g.top ≤ g.row
  bottom : g.row < g.top + lines
  col : g.col < columns

theorem linear_at {row col : Nat} (inside : col < columns) :
    Grid.linear columns g (row * columns + col) = g.cell row col := by
  have positive : 0 < columns := Nat.zero_lt_of_lt inside
  unfold Grid.linear
  rw [Nat.mul_comm row, Nat.mul_add_div positive, Nat.div_eq_of_lt inside, Nat.mul_add_mod, Nat.mod_eq_of_lt inside,
    Nat.add_zero]

theorem linear_put {row col : Nat} (inside : col < columns) :
    Grid.linear columns (g.put row col ch) k = if k = row * columns + col then ch else Grid.linear columns g k := by
  split
  · rename_i here
    rw [here, linear_at inside]
    simp [Grid.put]
  · rename_i other
    have split := Nat.div_add_mod' k columns
    simp only [Grid.linear, Grid.put]
    by_cases sameRow : k / columns = row
    · rw [sameRow, update_self, update_of_ne]
      intro sameCol
      exact other (by rw [← split, sameRow, sameCol])
    · rw [update_of_ne sameRow]

theorem linear_goto {row col : Nat} : Grid.linear columns (g.goto row col) k = Grid.linear columns g k := rfl

theorem linear_follow : Grid.linear columns (g.follow lines) k = Grid.linear columns g k := by
  unfold Grid.follow
  split <;> rfl

/-- The line ends at the cursor and starts inside the window. -/
structure Written (columns : Nat) (g : Grid) (rest : Line) : Prop where
  visible : g.top * columns + rest.length ≤ g.pos columns
  cells : ∀ i (h : i < rest.length), Grid.linear columns g (g.pos columns - rest.length + i) = rest[i]

theorem written_nil (inside : g.Inside lines columns) : Written columns g [] where
  visible := by
    have := Nat.mul_le_mul_right columns inside.top
    unfold Grid.pos
    simp only [List.length_nil]
    omega
  cells := by simp

/-- A character that is drawn stands where the cursor was, and the cursor is behind it. -/
theorem interpret_other (inside : g.Inside lines columns)
    (other : ch ≠ newline ∧ ch ≠ carriageReturn ∧ ch ≠ backspace) :
    (g.interpret lines columns ch).pos columns = g.pos columns + 1 ∧
    (∀ k, Grid.linear columns (g.interpret lines columns ch) k =
      if k = g.pos columns then ch else Grid.linear columns g k) ∧
    ((g.interpret lines columns ch).top = g.top ∨
      (g.interpret lines columns ch).top = g.top + 1 ∧ g.pos columns + 1 = (g.top + lines) * columns) := by
  have col := inside.col
  rw [Grid.interpret, if_neg other.1, if_neg other.2.1, if_neg other.2.2]
  split
  · exact ⟨rfl, fun k => linear_put col, .inl rfl⟩
  · have last : g.col + 1 = columns := by omega
    have wrapped : (g.row + 1) * columns = g.pos columns + 1 := by
      unfold Grid.pos
      rw [Nat.succ_mul]
      omega
    refine ⟨?_, fun k => ?_, ?_⟩
    · unfold Grid.follow
      split <;> exact wrapped
    · rw [linear_follow, linear_goto, linear_put col]
      rfl
    · unfold Grid.follow
      split
      · rename_i below
        refine .inr ⟨rfl, ?_⟩
        rw [← wrapped]
        exact congrArg (· * columns) below
      · exact .inl rfl

/-- A backspace behind a cell that is inside the window goes back to it and clears it. -/
theorem interpret_backspace (inside : g.Inside lines columns) (behind : g.top * columns < g.pos columns) :
    (g.interpret lines columns backspace).pos columns + 1 = g.pos columns ∧
    (∀ k, k + 1 ≠ g.pos columns → Grid.linear columns (g.interpret lines columns backspace) k =
      Grid.linear columns g k) ∧
    (g.interpret lines columns backspace).top = g.top := by
  have col := inside.col
  rw [Grid.interpret, if_neg (by decide), if_neg (by decide), if_pos rfl]
  split_ifs with onRow below
  · refine ⟨?_, fun k other => ?_, rfl⟩
    · simp only [Grid.pos, Grid.goto]
      omega
    · rw [linear_goto, linear_put (by omega), if_neg]
      unfold Grid.pos at other
      omega
  · have first : g.col = 0 := by omega
    have up : (g.row - 1) * columns + columns = g.row * columns := by
      rw [← Nat.succ_mul]
      congr 1
      omega
    refine ⟨?_, fun k other => ?_, rfl⟩
    · simp only [Grid.pos, Grid.goto, first]
      omega
    · rw [linear_goto, linear_put (by omega), if_neg]
      unfold Grid.pos at other
      omega
  · have top := inside.top
    have same : g.row = g.top := by omega
    unfold Grid.pos at behind
    rw [same] at behind
    omega

/-- The character of the line is drawn after it, or its last one is cleared. -/
theorem Written.type (W : Written columns g rest) (inside : g.Inside lines columns)
    (plain : ch ≠ carriageReturn) (inLine : ch = backspace → rest ≠ [])
    (inside' : (g.interpret lines columns ch).Inside lines columns)
    (short : (Console.typeLine rest ch).length ≤ (lines - 1) * columns) :
    Written columns (g.interpret lines columns ch) (Console.typeLine rest ch) := by
  by_cases isNewline : ch = newline
  · subst isNewline
    exact written_nil inside'
  by_cases isBackspace : ch = backspace
  · subst isBackspace
    have shorter : Console.typeLine rest backspace = rest.dropLast := by simp [Console.typeLine, typeChar, isNewline]
    have some_char : 0 < rest.length := List.length_pos_iff.mpr (inLine rfl)
    have visible := W.visible
    obtain ⟨pos, cells, top⟩ := interpret_backspace inside (by omega)
    rw [shorter]
    refine ⟨?_, fun i small => ?_⟩
    · rw [top, List.length_dropLast]
      omega
    · rw [List.length_dropLast] at small ⊢
      rw [List.getElem_dropLast, ← W.cells i (by omega), cells _ (by omega)]
      congr 1
      omega
  · have longer : Console.typeLine rest ch = rest ++
      [ch] := by simp [Console.typeLine, typeChar, isNewline, isBackspace]
    obtain ⟨pos, cells, top⟩ := interpret_other inside ⟨isNewline, plain, isBackspace⟩
    have visible := W.visible
    rw [longer] at short ⊢
    simp only [List.length_append, List.length_singleton] at short
    refine ⟨?_, fun i small => ?_⟩
    · rw [pos, List.length_append, List.length_singleton]
      rcases top with same | ⟨more, bottom⟩
      · rw [same]
        omega
      · have some_line : 0 < lines := by
          have := inside.top
          have := inside.bottom
          omega
        have whole : (g.top + lines) * columns = (g.top + 1) * columns + (lines - 1) * columns := by
          rw [← Nat.add_mul]
          congr 1
          omega
        rw [more, bottom]
        omega
    · rw [cells, pos]
      simp only [List.length_append, List.length_singleton] at small ⊢
      by_cases old : i < rest.length
      · rw [if_neg (by omega), List.getElem_append_left old, ← W.cells i old]
        congr 1
        omega
      · rw [if_pos (by omega), List.getElem_append_right (by omega)]
        simp

theorem Screen.Shows.inside {tty : Screen} (S : tty.Shows lines columns g) : g.Inside lines columns :=
  ⟨S.top, S.bottom, S.col⟩

/-- What is written on a screen that shows a grid. -/
theorem putAll_shows {tty tty' : Screen} {bytes : List Byte} (S : tty.Shows lines columns g) (two : 2 ≤ columns * lines)
    (done : putAll tty bytes = some tty') :
    tty'.Shows lines columns (bytes.foldl (Grid.interpret lines columns) g) := by
  obtain ⟨tty'', done', S'⟩ := S.putAll two bytes
  rw [done] at done'
  cases done'
  exact S'

namespace Console

variable {s s' : State} {l : Label} {t : TtyId}

/-! ### Characters of the keyboard -/

/-- Between the events the unfinished line of the tty is the one that was written, and if nothing came in between it
stands in front of the cursor. -/
structure Echoed (lines columns : Nat) (s : State) (t : TtyId) : Prop where
  done : (∀ ch, s.echo ≠ some (t, ch)) → (typedLines (s.session t).typed).2 = s.shown t
  pending : ∀ ch, s.echo = some (t, ch) → (typedLines (s.session t).typed).2 = typeLine (s.shown t) ch ∧
    ch ≠ carriageReturn ∧ (ch = backspace → s.shown t ≠ [])
  screen : ∃ g, (s.screen t).Shows lines columns g ∧ (s.whole t = true → Written columns g (s.shown t))

theorem typeChar_snd (ls : List Line) (line : Line) (ch : Byte) : (typeChar (ls, line) ch).2 = typeLine line ch := by
  unfold typeLine typeChar
  split
  · rfl
  · split <;> rfl

theorem typedLines_concat (typed : List Byte) (ch : Byte) :
    (typedLines (typed ++ [ch])).2 = typeLine (typedLines typed).2 ch := by
  rw [typedLines_append]
  exact typeChar_snd _ _ _

/-- An unfinished line has room in the window. -/
theorem line_short {session : Session} {delivered pending : List Line} (C : Cooked session delivered pending)
    (room : ttyCookBufSz ≤ (lines - 1) * columns + 1) :
    (typedLines session.typed).2.length ≤ (lines - 1) * columns := by
  have bound := C.queue.contains.ring.room
  rw [List.length_append] at bound
  omega

theorem Echoed.cook {tty : Tty} {ret : Int} {delivered pending : List Line}
    (E : Echoed lines columns s t) (idle : s.echo = none) (C : Cooked (s.session s.ttydev) delivered pending)
    (plain : ch ≠ carriageReturn) (nonzero : ch ≠ 0) (done : ttyCook (s.session s.ttydev).tty ch = some (tty, ret)) :
    Echoed lines columns { s with
      handled := s.handled + 1
      echo := if ret = 0 then some (s.ttydev, ch) else none
      session := update s.session s.ttydev
        { s.session s.ttydev with tty := tty, typed := (s.session s.ttydev).typed ++ [ch] } } t := by
  have quiet := E.done (by simp [idle])
  refine ⟨fun other => ?_, fun c here => ?_, E.screen⟩
  · by_cases front : t = s.ttydev
    · subst front
      have value := (ttyCook_holds C.queue nonzero done).2.2
      have refused : ch = backspace ∧ (typedLines (s.session s.ttydev).typed).2 = [] := by
        by_contra taken
        rw [if_neg taken] at value
        exact other ch (if_pos value)
      simp only [update_self]
      rw [typedLines_concat, ← quiet, refused.1, refused.2]
      rfl
    · simpa only [update_of_ne front] using quiet
  · simp only at here
    split at here
    · rename_i taken
      obtain ⟨rfl, rfl⟩ := Prod.mk.inj (Option.some.inj here)
      have value := (ttyCook_holds C.queue nonzero done).2.2
      simp only [update_self]
      rw [typedLines_concat, quiet]
      refine ⟨rfl, plain, fun isBackspace none => ?_⟩
      rw [if_pos ⟨isBackspace, quiet.trans none⟩, taken] at value
      cases value
    · cases here

theorem Echoed.echo {u : TtyId} {screen : Screen} {delivered pending : List Line} (E : Echoed lines columns s t)
    (two : 2 ≤ columns * lines) (room : ttyCookBufSz ≤ (lines - 1) * columns + 1)
    (C : Cooked (s.session t) delivered pending) (here : s.echo = some (u, ch))
    (done : putAll (s.screen u) [ch] = some screen) :
    Echoed lines columns { s with
      echo := none
      screen := update s.screen u screen
      shown := update s.shown u (typeLine (s.shown u) ch)
      whole := update s.whole u (s.whole u || ch = newline) } t := by
  by_cases same : t = u
  · subst same
    obtain ⟨line, plain, inLine⟩ := E.pending ch here
    obtain ⟨g, S, written⟩ := E.screen
    have S' := putAll_shows S two done
    refine ⟨fun _ => ?_, fun c none => (by cases none), [ch].foldl (Grid.interpret lines columns) g, ?_,
      fun whole => ?_⟩
    · simpa only [update_self] using line
    · simpa only [update_self] using S'
    · simp only [update_self, Bool.or_eq_true, decide_eq_true_eq] at whole ⊢
      rcases whole with whole | isNewline
      · exact (written whole).type S.inside plain inLine S'.inside (by rw [← line]; exact line_short C room)
      · subst isNewline
        exact written_nil S'.inside
  · refine ⟨fun _ => ?_, fun c none => (by cases none), ?_⟩
    · simp only [update_of_ne same]
      refine E.done fun c there => ?_
      rw [here] at there
      exact same (Prod.mk.inj (Option.some.inj there)).1.symm
    · simpa only [update_of_ne same] using E.screen

theorem Echoed.write {u : TtyId} {bytes : List Byte} {screen : Screen} (E : Echoed lines columns s t)
    (two : 2 ≤ columns * lines) (done : putAll (s.screen u) bytes = some screen) :
    Echoed lines columns { s with
      screen := update s.screen u screen
      whole := update s.whole u (s.shown u = [] || (s.whole u && bytes = [])) } t := by
  refine ⟨E.done, E.pending, ?_⟩
  by_cases same : t = u
  · subst same
    obtain ⟨g, S, written⟩ := E.screen
    have S' := putAll_shows S two done
    refine ⟨bytes.foldl (Grid.interpret lines columns) g, by simpa only [update_self] using S', fun whole => ?_⟩
    simp only [update_self, Bool.or_eq_true, Bool.and_eq_true, decide_eq_true_eq] at whole
    rcases whole with none | ⟨whole, rfl⟩
    · rw [none]
      exact written_nil S'.inside
    · exact written whole
  · simpa only [update_of_ne same] using E.screen

theorem Echoed.session {session : Session} {u : TtyId} (E : Echoed lines columns s t)
    (typed : session.typed = (s.session u).typed) :
    Echoed lines columns { s with session := update s.session u session } t := by
  have same : (update s.session u session t).typed = (s.session t).typed := by
    by_cases here : t = u
    · subst here
      rw [update_self, typed]
    · rw [update_of_ne here]
  refine ⟨?_, ?_, E.screen⟩
  · rw [same]
    exact E.done
  · rw [same]
    exact E.pending

end Console

end OsLabs.Devices

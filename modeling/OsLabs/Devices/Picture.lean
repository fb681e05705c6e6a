import OsLabs.Devices.Echo
import OsLabs.Devices.Video

/-!
# The picture on the frame

Four ttys render on one frame, each under its own lock, and only the sprites of the
tty in front come through. `tty_task` changes which one that is while others write
and render. A cell of the frame shows its character unless some call has still to
draw it.
-/

namespace OsLabs.Devices.Video
open Function
open Console (TtyId)

/-- Where a call of `tty_write`, or the switch of `tty_task` to another tty, stands: a `tty_write` that waits for the
lock, then its `tty_render` that does, then the one that has come to the character at `ch`. -/
inductive Call where
  | write (tty : TtyId) (bytes : List Byte)
  | render (tty : TtyId)
  | drawing (tty : TtyId) (ch : Nat)
  | marking (tty : TtyId) (i : Nat)
  | showing (tty : TtyId)

inductive Label where
  | enter (call : Call)
  | run (call : Call)

/-- The frame, the device, the ttys, the calls, and what was written on each tty so far. -/
structure State where
  vga : Vga
  fb : Fb
  screen : TtyId → Screen
  calls : List Call
  written : TtyId → List Byte

def Free (calls : List Call) (t : TtyId) : Prop := ∀ ch, .drawing t ch ∉ calls

inductive Step : State → Label → State → Prop where
  | write {s : State} (t : TtyId) (bytes : List Byte) :
      Step s (.enter (.write t bytes)) { s with calls := .write t bytes :: s.calls }
  | switch {s : State} (t : TtyId) : Step s (.enter (.marking t 0)) { s with calls := .marking t 0 :: s.calls }
  | put {s : State} {t : TtyId} {bytes : List Byte} {screen : Screen} {l₁ l₂ : List Call}
      (here : s.calls = l₁ ++ .write t bytes :: l₂) (free : Free s.calls t)
      (done : putAll (s.screen t) bytes = some screen) :
      Step s (.run (.write t bytes)) { s with
        screen := update s.screen t screen
        calls := l₁ ++ .render t :: l₂
        written := update s.written t (s.written t ++ bytes) }
  | lock {s : State} {t : TtyId} {l₁ l₂ : List Call} (here : s.calls = l₁ ++ .render t :: l₂) (free : Free s.calls t) :
      Step s (.run (.render t)) { s with calls := l₁ ++ .drawing t 0 :: l₂ }
  | draw {s : State} {t : TtyId} {ch : Nat} {vga : Vga} {l₁ l₂ : List Call} (here : s.calls = l₁ ++ .drawing t ch :: l₂)
      (inside : ch < (s.screen t).lines * (s.screen t).columns)
      (done : ttyRenderRound (s.screen t) t (ch / (s.screen t).columns) (ch % (s.screen t).columns) ch s.fb s.vga =
        some vga) :
      Step s (.run (.drawing t ch)) { s with vga := vga, calls := l₁ ++ .drawing t (ch + 1) :: l₂ }
  | unlock {s : State} {t : TtyId} {ch : Nat} {l₁ l₂ : List Call} (here : s.calls = l₁ ++ .drawing t ch :: l₂)
      (last : (s.screen t).lines * (s.screen t).columns ≤ ch) :
      Step s (.run (.drawing t ch)) { s with calls := l₁ ++ l₂ }
  | mark {s : State} {t : TtyId} {i : Nat} {screen : Screen} {l₁ l₂ : List Call}
      (here : s.calls = l₁ ++ .marking t i :: l₂) (inside : i < (s.screen t).size)
      (done : ttyMark (s.screen t) i = some screen) :
      Step s (.run (.marking t i))
      { s with screen := update s.screen t screen, calls := l₁ ++ .marking t (i + 1) :: l₂ }
  | marked {s : State} {t : TtyId} {i : Nat} {l₁ l₂ : List Call} (here : s.calls = l₁ ++ .marking t i :: l₂)
      (last : (s.screen t).size ≤ i) :
      Step s (.run (.marking t i)) { s with calls := l₁ ++ .showing t :: l₂ }
  | info {s : State} {t : TtyId} {l₁ l₂ : List Call} (here : s.calls = l₁ ++ .showing t :: l₂) :
      Step s (.run (.showing t)) { s with
        fb := fbWriteInfo s.fb (UInt32.ofNat t)
        calls := l₁ ++ .write t [] :: l₂ }

/-- After `dev_init`, when `tty_task` is about to render `tty1`. -/
structure Booted (font : Nat → Byte) (W H : Nat) (s : State) : Prop where
  width : s.vga.W = W
  height : s.vga.H = H
  fb : ∃ textures, s.fb = fbInit s.vga font textures
  screen : s.screen = fun _ => ttyInit (s.fb.height / 16) (s.fb.width / 8)
  calls : s.calls = [.render 0]
  written : s.written = fun _ => []

def video (font : Nat → Byte) (W H : Nat) : Machine State Label where
  Init := Booted font W H
  Step := Step

/-! ### Marks -/

variable {tty tty' : Screen} {k : Nat} {ch : Byte}

/-- Every character is marked: no mark is ever taken back. -/
def Marked (tty : Screen) : Prop := ∀ k < tty.size, tty.dirty k ≠ 0

theorem Marked.mark {i : Int} (M : Marked tty) (done : ttyMark tty i = some tty') : Marked tty' := by
  obtain ⟨p, -, same⟩ := Option.bind_eq_some_iff.mp done
  cases same
  intro k small
  simp only [update_apply]
  split
  · decide
  · exact M k small

theorem Marked.forLoop {body : Nat → Screen → Option Screen} {n : Nat}
    (keeps : ∀ i tty tty', Marked tty → body i tty = some tty' → Marked tty') (M : Marked tty)
    (done : Devices.forLoop body n tty = some tty') : Marked tty' := by
  induction n generalizing tty' with
  | zero =>
    cases done
    exact M
  | succ n ih =>
    obtain ⟨middle, first, last⟩ := Option.bind_eq_some_iff.mp done
    exact keeps n middle tty' (ih first) last

theorem Marked.markLine {i : Int} (M : Marked tty) (done : ttyMarkLine tty i = some tty') : Marked tty' :=
  M.forLoop (fun _ _ _ M done => M.mark done) done

theorem Marked.markAll (M : Marked tty) (done : ttyMarkAll tty = some tty') : Marked tty' :=
  M.forLoop (fun _ _ _ M done => M.mark done) done

theorem Marked.store {i : Int} {c : Character} (M : Marked tty) (done : tty.store i c = some tty') : Marked tty' := by
  obtain ⟨p, -, same⟩ := Option.bind_eq_some_iff.mp done
  cases same
  exact M

theorem Marked.storeCh {i : Int} (M : Marked tty) (done : tty.storeCh i ch = some tty') : Marked tty' := by
  obtain ⟨p, -, same⟩ := Option.bind_eq_some_iff.mp done
  cases same
  exact M

/-- The marks that move up are marks, and so are those they leave. -/
theorem Marked.scrollup (M : Marked tty) (done : ttyUpdScrollup tty = some tty') : Marked tty' := by
  obtain ⟨buf, -, done⟩ := Option.bind_eq_some_iff.mp done
  obtain ⟨dirty, moved, done⟩ := Option.bind_eq_some_iff.mp done
  refine Marked.forLoop (fun i tty tty' M done => M.store done) ?_ done
  unfold memmove at moved
  split at moved
  · rename_i fits
    cases moved
    intro k small
    simp only
    split
    · exact M _ (by omega)
    · exact M k small
  · cases moved

theorem Marked.putc (M : Marked tty) (done : ttyPutc tty ch = some tty') : Marked tty' := by
  unfold ttyPutc at done
  split_ifs at done
  · exact Marked.markLine (by exact M) done
  · obtain ⟨t₁, erased, done⟩ := Option.bind_eq_some_iff.mp done
    obtain ⟨t₂, first, last⟩ := Option.bind_eq_some_iff.mp done
    have M₁ : Marked t₁ := by
      unfold ttyUpdBacksp at erased
      split at erased
      · exact Marked.storeCh (by exact M) erased
      · cases erased
        exact M
    exact (M₁.mark first).mark last
  · dsimp only at done
    split_ifs at done
    · obtain ⟨t₁, scrolled, last⟩ := Option.bind_eq_some_iff.mp done
      exact (Marked.scrollup (by exact M) scrolled).markAll last
    · obtain ⟨t₁, first, last⟩ := Option.bind_eq_some_iff.mp done
      exact (Marked.markLine (by exact M) first).markLine last
  · obtain ⟨t₁, drawn, done⟩ := Option.bind_eq_some_iff.mp done
    have M₁ : Marked t₁ := by
      obtain ⟨t₀, stored, same⟩ := Option.bind_eq_some_iff.mp drawn
      have M₀ := M.storeCh stored
      cases same
      exact M₀
    split_ifs at done
    · obtain ⟨t₂, scrolled, last⟩ := Option.bind_eq_some_iff.mp done
      exact (M₁.scrollup scrolled).markAll last
    · obtain ⟨t₂, first, last⟩ := Option.bind_eq_some_iff.mp done
      exact (M₁.mark first).mark last

theorem Marked.putAll {bytes : List Byte} (M : Marked tty) (done : Devices.putAll tty bytes = some tty') :
    Marked tty' := by
  induction bytes generalizing tty with
  | nil =>
    cases done
    exact M
  | cons ch bytes ih =>
    obtain ⟨next, first, rest⟩ := Option.bind_eq_some_iff.mp done
    exact ih (M.putc first) rest

/-! ### The cells that are still to draw -/

/-- The call will draw the cell. -/
def Call.Owes (call : Call) (t : TtyId) (k : Nat) : Prop :=
  match call with
  | .write tty _ | .render tty => tty = t
  | .drawing tty ch => tty = t ∧ ch ≤ k
  | .marking _ _ | .showing _ => False

def Done (calls : List Call) (t : TtyId) (k : Nat) : Prop := ∀ call ∈ calls, ¬call.Owes t k

theorem done_at {l₁ l₂ : List Call} {call : Call} {t : TtyId} :
    Done (l₁ ++ call :: l₂) t k ↔ Done l₁ t k ∧ ¬call.Owes t k ∧ Done l₂ t k := by
  simp [Done, or_imp, forall_and]

theorem done_append {l₁ l₂ : List Call} {t : TtyId} : Done (l₁ ++ l₂) t k ↔ Done l₁ t k ∧ Done l₂ t k := by
  simp [Done, or_imp, forall_and]

/-- The pixels of a cell are those of the character that it shows. -/
def CellShown (font : Nat → Byte) (columns : Nat) (vga : Vga) (k : Nat) (ch : Byte) : Prop :=
  ∀ i < 8, ∀ j < 16, vga.pixel (k % columns * 8 + i) (k / columns * 16 + j) = glyph font ch i j

variable {font : Nat → Byte} {lines columns W H : Nat} {vga : Vga} {fb : Fb}

/-- The frame has room for the cells of the ttys. -/
structure Room (lines columns : Nat) (vga : Vga) : Prop where
  width : columns * 8 ≤ vga.W
  height : lines * 16 ≤ vga.H
  narrow : vga.W < 2 ^ 16
  low : vga.H < 2 ^ 16

/-- A round of the tty in front draws its cell and leaves the others. -/
theorem round_front (room : Room lines columns vga) (loaded : Loaded font fb) (M : Marked tty)
    (size : tty.size = columns * lines) {t : TtyId} (front : fb.current.toNat = t) (inside : k < lines * columns) :
    ∃ vga', ttyRenderRound tty t (k / columns) (k % columns) k fb vga = some vga' ∧ vga'.W = vga.W ∧ vga'.H = vga.H ∧
      CellShown font columns vga' k (shown tty k) ∧
      ∀ k' < lines * columns, k' ≠ k → ∀ ch, CellShown font columns vga k' ch → CellShown font columns vga' k' ch := by
  have positive : 0 < columns := by
    rcases Nat.eq_zero_or_pos columns with none | some
    · rw [none] at inside
      omega
    · exact some
  have cell {k' : Nat} (inside : k' < lines * columns) : k' % columns * 8 + 8 ≤ vga.W ∧
      k' / columns * 16 + 16 ≤ vga.H := by
    have onCol := Nat.mod_lt k' positive
    have onRow : k' / columns < lines := Nat.div_lt_of_lt_mul (by rwa [Nat.mul_comm])
    have := room.width
    have := room.height
    omega
  obtain ⟨right, bottom⟩ := cell inside
  obtain ⟨vga', done, sameW, sameH, drawn⟩ :=
    @ttySprites_pixel vga fb _ _ font tty t k loaded front (by omega) right bottom room.narrow room.low
  refine ⟨vga', ?_, sameW, sameH, fun i hi j hj => ?_, fun k' inside' other ch before i hi j hj => ?_⟩
  · rw [ttyRenderRound, if_pos (M k (by rw [size, Nat.mul_comm]; exact inside)), done]
  · rw [drawn _ (by omega), if_pos (by unfold InRect; omega), Nat.add_sub_cancel_left, Nat.add_sub_cancel_left]
  · obtain ⟨right', bottom'⟩ := cell inside'
    rw [drawn _ (by omega), if_neg, before i hi j hj]
    unfold InRect
    intro both
    apply other
    have onCol : k' % columns = k % columns := by omega
    have onRow : k' / columns = k / columns := by omega
    rw [← Nat.div_add_mod k' columns, ← Nat.div_add_mod k columns, onCol, onRow]

/-- A round of a tty behind changes nothing. -/
theorem round_behind {t : TtyId} (behind : fb.current.toNat ≠ t) {y x : Nat} :
    ttyRenderRound tty t y x k fb vga = some vga := by
  unfold ttyRenderRound
  split
  · exact ttySprites_behind behind (by omega)
  · rfl

/-- Of the tty in front, each cell that no call has still to draw is on the frame. -/
structure Pictured (font : Nat → Byte) (W H : Nat) (s : State) : Prop where
  width : s.vga.W = W
  height : s.vga.H = H
  loaded : Loaded font s.fb
  front : ∃ t : TtyId, s.fb.current.toNat = t
  shows : ∀ t, (s.screen t).Shows (H / 16) (W / 8) (interpretAll (H / 16) (W / 8) (s.written t))
  marked : ∀ t, Marked (s.screen t)
  cells : ∀ t : TtyId, s.fb.current.toNat = t → ∀ k < H / 16 * (W / 8), Done s.calls t k →
    CellShown font (W / 8) s.vga k (shown (s.screen t) k)

variable {s s' : State} {l : Label}

theorem Pictured.room (P : Pictured font W H s) (narrow : W < 2 ^ 16) (low : H < 2 ^ 16) :
    Room (H / 16) (W / 8) s.vga where
  width := by rw [P.width]; exact Nat.div_mul_le_self W 8
  height := by rw [P.height]; exact Nat.div_mul_le_self H 16
  narrow := by rwa [P.width]
  low := by rwa [P.height]

theorem Pictured.round (P : Pictured font W H s) (narrow : W < 2 ^ 16) (low : H < 2 ^ 16) {t : TtyId}
    (inside : k < H / 16 * (W / 8)) :
    ∃ vga', ttyRenderRound (s.screen t) t (k / (W / 8)) (k % (W / 8)) k s.fb s.vga = some vga' ∧
      vga'.W = s.vga.W ∧ vga'.H = s.vga.H ∧
      (s.fb.current.toNat = t → CellShown font (W / 8) vga' k (shown (s.screen t) k)) ∧
      ∀ k' < H / 16 * (W / 8), (s.fb.current.toNat = t → k' ≠ k) → ∀ ch, CellShown font (W / 8) s.vga k' ch →
        CellShown font (W / 8) vga' k' ch := by
  by_cases front : s.fb.current.toNat = t
  · obtain ⟨vga', done, sameW, sameH, drawn, others⟩ :=
      round_front (P.room narrow low) P.loaded (P.marked t) (P.shows t).size front inside
    exact ⟨vga', done, sameW, sameH, fun _ => drawn, fun k' inside' other => others k' inside' (other front)⟩
  · exact ⟨s.vga, round_behind front, rfl, rfl, fun same => absurd same front, fun _ _ _ _ before => before⟩

/-- A step that leaves the frame and what the ttys show draws no cell, so it must owe those that were owed. -/
theorem Pictured.calls {calls : List Call} (P : Pictured font W H s)
    (owed : ∀ t k, k < H / 16 * (W / 8) → Done calls t k → Done s.calls t k) :
    Pictured font W H { s with calls := calls } :=
  ⟨P.width, P.height, P.loaded, P.front, P.shows, P.marked, fun t front k inside done => P.cells t front k inside
    (owed t k inside done)⟩

theorem pictured_step (two : 2 ≤ W / 8 * (H / 16)) (narrow : W < 2 ^ 16) (low : H < 2 ^ 16) (P : Pictured font W H s)
    (step : Step s l s') : Pictured font W H s' := by
  cases step with
  | write t bytes => exact P.calls fun u k _ done call mem => done call (.tail _ mem)
  | switch t => exact P.calls fun u k _ done call mem => done call (.tail _ mem)
  | @put t bytes screen l₁ l₂ here free done =>
    refine ⟨P.width, P.height, P.loaded, P.front, fun u => ?_, fun u => ?_, fun u front k inside drawn => ?_⟩
    · by_cases same : u = t
      · subst same
        simp only [update_self]
        rw [interpretAll, List.foldl_append]
        exact putAll_shows (P.shows u) two done
      · simpa only [update_of_ne same] using P.shows u
    · by_cases same : u = t
      · subst same
        simpa only [update_self] using (P.marked u).putAll done
      · simpa only [update_of_ne same] using P.marked u
    · obtain ⟨first, mine, last⟩ := done_at.mp drawn
      have other : u ≠ t := fun same => mine same.symm
      simp only [update_of_ne other]
      refine P.cells u front k inside ?_
      rw [here]
      exact done_at.mpr ⟨first, mine, last⟩
  | @lock t l₁ l₂ here free =>
    refine P.calls fun u k _ drawn => ?_
    obtain ⟨first, mine, last⟩ := done_at.mp drawn
    rw [here]
    exact done_at.mpr ⟨first, fun same => mine ⟨same, Nat.zero_le _⟩, last⟩
  | @draw t ch vga l₁ l₂ here inside done =>
    rw [(P.shows t).height, (P.shows t).width] at inside
    rw [(P.shows t).width] at done
    obtain ⟨vga', done', sameW, sameH, drawn, others⟩ := P.round narrow low inside
    rw [done] at done'
    cases done'
    refine ⟨sameW.trans P.width, sameH.trans P.height, P.loaded, P.front, P.shows, P.marked,
      fun u front k inside' finished => ?_⟩
    obtain ⟨first, mine, last⟩ := done_at.mp finished
    by_cases here' : u = t ∧ k = ch
    · obtain ⟨rfl, rfl⟩ := here'
      exact drawn front
    · refine others k inside' (fun front' same => ?_) _ (P.cells u front k inside' ?_)
      · exact here' ⟨Fin.ext (front.symm.trans front'), same⟩
      · rw [here]
        refine done_at.mpr ⟨first, fun owed => ?_, last⟩
        obtain ⟨rfl, before⟩ := owed
        have next : ch ≠ k := fun same => here' ⟨rfl, same.symm⟩
        exact mine ⟨rfl, by omega⟩
  | @unlock t ch l₁ l₂ here last =>
    rw [(P.shows t).height, (P.shows t).width] at last
    refine P.calls fun u k inside drawn => ?_
    obtain ⟨first, rest⟩ := done_append.mp drawn
    rw [here]
    exact done_at.mpr ⟨first, fun owed => absurd owed.2 (by omega), rest⟩
  | @mark t i screen l₁ l₂ here inside done =>
    have same : screen = { s.screen t with dirty := screen.dirty } := by
      rw [ttyMark_inside inside] at done
      cases done
      rfl
    refine ⟨P.width, P.height, P.loaded, P.front, fun u => ?_, fun u => ?_, fun u front k inside' drawn => ?_⟩
    · by_cases mine : u = t
      · subst mine
        simp only [update_self]
        rw [same]
        exact (P.shows u).mark _
      · simpa only [update_of_ne mine] using P.shows u
    · by_cases mine : u = t
      · subst mine
        simpa only [update_self] using (P.marked u).mark done
      · simpa only [update_of_ne mine] using P.marked u
    · obtain ⟨first, mine, last⟩ := done_at.mp drawn
      have before := P.cells u front k inside' (by rw [here]; exact done_at.mpr ⟨first, fun owed => owed, last⟩)
      by_cases mine : u = t
      · subst mine
        simp only [update_self]
        rw [same]
        exact before
      · simpa only [update_of_ne mine] using before
  | @marked t i l₁ l₂ here last =>
    refine P.calls fun u k _ drawn => ?_
    obtain ⟨first, mine, rest⟩ := done_at.mp drawn
    rw [here]
    exact done_at.mpr ⟨first, fun owed => owed, rest⟩
  | @info t l₁ l₂ here =>
    have now : (fbWriteInfo s.fb (UInt32.ofNat t)).current.toNat = t := by
      rw [fbWriteInfo_current]
      exact UInt32.toNat_ofNat_of_lt' (Nat.lt_of_lt_of_le t.isLt (by decide))
    refine ⟨P.width, P.height, P.loaded.fbWriteInfo, ⟨t, now⟩, P.shows, P.marked, fun u front k inside drawn => ?_⟩
    exact absurd (Fin.ext (now.symm.trans front)) (done_at.mp drawn).2.1

theorem reachable_pictured (columns : 8 ≤ W) (lines : 16 ≤ H) (two : 2 ≤ W / 8 * (H / 16)) (narrow : W < 2 ^ 16)
    (low : H < 2 ^ 16) (run : (video font W H).Reachable s) : Pictured font W H s := by
  refine run.induct (Pictured font W H) (fun s boot => ?_) fun s l s' P step => pictured_step two narrow low P step
  obtain ⟨textures, device⟩ := boot.fb
  have size : s.screen = fun _ => ttyInit (H / 16) (W / 8) := by
    rw [boot.screen, device]
    simp only [fbInit, boot.width, boot.height]
  refine ⟨boot.width, boot.height, ?_, ⟨0, ?_⟩, fun t => ?_, fun t => ?_, fun t front k inside drawn => ?_⟩
  · rw [device]
    exact fbInit_loaded
  · rw [device]
    rfl
  · rw [size, boot.written]
    exact ttyInit_shows (by omega) (by omega)
  · rw [size]
    intro k _
    exact (by decide : (1 : Byte) ≠ 0)
  · rw [device] at front
    rw [boot.calls] at drawn
    exact absurd (Fin.ext front) (drawn _ (.head _))

/-- What a cell of the window shows: its character, or the cursor. -/
def windowChar (g : Grid) (row col : Nat) : Byte :=
  if g.row = g.top + row ∧ g.col = col then 0xdb else g.cell (g.top + row) col

theorem shown_grid {g : Grid} (S : tty.Shows lines columns g) {row col : Nat} (onRow : row < lines)
    (onCol : col < columns) :
    shown tty (row * columns + col) = windowChar g row col := by
  have cursor : ((row * columns + col : Nat) : Int) = tty.cursor ↔ g.row = g.top + row ∧ g.col = col := by
    rw [S.cursor, Int.ofNat_inj, cell_inj onCol S.col]
    have := S.top
    omega
  simp only [shown, windowChar, cursor, S.window row onRow col onCol]

/-- Whoever writes on the ttys and whenever the tty in front changes, a `tty_render` never leaves the frame, and each
cell of the tty in front that no call has still to draw shows the character which everything written on that tty has put
there, or the cursor. -/
theorem reachable_picture (columns : 8 ≤ W) (lines : 16 ≤ H) (two : 2 ≤ W / 8 * (H / 16)) (narrow : W < 2 ^ 16)
    (low : H < 2 ^ 16) (run : (video font W H).Reachable s) :
    (∀ t k, .drawing t k ∈ s.calls → k < (s.screen t).lines * (s.screen t).columns →
      ∃ vga, ttyRenderRound (s.screen t) t (k / (s.screen t).columns) (k % (s.screen t).columns) k s.fb
        s.vga = some vga) ∧
    ∃ t : TtyId, s.fb.current.toNat = t ∧ ∀ row < H / 16, ∀ col < W / 8, Done s.calls t (row * (W / 8) + col) →
      ∀ i < 8, ∀ j < 16, s.vga.pixel (col * 8 + i) (row * 16 + j) =
        glyph font (windowChar (interpretAll (H / 16) (W / 8) (s.written t)) row col) i j := by
  have P := reachable_pictured columns lines two narrow low run
  constructor
  · intro t k _ inside
    rw [(P.shows t).height, (P.shows t).width] at inside
    rw [(P.shows t).width]
    obtain ⟨vga, done, -⟩ := P.round narrow low inside
    exact ⟨vga, done⟩
  · obtain ⟨t, front⟩ := P.front
    refine ⟨t, front, fun row onRow col onCol drawn i hi j hj => ?_⟩
    have inside : row * (W / 8) + col < H / 16 * (W / 8) := by
      have := Nat.mul_le_mul_right (W / 8) onRow
      rw [Nat.succ_mul] at this
      omega
    have cell := P.cells t front _ inside drawn i hi j hj
    rw [shown_grid (P.shows t) onRow onCol, Nat.mul_comm row, Nat.mul_add_mod, Nat.mod_eq_of_lt onCol,
      Nat.mul_add_div (Nat.zero_lt_of_lt onCol), Nat.div_eq_of_lt onCol, Nat.add_zero] at cell
    exact cell

def sampleFont (i : Nat) : Byte := if i < 16 * 0xdb then 0 else 0xff

def sampleVideo : State where
  vga := ⟨16, 16, fun _ => ⟨0, 0, 0⟩⟩
  fb := fbInit ⟨16, 16, fun _ => ⟨0, 0, 0⟩⟩ sampleFont fun _ => []
  screen := fun _ => ttyInit 1 2
  calls := [.render ⟨0, by decide⟩]
  written := fun _ => []

/-- `tty1` is rendered after it was initialised: the cursor, and an empty cell behind it. -/
theorem reachable_picture_sample : ∃ s : State, s.calls = [] ∧ s.vga.pixel 0 0 = ⟨255, 255, 255⟩ ∧
    s.vga.pixel 15 15 = ⟨0, 0, 0⟩ := by
  have boot : (video sampleFont 16 16).Reachable sampleVideo := .init ⟨rfl, rfl, ⟨_, rfl⟩, rfl, rfl, rfl⟩
  have pictured {s : State} (run : (video sampleFont 16 16).Reachable s) :=
    reachable_picture (by decide) (by decide) (by decide) (by decide) (by decide) run
  have locked := boot.step (.lock (t := 0) (List.nil_append _).symm fun ch mem => by
    cases mem with
    | tail _ mem => exact absurd mem List.not_mem_nil)
  obtain ⟨vga₁, done₁⟩ := (pictured locked).1 0 0 (.head _) (show 0 < 1 * 2 by decide)
  have first := locked.step (.draw (t := 0) (List.nil_append _).symm (show 0 < 1 * 2 by decide) done₁)
  obtain ⟨vga₂, done₂⟩ := (pictured first).1 0 1 (.head _) (show 1 < 1 * 2 by decide)
  have second := first.step (.draw (t := 0) (List.nil_append _).symm (show 1 < 1 * 2 by decide) done₂)
  have rendered := second.step (.unlock (t := 0) (List.nil_append _).symm (show 1 * 2 ≤ 2 by decide))
  obtain ⟨t, front, cells⟩ := (pictured rendered).2
  obtain rfl : 0 = t := Fin.ext front
  have cell {col : Nat} (onCol : col < 2) := cells 0 (by decide) col onCol fun _ mem => absurd mem List.not_mem_nil
  have cursor : glyph sampleFont (windowChar (interpretAll 1 2 []) 0 0) 0 0 = ⟨255, 255, 255⟩ := by decide +kernel
  have empty : glyph sampleFont (windowChar (interpretAll 1 2 []) 0 1) 7 15 = ⟨0, 0, 0⟩ := by decide +kernel
  exact ⟨_, rfl, (cell (by decide : 0 < 2) 0 (by decide) 0 (by decide)).trans cursor,
    (cell (by decide : 1 < 2) 7 (by decide) 15 (by decide)).trans empty⟩

end OsLabs.Devices.Video

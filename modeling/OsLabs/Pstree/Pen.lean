import OsLabs.Data.Contract
import OsLabs.Pstree.Draw

/-!
# One line of the tree

What `search` does to `pre` and `stack` with one node, from the text in front of it to the
text in front of its children.
-/

namespace OsLabs.Pstree
open Util Function

namespace Pen

variable {p q : Pen} {front text : List Byte} {i n : Nat} {c : Byte} {type : Int} {count : Nat}

theorem setPre_ok : p.setPre i c = .ok q ↔ i < p.pre.length ∧ q = { p with pre := p.pre.set i c } := ite_ok_iff

theorem setStack_ok : p.setStack i n = .ok q ↔ i < stackSize ∧ q = { p with stack := update p.stack i n } := ite_ok_iff

theorem setLast_ok (some : 0 < p.stack i) :
    p.setLast i c = .ok q ↔ p.stack i - 1 < p.pre.length ∧ q = { p with pre := p.pre.set (p.stack i - 1) c } := by
  rw [setLast, if_neg (by omega), setPre_ok]

theorem take_set_succ {l : List Byte} {i : Nat} (inside : i < l.length) :
    (l.set i c).take (i + 1) = l.take i ++ [c] := by
  rw [List.take_add_one, List.take_set_of_le (Nat.le_refl i), List.getElem?_set_self inside]
  rfl

def blanked (l : List Byte) (i n : Nat) : List Byte := l.take i ++ (List.replicate n 32 ++ l.drop (i + n))

theorem blanked_succ {l : List Byte} (inside : i < l.length) :
    blanked (l.set i 32) (i + 1) n = blanked l i (n + 1) := by
  have behind : i + 1 + n = i + (n + 1) := by omega
  rw [blanked, take_set_succ inside, List.drop_set_of_lt (by omega), behind, List.append_assoc]
  rfl

theorem setPre_loop : ((List.range' i n).foldlM (fun p i => p.setPre i 32) p : Except DrawFault Pen) = .ok q ↔
    (n = 0 ∨ i + n ≤ p.pre.length) ∧ q = { p with pre := blanked p.pre i n } := by
  induction n generalizing i p with
  | zero => simp [blanked, pure, Except.pure, eq_comm]
  | succ n ih =>
    rw [List.range'_succ, List.foldlM_cons, bind_ok_iff]
    constructor
    · rintro ⟨p', first, rest⟩
      obtain ⟨inside, rfl⟩ := setPre_ok.mp first
      obtain ⟨room, rfl⟩ := ih.mp rest
      rw [List.length_set] at room
      exact ⟨.inr (by omega), by rw [blanked_succ inside]⟩
    · rintro ⟨room, rfl⟩
      have inside : i < p.pre.length := by omega
      refine ⟨_, setPre_ok.mpr ⟨inside, rfl⟩, ih.mpr ⟨.inr ?_, by rw [blanked_succ inside]⟩⟩
      rw [List.length_set]
      omega

/-- A node may be drawn below another one: `pre` has the text in front of it. -/
structure At (p : Pen) (front : List Byte) : Prop where
  below : p.isroot = false
  size : p.pre.length = preSize
  pre : ∃ junk, p.pre = front ++ 0 :: junk
  plain : 0 ∉ front
  top : p.stack p.head = front.length
  level : 0 < p.head
  deep : p.head ≤ front.length

/-- What stands in front of the name of a child. -/
def startText (front : List Byte) (type : Int) : List Byte :=
  if type = 0 then [45] else if type = -1 then front.dropLast ++ [92, 45] else front ++ [45]

/-- What then stands in front of the lines below. -/
def kept (front : List Byte) (type : Int) : List Byte := if type = -1 then front.dropLast ++ [32] else front

theorem preText_ok (pre : ∃ junk, p.pre = front ++ 0 :: junk) (plain : 0 ∉ front) : p.preText = .ok front := by
  obtain ⟨junk, pre⟩ := pre
  rw [preText, pre, strlen_append plain]
  simp [strlen, List.findIdx?_cons]

theorem At.ne_nil (h : p.At front) : front ≠ [] := by
  have := h.level
  have := h.deep
  rintro rfl
  simp_all

theorem length_startText (text : List Byte) (type : Int) (some : front ≠ []) :
    (startText front type ++ text).length + 1 =
    (if type = 0 then 0 else front.length) + text.length + 2 := by
  have := List.length_pos_of_ne_nil some
  unfold startText
  split
  · simp
  · split <;> simp <;> omega

def begun (p : Pen) (front text : List Byte) (type : Int) : Pen where
  pre := if type = -1 then p.pre.set (front.length - 1) 92 else p.pre
  stack := update p.stack (p.head + 1) (front.length + text.length + 2)
  head := p.head + 1
  isroot := false
  tmp := startText front type ++ text
  out := p.out

theorem At.marked (h : p.At front) :
    ∃ junk, p.pre.set (front.length - 1) 92 = (front.dropLast ++ [92]) ++ 0 :: junk := by
  obtain ⟨junk, pre⟩ := h.pre
  obtain ⟨init, last, rfl⟩ := (List.eq_nil_or_concat front).resolve_left h.ne_nil
  exact ⟨junk, by simp [pre]⟩

theorem dropLast_plain (plain : 0 ∉ front) (other : c ≠ 0) : 0 ∉ front.dropLast ++ [c] := by
  intro mem
  rcases List.mem_append.mp mem with mem | mem
  · exact plain (List.dropLast_subset front mem)
  · exact other (List.mem_singleton.mp mem).symm

/-- The `sprintf` for a node that is not the first child, with what follows. -/
theorem At.sprintf_eq (h : p.At front) (text : List Byte) (first : type ≠ 0) (k : Pen → Except DrawFault Pen) :
    ((if type = -1 then p.setLast p.head 92 else .ok p) >>= fun p =>
      p.preText >>= fun pre => p.sprintf (pre ++ 45 :: text) >>= k) =
      ((if (startText front type ++ text).length < tmpSize then
        .ok { p with
          pre := if type = -1 then p.pre.set (front.length - 1) 92 else p.pre
          tmp := startText front type ++ text }
      else .error .tmp) >>= k) := by
  by_cases last : type = -1
  · subst last
    have some := List.length_pos_of_ne_nil h.ne_nil
    have mark : p.setLast p.head 92 = .ok { p with pre := p.pre.set (front.length - 1) 92 } := by
      obtain ⟨junk, pre⟩ := h.pre
      refine (setLast_ok (by rw [h.top]; exact some)).mpr ⟨?_, by rw [h.top]⟩
      rw [h.top, pre, List.length_append]
      omega
    have shown := preText_ok (p := { p with pre := p.pre.set (front.length - 1) 92 }) h.marked
      (dropLast_plain h.plain (by decide))
    simp only [if_true, mark, shown, bind, Except.bind, sprintf, startText, first, if_false, List.append_assoc,
      List.cons_append, List.nil_append]
  · have shown := preText_ok h.pre h.plain
    simp only [if_neg last, shown, bind, Except.bind, sprintf, startText, if_neg first, List.append_assoc,
      List.cons_append, List.nil_append]

theorem At.begin_eq (h : p.At front) (text : List Byte) (type : Int) : p.begin text type =
    if (startText front type ++ text).length < tmpSize then
      if p.head + 1 < stackSize then .ok (p.begun front text type) else .error .stack
    else .error .tmp := by
  have width := length_startText text type h.ne_nil
  rw [begin, h.below, if_neg (by decide)]
  by_cases first : type = 0
  · subst first
    have wide : p.stack p.head + (45 :: text).length + 1 = front.length + text.length + 2 := by
      rw [h.top, List.length_cons]
      omega
    by_cases short : (45 :: text).length < tmpSize
    · by_cases room : p.head + 1 < stackSize
      · simp only [if_true, sprintf, setStack, bind, Except.bind, startText, begun, if_pos short, if_pos room, wide,
          List.singleton_append]
        rw [h.below]
        rfl
      · simp only [if_true, sprintf, setStack, bind, Except.bind, startText, if_pos short, if_neg room,
          List.singleton_append]
    · simp only [if_true, sprintf, bind, Except.bind, startText, if_neg short, List.singleton_append]
  · rw [if_neg first] at width
    rw [if_neg first]
    refine ite_bind.trans ((h.sprintf_eq text first _).trans ?_)
    by_cases short : (startText front type ++ text).length < tmpSize
    · by_cases room : p.head + 1 < stackSize
      · simp only [bind, Except.bind, setStack, begun, if_pos short, if_pos room, width]
        rw [h.below]
      · simp only [bind, Except.bind, setStack, if_pos short, if_neg room]
    · simp only [bind, Except.bind, if_neg short]

/-- What is printed behind the name. -/
def tail : Nat → List Byte
  | 0 => [10]
  | 1 => [45, 45]
  | _ => [45, 43]

def joint (count : Nat) : Byte := if count = 1 then 32 else 124

/-- The second half of `enter`. -/
def behind (p : Pen) (count : Nat) : Except DrawFault Pen := do
  let p ← p.fill
  let p ← p.setPre (p.stack p.head) 124
  let p ← match count with
    | 0 => .ok (p.print [10])
    | 1 => (p.print [45, 45]).setPre (p.stack p.head) 32
    | _ => .ok (p.print [45, 43])
  let p ← p.setStack p.head (p.stack p.head + 1)
  p.setPre (p.stack p.head) 0

theorem enter_eq : p.enter text count type = p.begin text type >>= fun p =>
    (if type = -1 then (p.print p.tmp).setLast (p.head - 1) 32 else .ok (p.print p.tmp)) >>=
    fun p => p.behind count := by
  unfold enter
  refine congrArg (p.begin text type >>= ·) (funext fun p => ?_)
  exact ite_bind

def joined (p : Pen) (count : Nat) : Pen where
  pre := ((blanked p.pre (p.stack (p.head - 1)) (p.stack p.head - p.stack (p.head - 1))).set (p.stack p.head)
    (joint count)).set
    (p.stack p.head + 1) 0
  stack := update p.stack p.head (p.stack p.head + 1)
  head := p.head
  isroot := p.isroot
  tmp := p.tmp
  out := p.out ++ tail count

theorem length_blanked {l : List Byte} (room : n = 0 ∨ i + n ≤ l.length) : (blanked l i n).length = l.length := by
  simp only [blanked, List.length_append, List.length_take, List.length_replicate, List.length_drop]
  omega

/-- The last two lines of `enter`. -/
theorem close_inside (done : (do
    let p ← p.setStack p.head (p.stack p.head + 1)
    p.setPre (p.stack p.head) 0) = .ok q) : p.stack p.head + 1 < p.pre.length := by
  obtain ⟨p₁, stacked, ended⟩ := bind_ok done
  obtain ⟨-, rfl⟩ := setStack_ok.mp stacked
  obtain ⟨inside, -⟩ := setPre_ok.mp ended
  simpa using inside

theorem close_eq (room : p.head < stackSize) (inside : p.stack p.head + 1 < p.pre.length) : (do
    let p ← p.setStack p.head (p.stack p.head + 1)
    p.setPre (p.stack p.head) 0) =
      .ok { p with
        pre := p.pre.set (p.stack p.head + 1) 0
        stack := update p.stack p.head (p.stack p.head + 1) } := by
  refine bind_ok_iff.mpr ⟨_, setStack_ok.mpr ⟨room, rfl⟩, setPre_ok.mpr ⟨?_, ?_⟩⟩
  · simpa using inside
  · simp

theorem behind_inside (done : p.behind count = .ok q) : p.stack p.head + 1 < p.pre.length := by
  obtain ⟨p₁, filled, done⟩ := bind_ok done
  obtain ⟨p₂, barred, done⟩ := bind_ok done
  obtain ⟨fits, rfl⟩ := setPre_loop.mp filled
  obtain ⟨-, rfl⟩ := setPre_ok.mp barred
  have same := length_blanked fits
  rcases count with _ | _ | n
  · have inside := close_inside done
    simpa [print, same] using inside
  · obtain ⟨p₃, told, done⟩ := bind_ok done
    obtain ⟨-, rfl⟩ := setPre_ok.mp told
    have inside := close_inside done
    simpa [print, same] using inside
  · have inside := close_inside done
    simpa [print, same] using inside

theorem behind_eq (low : p.stack (p.head - 1) ≤ p.stack p.head) (room : p.head < stackSize)
    (inside : p.stack p.head + 1 < p.pre.length) : p.behind count = .ok (p.joined count) := by
  have fits : p.stack p.head - p.stack (p.head - 1) = 0 ∨
      p.stack (p.head - 1) + (p.stack p.head - p.stack (p.head - 1)) ≤ p.pre.length := by omega
  have same := length_blanked fits
  have filled := setPre_loop.mpr ⟨fits, rfl⟩
  have bar : p.stack p.head <
      (blanked p.pre (p.stack (p.head - 1)) (p.stack p.head - p.stack (p.head - 1))).length := by omega
  refine bind_ok_iff.mpr ⟨_, filled, bind_ok_iff.mpr ⟨_, setPre_ok.mpr ⟨bar, rfl⟩, ?_⟩⟩
  rcases count with _ | _ | n
  · refine bind_ok_iff.mpr ⟨_, rfl, (close_eq ?_ ?_).trans ?_⟩
    · exact room
    · simpa [print, same] using inside
    · simp [joined, print, joint, tail]
  · refine bind_ok_iff.mpr ⟨_, setPre_ok.mpr ⟨?_, rfl⟩, (close_eq ?_ ?_).trans ?_⟩
    · simpa [print] using bar
    · exact room
    · simpa [print, same] using inside
    · simp [joined, print, joint, tail]
  · refine bind_ok_iff.mpr ⟨_, rfl, (close_eq ?_ ?_).trans ?_⟩
    · exact room
    · simpa [print, same] using inside
    · simp [joined, print, joint, tail]

theorem blanked_joined {l : List Byte} (pre : ∃ junk, l = front ++ 0 :: junk)
    (inside : front.length + n + 1 < l.length) :
    ∃ junk, ((blanked l front.length n).set (front.length + n) c).set (front.length + n + 1) 0 =
      (front ++ (List.replicate n 32 ++ [c])) ++ 0 :: junk := by
  obtain ⟨junk, rfl⟩ := pre
  obtain ⟨x, y, rest, behind⟩ : ∃ x y rest, (front ++ 0 :: junk).drop (front.length + n) = x :: y :: rest := by
    have long : 2 ≤ ((front ++ 0 :: junk).drop (front.length + n)).length := by
      rw [List.length_drop]
      omega
    obtain ⟨x, l, eq⟩ :=
      List.exists_cons_of_length_pos (show 0 < ((front ++ 0 :: junk).drop (front.length + n)).length by omega)
    rw [eq, List.length_cons] at long
    obtain ⟨y, rest, rfl⟩ := List.exists_cons_of_length_pos (show 0 < l.length by omega)
    exact ⟨x, y, rest, eq⟩
  have width : (front ++ List.replicate n (32 : Byte)).length = front.length + n := by simp
  refine ⟨rest, ?_⟩
  rw [blanked, behind, List.take_left, ← List.append_assoc, ← width]
  have pair (l : List Byte) : ((l ++ x :: y :: rest).set l.length c).set (l.length + 1) 0 = l ++ c ::
      0 :: rest := by simp
  rw [pair, List.append_assoc, List.append_assoc, List.append_assoc]
  rfl

/-- The pen when the blanks are written. -/
def prepared (p : Pen) (front text : List Byte) (type : Int) : Pen where
  pre := if type = -1 then p.pre.set (front.length - 1) 32 else p.pre
  stack := update p.stack (p.head + 1) (front.length + text.length + 2)
  head := p.head + 1
  isroot := false
  tmp := startText front type ++ text
  out := p.out ++ (startText front type ++ text)

theorem At.enter_eq (h : p.At front) : p.enter text count type =
    if (startText front type ++ text).length < tmpSize then
      if p.head + 1 < stackSize then (p.prepared front text type).behind count else .error .stack
    else .error .tmp := by
  rw [Pen.enter_eq, h.begin_eq]
  by_cases short : (startText front type ++ text).length < tmpSize
  · by_cases room : p.head + 1 < stackSize
    · rw [if_pos short, if_pos room, if_pos short, if_pos room]
      have other : p.head ≠ p.head + 1 := by omega
      have some := List.length_pos_of_ne_nil h.ne_nil
      have size := h.size
      have blank : (if type = -1 then ((p.begun front text type).print (p.begun front text type).tmp).setLast
          ((p.begun front text type).head - 1) 32 else .ok
            ((p.begun front text type).print (p.begun front text type).tmp)) =
          .ok (p.prepared front text type) := by
        by_cases last : type = -1
        · subst last
          have long : front.length ≤ p.pre.length := by
            obtain ⟨junk, pre⟩ := h.pre
            simp [pre]
          rw [if_pos rfl]
          refine (setLast_ok ?_).mpr ⟨?_, ?_⟩
          · simpa [begun, print, other, h.top] using some
          · simp [begun, print, h.top]
            omega
          · simp [begun, print, prepared, h.top]
        · simp [last, begun, print, prepared]
      exact congrArg (· >>= fun p => p.behind count) blank
    · rw [if_pos short, if_neg room, if_pos short, if_neg room]
      rfl
  · rw [if_neg short, if_neg short]
    rfl

theorem length_kept (some : front ≠ []) (type : Int) : (kept front type).length = front.length := by
  have := List.length_pos_of_ne_nil some
  unfold kept
  split
  · simp
    omega
  · rfl

theorem kept_plain (plain : 0 ∉ front) (type : Int) : 0 ∉ kept front type := by
  unfold kept
  split
  · exact dropLast_plain plain (by decide)
  · exact plain

theorem At.prepared_size (h : p.At front) (text : List Byte) (type : Int) :
    (p.prepared front text type).pre.length = preSize := by
  rw [← h.size, prepared]
  split <;> simp

theorem prepared_top :
    (p.prepared front text type).stack (p.prepared front text type).head = front.length + text.length + 2 := by
  simp [prepared]

theorem At.prepared_low (h : p.At front) (text : List Byte) (type : Int) :
    (p.prepared front text type).stack ((p.prepared front text type).head - 1) = front.length := by
  simp [prepared, h.top]

theorem At.prepared_pre (h : p.At front) (text : List Byte) (type : Int) :
    ∃ junk, (p.prepared front text type).pre = kept front type ++ 0 :: junk := by
  obtain ⟨junk, pre⟩ := h.pre
  by_cases last : type = -1
  · obtain ⟨init, x, rfl⟩ := (List.eq_nil_or_concat front).resolve_left h.ne_nil
    exact ⟨junk, by simp [prepared, kept, last, pre]⟩
  · exact ⟨junk, by simp [prepared, kept, last, pre]⟩

structure Entered (p q : Pen) (front text : List Byte) (count : Nat) (type : Int) : Prop where
  ready : q.At (kept front type ++ (List.replicate (text.length + 2) 32 ++ [joint count]))
  out : q.out = p.out ++ (startText front type ++ text ++ tail count)
  head : q.head = p.head + 1
  stack : ∀ i ≤ p.head, q.stack i = p.stack i

theorem joint_ne_zero (count : Nat) : joint count ≠ 0 := by
  unfold joint
  split <;> decide

theorem At.joined (h : p.At front) (inside : front.length + text.length + 3 < preSize) :
    Entered p ((p.prepared front text type).joined count) front text count type := by
  have width := length_kept h.ne_nil type
  have size := h.prepared_size text type
  have low := h.prepared_low text type
  have top : (p.prepared front text type).stack (p.prepared front text type).head = front.length + (text.length + 2) :=
    prepared_top
  have pre :=
    blanked_joined (n := text.length + 2) (c := joint count) (h.prepared_pre text type) (by rw [size, width]; omega)
  have deep := h.deep
  rw [width] at pre
  refine ⟨⟨rfl, ?_, ?_, ?_, ?_, Nat.succ_pos p.head, ?_⟩, ?_, rfl, ?_⟩
  · rw [Pen.joined, List.length_set, List.length_set, length_blanked, size]
    rw [low, top, size]
    omega
  · rw [Pen.joined, low, top, Nat.add_sub_cancel_left]
    exact pre
  · simp [kept_plain h.plain, (joint_ne_zero count).symm]
  · refine (update_self _ _ _).trans ?_
    rw [top]
    simp [width, Nat.add_assoc]
  · simp [Pen.joined, prepared, width]
    omega
  · simp [Pen.joined, prepared]
  · intro i le
    have other : i ≠ p.head + 1 := by omega
    simp [Pen.joined, prepared, other]

theorem At.entered (h : p.At front) (done : p.enter text count type = .ok q) :
    front.length + text.length + 3 < preSize ∧ Entered p q front text count type := by
  rw [h.enter_eq] at done
  split at done
  · split at done
    · next room =>
      have inside := behind_inside done
      rw [behind_eq (by rw [h.prepared_low, prepared_top]; omega) room inside] at done
      obtain rfl := Except.ok.inj done
      rw [prepared_top, h.prepared_size] at inside
      exact ⟨inside, h.joined inside⟩
    · cases done
  · cases done

theorem At.enter_returns (h : p.At front) (inside : front.length + text.length + 3 < preSize)
    (count : Nat) (type : Int) :
    ∃ q, p.enter text count type = .ok q := by
  have width := length_startText text type h.ne_nil
  have deep := h.deep
  have short : (startText front type ++ text).length < tmpSize := by
    simp only [preSize, tmpSize] at *
    split at width <;> omega
  have room : p.head + 1 < stackSize := by
    simp only [preSize, stackSize] at *
    omega
  rw [h.enter_eq, if_pos short, if_pos room]
  refine ⟨_, behind_eq ?_ room ?_⟩
  · rw [h.prepared_low, prepared_top]
    omega
  · rw [prepared_top, h.prepared_size]
    exact inside

theorem At.enter (h : p.At front) (text : List Byte) (count : Nat) (type : Int) :
    ReturnsWhen (front.length + text.length + 3 < preSize) (Entered p · front text count type)
    (p.enter text count type) :=
  .intro (fun _ => h.entered) fun inside => h.enter_returns inside count type

/-- What a call of `search` has done when it returns. -/
structure Passed (p q : Pen) (front text : List Byte) : Prop where
  ready : q.At front
  out : q.out = p.out ++ text
  head : q.head = p.head
  stack : ∀ i ≤ p.head, q.stack i = p.stack i

theorem Passed.trans {r : Pen} {front' text' : List Byte} (h : Passed p q front text) (h' : Passed q r front' text') :
    Passed p r front' (text ++ text') :=
  ⟨h'.ready, by rw [h'.out, h.out, List.append_assoc], h'.head.trans h.head,
    fun i le => (h'.stack i (by rw [h.head]; exact le)).trans (h.stack i le)⟩

theorem At.leave {more : List Byte} (h : p.At front) (type : Int) (inner : q.At (kept front type ++ more))
    (some : more ≠ []) (head : q.head = p.head + 1) (stack : ∀ i ≤ p.head, q.stack i = p.stack i) :
    ∃ r, q.leave = .ok r ∧ Passed { p with out := q.out } r (kept front type) [] := by
  have width := length_kept h.ne_nil type
  have down : q.head - 1 = p.head := by omega
  have top : q.stack (q.head - 1) = (kept front type).length := by rw [down, stack _ (Nat.le_refl _), h.top, width]
  obtain ⟨junk, pre⟩ := inner.pre
  obtain ⟨c, more, rfl⟩ := List.exists_cons_of_ne_nil some
  have inside : (kept front type).length < q.pre.length := by
    rw [pre]
    simp
  refine ⟨_, setPre_ok.mpr ⟨?_, rfl⟩, ⟨inner.below, ?_, ?_, kept_plain h.plain type, top, ?_, ?_⟩, ?_, down, stack⟩
  · rw [top]
    exact inside
  · rw [List.length_set]
    exact inner.size
  · rw [top]
    exact ⟨more ++ 0 :: junk, by simp [pre]⟩
  · rw [down]
    exact h.level
  · rw [down, width]
    exact h.deep
  · simp

end Pen

end OsLabs.Pstree

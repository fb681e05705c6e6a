import OsLabs.Data.Layout
import OsLabs.Pstree.Pen
import OsLabs.Pstree.Stat

/-!
# The tree on the screen

`search` prints the tree as `Brush.lines` lays it out: each line is one of the layout, and
a line that is too long for `pre` is where it leaves its arrays.
-/

namespace OsLabs.Pstree
open Util Function

def brush : Brush Byte := ⟨32, 45, 43, 124, 92⟩

def lineSize : Nat := preSize - 3

/-- A call of `search` that draws a block. -/
structure Draws (d : Int → Pen → Except DrawFault Pen) (block : List (List Byte)) : Prop where
  some : block ≠ []
  call {p : Pen} {front : List Byte} (h : p.At front) (type : Int) :
    ReturnsWhen (FitsBehind (front.length + 1) lineSize block)
      (Pen.Passed p · (Pen.kept front type)
        (unlines 10 (beside (Pen.startText front type) (Pen.kept front type ++ [32]) block)))
      (d type p)

def childType (count i : Nat) : Int := if 1 < count ∧ count - 1 = i then -1 else i

def drawAll (count : Nat) : List (Int → Pen → Except DrawFault Pen) → Nat → Pen → Except DrawFault Pen
  | [], _, p => .ok p
  | d :: ds, i, p => do
    let p ← d (childType count i) p
    drawAll count ds (i + 1) p

variable {ds : List (Int → Pen → Except DrawFault Pen)} {blocks : List (List (List Byte))} {count i : Nat}
  {p q : Pen} {m : List Byte}

theorem drawAll_single {d : Int → Pen → Except DrawFault Pen} : drawAll count [d] i p = d (childType count i) p := by
  rw [drawAll]
  cases d (childType count i) p <;> rfl

theorem drawAll_below (each : List.Forall₂ Draws ds blocks) (many : 1 < count) (pos : 0 < i)
    (all : i + ds.length = count)
    (h : p.At (m ++ [124])) : ReturnsWhen (∀ block ∈ blocks, FitsBehind (m.length + 2) lineSize block)
      (fun q => ∃ c, Pen.Passed p q (m ++ [c]) (unlines 10 (brush.below m blocks))) (drawAll count ds i p) := by
  induction each generalizing i p with
  | nil => exact ⟨by simp, 124, h, by simp [Brush.below, unlines], rfl, fun _ _ => rfl⟩
  | @cons d block ds blocks first each ih =>
    have call := first.call h (childType count i)
    rw [List.length_append, List.length_singleton] at call
    rw [List.length_cons] at all
    cases each with
    | nil =>
      have last : childType count i = -1 := if_pos ⟨many, by rw [List.length_nil] at all; omega⟩
      rw [drawAll_single]
      rw [last] at call ⊢
      refine (call.mono fun _ q passed => ⟨32, ?_⟩).congr (by simp)
      simpa [Pen.kept, Pen.startText, Brush.below, brush] using passed
    | @cons d' block' ds blocks second each =>
      rw [List.length_cons] at all
      have type : childType count i = i := if_neg (by omega)
      have zero : ¬(i : Int) = 0 := by omega
      have minus : ¬(i : Int) = -1 := by omega
      have kept : Pen.kept (m ++ [124]) i = m ++ [124] := if_neg minus
      have start : Pen.startText (m ++ [124]) i = m ++ [124] ++ [45] := by rw [Pen.startText, if_neg zero, if_neg minus]
      rw [type, kept, start] at call
      rw [drawAll, type]
      refine (call.bind (D := ∀ x ∈ block' :: blocks, FitsBehind (m.length + 2) lineSize x)
        fun _ q passed => ?_).congr ?_
      · refine (ih (Nat.succ_pos i) (by rw [List.length_cons]; omega) passed.ready).mono ?_
        intro _ r rest
        obtain ⟨c, rest⟩ := rest
        refine ⟨c, ?_⟩
        have both := passed.trans rest
        rw [← unlines_append] at both
        simpa [Brush.below, brush] using both
      · exact (List.forall_mem_cons (p := FitsBehind (m.length + 1 + 1) lineSize)).symm

/-- The calls for the children of a node. -/
theorem drawAll_row (each : List.Forall₂ Draws ds blocks) (h : p.At (m ++ [Pen.joint ds.length])) :
    ReturnsWhen (∀ block ∈ blocks, FitsBehind (m.length + 2) lineSize block)
      (fun q => ∃ c, Pen.Passed p q (m ++ [c]) (unlines 10 (brush.row m blocks))) (drawAll ds.length ds 0 p) := by
  cases each with
  | nil => exact ⟨by simp, _, h, by simp [Brush.row, unlines], rfl, fun _ _ => rfl⟩
  | @cons d block ds blocks first each =>
    have call := first.call h 0
    rw [List.length_append, List.length_singleton] at call
    have type : childType (d :: ds).length 0 = 0 := by
      rw [childType, if_neg (by omega)]
      rfl
    cases each with
    | nil =>
      rw [drawAll_single, type]
      refine (call.mono fun _ q passed => ⟨32, ?_⟩).congr (by simp)
      simpa [Pen.kept, Pen.startText, Brush.row, brush, Pen.joint] using passed
    | @cons d' block' ds blocks second each =>
      rw [drawAll, type]
      refine (call.bind (D := ∀ x ∈ block' :: blocks, FitsBehind (m.length + 2) lineSize x)
        fun _ q passed => ?_).congr ?_
      · refine (drawAll_below (.cons second each) (by simp) Nat.one_pos (by simp; omega) passed.ready).mono ?_
        intro _ r rest
        obtain ⟨c, rest⟩ := rest
        refine ⟨c, ?_⟩
        have both := passed.trans rest
        rw [← unlines_append] at both
        simpa [Pen.kept, Pen.startText, Brush.row, brush, Pen.joint] using both
      · exact (List.forall_mem_cons (p := FitsBehind (m.length + 1 + 1) lineSize)).symm

theorem tail_eq (count : Nat) : Pen.tail count = brush.knot 10 count := by
  rcases count with _ | _ | n <;> rfl

def drawNode (text : List Byte) (ds : List (Int → Pen → Except DrawFault Pen)) (type : Int) (p : Pen) :
    Except DrawFault Pen := do
  let p ← p.enter text ds.length type
  let p ← drawAll ds.length ds 0 p
  p.leave

theorem blocks_ne_nil (each : List.Forall₂ Draws ds blocks) : ∀ block ∈ blocks, block ≠ [] := by
  induction each with
  | nil => simp
  | cons first _ ih => exact List.forall_mem_cons.mpr ⟨first.some, ih⟩

theorem drawNode_draws (text : List Byte) (each : List.Forall₂ Draws ds blocks) :
    Draws (drawNode text ds) (brush.stem text blocks) := by
  have some := blocks_ne_nil each
  refine ⟨Brush.stem_ne_nil some, fun {p front} h type => ?_⟩
  refine ((h.enter text ds.length type).bind
    (D := ∀ block ∈ blocks, FitsBehind (front.length + 1 + text.length + 3) lineSize block)
    fun _ q entered => ?_).congr ?_
  · have row : q.At ((Pen.kept front type ++ [32] ++ brush.margin text) ++ [Pen.joint ds.length]) := by
      simpa [Brush.margin, brush, List.replicate_succ] using entered.ready
    have wide : (Pen.kept front type ++ [32] ++ brush.margin text).length + 2 = front.length + 1 + text.length + 3 := by
      simp [Pen.length_kept h.ne_nil]
      omega
    have children := drawAll_row each row
    rw [wide] at children
    refine (children.bind (D := True) fun _ r passed => ?_).congr (and_iff_left trivial)
    obtain ⟨c, passed⟩ := passed
    have deeper : r.head = p.head + 1 := passed.head.trans entered.head
    have same (i : Nat) (le : i ≤ p.head) : r.stack i = p.stack i :=
      (passed.stack i (by rw [entered.head]; omega)).trans (entered.stack i le)
    have inner : r.At (Pen.kept front type ++ (32 :: (brush.margin text ++ [c]))) := by simpa using passed.ready
    obtain ⟨r', left, back⟩ := h.leave type inner (by simp) deeper same
    rw [left]
    refine ⟨trivial, back.ready, ?_, back.head, back.stack⟩
    rw [back.out, List.append_nil, passed.out, entered.out, Brush.unlines_stem some, ← tail_eq, each.length_eq]
    simp only [List.append_assoc]
  · rw [Brush.fitsBehind_stem some]
    refine and_congr ?_ Iff.rfl
    simp only [lineSize, preSize]
    omega

theorem drawAll_append {es : List (Int → Pen → Except DrawFault Pen)} :
    drawAll count (ds ++ es) i p = drawAll count ds i p >>= drawAll count es (i + ds.length) := by
  induction ds generalizing i p with
  | nil => rfl
  | cons d ds ih =>
    rw [List.cons_append, drawAll, drawAll, bind_assoc]
    refine congrArg (d (childType count i) p >>= ·) (funext fun q => ?_)
    rw [ih, List.length_cons, Nat.add_right_comm]
    rfl

theorem searchSons_eq {issort showpid : Bool} {nson nthr : Nat} {sons : List Process} (all : i + sons.length = nson) :
    searchSons issort showpid nson nthr sons i p =
      drawAll (nson + nthr) (sons.map fun son type p => search issort showpid son type p) i p := by
  induction sons generalizing i p with
  | nil =>
    rw [searchSons]
    rfl
  | cons son sons ih =>
    rw [List.length_cons] at all
    have type : (if 1 < nson ∧ nthr = 0 ∧ nson - 1 = i then -1 else (i : Int)) = childType (nson + nthr) i := by
      rw [childType]
      refine if_congr ?_ rfl rfl
      omega
    rw [searchSons, List.map_cons, drawAll]
    simp only [type]
    refine congrArg (search issort showpid son (childType (nson + nthr) i) p >>= ·) (funext fun q => ih ?_)
    omega

def threadText (t : Thread) : List Byte :=
  if 1 < t.pid.toInt then intText t.pid ++ 42 :: 91 :: (t.name ++ [93]) else t.name

def threadLabel (showpid : Bool) (t : Thread) : List Byte := if showpid then label true t.name t.pid else threadText t

def drawThread (showpid : Bool) (t : Thread) (type : Int) (p : Pen) : Except DrawFault Pen :=
  if showpid then searchThread true t type p
  else threadName t p >>= fun x => searchThread false x.1 type x.2

/-- The loop over the threads with `-p`, from the `k`-th one on. -/
theorem searchThreads_loop (nson : Nat) {k nthr : Nat} {rest : List Thread} (all : k + rest.length = nthr) :
    (rest.zipIdx k).foldlM (fun p x => searchThread true x.1
      (if 1 < nson + nthr ∧ nthr - 1 + nson = x.2 + nson then -1 else ((x.2 + nson : Nat) : Int)) p) p =
    drawAll (nson + nthr) (rest.map (drawThread true)) (k + nson) p := by
  induction rest generalizing k p with
  | nil => rfl
  | cons t rest ih =>
    rw [List.length_cons] at all
    have type : (if 1 < nson + nthr ∧ nthr - 1 + nson = k + nson then -1 else ((k + nson : Nat) : Int)) =
        childType (nson + nthr) (k + nson) := by
      rw [childType]
      refine if_congr ?_ rfl rfl
      omega
    rw [List.zipIdx_cons, List.foldlM_cons, List.map_cons, drawAll, type]
    refine congrArg (searchThread true t (childType (nson + nthr) (k + nson)) p >>= ·) (funext fun q => ?_)
    rw [ih (k := k + 1) (by omega), Nat.add_right_comm]

theorem searchThreads_eq {showpid : Bool} {nson : Nat} {thr : List Thread} (one : showpid = false → thr.length ≤ 1) :
    searchThreads showpid nson thr p = drawAll (nson + thr.length) (thr.map (drawThread showpid)) nson p := by
  cases showpid with
  | false =>
    have one := one rfl
    cases thr with
    | nil => rfl
    | cons t thr =>
      obtain rfl : thr = [] := List.length_eq_zero_iff.mp (by rw [List.length_cons] at one; omega)
      have type : childType (nson + 1) nson = if nson = 0 then 0 else -1 := by
        rw [childType]
        split <;> split <;> omega
      rw [List.map_cons, List.map_nil, List.length_singleton, drawAll_single, type]
      rfl
  | true =>
    have loop := searchThreads_loop (p := p) nson (Nat.zero_add thr.length)
    rw [Nat.zero_add] at loop
    exact loop

theorem drawThread_single {t : Thread} {type : Int} (alone : ¬1 < t.pid.toInt) :
    drawThread false t type p = searchThread false t type p := by
  simp [drawThread, threadName, alone, bind, Except.bind]

theorem drawThread_several {t : Thread} {type : Int} (several : 1 < t.pid.toInt)
    (short : (threadText t).length < nameSize) :
    drawThread false t type p =
      searchThread false { t with name := threadText t } type { p with tmp := threadText t } := by
  have named : intText t.pid ++ 42 :: 91 :: (t.name ++ [93]) = threadText t := (if_pos several).symm
  have small : (threadText t).length < tmpSize := by
    simp only [nameSize, tmpSize] at *
    omega
  simp [drawThread, threadName, several, named, Pen.sprintf, short, small, bind, Except.bind]

theorem drawThread_fails {t : Thread} (type : Int) (several : 1 < t.pid.toInt)
    (long : ¬(threadText t).length < nameSize) :
    ∃ e, drawThread false t type p = .error e := by
  have named : intText t.pid ++ 42 :: 91 :: (t.name ++ [93]) = threadText t := (if_pos several).symm
  by_cases small : (threadText t).length < tmpSize
  · exact ⟨.name, by simp [drawThread, threadName, several, named, Pen.sprintf, long, small, bind, Except.bind]⟩
  · exact ⟨.tmp, by simp [drawThread, threadName, several, named, Pen.sprintf, small, bind, Except.bind]⟩

theorem drawThread_draws (showpid : Bool) (t : Thread) : Draws (drawThread showpid t) [threadLabel showpid t] := by
  have node (text : List Byte) : Draws (fun type p => p.enter text 0 type >>= fun p => p.leave) [text] :=
    drawNode_draws text .nil
  cases showpid with
  | true => exact node (label true t.name t.pid)
  | false =>
    refine ⟨List.cons_ne_nil _ _, fun {p front} h type => ?_⟩
    by_cases several : 1 < t.pid.toInt
    · by_cases short : (threadText t).length < nameSize
      · rw [drawThread_several several short]
        have ready : Pen.At { p with tmp := threadText t } front :=
          ⟨h.below, h.size, h.pre, h.plain, h.top, h.level, h.deep⟩
        exact ((node (threadText t)).call ready type).mono fun _ q passed =>
          ⟨passed.ready, passed.out, passed.head, passed.stack⟩
      · obtain ⟨e, failed⟩ := drawThread_fails (p := p) type several short
        rw [failed]
        intro fits
        have room : front.length + 1 + (threadText t).length ≤ lineSize := fits (threadText t) List.mem_cons_self
        simp only [lineSize, preSize, nameSize] at *
        omega
    · have text : threadLabel false t = t.name := if_neg several
      rw [drawThread_single several, text]
      exact (node t.name).call h type

def branch (issort showpid : Bool) (cur : Process) : Branch Byte :=
  .node (label showpid cur.name cur.pid)
    ((sortSons issort cur.son).attach.map (fun son => branch issort showpid son.1) ++
      cur.thr.map fun t => .node (threadLabel showpid t) [])
termination_by sizeOf cur
decreasing_by
  have smaller := List.sizeOf_lt_of_mem ((sortSons_perm issort cur.son).subset son.2)
  cases cur
  simp only [Process.mk.sizeOf_spec] at *
  omega

theorem branch_eq (issort showpid : Bool) (cur : Process) : branch issort showpid cur =
    .node (label showpid cur.name cur.pid)
      ((sortSons issort cur.son).map (branch issort showpid) ++
        cur.thr.map fun t => .node (threadLabel showpid t) []) := by
  rw [branch, List.attach_map_val (f := branch issort showpid)]

/-- Without `-p` there is one node for all threads. -/
inductive Counted (showpid : Bool) : Process → Prop where
  | mk {cur : Process} (one : showpid = false → cur.thr.length ≤ 1) (each : ∀ son ∈ cur.son, Counted showpid son) :
    Counted showpid cur

def drawers (issort showpid : Bool) (cur : Process) : List (Int → Pen → Except DrawFault Pen) :=
  ((sortSons issort cur.son).map fun son type p => search issort showpid son type p) ++ cur.thr.map (drawThread showpid)

theorem search_eq {issort showpid : Bool} {cur : Process} {type : Int} (one : showpid = false → cur.thr.length ≤ 1) :
    search issort showpid cur type p = drawNode (label showpid cur.name cur.pid)
    (drawers issort showpid cur) type p := by
  have count := (sortSons_perm issort cur.son).length_eq
  have all : (drawers issort showpid cur).length = cur.son.length + cur.thr.length := by simp [drawers, count]
  rw [search, drawNode, all]
  refine congrArg (p.enter (label showpid cur.name cur.pid) (cur.son.length + cur.thr.length) type >>= ·)
    (funext fun q => ?_)
  rw [drawers, drawAll_append, bind_assoc, searchSons_eq (by rw [count, Nat.zero_add]), List.length_map,
    count, Nat.zero_add]
  refine congrArg (drawAll (cur.son.length + cur.thr.length) _ 0 q >>= ·) (funext fun q => ?_)
  rw [searchThreads_eq one]

theorem forall₂_map {γ δ ι : Type} {R : γ → δ → Prop} {f : ι → γ} {g : ι → δ} {l : List ι}
    (each : ∀ x ∈ l, R (f x) (g x)) : List.Forall₂ R (l.map f) (l.map g) :=
  List.forall₂_map_left_iff.mpr (List.forall₂_map_right_iff.mpr (List.forall₂_same.mpr each))

theorem drawers_draw {issort showpid : Bool} {cur : Process}
    (each : ∀ son ∈ cur.son, Draws (fun type p => search issort showpid son type p)
      (brush.lines (branch issort showpid son))) :
    List.Forall₂ Draws (drawers issort showpid cur) (((sortSons issort cur.son).map (branch issort showpid) ++
      cur.thr.map fun t => Branch.node (threadLabel showpid t) []).map brush.lines) := by
  rw [List.map_append, List.map_map, List.map_map]
  refine List.rel_append (forall₂_map fun son mem => ?_) (forall₂_map fun t _ => ?_)
  · exact each son ((sortSons_perm issort cur.son).subset mem)
  · have alone : brush.lines (.node (threadLabel showpid t) []) = [threadLabel showpid t] := Brush.lines_node
    rw [comp_apply, alone]
    exact drawThread_draws showpid t

theorem search_draws {showpid : Bool} {cur : Process} (issort : Bool) (counted : Counted showpid cur) :
    Draws (fun type p => search issort showpid cur type p) (brush.lines (branch issort showpid cur)) := by
  induction counted with
  | @mk cur one each ih =>
    have same : (fun type p => search issort showpid cur type p) =
        drawNode (label showpid cur.name cur.pid) (drawers issort showpid cur) :=
      funext fun type => funext fun p => search_eq one
    rw [same, branch_eq, Brush.lines_node]
    exact drawNode_draws _ (drawers_draw ih)

/-! ### The root -/

/-- What `enter` has done with the root. -/
structure Started (q : Pen) (text : List Byte) (count : Nat) : Prop where
  ready : q.At (brush.margin text ++ [Pen.joint count])
  out : q.out = text ++ Pen.tail count
  head : q.head = 1
  bottom : q.stack 0 = 0

def rootPen (text : List Byte) : Pen where
  pre := List.replicate preSize 0
  stack := update (fun _ => 0) 1 (text.length + 1)
  head := 1
  isroot := false
  tmp := text
  out := text

theorem start_enter_eq (tmp text : List Byte) (count : Nat) : (Pen.start tmp).enter text count 0 =
    if text.length < tmpSize then (rootPen text).behind count else .error .tmp := by
  rw [Pen.enter_eq]
  by_cases short : text.length < tmpSize
  · have begun : (Pen.start tmp).begin text 0 = .ok { rootPen text with out := [] } := by
      simp [Pen.begin, Pen.start, Pen.sprintf, Pen.setStack, rootPen, short, stackSize, bind, Except.bind]
    rw [begun, if_pos short]
    simp only [bind, Except.bind, if_neg (show ¬(0 : Int) = -1 by decide)]
    rfl
  · rw [if_neg short]
    simp [Pen.begin, Pen.start, Pen.sprintf, short, bind, Except.bind]

theorem rootPen_top {text : List Byte} : (rootPen text).stack (rootPen text).head = text.length + 1 := by simp [rootPen]

theorem rootPen_low {text : List Byte} : (rootPen text).stack ((rootPen text).head - 1) = 0 := rfl

theorem rootPen_size {text : List Byte} : (rootPen text).pre.length = preSize := List.length_replicate

theorem rootPen_started {text : List Byte} (inside : text.length + 2 < preSize) (count : Nat) :
    Started ((rootPen text).joined count) text count := by
  have pre : ∃ junk, (rootPen text).pre = [] ++ 0 :: junk := ⟨List.replicate 511 0, rfl⟩
  refine ⟨⟨rfl, ?_, ?_, ?_, ?_, Nat.one_pos, ?_⟩, rfl, rfl, rfl⟩
  · rw [Pen.joined, List.length_set, List.length_set, Pen.length_blanked, rootPen_size]
    rw [rootPen_low, rootPen_top, rootPen_size]
    omega
  · have joined := Pen.blanked_joined (n := text.length + 1) (c := Pen.joint count) pre (by
      rw [rootPen_size, List.length_nil]
      omega)
    rw [List.length_nil, Nat.zero_add] at joined
    rw [Pen.joined, rootPen_low, rootPen_top, Nat.sub_zero]
    exact joined
  · simp [Brush.margin, brush, (Pen.joint_ne_zero count).symm]
  · simp [Pen.joined, rootPen]
  · simp [Pen.joined, rootPen]

theorem start_enter (tmp text : List Byte) (count : Nat) :
    ReturnsWhen (text.length + 2 < preSize) (Started · text count) ((Pen.start tmp).enter text count 0) := by
  have low : (rootPen text).stack ((rootPen text).head - 1) ≤ (rootPen text).stack (rootPen text).head := Nat.zero_le _
  have room : (rootPen text).head < stackSize := (by decide : 1 < stackSize)
  rw [start_enter_eq]
  refine .intro (fun q done => ?_) fun inside => ?_
  · split at done
    · have inside := Pen.behind_inside done
      rw [Pen.behind_eq low room inside] at done
      obtain rfl := Except.ok.inj done
      rw [rootPen_top, rootPen_size] at inside
      exact ⟨inside, rootPen_started inside count⟩
    · cases done
  · have short : text.length < tmpSize := by
      simp only [preSize, tmpSize] at *
      omega
    rw [if_pos short]
    exact ⟨_, Pen.behind_eq low room (by rw [rootPen_top, rootPen_size]; exact inside)⟩

theorem search_root {showpid : Bool} {cur : Process} (issort : Bool) (counted : Counted showpid cur) (tmp : List Byte) :
    ReturnsWhen (∀ line ∈ brush.lines (branch issort showpid cur), line.length ≤ lineSize)
      (fun q => q.out = unlines 10 (brush.lines (branch issort showpid cur)))
        (search issort showpid cur 0 (Pen.start tmp)) := by
  obtain ⟨one, each⟩ := counted
  have children := drawers_draw fun son mem => search_draws issort (each son mem)
  have some := blocks_ne_nil children
  rw [search_eq one, branch_eq, Brush.lines_node]
  generalize label showpid cur.name cur.pid = text at *
  generalize drawers issort showpid cur = ds at *
  generalize ((sortSons issort cur.son).map (branch issort showpid) ++
    cur.thr.map fun t => Branch.node (threadLabel showpid t) []).map brush.lines = blocks at *
  refine ((start_enter tmp text ds.length).bind (D := ∀ block ∈ blocks, FitsBehind (text.length + 3) lineSize block)
    fun _ q started => ?_).congr ?_
  · have row := drawAll_row children started.ready
    rw [length_margin] at row
    refine (row.bind (D := True) fun _ r passed => ?_).congr (and_iff_left trivial)
    obtain ⟨c, passed⟩ := passed
    have head : r.head - 1 = 0 := by rw [passed.head, started.head]
    have bottom : r.stack (r.head - 1) = 0 := by
      rw [head, passed.stack 0 (Nat.zero_le _)]
      exact started.bottom
    have inside : r.stack (r.head - 1) < r.pre.length := by
      rw [bottom, passed.ready.size]
      decide
    have left : r.leave = .ok _ := Pen.setPre_ok.mpr ⟨inside, rfl⟩
    rw [left]
    refine ⟨trivial, ?_⟩
    have shown := @Brush.unlines_stem Byte brush [] [] text blocks 10 some
    rw [beside_nil, List.nil_append, List.nil_append, ← tail_eq, ← children.length_eq, ← started.out] at shown
    rw [shown]
    exact passed.out
  · have fits := @Brush.fitsBehind_stem Byte brush text blocks 0 lineSize some
    simp only [FitsBehind, Nat.zero_add] at fits
    rw [fits]
    refine and_congr ?_ Iff.rfl
    simp only [lineSize, preSize]
    omega

theorem getSons_counted {fresh : CInt → Stat} {showpid : Bool} {children : List Proc} {nson : Nat}
    {tmp tmp' : List Byte}
    {sons : List Process}
    (each : ∀ child ∈ children, ∀ {tmp ret tmp'}, getinfo fresh showpid child tmp = .ok (ret, tmp') →
      Counted showpid ret)
    (done : getSons fresh showpid children nson tmp = .ok (sons, tmp')) :
    ∀ son ∈ sons, Counted showpid son := by
  induction children generalizing nson tmp tmp' sons with
  | nil =>
    unfold getSons at done
    obtain ⟨rfl, -⟩ := Prod.mk.inj (Except.ok.inj done)
    simp
  | cons child children ih =>
    obtain ⟨first, others⟩ := List.forall_mem_cons.mp each
    unfold getSons at done
    split at done
    · cases done
    · obtain ⟨⟨son, tmp₁⟩, one, done⟩ := bind_ok done
      obtain ⟨⟨sons, tmp₂⟩, rest, done⟩ := bind_ok done
      obtain ⟨rfl, -⟩ := Prod.mk.inj (Except.ok.inj done)
      exact List.forall_mem_cons.mpr ⟨first one, ih others rest⟩

theorem readEntry_one {pid : CInt} {name dName : List Byte} {t t' : Threads} (one : t.nthr ≤ 1)
    (done : readEntry false pid name t dName = .ok t') : t'.nthr ≤ 1 := by
  have last (t₁ : Threads) (done : (if !false ∧ 0 < t₁.nthr then do
      let t ← t₁.put name 0 (BitVec.ofNat 32 t₁.nthr)
      .ok { t with nthr := 1 }
    else .ok t₁) = .ok t') : t'.nthr ≤ 1 := by
    split at done
    · obtain ⟨t₂, -, done⟩ := bind_ok done
      obtain rfl := Except.ok.inj done
      exact Nat.le_refl 1
    · next none =>
      obtain rfl := Except.ok.inj done
      simp at none
      omega
  unfold readEntry at done
  split at done
  · dsimp only at done
    split at done
    · exact last t done
    · rw [if_neg (by decide)] at done
      exact last { t with nthr := t.nthr + 1 } done
  · obtain rfl := Except.ok.inj done
    exact one

/-- Without `-p` the nodes for threads are put into one. -/
theorem readTask_one {pid : CInt} {name tmp : List Byte} {task : List (List Byte)} {t : Threads}
    (done : readTask false pid name task tmp = .ok t) : t.list.length ≤ 1 := by
  have loop (task : List (List Byte)) (t₀ : Threads) (one : t₀.nthr ≤ 1)
      (done : task.foldlM (readEntry false pid name) t₀ = .ok t) : t.nthr ≤ 1 := by
    induction task generalizing t₀ with
    | nil =>
      obtain rfl := Except.ok.inj done
      exact one
    | cons dName task ih =>
      rw [List.foldlM_cons] at done
      obtain ⟨t₁, first, rest⟩ := bind_ok done
      exact ih t₁ (readEntry_one one first) rest
  have one := loop task _ (Nat.zero_le 1) done
  have few := List.length_filterMap_le t.thr (List.range t.nthr)
  rw [List.length_range] at few
  exact few.trans one

theorem getinfo_counted {fresh : CInt → Stat} {showpid : Bool} (p : Proc) {tmp tmp' : List Byte} {ret : Process}
    (done : getinfo fresh showpid p tmp = .ok (ret, tmp')) : Counted showpid ret := by
  induction size : sizeOf p using Nat.strong_induction_on generalizing p tmp tmp' ret with
  | _ n ih =>
    subst size
    obtain ⟨id, stat, children, task⟩ := p
    obtain ⟨info, tmp₁, son, tmp₂, t, -, sons, threads, rfl, -⟩ := getinfo_cases done
    refine .mk (fun off => ?_) (getSons_counted (fun child mem {_ _ _} done => ih _ ?_ child done rfl) sons)
    · subst off
      exact readTask_one threads
    · have smaller := List.sizeOf_lt_of_mem mem
      simp only [Proc.mk.sizeOf_spec]
      omega

/-- **`pstree` prints the tree, one line after the other, if and only if none of its lines is longer
than `lineSize`.** -/
theorem main_draws {fresh : CInt → Stat} {showpid : Bool} {proc : Proc} {root : Process} {tmp : List Byte}
    (read : getinfo fresh showpid proc [] = .ok (root, tmp)) (issort : Bool) (out : List Byte) :
    main fresh issort showpid proc = .ok out ↔
      (∀ line ∈ brush.lines (branch issort showpid root), line.length ≤ lineSize) ∧
        out = unlines 10 (brush.lines (branch issort showpid root)) := by
  have drawn := search_root issort (getinfo_counted proc read) tmp
  rw [main, read]
  constructor
  · intro done
    cases search : search issort showpid root 0 (Pen.start tmp) with
    | error e =>
      simp only [search] at done
      cases done
    | ok p =>
      simp only [search] at done
      obtain rfl := Except.ok.inj done
      exact drawn.value search
  · rintro ⟨short, rfl⟩
    obtain ⟨p, search⟩ := drawn.returns short
    simp only [search]
    rw [(drawn.value search).2]

def plainProc (pid : Nat) (comm : List Byte) (children : List Proc) : Proc :=
  .mk pid (statLine pid comm 83 1 (cstr " 0\n")) children []

def sampleRoot : Process :=
  ⟨1, 1, cstr "init", [⟨7, 1, cstr "sh", [], []⟩, ⟨8, 1, cstr "awk", [], []⟩], []⟩

theorem sampleRoot_lines : brush.lines (branch false false sampleRoot) = [cstr "init-+-awk", cstr "     \\-sh"] := by
  have leaf (pid ppid : CInt) (name : List Byte) : branch false false ⟨pid, ppid, name, [], []⟩ = .node name [] := by
    rw [branch_eq]
    rfl
  have sorted : sortSons false sampleRoot.son = [⟨8, 1, cstr "awk", [], []⟩, ⟨7, 1, cstr "sh", [], []⟩] := rfl
  rw [branch_eq, sorted, List.map_cons, List.map_cons, leaf, leaf, Brush.lines_node]
  rfl

theorem main_draws_sample : main (fun _ => ⟨0, [], 0⟩) false false
    (plainProc 1 (cstr "init") [plainProc 7 (cstr "sh") [], plainProc 8 (cstr "awk") []]) =
      .ok (cstr "init-+-awk\n     \\-sh\n") := by
  have init : getStat (statLine 1 (cstr "init") 83 1 (cstr " 0\n")) [] ⟨0, [], 0⟩ =
      .ok (⟨1, cstr "init", 1⟩, cstr "S") := by
    decide +kernel
  have sh : getStat (statLine 7 (cstr "sh") 83 1 (cstr " 0\n")) (cstr "S") ⟨0, [], 0⟩ =
      .ok (⟨7, cstr "sh", 1⟩, cstr "S") := by
    decide +kernel
  have read : getinfo (fun _ => ⟨0, [], 0⟩) false
      (plainProc 1 (cstr "init") [plainProc 7 (cstr "sh") [], plainProc 8 (cstr "awk") []]) [] =
        .ok (sampleRoot, cstr "S") := by
    simp only [plainProc, getinfo, getSons, init, sh, bind, Except.bind]
    rfl
  refine (main_draws read false _).mpr ?_
  rw [sampleRoot_lines]
  exact ⟨by decide, rfl⟩

end OsLabs.Pstree

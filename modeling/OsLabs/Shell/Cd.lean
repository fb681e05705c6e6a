import OsLabs.Shell.Descriptors

/-!
# Changing the directory

What `cd` is to do with the components of its operand, and what its loop does: it cuts
the operand with fixed jumps behind dots, goes on after a file, and keeps the part of
the way that it went before a component that is missing.
-/

namespace OsLabs.Shell
open Util Vfs

variable {W S I E : Type} {D : FileSystems W S I E} {s : State W S I} {tree : Path → Option Bool}
  {names names' : List Path}
  {moves moves' : List Move} {name arg1 : Path} {ret : Int}

/-! ### The directory as its names -/

/-- The path in the form "/" or "/a/b/". -/
def render (names : List Path) : Path := slash :: names.flatMap (· ++ [slash])

theorem render_append (names : List Path) (name : Path) :
    render (names ++ [name]) = render names ++ name ++ [slash] := by
  simp [render, List.flatMap_append]

/-- It ends with a slash. -/
theorem render_slash (names : List Path) : ∃ front, render names = front ++ [slash] := by
  rcases List.eq_nil_or_concat' names with rfl | ⟨init, name, rfl⟩
  · exact ⟨[], rfl⟩
  · exact ⟨_, render_append init name⟩

theorem flatMap_slash (names : List Path) : names.flatMap (· ++ [slash]) = [slash].intercalate (names ++ [[]]) := by
  induction names with
  | nil => rfl
  | cons name names ih =>
    rw [List.flatMap_cons, ih, List.cons_append, List.intercalate_cons_of_ne_nil (by simp)]

theorem render_inj (plain : ∀ n ∈ names, slash ∉ n) (plain' : ∀ n ∈ names', slash ∉ n) :
    render names = render names' ↔ names = names' := by
  refine ⟨fun same => ?_, congrArg render⟩
  have split {l : List Path} (plain : ∀ n ∈ l, slash ∉ n) : (l.flatMap (· ++ [slash])).splitOn slash = l ++ [[]] := by
    rw [flatMap_slash]
    refine List.splitOn_intercalate slash (fun n mem => ?_) (by simp)
    rcases List.mem_append.mp mem with mem | mem
    · exact plain n mem
    · simp [List.mem_singleton.mp mem]
  have tails := congrArg (List.splitOn slash) (List.cons.inj same).2
  rw [split plain, split plain'] at tails
  exact List.append_cancel_right tails

theorem parent_render (plain : ∀ n ∈ names, slash ∉ n) : parent (render names) = render names.dropLast := by
  rcases List.eq_nil_or_concat' names with rfl | ⟨init, name, rfl⟩
  · rfl
  · obtain ⟨front, front_eq⟩ := render_slash init
    have cut : (front ++ slash :: name ++ [slash]).take ((front ++ slash :: name ++ [slash]).length - 1) = front ++
        slash :: name := by
      rw [← List.dropLast_eq_take, List.dropLast_concat]
    have here : lastSlash 0 (front ++ slash :: name) = some front.length :=
      lastSlash_append (plain name (by simp)) (Nat.zero_le _)
    have long : 1 < (front ++ slash :: name ++ [slash]).length := by simp; omega
    rw [List.dropLast_concat, render_append, front_eq, show front ++ [slash] ++ name ++ [slash] = front ++ slash ::
      name ++ [slash] by simp,
      parent, if_pos long, cut, here]
    simp [List.take_append]

/-! ### What `cd` is to do -/

def components (arg1 : Path) : List Path := (arg1.splitOn slash).filter (· ≠ [])

/-- "." does nothing, ".." drops the last name, and any other name is appended. -/
def moveOf (component : Path) : Move :=
  if component = [46] then .stay else if component = [46, 46] then .up else .enter component

def Move.apply (names : List Path) : Move → List Path
  | stay => names
  | up => names.dropLast
  | enter name => names ++ [name]

/-- Where the moves lead if every name is that of a directory. -/
def walk (tree : Path → Option Bool) : List Path → List Move → Option (List Path)
  | names, [] => some names
  | names, .enter name :: moves => if tree (render names ++ name) = some true then walk tree
      (names ++ [name]) moves else none
  | names, move :: moves => walk tree (move.apply names) moves

def base (names : List Path) (arg1 : Path) : List Path := if arg1.head? = some slash then [] else names

/-- The new directory, or the report of a failure and the old one. -/
def Follows (tree : Path → Option Bool) (names : List Path) (arg1 : Path) (l : Locals) : Prop :=
  match walk tree (base names arg1) ((components arg1).map moveOf) with
  | some new => l.pwd = render new
  | none => fail [] <+: l.text ∧ l.pwd = render names

theorem walk_eq {new : List Path} (walked : walk tree names moves = some new) : new = moves.foldl Move.apply names := by
  induction moves generalizing names with
  | nil => exact (Option.some.inj walked).symm
  | cons move moves ih =>
    cases move with
    | stay => exact ih walked
    | up => exact ih walked
    | enter name =>
      rw [walk] at walked
      split at walked
      · exact ih walked
      · cases walked

/-! ### What the loop does -/

/-- The moves that the loop carries out: it passes over a file, and ends where a name is missing. -/
def passed (tree : Path → Option Bool) : List Path → List Move → List Move
  | _, [] => []
  | names, .enter name :: moves =>
    match tree (render names ++ name) with
    | none => []
    | some true => .enter name :: passed tree (names ++ [name]) moves
    | some false => passed tree names moves
  | names, move :: moves => move :: passed tree (move.apply names) moves

def status (tree : Path → Option Bool) : List Path → List Move → Int → Int
  | _, [], ret => ret
  | names, .enter name :: moves, ret =>
    match tree (render names ++ name) with
    | none => -1
    | some true => status tree (names ++ [name]) moves ret
    | some false => status tree names moves (-2)
  | names, move :: moves, ret => status tree (move.apply names) moves ret

/-- The moves up to the first name that is missing or not a directory. -/
def reached (tree : Path → Option Bool) : List Path → List Move → List Move
  | _, [] => []
  | names, .enter name :: moves =>
    .enter name :: if tree (render names ++ name) = some true then reached tree (names ++ [name]) moves else []
  | names, move :: moves => move :: reached tree (move.apply names) moves

/-! ### The walk and the loop -/

theorem walk_reached : walk tree names (reached tree names moves) = walk tree names moves := by
  induction moves generalizing names with
  | nil => rfl
  | cons move moves ih =>
    cases move with
    | stay => exact ih
    | up => exact ih
    | enter name =>
      rw [reached, walk, walk]
      split
      · exact ih
      · rfl

theorem passed_walk {new : List Path} (walked : walk tree names moves = some new) :
    (passed tree names moves).foldl Move.apply names = new ∧ status tree names moves ret = ret := by
  induction moves generalizing names with
  | nil => exact ⟨Option.some.inj walked, rfl⟩
  | cons move moves ih =>
    cases move with
    | stay => exact ih walked
    | up => exact ih walked
    | enter name =>
      rw [walk] at walked
      split at walked
      · rename_i dir
        simp only [passed, status, dir]
        exact ih walked
      · cases walked

theorem status_ne (failed : ret ≠ 0) : status tree names moves ret ≠ 0 := by
  induction moves generalizing names ret with
  | nil => exact failed
  | cons move moves ih =>
    cases move with
    | stay => exact ih failed
    | up => exact ih failed
    | enter name =>
      rw [status]
      split
      · decide
      · exact ih failed
      · exact ih (by decide)

/-- A component that is missing or not a directory makes the loop report a failure. -/
theorem status_failed (failed : walk tree names moves = none) : status tree names moves ret ≠ 0 := by
  induction moves generalizing names with
  | nil => cases failed
  | cons move moves ih =>
    cases move with
    | stay => exact ih failed
    | up => exact ih failed
    | enter name =>
      rw [walk] at failed
      rw [status]
      split
      · decide
      · rename_i dir
        rw [if_pos dir] at failed
        exact ih failed
      · exact status_ne (by decide)

def Plain (moves : List Move) : Prop := ∀ name, .enter name ∈ moves → slash ∉ name

theorem Move.apply_plain {move : Move} (plain : ∀ n ∈ names, slash ∉ n)
    (here : ∀ name, move = .enter name → slash ∉ name) :
    ∀ n ∈ move.apply names, slash ∉ n := by
  cases move with
  | stay => exact plain
  | up => exact fun n mem => plain n (List.mem_of_mem_dropLast mem)
  | enter name =>
    intro n mem
    rcases List.mem_append.mp mem with mem | mem
    · exact plain n mem
    · rw [List.mem_singleton.mp mem]
      exact here name rfl

/-- The moves that are carried out lead to names without a slash. -/
theorem passed_plain (plain : ∀ n ∈ names, slash ∉ n) (cut : Plain moves) :
    ∀ n ∈ (passed tree names moves).foldl Move.apply names, slash ∉ n := by
  induction moves generalizing names with
  | nil => exact plain
  | cons move moves ih =>
    have rest : Plain moves := fun name mem => cut name (List.mem_cons_of_mem _ mem)
    cases move with
    | stay => exact ih plain rest
    | up => exact ih (@Move.apply_plain names .up plain nofun) rest
    | enter name =>
      rw [passed]
      split
      · exact plain
      · exact ih (Move.apply_plain plain fun _ same => cut _ (same ▸ List.mem_cons_self)) rest
      · exact ih plain rest

/-- The loop of `cd` carries out these moves. -/
theorem cdLoop_ensures (D : FileSystems W S I E) (s : State W S I) (plain : ∀ n ∈ names, slash ∉ n)
    (cut : Plain moves) :
    Ensures (fun r =>
      r.2 = (render ((passed (look D s) names moves).foldl Move.apply names), status (look D s) names moves ret))
      (Trips True) (cdLoop D s (render names) moves ret) := by
  induction moves generalizing s names ret with
  | nil => rfl
  | cons move moves ih =>
    have rest : Plain moves := fun name mem => cut name (List.mem_cons_of_mem _ mem)
    cases move with
    | stay => exact ih s plain rest
    | up =>
      rw [cdLoop, parent_render plain]
      exact ih s (@Move.apply_plain names .up plain nofun) rest
    | enter name =>
      rw [passed, status]
      refine cdLoop_enter (fun _ => trivial) (fun _ absent => ?_) (fun _ dir => ?_) fun other cur i _ => ?_
      · simp [absent]
      · rw [dir, ← render_append]
        exact ih s (Move.apply_plain plain fun _ same => cut _ (same ▸ List.mem_cons_self)) rest
      · rw [other]
        exact ih _ plain rest

/-! ### Cutting the operand -/

theorem cdMovesFrom_plain (fuel : Nat) (rest : List Byte) : Plain (cdMovesFrom fuel rest) := by
  induction fuel generalizing rest with
  | zero => cases rest <;> exact fun _ mem => nomatch mem
  | succ fuel ih =>
    cases rest with
    | nil => exact fun _ mem => nomatch mem
    | cons c rest =>
      intro name mem
      rw [cdMovesFrom] at mem
      split at mem
      · split at mem <;> exact ih _ name ((List.mem_cons.mp mem).resolve_left nofun)
      · rcases List.mem_cons.mp mem with same | mem
        · rw [Move.enter.inj same]
          intro inside
          simpa using List.mem_takeWhile_imp inside
        · exact ih _ name mem

/-- A component that the loop cuts out as it is. -/
def Simple (component : Path) : Prop := component.head? = some 46 → component = [46] ∨ component = [46, 46]

/-- What follows a component: the end of the operand, or a slash. -/
def Ends (tail : Path) : Prop := tail = [] ∨ ∃ rest, tail = slash :: rest

theorem cdMovesFrom_component {component tail : Path} (fuel : Nat) (plain : slash ∉ component)
    (nonempty : component ≠ [])
    (simple : Simple component) (ends : Ends tail) :
    cdMovesFrom (fuel + 1) (component ++ tail) = moveOf component :: cdMovesFrom fuel (tail.drop 1) := by
  obtain ⟨c, rest, rfl⟩ := List.exists_cons_of_ne_nil nonempty
  by_cases dot : c = 46
  · have undotted : tail.head? ≠ some 46 := by
      rcases ends with rfl | ⟨_, rfl⟩
      · simp
      · simp [slash]
    rcases simple (congrArg some dot) with same | same
    · obtain ⟨rfl, rfl⟩ := List.cons.inj same
      rw [List.singleton_append, cdMovesFrom, if_pos rfl, if_neg undotted]
      rfl
    · obtain ⟨rfl, rfl⟩ := List.cons.inj same
      rfl
  · have name : ((c :: rest) ++ tail).takeWhile (· ≠ slash) = c :: rest := by
      have inside : ∀ x ∈ c :: rest, decide (x ≠ slash) = true := by
        intro x mem
        rw [decide_eq_true_eq]
        rintro rfl
        exact plain mem
      rw [List.takeWhile_append_of_pos inside]
      rcases ends with rfl | ⟨_, rfl⟩
      · simp
      · simp
    have plainName : moveOf (c :: rest) = .enter (c :: rest) := by
      simp [moveOf, dot]
    rw [plainName, List.cons_append, cdMovesFrom, if_neg dot, ← List.cons_append, name]
    exact congrArg (Move.enter (c :: rest) :: cdMovesFrom fuel ·) (List.drop_length_add_append ..)

theorem cdMovesFrom_components {pieces : List Path} {fuel : Nat} (plain : ∀ p ∈ pieces, slash ∉ p)
    (nonempty : ∀ p ∈ pieces.dropLast, p ≠ []) (simple : ∀ p ∈ pieces, Simple p)
    (enough : ([slash].intercalate pieces).length ≤ fuel) :
    cdMovesFrom fuel ([slash].intercalate pieces) = (pieces.filter (· ≠ [])).map moveOf := by
  have done (fuel : Nat) : cdMovesFrom fuel [] = [] := by cases fuel <;> rfl
  induction pieces generalizing fuel with
  | nil => exact done fuel
  | cons p pieces ih =>
    obtain ⟨plainHead, plain⟩ := List.forall_mem_cons.mp plain
    obtain ⟨simpleHead, simple⟩ := List.forall_mem_cons.mp simple
    cases pieces with
    | nil =>
      rw [List.intercalate_singleton] at enough ⊢
      by_cases empty : p = []
      · rw [empty, done]
        rfl
      · obtain ⟨fuel, rfl⟩ := Nat.exists_eq_add_of_lt (Nat.lt_of_lt_of_le (List.length_pos_iff.mpr empty) enough)
        have round := cdMovesFrom_component (0 + fuel) plainHead empty simpleHead (.inl rfl : Ends [])
        rw [List.append_nil] at round
        rw [round, List.drop_nil, done]
        simp [empty]
    | cons q pieces =>
      have filled : p ≠ [] := nonempty p (by simp)
      rw [List.intercalate_cons_cons] at enough ⊢
      rw [List.append_assoc, List.singleton_append] at enough ⊢
      simp only [List.length_append, List.length_cons] at enough
      obtain ⟨fuel, rfl⟩ : ∃ k, fuel = k + 1 := ⟨fuel - 1, by omega⟩
      rw [cdMovesFrom_component fuel plainHead filled simpleHead (.inr ⟨_, rfl⟩), List.drop_one, List.tail_cons,
        ih plain (fun p mem => nonempty p (List.mem_cons_of_mem _ mem)) simple (by omega)]
      simp [filled]

theorem splitOn_plain (path : Path) : ∀ p ∈ path.splitOn slash, slash ∉ p := by
  induction path with
  | nil => simp
  | cons c path ih =>
    rw [List.splitOn_cons_eq_if_modifyHead]
    split
    · exact List.forall_mem_cons.mpr ⟨List.not_mem_nil, ih⟩
    · rename_i other
      cases pieces : path.splitOn slash with
      | nil => exact nofun
      | cons p rest =>
        rw [pieces] at ih
        obtain ⟨first, later⟩ := List.forall_mem_cons.mp ih
        refine List.forall_mem_cons.mpr ⟨fun mem => ?_, later⟩
        rcases List.mem_cons.mp mem with same | mem
        · simp [same] at other
        · exact first mem

theorem cdMoves_components {operand : Path} (behind : operand = if arg1.head? = some slash then arg1.drop 1 else arg1)
    (nonempty : ∀ p ∈ (operand.splitOn slash).dropLast, p ≠ []) (simple : ∀ p ∈ operand.splitOn slash, Simple p) :
    cdMoves arg1 = (components arg1).map moveOf := by
  have pieces : components arg1 = (operand.splitOn slash).filter (· ≠ []) := by
    rw [components, behind]
    split
    · rename_i first
      obtain ⟨rest, rfl⟩ := List.head?_eq_some_iff.mp first
      simp [List.splitOn_cons_eq_if_modifyHead]
    · rfl
  have cut :=
    @cdMovesFrom_components _ operand.length (splitOn_plain operand) nonempty simple (by rw [List.intercalate_splitOn])
  rw [List.intercalate_splitOn] at cut
  rw [pieces, ← cut, cdMoves, ← behind]

/-! ### `cd` returns -/

/-- The bytes that a move adds to `pwd` at most. -/
def Move.cost : Move → Nat
  | stay => 0
  | up => 0
  | enter name => name.length + 1

def cost (moves : List Move) : Nat := (moves.map Move.cost).sum

theorem cost_cdMovesFrom (fuel : Nat) (rest : List Byte) : cost (cdMovesFrom fuel rest) ≤ rest.length + 1 := by
  induction fuel generalizing rest with
  | zero => cases rest <;> simp [cdMovesFrom, cost]
  | succ fuel ih =>
    cases rest with
    | nil => simp [cdMovesFrom, cost]
    | cons c rest =>
      rw [cdMovesFrom]
      split
      · split
        · have := ih (rest.drop 2)
          simp only [cost, List.map_cons, List.sum_cons, Move.cost, List.length_drop, List.length_cons] at this ⊢
          omega
        · have := ih (rest.drop 1)
          simp only [cost, List.map_cons, List.sum_cons, Move.cost, List.length_drop, List.length_cons] at this ⊢
          omega
      · generalize named : (c :: rest).takeWhile (· ≠ slash) = name
        have inside : name.length ≤ (c :: rest).length := named ▸ (List.takeWhile_prefix _).length_le
        by_cases last : name.length = (c :: rest).length
        · have none : (c :: rest).drop (name.length + 1) = [] := List.drop_eq_nil_of_le (by omega)
          have end' : cdMovesFrom fuel [] = [] := by cases fuel <;> rfl
          simp only [none, end', cost, Move.cost, List.map_cons, List.map_nil, List.sum_cons, List.sum_nil]
          omega
        · have := ih ((c :: rest).drop (name.length + 1))
          simp only [cost, Move.cost, List.map_cons, List.sum_cons, List.length_drop] at this ⊢
          omega

theorem parent_length (pwd : Path) : (parent pwd).length ≤ pwd.length := by
  unfold parent
  split
  · split
    · exact List.length_take_le' ..
    · exact le_rfl
  · exact le_rfl

/-- The calls of `vfs_open` in the loop return: the lock is free, and no lookup stops. -/
structure Quiet (D : FileSystems W S I E) (s : State W S I) : Prop where
  unlocked : s.lockVfs = false
  lookups : ∀ path, ∃ found, resolve D.toDriver s path = .ok found

def freeSlots (s : State W S I) : Nat := (opened s.flides).toList.count false

theorem slot_of_freeSlots (free : 0 < freeSlots s) : ∃ i, getFreeFlides s.flides = some i := by
  cases slot : getFreeFlides s.flides with
  | some i => exact ⟨i, rfl⟩
  | none =>
    rw [getFreeFlides_opened, List.findIdx?_eq_none_iff] at slot
    exact nomatch slot false (List.count_pos_iff.mp free)

theorem freeSlots_put {i : Nat} {file : File I} (slot : getFreeFlides s.flides = some i) :
    freeSlots (s.put i (some file)) + 1 = freeSlots s := by
  have unused := opened_free slot
  rw [← Vector.getElem?_toList] at unused
  obtain ⟨inside, here⟩ := List.getElem?_eq_some_iff.mp unused
  have pos : 0 < freeSlots s := List.count_pos_iff.mpr (here ▸ List.getElem_mem inside)
  have counted : freeSlots (s.put i (some file)) = freeSlots s - 1 := by
    rw [freeSlots, put_opened, Vector.toList_setIfInBounds, List.count_set inside, here]
    rfl
  omega

theorem cdLoop_returns {pwd : Path} (quiet : Quiet D s) (room : pwd.length + cost moves < pathBytes)
    (slots : moves.length < freeSlots s) : ∃ r, cdLoop D s pwd moves ret = .ok r ∧ r.2.1.length < pathBytes := by
  induction moves generalizing s pwd ret with
  | nil => exact ⟨_, rfl, by simpa [cost] using room⟩
  | cons move moves ih =>
    simp only [List.length_cons] at slots
    simp only [cost, List.map_cons, List.sum_cons] at room
    cases move with
    | stay =>
      rw [Move.cost] at room
      exact ih quiet (by simp only [cost]; omega) (by omega)
    | up =>
      have := parent_length pwd
      exact ih quiet (by simp only [cost]; omega) (by omega)
    | enter name =>
      rw [Move.cost] at room
      obtain ⟨i, slot⟩ := @slot_of_freeSlots _ _ _ s (by omega)
      obtain ⟨found, resolved⟩ := quiet.lookups (pwd ++ name)
      have fitting : (fits (pwd ++ name) : Except (Stop E) _) = .ok (pwd ++ name) :=
        if_pos (by rw [List.length_append]; omega)
      cases found with
      | none =>
        refine ⟨(s, pwd, -1), ?_, show pwd.length < pathBytes by omega⟩
        simp only [cdLoop, fitting, vfsOpen_missing quiet.unlocked resolved, bind, Except.bind, call, Except.mapError]
        rfl
      | some cur =>
        have small : (0 : Int) ≤ i := Int.natCast_nonneg i
        have entry : (fileAt (s.put i (some ⟨cur, 0⟩)) i : Except (Stop E) _) = .ok ⟨cur, 0⟩ := fileAt_eq slot _
        simp only [cdLoop, fitting, vfsOpen_found quiet.unlocked resolved slot, bind, Except.bind, call,
          Except.mapError,
          if_pos small, entry]
        cases kind : D.isDir cur with
        | true =>
          have fitting' : (fits (pwd ++ name ++ [slash]) : Except (Stop E) _) = .ok (pwd ++ name ++ [slash]) :=
            if_pos (by simp only [List.length_append, List.length_singleton]; omega)
          simp only [if_true, vfsClose_put_eq quiet.unlocked slot, fitting']
          exact ih quiet (by simp only [cost, List.length_append, List.length_singleton]; omega) (by omega)
        | false =>
          have one := @freeSlots_put _ _ _ s i ⟨cur, 0⟩ slot
          exact ih ⟨rfl, quiet.lookups⟩ (by simp only [cost]; omega) (by omega)

theorem cdText_length (pwd arg1 : Path) (ret : Int) : (cdText pwd arg1 ret).length ≤ 40 + pwd.length + arg1.length := by
  have change : (cstr "change director to ").length = 19 := rfl
  have missing : (cstr "no such file or directory: ").length = 27 := rfl
  have file : (cstr "not a directory: ").length = 17 := rfl
  have good : (cstr "[SUCCESS]: ").length = 11 := rfl
  have bad : (cstr "[FAIL]: ").length = 8 := rfl
  have last : (cstr "\n").length = 1 := rfl
  have none : (cstr "").length = 0 := rfl
  unfold cdText
  split
  · simp only [success, phrase, List.length_append, change, good, last, none, List.length_nil]
    omega
  · split
    · simp only [fail, phrase, List.length_append, missing, bad, last, none, List.length_nil]
      omega
    · simp only [notDirectory, fail, phrase, List.length_append, file, bad, last, none, List.length_nil]
      omega

theorem say_eq {l : Locals} {text : List Byte} (room : text.length + 1 ≤ l.text.length) :
    (l.say text : Except (Stop E) _) = .ok { l with text := text ++ [0] ++ l.text.drop (text.length + 1) } := by
  have fitting : (text ++ [0]).length ≤ l.text.length := by simpa using room
  rw [Locals.say, Locals.store, poke_start, if_pos fitting]
  simp

theorem cdStart_render (names : List Path) (arg1 : Path) : cdStart (render names) arg1 = render (base names arg1) := by
  unfold cdStart base
  split <;> rfl

theorem base_length (names : List Path) (arg1 : Path) : (render (base names arg1)).length ≤ (render names).length := by
  unfold base
  split
  · simp [render]
  · exact le_rfl

/-- `cd` returns, with buffers and descriptors enough. -/
theorem cd_returns {text : List Byte} (quiet : Quiet D s) (room : (render names).length + arg1.length + 1 < pathBytes)
    (slots : (cdMoves arg1).length < freeSlots s) (buffer : text.length = textBytes) :
    ∃ r, cd D s ⟨render names, text⟩ (some arg1) = .ok r := by
  have added : cost (cdMoves arg1) ≤ arg1.length + 1 := by
    refine (cost_cdMovesFrom _ _).trans (Nat.succ_le_succ ?_)
    split
    · simp
    · exact le_rfl
  have start := base_length names arg1
  obtain ⟨⟨s', pwd, ret⟩, done, short⟩ :=
    @cdLoop_returns _ _ _ _ D s (cdMoves arg1) 0 (cdStart (render names) arg1) quiet
    (by rw [cdStart_render]; omega) slots
  have printed := cdText_length pwd arg1 ret
  have room' : (cdText pwd arg1 ret).length + 1 ≤ text.length := by
    have : pathBytes = 128 := rfl
    have : textBytes = 1024 := rfl
    simp only at short
    omega
  have said := @say_eq E ⟨pwd, text⟩ _ room'
  refine ⟨(s', ⟨pwd, cdText pwd arg1 ret ++ [0] ++ text.drop ((cdText pwd arg1 ret).length + 1)⟩), ?_⟩
  unfold cdStart at done
  simp only [cd, done, bind, Except.bind, said]

/-! ### What `cd` meets -/

theorem base_plain (plain : ∀ n ∈ names, slash ∉ n) (arg1 : Path) : ∀ n ∈ base names arg1, slash ∉ n := by
  unfold base
  split
  · exact nofun
  · exact plain

theorem cdText_failed (pwd arg1 : Path) (failed : ret ≠ 0) : fail [] <+: cdText pwd arg1 ret := by
  have begins (text : List Byte) : fail [] <+: fail text := ⟨text, by simp [fail]⟩
  rw [cdText, if_neg failed]
  split
  · exact begins _
  · exact begins _

theorem say_ensures_text (l : Locals) (text : List Byte) :
    Ensures (fun l' => l'.pwd = l.pwd ∧ text <+: l'.text) (Trips True) (l.say text : Except (Stop E) _) := by
  unfold Locals.say Locals.store
  split
  · rename_i stored
    refine ⟨rfl, ?_⟩
    rw [poke_start] at stored
    split at stored
    · rw [← Option.some.inj stored, List.append_assoc]
      exact List.prefix_append ..
    · cases stored
  · exact nofun

/-- Where `cd` ends and what it prints. -/
theorem cd_ensures (D : FileSystems W S I E) (s : State W S I) (text : List Byte) (arg1 : Path)
    (plain : ∀ n ∈ names, slash ∉ n) :
    Ensures (fun r =>
      r.2.pwd = render ((passed (look D s) (base names arg1) (cdMoves arg1)).foldl Move.apply (base names arg1)) ∧
        cdText r.2.pwd arg1 (status (look D s) (base names arg1) (cdMoves arg1) 0) <+: r.2.text) (Trips True)
      (cd D s ⟨render names, text⟩ (some arg1)) := by
  have loop := @cdLoop_ensures _ _ _ _ _ _ 0 D s (base_plain plain arg1) (cdMovesFrom_plain _ _ : Plain (cdMoves arg1))
  rw [← cdStart_render] at loop
  apply loop.bind
  rintro ⟨s', pwd, ret⟩ same
  obtain ⟨rfl, rfl⟩ := Prod.mk.inj same
  exact (say_ensures_text _ _).bind fun l' said => ⟨said.1, said.1 ▸ said.2⟩

/-- The loop cuts out the components, up to the first that is missing or not a directory. -/
def Parsed (tree : Path → Option Bool) (names : List Path) (arg1 : Path) : Prop :=
  reached tree (base names arg1) (cdMoves arg1) = reached tree (base names arg1) ((components arg1).map moveOf)

def Arrives (tree : Path → Option Bool) (names : List Path) (arg1 : Path) : Prop :=
  (walk tree (base names arg1) ((components arg1).map moveOf)).isSome

/-- Then the new directory is what the components give, applied in order. -/
theorem Follows.eq {l : Locals} (follows : Follows tree names arg1 l) (arrives : Arrives tree names arg1) :
    l.pwd = render (((components arg1).map moveOf).foldl Move.apply (base names arg1)) := by
  obtain ⟨new, walked⟩ := Option.isSome_iff_exists.mp arrives
  rw [Follows, walked] at follows
  rw [← walk_eq walked]
  exact follows

/-- An operand without other names that begin with a dot, and without a slash behind a slash. -/
theorem parsed_of_simple {operand : Path} (tree : Path → Option Bool) (names : List Path)
    (behind : operand = if arg1.head? = some slash then arg1.drop 1 else arg1)
    (nonempty : ∀ p ∈ (operand.splitOn slash).dropLast, p ≠ []) (simple : ∀ p ∈ operand.splitOn slash, Simple p) :
    Parsed tree names arg1 :=
  congrArg (reached tree (base names arg1)) (cdMoves_components behind nonempty simple)

/-- What is carried out in spite of the failure leads back. -/
def Returns (tree : Path → Option Bool) (names : List Path) (arg1 : Path) : Prop :=
  (passed tree (base names arg1) (cdMoves arg1)).foldl Move.apply (base names arg1) = names

/-- **Where the loop cuts out the components, `cd` follows them if every one is a directory, and else if and only if the
moves before the failure lead back to where it was.** -/
theorem cd_follows_iff (D : FileSystems W S I E) (s : State W S I) (text : List Byte) (plain : ∀ n ∈ names, slash ∉ n)
    (parsed : Parsed (look D s) names arg1) :
    (∀ s' l', cd D s ⟨render names, text⟩ (some arg1) = .ok (s', l') →
      (Follows (look D s) names arg1 l' ↔
        Arrives (look D s) names arg1 ∨ Returns (look D s) names arg1)) ∧
    (Quiet D s → (render names).length + arg1.length + 1 < pathBytes → (cdMoves arg1).length < freeSlots s →
      text.length = textBytes → ∃ r, cd D s ⟨render names, text⟩ (some arg1) = .ok r) := by
  refine ⟨fun s' l' done => ?_, cd_returns⟩
  obtain ⟨pwd, reported⟩ := (cd_ensures D s text arg1 plain).value done
  simp only at pwd reported
  have same : walk (look D s) (base names arg1) ((components arg1).map moveOf) =
      walk (look D s) (base names arg1) (cdMoves arg1) := by
    rw [← walk_reached, ← parsed, walk_reached]
  simp only [Follows, Arrives, Returns, same]
  cases walked : walk (look D s) (base names arg1) (cdMoves arg1) with
  | some new =>
    have arrived := (@passed_walk _ _ _ 0 _ walked).1
    simp only [pwd, arrived, Option.isSome_some, true_or]
  | none =>
    have failed := @status_failed _ _ _ 0 walked
    have text : fail [] <+: l'.text := (cdText_failed _ _ failed).trans reported
    simp only [text, pwd, Option.isSome_none, Bool.false_eq_true, false_or, true_and]
    exact render_inj (passed_plain (base_plain plain arg1) (cdMovesFrom_plain _ _ : Plain (cdMoves arg1))) plain

/-- `cd` below the given directories, made on a fresh disk: what it finds at a path, and the new `pwd`. -/
def freshCd (dirs : List Path) (arg1 file : Path) : Except Ext2.Fault (Option Bool × Path) := do
  let (dev, gid) ← Ext2.ext2Init (fun _ => 0) 0 []
  let made := dirs.foldlM (fun (r : After _ _ _) dir => run oneDisk ⟨0, [], []⟩ r.1 r.2 (cstr "mkdir " ++ dir))
    (rootState dev gid, rootLocals)
  match made with
  | .ok (s, l) =>
    match cd oneDisk s ⟨render dirs, l.text⟩ (some arg1) with
    | .ok (_, l') => .ok (look oneDisk s file, l'.pwd)
    | .error _ => .error .null
  | .error _ => .error .null

theorem freshCd_ok {dirs : List Path} {arg1 file : Path} {r : Option Bool × Path}
    (done : freshCd dirs arg1 file = .ok r) :
    ∃ s text s' l', cd oneDisk s ⟨render dirs, text⟩ (some arg1) = .ok (s', l') ∧ look oneDisk s file = r.1 ∧
    l'.pwd = r.2 := by
  obtain ⟨⟨dev, gid⟩, -, done⟩ := bind_ok done
  simp only at done
  split at done
  · rename_i s l _
    split at done
    · rename_i s' l' ran
      obtain rfl := Except.ok.inj done
      exact ⟨s, l.text, s', l', ran, rfl, rfl⟩
    · cases done
  · cases done

/-- "/x" does not exist: `cd /x` leaves "/a/" for "/". And `cd //` goes to "//". -/
theorem cd_follows_iff_counterexample :
    (∃ s text s' l', cd oneDisk s ⟨render [[97]], text⟩ (some [slash, 120]) = .ok (s', l') ∧
      ¬Follows (look oneDisk s) [[97]] [slash, 120] l') ∧
    ∃ s text s' l', cd oneDisk s ⟨render [], text⟩ (some [slash, slash]) = .ok (s', l') ∧
      ¬Follows (look oneDisk s) [] [slash, slash] l' := by
  constructor
  · have ran : freshCd [[97]] [slash, 120] [slash, 120] = .ok (none, [slash]) := by decide +kernel
    obtain ⟨s, text, s', l', done, missing, pwd⟩ := freshCd_ok ran
    refine ⟨s, text, s', l', done, fun follows => ?_⟩
    have walked : walk (look oneDisk s) (base [[97]] [slash, 120]) ((components [slash, 120]).map moveOf) = none := by
      rw [show (components [slash, 120]).map moveOf = [.enter [120]] by decide]
      exact if_neg (by rw [show render (base [[97]] [slash, 120]) ++ [120] = [slash, 120] by decide, missing]; decide)
    simp only [Follows, walked, pwd] at follows
    exact absurd follows.2 (by decide)
  · have ran : freshCd [] [slash, slash] [slash] = .ok (some true, [slash, slash]) := by decide +kernel
    obtain ⟨s, text, s', l', done, -, pwd⟩ := freshCd_ok ran
    refine ⟨s, text, s', l', done, fun follows => ?_⟩
    have walked : walk (look oneDisk s) (base [] [slash, slash])
        ((components [slash, slash]).map moveOf) = some [] := by
      rw [show (components [slash, slash]).map moveOf = [] by decide]
      rfl
    simp only [Follows, walked, pwd] at follows
    exact absurd follows (by decide)

/-- A name that is missing, in "/". -/
theorem cd_follows_iff_sample : ∃ s text s' l', cd oneDisk s ⟨render [], text⟩ (some [46, slash, 120]) = .ok (s', l') ∧
    Follows (look oneDisk s) [] [46, slash, 120] l' := by
  have ran : freshCd [] [46, slash, 120] [slash, 120] = .ok (none, [slash]) := by decide +kernel
  obtain ⟨s, text, s', l', done, missing, -⟩ := freshCd_ok ran
  have moves : cdMoves [46, slash, 120] = [.stay, .enter [120]] := by decide
  have parsed : Parsed (look oneDisk s) [] [46, slash, 120] := congrArg (reached _ _) (by decide)
  have returns : Returns (look oneDisk s) [] [46, slash, 120] := by
    have absent : look oneDisk s (render [] ++ [120]) = none := missing
    have start : base [] [46, slash, 120] = [] := rfl
    rw [Returns, moves, start]
    simp only [passed, Move.apply, absent, List.foldl_cons, List.foldl_nil]
  exact ⟨s, text, s', l', done, ((cd_follows_iff oneDisk s text (by simp) parsed).1 s' l' done).mpr (.inr returns)⟩

end OsLabs.Shell

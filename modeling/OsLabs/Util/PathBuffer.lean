import OsLabs.Data.CString
import OsLabs.Data.Contract
import OsLabs.Util.Path

/-!
# The parts of a path in memory

`filename` and `alldir` on the bytes of the path and of the block that each of them takes
from `balloc`. A path and its copy lie in memory together, so that no length leaves the
range of an `int`.
-/

namespace OsLabs.Util.PathBuffer

inductive Fault where
  | outside
  deriving DecidableEq, Repr

def inside {α : Type} : Option α → Except Fault α
  | some a => .ok a
  | none => .error .outside

/-- What `pmm->alloc` gives for a number of bytes: a block of that size, whatever is in it, or `NULL`. -/
abbrev Alloc : Type := (n : Nat) → Option { block : List Byte // block.length = n }

/-- `balloc`; the last byte is not cleared. `NULL` is not tested for: the `memset`, of one byte at least in both of its
callers below, then writes from address 0 on. -/
def balloc (alloc : Alloc) (size : Nat) : Except Fault (List Byte) :=
  match alloc (size + 1) with
  | some block => inside (poke block 0 (List.replicate size 0))
  | none => .error .outside

def strcpy (buf src : List Byte) : Option (List Byte) := do
  poke buf 0 (src.take (← strlen src) ++ [0])

def filenameLoop (path : List Byte) : Nat → List Byte → Except Fault (List Byte)
  | 0, ret => .ok ret
  | i + 1, ret => do
    let c ← inside path[i + 1]?
    if c = slash then do
      let n ← inside (strlen (path.drop (i + 1 + 1)))
      let ret ← inside (strncpy ret 0 (path.drop (i + 1 + 1)) n)
      inside (poke ret n [0])
    else filenameLoop path i ret

/-- The bytes of the block that is returned, or `none` for `NULL`. -/
def filename (alloc : Alloc) (path : List Byte) : Except Fault (Option (List Byte)) := do
  let len ← inside (strlen path)
  if len = 0 then .ok none
  else do
    let ret ← balloc alloc (len + 1)
    let ret ← inside (strcpy ret path)
    let ret ← filenameLoop path len ret
    .ok (some ret)

def alldirLoop (path : List Byte) (i : Nat) (ret : List Byte) : Except Fault (List Byte) := do
  let c ← inside path[i]?
  if c = slash then do
    let ret ← inside (strncpy ret 0 path i)
    inside (poke ret i [0])
  else match i with
    | 0 => .ok ret
    | i + 1 => alldirLoop path i ret

def alldir (alloc : Alloc) (path : List Byte) : Except Fault (Option (List Byte)) := do
  let len ← inside (strlen path)
  if len = 0 then .ok none
  else do
    let ret ← balloc alloc len
    let ret ← alldirLoop path len ret
    .ok (some ret)

variable {alloc : Alloc} {path front back tail text ret block rest : List Byte} {i k n size : Nat}

/-! ### The block -/

theorem balloc_null (none : alloc (size + 1) = none) : balloc alloc size = .error .outside := by
  unfold balloc
  rw [none]

theorem balloc_cleared {block : { block : List Byte // block.length = size + 1 }}
    (given : alloc (size + 1) = some block) :
    ∃ last, balloc alloc size = .ok (List.replicate size 0 ++ [last]) := by
  have room : (List.replicate size (0 : Byte)).length ≤ block.1.length := by
    rw [List.length_replicate, block.2]
    omega
  have one : (block.1.drop size).length = 1 := by
    rw [List.length_drop, block.2]
    omega
  obtain ⟨last, drop⟩ := List.length_eq_one_iff.mp one
  refine ⟨last, ?_⟩
  unfold balloc
  rw [given]
  dsimp only
  rw [poke_start, if_pos room, List.length_replicate, drop]
  rfl

/-- A string that is put at the start of a block with room for it and its NUL. -/
theorem store_string (room : text.length < block.length) : ∃ rest,
    poke block 0 (text ++ [0]) = some (text ++ 0 :: rest) ∧ (text ++ 0 :: rest).length = block.length := by
  have fits : (text ++ [(0 : Byte)]).length ≤ block.length := by
    rw [List.length_append, List.length_singleton]
    omega
  refine ⟨block.drop (text.length + 1), ?_, ?_⟩
  · rw [poke_start, if_pos fits, List.length_append, List.append_assoc]
    rfl
  · rw [List.length_append, List.length_cons, List.length_drop]
    omega

/-- The same in two steps: its bytes, then the NUL behind them. -/
theorem copy_string (room : text.length < block.length) {src : List Byte}
    (bytes : strncpyBytes src text.length = some text) : ∃ copy rest,
    strncpy block 0 src text.length = some copy ∧ poke copy text.length [0] = some (text ++ 0 :: rest) := by
  have fits : text.length ≤ block.length := Nat.le_of_lt room
  have left : (block.drop text.length).length ≠ 0 := by
    rw [List.length_drop]
    omega
  obtain ⟨c, rest, drop⟩ := List.exists_cons_of_length_pos (Nat.pos_of_ne_zero left)
  refine ⟨text ++ c :: rest, rest, ?_, ?_⟩
  · unfold strncpy
    rw [bytes]
    change poke block 0 text = _
    rw [poke_start, if_pos fits, drop]
  · have := @poke_behind text (c :: rest) [0] 0
    rw [Nat.add_zero] at this
    rw [this, poke_start]
    rfl

/-! ### The loops -/

/-- There are characters other than a slash behind `lo`, up to `i`. -/
def Plain (path : List Byte) (lo i : Nat) : Prop := ∀ j, lo < j → j ≤ i → ∃ c, path[j]? = some c ∧ c ≠ slash

theorem plain_of_notMem (plain : slash ∉ text) (low : n < text.length) : ∃ c, text[n]? = some c ∧ c ≠ slash := by
  refine ⟨text[n], List.getElem?_eq_getElem low, ?_⟩
  intro here
  exact plain (here ▸ List.getElem_mem low)

theorem zero_plain (plain : slash ∉ text) : slash ∉ text ++ [0] := by
  rw [List.mem_append, List.mem_singleton]
  intro mem
  rcases mem with mem | zero
  · exact plain mem
  · cases zero

theorem plain_behind (plain : slash ∉ back) :
    Plain (front ++ slash :: back ++ [0]) front.length (front ++ slash :: back).length := by
  intro j behind within
  obtain ⟨m, rfl⟩ := Nat.exists_eq_add_of_le behind
  have low : m < (back ++ [(0 : Byte)]).length := by
    simp only [List.length_append, List.length_cons, List.length_nil] at within ⊢
    omega
  have step : front.length + 1 + m - front.length = m + 1 := by omega
  rw [List.append_assoc, List.getElem?_append_right (by omega), Nat.succ_eq_add_one, step]
  change ∃ c, (back ++ [0])[m]? = some c ∧ c ≠ slash
  exact plain_of_notMem (zero_plain plain) low

theorem plain_all (plain : slash ∉ text) : Plain (text ++ [0]) 0 text.length := by
  intro j _ within
  apply plain_of_notMem (zero_plain plain)
  rw [List.length_append, List.length_singleton]
  omega

theorem filenameLoop_down {lo : Nat} (below : lo ≤ i) (plain : Plain path lo i) :
    filenameLoop path i ret = filenameLoop path lo ret := by
  induction i with
  | zero => rw [Nat.le_zero.mp below]
  | succ i ih =>
    by_cases there : lo = i + 1
    · rw [there]
    · obtain ⟨c, char, other⟩ := plain (i + 1) (by omega) (Nat.le_refl _)
      rw [filenameLoop, char]
      change (if c = slash then _ else filenameLoop path i ret) = _
      rw [if_neg other]
      exact ih (by omega) fun j behind within => plain j behind (by omega)

theorem alldirLoop_down {lo : Nat} (below : lo ≤ i) (plain : Plain path lo i) :
    alldirLoop path i ret = alldirLoop path lo ret := by
  induction i with
  | zero => rw [Nat.le_zero.mp below]
  | succ i ih =>
    by_cases there : lo = i + 1
    · rw [there]
    · obtain ⟨c, char, other⟩ := plain (i + 1) (by omega) (Nat.le_refl _)
      rw [alldirLoop, char]
      change (if c = slash then _ else alldirLoop path i ret) = _
      rw [if_neg other]
      exact ih (by omega) fun j behind within => plain j behind (by omega)

theorem slash_at : (front ++ slash :: back ++ [0])[front.length]? = some slash := by
  rw [List.append_assoc, List.getElem?_append_right (Nat.le_refl _), Nat.sub_self]
  rfl

theorem inside_ok {α : Type} {o : Option α} {a : α} (here : o = some a) : inside o = .ok a := by
  rw [here]
  rfl

/-- At the last slash `filename` copies what is behind it. -/
theorem filenameLoop_slash (nonempty : front ≠ []) (plain : 0 ∉ back) (room : back.length < ret.length) :
    ∃ rest, filenameLoop (front ++ slash :: back ++ [0]) front.length ret = .ok (back ++ 0 :: rest) := by
  obtain ⟨i, size⟩ := Nat.exists_eq_succ_of_ne_zero (List.length_pos_of_ne_nil nonempty).ne'
  have behind : (front ++ slash :: back ++ [0]).drop (front.length + 1) = back ++ [0] := by
    rw [List.append_assoc, List.drop_length_add_append]
    rfl
  have char := @slash_at front back
  have len : strlen (back ++ [0]) = some back.length := strlen_string plain
  have bytes : strncpyBytes (back ++ [0]) back.length = some back := strncpyBytes_string plain
  obtain ⟨copy, rest, copied, ended⟩ := copy_string room bytes
  refine ⟨rest, ?_⟩
  rw [size] at behind char ⊢
  unfold filenameLoop
  refine bind_ok_iff.mpr ⟨slash, inside_ok char, ?_⟩
  rw [if_pos rfl, behind]
  refine bind_ok_iff.mpr ⟨back.length, inside_ok len, ?_⟩
  exact bind_ok_iff.mpr ⟨copy, inside_ok copied, inside_ok ended⟩

/-- `alldir` copies what is in front of it. -/
theorem alldirLoop_slash (plain : 0 ∉ front) (room : front.length < ret.length) :
    ∃ rest, alldirLoop (front ++ slash :: back ++ [0]) front.length ret = .ok (front ++ 0 :: rest) := by
  have bytes : strncpyBytes (front ++ slash :: back ++ [0]) front.length = some front := by
    rw [List.append_assoc]
    exact strncpyBytes_string plain
  obtain ⟨copy, rest, copied, ended⟩ := copy_string room bytes
  refine ⟨rest, ?_⟩
  unfold alldirLoop
  refine bind_ok_iff.mpr ⟨slash, inside_ok slash_at, ?_⟩
  rw [if_pos rfl]
  exact bind_ok_iff.mpr ⟨copy, inside_ok copied, inside_ok ended⟩

/-! ### The parts of a string -/

theorem split_last (mem : slash ∈ path) : ∃ front back, path = front ++ slash :: back ∧ slash ∉ back := by
  obtain ⟨front, back, split, plain⟩ := List.eq_append_cons_of_mem (List.mem_reverse.mpr mem)
  refine ⟨back.reverse, front.reverse, ?_, ?_⟩
  · have turned := congrArg List.reverse split
    rw [List.reverse_reverse, List.reverse_append, List.reverse_cons, List.append_assoc] at turned
    exact turned
  · rw [List.mem_reverse]
    exact plain

theorem alldir_split (last : slash ∉ back) : Util.alldir (some (front ++ slash :: back)) = some front := by
  have nonempty : front ++ slash :: back ≠ [] := List.append_ne_nil_of_right_ne_nil front (List.cons_ne_nil slash back)
  obtain ⟨c, tail, cons⟩ := List.exists_cons_of_ne_nil nonempty
  have found : lastSlash 0 (front ++ slash :: back) = some front.length := lastSlash_append last (Nat.zero_le _)
  have left : (front ++ slash :: back).take front.length = front := List.take_left
  rw [cons] at found left ⊢
  simp only [Util.alldir, found, left]

/-- A slash at the start of the path is not looked at. -/
theorem filename_split (nonempty : front ≠ []) (last : slash ∉ back) :
    Util.filename (some (front ++ slash :: back)) = some back := by
  obtain ⟨c, tail, rfl⟩ := List.exists_cons_of_ne_nil nonempty
  have low : 1 ≤ (c :: tail).length := by
    rw [List.length_cons]
    omega
  have found : lastSlash 1 ((c :: tail) ++ slash :: back) = some (c :: tail).length := lastSlash_append last low
  have right : ((c :: tail) ++ slash :: back).drop ((c :: tail).length + 1) = back := by
    rw [List.drop_length_add_append]
    rfl
  rw [List.cons_append] at found right ⊢
  simp only [Util.filename, found, right]

theorem alldir_plain (nonempty : path ≠ []) (plain : slash ∉ path) : Util.alldir (some path) = some [] := by
  obtain ⟨c, tail, rfl⟩ := List.exists_cons_of_ne_nil nonempty
  simp only [Util.alldir, lastSlash_none plain]

theorem filename_plain {c : Byte} (plain : slash ∉ tail) : Util.filename (some (c :: tail)) = some (c :: tail) := by
  have found : lastSlash 1 (c :: tail) = none := by
    apply List.find?_eq_none.mpr
    intro i _ there
    obtain ⟨low, here⟩ := of_decide_eq_true there
    obtain ⟨k, rfl⟩ := Nat.exists_eq_add_of_le' low
    exact plain (List.mem_of_getElem? here)
  simp only [Util.filename, found]

/-- The parts of a path that does not start with a slash. -/
theorem parts_eq (nonempty : path ≠ []) (relative : path.head? ≠ some slash) :
    ∃ dir base, Util.alldir (some path) = some dir ∧ Util.filename (some path) = some base ∧
      (slash ∈ path → dir ++ slash :: base = path ∧ slash ∉ base) ∧ (slash ∉ path → dir = [] ∧ base = path) := by
  by_cases mem : slash ∈ path
  · obtain ⟨front, back, rfl, last⟩ := split_last mem
    have begins : front ≠ [] := by
      intro none
      rw [none] at relative
      exact relative rfl
    exact ⟨front, back, alldir_split last, filename_split begins last, fun _ => ⟨rfl, last⟩,
      fun none => absurd mem none⟩
  · obtain ⟨c, tail, rfl⟩ := List.exists_cons_of_ne_nil nonempty
    have plain : slash ∉ tail := fun there => mem (List.mem_cons_of_mem c there)
    exact ⟨[], c :: tail, alldir_plain nonempty mem, filename_plain plain, fun there => absurd there mem,
      fun _ => ⟨rfl, rfl⟩⟩

/-! ### The calls -/

theorem strlen_path (plain : 0 ∉ path) : inside (strlen (path ++ [0])) = .ok path.length :=
  inside_ok (strlen_string plain)

/-- Until its loop `filename` has a copy of the path, in a block with room for one byte more. -/
theorem filename_copy (nonempty : path ≠ []) (plain : 0 ∉ path)
    {block : { block : List Byte // block.length = path.length + 2 }} (given : alloc (path.length + 2) = some block) :
    ∃ rest, path.length < (path ++ 0 :: rest).length ∧
      ∀ text, filenameLoop (path ++ [0]) path.length (path ++ 0 :: rest) = .ok text →
        filename alloc (path ++ [0]) = .ok (some text) := by
  obtain ⟨last, cleared⟩ := balloc_cleared given
  have room : path.length < (List.replicate (path.length + 1) (0 : Byte) ++ [last]).length := by
    rw [List.length_append, List.length_replicate]
    omega
  obtain ⟨rest, stored, size⟩ := store_string room
  refine ⟨rest, size ▸ room, ?_⟩
  intro text looped
  have copied : strcpy (List.replicate (path.length + 1) 0 ++ [last]) (path ++ [0]) = some (path ++ 0 :: rest) := by
    unfold strcpy
    rw [strlen_string plain]
    change poke _ 0 ((path ++ [0]).take path.length ++ [0]) = _
    rw [List.take_left]
    exact stored
  unfold filename
  refine bind_ok_iff.mpr ⟨path.length, strlen_path plain, ?_⟩
  rw [if_neg (List.length_pos_of_ne_nil nonempty).ne']
  refine bind_ok_iff.mpr ⟨_, cleared, bind_ok_iff.mpr ⟨_, inside_ok copied, ?_⟩⟩
  exact bind_ok_iff.mpr ⟨text, looped, rfl⟩

/-- `filename` keeps to the path and its block, and returns the string that the definition on strings gives. -/
theorem filename_refines (nonempty : path ≠ []) (plain : 0 ∉ path)
    {block : { block : List Byte // block.length = path.length + 2 }} (given : alloc (path.length + 2) = some block) :
    ∃ base rest, Util.filename (some path) = some base ∧
      filename alloc (path ++ [0]) = .ok (some (base ++ 0 :: rest)) := by
  obtain ⟨rest, room, looped⟩ := filename_copy nonempty plain given
  obtain ⟨c, tail, rfl⟩ := List.exists_cons_of_ne_nil nonempty
  by_cases mem : slash ∈ tail
  · obtain ⟨front, back, rfl, last⟩ := split_last mem
    have split : c :: (front ++ slash :: back) = (c :: front) ++ slash :: back := rfl
    rw [split] at plain room looped ⊢
    have plain' : 0 ∉ back := fun zero => plain (List.mem_append_right _ (List.mem_cons_of_mem _ zero))
    have short : back.length < ((c :: front) ++ slash :: back ++ 0 :: rest).length := by
      simp only [List.length_append, List.length_cons]
      omega
    obtain ⟨rest', done⟩ := filenameLoop_slash (List.cons_ne_nil c front) plain' short
    refine ⟨back, rest', filename_split (List.cons_ne_nil c front) last, ?_⟩
    apply looped
    rw [filenameLoop_down (by simp) (plain_behind last)]
    exact done
  · have others : Plain (c :: tail ++ [0]) 0 (c :: tail).length := by
      intro j behind within
      obtain ⟨k, rfl⟩ := Nat.exists_eq_add_of_le' behind
      change ∃ d, (tail ++ [0])[k]? = some d ∧ d ≠ slash
      apply plain_of_notMem (zero_plain mem)
      rw [List.length_append, List.length_singleton]
      rw [List.length_cons] at within
      omega
    refine ⟨c :: tail, rest, filename_plain mem, ?_⟩
    apply looped
    rw [filenameLoop_down (Nat.zero_le _) others]
    rfl

/-- The same for `alldir`. -/
theorem alldir_refines (nonempty : path ≠ []) (plain : 0 ∉ path)
    {block : { block : List Byte // block.length = path.length + 1 }} (given : alloc (path.length + 1) = some block) :
    ∃ dir rest, Util.alldir (some path) = some dir ∧ alldir alloc (path ++ [0]) = .ok (some (dir ++ 0 :: rest)) := by
  obtain ⟨last, cleared⟩ := balloc_cleared given
  have looped : ∀ text, alldirLoop (path ++ [0]) path.length (List.replicate path.length 0 ++ [last]) = .ok text →
      alldir alloc (path ++ [0]) = .ok (some text) := by
    intro text looped
    unfold alldir
    refine bind_ok_iff.mpr ⟨path.length, strlen_path plain, ?_⟩
    rw [if_neg (List.length_pos_of_ne_nil nonempty).ne']
    exact bind_ok_iff.mpr ⟨_, cleared, bind_ok_iff.mpr ⟨text, looped, rfl⟩⟩
  by_cases mem : slash ∈ path
  · obtain ⟨front, back, rfl, last'⟩ := split_last mem
    have plain' : 0 ∉ front := fun zero => plain (List.mem_append_left _ zero)
    have short : front.length < (List.replicate (front ++ slash :: back).length 0 ++ [last]).length := by
      simp only [List.length_append, List.length_cons, List.length_replicate]
      omega
    obtain ⟨rest, done⟩ := @alldirLoop_slash front back _ plain' short
    refine ⟨front, rest, alldir_split last', ?_⟩
    apply looped
    rw [alldirLoop_down (by simp) (plain_behind last')]
    exact done
  · obtain ⟨size, length⟩ := Nat.exists_eq_succ_of_ne_zero (List.length_pos_of_ne_nil nonempty).ne'
    refine ⟨[], List.replicate size 0 ++ [last], alldir_plain nonempty mem, ?_⟩
    apply looped
    rw [alldirLoop_down (Nat.zero_le _) (plain_all mem)]
    obtain ⟨d, char, other⟩ := plain_of_notMem (n := 0) (zero_plain mem) (by simp)
    unfold alldirLoop
    refine bind_ok_iff.mpr ⟨d, inside_ok char, ?_⟩
    rw [if_neg other, length]
    rfl

/-- Where there is no block, `balloc` clears memory that is neither the path's nor a block's. -/
theorem filename_null (nonempty : path ≠ []) (plain : 0 ∉ path) (none : alloc (path.length + 2) = none) :
    filename alloc (path ++ [0]) = .error .outside := by
  unfold filename
  rw [strlen_path plain]
  change (if path.length = 0 then _ else (balloc alloc (path.length + 1)).bind _) = _
  rw [if_neg (List.length_pos_of_ne_nil nonempty).ne', balloc_null none]
  rfl

theorem alldir_null (nonempty : path ≠ []) (plain : 0 ∉ path) (none : alloc (path.length + 1) = none) :
    alldir alloc (path ++ [0]) = .error .outside := by
  unfold alldir
  rw [strlen_path plain]
  change (if path.length = 0 then _ else (balloc alloc path.length).bind _) = _
  rw [if_neg (List.length_pos_of_ne_nil nonempty).ne', balloc_null none]
  rfl

/-! ### Both parts -/

/-- What the two calls leave of a path, having touched nothing but the path and their blocks: the two sides of the last
slash, or nothing and the path. The first allocator is the one that `alldir` finds, the second the one of `filename`. -/
def Parts (forDir forName : Alloc) (path : List Byte) : Prop :=
  ∃ dir base, (∃ rest, alldir forDir (path ++ [0]) = .ok (some (dir ++ 0 :: rest))) ∧
    (∃ rest, filename forName (path ++ [0]) = .ok (some (base ++ 0 :: rest))) ∧
    (slash ∈ path → dir ++ slash :: base = path ∧ slash ∉ base) ∧ (slash ∉ path → dir = [] ∧ base = path)

/-- **Directory and name of a path.** The calls leave them exactly if both are given a block. -/
theorem path_parts {forDir forName : Alloc} (nonempty : path ≠ []) (plain : 0 ∉ path)
    (relative : path.head? ≠ some slash) :
    Parts forDir forName path ↔ forDir (path.length + 1) ≠ none ∧ forName (path.length + 2) ≠ none := by
  constructor
  · rintro ⟨dir, base, ⟨_, dirs⟩, ⟨_, bases⟩, -⟩
    refine ⟨fun none => ?_, fun none => ?_⟩
    · rw [alldir_null nonempty plain none] at dirs
      cases dirs
    · rw [filename_null nonempty plain none] at bases
      cases bases
  · rintro ⟨forDir', forName'⟩
    obtain ⟨_, given⟩ := Option.ne_none_iff_exists'.mp forDir'
    obtain ⟨_, given'⟩ := Option.ne_none_iff_exists'.mp forName'
    obtain ⟨dir, rest, inDir, dirs⟩ := alldir_refines nonempty plain given
    obtain ⟨base, rest', inBase, bases⟩ := filename_refines nonempty plain given'
    obtain ⟨dir', base', same, same', slashed, single⟩ := parts_eq nonempty relative
    obtain rfl := Option.some.inj (inDir.symm.trans same)
    obtain rfl := Option.some.inj (inBase.symm.trans same')
    exact ⟨dir, base, ⟨rest, dirs⟩, ⟨rest', bases⟩, slashed, single⟩

def ample : Alloc := fun n => some ⟨List.replicate n 255, List.length_replicate⟩

/-- "a/b/c" -/
theorem path_parts_nested : Parts ample ample [97, 47, 98, 47, 99] := by
  have nonempty : ([97, 47, 98, 47, 99] : List Byte) ≠ [] := List.cons_ne_nil _ _
  have plain : (0 : Byte) ∉ ([97, 47, 98, 47, 99] : List Byte) := by simp
  have relative : ([97, 47, 98, 47, 99] : List Byte).head? ≠ some slash := by simp [slash]
  apply (path_parts nonempty plain relative).mpr
  constructor
  · rintro ⟨⟩
  · rintro ⟨⟩

/-- "a/b", with a full heap. -/
theorem path_parts_counterexample :
    ¬∀ (alloc : Alloc) (path : List Byte), path ≠ [] → 0 ∉ path → path.head? ≠ some slash → Parts alloc alloc path := by
  intro all
  obtain ⟨dir, base, ⟨rest, done⟩, -⟩ := all (fun _ => none) [97, 47, 98] (by simp) (by simp) (by simp [slash])
  rw [alldir_null (by simp) (by simp) rfl] at done
  cases done

end OsLabs.Util.PathBuffer

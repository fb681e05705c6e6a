import OsLabs.Data.Contract
import OsLabs.Pstree.Getinfo

/-!
# The line of a process

`%s` ends a process name at its first white space, and what follows is then taken for the
fields behind the name.
-/

namespace OsLabs.Pstree
open Util

variable {f : Stream} {before after word : List Byte} {stop : Byte}

def statLine (pid : Nat) (comm : List Byte) (state : Byte) (ppid : Nat) (rest : List Byte) : List Byte :=
  decimalText pid ++ 32 :: 40 :: comm ++ 41 :: 32 :: state :: 32 :: (decimalText ppid ++ rest)

/-- A name of up to 15 bytes, a letter for the state, ids that are positive `int`s, and more fields behind a space. -/
structure LineParts (pid : Nat) (comm : List Byte) (state : Byte) (ppid : Nat) (rest : List Byte) : Prop where
  pidBound : pid < 2 ^ 31
  short : comm.length ≤ 15
  text : 0 ∉ comm
  letter : isspace state = false ∧ state ≠ 0
  ppidBound : ppid < 2 ^ 31
  fields : ∀ b ∈ rest.head?, isspace b = true

/-! ### Words -/

theorem scanTmp_short (tmp : List Byte) (h : f.At before (word ++ stop :: after))
    (nonspace : ∃ b ∈ word, isspace b = false)
    (space : isspace stop = true) (short : word.length < tmpSize) :
    ∃ tmp' f', scanTmp f tmp = .ok (tmp', f') := by
  have rest : f.bytes.drop f.pos = word ++ stop :: after := by rw [h.bytes, h.pos, List.drop_left]
  have text : (word ++ stop :: after).dropWhile isspace = word.dropWhile isspace ++ stop :: after := by
    obtain ⟨b, mem, plain⟩ := nonspace
    rw [List.dropWhile_append, if_neg]
    intro none
    have all := List.dropWhile_eq_nil_iff.mp (List.isEmpty_iff.mp none) b mem
    rw [plain] at all
    cases all
  have bounded : ((word.dropWhile isspace ++ stop :: after).takeWhile fun b => !isspace b).length ≤ word.length := by
    have shorter : (word.dropWhile isspace).length ≤ word.length := (List.dropWhile_suffix _).length_le
    rw [List.takeWhile_append]
    split
    · rw [List.takeWhile_cons_of_neg (by rw [space]; decide), List.append_nil]
      exact shorter
    · exact Nat.le_trans (List.takeWhile_prefix _).length_le shorter
  have nonempty : word.dropWhile isspace ++ stop :: after ≠ [] := by simp
  unfold scanTmp Stream.getWord
  simp only [rest, text, if_neg nonempty]
  rw [if_pos (Nat.lt_of_le_of_lt bounded short)]
  exact ⟨_, _, rfl⟩

theorem scanTmp_word (tmp : List Byte) (h : f.At before (32 :: (word ++ stop :: after)))
    (plain : ∀ b ∈ word, isspace b = false)
    (nonempty : word ≠ []) (text : 0 ∉ word) (space : isspace stop = true) (short : word.length < tmpSize) :
    ∃ f', scanTmp f tmp = .ok (word, f') ∧ f'.At (before ++ 32 :: word) (stop :: after) := by
  have found :=
    @Stream.At.getWord f before after [32] word stop tmpSize (by simpa using h) (by simp [isspace]) space plain nonempty
  have whole : word.takeWhile (· ≠ 0) = word := by
    apply List.takeWhile_eq_self_iff.mpr
    intro b mem
    have other : b ≠ 0 := fun zero => text (zero ▸ mem)
    simpa using other
  unfold scanTmp
  rw [found]
  dsimp only
  rw [if_pos short, whole]
  refine ⟨_, rfl, ?_, ?_⟩
  · rw [h.bytes]
    simp
  · simp
    omega

/-! ### The line -/

variable {pid ppid : Nat} {comm rest : List Byte} {state : Byte} {info : Stat}

def ReadsLine (pid : Nat) (comm : List Byte) (ppid : Nat) (info : Stat) : Prop :=
  info = ⟨BitVec.ofNat 32 pid, comm, BitVec.ofNat 32 ppid⟩

theorem isdigit_space {b : Byte} (space : isspace b = true) : isdigit b = false := by
  by_contra digit
  rw [Stream.isspace_digit (Bool.eq_true_of_not_eq_false digit)] at space
  cases space

theorem scanInt_at {space : List Byte} {v : Nat} (old : CInt) (h : f.At before (space ++ (decimalText v ++ after)))
    (blank : ∀ b ∈ space, isspace b = true) (next : ∀ b ∈ after.head?, isspace b = true) :
    ∃ f', scanInt f old = (BitVec.ofNat 32 v, f') ∧ f'.At (before ++ space ++ decimalText v) after := by
  obtain ⟨f', read, moved⟩ := h.getInt blank fun b mem => isdigit_space (next b mem)
  refine ⟨f', ?_, moved⟩
  unfold scanInt
  rw [read]
  exact Prod.ext (BitVec.ofInt_natCast ..) rfl

theorem scanInt_line (tail : List Byte) (old : CInt) :
    ∃ f, scanInt (Stream.opened (decimalText pid ++ 32 :: tail)) old = (BitVec.ofNat 32 pid, f) ∧
      f.At (decimalText pid) (32 :: tail) := by
  have start : (Stream.opened (decimalText pid ++ 32 :: tail)).At [] ([] ++ (decimalText pid ++ 32 :: tail)) :=
    ⟨rfl, rfl⟩
  obtain ⟨f, read, moved⟩ := scanInt_at old start nofun (by simp [isspace])
  exact ⟨f, read, moved⟩

/-- A name without white space is read, and so are the fields behind it. -/
theorem getStat_plain (parts : LineParts pid comm state ppid rest) (plain : ∀ b ∈ comm, isspace b = false)
    (tmp : List Byte) (ret : Stat) :
    ∃ info tmp', getStat (statLine pid comm state ppid rest) tmp ret = .ok (info, tmp') ∧
    ReadsLine pid comm ppid info := by
  have short := parts.short
  have line : statLine pid comm state ppid rest =
      decimalText pid ++ 32 :: (40 :: comm ++ [41] ++ 32 :: ([state] ++ 32 :: (decimalText ppid ++ rest))) := by
    simp [statLine]
  obtain ⟨f, first, at₁⟩ :=
    @scanInt_line pid (40 :: comm ++ [41] ++ 32 :: ([state] ++ 32 :: (decimalText ppid ++ rest))) ret.pid
  have word (b : Byte) (mem : b ∈ 40 :: comm ++ [41]) : isspace b = false ∧ b ≠ 0 := by
    simp only [List.cons_append, List.mem_cons, List.mem_append, List.not_mem_nil, or_false] at mem
    rcases mem with rfl | mem | rfl
    · decide
    · exact ⟨plain b mem, fun zero => parts.text (zero ▸ mem)⟩
    · decide
  obtain ⟨f₁, name, at₂⟩ := scanTmp_word tmp at₁ (fun b mem => (word b mem).1) (by simp)
    (fun mem => (word 0 mem).2 rfl) (by decide) (by simp [tmpSize]; omega)
  have letter (b : Byte) (mem : b ∈ [state]) : isspace b = false := List.mem_singleton.mp mem ▸ parts.letter.1
  obtain ⟨f₂, skipped, at₃⟩ := scanTmp_word (40 :: comm ++ [41]).dropLast at₂ letter (by simp)
    (fun mem => parts.letter.2 (List.mem_singleton.mp mem).symm) (by decide) (by simp [tmpSize])
  have number : f₂.At _ ([32] ++ (decimalText ppid ++ rest)) := at₃
  obtain ⟨f₃, last, -⟩ := scanInt_at ret.ppid number (by simp [isspace]) parts.fields
  have bare : (40 :: comm ++ [41]).dropLast.drop 1 = comm := by
    rw [List.dropLast_concat]
    rfl
  refine ⟨⟨BitVec.ofNat 32 pid, comm, BitVec.ofNat 32 ppid⟩, [state], ?_, rfl⟩
  unfold getStat
  rw [line, first]
  simp only [bind, Except.bind, name]
  rw [if_neg (by simp), bare, if_neg (by simp [nameSize]; omega), skipped]
  dsimp only
  rw [last]

/-- Of any other name, what stands in front of the first white space, less one character. -/
theorem getStat_spaced {front back : List Byte} {space : Byte}
    (parts : LineParts pid (front ++ space :: back) state ppid rest)
    (plain : ∀ b ∈ front, isspace b = false) (blank : isspace space = true) (tmp : List Byte) (ret : Stat) :
    ∃ info tmp', getStat (statLine pid (front ++ space :: back) state ppid rest) tmp ret = .ok (info, tmp') ∧
      info.name = front.dropLast := by
  have short := parts.short
  rw [List.length_append, List.length_cons] at short
  have line : statLine pid (front ++ space :: back) state ppid rest =
      decimalText pid ++ 32 ::
        (40 :: front ++ space :: (back ++ [41] ++ 32 :: state :: 32 :: (decimalText ppid ++ rest))) := by
    simp [statLine]
  obtain ⟨f, first, at₁⟩ :=
    @scanInt_line pid
      (40 :: front ++ space :: (back ++ [41] ++ 32 :: state :: 32 :: (decimalText ppid ++ rest))) ret.pid
  have word (b : Byte) (mem : b ∈ 40 :: front) : isspace b = false ∧ b ≠ 0 := by
    rcases List.mem_cons.mp mem with rfl | mem
    · decide
    · exact ⟨plain b mem, fun zero => parts.text (zero ▸ List.mem_append_left _ mem)⟩
  obtain ⟨f₁, name, at₂⟩ := scanTmp_word tmp at₁ (fun b mem => (word b mem).1) (by simp)
    (fun mem => (word 0 mem).2 rfl) blank (by simp [tmpSize]; omega)
  have behind : f₁.At (decimalText pid ++ 32 :: 40 :: front)
      ((space :: back ++ [41]) ++ 32 :: state :: 32 :: (decimalText ppid ++ rest)) := by
    simpa using at₂
  obtain ⟨tmp', f₂, skipped⟩ := scanTmp_short (40 :: front).dropLast behind ⟨41, by simp, by decide⟩ (by decide)
    (by simp [tmpSize]; omega)
  have bare : (40 :: front).dropLast.drop 1 = front.dropLast := by
    cases front <;> rfl
  refine ⟨⟨BitVec.ofNat 32 pid, front.dropLast, (scanInt f₂ ret.ppid).1⟩, tmp', ?_, rfl⟩
  unfold getStat
  rw [line, first]
  simp only [bind, Except.bind, name]
  rw [if_neg (by simp), bare, if_neg (by simp [nameSize]; omega), skipped]

theorem first_space {b : Byte} (mem : b ∈ comm) (blank : isspace b = true) :
    ∃ front space back, comm = front ++ space :: back ∧ (∀ b ∈ front, isspace b = false) ∧ isspace space = true := by
  induction comm with
  | nil => cases mem
  | cons c comm ih =>
    by_cases spaced : isspace c = true
    · exact ⟨[], c, comm, rfl, nofun, spaced⟩
    · have later : b ∈ comm := (List.mem_cons.mp mem).resolve_left fun same => spaced (same ▸ blank)
      obtain ⟨front, space, back, rfl, clear, found⟩ := ih later
      exact ⟨c :: front, space, back, rfl, List.forall_mem_cons.mpr ⟨Bool.eq_false_iff.mpr spaced, clear⟩, found⟩

theorem getStat_readsLine (parts : LineParts pid comm state ppid rest) (tmp : List Byte) (ret : Stat) : ∃ info tmp',
    getStat (statLine pid comm state ppid rest) tmp ret = .ok (info, tmp') ∧ info.name.length ≤ comm.length ∧
      (ReadsLine pid comm ppid info ↔ ∀ b ∈ comm, isspace b = false) := by
  by_cases plain : ∀ b ∈ comm, isspace b = false
  · obtain ⟨info, tmp', done, reads⟩ := getStat_plain parts plain tmp ret
    exact ⟨info, tmp', done, by rw [reads], iff_of_true reads plain⟩
  · push Not at plain
    obtain ⟨b, mem, blank⟩ := plain
    obtain ⟨front, space, back, rfl, clear, spaced⟩ := first_space mem (Bool.eq_true_of_not_eq_false blank)
    obtain ⟨info, tmp', done, name⟩ := getStat_spaced parts clear spaced tmp ret
    have lengths := congrArg List.length name
    rw [List.length_dropLast] at lengths
    have whole : (front ++ space :: back).length = front.length + (back.length + 1) := by simp
    refine ⟨info, tmp', done, by omega, iff_of_false (fun reads => ?_) fun all => blank (all b mem)⟩
    have same : info.name = front ++ space :: back := congrArg Stat.name reads
    rw [same] at lengths
    omega

/-- What `getinfo` does for a process, in its order. -/
theorem getinfo_cases {fresh : CInt → Stat} {showpid : Bool} {id : CInt} {stat tmp tmp' : List Byte}
    {children : List Proc}
    {task : List (List Byte)} {ret : Process}
    (done : getinfo fresh showpid (.mk id stat children task) tmp = .ok (ret, tmp')) :
    ∃ info tmp₁ son tmp₂ t, getStat stat tmp (fresh id) = .ok (info, tmp₁) ∧
      getSons fresh showpid children 0 tmp₁ = .ok (son, tmp₂) ∧ readTask showpid id info.name task tmp₂ = .ok t ∧
      ret = ⟨info.pid, info.ppid, info.name, son, t.list⟩ ∧ tmp' = t.tmp := by
  unfold getinfo at done
  obtain ⟨⟨info, tmp₁⟩, line, done⟩ := bind_ok done
  obtain ⟨⟨son, tmp₂⟩, sons, done⟩ := bind_ok done
  obtain ⟨t, threads, done⟩ := bind_ok done
  obtain ⟨rfl, rfl⟩ := Prod.mk.inj (Except.ok.inj done)
  exact ⟨info, tmp₁, son, tmp₂, t, line, sons, threads, rfl, rfl⟩

/-- **The fields of a process are those of its line if and only if the name in the line holds no white space.** -/
theorem getinfo_readsLine (parts : LineParts pid comm state ppid rest) (fresh : CInt → Stat)
    (showpid : Bool) (id : CInt)
    (children : List Proc) (task : List (List Byte)) (tmp : List Byte) :
    (∃ info tmp', getStat (statLine pid comm state ppid rest) tmp (fresh id) = .ok (info, tmp')) ∧
    ∀ ret tmp', getinfo fresh showpid (.mk id (statLine pid comm state ppid rest) children task) tmp = .ok (ret, tmp') →
      (ret.pid = BitVec.ofNat 32 pid ∧ ret.name = comm ∧ ret.ppid = BitVec.ofNat 32 ppid ↔
        ∀ b ∈ comm, isspace b = false) := by
  obtain ⟨info, tmp₁, read, -, right⟩ := getStat_readsLine parts tmp (fresh id)
  refine ⟨⟨info, tmp₁, read⟩, fun ret tmp' done => ?_⟩
  obtain ⟨info', tmp₂, son, tmp₃, t, read', -, -, rfl, -⟩ := getinfo_cases done
  obtain ⟨rfl, rfl⟩ := Prod.mk.inj (Except.ok.inj (read.symm.trans read'))
  rw [← right, ReadsLine]
  obtain ⟨pid', name', ppid'⟩ := info
  simp only [Stat.mk.injEq]

theorem getinfo_readsLine_sample : ∃ ret tmp', getinfo (fun _ => ⟨0, [], 0⟩) false
    (.mk 1 (statLine 1 (cstr "init") 83 0 (cstr " 0\n")) [] []) [] = .ok (ret, tmp') ∧
      ret.pid = 1 ∧ ret.name = cstr "init" ∧ ret.ppid = 0 := by
  have parts : LineParts 1 (cstr "init") 83 0 (cstr " 0\n") :=
    ⟨by decide, by decide, by decide, by decide, by decide, by simp [cstr, isspace]⟩
  have lines := getinfo_readsLine parts (fun _ => ⟨0, [], 0⟩) false 1 [] [] []
  obtain ⟨info, tmp', read⟩ := lines.1
  have done : getinfo (fun _ => ⟨0, [], 0⟩) false (.mk 1 (statLine 1 (cstr "init") 83 0 (cstr " 0\n")) [] []) [] =
      .ok (⟨info.pid, info.ppid, info.name, [], []⟩, tmp') := by
    unfold getinfo getSons
    rw [read]
    rfl
  exact ⟨_, _, done, (lines.2 _ _ done).mpr (by simp [cstr, isspace])⟩

def spacedLine : List Byte := statLine 7 (cstr "a b") 83 1 (cstr " 0\n")

theorem getinfo_readsLine_counterexample : ∃ ret tmp', getinfo (fun _ => ⟨0, [], 0⟩) false (.mk 7 spacedLine [] []) [] =
    .ok (ret, tmp') ∧ ret.name = [] ∧ ret.ppid = 0 ∧
      ¬(ret.pid = 7 ∧ ret.name = cstr "a b" ∧ ret.ppid = 1) := by
  have read : getStat spacedLine [] ⟨0, [], 0⟩ = .ok (⟨7, [], 0⟩, cstr "b)") := by decide +kernel
  refine ⟨⟨7, 0, [], [], []⟩, cstr "b)", ?_, rfl, rfl, fun all => absurd all.2.1 (by decide)⟩
  unfold getinfo getSons
  rw [read]
  rfl

end OsLabs.Pstree

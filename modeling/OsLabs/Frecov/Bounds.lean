import OsLabs.Data.Contract
import OsLabs.Frecov.Model

/-!
# Reads outside the image

Nothing that the image says is checked before it is used as an offset, and the scan also
visits the entry at the end of the image.
-/

namespace OsLabs.Frecov

variable {img : List Byte} {offset ptr ext bmp : Int} {len base room size j : Nat} {name done : List Nat} {b : Bool}

theorem checked_iff {α : Type} {p : Prop} [Decidable p] {fault : Fault} {a b : α} :
    (if p then .ok a else .error fault) = Except.ok b ↔ p ∧ b = a := by
  split
  · rename_i holds
    rw [Except.ok.injEq, and_iff_right holds, eq_comm]
  · rename_i fails
    exact iff_of_false nofun fun h => fails h.1

theorem read_iff {v : Nat} : read img offset len = .ok v ↔ Inside img offset len ∧ v = field img offset len := by
  unfold read
  exact checked_iff

/-! ### The extension -/

def Letter (img : List Byte) (offset : Int) (lower upper : Nat) : Prop :=
    field img offset 1 = lower ∨ field img offset 1 = upper

instance {lower upper : Nat} : Decidable (Letter img offset lower upper) := inferInstanceAs (Decidable (_ ∨ _))

def IsBmp (img : List Byte) (ext : Int) : Prop :=
    Letter img ext 98 66 ∧ Letter img (ext + 1) 109 77 ∧ Letter img (ext + 2) 112 80

instance : Decidable (IsBmp img ext) := inferInstanceAs (Decidable (_ ∧ _ ∧ _))

/-- The letters of the extension are inside, as far as they are looked at. -/
def ExtInside (img : List Byte) (ext : Int) : Prop :=
  Inside img ext 1 ∧
    (Letter img ext 98 66 → Inside img (ext + 1) 1 ∧ (Letter img (ext + 1) 109 77 → Inside img (ext + 2) 1))

/-- The test of one byte, which ends the comparison when it is not the one that is looked for. -/
theorem test_iff {other : Nat → Prop} [DecidablePred other] {next : Except Fault Bool} :
    (do let c ← read img offset 1; if other c then .ok false else next) = .ok b ↔
      Inside img offset 1 ∧ if other (field img offset 1) then b = false else next = .ok b := by
  simp only [bind_ok_iff, read_iff, and_assoc, exists_and_left, exists_eq_left]
  apply and_congr_right
  intro _
  split
  · rw [Except.ok.injEq, eq_comm]
  · rfl

theorem isbmp_iff : isbmp img ext = .ok b ↔ ExtInside img ext ∧ b = decide (IsBmp img ext) := by
  unfold isbmp ExtInside IsBmp
  rw [test_iff, test_iff, test_iff]
  simp only [← not_or]
  change Inside img ext 1 ∧
    (if ¬Letter img ext 98 66 then _ else Inside img (ext + 1) 1 ∧ if ¬Letter img (ext + 1) 109 77 then _ else
    Inside img (ext + 2) 1 ∧ if ¬Letter img (ext + 2) 112 80 then _ else _) ↔ _
  by_cases first : Letter img ext 98 66
  · by_cases second : Letter img (ext + 1) 109 77
    · by_cases third : Letter img (ext + 2) 112 80 <;> simp [first, second, third, and_assoc, eq_comm]
    · simp [first, second, and_assoc]
  · simp [first]

/-! ### The walk back over the name -/

/-- An entry of a long name that is read in whole, its first byte apart. -/
def Long (img : List Byte) (ptr : Int) : Prop :=
    Inside img (ptr + 1) 31 ∧ field img (ptr + 11) 1 = 15 ∧ field img (ptr + 26) 2 = 0

/-- Any other entry, of which the fields that say so are inside. -/
def Ends (img : List Byte) (ptr : Int) : Prop :=
  Inside img (ptr + 11) 1 ∧ (field img (ptr + 11) 1 = 15 → Inside img (ptr + 26) 2 ∧ field img (ptr + 26) 2 ≠ 0)

/-- There are `j` entries of a long name back from `ptr`, and another one in front of them. -/
def LongRun (img : List Byte) (ptr : Int) : Nat → Prop
  | 0 => Ends img ptr
  | j + 1 => Long img ptr ∧ LongRun img (ptr - 32) j

def part (img : List Byte) (ptr : Int) : List Nat := nameOffsets.map fun offset => field img (ptr + offset) 2

def longName (img : List Byte) (ptr : Int) : Nat → List Nat
  | 0 => []
  | j + 1 => part img ptr ++ longName img (ptr - 32) j

theorem length_longName (img : List Byte) (ptr : Int) (j : Nat) : (longName img ptr j).length = 13 * j := by
  induction j generalizing ptr with
  | zero => rfl
  | succ j ih =>
    rw [longName, List.length_append, ih]
    simp [part, nameOffsets]
    omega

theorem isLong_iff : isLong img ptr = .ok b ↔
    b = true ∧ Inside img (ptr + 11) 1 ∧ field img (ptr + 11) 1 = 15 ∧ Inside img (ptr + 26) 2 ∧
    field img (ptr + 26) 2 = 0 ∨
    b = false ∧ Ends img ptr := by
  unfold isLong Ends
  simp only [bind_ok_iff, read_iff, and_assoc, exists_and_left, exists_eq_left]
  by_cases flag : field img (ptr + 11) 1 = 15
  · simp only [flag, if_true, true_imp_iff, bind_ok_iff, read_iff, and_assoc, exists_and_left, exists_eq_left, true_and]
    by_cases cluster : field img (ptr + 26) 2 = 0 <;> cases b <;> simp [cluster]
  · simp only [flag, if_false, false_and, and_false, false_imp_iff, and_true, false_or, Except.ok.injEq]
    cases b <;> simp

theorem copyName_iff (offsets : List Int) {done : List Nat} {base room : Nat} (start : done.length = base)
    (size : base + room = nameSize) :
    copyName img ptr offsets base (done ++ List.replicate room 0) = .ok name ↔
      (∀ offset ∈ offsets, Inside img (ptr + offset) 2) ∧ offsets.length ≤ room ∧
        name = done ++ offsets.map (fun offset => field img (ptr + offset) 2) ++
          List.replicate (room - offsets.length) 0 := by
  induction offsets generalizing done base room with
  | nil => simp [copyName, eq_comm]
  | cons offset offsets ih =>
    unfold copyName putName
    simp only [bind_ok_iff, read_iff, and_assoc, exists_and_left, exists_eq_left, List.forall_mem_cons]
    apply and_congr_right
    intro _
    cases room with
    | zero =>
      rw [if_neg (by omega)]
      simp
    | succ room =>
      have stored : (done ++ List.replicate (room + 1) 0).set base (field img (ptr + offset) 2) =
          (done ++ [field img (ptr + offset) 2]) ++ List.replicate room 0 := by
        rw [List.replicate_succ, List.set_append_right _ _ (by omega), start, Nat.sub_self, List.append_assoc]
        rfl
      rw [if_pos (by omega)]
      simp only [Except.ok.injEq, exists_eq_left', stored]
      rw [ih (by simp [start]) (by omega)]
      simp

theorem long_iff :
    Long img ptr ↔
    (Inside img (ptr + 11) 1 ∧ field img (ptr + 11) 1 = 15 ∧ Inside img (ptr + 26) 2 ∧ field img (ptr + 26) 2 = 0) ∧
    ∀ offset ∈ nameOffsets, Inside img (ptr + offset) 2 := by
  unfold Long Inside
  constructor
  · rintro ⟨inside, flag, cluster⟩
    refine ⟨⟨by omega, flag, by omega, cluster⟩, fun offset mem => ?_⟩
    have bounds : 1 ≤ offset ∧ offset ≤ 30 := by
      have all : ∀ offset ∈ nameOffsets, 1 ≤ offset ∧ offset ≤ 30 := by decide
      exact all offset mem
    omega
  · rintro ⟨⟨-, flag, -, cluster⟩, parts⟩
    have first := parts 1 (by decide)
    have last := parts 30 (by decide)
    exact ⟨by omega, flag, cluster⟩

/-- The walk stays inside if and only if it comes to another entry before it leaves the image and while there
is room. -/
theorem longEntries_iff {done : List Nat} {base room : Nat} (start : done.length = base)
    (size : base + room = nameSize) :
    longEntries img ptr base (done ++ List.replicate room 0) = .ok name ↔
      ∃ j, 13 * j ≤ room ∧ LongRun img ptr j ∧ name = done ++ longName img ptr j ++
        List.replicate (room - 13 * j) 0 := by
  induction room using Nat.strong_induction_on generalizing done base ptr with
  | _ room ih =>
    unfold longEntries
    simp only [bind_ok_iff, isLong_iff, or_and_right, exists_or, and_assoc, exists_and_left, exists_eq_left, if_true,
      Bool.false_eq_true, if_false, Except.ok.injEq, copyName_iff nameOffsets start size]
    have count : nameOffsets.length = 13 := rfl
    constructor
    · rintro (⟨flagIn, flag, clusterIn, cluster, inside, fits, rest⟩ | ⟨ends, rfl⟩)
      · rw [if_pos (by omega)] at rest
        rw [count] at fits rest
        obtain ⟨j, few, run, rfl⟩ := (ih (room - 13) (by omega) (by simp [start, count]) (by omega)).mp rest
        refine ⟨j + 1, by omega, ⟨long_iff.mpr ⟨⟨flagIn, flag, clusterIn, cluster⟩, inside⟩, run⟩, ?_⟩
        rw [longName, ← List.append_assoc, Nat.mul_succ, Nat.add_comm, Nat.sub_add_eq]
        rfl
      · exact ⟨0, by omega, ends, by simp [longName]⟩
    · rintro ⟨j, few, run, rfl⟩
      cases j with
      | zero => exact .inr ⟨run, by simp [longName]⟩
      | succ j =>
        obtain ⟨long, run⟩ := run
        obtain ⟨⟨flagIn, flag, clusterIn, cluster⟩, inside⟩ := long_iff.mp long
        refine .inl ⟨flagIn, flag, clusterIn, cluster, inside, by omega, ?_⟩
        rw [if_pos (by omega), count]
        refine (ih (room - 13) (by omega) (by simp [start, count]) (by omega)).mpr ⟨j, by omega, run, ?_⟩
        rw [longName, ← List.append_assoc, Nat.mul_succ, Nat.add_comm (13 * j), Nat.sub_add_eq]
        rfl

/-- From an empty name: there is room for nine parts. -/
theorem longEntries_start : longEntries img ptr 0 (List.replicate nameSize 0) = .ok name ↔
    ∃ j, j ≤ 9 ∧ LongRun img ptr j ∧ name = longName img ptr j ++ List.replicate (nameSize - 13 * j) 0 := by
  have empty : ([] : List Nat).length = 0 := rfl
  refine (longEntries_iff empty (Nat.zero_add _)).trans (exists_congr fun j => ?_)
  have room : 13 * j ≤ nameSize ↔ j ≤ 9 := by
    unfold nameSize
    omega
  rw [room, List.nil_append]

/-! ### The name -/

theorem takeWhile_padded (u : List Nat) (r : Nat) :
    (u ++ List.replicate r 0).takeWhile (· ≠ 0) = u.takeWhile (· ≠ 0) := by
  have zeros : (List.replicate r 0).takeWhile (fun c : Nat => decide (c ≠ 0)) = [] := by cases r <;> rfl
  rw [List.takeWhile_append]
  split
  · rename_i whole
    rw [zeros, List.append_nil, (List.takeWhile_prefix _).eq_of_length whole]
  · rfl

theorem putName_ok {i c : Nat} (inside : i < nameSize) : putName name i c = .ok (name.set i c) := by
  unfold putName
  rw [if_pos inside]

/-- The new extension is written inside `name`, when there are at most nine parts in it. -/
theorem iswbmp_padded {u : List Nat} (short : u.length ≤ 117) (r : Nat) :
    ∃ result, iswbmp (u ++ List.replicate r 0) = .ok result ∧ (result.isSome ↔ 46 ∈ u.takeWhile (· ≠ 0)) := by
  unfold iswbmp
  rw [takeWhile_padded]
  cases found : (u.takeWhile (· ≠ 0)).findIdx? (· = 46) with
  | none =>
    refine ⟨none, rfl, iff_of_false nofun fun mem => ?_⟩
    simpa using List.findIdx?_eq_none_iff.mp found 46 mem
  | some ppos =>
    obtain ⟨low, dot, -⟩ := List.findIdx?_eq_some_iff_getElem.mp found
    have bound : ppos < 117 := Nat.lt_of_lt_of_le low (Nat.le_trans (List.takeWhile_prefix _).length_le short)
    have size : nameSize = 128 := rfl
    have member : 46 ∈ u.takeWhile (· ≠ 0) := of_decide_eq_true dot ▸ List.getElem_mem low
    refine ⟨some ((((u ++ List.replicate r 0).set (ppos + 1) 98).set (ppos + 2) 109).set (ppos + 3) 112), ?_,
      iff_of_true rfl member⟩
    dsimp only
    rw [putName_ok (by omega)]
    simp only [bind, Except.bind]
    rw [putName_ok (by omega)]
    dsimp only
    rw [putName_ok (by omega)]

/-! ### The file -/

/-- The header is inside as far as it is looked at. -/
def HeaderInside (img : List Byte) (bmp : Int) : Prop :=
  Inside img bmp 1 ∧
    (field img bmp 1 = 66 → Inside img (bmp + 1) 1 ∧ (field img (bmp + 1) 1 = 77 → Inside img (bmp + 2) 4))

def Valid (img : List Byte) (bmp : Int) (size : Nat) : Prop :=
  field img bmp 1 = 66 ∧ field img (bmp + 1) 1 = 77 ∧ field img (bmp + 2) 4 = size

instance : Decidable (Valid img bmp size) := inferInstanceAs (Decidable (_ ∧ _ ∧ _))

theorem validbmp_iff : validbmp img bmp size = .ok b ↔ HeaderInside img bmp ∧ b = decide (Valid img bmp size) := by
  unfold validbmp HeaderInside Valid
  rw [test_iff, test_iff]
  simp only [bind_ok_iff, read_iff, and_assoc, exists_and_left, exists_eq_left]
  by_cases first : field img bmp 1 = 66
  · by_cases second : field img (bmp + 1) 1 = 77
    · simp [first, second, and_assoc, eq_comm]
    · simp [first, second]
  · simp [first]

theorem hashed_iff {content : List Byte} (valid : Valid img bmp size) (header : HeaderInside img bmp) :
    hashed img bmp = .ok content ↔ Inside img bmp size ∧ content = bytes img bmp size := by
  unfold hashed
  obtain ⟨first, second, same⟩ := valid
  simp only [bind_ok_iff, read_iff, and_assoc, exists_and_left, exists_eq_left, same]
  rw [and_iff_right ((header.2 first).2 second)]
  exact checked_iff

/-! ### Entries -/

def bmpOffset (img : List Byte) (dbr : Dbr) (ptr : Int) : Int :=
  dbr.data + dbr.addr (field img (ptr + 20) 2) (field img (ptr + 26) 2)

/-- The size of an entry is inside, and so are the header and the file of an entry that has a size and a cluster. -/
def FileInside (img : List Byte) (dbr : Dbr) (ptr : Int) : Prop :=
  Inside img (ptr + 28) 4 ∧ (field img (ptr + 28) 4 ≠ 0 → field img (ptr + 26) 2 ≠ 0 →
    HeaderInside img (bmpOffset img dbr ptr) ∧
      (Valid img (bmpOffset img dbr ptr) (field img (ptr + 28) 4) →
        Inside img (bmpOffset img dbr ptr) (field img (ptr + 28) 4)))

/-- What is read for an entry is inside: the extension, and for a picture at most nine entries of a long name in front
of it with another entry in front of them, and the file if there is a dot in the name. -/
def EntryInside (img : List Byte) (dbr : Dbr) (ptr : Int) : Prop :=
  ExtInside img (ptr + 8) ∧ (IsBmp img (ptr + 8) → ∃ j ≤ 9, LongRun img (ptr - 32) j ∧
    (46 ∈ (longName img (ptr - 32) j).takeWhile (· ≠ 0) → FileInside img dbr ptr))

theorem recover_returns {dbr : Dbr} (low : 0 ≤ ptr + 8) (name : List Nat) :
    (∃ found, recover img dbr ptr name = .ok found) ↔ FileInside img dbr ptr := by
  unfold recover FileInside
  simp only [bind_ok_iff, read_iff, and_assoc, exists_and_left, exists_eq_left]
  apply and_congr_right
  intro inside
  by_cases size : field img (ptr + 28) 4 = 0
  · simp [size]
  by_cases cluster : field img (ptr + 26) 2 = 0
  · have lowIn : Inside img (ptr + 26) 2 := by unfold Inside at *; omega
    simp [size, cluster, bind_ok_iff, read_iff, lowIn]
  have lowIn : Inside img (ptr + 26) 2 := by unfold Inside at *; omega
  have highIn : Inside img (ptr + 20) 2 := by unfold Inside at *; omega
  simp only [size, cluster, if_false, bind_ok_iff, read_iff, and_assoc, exists_and_left, exists_eq_left, lowIn,
    highIn, true_and,
    validbmp_iff, not_false_eq_true, true_imp_iff, ne_eq]
  change _ ∧ _ ↔ HeaderInside img (bmpOffset img dbr ptr) ∧ _
  apply and_congr_right
  intro header
  by_cases valid : Valid img (bmpOffset img dbr ptr) (field img (ptr + 28) 4)
  · have valid' := valid
    unfold bmpOffset at valid'
    simp only [valid', decide_true, if_true, bind_ok_iff, valid, true_imp_iff, hashed_iff valid' header]
    constructor
    · rintro ⟨found, content, ⟨inside, -⟩, -⟩
      exact inside
    · intro inside
      exact ⟨_, _, ⟨inside, rfl⟩, rfl⟩
  · have invalid := valid
    unfold bmpOffset at invalid
    simp [valid, invalid]

theorem entry_returns {dbr : Dbr} : (∃ found, entry img dbr ptr = .ok found) ↔ EntryInside img dbr ptr := by
  unfold entry EntryInside
  simp only [bind_ok_iff, isbmp_iff, and_assoc, exists_and_left, exists_eq_left]
  apply and_congr_right
  intro ext
  by_cases bmp : IsBmp img (ptr + 8)
  · have low : 0 ≤ ptr + 8 := ext.1.1
    simp only [bmp, decide_true, if_true, true_imp_iff, bind_ok_iff, longEntries_start]
    constructor
    · rintro ⟨found, name, ⟨j, few, run, rfl⟩, result, named, rest⟩
      obtain ⟨result', named', dot⟩ :=
        iswbmp_padded (u := longName img (ptr - 32) j) (by rw [length_longName]; omega) (nameSize - 13 * j)
      obtain rfl := Except.ok.inj (named.symm.trans named')
      refine ⟨j, few, run, fun dotted => ?_⟩
      obtain ⟨name, rfl⟩ := Option.isSome_iff_exists.mp (dot.mpr dotted)
      exact (recover_returns low name).mp ⟨found, rest⟩
    · rintro ⟨j, few, run, file⟩
      obtain ⟨result, named, dot⟩ :=
        iswbmp_padded (u := longName img (ptr - 32) j) (by rw [length_longName]; omega) (nameSize - 13 * j)
      cases result with
      | none => exact ⟨[], _, ⟨j, few, run, rfl⟩, none, named, rfl⟩
      | some name =>
        obtain ⟨found, recovered⟩ := (recover_returns low name).mpr (file (dot.mp rfl))
        exact ⟨found, _, ⟨j, few, run, rfl⟩, some name, named, recovered⟩
  · simp [bmp]

/-! ### The scan -/

theorem scan_returns (dbr : Dbr) (ptr : Nat) : (∃ found, scan img dbr ptr = .ok found) ↔
    ∀ k, ptr + 32 * k ≤ img.length → EntryInside img dbr ((ptr + 32 * k : Nat) : Int) := by
  induction ptr using scan.induct img with
  | case1 ptr inside ih =>
    unfold scan
    rw [if_pos inside]
    have entries : (∀ k, ptr + 32 * k ≤ img.length → EntryInside img dbr ((ptr + 32 * k : Nat) : Int)) ↔
        EntryInside img dbr (ptr : Int) ∧ ∀ k, ptr + 32 + 32 * k ≤ img.length →
          EntryInside img dbr ((ptr + 32 + 32 * k : Nat) : Int) := by
      constructor
      · intro all
        refine ⟨all 0 inside, fun k below => ?_⟩
        have next : ptr + 32 + 32 * k = ptr + 32 * (k + 1) := by omega
        rw [next] at below ⊢
        exact all (k + 1) below
      · rintro ⟨first, others⟩ k below
        cases k with
        | zero => exact first
        | succ k =>
          have next : ptr + 32 * (k + 1) = ptr + 32 + 32 * k := by omega
          rw [next] at below ⊢
          exact others k below
    rw [entries, ← ih, ← entry_returns]
    simp only [bind_ok_iff]
    constructor
    · rintro ⟨_, found, one, others, rest, -⟩
      exact ⟨⟨found, one⟩, others, rest⟩
    · rintro ⟨⟨found, one⟩, others, rest⟩
      exact ⟨_, found, one, others, rest, rfl⟩
  | case2 ptr outside =>
    unfold scan
    rw [if_neg outside]
    exact iff_of_true ⟨[], rfl⟩ fun k below => absurd below (by omega)

/-- The boot record is inside, and so is what is read for each entry up to the one at the end of the image. No sum of a
pointer wraps: pointers have 64 bits, as in the first of the two programs that the Makefile builds. -/
def Contained (img : List Byte) : Prop :=
  Inside img 0 dbrSize ∧
    ∀ k, (dbrOf img).data + 32 * k ≤ img.length → EntryInside img (dbrOf img) (((dbrOf img).data + 32 * k : Nat) : Int)

/-- **All reads are inside the mapped image, and all writes inside `name`, if and only if what the image says leads
nowhere else.** -/
theorem main_inside (file : List Byte) : (∃ found, main file = .ok found) ↔ ∀ img, mmapOpen file = some img →
    Contained img := by
  unfold main
  cases mapped : mmapOpen file with
  | none => exact iff_of_true ⟨[], rfl⟩ nofun
  | some img =>
    have one : (∀ img', some img = some img' → Contained img') ↔ Contained img := by simp
    rw [one, Contained, ← scan_returns]
    dsimp only
    by_cases inside : Inside img 0 dbrSize
    · have boot : readDbr img = .ok (dbrOf img) := if_pos inside
      rw [boot, and_iff_right inside]
      rfl
    · have boot : readDbr img = .error .read := if_neg inside
      rw [boot]
      exact iff_of_false nofun fun h => inside h.1

/-- Whenever the data area holds a whole number of entries, the scan reads behind the image. -/
theorem Contained.partial_entry (contained : Contained img) (start : (dbrOf img).data ≤ img.length) :
    8 < (img.length - (dbrOf img).data) % 32 := by
  have last := contained.2 ((img.length - (dbrOf img).data) / 32) (by omega)
  have ext := last.1.1.2
  push_cast at ext
  omega

def bootSector : List Byte := List.replicate 11 0 ++ [0, 2, 1, 1, 0] ++ List.replicate 496 0

theorem main_inside_counterexample : main bootSector = .error .read := by
  have mapped : mmapOpen bootSector = some bootSector := by decide +kernel
  have boot : readDbr bootSector = .ok ⟨512, 1, 1, 0, 0⟩ := by decide +kernel
  have first : entry bootSector ⟨512, 1, 1, 0, 0⟩ 512 = .error .read := by decide +kernel
  have read : scan bootSector ⟨512, 1, 1, 0, 0⟩ 512 = .error .read := by
    unfold scan
    rw [if_pos (by decide +kernel)]
    exact congrArg (· >>= _) first
  unfold main
  rw [mapped]
  dsimp only
  rw [boot]
  exact read

end OsLabs.Frecov

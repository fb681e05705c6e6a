import OsLabs.Kmt.Model
import OsLabs.Util.Number
import OsLabs.Vfs.Files

/-!
# procfs

`procfs_lookup` and `procfs_inode_read` on the task table. A name of digits becomes an
index twice, by `atoi` at the lookup and again at each read, and neither use of it is
checked.
-/

namespace OsLabs.Vfs
open Kmt Util

/-- An access outside `tasks`, or through `NULL`. -/
inductive ProcFault where
  | tasks (index : Int)
  | null
  deriving DecidableEq, Repr

/-- `inode_t` of procfs; `fs_inode` is the copy of the name. -/
structure ProcInode where
  id : Nat
  type : FileType
  dirLen : Nat
  fsInode : Option Path
  permission : Nat
  size : Nat
  linkNum : Nat

variable {Cpu Sem Ctx : Type}

def taskAt (k : Kernel Cpu Sem Ctx) (index : CInt) : Except ProcFault (Option (TaskPtr Cpu)) :=
  if 0 ≤ index.toInt ∧ index.toInt < maxTask then .ok (k.tasks index.toInt.toNat) else .error (.tasks index.toInt)

def taskNum (k : Kernel Cpu Sem Ctx) : Nat := (List.range maxTask).countP fun i => (k.tasks i).isSome

/-- The end of `procfs_lookup`, for a name that was found. -/
def procInode (id : Nat) (type : FileType) (dirLen : Nat) (fsInode : Option Path) : ProcInode :=
  ⟨id, type, dirLen, fsInode, 1, 0, 1⟩

/-- The allocations succeed; `none` is the return of `NULL`. -/
def procfsLookup (k : Kernel Cpu Sem Ctx) (name : Path) : Except ProcFault (Option ProcInode) :=
  if name = [] ∨ name = cstr "." ∨ name = cstr ".." then
    .ok (some (procInode 0 .dr (2 + taskNum k) none))
  else if name = cstr "cpuinfo" then .ok (some (procInode 1 .nf 0 none))
  else if name = cstr "meminfo" then .ok (some (procInode 2 .nf 0 none))
  else if isnum name then do
    match ← taskAt k (atoi name) with
    | some _ => .ok (some (procInode 3 .nf 0 (some name)))
    | none => .ok none
  else .ok none

/-- What the texts need besides the table: the names of the tasks, and those of `cpuinfo` and `meminfo`. -/
structure ProcTexts (Cpu : Type) where
  name : TaskPtr Cpu → String
  cpuinfo : String
  meminfo : String

def describe (texts : ProcTexts Cpu) (k : Kernel Cpu Sem Ctx) (t : TaskPtr Cpu) : String :=
  "    name: " ++ texts.name t ++ "\n      id: " ++ toString (k.task t).id ++ "\nrunnable: " ++
    toString (k.task t).run ++
    "\nsleeping: " ++ toString (k.task t).sleep ++ "\n"

/-- The text left in the buffer; `none` is the return of -1. -/
def procfsInodeRead (texts : ProcTexts Cpu) (k : Kernel Cpu Sem Ctx) (inode : ProcInode) :
    Except ProcFault (Option String) :=
  match inode.id with
  | 0 => .ok (some (((List.range maxTask).filter fun i => (k.tasks i).isSome).foldl
      (fun buf i => buf ++ toString i ++ "\n") ".\n..\ncpuinfo\nmeminfo\n"))
  | 1 => .ok (some texts.cpuinfo)
  | 2 => .ok (some texts.meminfo)
  | 3 =>
    match inode.fsInode with
    | none => .error .null
    | some name => do
      match ← taskAt k (atoi name) with
      | some tmp => .ok (some (describe texts k tmp))
      | none => .error .null
  | _ => .ok none

/-- What is expected of a lookup of digits on the table of `k`, and of a read of its inode on that of `k'`. -/
structure NamesTask (texts : ProcTexts Cpu) (k k' : Kernel Cpu Sem Ctx) (name : Path) : Prop where
  inside : ∀ index, procfsLookup k name ≠ .error (.tasks index)
  found : ∀ inode, procfsLookup k name = .ok inode →
    (inode.isSome ↔ decimal name < maxTask ∧ (k.tasks (decimal name)).isSome)
  read : ∀ inode, procfsLookup k name = .ok (some inode) → procfsInodeRead texts k' inode = .ok none ∨
    ∃ t, k'.tasks (decimal name) = some t ∧ procfsInodeRead texts k' inode = .ok (some (describe texts k' t))

variable {texts : ProcTexts Cpu} {k k' : Kernel Cpu Sem Ctx} {name : Path}

def taskIndex (name : Path) : Int := (decimal name : Int).bmod (2 ^ 32)

theorem atoi_toInt (digits : ∀ ch ∈ name, isdigit ch = true) : (atoi name).toInt = taskIndex name := by
  rw [atoi_digits digits]
  exact BitVec.toInt_ofNat' _

theorem taskAt_digits (digits : ∀ ch ∈ name, isdigit ch = true) : taskAt k (atoi name) =
    if 0 ≤ taskIndex name ∧ taskIndex name < maxTask then .ok (k.tasks (taskIndex name).toNat)
    else .error (.tasks (taskIndex name)) := by
  rw [taskAt, atoi_toInt digits]

theorem taskIndex_small (small : decimal name < maxTask) : taskIndex name = decimal name := by
  have bound : decimal name < 1024 := small
  exact Int.bmod_eq_of_le (by omega) (by omega)

/-- A lookup of digits. -/
theorem procfsLookup_digits (nonempty : name ≠ []) (digits : ∀ ch ∈ name, isdigit ch = true) : procfsLookup k name =
    if 0 ≤ taskIndex name ∧ taskIndex name < maxTask then
      .ok ((k.tasks (taskIndex name).toNat).map fun _ => procInode 3 .nf 0 (some name))
    else .error (.tasks (taskIndex name)) := by
  have other (s : Path) (first : ∃ ch ∈ s, isdigit ch = false) : name ≠ s := by
    rintro rfl
    obtain ⟨ch, mem, plain⟩ := first
    rw [digits ch mem] at plain
    cases plain
  have number : isnum name = true := List.all_eq_true.mpr digits
  rw [procfsLookup,
    if_neg (by
      simp [nonempty, other _ (show ∃ ch ∈ cstr ".", _ by decide), other _ (show ∃ ch ∈ cstr "..", _ by decide)]),
    if_neg (other _ (by decide)), if_neg (other _ (by decide)), if_pos number, taskAt_digits digits]
  split
  · cases k.tasks (taskIndex name).toNat <;> rfl
  · rfl

/-- A read of the inode of digits. -/
theorem procfsInodeRead_digits (digits : ∀ ch ∈ name, isdigit ch = true) :
    procfsInodeRead texts k (procInode 3 .nf 0 (some name)) =
      if 0 ≤ taskIndex name ∧ taskIndex name < maxTask then
        match k.tasks (taskIndex name).toNat with
        | some t => .ok (some (describe texts k t))
        | none => .error .null
      else .error (.tasks (taskIndex name)) := by
  show (taskAt k (atoi name) >>= _) = _
  rw [taskAt_digits digits]
  split
  · cases k.tasks (taskIndex name).toNat <;> rfl
  · rfl

/-- The lookup and the read are as expected exactly when the number is below `MAXTASK` and its slot, if it was occupied
at the lookup, is so at the read, or when the index that it wraps to is an empty slot. -/
theorem procfs_namesTask (nonempty : name ≠ []) (digits : ∀ ch ∈ name, isdigit ch = true) : NamesTask texts k k' name ↔
    (decimal name < maxTask ∧ ((k.tasks (decimal name)).isSome → (k'.tasks (decimal name)).isSome)) ∨
    (maxTask ≤ decimal name ∧ 0 ≤ taskIndex name ∧ taskIndex name < maxTask ∧
      k.tasks (taskIndex name).toNat = none) := by
  have lookup := @procfsLookup_digits _ _ _ k name nonempty digits
  have read := @procfsInodeRead_digits _ _ _ texts k' name digits
  constructor
  · intro names
    by_cases range : 0 ≤ taskIndex name ∧ taskIndex name < maxTask
    · rw [if_pos range] at lookup read
      have exactly := names.found _ lookup
      rw [Option.isSome_map] at exactly
      by_cases small : decimal name < maxTask
      · refine .inl ⟨small, fun used => ?_⟩
        obtain ⟨t, slot⟩ := Option.isSome_iff_exists.mp (exactly.mpr ⟨small, used⟩)
        rw [slot] at lookup
        rcases names.read _ lookup with failed | ⟨t', used', -⟩
        · rw [read] at failed
          split at failed <;> cases failed
        · rw [used', Option.isSome_some]
      · refine .inr ⟨Nat.le_of_not_lt small, range.1, range.2, ?_⟩
        exact Option.isSome_eq_false_iff.mp (Bool.eq_false_iff.mpr fun used => small (exactly.mp used).1) |>
          Option.isNone_iff_eq_none.mp
    · rw [if_neg range] at lookup
      exact absurd lookup (names.inside _)
  · rintro (⟨small, kept⟩ | ⟨large, low, high, empty⟩)
    · have index : taskIndex name = decimal name := taskIndex_small small
      have range : 0 ≤ taskIndex name ∧ taskIndex name < maxTask := by omega
      rw [if_pos range, index, Int.toNat_natCast] at lookup read
      refine ⟨fun _ => ?_, fun inode done => ?_, fun inode done => ?_⟩
      · rw [lookup]
        exact fun none => nomatch none
      · obtain rfl := Except.ok.inj (lookup.symm.trans done)
        simp [small]
      · obtain ⟨t, slot, rfl⟩ := Option.map_eq_some_iff.mp (Except.ok.inj (lookup.symm.trans done))
        obtain ⟨t', slot'⟩ := Option.isSome_iff_exists.mp (kept (slot ▸ rfl))
        rw [slot'] at read
        exact .inr ⟨t', slot', read⟩
    · rw [if_pos ⟨low, high⟩, empty] at lookup
      refine ⟨fun _ => ?_, fun inode done => ?_, fun inode done => ?_⟩
      · rw [lookup]
        exact fun none => nomatch none
      · obtain rfl := Except.ok.inj (lookup.symm.trans done)
        simp [Nat.not_lt.mpr large]
      · cases lookup.symm.trans done

def oneTask : Kernel Unit Unit Unit where
  task _ := ⟨(), 0, 0, 0⟩
  tasks i := if i = 0 then some (.task 0) else none
  cntTasks := 1
  cputask _ := none
  cputaskLast _ := none
  notdefault _ := false
  sem _ := ⟨0, 0, 0⟩
  node _ := ⟨.task 0, 0, 0⟩
  nodes := []

def someTexts : ProcTexts Unit := ⟨fun _ => "init", "", ""⟩

/-- The first slot by its name. -/
theorem procfs_namesTask_sample : NamesTask someTexts oneTask oneTask (cstr "0") :=
  (procfs_namesTask (by decide) (by decide +kernel)).mpr (.inl ⟨by decide, fun used => used⟩)

/-- The number after the last slot. -/
theorem procfs_namesTask_counterexample : ¬∀ (texts : ProcTexts Unit) (k k' : Kernel Unit Unit Unit) (name : Path),
    name ≠ [] → (∀ ch ∈ name, isdigit ch = true) → NamesTask texts k k' name := by
  intro all
  have digits : ∀ ch ∈ cstr "1024", isdigit ch = true := by decide +kernel
  have index : taskIndex (cstr "1024") = 1024 := by decide +kernel
  have outside : procfsLookup oneTask (cstr "1024") = .error (.tasks 1024) := by
    rw [procfsLookup_digits (by decide) digits, index]
    rfl
  exact (all someTexts oneTask oneTask (cstr "1024") (by decide) digits).inside _ outside

end OsLabs.Vfs

import OsLabs.Data.Contract
import OsLabs.Util.Path
import OsLabs.Vfs.Mount

/-!
# Descriptors

`vfs_open`, `vfs_link` and the calls on a descriptor, over the descriptor table of the
calling task and whatever file systems are mounted. The methods of a file system are
parameters, and what they read and change is its world.
-/

namespace OsLabs.Vfs
open Util

/-! ### Operations -/

def noFile : Nat := 64

inductive FileType where
  | nf | dr | xx | mp | dvChar | dvBlock
  deriving DecidableEq, Repr

structure File (I : Type) where
  inode : I
  offset : Nat

/-- Why a call does not return: `FILE(fd)` or `mpt[index]` outside the table, an access through `NULL`, a failed
assertion, a lock that nobody will release, or what happened in a method. -/
inductive Stop (E : Type) where
  | flides (fd : Int)
  | mpt (index : Int)
  | null
  | assertion
  | locked
  | method (e : E)

variable {W S I B E : Type}

/-- `inodeops_t` of an inode, where `none` is `NULL`; a read fills the caller's buffer `B`. -/
structure InodeOps (W I B E : Type) where
  openOp : W → I → Except E (W × File I)
  closeOp : Option (W → File I → Except E W)
  readOp : Option (W → File I → B → Nat → Except E (W × File I × B × Int))
  writeOp : Option (W → File I → List Byte → Except E (W × File I × Int))
  lseekOp : Option (W → File I → Int → Int → Except E (W × File I × Int))
  linkOp : Option (W → File I → Path → Except E (W × File I × Int))

/-- The methods of every file system and inode; an inode is known by its file system and its `id`. -/
structure Driver (W S I B E : Type) where
  lookup : S → W → Path → Except E (Option I)
  create : S → Option (W → Path → Except E (W × Int))
  ops : I → InodeOps W I B E
  ident : I → S × Nat

/-- The world of the methods, the mount table, `flides` of the calling task, and whether `lock_vfs` is held when no call
is running. -/
structure State (W S I : Type) where
  world : W
  mpt : Table S
  flides : Vector (Option (File I)) noFile
  lockVfs : Bool

def State.file (s : State W S I) (fd : Int) : Except (Stop E) (Option (File I)) :=
  if 0 ≤ fd ∧ fd < noFile then .ok s.flides[fd.toNat]?.join else .error (.flides fd)

def State.setFile (s : State W S I) (fd : Int) (file : Option (File I)) : State W S I :=
  { s with flides := s.flides.setIfInBounds fd.toNat file }

def spinLock (s : State W S I) : Except (Stop E) (State W S I) :=
  if s.lockVfs then .error .locked else .ok { s with lockVfs := true }

def spinUnlock (s : State W S I) : State W S I := { s with lockVfs := false }

def method {α : Type} (x : Except E α) : Except (Stop E) α := x.mapError .method

def State.mountAt (s : State W S I) (index : Int) : Except (Stop E) (Mountpoint S) :=
  if 0 ≤ index then
    match s.mpt[index.toNat]? with
    | some m => .ok m
    | none => .error (.mpt index)
  else .error (.mpt index)

/-- `get_free_flides` once the kernel is initialized. -/
def getFreeFlides (flides : Vector (Option (File I)) noFile) : Option Nat := flides.toList.findIdx? (·.isNone)

section

variable (D : Driver W S I B E) (s : State W S I)

/-- What `lookup` of the file system of a path finds. -/
def resolve (path : Path) : Except (Stop E) (Option I) := do
  let m ← s.mountAt (getMount s.mpt path)
  match m.fs with
  | some fs => method (D.lookup fs s.world (path.drop m.path.length))
  | none => .error .null

/-- The end of `vfs_open`, with the inode `cur`. -/
def install (cur : I) : Except (Stop E) (State W S I × Int) :=
  match getFreeFlides s.flides with
  | none => .error .assertion
  | some findex => do
    let (world, file) ← method ((D.ops cur).openOp s.world cur)
    .ok (spinUnlock ({ s with world := world }.setFile findex (some file)), findex)

def vfsOpen (path : Path) (creat : Bool) : Except (Stop E) (State W S I × Int) := do
  let s ← spinLock s
  match ← resolve D s path with
  | some cur => install D s cur
  | none =>
    if creat then do
      let m ← s.mountAt (getMount s.mpt path)
      match m.fs.bind D.create with
      | none => .ok (spinUnlock s, -1)
      | some create => do
        let (world, ret) ← method (create s.world (path.drop m.path.length))
        let s := { s with world := world }
        if ret = 0 then
          match ← resolve D s path with
          | some cur => install D s cur
          | none => .ok (spinUnlock s, -1)
        else .ok (spinUnlock s, -1)
    else .ok (spinUnlock s, -1)

/-- Without a method the lock stays taken. -/
def vfsClose (fd : Int) : Except (Stop E) (State W S I × Int) := do
  match ← s.file fd with
  | none => .ok (s, -1)
  | some file => do
    let s ← spinLock s
    match (D.ops file.inode).closeOp with
    | none => .ok (s, -1)
    | some close => do
      let world ← method (close s.world file)
      .ok (spinUnlock ({ s with world := world }.setFile fd none), 0)

def vfsRead (fd : Int) (buf : B) (nbyte : Nat) : Except (Stop E) (State W S I × B × Int) := do
  match ← s.file fd with
  | none => .ok (s, buf, -1)
  | some file =>
    match (D.ops file.inode).readOp with
    | none => .ok (s, buf, -1)
    | some read => do
      let (world, file, buf, ret) ← method (read s.world file buf nbyte)
      .ok ({ s with world := world }.setFile fd (some file), buf, ret)

def vfsWrite (fd : Int) (buf : List Byte) : Except (Stop E) (State W S I × Int) := do
  match ← s.file fd with
  | none => .ok (s, -1)
  | some file =>
    match (D.ops file.inode).writeOp with
    | none => .ok (s, -1)
    | some write => do
      let (world, file, ret) ← method (write s.world file buf)
      .ok ({ s with world := world }.setFile fd (some file), ret)

def vfsLseek (fd : Int) (offset whence : Int) : Except (Stop E) (State W S I × Int) := do
  match ← s.file fd with
  | none => .ok (s, -1)
  | some file =>
    match (D.ops file.inode).lseekOp with
    | none => .ok (s, -1)
    | some lseek => do
      let (world, file, ret) ← method (lseek s.world file offset whence)
      .ok ({ s with world := world }.setFile fd (some file), ret)

/-- The descriptor of `oldpath` is not tested and not closed. -/
def vfsLink (oldpath newpath : Path) : Except (Stop E) (State W S I × Int) := do
  let (s, fd) ← vfsOpen D s oldpath false
  let index := getMount s.mpt newpath
  match ← s.file fd with
  | none => .error .null
  | some file =>
    match (D.ops file.inode).linkOp with
    | none => .ok (s, -1)
    | some link => do
      let m ← s.mountAt index
      let (world, file, ret) ← method (link s.world file (newpath.drop m.path.length))
      .ok ({ s with world := world }.setFile fd (some file), ret)

end

/-! ### Any integer as a descriptor -/

inductive FdCall (B : Type) where
  | close
  | read (buf : B) (nbyte : Nat)
  | write (buf : List Byte)
  | lseek (offset whence : Int)

def FdCall.perform (D : Driver W S I B E) (s : State W S I) (fd : Int) : FdCall B → Except (Stop E) (State W S I × Int)
  | close => vfsClose D s fd
  | read buf nbyte => (vfsRead D s fd buf nbyte).map fun r => (r.1, r.2.2)
  | write buf => vfsWrite D s fd buf
  | lseek offset whence => vfsLseek D s fd offset whence

def State.Open (s : State W S I) (fd : Int) : Prop := ∃ file, 0 ≤ fd ∧ s.flides[fd.toNat]? = some (some file)

/-- No access leaves `flides`, and on a descriptor that is not open the call returns -1 and changes nothing. -/
def Safe (D : Driver W S I B E) (s : State W S I) (fd : Int) (call : FdCall B) : Prop :=
  (∀ i, call.perform D s fd ≠ .error (.flides i)) ∧ (¬s.Open fd → call.perform D s fd = .ok (s, -1))

variable {D : Driver W S I B E} {s s' : State W S I} {fd ret : Int} {call : FdCall B} {file : File I} {path : Path}

theorem perform_outside (outside : ¬(0 ≤ fd ∧ fd < noFile)) : call.perform D s fd = .error (.flides fd) := by
  have access : (s.file fd : Except (Stop E) _) = .error (.flides fd) := if_neg outside
  cases call with
  | close => simp only [FdCall.perform, vfsClose, access, bind, Except.bind]
  | read buf nbyte => simp only [FdCall.perform, vfsRead, access, bind, Except.bind, Except.map]
  | write buf => simp only [FdCall.perform, vfsWrite, access, bind, Except.bind]
  | lseek offset whence => simp only [FdCall.perform, vfsLseek, access, bind, Except.bind]

theorem perform_closed (access : (s.file fd : Except (Stop E) _) = .ok none) : call.perform D s fd = .ok (s, -1) := by
  cases call with
  | close => simp only [FdCall.perform, vfsClose, access, bind, Except.bind]
  | read buf nbyte => simp only [FdCall.perform, vfsRead, access, bind, Except.bind, Except.map]
  | write buf => simp only [FdCall.perform, vfsWrite, access, bind, Except.bind]
  | lseek offset whence => simp only [FdCall.perform, vfsLseek, access, bind, Except.bind]

/-- A method does not access the table. -/
theorem method_stop {α β : Type} {x : Except E α} {f : α → β} {i : Int} :
    (method x >>= fun a => .ok (f a)) ≠ .error (.flides i) := by
  intro access
  cases x <;> cases access

theorem perform_opened {i : Int} (access : (s.file fd : Except (Stop E) _) = .ok (some file)) :
    call.perform D s fd ≠ .error (.flides i) := by
  cases call with
  | close =>
    simp only [FdCall.perform, vfsClose, access, bind, Except.bind]
    by_cases held : s.lockVfs
    · simp only [spinLock, if_pos held]
      exact nofun
    · simp only [spinLock, if_neg held]
      cases (D.ops file.inode).closeOp with
      | none => exact nofun
      | some close => exact method_stop
  | read buf nbyte =>
    simp only [FdCall.perform, vfsRead, access, bind, Except.bind]
    cases (D.ops file.inode).readOp with
    | none => exact nofun
    | some read =>
      intro access
      cases done : read s.world file buf nbyte with
      | error e =>
        simp only [done] at access
        cases access
      | ok r =>
        simp only [done] at access
        cases access
  | write buf =>
    simp only [FdCall.perform, vfsWrite, access, bind, Except.bind]
    cases (D.ops file.inode).writeOp with
    | none => exact nofun
    | some write => exact method_stop
  | lseek offset whence =>
    simp only [FdCall.perform, vfsLseek, access, bind, Except.bind]
    cases (D.ops file.inode).lseekOp with
    | none => exact nofun
    | some lseek => exact method_stop

/-- A call is safe with exactly the descriptors that the table has. -/
theorem safe_iff (D : Driver W S I B E) (s : State W S I) (fd : Int) (call : FdCall B) :
    Safe D s fd call ↔ 0 ≤ fd ∧ fd < noFile := by
  constructor
  · intro safe
    by_contra outside
    exact safe.1 fd (perform_outside outside)
  · intro inside
    have access : (s.file fd : Except (Stop E) _) = .ok s.flides[fd.toNat]?.join := if_pos inside
    refine ⟨fun i => ?_, fun closed => perform_closed ?_⟩
    · cases entry : s.flides[fd.toNat]?.join with
      | none =>
        rw [perform_closed (access.trans (congrArg _ entry))]
        exact nofun
      | some file => exact perform_opened (access.trans (congrArg _ entry))
    · rw [access]
      cases entry : s.flides[fd.toNat]? with
      | none => rfl
      | some slot =>
        cases slot with
        | none => rfl
        | some file => exact absurd ⟨file, inside.1, entry⟩ closed

/-! ### Links -/

def Resolves (D : Driver W S I B E) (s : State W S I) (path : Path) : Prop := ∃ i, resolve D s path = .ok (some i)

/-- The directory that is to have the entry for the path. -/
def HasParent (D : Driver W S I B E) (s : State W S I) (path : Path) : Prop :=
  ∃ m fs dir i, s.mountAt (E := E) (getMount s.mpt path) = .ok m ∧ m.fs = some fs ∧
    alldir (some (path.drop m.path.length)) = some dir ∧ D.lookup fs s.world dir = .ok (some i)

def Linked (D : Driver W S I B E) (s : State W S I) (oldpath newpath : Path) : Prop :=
  ∃ i j, resolve D s oldpath = .ok (some i) ∧ resolve D s newpath = .ok (some j) ∧ D.ident i = D.ident j

/-- The call returns, and has no descriptor left; where a path is missing it returns -1 and changes nothing, and it
returns 0 only with the entry. -/
def LinkAnswers (D : Driver W S I B E) (s : State W S I) (oldpath newpath : Path) : Prop :=
  ∃ s' ret, vfsLink D s oldpath newpath = .ok (s', ret) ∧ s'.flides = s.flides ∧
    (¬Resolves D s oldpath ∨ ¬HasParent D s newpath → ret = -1 ∧ s' = s) ∧ (ret = 0 → Linked D s' oldpath newpath)

/-- Without `O_CREAT` the call fails, or takes a free slot of `flides`. -/
theorem vfsOpen_cases (done : vfsOpen D s path false = .ok (s', fd)) :
    fd = -1 ∨ ∃ i file, getFreeFlides s.flides = some i ∧ fd = i ∧ s'.mpt = s.mpt ∧
      s'.flides = s.flides.setIfInBounds i (some file) := by
  obtain ⟨s₁, locked, done⟩ := bind_ok done
  obtain ⟨found, -, done⟩ := bind_ok done
  unfold spinLock at locked
  split at locked
  · cases locked
  obtain rfl := Except.ok.inj locked
  cases found with
  | none =>
    left
    exact (Prod.mk.inj (Except.ok.inj done)).2.symm
  | some cur =>
    right
    simp only [install] at done
    split at done
    · cases done
    · rename_i i free
      obtain ⟨⟨world, file⟩, -, done⟩ := bind_ok done
      obtain ⟨rfl, rfl⟩ := Prod.mk.inj (Except.ok.inj done)
      exact ⟨i, file, free, rfl, rfl, rfl⟩

/-- A free slot is there and empty. -/
theorem getFreeFlides_some {flides : Vector (Option (File I)) noFile} {i : Nat} (free : getFreeFlides flides = some i) :
    flides[i]? = some none := by
  obtain ⟨inside, empty, -⟩ := List.findIdx?_eq_some_iff_getElem.mp free
  rw [← Vector.getElem?_toList, List.getElem?_eq_getElem inside]
  exact congrArg some (Option.isNone_iff_eq_none.mp empty)

/-- A call that returns has left the descriptor of `oldpath` open. -/
theorem vfsLink_never (D : Driver W S I B E) (s : State W S I) (oldpath newpath : Path) :
    ¬LinkAnswers D s oldpath newpath := by
  rintro ⟨s', ret, done, same, -, -⟩
  obtain ⟨⟨s₁, fd⟩, opened, done⟩ := bind_ok done
  obtain ⟨entry, access, done⟩ := bind_ok done
  rcases vfsOpen_cases opened with rfl | ⟨i, file, free, rfl, -, flides⟩
  · cases access
  have empty := getFreeFlides_some free
  obtain ⟨inside, -⟩ := Vector.getElem?_eq_some_iff.mp empty
  cases entry with
  | none => cases done
  | some file' =>
    have left : ∃ file, s'.flides[i]? = some (some file) := by
      simp only at done
      split at done
      · obtain ⟨rfl, -⟩ := Prod.mk.inj (Except.ok.inj done)
        exact ⟨file, by rw [flides]; simp [inside]⟩
      · obtain ⟨m, -, done⟩ := bind_ok done
        obtain ⟨⟨world, linked, r⟩, -, done⟩ := bind_ok done
        obtain ⟨rfl, -⟩ := Prod.mk.inj (Except.ok.inj done)
        exact ⟨linked, by simp [State.setFile, inside]⟩
    obtain ⟨kept, there⟩ := left
    rw [same, empty] at there
    cases there

end OsLabs.Vfs

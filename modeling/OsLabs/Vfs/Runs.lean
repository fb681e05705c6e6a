import OsLabs.Ext2.Links
import OsLabs.Vfs.FileSystems

/-!
# Runs over mounted disks

The calls of a task on the files of any number of ramdisks, which are mounted and
unmounted in between. A call is one of the file system of the disk that it reaches, and
leaves the others as they are, so that what every run of one disk keeps is kept on all.
-/

namespace OsLabs.Vfs
open Ext2 Util Function

inductive TaskCall where
  | vfsOpen (path : Path) (creat : Bool)
  | onFile (fd : Int) (call : FdCall (List Byte))
  | vfsLink (oldpath newpath : Path)
  | vfsMkdir (path : Path)
  | vfsRmdir (path : Path)
  | vfsUnlink (path : Path)

def TaskCall.perform {W S I E : Type} (D : FileSystems W S I E) (s : State W S I) :
    TaskCall → Except (Stop E) (State W S I × Int)
  | vfsOpen path creat => Vfs.vfsOpen D.toDriver s path creat
  | onFile fd call => call.perform D.toDriver s fd
  | vfsLink oldpath newpath => Vfs.vfsLink D.toDriver s oldpath newpath
  | vfsMkdir path => Vfs.vfsMkdir D s path
  | vfsRmdir path => Vfs.vfsRmdir D s path
  | vfsUnlink path => Vfs.vfsUnlink D s path

variable {R : Type} [DecidableEq R]

/-- The file system of one disk, with the descriptors of its files. -/
def view (s : State (Disks R) R (R × VfsInode)) (d : R) : Fs where
  dev := s.world.dev d
  gid := s.world.gid
  files fd := (s.flides[fd]?.join).bind fun file => if file.inode.1 = d then some file.ext2 else none

/-- The path is `rest` on the disk `d`. -/
def LeadsTo (s : State (Disks R) R (R × VfsInode)) (path : Path) (d : R) (rest : Path) : Prop :=
  ∃ m, s.mountAt (E := Fault) (getMount s.mpt path) = .ok m ∧ m.fs = some d ∧ rest = path.drop m.path.length

/-- The call on the disk `d` that a call comes down to; a read and an `lseek` come down to none. -/
inductive Reaches (s : State (Disks R) R (R × VfsInode)) : TaskCall → R → VfsCall → Prop where
  | vfsOpen {path rest : Path} {d : R} {i : Nat} (creat : Bool) (leads : LeadsTo s path d rest)
      (closed : (view s d).files i = none) : Reaches s (.vfsOpen path creat) d (.vfsOpen i rest creat)
  | vfsClose {fd : Int} {file : File (R × VfsInode)} (held : s.file (E := Fault) fd = .ok (some file)) :
      Reaches s (.onFile fd .close) file.inode.1 (.vfsClose fd.toNat)
  | vfsWrite {fd : Int} {file : File (R × VfsInode)} (buf : List Byte)
      (held : s.file (E := Fault) fd = .ok (some file)) :
      Reaches s (.onFile fd (.write buf)) file.inode.1 (.vfsWrite fd.toNat buf)
  /-- The new path is taken to be on the disk of the old one. -/
  | vfsLink {oldpath newpath rest : Path} {d : R} {i : Nat} {m : Mountpoint R} (leads : LeadsTo s oldpath d rest)
      (closed : (view s d).files i = none) (there : s.mountAt (E := Fault) (getMount s.mpt newpath) = .ok m) :
      Reaches s (.vfsLink oldpath newpath) d (.vfsLink i rest (newpath.drop m.path.length))
  | vfsMkdir {path rest : Path} {d : R} (leads : LeadsTo s path d rest) :
      Reaches s (.vfsMkdir path) d (.vfsMkdir rest)
  | vfsRmdir {path rest : Path} {d : R} (leads : LeadsTo s path d rest) :
      Reaches s (.vfsRmdir path) d (.vfsRmdir rest)
  | vfsUnlink {path rest : Path} {d : R} (leads : LeadsTo s path d rest) :
      Reaches s (.vfsUnlink path) d (.vfsUnlink rest)

/-- The disk is as it was, and the descriptors of its files are, but for their offsets and for some that were closed. -/
structure Untouched (s s' : State (Disks R) R (R × VfsInode)) (d : R) : Prop where
  dev : s'.world.dev d = s.world.dev d
  files : ∀ fd file', (view s' d).files fd = some file' →
    ∃ file, (view s d).files fd = some file ∧ file.inode = file'.inode

variable {s s' : State (Disks R) R (R × VfsInode)} {d : R} {i : Nat} {before : Byte} {name : R → Path}
  {path newpath rest : Path} {m : Mountpoint R} {fs : Fs} {fd ret : Int} {creat : Bool}

/-! ### One disk -/

theorem Untouched.trans {s₁ : State (Disks R) R (R × VfsInode)} (h : Untouched s s₁ d) (h' : Untouched s₁ s' d) :
    Untouched s s' d where
  dev := h'.dev.trans h.dev
  files fd file' held := by
    obtain ⟨file, held, same⟩ := h'.files fd file' held
    obtain ⟨file₁, held, same₁⟩ := h.files fd file held
    exact ⟨file₁, held, same₁.trans same⟩

theorem Untouched.of_eq (dev : s'.world.dev d = s.world.dev d) (flides : s'.flides = s.flides) : Untouched s s' d := by
  refine ⟨dev, fun fd file held => ⟨file, ?_, rfl⟩⟩
  simp only [view, flides] at held
  exact held

theorem Untouched.refl (d : R) : Untouched s s d := .of_eq rfl rfl

/-- A slot that is given another file of the disk `d`, or is closed. -/
theorem Untouched.setFile {j : Nat} {w : Disks R} {entry : Option (File (R × VfsInode))} {flag : Bool} {d' : R}
    (other : d' ≠ d) (dev : w.dev d' = s.world.dev d') (own : ∀ file, entry = some file → file.inode.1 = d) :
    Untouched s ⟨w, s.mpt, s.flides.setIfInBounds j entry, flag⟩ d' := by
  refine ⟨dev, fun fd file' held => ⟨file', ?_, rfl⟩⟩
  simp only [view, Vector.getElem?_setIfInBounds] at held ⊢
  split at held
  · split at held
    · cases entry with
      | none => cases held
      | some file =>
        rw [Option.join_some, Option.bind_some, own file rfl, if_neg (Ne.symm other)] at held
        cases held
    · cases held
  · exact held

omit [DecidableEq R] in
theorem LeadsTo.unique {d' : R} {rest' : Path} (h : LeadsTo s path d rest) (h' : LeadsTo s path d' rest') :
    d = d' ∧ rest = rest' := by
  obtain ⟨m, there, disk, rfl⟩ := h
  obtain ⟨m', there', disk', rfl⟩ := h'
  obtain rfl : m = m' := Except.ok.inj (there.symm.trans there')
  exact ⟨Option.some.inj (disk.symm.trans disk'), rfl⟩

/-- What `vfs_open` does on the disk `d` and to the table, which has the file at `i` if it is opened. -/
structure OpensOn (s s' : State (Disks R) R (R × VfsInode)) (ret : Int) (path : Path) (creat : Bool) (d : R)
    (rest : Path) (i : Nat) : Prop where
  leads : LeadsTo s path d rest
  closed : (view s d).files i = none
  done : Ext2.vfsOpen (view s d) i rest creat = .ok (view s' d, ret)
  others : ∀ d' ≠ d, Untouched s s' d'
  mpt : s'.mpt = s.mpt
  entry : ret = -1 ∨ ret = i ∧ i < noFile ∧ ∃ cur, s'.flides[i]? = some (some (.ofExt2 d ⟨cur, 0⟩))

/-- No descriptor is behind the table. -/
theorem closed_behind (s : State (Disks R) R (R × VfsInode)) (d : R) : (view s d).files noFile = none := by
  simp [view]

/-- The end of `vfs_open` without a descriptor, on the disk as it is then. -/
theorem OpensOn.refused {w : Disks R} (leads : LeadsTo s path d rest) (others : ∀ d' ≠ d, w.dev d' = s.world.dev d')
    (failed : Ext2.vfsOpen (view s d) noFile rest creat = .ok ({ view s d with dev := w.dev d, gid := w.gid }, -1)) :
    OpensOn s ⟨w, s.mpt, s.flides, false⟩ (-1) path creat d rest noFile where
  leads := leads
  closed := closed_behind s d
  done := failed
  others d' other := .of_eq (others d' other) rfl
  mpt := rfl
  entry := .inl rfl

/-- The call changes no disk, or it is one on the disk that it reaches and leaves the others. -/
def OnDisk (s s' : State (Disks R) R (R × VfsInode)) (ret : Int) (call : TaskCall) : Prop :=
  (∀ d, Untouched s s' d) ∨ ∃ d call', Reaches s call d call' ∧ (view s d).call call' = .ok (view s' d, ret) ∧
    ∀ d' ≠ d, Untouched s s' d'

/-- Another device on `d`, and another counter. -/
theorem Untouched.setDev {d' : R} {dev : Device} (gid : Nat) (other : d' ≠ d) :
    Untouched s { s with world := { s.world.setDev d dev with gid := gid } } d' :=
  .of_eq (update_of_ne other ..) rfl

def succeeds {E : Type} : Except E Bool → Bool
  | .ok b => b
  | .error _ => false

end OsLabs.Vfs

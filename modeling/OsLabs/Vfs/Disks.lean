import OsLabs.Ext2.Listing
import OsLabs.Ext2.Namespace
import OsLabs.Vfs.Files

/-!
# The methods of ext2

`ext2_ops` and `ext2_inodeops` behind the VFS, for any number of ramdisks. They share
the counter `gid`, and an inode knows the disk that it was looked up on.
-/

namespace OsLabs.Vfs
open Ext2 Util Function

structure Disks (R : Type) where
  dev : R → Device
  gid : Nat

def whenceOf (whence : Int) : Whence :=
  if whence = 0 then .set else if whence = 1 then .cur else if whence = 2 then .tail else .other

variable {R : Type} [DecidableEq R]

def Disks.setDev (w : Disks R) (d : R) (dev : Device) : Disks R := { w with dev := update w.dev d dev }

/-- The `file_t` as ext2 sees it, and back. -/
def File.ext2 (file : File (R × VfsInode)) : Ext2.File := ⟨file.inode.2, file.offset⟩

def File.ofExt2 (d : R) (file : Ext2.File) : File (R × VfsInode) := ⟨(d, file.inode), file.offset⟩

/-- `ext2_inode_read`; `before` is the byte in front of the caller's buffer. -/
def ext2Read (before : Byte) (w : Disks R) (file : File (R × VfsInode)) (buf : List Byte) (size : Nat) :
    Except Fault (Disks R × File (R × VfsInode) × List Byte × Int) := do
  let dev := w.dev file.inode.1
  if file.inode.2.type = DR then
    let (buf, ret) ← inodeList dev file.ext2 buf size
    .ok (w, file, buf, ret)
  else if file.inode.2.type = NF then
    let stored ← inodeRead dev file.ext2 size before
    let buf ← inBuffer (poke buf 0 stored)
    .ok (w, file, buf, 0)
  else .ok (w, file, buf, 0)

def ext2Link (w : Disks R) (file : File (R × VfsInode)) (name : Path) :
    Except Fault (Disks R × File (R × VfsInode) × Int) := do
  let (dev, file', ret) ← inodeLink (w.dev file.inode.1) file.ext2 name
  .ok (w.setDev file.inode.1 dev, .ofExt2 file.inode.1 file', ret)

def ext2InodeOps (before : Byte) : InodeOps (Disks R) (R × VfsInode) (List Byte) Fault where
  openOp w inode := .ok (w, ⟨inode, 0⟩)
  closeOp := some fun w _ => .ok w
  readOp := some (ext2Read before)
  writeOp := some fun w file buf => do
    let (dev, file', ret) ← inodeWrite (w.dev file.inode.1) file.ext2 buf
    .ok (w.setDev file.inode.1 dev, .ofExt2 file.inode.1 file', ret)
  lseekOp := some fun w file offset whence =>
    let (file', ret) := inodeLseek file.ext2 offset (whenceOf whence)
    .ok (w, .ofExt2 file.inode.1 file', ret)
  linkOp := some ext2Link

def ext2Create (d : R) (w : Disks R) (path : Path) : Except Fault (Disks R × Int) := do
  let (dev, gid, ret) ← createFile (w.dev d) w.gid path false anyAccess NF
  .ok ({ w.setDev d dev with gid := gid }, ret)

def ext2Driver (before : Byte) : Driver (Disks R) R (R × VfsInode) (List Byte) Fault where
  lookup d w path := do
    match ← Ext2.lookup (w.dev d) path with
    | some inode => .ok (some (d, inode))
    | none => .ok none
  create d := some (ext2Create d)
  ops _ := ext2InodeOps before
  ident inode := (inode.1, inode.2.id)

/-- One ramdisk, mounted on "/", and no open descriptor. -/
def rootState (dev : Device) (gid : Nat) : State (Disks Unit) Unit (Unit × VfsInode) where
  world := ⟨fun _ => dev, gid⟩
  mpt := emptyTable.setIfInBounds 0 ⟨[slash], some (), true⟩
  flides := Vector.replicate noFile none
  lockVfs := false

/-- The first integer behind the table, and the one in front of it. -/
theorem safe_counterexample : ¬Safe (ext2Driver 0) (rootState (fun _ => 0) 0) 64 .close ∧
    ¬Safe (ext2Driver 0) (rootState (fun _ => 0) 0) (-1) (.write [120]) :=
  ⟨fun safe => safe.1 64 (perform_outside (by decide)), fun safe => safe.1 (-1) (perform_outside (by decide))⟩

/-- On a fresh disk "/a" does not exist; "/." does, and its descriptor stays open. -/
theorem vfsLink_counterexample : ∃ dev gid, ext2Init (fun _ => 0) 0 [] = .ok (dev, gid) ∧
    ¬LinkAnswers (ext2Driver 0) (rootState dev gid) [slash, 97] [slash, 98] ∧
    ¬LinkAnswers (ext2Driver 0) (rootState dev gid) (slash :: dot) [slash, 98] := by
  have run : (do
      let (dev, gid) ← ext2Init (fun _ => 0) 0 []
      let missing := match vfsLink (ext2Driver 0) (rootState dev gid) [slash, 97] [slash, 98] with
        | .error (.flides fd) => decide (fd = -1)
        | _ => false
      let left := match vfsLink (ext2Driver 0) (rootState dev gid) (slash :: dot) [slash, 98] with
        | .ok (s, _) => s.flides[0].isSome
        | _ => false
      .ok (missing && left)) = (.ok true : Except Fault Bool) := by
    decide +kernel
  obtain ⟨⟨dev, gid⟩, fresh, run⟩ := bind_ok run
  obtain ⟨missing, left⟩ := Bool.and_eq_true_iff.mp (Except.ok.inj run)
  refine ⟨dev, gid, fresh, ?_, ?_⟩
  · rintro ⟨s', ret, done, -⟩
    rw [done] at missing
    cases missing
  · rintro ⟨s', ret, done, same, -⟩
    have empty : (rootState dev gid).flides[0] = none := Vector.getElem_replicate ..
    simp only [done, same, empty] at left
    cases left

end OsLabs.Vfs

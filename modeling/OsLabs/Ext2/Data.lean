import OsLabs.Ext2.Bitmap

/-!
# Inodes and their data

`ext2_inode_create`, `ext2_inode_remove`, `ext2_data_write`, `ext2_inode_write` and
`ext2_data_read`, on a device and the inode in memory that the caller has.
-/

namespace OsLabs.Ext2

def Inode.linkAt (inode : Inode) (i : Nat) : Except Fault Nat :=
  match inode.link[i]? with
  | some b => .ok b
  | none => .error .bounds

def Inode.push (inode : Inode) (b : Nat) : Inode :=
  { inode with link := inode.link.setIfInBounds inode.len b, len := inode.len + 1 }

/-! ### Inodes -/

/-- The device, the new inode and the counter `gid`. -/
def inodeCreate (dev : Device) (gid type per : Nat) : Except Fault (Device × Inode × Nat) := do
  match freeMap dev imap with
  | none => .error .noFreeBit
  | some index =>
    let dev ← writeMap dev imap index true
    let gid := (gid + 1) % 2 ^ 32
    .ok (dev, {
      index := index
      type := type % 256
      permission := per % 256
      size := 0
      len := 0
      id := gid
      dirLen := 0
      linkNum := 1
      link := Vector.replicate linkSlots 0 }, gid)

section Create

variable {dev dev' : Device} {inode : Inode} {gid gid' type per t : Nat}

theorem inodeCreate_eq (found : freeMap dev imap = some t) : inodeCreate dev gid type per = .ok (setMap dev imap t true,
    ⟨t, type % 256, per % 256, 0, 0, (gid + 1) % 2 ^ 32, 0, 1, Vector.replicate linkSlots 0⟩, (gid + 1) % 2 ^ 32) := by
  have unmarked : readMap dev imap t ≠ true := by simp [(freeMap_some found).2]
  unfold inodeCreate
  simp only [found, writeMap_eq unmarked, bind, Except.bind]

theorem inodeCreate_none (full : freeMap dev imap = none) : inodeCreate dev gid type per = .error .noFreeBit := by
  unfold inodeCreate
  simp only [full]

theorem inodeCreate_cases (done : inodeCreate dev gid type per = .ok (dev', inode, gid')) :
    ∃ t, freeMap dev imap = some t ∧ dev' = setMap dev imap t true ∧ inode = {
      index := t
      type := type % 256
      permission := per % 256
      size := 0
      len := 0
      id := gid'
      dirLen := 0
      linkNum := 1
      link := Vector.replicate linkSlots 0 } ∧ gid' < 2 ^ 32 := by
  cases found : freeMap dev imap with
  | none =>
    rw [inodeCreate_none found] at done
    cases done
  | some t =>
    rw [inodeCreate_eq found] at done
    cases done
    exact ⟨t, rfl, rfl, rfl, Nat.mod_lt _ (by decide)⟩

end Create

def inodeRemove (dev : Device) (inode : Inode) : Except Fault Device := do
  let dev ← writeMap dev imap inode.index false
  (List.range inode.len).foldlM (fun dev i => do writeMap dev dmap (← inode.linkAt i) false) dev

/-! ### Writing -/

/-- The first free data block becomes the next one of the inode. -/
def allocate (dev : Device) (inode : Inode) : Except Fault (Device × Inode) := do
  match freeMap dev dmap with
  | none => .error .noFreeBit
  | some b =>
    if inode.len < linkSlots then
      let dev ← writeMap dev dmap b true
      .ok (dev, inode.push b)
    else .error .bounds

/-- The write at `DATA(OFFSET_BLOCK(offset))+OFFSET_REMAIN(offset)`. -/
def writeChunk (dev : Device) (inode : Inode) (offset : Nat) (bs : List Byte) : Except Fault Device := do
  let b ← inode.linkAt (offset / blockBytes)
  .ok (dev.write (data b + offset % blockBytes) bs)

/-- The loop of `ext2_data_write` and of `ext2_inode_write`: `buf` is what is left to write.
Note that `offset` stays what it is. -/
def writeLoop (originalLen offset : Nat) : Nat → Device → Inode → Bool → List Byte → Except Fault (Device × Inode)
  | 0, dev, inode, _, buf => if buf = [] then .ok (dev, inode) else .error .diverges
  | fuel + 1, dev, inode, first, buf =>
    if buf = [] then .ok (dev, inode)
    else if offset < originalLen * blockBytes then do
      let towrite := min (if first then blockBytes - offset % blockBytes else blockBytes) buf.length
      let dev ← writeChunk dev inode offset (buf.take towrite)
      writeLoop originalLen offset fuel dev inode false (buf.drop towrite)
    else do
      let (dev, inode) ← allocate dev inode
      let towrite := min blockBytes buf.length
      let dev ← writeChunk dev inode offset (buf.take towrite)
      writeLoop originalLen offset fuel dev inode first (buf.drop towrite)

/-- It returns `size`, the length of the buffer. -/
def dataWrite (dev : Device) (inode : Inode) (buf : List Byte) (offset : Nat) : Except Fault (Device × Inode) := do
  let (dev, inode) ← writeLoop inode.len offset buf.length dev inode true buf
  let updateSize := offset + buf.length
  if inode.size < updateSize then
    let inode := { inode with size := updateSize }
    .ok (writeInode dev inode.index inode, inode)
  else .ok (dev, inode)

/-- `inode_t`: the ext2 inode that a lookup read, and what the VFS copies from it. -/
structure VfsInode where
  fsInode : Inode
  permission : Nat
  size : Nat
  id : Nat
  type : Nat
  dirLen : Nat
  linkNum : Nat

structure File where
  inode : VfsInode
  offset : Nat

/-- The device, the file and the value returned. The offset becomes an `int`; below 0 it is in front of the
first block. -/
def inodeWrite (dev : Device) (file : File) (buf : List Byte) : Except Fault (Device × File × Nat) := do
  let inode := file.inode.fsInode
  let offset := file.offset % 2 ^ 32
  if inode.type = DR then .error .assertion
  else if inode.type = NF then
    if 2 ^ 31 ≤ offset ∧ buf ≠ [] then .error .bounds
    else
      let (dev, inode) ← writeLoop inode.len offset buf.length dev inode true buf
      let updateSize := offset + buf.length
      if inode.size < updateSize then
        let inode := { inode with size := updateSize }
        .ok (writeInode dev inode.index inode,
          { file with inode := { file.inode with fsInode := inode, size := updateSize } }, buf.length)
      else .ok (dev, { file with inode := { file.inode with fsInode := inode } }, buf.length)
  else .ok (dev, file, buf.length)

/-! ### Reading -/

/-- The bytes of a chunk that the read loop asks for, an `int` computed without sign. -/
def readLeft (inode : Inode) (cnt offset : Nat) (first : Bool) : Int :=
  let last := (inode.len + (2 ^ 32 - 1)) % 2 ^ 32
  if cnt < last then if first then blockBytes - offset % blockBytes else blockBytes
  else if first then ((inode.size : Int) - last * blockBytes - (offset % blockBytes : Nat)).bmod (2 ^ 32)
  else ((inode.size : Int) - last).bmod (2 ^ 32)

/-- The loop of `ext2_data_read`, with the bytes it appends to the buffer. -/
def readLoop (dev : Device) (inode : Inode) : Nat → Nat → Nat → Nat → Bool → Except Fault (List Byte)
  | 0, _, _, _, _ => .error .diverges
  | fuel + 1, cnt, size, offset, first =>
    if offset < inode.size ∧ size ≠ 0 then do
      let left := min (readLeft inode cnt offset first) size
      if left < 0 then .error .bounds
      else
        let b ← inode.linkAt (offset / blockBytes)
        let bytes := dev.read (data b + offset % blockBytes) left.toNat
        let rest ← readLoop dev inode fuel (cnt + 1) (size - left.toNat) (offset + left.toNat) false
        .ok (bytes ++ rest)
    else .ok []

/-- The bytes stored in the buffer; their number is the value returned. -/
def dataRead (dev : Device) (inode : Inode) (size offset : Nat) : Except Fault (List Byte) :=
  readLoop dev inode (size + 2) (offset / blockBytes) size offset true

end OsLabs.Ext2

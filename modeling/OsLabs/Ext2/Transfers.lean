import OsLabs.Data.Program
import OsLabs.Ext2.Listing
import OsLabs.Ext2.Namespace

/-!
# Transfers

The operations with every `rd_read` and `rd_write` that they issue, in order. Each
ends as the function of the same name does that only says what it computes.
-/

namespace OsLabs.Ext2.Rd
open Util Program

/-- A call of `rd_read` or of `rd_write`; the offset is a signed word. -/
structure Transfer where
  offset : Int
  count : Nat
  deriving DecidableEq

abbrev RdProgram (α : Type) := Program Transfer Device Fault α

def read (a n : Nat) : RdProgram (List Byte) := do
  issue ⟨asInt a, n⟩
  look fun dev => dev.read a n

def write (a : Nat) (bs : List Byte) : RdProgram Unit := do
  issue ⟨asInt a, bs.length⟩
  change fun dev => dev.write a bs

/-! ### Maps -/

def readMap (blk i : Nat) : RdProgram Bool := do
  let b ← read (map blk i) 1
  pure (decide (b.headD 0 &&& mask i ≠ 0))

def writeMap (blk i : Nat) (x : Bool) : RdProgram Unit := do
  let b ← read (map blk i) 1
  let before ← readMap blk i
  if before = x then stop .assertion
  else do
    write (map blk i) [if x then b.headD 0 ||| mask i else b.headD 0 &&& ~~~mask i]
    let after ← readMap blk i
    if after ≠ x then stop .assertion else pure ()

def scan (blk : Nat) : List Nat → RdProgram (Option Nat)
  | [] => pure none
  | i :: is => do
    let b ← readMap blk i
    if b then scan blk is else pure (some i)

def freeMap (blk : Nat) : RdProgram (Option Nat) := scan blk (List.range blockBytes)

/-- `write_map` with the -1 of `free_map`: the byte that it reads is the first of the map, and no mask fits. -/
def noFreeBit {α : Type} (blk : Nat) : RdProgram α := do
  let _ ← read (block blk) 1
  stop .noFreeBit

/-! ### Inodes -/

/-- The slot is read as a whole. -/
def readInode (i : Nat) : RdProgram Inode := do
  let bs ← read (table i) inodeBytes
  pure (Ext2.readInode (Mem.write (fun _ => 0) (table i) bs) i)

def writeInode (i : Nat) (inode : Inode) : RdProgram Unit := write (table i) inode.encode

def inodeCreate (gid type per : Nat) : RdProgram (Inode × Nat) := do
  let found ← freeMap imap
  match found with
  | none => noFreeBit imap
  | some index => do
    writeMap imap index true
    let gid := (gid + 1) % 2 ^ 32
    pure ({
      index := index
      type := type % 256
      permission := per % 256
      size := 0
      len := 0
      id := gid
      dirLen := 0
      linkNum := 1
      link := Vector.replicate linkSlots 0 }, gid)

def clearLoop (inode : Inode) : List Nat → RdProgram Unit
  | [] => pure ()
  | i :: is => do
    let b ← lift (inode.linkAt i)
    writeMap dmap b false
    clearLoop inode is

def inodeRemove (inode : Inode) : RdProgram Unit := do
  writeMap imap inode.index false
  clearLoop inode (List.range inode.len)

/-! ### Data -/

def allocate (inode : Inode) : RdProgram Inode := do
  let found ← freeMap dmap
  match found with
  | none => noFreeBit dmap
  | some b =>
    if inode.len < linkSlots then do
      writeMap dmap b true
      pure (inode.push b)
    else stop .bounds

def writeChunk (inode : Inode) (offset : Nat) (bs : List Byte) : RdProgram Unit := do
  let b ← lift (inode.linkAt (offset / blockBytes))
  write (data b + offset % blockBytes) bs

def writeLoop (originalLen offset : Nat) : Nat → Inode → Bool → List Byte → RdProgram Inode
  | 0, inode, _, buf => if buf = [] then pure inode else stop .diverges
  | fuel + 1, inode, first, buf =>
    if buf = [] then pure inode
    else if offset < originalLen * blockBytes then do
      let towrite := min (if first then blockBytes - offset % blockBytes else blockBytes) buf.length
      writeChunk inode offset (buf.take towrite)
      writeLoop originalLen offset fuel inode false (buf.drop towrite)
    else do
      let inode ← allocate inode
      let towrite := min blockBytes buf.length
      writeChunk inode offset (buf.take towrite)
      writeLoop originalLen offset fuel inode first (buf.drop towrite)

def dataWrite (inode : Inode) (buf : List Byte) (offset : Nat) : RdProgram Inode := do
  let inode ← writeLoop inode.len offset buf.length inode true buf
  let updateSize := offset + buf.length
  if inode.size < updateSize then do
    let inode := { inode with size := updateSize }
    writeInode inode.index inode
    pure inode
  else pure inode

/-- The first chunk of a write at an offset that is negative as an `int`. -/
def writeBelow {α : Type} (inode : Inode) (offset n : Nat) : RdProgram α :=
  if offset ≤ 2 ^ 32 - blockBytes then stop .bounds
  else do
    let b ← lift (inode.linkAt 0)
    issue ⟨asInt (data b + offset), min (blockBytes + (2 ^ 32 - offset)) n⟩
    stop .bounds

def inodeWrite (file : File) (buf : List Byte) : RdProgram (File × Nat) :=
  let inode := file.inode.fsInode
  let offset := file.offset % 2 ^ 32
  if inode.type = DR then stop .assertion
  else if inode.type = NF then
    if 2 ^ 31 ≤ offset ∧ buf ≠ [] then writeBelow inode offset buf.length
    else do
      let inode ← writeLoop inode.len offset buf.length inode true buf
      let updateSize := offset + buf.length
      if inode.size < updateSize then do
        let inode := { inode with size := updateSize }
        writeInode inode.index inode
        pure ({ file with inode := { file.inode with fsInode := inode, size := updateSize } }, buf.length)
      else pure ({ file with inode := { file.inode with fsInode := inode } }, buf.length)
  else pure (file, buf.length)

/-- The chunk that a read loop asks for; a negative number of bytes is a huge `size_t`. -/
def readChunk (inode : Inode) (offset : Nat) (left : Int) : RdProgram (List Byte) := do
  let b ← lift (inode.linkAt (offset / blockBytes))
  if left < 0 then do
    issue ⟨asInt (data b + offset % blockBytes), (left % 2 ^ 32).toNat⟩
    stop .bounds
  else read (data b + offset % blockBytes) left.toNat

def readLoop (inode : Inode) : Nat → Nat → Nat → Nat → Bool → RdProgram (List Byte)
  | 0, _, _, _, _ => stop .diverges
  | fuel + 1, cnt, size, offset, first =>
    if offset < inode.size ∧ size ≠ 0 then do
      let left := min (readLeft inode cnt offset first) size
      let bytes ← readChunk inode offset left
      let rest ← readLoop inode fuel (cnt + 1) (size - left.toNat) (offset + left.toNat) false
      pure (bytes ++ rest)
    else pure []

def dataRead (inode : Inode) (size offset : Nat) : RdProgram (List Byte) :=
  readLoop inode (size + 2) (offset / blockBytes) size offset true

def inodeReadLoop (inode : Inode) : Nat → Nat → Nat → Nat → Bool → RdProgram (List Byte)
  | 0, _, _, _, _ => stop .diverges
  | fuel + 1, cnt, size, offset, first =>
    if offset < inode.size ∧ size ≠ 0 then do
      let left := readLeft inode cnt offset first
      let bytes ← readChunk inode offset left
      let rest ← inodeReadLoop inode fuel (cnt + 1) ((size + 2 ^ 32 - left.toNat) % 2 ^ 32) (offset + left.toNat) false
      pure (bytes ++ rest)
    else pure []

def inodeRead (file : File) (size : Nat) (before : Byte) : RdProgram (List Byte) := do
  let inode := file.inode.fsInode
  let offset := file.offset % 2 ^ 32
  let bytes ← inodeReadLoop inode (inode.size + 1) (offset / blockBytes) size offset true
  pure (bytes ++ if (bytes.getLast?.getD before) ≠ 10 then [10, 0] else [0])

/-! ### Directories -/

def createEntry (inode : Inode) (entryInode : Nat) (entryName : List Byte) (type : Nat) : RdProgram Inode := do
  let dir : Entry := {
    inode := entryInode
    recLen := entryBytes + (entryName.length + 1)
    nameLen := entryName.length + 1
    fileType := type }
  let inode := { inode with dirLen := (inode.dirLen + 1) % 2 ^ 32 }
  let inode ← dataWrite inode dir.encode inode.size
  dataWrite inode (entryName ++ [0]) inode.size

def lookupLoop (inode : Inode) (name : List Byte) : Nat → Option (List Byte) → Nat → RdProgram Int
  | 0, _, _ => stop .diverges
  | fuel + 1, cur, offset =>
    if offset < inode.size then
      if 2 ^ 31 ≤ offset then stop .bounds
      else do
        let bytes ← dataRead inode entryBytes offset
        let cur ← lift (overlay cur bytes)
        let e := Entry.decode cur
        let next := lookupLoop inode name fuel (some cur) ((offset + e.recLen) % 2 ^ 32)
        if e.fileType = XX then next
        else if 2 ^ 31 ≤ e.nameLen then stop .bounds
        else do
          let tmpName ← dataRead inode e.nameLen (offset + entryBytes)
          let same ← lift (sameName name tmpName)
          if same then pure (asInt e.inode) else next
    else pure (-1)

def dirLookup (inode : Inode) (name : List Byte) : RdProgram Int := lookupLoop inode name (inode.size + 1) none 0

/-- The header at `DATA(OFFSET_BLOCK(offset))+OFFSET_REMAIN(offset)`. -/
def readEntry (inode : Inode) (offset : Nat) : RdProgram Entry := do
  let b ← lift (inode.linkAt (offset / blockBytes))
  let bytes ← read (data b + offset % blockBytes) entryBytes
  pure (Entry.decode bytes)

def removeLoop (inode : Inode) (index : Nat) : Nat → Option Entry → Nat → RdProgram (Option Entry × Nat)
  | 0, _, _ => stop .diverges
  | fuel + 1, cur, offset =>
    if offset < inode.size then do
      let e ← readEntry inode offset
      if e.inode = index ∧ e.fileType ≠ XX then pure (some { e with fileType := XX }, offset)
      else removeLoop inode index fuel (some e) ((offset + e.recLen) % 2 ^ 32)
    else pure (cur, offset)

def dirRemove (inode : Inode) (index : Nat) : RdProgram Inode := do
  let found ← removeLoop inode index (inode.size + 1) none 0
  match found with
  | (none, _) => stop .unread
  | (some e, offset) => do
    writeChunk inode offset e.encode
    let inode := { inode with dirLen := (inode.dirLen + (2 ^ 32 - 1)) % 2 ^ 32 }
    writeInode inode.index inode
    pure inode

def listLoop (inode : Inode) (fileOffset : Nat) :
    Nat → Nat → Nat → Nat → Nat → Nat → List Byte → RdProgram (List Byte × Nat × Nat)
  | 0, _, _, _, _, _, _ => stop .diverges
  | fuel + 1, cnt, size, offset, ret, bufOffset, buf =>
    if cnt < inode.dirLen ∧ size ≠ 0 then do
      let cur ← readEntry inode offset
      let next := (offset + cur.recLen) % 2 ^ 32
      if cur.fileType = XX then listLoop inode fileOffset fuel cnt size next ret bufOffset buf
      else do
        let nameOffset := offset + entryBytes
        let b ← lift (inode.linkAt (nameOffset / blockBytes))
        let tmpName ← read (data b + nameOffset % blockBytes) cur.nameLen
        let cnt := cnt + 1
        if fileOffset < cnt then do
          let n ← lift (match strlen tmpName with
            | some n => .ok n
            | none => .error .unread)
          let buf ← lift (inBuffer (strncpy buf bufOffset tmpName n))
          let buf ← lift (inBuffer (strcat buf [newline]))
          listLoop inode fileOffset fuel cnt (size - 1) next (ret + 1) (bufOffset + (n + 1)) buf
        else listLoop inode fileOffset fuel cnt size next ret bufOffset buf
    else pure (buf, ret, bufOffset)

def inodeList (file : File) (buf : List Byte) (size : Nat) : RdProgram (List Byte × Nat) := do
  let inode := file.inode.fsInode
  let (buf, ret, bufOffset) ←
    listLoop inode file.offset ((inode.dirLen + 1) * (linkSlots * blockBytes + 1)) 0 size 0 0 0 buf
  let buf ← lift (inBuffer (poke buf bufOffset [0]))
  pure (buf, ret)

/-! ### Paths -/

def pathLoop : Nat → Inode → Option (List Byte) → RdProgram (Option Inode)
  | 0, _, _ => stop .diverges
  | fuel + 1, inode, tmp =>
    match rootdir tmp with
    | none => pure (some inode)
    | some pre => do
      let inodeIndex ← dirLookup inode pre
      if 0 ≤ inodeIndex then do
        let inode ← readInode inodeIndex.toNat
        pathLoop fuel inode (postname tmp)
      else pure none

def inodeLookup (name : Option (List Byte)) : RdProgram (Option Inode) :=
  match name with
  | none => stop .null
  | some name => do
    let tmp := strip name
    let root ← readInode 0
    pathLoop (tmp.length + 1) root (some tmp)

def lookup (name : List Byte) : RdProgram (Option VfsInode) := do
  let found ← inodeLookup (some name)
  pure (found.map updateInode)

def createFile (gid : Nat) (name : List Byte) (isroot : Bool) (per type : Nat) : RdProgram (Nat × Int) :=
  if isroot then do
    let (dir, gid) ← inodeCreate gid type per
    let dir ← createEntry dir dir.index dot DR
    let dir ← createEntry dir dir.index dotdot DR
    writeInode dir.index dir
    pure (gid, 0)
  else do
    let found ← inodeLookup (alldir (some name))
    match found, filename (some name) with
    | none, _ => pure (gid, -1)
    | some _, none => stop .null
    | some father, some post => do
      let (dir, gid) ← inodeCreate gid type per
      let dir ← if type = DR then do
          let dir ← createEntry dir dir.index dot DR
          createEntry dir father.index dotdot DR
        else pure dir
      let father ← createEntry father dir.index post type
      writeInode father.index father
      writeInode dir.index dir
      pure (gid, 0)

def bzero (x : Nat) : RdProgram Unit := write (block x) (List.replicate blockBytes 0)

def bzeroLoop : List Nat → RdProgram Unit
  | [] => pure ()
  | i :: is => do
    bzero (itable + i)
    bzeroLoop is

def ext2Init (gid : Nat) (name : List Byte) : RdProgram Nat := do
  bzero imap
  bzero dmap
  bzeroLoop (List.range itableNum)
  let (gid, _) ← createFile gid name true anyAccess DR
  pure gid

def rm (name : List Byte) : RdProgram Int :=
  if name = [slash] then pure (-1)
  else do
    let found ← inodeLookup (alldir (some name))
    match found, filename (some name) with
    | none, _ => pure (-1)
    | some _, none => stop .null
    | some dir, some post => do
      let index ← dirLookup dir post
      if index < 0 then pure (-1)
      else do
        let inode ← readInode index.toNat
        if inode.type = DR ∧ 2 < inode.dirLen then pure (-1)
        else do
          let _ ← dirRemove dir index.toNat
          if inode.linkNum = 1 then do
            inodeRemove inode
            pure 0
          else do
            writeInode index.toNat { inode with linkNum := (inode.linkNum + (2 ^ 32 - 1)) % 2 ^ 32 }
            pure 0

def inodeLink (file : File) (name : List Byte) : RdProgram (File × Int) := do
  let inode := file.inode.fsInode
  let found ← inodeLookup (alldir (some name))
  match found, filename (some name) with
  | some father, some post => do
    let _ ← createEntry father inode.index post NF
    let inode := { inode with linkNum := (inode.linkNum + 1) % 2 ^ 32 }
    writeInode inode.index inode
    pure ({ file with inode := { file.inode with fsInode := inode } }, 0)
  | _, _ => stop .null

end OsLabs.Ext2.Rd

import Mathlib.Logic.Function.Basic
import OsLabs.Data.Machine
import OsLabs.Ext2.Api

/-!
# Creating, linking and removing

`ext2_init`, `ext2_create_file`, `ext2_rm` and `ext2_inode_link`, and the calls of the
VFS on a file system that is mounted. A path is what is left of it after the mount
point.
-/

namespace OsLabs.Ext2
open Util Function

/-! ### ext2 -/

def dot : List Byte := [46]
def dotdot : List Byte := [46, 46]

def anyAccess : Nat := 11

/-- The device, the counter `gid` and the value returned. -/
def createFile (dev : Device) (gid : Nat) (name : List Byte) (isroot : Bool) (per type : Nat) :
    Except Fault (Device × Nat × Int) := do
  if isroot then
    let (dev, dir, gid) ← inodeCreate dev gid type per
    let (dev, dir) ← createEntry dev dir dir.index dot DR
    let (dev, dir) ← createEntry dev dir dir.index dotdot DR
    .ok (writeInode dev dir.index dir, gid, 0)
  else
    match ← inodeLookup dev (alldir (some name)), filename (some name) with
    | none, _ => .ok (dev, gid, -1)
    | some _, none => .error .null
    | some father, some post => do
      let (dev, dir, gid) ← inodeCreate dev gid type per
      let (dev, dir) ← if type = DR then do
          let (dev, dir) ← createEntry dev dir dir.index dot DR
          createEntry dev dir father.index dotdot DR
        else .ok (dev, dir)
      let (dev, father) ← createEntry dev father dir.index post type
      let dev := writeInode dev father.index father
      .ok (writeInode dev dir.index dir, gid, 0)

def bzero (dev : Device) (x : Nat) : Device := dev.write (block x) (List.replicate blockBytes 0)

def itableNum : Nat := 10

def ext2Init (dev : Device) (gid : Nat) (name : List Byte) : Except Fault (Device × Nat) := do
  let dev := bzero dev imap
  let dev := bzero dev dmap
  let dev := (List.range itableNum).foldl (fun dev i => bzero dev (itable + i)) dev
  let (dev, gid, _) ← createFile dev gid name true anyAccess DR
  .ok (dev, gid)

def rm (dev : Device) (name : List Byte) : Except Fault (Device × Int) := do
  if name = [slash] then .ok (dev, -1)
  else
    match ← inodeLookup dev (alldir (some name)), filename (some name) with
    | none, _ => .ok (dev, -1)
    | some _, none => .error .null
    | some dir, some post => do
      let index ← dirLookup dev dir post
      if index < 0 then .ok (dev, -1)
      else
        let inode := readInode dev index.toNat
        if inode.type = DR ∧ 2 < inode.dirLen then .ok (dev, -1)
        else
          let (dev, _) ← dirRemove dev dir index.toNat
          if inode.linkNum = 1 then do
            let dev ← inodeRemove dev inode
            .ok (dev, 0)
          else .ok (writeInode dev index.toNat { inode with linkNum := (inode.linkNum + (2 ^ 32 - 1)) % 2 ^ 32 }, 0)

def inodeLink (dev : Device) (file : File) (name : List Byte) : Except Fault (Device × File × Int) := do
  let inode := file.inode.fsInode
  match ← inodeLookup dev (alldir (some name)), filename (some name) with
  | some father, some post => do
    let (dev, _) ← createEntry dev father inode.index post NF
    let inode := { inode with linkNum := (inode.linkNum + 1) % 2 ^ 32 }
    .ok (writeInode dev inode.index inode, { file with inode := { file.inode with fsInode := inode } }, 0)
  | _, _ => .error .null

/-! ### The VFS -/

/-- A file system and the descriptors of all tasks. -/
structure Fs where
  dev : Device
  gid : Nat
  files : Nat → Option File

def Fs.setFile (s : Fs) (fd : Nat) (file : Option File) : Fs := { s with files := update s.files fd file }

/-- `vfs_open`, where `fd` is the descriptor that `get_free_flides` finds. -/
def vfsOpen (s : Fs) (fd : Nat) (name : List Byte) (creat : Bool) : Except Fault (Fs × Int) := do
  match ← lookup s.dev name with
  | some cur => .ok (s.setFile fd (some ⟨cur, 0⟩), fd)
  | none =>
    if creat then do
      let (dev, gid, ret) ← createFile s.dev s.gid name false anyAccess NF
      let s := { s with dev := dev, gid := gid }
      if ret = 0 then
        match ← lookup dev name with
        | some cur => .ok (s.setFile fd (some ⟨cur, 0⟩), fd)
        | none => .ok (s, -1)
      else .ok (s, -1)
    else .ok (s, -1)

def vfsClose (s : Fs) (fd : Nat) : Fs × Int :=
  match s.files fd with
  | some _ => (s.setFile fd none, 0)
  | none => (s, -1)

def vfsWrite (s : Fs) (fd : Nat) (buf : List Byte) : Except Fault (Fs × Int) :=
  match s.files fd with
  | none => .ok (s, -1)
  | some file => do
    let (dev, file, ret) ← inodeWrite s.dev file buf
    .ok ({ s with dev := dev }.setFile fd (some file), ret)

def vfsMkdir (s : Fs) (name : List Byte) : Except Fault (Fs × Int) := do
  let (dev, gid, ret) ← createFile s.dev s.gid name false anyAccess DR
  .ok ({ s with dev := dev, gid := gid }, ret)

def vfsUnlink (s : Fs) (name : List Byte) : Except Fault (Fs × Int) := do
  let (dev, ret) ← rm s.dev name
  .ok ({ s with dev := dev }, ret)

def vfsRmdir (s : Fs) (name : List Byte) : Except Fault (Fs × Int) :=
  if name.length ≤ 1 then .ok (s, -1) else vfsUnlink s name

/-- The descriptor `fd` that it opens stays open. -/
def vfsLink (s : Fs) (fd : Nat) (oldpath newpath : List Byte) : Except Fault (Fs × Int) := do
  let (s, ret) ← vfsOpen s fd oldpath false
  if ret < 0 then .error .bounds
  else
    match s.files fd with
    | none => .error .null
    | some file => do
      let (dev, file, ret) ← inodeLink s.dev file newpath
      .ok ({ s with dev := dev }.setFile fd (some file), ret)

/-! ### Slots of the table -/

def tableSlots : Nat := itableNum * blockBytes / inodeBytes

/-- The slot lies in the table, so that storing the inode changes no byte of the data blocks. -/
def InTable (k : Nat) : Prop :=
  block itable ≤ table k ∧ table k + inodeBytes ≤ block dataB ∧
    ∀ (dev : Device) inode x, block dataB ≤ x → writeInode dev k inode x = dev x

/-- An inode that is created has its slot in the table, and without a free slot no file is created and the device
stays as it is. -/
structure SlotsSafe (dev : Device) : Prop where
  inside : ∀ gid type per dev' inode gid', inodeCreate dev gid type per = .ok (dev', inode, gid') → InTable inode.index
  refused : (∀ k < tableSlots, readMap dev imap k = true) → ∀ gid name per type,
    ∃ gid', createFile dev gid name false per type = .ok (dev, gid', -1)

variable {dev dev' : Device} {k gid gid' type per : Nat} {inode : Inode}

theorem inTable_iff : InTable k ↔ k < tableSlots := by
  have slots : tableSlots = 80 := by decide
  rw [slots]
  constructor
  · rintro ⟨-, inside, -⟩
    simp only [table, block, itable, dataB, blockBytes, inodeBytes] at inside
    omega
  · intro small
    have inside : table k + inodeBytes ≤ block dataB := table_lt_data small 0
    exact ⟨block_lt_table k, inside, fun dev inode x high => writeInode_outside (.inr (Nat.le_trans inside high))⟩

/-- The first free bit is before any other. -/
theorem freeMap_le {i : Nat} (clear : readMap dev imap k = false) (found : freeMap dev imap = some i) :
    i ≤ k := by
  by_contra later
  have earlier := (List.find?_range_eq_some.mp found).2.2 k (by omega)
  rw [clear] at earlier
  cases earlier

/-- A file of the root is not refused: its creation returns 0 or does not return. -/
theorem createFile_ret (done : createFile dev gid [120] false per NF = .ok (dev', gid', -1)) : False := by
  have root : inodeLookup dev (alldir (some [120])) = .ok (some (readInode dev 0)) := rfl
  have name : filename (some [120]) = some [120] := rfl
  have nf : ¬NF = DR := by decide
  simp only [createFile, root, name, bind, Except.bind, Bool.false_eq_true, if_false, if_neg nf] at done
  -- nothing after the creation of the inode returns -1
  cases made : inodeCreate dev gid NF per with
  | error e =>
    rw [made] at done
    cases done
  | ok made' =>
    simp only [made] at done
    cases entry : createEntry made'.1 (readInode dev 0) made'.2.1.index [120] NF with
    | error e =>
      rw [entry] at done
      cases done
    | ok grown =>
      rw [entry] at done
      have zero : (0 : Int) = -1 := (Prod.mk.inj (Prod.mk.inj (Except.ok.inj done)).2).2
      omega

/-- The map has more bits than the table has slots: an inode is created inside the table as long as it has a
free one. -/
theorem slotsSafe_iff (dev : Device) : SlotsSafe dev ↔ ∃ k < tableSlots, readMap dev imap k = false := by
  constructor
  · intro safe
    by_contra full
    have taken : ∀ k < tableSlots, readMap dev imap k = true := by
      intro k small
      by_contra clear
      exact full ⟨k, small, by simpa using clear⟩
    obtain ⟨gid', done⟩ := safe.refused taken 0 [120] 0 NF
    exact createFile_ret done
  · rintro ⟨k, small, clear⟩
    refine ⟨fun gid type per dev' inode gid' done => ?_, fun taken => ?_⟩
    · obtain ⟨t, found, -, rfl, -⟩ := inodeCreate_cases done
      exact inTable_iff.mpr (Nat.lt_of_le_of_lt (freeMap_le clear found) small)
    · rw [taken k small] at clear
      cases clear

/-- A device whose inode map has the bits of the table and no other. -/
def fullTable : Device := fun x => if x < 10 then 255 else 0

/-- The next inode is number 80, and its slot is the first block of data. -/
theorem slotsSafe_counterexample : ¬SlotsSafe fullTable := by
  intro safe
  have found : freeMap fullTable imap = some 80 :=
    List.find?_range_eq_some.mpr ⟨by decide, List.mem_range.mpr (by decide), by decide⟩
  have inside : 80 < tableSlots := inTable_iff.mp (safe.inside 0 NF anyAccess _ _ _ (inodeCreate_eq found))
  exact absurd inside (by decide)

end OsLabs.Ext2

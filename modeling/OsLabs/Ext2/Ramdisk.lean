import OsLabs.Ext2.CallBounds

/-!
# The ramdisks

The two devices with `rd_ops`, and the runs of the calls of `ext2_ops` and
`ext2_inodeops` on them. The counter `gid` is one for both; a file that is open has a
copy of an inode of one of them.
-/

namespace OsLabs.Ext2.Rd
open Util Function Program

/-! ### Devices -/

/-- `build/ramdisk.img`, the output of `seq 1 8192`: a line for each number. -/
def imageBytes : Nat := ((List.range 8192).map fun i => (Nat.toDigits 10 (i + 1)).length + 1).sum

def rdSize : Nat := 4 <<< 20

inductive Ramdisk where
  | ramdisk0
  | ramdisk1
  deriving DecidableEq

namespace Ramdisk

def id : Ramdisk → Nat
  | ramdisk0 => 1
  | ramdisk1 => 2

/-- `end - start`, as `rd_init` sets the two: one device is the image, the other is allocated. -/
def size (rd : Ramdisk) : Nat := if rd.id = 1 then imageBytes else rdSize

end Ramdisk

/-! ### Calls -/

structure Disks where
  dev : Ramdisk → Device
  mounted : Ramdisk → Bool
  gid : Nat
  files : Nat → Option (Ramdisk × File)

namespace Disks

def setDev (s : Disks) (rd : Ramdisk) (dev : Device) : Disks := { s with dev := update s.dev rd dev }

def setFile (s : Disks) (fd : Nat) (file : Option (Ramdisk × File)) : Disks :=
    { s with files := update s.files fd file }

end Disks

inductive FsCall where
  | init (rd : Ramdisk) (name : List Byte)
  | lookup (rd : Ramdisk) (fd : Nat) (name : List Byte)
  | create (rd : Ramdisk) (name : List Byte)
  | mkdir (rd : Ramdisk) (name : List Byte)
  | rm (rd : Ramdisk) (name : List Byte)
  | read (fd size : Nat) (buf : List Byte) (before : Byte)
  | write (fd : Nat) (buf : List Byte)
  | link (fd : Nat) (name : List Byte)
  | lseek (fd : Nat) (offset : Int) (whence : Whence)
  | close (fd : Nat)

/-- The device that the call works on, and what it does there; it ends with the state but for that device. -/
def Disks.program (s : Disks) : FsCall → Option (Ramdisk × RdProgram Disks)
  | .init rd name => some (rd, do
      let gid ← ext2Init s.gid name
      pure { s with gid := gid, mounted := update s.mounted rd true })
  | .lookup rd fd name => some (rd, do
      let found ← lookup name
      match found with
      | some cur => pure (s.setFile fd (some (rd, ⟨cur, 0⟩)))
      | none => pure s)
  | .create rd name => some (rd, do
      let (gid, _) ← createFile s.gid name false anyAccess NF
      pure { s with gid := gid })
  | .mkdir rd name => some (rd, do
      let (gid, _) ← createFile s.gid name false anyAccess DR
      pure { s with gid := gid })
  | .rm rd name => some (rd, do
      let _ ← rm name
      pure s)
  | .read fd size buf before => (s.files fd).map fun (rd, file) => (rd,
      if file.inode.type = DR then do
        let _ ← inodeList file buf size
        pure s
      else if file.inode.type = NF then do
        let _ ← inodeRead file size before
        pure s
      else pure s)
  | .write fd buf => (s.files fd).map fun (rd, file) => (rd, do
      let (file, _) ← inodeWrite file buf
      pure (s.setFile fd (some (rd, file))))
  | .link fd name => (s.files fd).map fun (rd, file) => (rd, do
      let (file, _) ← inodeLink file name
      pure (s.setFile fd (some (rd, file))))
  | .lseek fd offset whence => (s.files fd).map fun (rd, file) =>
      (rd, pure (s.setFile fd (some (rd, (inodeLseek file offset whence).1))))
  | .close fd => (s.files fd).map fun (rd, _) => (rd, pure (s.setFile fd none))

/-- The state after the call, if it returns; without a file behind the descriptor there is none. -/
def Disks.call (s : Disks) (call : FsCall) : Except Fault Disks :=
  match s.program call with
  | none => .ok s
  | some (rd, x) => do
    let (dev, s) ← (x.run (s.dev rd)).result
    .ok (s.setDev rd dev)

/-- File systems are initialized first, paths are C strings, and a new descriptor is one that is not open. -/
def FsCall.Valid (s : Disks) : FsCall → Prop
  | .lookup rd fd name => s.mounted rd = true ∧ s.files fd = none ∧ 0 ∉ name
  | .create rd name | .mkdir rd name | .rm rd name => s.mounted rd = true ∧ 0 ∉ name
  | .link _ name => 0 ∉ name
  | .read _ size _ _ => size < 2 ^ 32
  | .init .. | .write .. | .lseek .. | .close _ => True

/-- A new entry keeps to the tree and its blocks are on the device. -/
structure Grows (n : Nat) (dev : Device) (name : List Byte) (type : Nat) : Prop where
  folder : FoundFolder dev name
  room : EntryRoom dev name
  walk : Walkable dev (alldir (some name))
  disk : EntryOnDisk n dev name type

def Current (dev : Device) (inode : Inode) : Prop := ∃ d, IsFolder dev d ∧ inode = Ext2.readInode dev d

/-- The copy is that of a regular file as it is. -/
def CurrentFile (dev : Device) (inode : Inode) : Prop :=
    ∃ k, Used dev k ∧ inode = Ext2.readInode dev k ∧ inode.type = NF

/-- What a call needs of the device of the descriptor. -/
def Disks.OnFile (s : Disks) (fd : Nat) (P : Nat → Device → File → Prop) : Prop :=
  ∀ rd file, s.files fd = some (rd, file) → P rd.size (s.dev rd) file

/-- The calls that keep to the tree, and to blocks and slots on the device. -/
def Kept (s : Disks) : FsCall → Prop
  | .lookup rd _ name => Walkable (s.dev rd) (some name)
  | .create rd name => (∀ t, Ext2.freeMap (s.dev rd) imap = some t → t < 80) ∧ Grows rd.size (s.dev rd) name NF
  | .mkdir rd name => (∀ t, Ext2.freeMap (s.dev rd) imap = some t → t < 80) ∧ Grows rd.size (s.dev rd) name DR
  | .rm rd name => Removable (s.dev rd) name ∧ Walkable (s.dev rd) (alldir (some name))
  | .read fd size _ _ => s.OnFile fd fun n dev file => (file.inode.type = DR → Current dev file.inode.fsInode) ∧
      (file.inode.type = NF → ReadFits n file.inode.fsInode (file.offset % 2 ^ 32) size)
  | .write fd buf => s.OnFile fd fun n dev file => file.inode.fsInode.type = NF →
      Writable dev file.inode.fsInode file.offset buf.length ∧
        ∀ b ∈ newBlocks dev file.inode.fsInode file.offset buf.length, OnDisk n b
  | .link fd name => s.OnFile fd fun n dev file => CurrentFile dev file.inode.fsInode ∧ Grows n dev name NF
  | .init .. | .lseek .. | .close _ => True

variable {s t : Disks} {rd : Ramdisk} {call : FsCall} {dev dev' : Device} {parent : Nat → Nat}
  {entries entries' : Nat → List Record}
  {n k d fd gid offset : Nat} {name : List Byte} {inode : Inode} {file : File}

/-! ### Names -/

theorem names_of_entered (T : Tree dev parent entries) (room : EntryRoom dev name) (names : ∀ d, FolderFits (entries d))
    (entered : Entered dev name entries entries') : ∀ d, FolderFits (entries' d) := by
  rcases entered with rfl | ⟨d, r, here, looked, last, rfl⟩
  · exact names
  intro j
  by_cases this : j = d
  · subst this
    rw [update_self]
    exact (names j).append (T.folder j here).1 (room _ _ looked last)
  · rw [update_of_ne this]
    exact names j

theorem names_of_remaining {before after : List Record} {r : Record} (split : entries d = before ++ r :: after)
    (names : ∀ d, FolderFits (entries d)) : ∀ j, FolderFits (remaining entries d before r after j) := by
  intro j
  unfold remaining
  by_cases target : j = r.inode
  · subst target
    rw [update_self]
    exact folderFits_nil
  rw [update_of_ne target]
  by_cases here : j = d
  · subst here
    have fits := names j
    rw [split] at fits
    rw [update_self]
    exact fits.gone
  · rw [update_of_ne here]
    exact names j

/-! ### Between two calls -/

/-- What is on a device of `n` bytes. -/
structure Sound (n : Nat) (dev : Device) : Prop where
  tree : ∃ parent entries, Tree dev parent entries ∧ ∀ d, FolderFits (entries d)
  marks : MarkedOnDisk n dev

/-- A copy of an inode, perhaps out of date: its slot and its blocks are on the device. -/
structure Held (n : Nat) (inode : Inode) : Prop where
  fits : inode.Fits
  low : inode.index < 80
  len : inode.len ≤ linkSlots
  owned : ∀ b ∈ inode.links, OnDisk n b

structure Standing (s : Disks) : Prop where
  disks : ∀ rd, s.mounted rd = true → Sound rd.size (s.dev rd)
  files : ∀ fd rd file, s.files fd = some (rd, file) → s.mounted rd = true ∧ Held rd.size file.inode.fsInode

theorem Held.ofRead (T : Tree dev parent entries) (marks : MarkedOnDisk n dev) (used : Used dev k) :
    Held n (Ext2.readInode dev k) := by
  have node := T.node k used
  exact ⟨readInode_fits, by rw [node.index]; exact node.low, node.len, marks.links node.marked⟩

theorem Held.setLinkNum {m : Nat} (h : Held n inode) (small : m < 2 ^ 32) : Held n (inode.setLinkNum m) where
  fits := h.fits.setLinkNum small
  low := h.low
  len := h.len
  owned := by
    rw [Inode.setLinkNum_links]
    exact h.owned

theorem Held.written {m : Nat} (h : Held n inode) (writable : Writable dev inode offset m)
    (new : ∀ b ∈ newBlocks dev inode offset m, OnDisk n b) : Held n (written dev inode offset m) where
  fits := writable.written_fits h.fits
  low := by
    rw [written_same]
    exact h.low
  len := by
    rw [Ext2.written, Inode.grow_len, Inode.pushAll_len]
    exact slots_suffice writable.bounded.len writable.bounded.fits
  owned := by
    rw [written_links_eq writable.bounded]
    exact fun b mem => (List.mem_append.mp mem).elim (h.owned b) (new b)

theorem length_line {k : Nat} (small : k < 10000) :
    (Nat.toDigits 10 k).length + 1 = if k < 10 then 2 else if k < 100 then 3 else if k < 1000 then 4 else 5 := by
  have digits (m : Nat) (pos : 0 < m) : (Nat.toDigits 10 k).length ≤ m ↔ k < 10 ^ m :=
    Nat.length_toDigits_le_iff (by decide) pos
  have some : 0 < (Nat.toDigits 10 k).length := Nat.length_toDigits_pos
  have one := digits 1 (by decide)
  have two := digits 2 (by decide)
  have three := digits 3 (by decide)
  have four := digits 4 (by decide)
  simp only [Nat.reducePow] at one two three four
  split_ifs <;> omega

theorem imageBytes_eq : imageBytes = 39853 := by
  have lines : ∀ i ∈ List.range 8192, (Nat.toDigits 10 (i + 1)).length + 1 =
      if i + 1 < 10 then 2 else if i + 1 < 100 then 3 else if i + 1 < 1000 then 4 else 5 :=
    fun i mem => length_line (Nat.lt_of_le_of_lt (List.mem_range.mp mem) (by decide))
  rw [imageBytes, List.map_congr_left lines]
  decide +kernel

/-- Both devices have the table and a block of data. -/
theorem capacity (rd : Ramdisk) : Capacity rd.size := by
  cases rd with
  | ramdisk0 =>
    have size : Ramdisk.ramdisk0.size = 39853 := imageBytes_eq
    rw [size]
    constructor <;> decide
  | ramdisk1 => constructor <;> decide

/-- The image ends in block 26. -/
theorem onDisk_ramdisk0 {b : Nat} : OnDisk Ramdisk.ramdisk0.size b ↔ b < 26 := by
  have size : Ramdisk.ramdisk0.size = 39853 := imageBytes_eq
  rw [size, OnDisk]
  simp only [data, block, dataB, blockBytes]
  omega

/-- The other device has all the blocks that `free_map` looks for. -/
theorem freeOnDisk_ramdisk1 : FreeOnDisk Ramdisk.ramdisk1.size k dev := by
  intro b mem
  have small : b < blockBytes := List.mem_range.mp (List.mem_filter.mp (List.mem_of_mem_take mem)).1
  have size : Ramdisk.ramdisk1.size = 4 * 2 ^ 20 := rfl
  rw [size, OnDisk]
  simp only [data, block, dataB, blockBytes] at *
  omega

namespace Standing

theorem setGid (h : Standing s) : Standing { s with gid := gid } := ⟨h.disks, h.files⟩

theorem setDev (h : Standing s) (sound : Sound rd.size dev) : Standing (s.setDev rd dev) where
  disks i mounted := by
    change Sound i.size (update s.dev rd dev i)
    by_cases here : i = rd
    · subst here
      rw [update_self]
      exact sound
    · rw [update_of_ne here]
      exact h.disks i mounted
  files := h.files

/-- The device may not have been mounted. -/
theorem mount (h : Standing s) (sound : Sound rd.size dev) :
    Standing ({ s with gid := gid, mounted := update s.mounted rd true }.setDev rd dev) where
  disks i mounted := by
    change update s.mounted rd true i = true at mounted
    change Sound i.size (update s.dev rd dev i)
    by_cases here : i = rd
    · subst here
      rw [update_self]
      exact sound
    · rw [update_of_ne here] at mounted ⊢
      exact h.disks i mounted
  files fd i file found := by
    obtain ⟨mounted, held⟩ := h.files fd i file found
    refine ⟨?_, held⟩
    change update s.mounted rd true i = true
    by_cases here : i = rd
    · subst here
      rw [update_self]
    · rw [update_of_ne here]
      exact mounted

theorem setFile (h : Standing s) {new : Option (Ramdisk × File)}
    (held : ∀ rd file, new = some (rd, file) → s.mounted rd = true ∧ Held rd.size file.inode.fsInode) :
    Standing (s.setFile fd new) where
  disks := h.disks
  files i rd file found := by
    change update s.files fd new i = some (rd, file) at found
    by_cases here : i = fd
    · subst here
      rw [update_self] at found
      exact held rd file found
    · rw [update_of_ne here] at found
      exact h.files i rd file found

/-! ### Steps -/

/-- The call stays inside the device, and the state that it leaves stands. -/
abbrev Stands (s : Disks) (rd : Ramdisk) (x : RdProgram Disks) : Prop :=
  Leaves (Transfer.Inside rd.size) x (s.dev rd) fun dev t => Standing (t.setDev rd dev)

theorem same (h : Standing s) : Standing (s.setDev rd (s.dev rd)) := by
  rw [Disks.setDev, update_eq_self]
  exact h

theorem init (h : Standing s) : Stands s rd (do
    let gid ← ext2Init s.gid name
    pure { s with gid := gid, mounted := update s.mounted rd true }) := by
  refine (ext2Init_keeps (capacity rd)).bind fun dev gid done marks => .pure (h.mount ⟨?_, marks⟩)
  rw [result_ext2Init] at done
  exact ⟨_, _, ext2Init_tree done, fun _ => folderFits_nil⟩

theorem lookup (h : Standing s) (mounted : s.mounted rd = true) (plain : 0 ∉ name)
    (walk : Walkable (s.dev rd) (some name)) :
    Stands s rd (do
      let found ← Rd.lookup name
      match found with
      | some cur => pure (s.setFile fd (some (rd, ⟨cur, 0⟩)))
      | none => pure s) := by
  obtain ⟨⟨parent, entries, T, names⟩, marks⟩ := h.disks rd mounted
  obtain ⟨within, found⟩ := lookup_within (capacity rd) T marks plain walk
  apply (lookup_computes _).leaves_bind within
  intro cur looked
  cases cur with
  | none => exact .pure h.same
  | some cur =>
    obtain ⟨k, used, rfl⟩ := found cur looked
    have opened : Standing (s.setFile fd (some (rd, ⟨updateInode (Ext2.readInode (s.dev rd) k), 0⟩))) := by
      apply h.setFile
      intro rd' file new
      obtain ⟨rfl, rfl⟩ := Prod.mk.inj (Option.some.inj new)
      exact ⟨mounted, .ofRead T marks used⟩
    exact .pure (opened.setDev (h.disks rd mounted))

/-- A file or a directory is created. -/
theorem create {type : Nat} (h : Standing s) (sort : type = NF ∨ type = DR) (mounted : s.mounted rd = true)
    (plain : 0 ∉ name)
    (low : ∀ t, Ext2.freeMap (s.dev rd) imap = some t → t < 80) (grows : Grows rd.size (s.dev rd) name type) :
    Stands s rd (do
      let (gid, _) ← createFile s.gid name false anyAccess type
      pure { s with gid := gid }) := by
  obtain ⟨⟨parent, entries, T, names⟩, marks⟩ := h.disks rd mounted
  refine (createFile_keeps (capacity rd) T marks sort plain grows.folder grows.room low grows.walk grows.disk).bind
    fun dev made done marks' => .pure (h.setGid.setDev ⟨?_, marks'⟩)
  rw [result_createFile] at done
  obtain ⟨parent', entries', T', entered⟩ := createFile_tree T sort plain grows.folder grows.room low done
  exact ⟨parent', entries', T', names_of_entered T grows.room names entered⟩

theorem rm (h : Standing s) (mounted : s.mounted rd = true) (plain : 0 ∉ name) (removable : Removable (s.dev rd) name)
    (walk : Walkable (s.dev rd) (alldir (some name))) : Stands s rd (do
      let _ ← Rd.rm name
      pure s) := by
  obtain ⟨⟨parent, entries, T, names⟩, marks⟩ := h.disks rd mounted
  refine (rm_keeps (capacity rd) T marks plain removable walk).bind fun dev ret done marks' =>
    .pure (h.setDev ⟨?_, marks'⟩)
  rw [result_rm] at done
  obtain ⟨entries', T', rfl | ⟨d, before, r, after, split, rfl⟩⟩ := rm_entries T plain removable done
  · exact ⟨parent, entries', T', names⟩
  · exact ⟨parent, _, T', names_of_remaining split names⟩

theorem list {size : Nat} {buf : List Byte} (h : Standing s) (held : s.files fd = some (rd, file))
    (current : Current (s.dev rd) file.inode.fsInode) : Stands s rd (do
      let _ ← inodeList file buf size
      pure s) := by
  obtain ⟨mounted, copy⟩ := h.files fd rd file held
  obtain ⟨⟨parent, entries, T, names⟩, marks⟩ := h.disks rd mounted
  obtain ⟨d, here, same⟩ := current
  have folder := (T.folder d here).1
  refine (inodeList_computes _ _ _).leaves_bind ?_ fun _ _ => .pure h.same
  refine @inodeList_within _ _ (folderRecords d (parent d) (entries d)) (capacity rd) file size buf ?_
    copy.owned (names d) ?_
  · rw [same]
    exact folder.laid
  · have own (i : Nat) (name : List Byte) : (⟨i, name, DR⟩ : Record).Live := by
      show DR ≠ XX
      decide
    rw [same, folder.dirLen, folderRecords, List.countP_cons_of_pos (by simpa using own _ _),
      List.countP_cons_of_pos (by simpa using own _ _)]
    omega

theorem read {size : Nat} {before : Byte} (h : Standing s) (held : s.files fd = some (rd, file)) (small : size < 2 ^ 32)
    (fits : ReadFits rd.size file.inode.fsInode (file.offset % 2 ^ 32) size) : Stands s rd (do
      let _ ← inodeRead file size before
      pure s) := by
  have copy := (h.files fd rd file held).2
  exact (inodeRead_computes _ _ _).leaves_bind (inodeRead_within (capacity rd) copy.len copy.owned small fits)
    fun _ _ => .pure h.same

theorem write {buf : List Byte} (h : Standing s) (held : s.files fd = some (rd, file))
    (kept : file.inode.fsInode.type = NF → Writable (s.dev rd) file.inode.fsInode file.offset buf.length ∧
      ∀ b ∈ newBlocks (s.dev rd) file.inode.fsInode file.offset buf.length, OnDisk rd.size b) : Stands s rd (do
      let (file, _) ← inodeWrite file buf
      pure (s.setFile fd (some (rd, file)))) := by
  obtain ⟨mounted, copy⟩ := h.files fd rd file held
  obtain ⟨⟨parent, entries, T, names⟩, marks⟩ := h.disks rd mounted
  have writes : Leaves (Transfer.Inside rd.size) (inodeWrite file buf) (s.dev rd) fun dev file' =>
      Sound rd.size dev ∧ Held rd.size file'.1.inode.fsInode := by
    refine ⟨inodeWrite_within (capacity rd) copy.low (fun normal => (kept normal).1.bounded) fun normal => ?_, ?_⟩
    · obtain ⟨writable, new⟩ := kept normal
      exact chunkWrites_on_disk writable.bounded writable.contained fun b mem =>
        (List.mem_append.mp mem).elim (copy.owned b) (new b)
    · rintro dev ⟨file', ret⟩ done
      rw [result_inodeWrite] at done
      have T' := (inodeWrite_tree T copy.fits (fun normal => (kept normal).1) done).1
      rcases inodeWrite_cases (fun normal => (kept normal).1) done with ⟨normal, rfl, same⟩ | ⟨rfl, rfl⟩
      · obtain ⟨writable, new⟩ := kept normal
        rw [same]
        exact ⟨⟨⟨parent, entries, T', names⟩, write_on_disk marks new⟩, copy.written writable new⟩
      · exact ⟨⟨⟨parent, entries, T, names⟩, marks⟩, copy⟩
  refine writes.bind fun dev made _ ⟨sound, held'⟩ => ?_
  obtain ⟨file', ret⟩ := made
  refine .pure (Standing.setDev (h.setFile fun rd' new same => ?_) sound)
  obtain ⟨rfl, rfl⟩ := Prod.mk.inj (Option.some.inj same)
  exact ⟨mounted, held'⟩

theorem link (h : Standing s) (held : s.files fd = some (rd, file)) (plain : 0 ∉ name)
    (current : CurrentFile (s.dev rd) file.inode.fsInode) (grows : Grows rd.size (s.dev rd) name NF) : Stands s rd (do
      let (file, _) ← inodeLink file name
      pure (s.setFile fd (some (rd, file)))) := by
  obtain ⟨mounted, copy⟩ := h.files fd rd file held
  obtain ⟨⟨parent, entries, T, names⟩, marks⟩ := h.disks rd mounted
  obtain ⟨k, used, fresh, normal⟩ := current
  rw [fresh] at normal
  refine (inodeLink_keeps (capacity rd) T marks plain grows.folder grows.room used fresh normal grows.walk
    grows.disk).bind
    fun dev made done marks' => ?_
  obtain ⟨file', ret⟩ := made
  rw [result_inodeLink] at done
  obtain ⟨parent', entries', T', entered⟩ := inodeLink_tree T plain grows.folder grows.room used fresh normal done
  refine .pure (Standing.setDev (h.setFile fun rd' new same => ?_)
    ⟨⟨parent', entries', T', names_of_entered T grows.room names entered⟩, marks'⟩)
  obtain ⟨rfl, rfl⟩ := Prod.mk.inj (Option.some.inj same)
  rw [inodeLink_copy done]
  exact ⟨mounted, copy.setLinkNum (Nat.mod_lt _ (by decide))⟩

/-- Every call that is kept stays inside its device. -/
theorem stands {x : RdProgram Disks} (h : Standing s) (valid : call.Valid s) (kept : Kept s call)
    (runs : s.program call = some (rd, x)) : Stands s rd x := by
  -- a call through a descriptor works on the device of the file behind it
  have behind {fd : Nat} {f : Ramdisk × File → Ramdisk × RdProgram Disks}
      (fine : ∀ rd file, s.files fd = some (rd, file) → (f (rd, file)).1 = rd ∧ Stands s rd (f (rd, file)).2)
      (runs : (s.files fd).map f = some (rd, x)) : Stands s rd x := by
    obtain ⟨⟨rd', file⟩, held, same⟩ := Option.map_eq_some_iff.mp runs
    obtain ⟨device, stands⟩ := fine rd' file held
    rw [same] at device stands
    obtain rfl : rd = rd' := device
    exact stands
  cases call with
  | init rd' name =>
    obtain ⟨rfl, rfl⟩ := Prod.mk.inj (Option.some.inj runs)
    exact h.init
  | lookup rd' fd name =>
    obtain ⟨rfl, rfl⟩ := Prod.mk.inj (Option.some.inj runs)
    exact h.lookup valid.1 valid.2.2 kept
  | create rd' name =>
    obtain ⟨rfl, rfl⟩ := Prod.mk.inj (Option.some.inj runs)
    exact h.create (.inl rfl) valid.1 valid.2 kept.1 kept.2
  | mkdir rd' name =>
    obtain ⟨rfl, rfl⟩ := Prod.mk.inj (Option.some.inj runs)
    exact h.create (.inr rfl) valid.1 valid.2 kept.1 kept.2
  | rm rd' name =>
    obtain ⟨rfl, rfl⟩ := Prod.mk.inj (Option.some.inj runs)
    exact h.rm valid.1 valid.2 kept.1 kept.2
  | read fd size buf before =>
    refine behind (fun rd file held => ⟨rfl, ?_⟩) runs
    obtain ⟨directory, normal⟩ := kept rd file held
    show Stands s rd (if _ then _ else if _ then _ else _)
    split
    · rename_i kind
      exact h.list held (directory kind)
    split
    · rename_i kind
      exact h.read held valid (normal kind)
    · exact .pure h.same
  | write fd buf => exact behind (fun rd file held => ⟨rfl, h.write held (kept rd file held)⟩) runs
  | link fd name =>
    refine behind (fun rd file held => ⟨rfl, ?_⟩) runs
    obtain ⟨current, grows⟩ := kept rd file held
    exact h.link held valid current grows
  | lseek fd offset whence =>
    refine behind (fun rd file held => ⟨rfl, .pure ?_⟩) runs
    obtain ⟨mounted, copy⟩ := h.files fd rd file held
    refine Standing.same (h.setFile fun rd' new same => ?_)
    obtain ⟨rfl, rfl⟩ := Prod.mk.inj (Option.some.inj same)
    exact ⟨mounted, copy⟩
  | close fd =>
    refine behind (fun rd file held => ⟨rfl, .pure ?_⟩) runs
    exact Standing.same (h.setFile fun _ _ none => nomatch none)

theorem step (h : Standing s) (valid : call.Valid s) (kept : Kept s call) (done : s.call call = .ok t) :
    Standing t := by
  unfold Disks.call at done
  cases runs : s.program call with
  | none =>
    rw [runs] at done
    obtain rfl := Except.ok.inj done
    exact h
  | some found =>
    obtain ⟨rd, x⟩ := found
    rw [runs] at done
    obtain ⟨⟨dev, s'⟩, ended, done⟩ := bind_ok done
    obtain rfl := Except.ok.inj done
    exact (h.stands valid kept runs).post dev s' ended

end Standing

/-! ### Runs -/

end OsLabs.Ext2.Rd

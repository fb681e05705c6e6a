import OsLabs.Ext2.Links

/-!
# Room in the link array

Nothing in the code checks that a write fits the 25 link slots of an inode or the
free blocks of the device. When every write and every entry fits, the slots that
are used are slots of the array, and what is stored in them was found free.
-/

namespace OsLabs.Ext2
open Util

/-- An inode whose index is a bit of the map, and whose file and blocks lie in the link array and in the data map. -/
structure InBounds (inode : Inode) : Prop where
  index : inode.index < mapBits
  len : inode.len ≤ linkSlots
  size : inode.size ≤ linkSlots * blockBytes
  links : ∀ b ∈ inode.links, b < mapBits
  fits : inode.Fits

def TableInBounds (dev : Device) : Prop := ∀ k < 80, InBounds (readInode dev k)

/-- A file that ends at `stop` has a link slot for every block, and a free block for every one it does not have yet. -/
def FitsIn (dev : Device) (inode : Inode) (stop : Nat) : Prop :=
  blocks stop ≤ linkSlots ∧ blocks stop - inode.len ≤ (freeBits dev dmap).length

instance (dev : Device) (inode : Inode) (stop : Nat) : Decidable (FitsIn dev inode stop) :=
  inferInstanceAs (Decidable (_ ∧ _))

/-- The inode has taken the first free blocks, and the table is still in bounds. -/
structure Extended (dev dev' : Device) (inode inode' : Inode) : Prop where
  bounds : InBounds inode'
  table : TableInBounds dev → TableInBounds dev'
  blocks : ∃ bs, freeBits dev dmap = bs ++ freeBits dev' dmap ∧ inode'.links = inode.links ++ bs ∧
    inode'.len = inode.len + bs.length

variable {dev dev' dev'' : Device} {inode inode' inode'' : Inode} {offset stop n k type per gid gid' : Nat}
  {buf : List Byte}
  {bs rest : List Nat} {name : List Byte}

/-! ### The table -/

theorem InBounds.setDirLen (h : InBounds inode) (small : n < 2 ^ 32) : InBounds (inode.setDirLen n) where
  index := h.index
  len := h.len
  size := h.size
  links := h.links
  fits := h.fits.setDirLen small

namespace TableInBounds

theorem congr (h : TableInBounds dev) (same : ∀ y, block itable ≤ y → y < block dataB → dev' y = dev y) :
    TableInBounds dev' := by
  intro k low
  have stop : table k + inodeBytes ≤ block dataB := table_lt_data low 0
  rw [readInode_congr fun y above below =>
    same y (Nat.le_trans (block_lt_table k) above) (Nat.lt_of_lt_of_le below stop)]
  exact h k low

theorem write {b : Nat} (h : TableInBounds dev) : TableInBounds (dev.write (data b + n) buf) :=
  h.congr fun _ _ below =>
    Mem.write_before (Nat.lt_of_lt_of_le below (Nat.le_trans (maps_lt_data b) (Nat.le_add_right _ _)))

theorem writeInode (h : TableInBounds dev) (bounds : InBounds inode) :
    TableInBounds (writeInode dev inode.index inode) := by
  intro k low
  by_cases here : k = inode.index
  · rw [here, readInode_writeInode bounds.fits]
    exact bounds
  · rw [readInode_congr fun y above below => writeInode_outside (by simp only [table, inodeBytes] at *; omega)]
    exact h k low

end TableInBounds

/-! ### Writing -/

theorem blocks_mono (le : n ≤ stop) : blocks n ≤ blocks stop := Nat.div_le_div_right (Nat.add_le_add_right le _)

theorem FitsIn.mono (h : FitsIn dev inode stop) (le : n ≤ stop) : FitsIn dev inode n :=
  ⟨(blocks_mono le).trans h.1, (Nat.sub_le_sub_right (blocks_mono le) _).trans h.2⟩

/-- The requirement of the write loop is the weaker one. -/
theorem FitsIn.room (h : FitsIn dev inode (offset + n)) :
    offset + n ≤ linkSlots * blockBytes ∧ Room dev inode offset n := by
  obtain ⟨slots, free⟩ := h
  constructor
  · simp only [blocks, linkSlots, blockBytes] at *
    omega
  · by_cases existing : offset < inode.len * blockBytes
    · exact .inl existing
    · right
      simp only [blocks, blockBytes] at *
      omega

namespace Extended

theorem refl (h : InBounds inode) : Extended dev dev inode inode :=
  ⟨h, id, [], (List.nil_append _).symm, (List.append_nil _).symm, rfl⟩

theorem trans (h : Extended dev dev' inode inode') (h' : Extended dev' dev'' inode' inode'') :
    Extended dev dev'' inode inode'' where
  bounds := h'.bounds
  table table := h'.table (h.table table)
  blocks := by
    obtain ⟨bs, free, links, len⟩ := h.blocks
    obtain ⟨bs', free', links', len'⟩ := h'.blocks
    refine ⟨bs ++ bs', by rw [free, free', List.append_assoc], by rw [links', links, List.append_assoc], ?_⟩
    rw [len', len, List.length_append]
    omega

/-- The blocks that are left are as many as the ones that were taken are missing. -/
theorem fitsIn (h : Extended dev dev' inode inode') (fits : FitsIn dev inode stop) : FitsIn dev' inode' stop := by
  obtain ⟨bs, free, -, len⟩ := h.blocks
  obtain ⟨slots, enough⟩ := fits
  rw [free, List.length_append] at enough
  exact ⟨slots, by omega⟩

end Extended

theorem dataWrite_extended (h : InBounds inode) (fits : FitsIn dev inode (offset + buf.length)) :
    ∃ dev' inode', dataWrite dev inode buf offset = .ok (dev', inode') ∧ Extended dev dev' inode inode' ∧
      inode'.size = max inode.size (offset + buf.length) := by
  obtain ⟨inside, room⟩ := fits.room
  have slots := @slots_suffice dev _ _ _ h.len inside
  have len := @Request.written_len dev inode offset buf.length
  have size := @written_size dev inode offset buf.length
  have links : (written dev inode offset buf.length).links = inode.links ++ newBlocks dev inode offset buf.length := by
    rw [written, Inode.grow_links, Inode.pushAll_links slots]
  have widths : (written dev inode offset buf.length).Fits := by
    have old := h.fits.size
    refine written_fits h.fits ?_ ?_
    · rw [size]
      simp only [linkSlots, blockBytes] at inside
      omega
    · rw [len]
      simp only [linkSlots] at slots
      omega
  have bounds : InBounds (written dev inode offset buf.length) := by
    refine ⟨?_, by rw [len]; exact slots, ?_, fun b mem => ?_, widths⟩
    · rw [written, Inode.grow_index, Inode.pushAll_index]
      exact h.index
    · rw [size]
      exact Nat.max_le.mpr ⟨h.size, inside⟩
    · rw [links] at mem
      exact (List.mem_append.mp mem).elim (h.links b) (newBlocks_lt b)
  have split : ∃ rest, freeBits dev dmap = newBlocks dev inode offset buf.length ++ rest := by
    unfold newBlocks
    split
    · exact ⟨_, (List.nil_append _).symm⟩
    · exact ⟨_, (List.take_append_drop _ _).symm⟩
  obtain ⟨rest, free⟩ := split
  refine ⟨_, _, dataWrite_eq h.len inside room, ⟨bounds, fun table k low => ?_, _, ?_, links, len⟩, size⟩
  · by_cases own : inode.size < offset + buf.length ∧ k = inode.index
    · rw [own.2, slot_stored own.1 widths]
      exact bounds
    · rw [slot_kept low fun grows here => own ⟨grows, here⟩]
      exact table k low
  · rw [(SameMaps.of_writes stored_addr).freeBits (by decide), freeBits_marks free]
    exact free

theorem createEntry_extended (entryInode type : Nat) (h : InBounds inode)
    (fits : FitsIn dev inode (inode.size + entryBytes + (name.length + 1))) :
    ∃ dev' inode', createEntry dev inode entryInode name type = .ok (dev', inode') ∧ Extended dev dev' inode inode' ∧
      inode'.size = inode.size + entryBytes + (name.length + 1) := by
  let header := Entry.encode ⟨entryInode, entryBytes + (name.length + 1), name.length + 1, type⟩
  have sixteen : header.length = entryBytes := length_encodeEntry _
  have counted : InBounds inode.count := h.setDirLen (Nat.mod_lt _ (by decide))
  have first : FitsIn dev inode.count (inode.count.size + header.length) := by
    rw [sixteen]
    exact fits.mono (Nat.le_add_right _ _)
  obtain ⟨dev₁, inode₁, done₁, extended₁, size⟩ := dataWrite_extended counted first
  have stop : inode₁.size + (name ++ [0]).length = inode.size + entryBytes + (name.length + 1) := by
    rw [size, sixteen, Nat.max_eq_right (Nat.le_add_right _ _), List.length_append]
    rfl
  have second : FitsIn dev₁ inode₁ (inode₁.size + (name ++ [0]).length) := by
    rw [stop]
    exact extended₁.fitsIn fits
  obtain ⟨dev₂, inode₂, done₂, extended₂, size₂⟩ := dataWrite_extended extended₁.bounds second
  have uncounted : Extended dev dev₁ inode inode₁ := ⟨extended₁.bounds, extended₁.table, extended₁.blocks⟩
  refine ⟨dev₂, inode₂, ?_, uncounted.trans extended₂, by rw [size₂, Nat.max_eq_right (Nat.le_add_right _ _), stop]⟩
  show (dataWrite dev inode.count header inode.count.size >>= fun x => dataWrite x.1 x.2 (name ++ [0]) x.2.size) = _
  rw [done₁]
  exact done₂

/-- On a regular file the same; a directory stops at the assertion, and no other inode is written. -/
theorem inodeWrite_extended (h : InBounds inode) (fits : FitsIn dev inode (offset + buf.length)) :
    inodeWrite dev ⟨updateInode inode, offset⟩ buf = .error .assertion ∨ ∃ dev' file ret,
      inodeWrite dev ⟨updateInode inode, offset⟩ buf = .ok (dev', file, ret) ∧
        Extended dev dev' inode file.inode.fsInode := by
  let file : File := ⟨updateInode inode, offset⟩
  by_cases directory : inode.type = DR
  · left
    show inodeWrite dev file buf = _
    rw [inodeWrite, if_pos (show file.inode.fsInode.type = DR from directory)]
  right
  by_cases regular : inode.type = NF
  · obtain ⟨dev', inode', done, extended, -⟩ := dataWrite_extended h fits
    have same := @inodeWrite_eq dev buf file regular (offset_int fits.room.1)
    change _ = dataWrite dev inode buf offset at same
    rw [done] at same
    cases result : inodeWrite dev file buf with
    | error e =>
      rw [result] at same
      cases same
    | ok r =>
      rw [result] at same
      obtain ⟨rfl, rfl⟩ := Prod.mk.inj (Except.ok.inj same)
      exact ⟨_, _, _, rfl, extended⟩
  · refine ⟨dev, file, buf.length, ?_, Extended.refl h⟩
    show inodeWrite dev file buf = _
    rw [inodeWrite, if_neg (show ¬file.inode.fsInode.type = DR from directory),
      if_neg (show ¬file.inode.fsInode.type = NF from regular)]

/-! ### Removing -/

/-- The scan of `ext2_dir_remove` does not run off the end of the directory. -/
def ScanStops (dev : Device) (inode : Inode) (index : Nat) : Prop :=
  ∀ cur offset, removeLoop dev inode index (inode.size + 1) none 0 = .ok (cur, offset) → offset < inode.size

theorem InBounds.linkAt (h : InBounds inode) (inside : offset < inode.size) :
    inode.linkAt (offset / blockBytes) = .ok (inode.slot (offset / blockBytes)) := by
  have size := h.size
  apply Inode.linkAt_eq
  simp only [linkSlots, blockBytes] at *
  omega

theorem removeLoop_inside {index fuel : Nat} {cur : Option Entry} (h : InBounds inode) :
    removeLoop dev inode index fuel cur offset ≠ .error .bounds := by
  induction fuel generalizing cur offset with
  | zero =>
    intro out
    cases out
  | succ fuel ih =>
    rw [removeLoop]
    split
    · rename_i inside
      rw [h.linkAt inside]
      simp only [bind, Except.bind]
      split
      · intro out
        cases out
      · exact ih
    · intro out
      cases out

theorem dirRemove_inside {index : Nat} (h : InBounds inode) (stops : ScanStops dev inode index) :
    dirRemove dev inode index ≠ .error .bounds := by
  intro out
  rcases bind_error out with failed | ⟨⟨cur, offset⟩, scan, out⟩
  · exact removeLoop_inside h failed
  cases cur with
  | none => cases out
  | some e =>
    simp only [h.linkAt (stops _ offset scan)] at out
    cases out

/-- What is written is a record, and then the inode itself. -/
theorem dirRemove_kept {index : Nat} (h : InBounds inode) (done : dirRemove dev inode index = .ok (dev', inode')) :
    InBounds inode' ∧ (TableInBounds dev → TableInBounds dev') := by
  obtain ⟨⟨cur, offset⟩, -, done⟩ := bind_ok done
  cases cur with
  | none => cases done
  | some e =>
    obtain ⟨b, -, done⟩ := bind_ok done
    obtain ⟨rfl, rfl⟩ := Prod.mk.inj (Except.ok.inj done)
    have bounds := h.setDirLen (Nat.mod_lt (inode.dirLen + (2 ^ 32 - 1)) (show 0 < 2 ^ 32 by decide))
    exact ⟨bounds, fun table => table.write.writeInode bounds⟩

theorem writeMap_error {blk i : Nat} {x : Bool} {e : Fault} (failed : writeMap dev blk i x = .error e) :
    e = .assertion := by
  unfold writeMap at failed
  split at failed
  · exact (Except.error.inj failed).symm
  split at failed
  · exact (Except.error.inj failed).symm
  · cases failed

theorem clear_inside {bs : List Nat} : bs.foldlM (fun dev b => writeMap dev dmap b false) dev ≠ .error .bounds := by
  induction bs generalizing dev with
  | nil => exact fun out => nomatch out
  | cons b bs ih =>
    rw [List.foldlM_cons]
    intro out
    rcases bind_error out with failed | ⟨dev₁, -, out⟩
    · cases writeMap_error failed
    · exact ih out

theorem inodeRemove_inside (h : InBounds inode) : inodeRemove dev inode ≠ .error .bounds := by
  have slots : ∀ j ∈ List.range inode.len, j < linkSlots :=
    fun j mem => Nat.lt_of_lt_of_le (List.mem_range.mp mem) h.len
  intro out
  rcases bind_error out with failed | ⟨dev₁, -, out⟩
  · cases writeMap_error failed
  · rw [foldlM_slots slots] at out
    exact clear_inside out

theorem inodeRemove_kept (h : InBounds inode) (table : TableInBounds dev) (done : inodeRemove dev inode = .ok dev') :
    TableInBounds dev' :=
  table.congr fun _ above _ => inodeRemove_high h.len h.index h.links done above

/-! ### Creating -/

theorem inodeCreate_inside : inodeCreate dev gid type per ≠ .error .bounds := by
  intro out
  cases found : freeMap dev imap with
  | none =>
    rw [inodeCreate_none found] at out
    cases out
  | some t =>
    rw [inodeCreate_eq found] at out
    cases out

theorem inodeCreate_kept (table : TableInBounds dev) (done : inodeCreate dev gid type per = .ok (dev', inode, gid')) :
    TableInBounds dev' ∧ InBounds inode := by
  obtain ⟨t, free, rfl, rfl, small⟩ := inodeCreate_cases done
  have low : t < mapBits := by
    have inside := (freeMap_some free).1
    simp only [mapBits, blockBytes] at *
    omega
  refine ⟨table.congr fun y above _ => ?_, low, Nat.zero_le _, Nat.zero_le _, fun b mem => absurd mem List.not_mem_nil,
    Inode.Fits.blank type per (Nat.lt_trans low (by decide)) small⟩
  have before := map_lt_table (show imap < itable by decide) low
  exact setMap_other (by omega)

/-! ### A fresh file system -/

theorem decodeLE_zero : decodeLE (List.replicate n 0) = 0 := by
  induction n with
  | zero => rfl
  | succ n ih => rw [List.replicate_succ, decodeLE, ih]; rfl

theorem load_zero {a : Nat} : Mem.load n (fun _ => 0) a = 0 := by
  rw [Mem.load, Mem.read, List.map_const', List.length_range, decodeLE_zero]

theorem TableInBounds.of_zero (zero : ∀ y, block itable ≤ y → y < block dataB → dev y = 0) : TableInBounds dev := by
  have blank : TableInBounds fun _ => 0 := by
    intro k _
    have index : (readInode (fun _ => 0) k).index = 0 := load_zero
    have len : (readInode (fun _ => 0) k).len = 0 := load_zero
    have size : (readInode (fun _ => 0) k).size = 0 := load_zero
    refine ⟨by rw [index]; decide, by rw [len]; decide, by rw [size]; decide, fun b mem => ?_, readInode_fits⟩
    rw [Inode.links, len, List.take_zero] at mem
    cases mem
  exact blank.congr zero

theorem bzero_apply {x y : Nat} : bzero dev x y = if block x ≤ y ∧ y < block (x + 1) then 0 else dev y := by
  have next : block (x + 1) = block x + blockBytes := Nat.succ_mul x blockBytes
  split
  · rename_i inside
    obtain ⟨i, rfl⟩ := Nat.exists_eq_add_of_le inside.1
    have small : i < (List.replicate blockBytes (0 : Byte)).length := by
      rw [List.length_replicate]
      omega
    rw [bzero, Mem.write_at i small, List.getElem_replicate]
  · rename_i out
    exact Mem.write_outside (by rw [List.length_replicate]; omega)

theorem cleared_table {y : Nat} (above : block itable ≤ y) (below : y < block dataB) :
    (List.range itableNum).foldl (fun dev i => bzero dev (itable + i)) dev y = 0 := by
  have clears (js : List Nat) (start : Device)
      (h : start y = 0 ∨ ∃ j ∈ js, block (itable + j) ≤ y ∧ y < block (itable + j + 1)) :
      js.foldl (fun dev i => bzero dev (itable + i)) start y = 0 := by
    induction js generalizing start with
    | nil => exact h.resolve_right fun ⟨_, mem, _⟩ => nomatch mem
    | cons j js ih =>
      rw [List.foldl_cons]
      apply ih _
      rw [bzero_apply]
      split
      · exact .inl rfl
      · rename_i out
        refine h.imp_right fun ⟨i, mem, inside⟩ => ?_
        rcases List.mem_cons.mp mem with rfl | mem
        · exact absurd inside out
        · exact ⟨i, mem, inside⟩
  refine clears _ _ (.inr ⟨y / blockBytes - itable, List.mem_range.mpr ?_, ?_⟩) <;>
    simp only [block, itable, itableNum, dataB, blockBytes] at * <;> omega

theorem ext2Init_kept (done : ext2Init dev gid name = .ok (dev', gid')) : TableInBounds dev' := by
  obtain ⟨clear, dev₁, dir, gid₁, dev₂, dir₁, dev₃, dir₂, hclear, created, self, up, rfl⟩ := ext2Init_cases done
  have table : TableInBounds clear := .of_zero fun y above below => by rw [hclear, cleared_table above below]
  have free : freeBits clear dmap = List.range blockBytes :=
    freeBits_clear fun i small => by rw [hclear, cleared (.inr rfl) small]
  obtain ⟨table₁, bounds⟩ := inodeCreate_kept table created
  obtain ⟨t, found, rfl, same, -⟩ := inodeCreate_cases created
  have size : dir.size = 0 := by rw [same]
  have low : t < mapBits := Nat.lt_trans (freeMap_some found).1 (by decide)
  have free₁ : freeBits (setMap clear imap t true) dmap = List.range blockBytes := by
    rw [← free]
    exact freeBits_congr fun i small =>
      readMap_setMap_other (by decide) low (Nat.lt_trans small (by decide))
  have fits : FitsIn (setMap clear imap t true) dir 37 := by
    rw [FitsIn, free₁, List.length_range]
    exact ⟨by decide, Nat.le_trans (Nat.sub_le _ _) (by decide)⟩
  have first : FitsIn (setMap clear imap t true) dir (dir.size + entryBytes + (dot.length + 1)) :=
    fits.mono (by rw [size]; decide)
  obtain ⟨dev₂', dir₁', self', extended, size₁⟩ := createEntry_extended dir.index DR bounds first
  obtain ⟨rfl, rfl⟩ := Prod.mk.inj (Except.ok.inj (self.symm.trans self'))
  rw [size] at size₁
  have second : FitsIn dev₂ dir₁ (dir₁.size + entryBytes + (dotdot.length + 1)) := by
    rw [size₁]
    exact extended.fitsIn fits
  obtain ⟨dev₃', dir₂', up', extended', -⟩ := createEntry_extended dir₁.index DR extended.bounds second
  obtain ⟨rfl, rfl⟩ := Prod.mk.inj (Except.ok.inj (up.symm.trans up'))
  exact (extended'.table (extended.table table₁)).writeInode extended'.bounds

/-! ### Runs -/

/-- A device, the counter of ids, and the inodes in memory, several of which may be copies of one. -/
structure Copies where
  dev : Device
  gid : Nat
  inodes : List Inode

inductive InodeCall where
  | inodeCreate (type per : Nat)
  | load (k : Nat)
  | store (i : Nat)
  | createEntry (i entryInode : Nat) (entryName : List Byte) (type : Nat)
  | dataWrite (i : Nat) (buf : List Byte) (offset : Nat)
  | inodeWrite (i : Nat) (buf : List Byte) (offset : Nat)
  | dirRemove (i index : Nat)
  | inodeRemove (i : Nat)

def Copies.onInode (s : Copies) (i : Nat) (f : Inode → Except Fault (Device × Inode)) : Except Fault Copies :=
  match s.inodes[i]? with
  | none => .ok s
  | some inode => do
    let (dev, inode) ← f inode
    .ok { s with dev, inodes := s.inodes.set i inode }

namespace InodeCall

/-- A load reads a slot of the table, and a store writes an inode to its own. -/
def perform (s : Copies) : InodeCall → Except Fault Copies
  | inodeCreate type per => do
    let (dev, inode, gid) ← Ext2.inodeCreate s.dev s.gid type per
    .ok ⟨dev, gid, s.inodes ++ [inode]⟩
  | load k => .ok { s with inodes := s.inodes ++ [readInode s.dev k] }
  | store i => s.onInode i fun inode => .ok (writeInode s.dev inode.index inode, inode)
  | createEntry i entryInode entryName type => s.onInode i fun inode =>
    Ext2.createEntry s.dev inode entryInode entryName type
  | dataWrite i buf offset => s.onInode i fun inode => Ext2.dataWrite s.dev inode buf offset
  | inodeWrite i buf offset => s.onInode i fun inode => do
    let (dev, file, _) ← Ext2.inodeWrite s.dev ⟨updateInode inode, offset⟩ buf
    .ok (dev, file.inode.fsInode)
  | dirRemove i index => s.onInode i fun inode => Ext2.dirRemove s.dev inode index
  | inodeRemove i => s.onInode i fun inode => do
    let dev ← Ext2.inodeRemove s.dev inode
    .ok (dev, inode)

/-- The inode that a write or an entry is for, and where its file then ends. -/
def stores : InodeCall → Option (Nat × (Inode → Nat))
  | createEntry i _ entryName _ => some (i, fun inode => inode.size + entryBytes + (entryName.length + 1))
  | dataWrite i buf offset | inodeWrite i buf offset => some (i, fun _ => offset + buf.length)
  | inodeCreate .. | load _ | store _ | dirRemove .. | inodeRemove _ => none

def Fits (s : Copies) (call : InodeCall) : Prop :=
  ∀ i stop inode, call.stores = some (i, stop) → s.inodes[i]? = some inode → FitsIn s.dev inode (stop inode)

end InodeCall

/-- Writes and entries that fit, loads of slots of the table, and removals of records that are found. -/
def Fitting (s : Copies) (call : InodeCall) : Prop :=
  call.Fits s ∧ (∀ k, call = .load k → k < 80) ∧
    ∀ i index inode, call = .dirRemove i index → s.inodes[i]? = some inode → ScanStops s.dev inode index

/-- Runs from a fresh file system, of calls that `P` allows. -/
def copies (P : Copies → InodeCall → Prop) : Machine Copies InodeCall where
  Init s := s.inodes = [] ∧ ∃ dev gid name, ext2Init dev gid name = .ok (s.dev, s.gid)
  Step s call t := P s call ∧ call.perform s = .ok t

/-- Every slot that is used is one of the link array, every new link was found free, and what does not fit
is refused. -/
structure LinksSafe (P : Copies → InodeCall → Prop) (s : Copies) : Prop where
  slots : ∀ inode ∈ s.inodes, inode.len ≤ 25 ∧ ∀ offset < inode.size, offset / blockBytes < 25
  access : ∀ call, P s call → call.perform s ≠ .error .bounds
  found : ∀ call, P s call → call.stores ≠ none → call.perform s ≠ .error .noFreeBit
  fresh : ∀ call i stop inode t, P s call → call.stores = some (i, stop) → s.inodes[i]? = some inode →
    call.perform s = .ok t → ∃ inode' bs, t.inodes[i]? = some inode' ∧ inode'.links = inode.links ++ bs ∧ bs.Nodup ∧
      ∀ b ∈ bs, b < blockBytes ∧ readMap s.dev dmap b = false
  refused : ∀ call, P s call → ¬call.Fits s → call.perform s = .ok s

/-- All inodes, in memory and in the table, are in bounds. -/
structure AllInBounds (s : Copies) : Prop where
  inodes : ∀ inode ∈ s.inodes, InBounds inode
  table : TableInBounds s.dev

section

variable {s t : Copies} {call : InodeCall} {i index : Nat} {f : Inode → Except Fault (Device × Inode)}

theorem onInode_some (held : s.inodes[i]? = some inode) (done : f inode = .ok (dev', inode')) :
    s.onInode i f = .ok { s with dev := dev', inodes := s.inodes.set i inode' } := by
  simp only [Copies.onInode, held, done, bind, Except.bind]

theorem onInode_error {e : Fault} (failed : s.onInode i f = .error e) :
    ∃ inode, s.inodes[i]? = some inode ∧ f inode = .error e := by
  unfold Copies.onInode at failed
  cases held : s.inodes[i]? with
  | none =>
    rw [held] at failed
    cases failed
  | some inode =>
    simp only [held] at failed
    rcases bind_error failed with failed | ⟨r, -, failed⟩
    · exact ⟨inode, rfl, failed⟩
    · cases failed

theorem onInode_ok (done : s.onInode i f = .ok t) : t = s ∨ ∃ inode dev' inode', s.inodes[i]? = some inode ∧
    f inode = .ok (dev', inode') ∧ t = { s with dev := dev', inodes := s.inodes.set i inode' } := by
  unfold Copies.onInode at done
  cases held : s.inodes[i]? with
  | none =>
    rw [held] at done
    exact .inl (Except.ok.inj done).symm
  | some inode =>
    simp only [held] at done
    obtain ⟨⟨dev', inode'⟩, result, done⟩ := bind_ok done
    exact .inr ⟨inode, dev', inode', rfl, result, (Except.ok.inj done).symm⟩

theorem AllInBounds.set (h : AllInBounds s) (bounds : InBounds inode') (table : TableInBounds dev') :
    AllInBounds { s with dev := dev', inodes := s.inodes.set i inode' } := by
  refine ⟨fun inode mem => ?_, table⟩
  rcases List.mem_or_eq_of_mem_set mem with old | rfl
  · exact h.inodes inode old
  · exact bounds

theorem stores_missing {stop : Inode → Nat} (stores : call.stores = some (i, stop)) (missing : s.inodes[i]? = none) :
    call.perform s = .ok s := by
  cases call with
  | createEntry | dataWrite | inodeWrite =>
    obtain ⟨rfl, -⟩ := Prod.mk.inj (Option.some.inj stores)
    simp only [InodeCall.perform, Copies.onInode, missing]
  | inodeCreate | load | store | dirRemove | inodeRemove => cases stores

/-- A write or an entry that fits takes the blocks it needs, unless it stops at the assertion of `ext2_inode_write`. -/
theorem stores_done {stop : Inode → Nat} (h : AllInBounds s) (fits : call.Fits s)
    (stores : call.stores = some (i, stop))
    (held : s.inodes[i]? = some inode) : call.perform s = .error .assertion ∨ ∃ dev' inode',
      call.perform s = .ok { s with dev := dev', inodes := s.inodes.set i inode' } ∧
        Extended s.dev dev' inode inode' := by
  have bounds := h.inodes inode (List.mem_of_getElem? held)
  have enough := fits i stop inode stores held
  cases call with
  | createEntry j entryInode entryName type =>
    obtain ⟨rfl, rfl⟩ := Prod.mk.inj (Option.some.inj stores)
    obtain ⟨dev', inode', done, extended, -⟩ := createEntry_extended entryInode type bounds enough
    exact .inr ⟨dev', inode', onInode_some held done, extended⟩
  | dataWrite j buf offset =>
    obtain ⟨rfl, rfl⟩ := Prod.mk.inj (Option.some.inj stores)
    obtain ⟨dev', inode', done, extended, -⟩ := dataWrite_extended bounds enough
    exact .inr ⟨dev', inode', onInode_some held done, extended⟩
  | inodeWrite j buf offset =>
    obtain ⟨rfl, rfl⟩ := Prod.mk.inj (Option.some.inj stores)
    rcases inodeWrite_extended bounds enough with failed | ⟨dev', file, ret, done, extended⟩
    · left
      simp only [InodeCall.perform, Copies.onInode, held, failed, bind, Except.bind]
    · refine .inr ⟨dev', file.inode.fsInode, onInode_some held ?_, extended⟩
      simp only [done, bind, Except.bind]
  | inodeCreate | load | store | dirRemove | inodeRemove => cases stores

namespace AllInBounds

theorem stores {stop : Inode → Nat} (h : AllInBounds s) (fits : call.Fits s) (stores : call.stores = some (i, stop))
    (done : call.perform s = .ok t) : AllInBounds t := by
  cases held : s.inodes[i]? with
  | none =>
    obtain rfl := Except.ok.inj ((stores_missing stores held).symm.trans done)
    exact h
  | some inode =>
    rcases stores_done h fits stores held with failed | ⟨dev', inode', done', extended⟩
    · rw [done] at failed
      cases failed
    · obtain rfl := Except.ok.inj (done'.symm.trans done)
      exact h.set extended.bounds (extended.table h.table)

theorem onInode (h : AllInBounds s) (done : s.onInode i f = .ok t)
    (kept : ∀ inode ∈ s.inodes, ∀ dev' inode', f inode = .ok (dev', inode') → InBounds inode' ∧ TableInBounds dev') :
    AllInBounds t := by
  rcases onInode_ok done with rfl | ⟨inode, dev', inode', held, result, rfl⟩
  · exact h
  · obtain ⟨bounds, table⟩ := kept inode (List.mem_of_getElem? held) dev' inode' result
    exact h.set bounds table

theorem append (h : AllInBounds s) (bounds : InBounds inode) (table : TableInBounds dev') :
    AllInBounds ⟨dev', gid, s.inodes ++ [inode]⟩ := by
  refine ⟨fun other mem => ?_, table⟩
  rcases List.mem_append.mp mem with old | new
  · exact h.inodes other old
  · rw [List.mem_singleton.mp new]
    exact bounds

theorem step (h : AllInBounds s) (fitting : Fitting s call) (done : call.perform s = .ok t) : AllInBounds t := by
  obtain ⟨fits, inTable, -⟩ := fitting
  cases call with
  | inodeCreate type per =>
    obtain ⟨⟨dev', inode, gid⟩, created, done⟩ := bind_ok done
    obtain rfl := Except.ok.inj done
    obtain ⟨table, bounds⟩ := inodeCreate_kept h.table created
    exact h.append bounds table
  | load k =>
    obtain rfl := Except.ok.inj done
    exact h.append (h.table k (inTable k rfl)) h.table
  | store i =>
    apply h.onInode done
    intro inode mem dev' inode' stored
    obtain ⟨rfl, rfl⟩ := Prod.mk.inj (Except.ok.inj stored)
    exact ⟨h.inodes inode mem, h.table.writeInode (h.inodes inode mem)⟩
  | createEntry i entryInode entryName type => exact h.stores fits rfl done
  | dataWrite i buf offset => exact h.stores fits rfl done
  | inodeWrite i buf offset => exact h.stores fits rfl done
  | dirRemove i index =>
    apply h.onInode done
    intro inode mem dev' inode' removed
    obtain ⟨bounds, table⟩ := dirRemove_kept (h.inodes inode mem) removed
    exact ⟨bounds, table h.table⟩
  | inodeRemove i =>
    apply h.onInode done
    intro inode mem dev' inode' removed
    obtain ⟨dev₁, cleared, removed⟩ := bind_ok removed
    obtain ⟨rfl, rfl⟩ := Prod.mk.inj (Except.ok.inj removed)
    exact ⟨h.inodes inode mem, inodeRemove_kept (h.inodes inode mem) h.table cleared⟩

end AllInBounds

theorem inBounds_reachable (h : (copies Fitting).Reachable s) : AllInBounds s := by
  refine h.induct AllInBounds ?_ ?_
  · rintro s ⟨none, dev, gid, name, fresh⟩
    refine ⟨fun inode mem => ?_, ext2Init_kept fresh⟩
    rw [none] at mem
    cases mem
  · rintro s call t bounds ⟨fitting, done⟩
    exact bounds.step fitting done

theorem stores_result {stop : Inode → Nat} (h : AllInBounds s) (fits : call.Fits s)
    (stores : call.stores = some (i, stop)) :
    call.perform s = .error .assertion ∨ ∃ t, call.perform s = .ok t := by
  cases held : s.inodes[i]? with
  | none => exact .inr ⟨s, stores_missing stores held⟩
  | some inode =>
    rcases stores_done h fits stores held with failed | ⟨dev', inode', done, -⟩
    · exact .inl failed
    · exact .inr ⟨_, done⟩

theorem inside_access (h : AllInBounds s) (fitting : Fitting s call) : call.perform s ≠ .error .bounds := by
  obtain ⟨fits, -, stops⟩ := fitting
  have stored {i : Nat} {stop : Inode → Nat} (stores : call.stores = some (i, stop)) : call.perform s ≠
      .error .bounds := by
    intro out
    rcases stores_result h fits stores with failed | ⟨t, done⟩
    · rw [failed] at out
      cases out
    · rw [done] at out
      cases out
  cases call with
  | createEntry | dataWrite | inodeWrite => exact stored rfl
  | load k => exact fun out => nomatch out
  | inodeCreate type per =>
    intro out
    rcases bind_error out with failed | ⟨r, -, out⟩
    · exact inodeCreate_inside failed
    · cases out
  | store i =>
    intro out
    obtain ⟨inode, -, failed⟩ := onInode_error out
    cases failed
  | dirRemove i index =>
    intro out
    obtain ⟨inode, held, failed⟩ := onInode_error out
    exact dirRemove_inside (h.inodes inode (List.mem_of_getElem? held)) (stops i index inode rfl held) failed
  | inodeRemove i =>
    intro out
    obtain ⟨inode, held, failed⟩ := onInode_error out
    rcases bind_error failed with failed | ⟨dev', -, failed⟩
    · exact inodeRemove_inside (h.inodes inode (List.mem_of_getElem? held)) failed
    · cases failed

/-- In every state of such a run no call leaves the link array or finds no free block. -/
theorem reachable_links (h : (copies Fitting).Reachable s) : LinksSafe Fitting s := by
  have bounds := inBounds_reachable h
  constructor
  case slots =>
    intro inode mem
    have held := bounds.inodes inode mem
    refine ⟨held.len, fun offset inside => ?_⟩
    have size := held.size
    simp only [linkSlots, blockBytes] at *
    omega
  case access => exact fun call fitting => inside_access bounds fitting
  case found =>
    intro call fitting some out
    obtain ⟨⟨i, stop⟩, stores⟩ := Option.ne_none_iff_exists'.mp some
    rcases stores_result bounds fitting.1 stores with failed | ⟨t, done⟩
    · rw [failed] at out
      cases out
    · rw [done] at out
      cases out
  case fresh =>
    intro call i stop inode t fitting stores held done
    rcases stores_done bounds fitting.1 stores held with failed | ⟨dev', inode', done', extended⟩
    · rw [done] at failed
      cases failed
    · obtain rfl := Except.ok.inj (done'.symm.trans done)
      obtain ⟨bs, free, links, -⟩ := extended.blocks
      obtain ⟨small, -⟩ := List.getElem?_eq_some_iff.mp held
      have distinct := freeBits_nodup s.dev dmap
      rw [free] at distinct
      refine ⟨inode', bs, List.getElem?_set_self small, links, distinct.of_append_left, fun b mem => mem_freeBits.mp ?_⟩
      rw [free]
      exact List.mem_append_left _ mem
  case refused => exact fun call fitting out => absurd fitting.1 out

theorem created_run : ∃ dev gid s t, ext2Init (fun _ => 0) 0 [] = .ok (dev, gid) ∧
    InodeCall.perform ⟨dev, gid, []⟩ (.inodeCreate NF 7) = .ok s ∧ InodeCall.perform s (.dataWrite 0 [120] 0) = .ok t ∧
    (freeBits s.dev dmap).length = 1023 ∧ s.inodes.map (fun inode => (inode.len, inode.size)) = [(0, 0)] ∧
    t.inodes.map Inode.links = [[1]] := by
  have run : (do
      let (dev, gid) ← ext2Init (fun _ => 0) 0 []
      let s ← InodeCall.perform ⟨dev, gid, []⟩ (.inodeCreate NF 7)
      let t ← InodeCall.perform s (.dataWrite 0 [120] 0)
      .ok (decide
        ((freeBits s.dev dmap).length = 1023 ∧ s.inodes.map (fun inode => (inode.len, inode.size)) = [(0, 0)] ∧
        t.inodes.map Inode.links = [[1]]))) = (.ok true : Except Fault Bool) := by
    decide +kernel
  obtain ⟨⟨dev, gid⟩, fresh, run⟩ := bind_ok run
  obtain ⟨s, created, run⟩ := bind_ok run
  obtain ⟨t, done, run⟩ := bind_ok run
  obtain ⟨free, shape, links⟩ := of_decide_eq_true (Except.ok.inj run)
  exact ⟨dev, gid, s, t, fresh, created, done, free, shape, links⟩

theorem reachable_links_sample : ∃ s : Copies, s.inodes.map Inode.links = [[1]] ∧ LinksSafe Fitting s := by
  obtain ⟨dev, gid, s, t, fresh, created, done, free, shape, links⟩ := created_run
  have start : (copies Fitting).Reachable ⟨dev, gid, []⟩ := .init ⟨rfl, _, _, _, fresh⟩
  have first : (copies Fitting).Reachable s := start.step (l := .inodeCreate NF 7)
    ⟨⟨(fun _ _ _ stores => nomatch stores), (fun _ other => nomatch other), fun _ _ _ other => nomatch other⟩, created⟩
  have second : (copies Fitting).Reachable t := by
    refine first.step (l := .dataWrite 0 [120] 0) ⟨⟨fun i stop inode stores held => ?_, (fun _ other => nomatch other),
      fun _ _ _ other => nomatch other⟩, done⟩
    obtain ⟨rfl, rfl⟩ := Prod.mk.inj (Option.some.inj stores)
    show FitsIn s.dev inode 1
    rw [FitsIn, free]
    exact ⟨by decide, Nat.le_trans (Nat.sub_le _ _) (by decide)⟩
  exact ⟨t, links, reachable_links second⟩

/-- A file of 25 blocks grows past its link array. -/
theorem dataWrite_full (full : linkSlots ≤ inode.len) (past : ¬offset < inode.len * blockBytes)
    (free : freeBits dev dmap ≠ []) (some : buf ≠ []) : dataWrite dev inode buf offset = .error .bounds := by
  obtain ⟨b, rest, found⟩ := List.exists_cons_of_ne_nil free
  obtain ⟨n, length⟩ : ∃ n, buf.length = n + 1 := ⟨buf.length - 1, by have := List.length_pos_of_ne_nil some; omega⟩
  have first : freeMap dev dmap = .some b := by rw [freeMap_eq, found, List.head?_cons]
  have refused : allocate dev inode = .error .bounds := by
    unfold allocate
    simp only [first, if_neg (Nat.not_lt.mpr full)]
  rw [dataWrite, length, writeLoop, if_neg some, if_neg past, refused]
  rfl

/-- The 25 blocks of a file are written, and then one byte more. -/
theorem reachable_links_counterexample : ∃ s : Copies, (copies fun _ _ => True).Reachable s ∧
    ¬LinksSafe (fun _ _ => True) s := by
  obtain ⟨dev, gid, s, -, fresh, created, -, free, shape, -⟩ := created_run
  obtain ⟨⟨dev₁, inode, gid₁⟩, made, same⟩ := bind_ok created
  obtain rfl := (Except.ok.inj same).symm
  obtain ⟨len, size⟩ : inode.len = 0 ∧ inode.size = 0 := by simpa using shape
  have bounds := (inodeCreate_kept (ext2Init_kept fresh) made).2
  -- the write of 25 blocks
  obtain ⟨buf, length⟩ : ∃ buf : List Byte, buf.length = 25600 := ⟨List.replicate 25600 0, List.length_replicate⟩
  have fits : FitsIn dev₁ inode (0 + buf.length) := by
    rw [FitsIn, length, len, free]
    decide
  obtain ⟨inside, room⟩ := fits.room
  obtain ⟨dev₂, inode₂, written, extended, -⟩ := dataWrite_extended bounds fits
  have past : ¬0 < inode.len * blockBytes := by rw [len]; decide
  have full : inode₂.len = linkSlots := by
    have eq := written.symm.trans (dataWrite_eq bounds.len inside room)
    rw [(Prod.mk.inj (Except.ok.inj eq)).2, Request.written_len, length_newBlocks past room, len, length]
    decide
  have left : freeBits dev₂ dmap ≠ [] := by
    obtain ⟨bs, taken, -, count⟩ := extended.blocks
    intro none
    rw [none, List.append_nil] at taken
    rw [taken] at free
    rw [full, len, free] at count
    exact absurd count (by decide)
  have wrote : InodeCall.perform ⟨dev₁, gid₁, [inode]⟩ (.dataWrite 0 buf 0) = .ok ⟨dev₂, gid₁, [inode₂]⟩ := by
    simp only [InodeCall.perform, Copies.onInode, List.getElem?_cons_zero, written, bind, Except.bind]
    rfl
  have start : (copies fun _ _ => True).Reachable ⟨dev, gid, []⟩ := .init ⟨rfl, _, _, _, fresh⟩
  have first : (copies fun _ _ => True).Reachable ⟨dev₁, gid₁, [inode]⟩ :=
    start.step (l := .inodeCreate NF 7) ⟨trivial, created⟩
  have second : (copies fun _ _ => True).Reachable ⟨dev₂, gid₁, [inode₂]⟩ :=
    first.step (l := .dataWrite 0 buf 0) ⟨trivial, wrote⟩
  refine ⟨⟨dev₂, gid₁, [inode₂]⟩, second, fun safe => safe.access (.dataWrite 0 [0] 25600) trivial ?_⟩
  have more : dataWrite dev₂ inode₂ [0] 25600 = .error .bounds :=
    dataWrite_full (Nat.le_of_eq full.symm) (by rw [full]; decide) left (List.cons_ne_nil _ _)
  simp only [InodeCall.perform, Copies.onInode, List.getElem?_cons_zero, more, bind, Except.bind]

end

end OsLabs.Ext2

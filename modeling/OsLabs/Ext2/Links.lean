import OsLabs.Ext2.Isolation
import OsLabs.Ext2.Remove

/-!
# Link counts

Over whole runs of the calls of the VFS, with any number of descriptors: every live
entry names an inode in use, and the link count of a regular file is the number of
its entries, as long as no descriptor writes back an inode that is out of date.
-/

namespace OsLabs.Ext2
open Util Function

variable {dev dev' : Device} {parent : Nat → Nat} {entries : Nat → List Record} {k n offset : Nat} {inode : Inode}
  {file file' : File} {buf name : List Byte} {B : Set Nat}

/-! ### Writing -/

/-- Inode `k` is stored again, and the blocks `B` are written; what other inodes have is left alone. -/
structure Rewritten (dev dev' : Device) (k : Nat) (B : Set Nat) : Prop where
  used : ∀ j, Used dev' j ↔ Used dev j
  outside : Outside dev dev' {k} B
  others : ∀ j, Used dev j → j ≠ k → ∀ b ∈ (readInode dev j).links, b ∉ B
  normal : Used dev k → (readInode dev k).type = NF ∧ (readInode dev' k).type = NF
  node : Used dev k → Node dev' k
  linkNum : Used dev k → (readInode dev' k).linkNum = (readInode dev k).linkNum
  apart : Used dev k → ∀ j, Used dev j → j ≠ k → ∀ b ∈ (readInode dev j).links, b ∉ (readInode dev' k).links

namespace Rewritten

variable (T : Tree dev parent entries) (h : Rewritten dev dev' k B)
include T h

theorem same {j : Nat} (used : Used dev j) (other : j ≠ k) :
    readInode dev' j = readInode dev j ∧ ∀ b ∈ (readInode dev j).links, b ∉ B :=
  ⟨h.outside.slots j (T.node j used).low (Set.mem_singleton_iff.not.mpr other), h.others j used other⟩

theorem kept {j : Nat} (used : Used dev j) :
    (readInode dev' j).type = (readInode dev j).type ∧ (readInode dev' j).linkNum = (readInode dev j).linkNum := by
  by_cases here : j = k
  · subst here
    exact ⟨(h.normal used).2.trans (h.normal used).1.symm, h.linkNum used⟩
  · rw [(h.same T used here).1]
    exact ⟨rfl, rfl⟩

theorem isFolder {j : Nat} : IsFolder dev' j ↔ IsFolder dev j := by
  rw [IsFolder, IsFolder, h.used j]
  apply and_congr_right
  intro used
  rw [(h.kept T used).1]

theorem tree : Tree dev' parent entries where
  root := ⟨(h.isFolder T).mpr T.root.1, T.root.2⟩
  node j used := by
    rw [h.used] at used
    by_cases here : j = k
    · subst here
      exact h.node used
    · obtain ⟨same, apart⟩ := h.same T used here
      exact (T.node j used).congr same h.outside apart
  apart j i usedJ usedI ne b mem own := by
    rw [h.used] at usedJ usedI
    by_cases first : j = k
    · subst first
      rw [(h.same T usedI ne.symm).1] at own
      exact h.apart usedJ i usedI ne.symm b own mem
    rw [(h.same T usedJ first).1] at mem
    by_cases second : i = k
    · subst second
      exact h.apart usedI j usedJ first b mem own
    · rw [(h.same T usedI second).1] at own
      exact T.apart j i usedJ usedI ne b mem own
  folder j folder := by
    rw [h.isFolder T] at folder ⊢
    obtain ⟨records, up, one⟩ := T.folder j folder
    have other : j ≠ k := by
      rintro rfl
      have directory := folder.2
      rw [(h.normal folder.1).1] at directory
      exact absurd directory (by decide)
    obtain ⟨same, apart⟩ := h.same T folder.1 other
    refine ⟨records.congr same h.outside apart, up, fun top => ?_⟩
    rw [same]
    exact one top
  closed j none := T.closed j fun folder => none ((h.isFolder T).mpr folder)
  named d r mem live := (h.used _).mpr (T.named d r mem live)
  count j used top := by
    rw [h.used] at used
    rw [(h.kept T used).2]
    exact T.count j used top
  home d r mem live directory := by
    rw [(h.kept T (T.named d r mem live)).1] at directory
    exact T.home d r mem live directory

end Rewritten

theorem appendWrites_data {bs : List Nat} {cs : List (List Byte)} :
    ∀ w ∈ appendWrites offset inode bs cs, ∃ b r, w.1 = data b + r := by
  induction bs generalizing inode cs with
  | nil => simp [appendWrites]
  | cons b bs ih =>
    cases cs with
    | nil => simp [appendWrites]
    | cons c cs => exact List.forall_mem_cons.mpr ⟨⟨_, _, rfl⟩, ih⟩

theorem chunkWrites_data : ∀ w ∈ chunkWrites dev inode buf offset, ∃ b r, w.1 = data b + r := by
  intro w mem
  unfold chunkWrites at mem
  split at mem
  · obtain ⟨c, -, rfl⟩ := List.mem_map.mp mem
    exact ⟨_, _, rfl⟩
  · exact appendWrites_data w mem

theorem slot_kept (low : k < 80) (other : inode.size < offset + buf.length → k ≠ inode.index) :
    readInode ((marks dev (newBlocks dev inode offset buf.length)).writes (stored dev inode buf offset)) k =
      readInode dev k := by
  apply readInode_congr
  intro x lo hi
  rw [Mem.writes_outside, marks_outside newBlocks_lt (Nat.le_trans (block_lt_table k) lo)]
  intro w mem covers
  have start : w.1 ≤ x := covers.1
  rcases List.mem_append.mp mem with chunk | table
  · obtain ⟨b, r, behind⟩ := chunkWrites_data w chunk
    have := table_lt_data low b
    omega
  · unfold tableWrites at table
    split at table
    · rename_i grows
      rw [Inode.pushAll_size] at grows
      have ne := other grows
      obtain rfl := List.mem_singleton.mp table
      rw [Inode.pushAll_index] at start covers
      have stop : x < Ext2.table inode.index + inodeBytes := by
        have last := covers.2
        rwa [length_encode] at last
      simp only [Ext2.table, inodeBytes] at *
      omega
    · cases table

theorem write_outside (bounded : Bounded inode offset buf.length) (contained : Contained dev inode offset buf.length) :
    Outside dev ((marks dev (newBlocks dev inode offset buf.length)).writes (stored dev inode buf offset)) {inode.index}
      {b | b ∈ (written dev inode offset buf.length).links} where
  inodes i small _ := by
    rw [(SameMaps.of_writes stored_addr).readMap (by decide) small, readMap_marks_imap newBlocks_lt small]
  blocks b small out := by
    rw [(SameMaps.of_writes stored_addr).readMap (by decide) small, readMap_marks]
    have old : b ∉ newBlocks dev inode offset buf.length := by
      intro new
      apply out
      show b ∈ (written dev inode offset buf.length).links
      rw [written_links_eq bounded]
      exact List.mem_append_right _ new
    rw [decide_eq_false old, Bool.false_or]
  slots j low other := slot_kept low fun _ => Set.mem_singleton_iff.not.mp other
  bytes := (keeps_of_contained bounded (fun _ _ => rfl) contained).frame

theorem write_inodes {i : Nat} (small : i < mapBits) :
    readMap ((marks dev (newBlocks dev inode offset buf.length)).writes (stored dev inode buf offset)) imap i =
      readMap dev imap i := by
  rw [(SameMaps.of_writes stored_addr).readMap (by decide) small, readMap_marks_imap newBlocks_lt small]

theorem slot_stored (grows : inode.size < offset + buf.length) (fits : (written dev inode offset buf.length).Fits) :
    readInode ((marks dev (newBlocks dev inode offset buf.length)).writes (stored dev inode buf offset)) inode.index =
      written dev inode offset buf.length := by
  rw [stored, tableWrites, Inode.pushAll_size, if_pos grows, Inode.pushAll_index, Mem.writes_append]
  exact readInode_writeInode fits

theorem newBlocks_nodup : (newBlocks dev inode offset n).Nodup := by
  unfold newBlocks
  split
  · exact List.nodup_nil
  · exact (freeBits_nodup dev dmap).sublist (List.take_sublist _ _)

/-- What a write through a copy of an inode needs: it keeps to the blocks of the copy, which are of no other
inode in use, and a copy that is stored has the link count that is stored already. -/
structure Writable (dev : Device) (inode : Inode) (offset n : Nat) : Prop where
  bounded : Bounded inode offset n
  contained : Contained dev inode offset n
  apart : ∀ j, Used dev j → j ≠ inode.index → ∀ b ∈ (readInode dev j).links, b ∉ inode.links
  normal : Used dev inode.index → (readInode dev inode.index).type = NF
  linkNum : Used dev inode.index → inode.size < offset + n → inode.linkNum = (readInode dev inode.index).linkNum
  links : Used dev inode.index → inode.size < offset + n → inode.links.Nodup ∧ Marked dev inode

theorem Writable.written_fits (h : Writable dev inode offset n) (fits : inode.Fits) :
    (written dev inode offset n).Fits := by
  have size := fits.size
  have bound := h.bounded.fits
  have slots := @slots_suffice dev _ _ _ h.bounded.len h.bounded.fits
  refine Ext2.written_fits fits ?_ ?_
  · rw [written_size]
    simp only [linkSlots, blockBytes] at bound
    omega
  · rw [written, Inode.grow_len, Inode.pushAll_len]
    simp only [linkSlots] at slots
    omega

/-- The inode that a write stores is one of the files, with the new blocks among its own. -/
theorem written_node (bounded : Bounded inode offset buf.length) (normal : inode.type = NF)
    (distinct : inode.links.Nodup)
    (marked : Marked dev inode) (low : inode.index < 80)
    (read : readInode
      ((marks dev (newBlocks dev inode offset buf.length)).writes (stored dev inode buf offset)) inode.index =
      written dev inode offset buf.length) :
    Node ((marks dev (newBlocks dev inode offset buf.length)).writes (stored dev inode buf offset)) inode.index := by
  have links := @written_links_eq dev _ _ _ bounded
  refine ⟨low, ?_, ?_, ?_, ?_, ?_⟩ <;> rw [read]
  · rw [written, Inode.grow_index, Inode.pushAll_index]
  · rw [written, Inode.grow_type, Inode.pushAll_type]
    exact .inl normal
  · rw [written, Inode.grow_len, Inode.pushAll_len]
    exact slots_suffice bounded.len bounded.fits
  · rw [links, blocksAfter, List.nodup_append]
    refine ⟨distinct, newBlocks_nodup, ?_⟩
    rintro b old _ new rfl
    exact not_mem_newBlocks (marked b old).2 new
  · exact written_marked marked links

theorem Writable.rewritten (T : Tree dev parent entries) (h : Writable dev inode offset buf.length) (fits : inode.Fits)
    (normal : inode.type = NF) :
    Rewritten dev ((marks dev (newBlocks dev inode offset buf.length)).writes (stored dev inode buf offset)) inode.index
      {b | b ∈ (written dev inode offset buf.length).links} := by
  have links := @written_links_eq dev _ _ _ h.bounded
  have away (j : Nat) (used : Used dev j) (other : j ≠ inode.index) :
      ∀ b ∈ (readInode dev j).links, b ∉ (written dev inode offset buf.length).links := by
    intro b mem own
    rw [links] at own
    rcases List.mem_append.mp own with old | new
    · exact h.apart j used other b mem old
    · exact not_mem_newBlocks ((T.node j used).marked b mem).2 new
  have grown (grows : inode.size < offset + buf.length) := slot_stored grows (h.written_fits fits)
  have same (used : Used dev inode.index) (stays : ¬inode.size < offset + buf.length) :=
    @slot_kept dev inode.index offset inode buf (T.node _ used).low fun grows => absurd grows stays
  constructor
  case used => exact fun j => and_congr_right fun small => by rw [write_inodes small]
  case outside => exact write_outside h.bounded h.contained
  case others => exact away
  case normal =>
    intro used
    refine ⟨h.normal used, ?_⟩
    by_cases grows : inode.size < offset + buf.length
    · rw [grown grows, written, Inode.grow_type, Inode.pushAll_type]
      exact normal
    · rw [same used grows]
      exact h.normal used
  case node =>
    intro used
    have node := T.node _ used
    by_cases grows : inode.size < offset + buf.length
    · obtain ⟨distinct, marked⟩ := h.links used grows
      exact written_node h.bounded normal distinct marked node.low (grown grows)
    · refine ⟨node.low, ?_, ?_, ?_, ?_, ?_⟩ <;> rw [same used grows]
      · exact node.index
      · exact node.kind
      · exact node.len
      · exact node.distinct
      · exact write_marked node.marked
  case linkNum =>
    intro used
    by_cases grows : inode.size < offset + buf.length
    · rw [grown grows, ← h.linkNum used grows, written_same]
    · rw [same used grows]
  case apart =>
    intro used j usedJ other
    by_cases grows : inode.size < offset + buf.length
    · rw [grown grows]
      exact away j usedJ other
    · rw [same used grows]
      exact T.apart j _ usedJ used other

/-- What is no regular file is not written. -/
theorem inodeWrite_cases {ret : Nat}
    (writable : file.inode.fsInode.type = NF → Writable dev file.inode.fsInode file.offset buf.length)
    (done : inodeWrite dev file buf = .ok (dev', file', ret)) :
    file.inode.fsInode.type = NF ∧
        dev' = (marks dev (newBlocks dev file.inode.fsInode file.offset buf.length)).writes
          (stored dev file.inode.fsInode buf file.offset) ∧
        file'.inode.fsInode = written dev file.inode.fsInode file.offset buf.length ∨
      dev' = dev ∧ file' = file := by
  by_cases normal : file.inode.fsInode.type = NF
  · have h := writable normal
    have same := @inodeWrite_eq dev buf file normal (offset_int h.bounded.fits)
    rw [done, dataWrite_eq h.bounded.len h.bounded.fits h.contained.room] at same
    obtain ⟨device, copy⟩ := Prod.mk.inj (Except.ok.inj same)
    exact .inl ⟨normal, device, copy⟩
  · unfold inodeWrite at done
    simp only [if_neg normal] at done
    split at done
    · cases done
    · obtain ⟨rfl, same⟩ := Prod.mk.inj (Except.ok.inj done)
      obtain ⟨rfl, -⟩ := Prod.mk.inj same
      exact .inr ⟨rfl, rfl⟩

/-- A call of `vfs_write`. -/
theorem inodeWrite_tree {ret : Nat} (T : Tree dev parent entries) (fits : file.inode.fsInode.Fits)
    (writable : file.inode.fsInode.type = NF → Writable dev file.inode.fsInode file.offset buf.length)
    (done : inodeWrite dev file buf = .ok (dev', file', ret)) :
    Tree dev' parent entries ∧ file'.inode.fsInode.Fits := by
  rcases inodeWrite_cases writable done with ⟨normal, rfl, copy⟩ | ⟨rfl, rfl⟩
  · have h := writable normal
    rw [copy]
    exact ⟨(h.rewritten T fits normal).tree T, h.written_fits fits⟩
  · exact ⟨T, fits⟩

/-! ### A fresh file system -/

theorem readMap_bzero {blk i : Nat} (small : i < mapBits) : readMap (bzero dev blk) blk i = false := by
  obtain ⟨lo, hi⟩ := @map_in_block blk i small
  obtain ⟨j, hj⟩ := Nat.exists_eq_add_of_le lo
  have inside : j < (List.replicate blockBytes (0 : Byte)).length := by
    rw [List.length_replicate]
    omega
  have zero : bzero dev blk (map blk i) = 0 := by
    rw [bzero, hj, Mem.write_at j inside, List.getElem_replicate]
  rw [readMap, zero]
  simp

theorem readMap_bzero_other {blk x i : Nat} (other : x ≠ blk) (small : i < mapBits) :
    readMap (bzero dev x) blk i = readMap dev blk i := by
  obtain ⟨lo, hi⟩ := @map_in_block blk i small
  refine readMap_congr (Mem.write_outside ?_)
  rw [List.length_replicate]
  simp only [block, blockBytes] at *
  omega

theorem cleared {blk i : Nat} (map : blk = imap ∨ blk = dmap) (small : i < mapBits) :
    readMap ((List.range itableNum).foldl (fun dev i => bzero dev (itable + i)) (bzero (bzero dev imap) dmap)) blk i =
      false := by
  have tables (js : List Nat) (start : Device) :
      readMap (js.foldl (fun dev i => bzero dev (itable + i)) start) blk i = readMap start blk i := by
    induction js generalizing start with
    | nil => rfl
    | cons j js ih =>
      rw [List.foldl_cons, ih, readMap_bzero_other ?_ small]
      rcases map with rfl | rfl <;> simp only [itable, imap, dmap] <;> omega
  rw [tables]
  rcases map with rfl | rfl
  · rw [readMap_bzero_other (by decide) small, readMap_bzero small]
  · exact readMap_bzero small

/-- A file system with nothing but the root. -/
theorem Tree.ofRoot (used : ∀ j, Used dev j ↔ j = 0) (node : Node dev 0) (kind : (readInode dev 0).type = DR)
    (records : Folder dev 0 0 []) : Tree dev (fun _ => 0) (fun _ => []) where
  root := ⟨⟨(used 0).mpr rfl, kind⟩, rfl⟩
  node j usedJ := by
    obtain rfl := (used j).mp usedJ
    exact node
  apart j i usedJ usedI ne := absurd (((used j).mp usedJ).trans ((used i).mp usedI).symm) ne
  folder j folder := by
    obtain rfl := (used j).mp folder.1
    exact ⟨records, folder, fun top => absurd rfl top⟩
  closed _ _ := rfl
  named _ _ none := nomatch none
  count j usedJ top := absurd ((used j).mp usedJ) top
  home _ _ none := nomatch none

/-- The maps and the table are cleared, and the root is given its two entries. -/
theorem ext2Init_cases {gid gid' : Nat} (done : ext2Init dev gid name = .ok (dev', gid')) :
    ∃ clear dev₁ dir gid₁ dev₂ dir₁ dev₃ dir₂,
      clear = (List.range itableNum).foldl (fun dev i => bzero dev (itable + i)) (bzero (bzero dev imap) dmap) ∧
      inodeCreate clear gid DR anyAccess = .ok (dev₁, dir, gid₁) ∧
      createEntry dev₁ dir dir.index dot DR = .ok (dev₂, dir₁) ∧
      createEntry dev₂ dir₁ dir₁.index dotdot DR = .ok (dev₃, dir₂) ∧
      dev' = writeInode dev₃ dir₂.index dir₂ := by
  unfold ext2Init at done
  obtain ⟨⟨dev₅, gid₅, ret⟩, made, done⟩ := bind_ok done
  obtain ⟨rfl, -⟩ := Prod.mk.inj (Except.ok.inj done)
  obtain ⟨⟨dev₁, dir, gid₁⟩, created, made⟩ := bind_ok made
  obtain ⟨⟨dev₂, dir₁⟩, self, made⟩ := bind_ok made
  obtain ⟨⟨dev₃, dir₂⟩, up, made⟩ := bind_ok made
  obtain ⟨rfl, -⟩ := Prod.mk.inj (Except.ok.inj made)
  exact ⟨_, dev₁, dir, gid₁, dev₂, dir₁, dev₃, dir₂, rfl, created, self, up, rfl⟩

theorem ext2Init_root {gid gid' : Nat} (done : ext2Init dev gid name = .ok (dev', gid')) :
    (∀ j, Used dev' j ↔ j = 0) ∧ Node dev' 0 ∧ (readInode dev' 0).type = DR ∧ Folder dev' 0 0 [] := by
  obtain ⟨clear, dev₁, dir, gid₁, dev₂, dir₁, dev₃, dir₂, hclear, created, self, up, rfl⟩ := ext2Init_cases done
  have imap_clear : ∀ i < mapBits, readMap clear imap i = false :=
    fun i small => by rw [hclear, cleared (.inl rfl) small]
  have first (t : Nat) (found : freeMap clear imap = some t) : t = 0 := by
    rw [freeMap_eq, freeBits_clear imap_clear, List.head?_range, if_neg (by decide)] at found
    exact (Option.some.inj found).symm
  have unused (j : Nat) : ¬Used clear j := by
    intro used
    have marked := used.2
    rw [imap_clear j used.1] at marked
    cases marked
  obtain ⟨candidate, -, sized, kind, size, dirLen, one⟩ :=
    inodeCreate_candidate (.inr rfl) (fun t found => by rw [first t found]; decide) created
  have index : dir.index = 0 := by
    obtain ⟨t, found, -, rfl, -⟩ := inodeCreate_cases created
    exact first t found
  obtain ⟨ready, stored, records, index₂, kind₂, one₂⟩ :=
    newFolder candidate (fun j used => absurd used (unused j)) sized size dirLen (by decide) self
      (fun same => same.trans index) up
  rw [index] at stored records
  rw [index₂, index]
  have used (j : Nat) : Used (writeInode dev₃ 0 dir₂) j ↔ j = 0 := by
    rw [used_writeInode, ready.used, index₂, index]
    exact ⟨fun old => old.resolve_left (unused j), .inr⟩
  have frame : Outside dev₃ (writeInode dev₃ 0 dir₂) {0} ∅ := Outside.of_writeInode (by decide)
  have read : readInode (writeInode dev₃ 0 dir₂) 0 = dir₂ := readInode_writeInode ready.fits
  have nothing (links : List Nat) : ∀ b ∈ links, b ∉ (∅ : Set Nat) := fun b _ => Set.notMem_empty b
  have zero : dir₂.index = 0 := index₂.trans index
  have node : Node (writeInode dev₃ 0 dir₂) dir₂.index := by
    apply ready.node frame (nothing _)
    rw [zero]
    exact read
  rw [zero] at node
  refine ⟨used, node, ?_, records.congr (read.trans stored.symm) frame (nothing _)⟩
  rw [read]
  exact kind₂.trans kind

theorem ext2Init_tree {gid gid' : Nat} (done : ext2Init dev gid name = .ok (dev', gid')) :
    Tree dev' (fun _ => 0) (fun _ => []) := by
  obtain ⟨used, node, kind, records⟩ := ext2Init_root done
  exact Tree.ofRoot used node kind records

/-! ### Link counts -/

/-- The headers of a directory, as a lookup goes through them. -/
def scanLoop (dev : Device) (inode : Inode) : Nat → Nat → Except Fault (List Entry)
  | 0, _ => .error .diverges
  | fuel + 1, offset =>
    if offset < inode.size then do
      let e := Entry.decode (← dataRead dev inode entryBytes offset)
      let rest ← scanLoop dev inode fuel ((offset + e.recLen) % 2 ^ 32)
      .ok (e :: rest)
    else .ok []

theorem Listed.scanLoop {records before rest : List Record} {fuel : Nat} (h : Listed dev inode records)
    (split : records = before ++ rest) (enough : rest.length < fuel) :
    scanLoop dev inode fuel (before.flatMap Record.bytes).length = .ok (rest.map Record.entry) := by
  induction fuel generalizing before rest with
  | zero => omega
  | succ fuel ih =>
    cases rest with
    | nil =>
      have done : ¬(before.flatMap Record.bytes).length < inode.size := by
        rw [h.size_eq, split, List.append_nil]
        omega
      rw [Ext2.scanLoop, if_neg done]
      rfl
    | cons r rest =>
      have inside := h.inside split
      rw [List.length_cons] at enough
      have later : Ext2.scanLoop dev inode fuel ((before ++ [r]).flatMap Record.bytes).length =
          .ok (rest.map Record.entry) :=
        ih (by rw [split]; simp) (by omega)
      rw [Ext2.scanLoop, if_pos (by omega)]
      simp only [h.read_entry split, h.decode split, bind, Except.bind]
      rw [h.next split, later]
      rfl

inductive VfsCall where
  | vfsOpen (fd : Nat) (name : List Byte) (creat : Bool)
  | vfsClose (fd : Nat)
  | vfsWrite (fd : Nat) (buf : List Byte)
  | vfsLink (fd : Nat) (oldpath newpath : List Byte)
  | vfsUnlink (name : List Byte)
  | vfsMkdir (name : List Byte)
  | vfsRmdir (name : List Byte)

def Fs.call (s : Fs) : VfsCall → Except Fault (Fs × Int)
  | .vfsOpen fd name creat => Ext2.vfsOpen s fd name creat
  | .vfsClose fd => .ok (Ext2.vfsClose s fd)
  | .vfsWrite fd buf => Ext2.vfsWrite s fd buf
  | .vfsLink fd oldpath newpath => Ext2.vfsLink s fd oldpath newpath
  | .vfsUnlink name => Ext2.vfsUnlink s name
  | .vfsMkdir name => Ext2.vfsMkdir s name
  | .vfsRmdir name => Ext2.vfsRmdir s name

/-- Paths are C strings, and a new descriptor is one that is not open. -/
def VfsCall.Valid (s : Fs) : VfsCall → Prop
  | .vfsOpen fd name _ => s.files fd = none ∧ 0 ∉ name
  | .vfsLink fd oldpath newpath => s.files fd = none ∧ 0 ∉ oldpath ∧ 0 ∉ newpath
  | .vfsUnlink name | .vfsMkdir name | .vfsRmdir name => 0 ∉ name
  | .vfsClose _ | .vfsWrite _ _ => True

/-- A new file: its entry is added to a directory, in one block, and its inode has a slot in front of the data. -/
structure Creatable (dev : Device) (name : List Byte) : Prop where
  folder : FoundFolder dev name
  room : EntryRoom dev name
  slot : ∀ t, freeMap dev imap = some t → t < 80

/-- What is linked is a regular file in use. -/
structure Linkable (dev : Device) (oldpath newpath : List Byte) : Prop where
  file : ∀ inode, inodeLookup dev (some oldpath) = .ok (some inode) →
    ∃ k, Used dev k ∧ inode = readInode dev k ∧ inode.type = NF
  folder : FoundFolder dev newpath
  room : EntryRoom dev newpath

/-- The calls that keep to the tree and write back no inode that is out of date. -/
def Sane (s : Fs) : VfsCall → Prop
  | .vfsOpen _ name creat => creat = true → lookup s.dev name = .ok none → Creatable s.dev name
  | .vfsClose _ => True
  | .vfsWrite fd buf => ∀ file, s.files fd = some file → file.inode.fsInode.type = NF →
      Writable s.dev file.inode.fsInode file.offset buf.length
  | .vfsLink _ oldpath newpath => Linkable s.dev oldpath newpath
  | .vfsUnlink name => Removable s.dev name
  | .vfsMkdir name => Creatable s.dev name
  | .vfsRmdir name => 1 < name.length → Removable s.dev name

structure Standing (s : Fs) : Prop where
  tree : ∃ parent entries, Tree s.dev parent entries
  files : ∀ fd file, s.files fd = some file → file.inode.fsInode.Fits

variable {s t : Fs} {fd : Nat} {ret : Int} {creat : Bool} {oldpath newpath : List Byte}

theorem pathLoop_read {fuel i : Nat} {tmp : Option (List Byte)}
    (done : pathLoop dev fuel (readInode dev i) tmp = .ok (some inode)) :
    ∃ k, inode = readInode dev k := by
  induction fuel generalizing i tmp with
  | zero => cases done
  | succ fuel ih =>
    rw [pathLoop] at done
    split at done
    · exact ⟨i, (Option.some.inj (Except.ok.inj done)).symm⟩
    · obtain ⟨index, -, done⟩ := bind_ok done
      split at done
      · exact ih done
      · cases done

theorem lookup_read {cur : VfsInode} (done : lookup dev name = .ok (some cur)) :
    ∃ inode, inodeLookup dev (some name) = .ok (some inode) ∧ cur = updateInode inode ∧ inode.Fits := by
  obtain ⟨found, looked, done⟩ := bind_ok done
  cases found with
  | none => cases done
  | some inode =>
    obtain rfl := Option.some.inj (Except.ok.inj done)
    obtain ⟨k, rfl⟩ := pathLoop_read looked
    exact ⟨_, looked, rfl, readInode_fits⟩

theorem inodeLink_copy {file file' : File} (done : inodeLink dev file name = .ok (dev', file', ret)) :
    file'.inode.fsInode = file.inode.fsInode.setLinkNum ((file.inode.fsInode.linkNum + 1) % 2 ^ 32) := by
  obtain ⟨found, -, done⟩ := bind_ok done
  split at done
  · obtain ⟨⟨dev₁, father⟩, -, done⟩ := bind_ok done
    obtain ⟨-, same⟩ := Prod.mk.inj (Except.ok.inj done)
    obtain ⟨rfl, -⟩ := Prod.mk.inj same
    rfl
  · cases done

namespace Standing

theorem setFile {new : Option File} (h : Standing s) (fits : ∀ file, new = some file → file.inode.fsInode.Fits) :
    Standing (s.setFile fd new) where
  tree := h.tree
  files i file held := by
    change update s.files fd new i = some file at held
    by_cases here : i = fd
    · subst here
      rw [update_self] at held
      exact fits file held
    · rw [update_of_ne here] at held
      exact h.files i file held

theorem setDev (h : Standing s) (gid : Nat) (tree : ∃ parent entries, Tree dev parent entries) :
    Standing { s with dev := dev, gid := gid } := ⟨tree, h.files⟩

theorem opened (h : Standing s) {cur : VfsInode} (found : lookup s.dev name = .ok (some cur)) :
    Standing (s.setFile fd (some ⟨cur, 0⟩)) := by
  obtain ⟨inode, -, rfl, fits⟩ := lookup_read found
  apply h.setFile
  intro file same
  rw [← Option.some.inj same]
  exact fits

theorem vfsOpen (h : Standing s) (plain : 0 ∉ name)
    (sane : creat = true → lookup s.dev name = .ok none → Creatable s.dev name)
    (done : vfsOpen s fd name creat = .ok (t, ret)) : Standing t := by
  obtain ⟨found, looked, done⟩ := bind_ok done
  cases found with
  | some cur =>
    obtain ⟨rfl, -⟩ := Prod.mk.inj (Except.ok.inj done)
    exact h.opened looked
  | none =>
    cases creat with
    | false =>
      obtain ⟨rfl, -⟩ := Prod.mk.inj (Except.ok.inj done)
      exact h
    | true =>
      obtain ⟨folder, room, slot⟩ := sane rfl looked
      obtain ⟨parent, entries, T⟩ := h.tree
      obtain ⟨⟨dev, gid, made⟩, created, done⟩ := bind_ok done
      obtain ⟨parent', entries', T', -⟩ := createFile_tree T (.inl rfl) plain folder room slot created
      have grown := h.setDev gid ⟨parent', entries', T'⟩
      by_cases ok : made = 0
      · simp only [if_pos ok] at done
        obtain ⟨again, looked', done⟩ := bind_ok done
        cases again with
        | some cur =>
          obtain ⟨rfl, -⟩ := Prod.mk.inj (Except.ok.inj done)
          exact grown.opened looked'
        | none =>
          obtain ⟨rfl, -⟩ := Prod.mk.inj (Except.ok.inj done)
          exact grown
      · simp only [if_neg ok] at done
        obtain ⟨rfl, -⟩ := Prod.mk.inj (Except.ok.inj done)
        exact grown

theorem vfsClose (h : Standing s) (done : Ext2.vfsClose s fd = (t, ret)) : Standing t := by
  unfold Ext2.vfsClose at done
  split at done
  · obtain ⟨rfl, -⟩ := Prod.mk.inj done
    exact h.setFile fun _ none => nomatch none
  · obtain ⟨rfl, -⟩ := Prod.mk.inj done
    exact h

theorem vfsWrite (h : Standing s) (sane : ∀ file, s.files fd = some file → file.inode.fsInode.type = NF →
      Writable s.dev file.inode.fsInode file.offset buf.length)
    (done : vfsWrite s fd buf = .ok (t, ret)) : Standing t := by
  unfold Ext2.vfsWrite at done
  cases held : s.files fd with
  | none =>
    simp only [held] at done
    obtain ⟨rfl, -⟩ := Prod.mk.inj (Except.ok.inj done)
    exact h
  | some file =>
    simp only [held] at done
    obtain ⟨⟨dev, file', size⟩, written, done⟩ := bind_ok done
    obtain ⟨rfl, -⟩ := Prod.mk.inj (Except.ok.inj done)
    obtain ⟨parent, entries, T⟩ := h.tree
    obtain ⟨T', fits⟩ := inodeWrite_tree T (h.files fd file held) (sane file held) written
    exact (h.setDev s.gid ⟨parent, entries, T'⟩).setFile fun new same => by rw [← Option.some.inj same]; exact fits

theorem vfsMkdir (h : Standing s) (plain : 0 ∉ name) (sane : Creatable s.dev name)
    (done : vfsMkdir s name = .ok (t, ret)) : Standing t := by
  obtain ⟨⟨dev, gid, made⟩, created, done⟩ := bind_ok done
  obtain ⟨rfl, -⟩ := Prod.mk.inj (Except.ok.inj done)
  obtain ⟨parent, entries, T⟩ := h.tree
  obtain ⟨parent', entries', T', -⟩ := createFile_tree T (.inr rfl) plain sane.folder sane.room sane.slot created
  exact h.setDev gid ⟨parent', entries', T'⟩

theorem vfsUnlink (h : Standing s) (plain : 0 ∉ name) (sane : Removable s.dev name)
    (done : vfsUnlink s name = .ok (t, ret)) : Standing t := by
  obtain ⟨⟨dev, made⟩, removed, done⟩ := bind_ok done
  obtain ⟨rfl, -⟩ := Prod.mk.inj (Except.ok.inj done)
  obtain ⟨parent, entries, T⟩ := h.tree
  obtain ⟨entries', T', -⟩ := rm_tree T plain sane removed
  exact h.setDev s.gid ⟨parent, entries', T'⟩

theorem vfsRmdir (h : Standing s) (plain : 0 ∉ name) (sane : 1 < name.length → Removable s.dev name)
    (done : vfsRmdir s name = .ok (t, ret)) : Standing t := by
  unfold Ext2.vfsRmdir at done
  split at done
  · obtain ⟨rfl, -⟩ := Prod.mk.inj (Except.ok.inj done)
    exact h
  · rename_i long
    exact h.vfsUnlink plain (sane (Nat.not_le.mp long)) done

theorem inodeLink_fits {file file' : File} (fits : file.inode.fsInode.Fits)
    (done : inodeLink dev file name = .ok (dev', file', ret)) : file'.inode.fsInode.Fits := by
  rw [inodeLink_copy done]
  exact fits.setLinkNum (Nat.mod_lt _ (by decide))

theorem vfsLink (h : Standing s) (plain : 0 ∉ newpath) (sane : Linkable s.dev oldpath newpath)
    (done : vfsLink s fd oldpath newpath = .ok (t, ret)) : Standing t := by
  obtain ⟨⟨s₁, fd'⟩, opened, done⟩ := bind_ok done
  obtain ⟨found, looked, opened⟩ := bind_ok opened
  cases found with
  | none =>
    obtain ⟨-, rfl⟩ := Prod.mk.inj (Except.ok.inj opened)
    cases done
  | some cur =>
    obtain ⟨rfl, rfl⟩ := Prod.mk.inj (Except.ok.inj opened)
    have held : (s.setFile fd (some ⟨cur, 0⟩)).files fd = some ⟨cur, 0⟩ := update_self ..
    simp only [if_neg (Int.not_lt.mpr (Int.natCast_nonneg fd)), held] at done
    obtain ⟨⟨dev, file', made⟩, linked, done⟩ := bind_ok done
    obtain ⟨rfl, -⟩ := Prod.mk.inj (Except.ok.inj done)
    obtain ⟨inode, found, rfl, fits⟩ := lookup_read looked
    obtain ⟨k, used, rfl, normal⟩ := sane.file inode found
    obtain ⟨parent, entries, T⟩ := h.tree
    obtain ⟨parent', entries', T', -⟩ := inodeLink_tree T plain sane.folder sane.room used rfl normal linked
    have linked_fits := inodeLink_fits fits linked
    exact ((h.opened looked).setDev s.gid ⟨parent', entries', T'⟩).setFile
      fun new same => by rw [← Option.some.inj same]; exact linked_fits

theorem step {call : VfsCall} (h : Standing s) (valid : call.Valid s) (sane : Sane s call)
    (done : s.call call = .ok (t, ret)) : Standing t := by
  cases call with
  | vfsOpen fd name creat => exact h.vfsOpen valid.2 sane done
  | vfsClose fd => exact h.vfsClose (Except.ok.inj done)
  | vfsWrite fd buf => exact h.vfsWrite sane done
  | vfsLink fd oldpath newpath => exact h.vfsLink valid.2.2 sane done
  | vfsUnlink name => exact h.vfsUnlink valid sane done
  | vfsMkdir name => exact h.vfsMkdir valid sane done
  | vfsRmdir name => exact h.vfsRmdir valid sane done

end Standing

theorem FoundFolder.root (root : IsFolder dev 0) (top : alldir (some name) = some []) : FoundFolder dev name := by
  intro father found
  rw [top] at found
  exact ⟨0, root, (Option.some.inj (Except.ok.inj found)).symm⟩

theorem EntryRoom.root {post : List Byte} (top : alldir (some name) = some []) (last : filename (some name) = some post)
    (fits : EntryFits (readInode dev 0) post) : EntryRoom dev name := by
  intro father post' found last'
  rw [top] at found
  rw [last] at last'
  rw [← Option.some.inj (Except.ok.inj found), ← Option.some.inj last']
  exact fits

end OsLabs.Ext2

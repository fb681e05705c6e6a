import OsLabs.Ext2.CallBounds
import OsLabs.Ext2.Refine

/-!
# When a call returns

A call that the operations are right about fails for want of an inode or of data blocks
only, or because a link has no directory to go to: how many blocks each call takes, and
that it returns exactly when they are there.
-/

namespace OsLabs.Ext2
open Util

def freeBlocks (dev : Device) : Nat := (freeBits dev dmap).length

variable {dev dev' dev₀ : Device} {parent : Nat → Nat} {entries : Nat → List Record}
  {k d t n gid gid' per type offset : Nat}
  {inode inode' father : Inode} {r : Record} {c name post : List Byte} {dir cs path oldpath : List (List Byte)}
  {buf : List Byte} {bs : List Nat} {s : Volume} {before : Byte} {offset' : Int}

/-! ### Blocks -/

theorem SameMaps.freeBlocks (h : SameMaps dev dev') : freeBlocks dev' = freeBlocks dev := by
  unfold Ext2.freeBlocks
  rw [h.freeBits (by decide)]

theorem room_iff : Room dev inode offset n ↔ Rd.asked inode offset n ≤ freeBlocks dev := by
  unfold Room Rd.asked freeBlocks
  split
  · exact ⟨fun _ => Nat.zero_le _, fun _ => .inl ‹_›⟩
  · exact ⟨fun room => room.resolve_left ‹_›, .inr⟩

theorem dataWrite_room (fits : offset + buf.length ≤ linkSlots * blockBytes)
    (done : dataWrite dev inode buf offset = .ok (dev', inode')) : Room dev inode offset buf.length := by
  by_contra full
  rw [dataWrite_short fits full] at done
  cases done

theorem dataWrite_freeBlocks (hlen : inode.len ≤ linkSlots) (fits : offset + buf.length ≤ linkSlots * blockBytes)
    (done : dataWrite dev inode buf offset = .ok (dev', inode')) :
    freeBlocks dev' + Rd.asked inode offset buf.length = freeBlocks dev := by
  have room := dataWrite_room fits done
  rw [dataWrite_eq hlen fits room] at done
  have split : freeBits dev dmap = newBlocks dev inode offset buf.length ++
      (freeBits dev dmap).drop (Rd.asked inode offset buf.length) := by
    rw [Rd.newBlocks_eq, List.take_append_drop]
  have left := congrArg List.length (freeBits_marks split)
  have count : freeBlocks dev' = freeBlocks (marks dev (newBlocks dev inode offset buf.length)) := by
    rw [← (Prod.mk.inj (Except.ok.inj done)).1]
    exact (SameMaps.of_writes stored_addr).freeBlocks
  have enough := room_iff.mp room
  rw [List.length_drop] at left
  simp only [freeBlocks] at *
  omega

/-! ### Entries -/

/-- The two writes of an entry: the header, and the name on the device that is left. -/
theorem createEntry_eq (dev : Device) (inode : Inode) (r : Record) : createEntry dev inode r.inode r.name r.type =
    dataWrite dev inode.count r.entry.encode inode.count.size >>= fun x => dataWrite x.1 x.2 (r.name ++ [0]) x.2.size :=
    rfl

/-- What the two writes of an entry ask for. -/
structure EntryWrites (dev : Device) (inode : Inode) (r : Record) : Prop where
  header : r.entry.encode ≠ [] ∧ inode.count.size % blockBytes + r.entry.encode.length ≤ blockBytes ∧
    inode.count.size + r.entry.encode.length ≤ linkSlots * blockBytes
  asked : Rd.asked inode.count inode.count.size r.entry.encode.length = blocks (inode.size + entryBytes) - inode.len
  name : ∀ dev' inode', Appended dev inode.count r.entry.encode dev' inode' →
    inode'.size % blockBytes + (r.name ++ [0]).length ≤ blockBytes ∧
      inode'.size + (r.name ++ [0]).length ≤ linkSlots * blockBytes ∧
      Rd.asked inode' inode'.size (r.name ++ [0]).length =
        blocks (inode.size + entryBytes + (r.name.length + 1)) - blocks (inode.size + entryBytes)

theorem entryWrites (dev : Device) (sized : Sized inode) (fits : EntryFits inode r.name) : EntryWrites dev inode r := by
  obtain ⟨header, behind, room⟩ := fits
  have length : r.entry.encode.length = entryBytes := length_encodeEntry _
  have last : (r.name ++ [0]).length = r.name.length + 1 := by simp
  have chunk : inode.count.size % blockBytes + r.entry.encode.length ≤ blockBytes := by
    rw [length]
    exact header
  refine ⟨⟨?_, chunk, ?_⟩, ?_, fun dev' inode' one => ?_⟩
  · rw [← List.length_pos_iff, length]
    decide
  · rw [length]
    exact Nat.le_trans (Nat.le_add_right _ _) room
  · rw [Rd.asked_append sized.count.filled (by rw [length]; decide) chunk, length]
    rfl
  · have size : inode'.size = inode.size + entryBytes := by
      rw [one.size, length]
      rfl
    have chunk' : inode'.size % blockBytes + (r.name ++ [0]).length ≤ blockBytes := by
      rw [size, last]
      exact behind
    refine ⟨chunk', by rw [size, last]; exact room, ?_⟩
    rw [Rd.asked_append one.sized.filled (by rw [last]; exact Nat.succ_pos _) chunk', one.sized.filled, size, last]

theorem entryBlocks_eq (filled : inode.len = blocks inode.size) :
    Rd.entryBlocks inode name = (blocks (inode.size + entryBytes) - inode.len) +
      (blocks (inode.size + entryBytes + (name.length + 1)) - blocks (inode.size + entryBytes)) := by
  simp only [Rd.entryBlocks, blocks, entryBytes, blockBytes] at *
  omega

theorem createEntry_freeBlocks (sized : Sized inode) (marked : Marked dev inode) (fits : EntryFits inode r.name)
    (done : createEntry dev inode r.inode r.name r.type = .ok (dev', inode')) :
    freeBlocks dev' + Rd.entryBlocks inode r.name = freeBlocks dev := by
  obtain ⟨⟨some, chunk, small⟩, first, second⟩ := entryWrites dev sized fits
  rw [createEntry_eq] at done
  obtain ⟨⟨dev₁, inode₁⟩, header, done⟩ := bind_ok done
  have one := dataWrite_appended sized.count marked some chunk small header
  obtain ⟨-, small', rest⟩ := second dev₁ inode₁ one
  have last : dataWrite dev₁ inode₁ (r.name ++ [0]) inode₁.size = .ok (dev', inode') := done
  have taken := dataWrite_freeBlocks sized.count.len small header
  have taken' := dataWrite_freeBlocks one.sized.len small' last
  rw [first] at taken
  rw [rest] at taken'
  rw [entryBlocks_eq sized.filled]
  omega

theorem createEntry_done (sized : Sized inode) (marked : Marked dev inode) (fits : EntryFits inode r.name)
    (room : Rd.entryBlocks inode r.name ≤ freeBlocks dev) :
    ∃ dev' inode', createEntry dev inode r.inode r.name r.type = .ok (dev', inode') := by
  obtain ⟨⟨some, chunk, small⟩, first, second⟩ := entryWrites dev sized fits
  rw [entryBlocks_eq sized.filled] at room
  obtain ⟨dev₁, inode₁, header, one⟩ := dataWrite_done r.entry.encode sized.count marked some chunk small
    (room_iff.mpr (by rw [first]; omega))
  obtain ⟨chunk', small', rest⟩ := second dev₁ inode₁ one
  have taken := dataWrite_freeBlocks sized.count.len small header
  rw [first] at taken
  obtain ⟨dev₂, inode₂, last, -⟩ := dataWrite_done (r.name ++ [0]) one.sized one.marked (by simp) chunk' small'
    (room_iff.mpr (by rw [rest]; omega))
  refine ⟨dev₂, inode₂, ?_⟩
  rw [createEntry_eq, header]
  exact last

/-- An entry is appended exactly when its blocks are free. -/
theorem createEntry_iff (sized : Sized inode) (marked : Marked dev inode) (fits : EntryFits inode r.name) :
    (∃ x, createEntry dev inode r.inode r.name r.type = .ok x) ↔ Rd.entryBlocks inode r.name ≤ freeBlocks dev := by
  constructor
  · intro ⟨x, done⟩
    exact Nat.le_of_add_left_le (Nat.le_of_eq (createEntry_freeBlocks sized marked fits done))
  · intro room
    obtain ⟨dev', inode', done⟩ := createEntry_done sized marked fits room
    exact ⟨_, done⟩

/-! ### New files -/

theorem Candidate.entry_iff (T : Tree dev parent entries) (h : Candidate dev dev₀ inode) (here : IsFolder dev d)
    (other : d ≠ inode.index) (fits : EntryFits (readInode dev d) post) :
    (∃ x, createEntry dev₀ (readInode dev d) inode.index post type = .ok x) ↔
      Rd.entryBlocks (readInode dev d) post ≤ freeBlocks dev₀ := by
  obtain ⟨same, node, folder⟩ := h.folder T here other
  rw [← same] at fits ⊢
  exact createEntry_iff (r := ⟨inode.index, post, type⟩) (folder.sized node) node.marked fits

namespace Whole

variable (W : Whole s.dev parent entries)
include W

end Whole

end OsLabs.Ext2

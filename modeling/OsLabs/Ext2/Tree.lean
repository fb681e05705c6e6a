import Mathlib.Algebra.BigOperators.Group.Finset.Piecewise
import Mathlib.Algebra.Order.BigOperators.Group.Finset
import OsLabs.Ext2.Append
import OsLabs.Ext2.Namespace

/-!
# The tree of directories

What holds of a file system between two calls: the inodes in use have blocks of
their own, every directory is a list of records, and the records agree with the
link counts.
-/

namespace OsLabs.Ext2
open Function

def Used (dev : Device) (k : Nat) : Prop := k < mapBits ∧ readMap dev imap k = true

def IsFolder (dev : Device) (k : Nat) : Prop := Used dev k ∧ (readInode dev k).type = DR

namespace Record

def Live (r : Record) : Prop := r.type ≠ XX

instance (r : Record) : Decidable r.Live := inferInstanceAs (Decidable (_ ≠ _))

def gone (r : Record) : Record := { r with type := XX }

def To (k : Nat) (r : Record) : Prop := r.Live ∧ r.inode = k

instance (k : Nat) (r : Record) : Decidable (r.To k) := inferInstanceAs (Decidable (_ ∧ _))

end Record

/-- The records of a directory: its own, that of its parent, and the entries. -/
def folderRecords (k parent : Nat) (entries : List Record) : List Record :=
  ⟨k, dot, DR⟩ :: ⟨parent, dotdot, DR⟩ :: entries

structure Node (dev : Device) (k : Nat) : Prop where
  low : k < 80
  index : (readInode dev k).index = k
  kind : (readInode dev k).type = NF ∨ (readInode dev k).type = DR
  len : (readInode dev k).len ≤ linkSlots
  distinct : (readInode dev k).links.Nodup
  marked : Marked dev (readInode dev k)

/-- A directory whose headers each lie in one block. -/
structure Folder (dev : Device) (k parent : Nat) (entries : List Record) : Prop where
  listed : Listed dev (readInode dev k) (folderRecords k parent entries)
  filled : (readInode dev k).len = blocks (readInode dev k).size
  headers : ∀ before r rest, folderRecords k parent entries = before ++ r :: rest →
    (before.flatMap Record.bytes).length % blockBytes + entryBytes ≤ blockBytes
  dirLen : (readInode dev k).dirLen = 2 + entries.countP (·.Live)

def total (entries : Nat → List Record) (k : Nat) : Nat := ∑ d ∈ Finset.range 80, (entries d).countP (·.To k)

structure Tree (dev : Device) (parent : Nat → Nat) (entries : Nat → List Record) : Prop where
  root : IsFolder dev 0 ∧ parent 0 = 0
  node : ∀ k, Used dev k → Node dev k
  apart : ∀ k j, Used dev k → Used dev j → k ≠ j → ∀ b ∈ (readInode dev k).links, b ∉ (readInode dev j).links
  folder : ∀ k, IsFolder dev k → Folder dev k (parent k) (entries k) ∧ IsFolder dev (parent k) ∧
    (k ≠ 0 → (readInode dev k).linkNum = 1)
  closed : ∀ k, ¬IsFolder dev k → entries k = []
  named : ∀ d, ∀ r ∈ entries d, r.Live → Used dev r.inode
  count : ∀ k, Used dev k → k ≠ 0 → (readInode dev k).linkNum = total entries k
  /-- A directory has its entry in its parent. -/
  home : ∀ d, ∀ r ∈ entries d, r.Live → (readInode dev r.inode).type = DR → r.inode ≠ 0 ∧ parent r.inode = d

variable {dev dev' : Device} {parent : Nat → Nat} {entries : Nat → List Record} {k d : Nat} {es : List Record}
  {r : Record} {I B : Set Nat} {inode : Inode}

/-! ### Inodes and directories under a frame -/

theorem readInode_fits : (readInode dev k).Fits where
  index := Mem.load_lt
  type := Mem.load_lt
  permission := Mem.load_lt
  size := Mem.load_lt
  len := Mem.load_lt
  id := Mem.load_lt
  dirLen := Mem.load_lt
  linkNum := Mem.load_lt
  link := by
    intro b mem
    obtain ⟨j, hj, rfl⟩ := List.getElem_of_mem mem
    simp only [readInode, Vector.getElem_toList, Vector.getElem_ofFn]
    exact Mem.load_lt

theorem Marked.congr (h : Marked dev inode) (outside : Outside dev dev' I B) (apart : ∀ b ∈ inode.links, b ∉ B) :
    Marked dev' inode := by
  intro b mem
  obtain ⟨small, marked⟩ := h b mem
  exact ⟨small, (outside.blocks b small (apart b mem)).trans marked⟩

theorem Node.congr (h : Node dev k) (same : readInode dev' k = readInode dev k) (outside : Outside dev dev' I B)
    (apart : ∀ b ∈ (readInode dev k).links, b ∉ B) : Node dev' k := by
  refine ⟨h.low, ?_, ?_, ?_, ?_, ?_⟩ <;> rw [same]
  · exact h.index
  · exact h.kind
  · exact h.len
  · exact h.distinct
  · exact h.marked.congr outside apart

theorem Folder.congr {parent : Nat} (h : Folder dev k parent es) (same : readInode dev' k = readInode dev k)
    (outside : Outside dev dev' I B) (apart : ∀ b ∈ (readInode dev k).links, b ∉ B) : Folder dev' k parent es := by
  obtain ⟨⟨len, covered, content, plain⟩, filled, headers, dirLen⟩ := h
  refine ⟨⟨?_, ?_, ?_, plain⟩, ?_, headers, ?_⟩ <;> rw [same]
  · exact len
  · exact covered
  · rw [outside.contents_eq len covered apart, content]
  · exact filled
  · exact dirLen

theorem Folder.sized {parent : Nat} (h : Folder dev k parent es) (node : Node dev k) : Sized (readInode dev k) where
  low := by rw [node.index]; exact node.low
  len := node.len
  filled := h.filled
  distinct := node.distinct
  fits := readInode_fits

theorem Folder.count_le {parent : Nat} (h : Folder dev k parent es) : es.length ≤ linkSlots * blockBytes := by
  have bytes := length_le_bytes (folderRecords k parent es)
  rw [← h.listed.size_eq] at bytes
  have := h.listed.size_le
  simp only [folderRecords, List.length_cons] at bytes
  omega

theorem Folder.laid {parent : Nat} (h : Folder dev k parent es) :
    Laid dev (readInode dev k) (folderRecords k parent es) :=
  { h.listed with headers := h.headers }

theorem Folder.append {parent : Nat} (h : Folder dev k parent es) (node : Node dev k) (live : r.Live)
    (plain : 0 ∉ r.name ∧ r.inode < 2 ^ 31 ∧ r.type < 2 ^ 32) (fits : EntryFits (readInode dev k) r.name)
    (done : Appended dev (readInode dev k).count r.bytes dev' inode) :
    readInode dev' k = inode ∧ Node dev' k ∧ Folder dev' k parent (es ++ [r]) := by
  have stored : readInode dev' k = inode := by
    rw [← done.stored]
    show _ = readInode dev' (readInode dev k).index
    rw [node.index]
  have laid := h.laid.append fits.1 plain done
  refine ⟨stored, ⟨node.low, ?_, ?_, ?_, ?_, ?_⟩, ⟨?_, ?_, laid.headers, ?_⟩⟩ <;> try rw [stored]
  · exact done.index.trans node.index
  · rw [done.type]
    exact node.kind
  · exact done.sized.len
  · exact done.sized.distinct
  · exact done.marked
  · exact laid.toListed
  · exact done.sized.filled
  · have bound := h.count_le
    have counted := List.countP_le_length (p := fun r : Record => decide r.Live) (l := es)
    rw [done.dirLen, Inode.count, h.dirLen, List.countP_append, List.countP_singleton, decide_eq_true live, if_pos rfl]
    simp only [linkSlots, blockBytes] at bound
    exact Nat.mod_eq_of_lt (by omega)

/-! ### Counting -/

theorem total_update (entries : Nat → List Record) (es : List Record) (k : Nat) (low : d < 80) :
    total (update entries d es) k + (entries d).countP (·.To k) = total entries k + es.countP (·.To k) := by
  have mem := Finset.mem_range.mpr low
  have others : ∑ e ∈ (Finset.range 80).erase d, (update entries d es e).countP (·.To k) =
      ∑ e ∈ (Finset.range 80).erase d, (entries e).countP (·.To k) :=
    Finset.sum_congr rfl fun e he => by rw [update_of_ne (Finset.ne_of_mem_erase he)]
  rw [total, total, ← Finset.add_sum_erase _ _ mem, ← Finset.add_sum_erase (Finset.range 80) _ mem, others, update_self]
  omega

theorem mem_update {e : Nat} {x : Record} (mem : x ∈ update entries d (entries d ++ [r]) e) :
    x ∈ entries e ∨ e = d ∧ x = r := by
  by_cases here : e = d
  · subst here
    rw [update_self] at mem
    exact (List.mem_append.mp mem).imp_right fun last => ⟨rfl, List.mem_singleton.mp last⟩
  · rw [update_of_ne here] at mem
    exact .inl mem

theorem total_pos (low : d < 80) (mem : r ∈ entries d) (live : r.Live) : 0 < total entries r.inode := by
  have here : 0 < (entries d).countP (·.To r.inode) := List.countP_pos_iff.mpr ⟨r, mem, by simp [Record.To, live]⟩
  exact Nat.lt_of_lt_of_le here
    (Finset.single_le_sum (f := fun d => (entries d).countP (·.To r.inode)) (fun _ _ => Nat.zero_le _)
      (Finset.mem_range.mpr low))

theorem exists_entry (pos : 0 < total entries k) : ∃ d < 80, ∃ r ∈ entries d, r.Live ∧ r.inode = k := by
  obtain ⟨d, mem, here⟩ := Finset.exists_ne_zero_of_sum_ne_zero (Nat.pos_iff_ne_zero.mp pos)
  obtain ⟨r, entry, names⟩ := List.countP_pos_iff.mp (Nat.pos_iff_ne_zero.mpr here)
  exact ⟨d, Finset.mem_range.mp mem, r, entry, of_decide_eq_true names⟩

namespace Tree

variable (T : Tree dev parent entries)
include T

theorem low_of_entry (mem : r ∈ entries d) : IsFolder dev d ∧ d < 80 := by
  have folder : IsFolder dev d := by
    by_contra none
    rw [T.closed d none] at mem
    cases mem
  exact ⟨folder, (T.node d folder.1).low⟩

/-- A directory other than the root has an entry in its parent. -/
theorem entry_of_folder (folder : IsFolder dev k) (other : k ≠ 0) : ∃ r ∈ entries (parent k), r.Live ∧ r.inode = k := by
  have one := (T.folder k folder).2.2 other
  rw [T.count k folder.1 other] at one
  obtain ⟨d, -, r, mem, live, rfl⟩ := exists_entry (by rw [one]; exact Nat.one_pos)
  obtain ⟨-, here⟩ := T.home d r mem live folder.2
  exact ⟨r, by rw [here]; exact mem, live, rfl⟩

theorem total_eq_zero (unused : ¬Used dev k) : total entries k = 0 := by
  by_contra some
  obtain ⟨d, -, r, mem, live, rfl⟩ := exists_entry (Nat.pos_of_ne_zero some)
  exact unused (T.named d r mem live)

theorem total_le : total entries k ≤ 80 * (linkSlots * blockBytes) := by
  have each : ∀ d ∈ Finset.range 80, (entries d).countP (·.To k) ≤ linkSlots * blockBytes := by
    intro d _
    apply Nat.le_trans List.countP_le_length
    by_cases folder : IsFolder dev d
    · exact (T.folder d folder).1.count_le
    · rw [T.closed d folder]
      exact Nat.zero_le _
  have sum := Finset.sum_le_sum each
  rwa [Finset.sum_const_nat fun _ _ => rfl, Finset.card_range] at sum

end Tree

/-! ### A new entry -/

/-- Directory `d` has a new record, of a file that was in use or of a new inode; `B` are the blocks of the two. -/
structure Added (dev dev' : Device) (parent : Nat → Nat) (entries : Nat → List Record) (d : Nat) (r : Record)
    (B : Set Nat) : Prop where
  live : r.Live
  here : IsFolder dev d
  other : d ≠ r.inode ∧ r.inode ≠ 0
  used : ∀ j, Used dev' j ↔ Used dev j ∨ j = r.inode
  outside : Outside dev dev' {d, r.inode} B
  others : ∀ j, Used dev j → j ≠ d → j ≠ r.inode → ∀ b ∈ (readInode dev j).links, b ∉ B
  node : Node dev' d ∧ Node dev' r.inode
  folder : Folder dev' d (parent d) (entries d ++ [r])
  parentLinks : ∀ b ∈ (readInode dev' d).links, b ∈ B ∧ b ∉ (readInode dev' r.inode).links
  links : ∀ b ∈ (readInode dev' r.inode).links, b ∈ B
  linkNum : (readInode dev' r.inode).linkNum = total entries r.inode + 1
  kind : (readInode dev' r.inode).type = NF ∧ (Used dev r.inode → (readInode dev r.inode).type = NF) ∨
    (readInode dev' r.inode).type = DR ∧ ¬Used dev r.inode ∧ Folder dev' r.inode d []
  parentSame : (readInode dev' d).type = (readInode dev d).type ∧ (readInode dev' d).linkNum = (readInode dev d).linkNum

namespace Added

variable (T : Tree dev parent entries) (h : Added dev dev' parent entries d r B)
include T h

theorem same (used : Used dev k) (d_ne : k ≠ d) (r_ne : k ≠ r.inode) :
    readInode dev' k = readInode dev k ∧ ∀ b ∈ (readInode dev k).links, b ∉ B :=
  ⟨h.outside.slots k (T.node k used).low (by simp [d_ne, r_ne]), h.others k used d_ne r_ne⟩

/-- Neither the type nor the link count changes but for the inode that is named. -/
theorem kept (used : Used dev k) (r_ne : k ≠ r.inode) :
    (readInode dev' k).type = (readInode dev k).type ∧ (readInode dev' k).linkNum = (readInode dev k).linkNum := by
  by_cases here : k = d
  · rw [here]
    exact h.parentSame
  · rw [(h.same T used here r_ne).1]
    exact ⟨rfl, rfl⟩

theorem isFolder (folder : IsFolder dev k) : IsFolder dev' k ∧ k ≠ r.inode := by
  have other : k ≠ r.inode := by
    rintro rfl
    rcases h.kind with ⟨-, file⟩ | ⟨-, new, -⟩
    · have := folder.2
      rw [file folder.1] at this
      exact absurd this (by decide)
    · exact new folder.1
  refine ⟨⟨(h.used k).mpr (.inl folder.1), ?_⟩, other⟩
  rw [(h.kept T folder.1 other).1]
  exact folder.2

theorem of_isFolder (folder : IsFolder dev' k) (other : k ≠ r.inode) : IsFolder dev k := by
  have used := ((h.used k).mp folder.1).resolve_right other
  refine ⟨used, ?_⟩
  rw [← (h.kept T used other).1]
  exact folder.2

theorem links_apart {j : Nat} (usedK : Used dev' k) (usedJ : Used dev' j) (ne : k ≠ j) :
    ∀ b ∈ (readInode dev' k).links, b ∉ (readInode dev' j).links := by
  -- the blocks of the two inodes are in `B`, those of the others are not
  have inside {i : Nat} (used : Used dev' i) : (i = d ∨ i = r.inode) ∧ (∀ b ∈ (readInode dev' i).links, b ∈ B) ∨
      i ≠ d ∧ i ≠ r.inode ∧ Used dev i ∧ readInode dev' i = readInode dev i ∧ ∀ b ∈ (readInode dev i).links, b ∉ B := by
    by_cases first : i = d
    · subst first
      exact .inl ⟨.inl rfl, fun b mem => (h.parentLinks b mem).1⟩
    · by_cases second : i = r.inode
      · subst second
        exact .inl ⟨.inr rfl, h.links⟩
      · have old := ((h.used i).mp used).resolve_right second
        exact .inr ⟨first, second, old, h.same T old first second⟩
  intro b mem mem'
  rcases inside usedK with ⟨endK, inK⟩ | ⟨-, -, oldK, sameK, outK⟩
  · rcases inside usedJ with ⟨endJ, -⟩ | ⟨-, -, -, sameJ, outJ⟩
    · rcases endK with rfl | rfl <;> rcases endJ with rfl | rfl
      · exact ne rfl
      · exact (h.parentLinks b mem).2 mem'
      · exact (h.parentLinks b mem').2 mem
      · exact ne rfl
    · rw [sameJ] at mem'
      exact outJ b mem' (inK b mem)
  · rw [sameK] at mem
    rcases inside usedJ with ⟨-, inJ⟩ | ⟨-, -, oldJ, sameJ, -⟩
    · exact outK b mem (inJ b mem')
    · rw [sameJ] at mem'
      exact T.apart k j oldK oldJ ne b mem mem'

theorem total_eq : total (update entries d (entries d ++ [r])) k = total entries k + if k = r.inode then 1 else 0 := by
  have low := (T.node d h.here.1).low
  have moved := total_update entries (entries d ++ [r]) k low
  have one : [r].countP (·.To k) = if k = r.inode then 1 else 0 := by
    have live := h.live
    rw [List.countP_singleton]
    simp [Record.To, live, eq_comm]
  rw [List.countP_append, one] at moved
  omega

theorem folder_of (folder : IsFolder dev' k) : Folder dev' k (update parent r.inode d k)
    (update entries d (entries d ++ [r]) k) ∧ IsFolder dev' (update parent r.inode d k) ∧
      (k ≠ 0 → (readInode dev' k).linkNum = 1) := by
  by_cases new : k = r.inode
  · subst new
    rcases h.kind with ⟨file, -⟩ | ⟨-, unused, empty⟩
    · have directory := folder.2
      rw [file] at directory
      exact absurd directory (by decide)
    · have none : entries r.inode = [] := T.closed _ fun old => unused old.1
      rw [update_self, update_of_ne h.other.1.symm, none]
      refine ⟨empty, (h.isFolder T h.here).1, fun _ => ?_⟩
      rw [h.linkNum, T.total_eq_zero unused]
  · have old := h.of_isFolder T folder new
    obtain ⟨records, up, one⟩ := T.folder k old
    rw [update_of_ne new]
    refine ⟨?_, (h.isFolder T up).1, fun other => ?_⟩
    · by_cases here : k = d
      · subst here
        rw [update_self]
        exact h.folder
      · obtain ⟨same, apart⟩ := h.same T old.1 here new
        rw [update_of_ne here]
        exact records.congr same h.outside apart
    · rw [(h.kept T old.1 new).2]
      exact one other

theorem tree : Tree dev' (update parent r.inode d) (update entries d (entries d ++ [r])) where
  root := by
    rw [update_of_ne h.other.2.symm]
    exact ⟨(h.isFolder T T.root.1).1, T.root.2⟩
  node k used := by
    by_cases here : k = d
    · subst here
      exact h.node.1
    by_cases new : k = r.inode
    · subst new
      exact h.node.2
    · have old := ((h.used k).mp used).resolve_right new
      obtain ⟨same, apart⟩ := h.same T old here new
      exact (T.node k old).congr same h.outside apart
  apart k j usedK usedJ ne := h.links_apart T usedK usedJ ne
  folder k folder := h.folder_of T folder
  closed k none := by
    have unknown : ¬IsFolder dev k := fun old => none (h.isFolder T old).1
    have other : k ≠ d := by
      rintro rfl
      exact unknown h.here
    rw [update_of_ne other]
    exact T.closed k unknown
  named e x mem live := by
    rw [h.used]
    rcases mem_update mem with old | ⟨rfl, rfl⟩
    · exact .inl (T.named e x old live)
    · exact .inr rfl
  count k used other := by
    rw [h.total_eq T]
    by_cases new : k = r.inode
    · rw [if_pos new, new]
      exact h.linkNum
    · have old := ((h.used k).mp used).resolve_right new
      rw [if_neg new, Nat.add_zero, (h.kept T old new).2]
      exact T.count k old other
  home e x mem live directory := by
    rcases mem_update mem with old | ⟨rfl, rfl⟩
    · have used := T.named e x old live
      have kept : x.inode ≠ r.inode := by
        intro same
        rw [same] at used directory
        rcases h.kind with ⟨file, -⟩ | ⟨-, unused, -⟩
        · rw [file] at directory
          exact absurd directory (by decide)
        · exact unused used
      rw [(h.kept T used kept).1] at directory
      rw [update_of_ne kept]
      exact T.home e x old live directory
    · refine ⟨h.other.2, ?_⟩
      rw [update_self]

end Added

/-! ### A removed entry -/

/-- A record of directory `d` is removed: the inode it names has lost one link, or is no longer in use. -/
structure Removed (dev dev' : Device) (parent : Nat → Nat) (entries : Nat → List Record) (d : Nat)
    (before : List Record) (r : Record) (after : List Record) (B : Set Nat) : Prop where
  split : entries d = before ++ r :: after
  live : r.Live
  here : IsFolder dev d
  other : d ≠ r.inode ∧ r.inode ≠ 0
  used : ∀ j, Used dev' j ↔ Used dev j ∧ (j = r.inode → (readInode dev r.inode).linkNum ≠ 1)
  outside : Outside dev dev' {d, r.inode} B
  others : ∀ j, Used dev j → j ≠ d → j ≠ r.inode → ∀ b ∈ (readInode dev j).links, b ∉ B
  node : Node dev' d ∧ (Used dev' r.inode → Node dev' r.inode)
  folder : Folder dev' d (parent d) (before ++ r.gone :: after)
  links : (readInode dev' d).links = (readInode dev d).links ∧
    (Used dev' r.inode → (readInode dev' r.inode).links = (readInode dev r.inode).links)
  target : Used dev' r.inode → (readInode dev' r.inode).type = NF ∧
    (readInode dev' r.inode).linkNum + 1 = (readInode dev r.inode).linkNum
  empty : IsFolder dev r.inode → (entries r.inode).countP (·.Live) = 0
  parentSame : (readInode dev' d).type = (readInode dev d).type ∧ (readInode dev' d).linkNum = (readInode dev d).linkNum

def remaining (entries : Nat → List Record) (d : Nat) (before : List Record) (r : Record) (after : List Record) :
    Nat → List Record :=
  update (update entries d (before ++ r.gone :: after)) r.inode []

namespace Removed

variable {before after : List Record} (T : Tree dev parent entries)
  (h : Removed dev dev' parent entries d before r after B)
include T h

omit T in
theorem used_of (used : Used dev' k) : Used dev k := ((h.used k).mp used).1

omit T in
theorem of_used (used : Used dev k) (r_ne : k ≠ r.inode) : Used dev' k :=
  (h.used k).mpr ⟨used, fun same => absurd same r_ne⟩

theorem same (used : Used dev k) (d_ne : k ≠ d) (r_ne : k ≠ r.inode) :
    readInode dev' k = readInode dev k ∧ ∀ b ∈ (readInode dev k).links, b ∉ B :=
  ⟨h.outside.slots k (T.node k used).low (by simp [d_ne, r_ne]), h.others k used d_ne r_ne⟩

theorem kept (used : Used dev k) (r_ne : k ≠ r.inode) :
    (readInode dev' k).type = (readInode dev k).type ∧ (readInode dev' k).linkNum = (readInode dev k).linkNum := by
  by_cases here : k = d
  · rw [here]
    exact h.parentSame
  · rw [(h.same T used here r_ne).1]
    exact ⟨rfl, rfl⟩

theorem isFolder (folder : IsFolder dev k) (r_ne : k ≠ r.inode) : IsFolder dev' k := by
  refine ⟨h.of_used folder.1 r_ne, ?_⟩
  rw [(h.kept T folder.1 r_ne).1]
  exact folder.2

theorem of_isFolder (folder : IsFolder dev' k) : IsFolder dev k ∧ k ≠ r.inode := by
  have used := h.used_of folder.1
  have other : k ≠ r.inode := by
    rintro rfl
    have directory := folder.2
    rw [(h.target folder.1).1] at directory
    exact absurd directory (by decide)
  refine ⟨⟨used, ?_⟩, other⟩
  rw [← (h.kept T used other).1]
  exact folder.2

theorem links_eq (used : Used dev' k) : (readInode dev' k).links = (readInode dev k).links := by
  by_cases here : k = d
  · rw [here]
    exact h.links.1
  by_cases target : k = r.inode
  · subst target
    exact h.links.2 used
  · rw [(h.same T (h.used_of used) here target).1]

theorem none_live : (entries r.inode).countP (·.Live) = 0 := by
  by_cases folder : IsFolder dev r.inode
  · exact h.empty folder
  · rw [T.closed _ folder, List.countP_nil]

theorem total_eq : total (remaining entries d before r after) k + (if k = r.inode then 1 else 0) = total entries k := by
  have low := (T.node d h.here.1).low
  have first := total_update entries (before ++ r.gone :: after) k low
  have lowTarget : r.inode < 80 := (T.node _ (T.named d r (by rw [h.split]; simp) h.live)).low
  have second := total_update (update entries d (before ++ r.gone :: after)) [] k lowTarget
  have none : (entries r.inode).countP (·.To k) = 0 := by
    refine Nat.le_zero.mp (Nat.le_trans ?_ (Nat.le_of_eq (h.none_live T)))
    apply List.countP_mono_left
    intro x _ names
    exact decide_eq_true (of_decide_eq_true names).1
  have gone : (if (r.gone.To k) then 1 else 0) = 0 := if_neg fun names => names.1 rfl
  have one : (if r.To k then 1 else 0) = if k = r.inode then 1 else 0 := by
    have live := h.live
    simp [Record.To, live, eq_comm]
  rw [update_of_ne h.other.1.symm, none, List.countP_nil] at second
  rw [h.split] at first
  simp only [List.countP_append, List.countP_cons, decide_eq_true_eq, gone, one] at first
  show total (update (update entries d (before ++ r.gone :: after)) r.inode []) k + _ = _
  omega

omit T in
theorem mem_of {e : Nat} {x : Record} (mem : x ∈ remaining entries d before r after e) (live : x.Live) :
    x ∈ entries e ∧ e ≠ r.inode := by
  have other : e ≠ r.inode := by
    rintro rfl
    rw [remaining, update_self] at mem
    cases mem
  refine ⟨?_, other⟩
  rw [remaining, update_of_ne other] at mem
  by_cases here : e = d
  · subst here
    rw [update_self] at mem
    rw [h.split]
    rcases List.mem_append.mp mem with old | old
    · exact List.mem_append_left _ old
    · rcases List.mem_cons.mp old with rfl | old
      · exact absurd rfl live
      · exact List.mem_append_right _ (List.mem_cons_of_mem r old)
  · rw [update_of_ne here] at mem
    exact mem

/-- No directory has its entry in the inode that is named. -/
theorem parent_ne (folder : IsFolder dev k) : parent k ≠ r.inode := by
  intro same
  by_cases top : k = 0
  · rw [top, T.root.2] at same
    exact h.other.2 same.symm
  · obtain ⟨x, mem, live, -⟩ := T.entry_of_folder folder top
    rw [same] at mem
    have none := List.countP_eq_zero.mp (h.none_live T) x mem
    exact none (decide_eq_true live)

theorem folder_of (folder : IsFolder dev' k) : Folder dev' k (parent k) (remaining entries d before r after k) ∧
    IsFolder dev' (parent k) ∧ (k ≠ 0 → (readInode dev' k).linkNum = 1) := by
  obtain ⟨old, other⟩ := h.of_isFolder T folder
  obtain ⟨records, up, one⟩ := T.folder k old
  refine ⟨?_, h.isFolder T up (h.parent_ne T old), fun top => ?_⟩
  · rw [remaining, update_of_ne other]
    by_cases here : k = d
    · subst here
      rw [update_self]
      exact h.folder
    · obtain ⟨same, apart⟩ := h.same T old.1 here other
      rw [update_of_ne here]
      exact records.congr same h.outside apart
  · rw [(h.kept T old.1 other).2]
    exact one top

theorem used_target {e : Nat} {x : Record} (mem : x ∈ remaining entries d before r after e) (live : x.Live) :
    Used dev' x.inode := by
  obtain ⟨old, -⟩ := h.mem_of mem live
  have used := T.named e x old live
  refine (h.used _).mpr ⟨used, fun same one => ?_⟩
  have counted := h.total_eq T (k := x.inode)
  have pos := total_pos (T.low_of_entry old).2 mem live
  rw [same] at used
  rw [if_pos same, same, ← T.count _ used h.other.2, one] at counted
  rw [same] at pos
  omega

theorem tree : Tree dev' parent (remaining entries d before r after) where
  root := ⟨h.isFolder T T.root.1 h.other.2.symm, T.root.2⟩
  node k used := by
    by_cases here : k = d
    · subst here
      exact h.node.1
    by_cases target : k = r.inode
    · subst target
      exact h.node.2 used
    · have old := h.used_of used
      obtain ⟨same, apart⟩ := h.same T old here target
      exact (T.node k old).congr same h.outside apart
  apart k j usedK usedJ ne := by
    rw [h.links_eq T usedK, h.links_eq T usedJ]
    exact T.apart k j (h.used_of usedK) (h.used_of usedJ) ne
  folder k folder := h.folder_of T folder
  closed k none := by
    by_cases target : k = r.inode
    · subst target
      rw [remaining, update_self]
    · have unknown : ¬IsFolder dev k := fun old => none (h.isFolder T old target)
      have other : k ≠ d := by
        rintro rfl
        exact unknown h.here
      rw [remaining, update_of_ne target, update_of_ne other]
      exact T.closed k unknown
  named e x mem live := h.used_target T mem live
  count k used other := by
    have counted := h.total_eq T (k := k)
    have old := h.used_of used
    by_cases target : k = r.inode
    · rw [if_pos target, ← T.count k old other] at counted
      rw [target] at counted used ⊢
      have lost := (h.target used).2
      omega
    · rw [if_neg target, Nat.add_zero] at counted
      rw [(h.kept T old target).2, counted]
      exact T.count k old other
  home e x mem live directory := by
    have used := h.used_target T mem live
    obtain ⟨old, -⟩ := h.mem_of mem live
    have folder := (h.of_isFolder T ⟨used, directory⟩).1
    exact T.home e x old live folder.2

end Removed

end OsLabs.Ext2

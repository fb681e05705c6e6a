import OsLabs.Ext2.Tree

/-!
# Removed records

`ext2_dir_remove` marks the first live record of an inode as removed, where it
stands. Over any run of entries and removals the records fill the directory, and
a lookup finds the first live record of a name.
-/

namespace OsLabs.Ext2
open Util

variable {dev dev' : Device} {inode inode' : Inode} {records before mid rest after : List Record} {r : Record}
  {fuel t n : Nat} {name : List Byte}

/-! ### The scan -/

namespace Laid

theorem read_header (h : Laid dev inode records) (split : records = before ++ r :: rest) :
    dev.read (inode.address (before.flatMap Record.bytes).length) entryBytes = r.entry.encode := by
  have inside := h.inside split
  have room := h.headers before r rest split
  have read := @read_chunk dev inode (before.flatMap Record.bytes).length entryBytes (by omega) room
  rw [h.drop split, Record.bytes, List.append_assoc, List.take_left' (length_encodeEntry _)] at read
  exact read

theorem header (h : Laid dev inode records) (split : records = before ++ r :: rest) :
    (before.flatMap Record.bytes).length < inode.size ∧
    inode.linkAt ((before.flatMap Record.bytes).length / blockBytes) =
      .ok (inode.slot ((before.flatMap Record.bytes).length / blockBytes)) ∧
    Entry.decode (dev.read (data (inode.slot ((before.flatMap Record.bytes).length / blockBytes)) +
      (before.flatMap Record.bytes).length % blockBytes) entryBytes) = r.entry := by
  have inside := h.inside split
  have small := h.size_le
  refine ⟨by omega, Inode.linkAt_eq ?_, ?_⟩
  · simp only [linkSlots, blockBytes] at *
    omega
  · have read := h.read_header split
    rw [Inode.address] at read
    rw [read, h.decode split]

/-- The scan stops at the first live record of the inode. -/
theorem removeLoop (h : Laid dev inode records) {cur : Option Entry} (names : r.To t) (none : ∀ x ∈ mid, ¬x.To t)
    (split : records = before ++ (mid ++ r :: rest)) (enough : mid.length < fuel) :
    removeLoop dev inode t fuel cur (before.flatMap Record.bytes).length =
      .ok (some r.gone.entry, ((before ++ mid).flatMap Record.bytes).length) := by
  induction mid generalizing before fuel cur with
  | nil =>
    obtain ⟨fuel, rfl⟩ : ∃ n, fuel = n + 1 := ⟨fuel - 1, by rw [List.length_nil] at enough; omega⟩
    obtain ⟨inside, slot, decoded⟩ := h.header split
    rw [Ext2.removeLoop, if_pos inside, slot]
    simp only [bind, Except.bind, decoded]
    rw [if_pos ⟨names.2, names.1⟩, List.append_nil]
    rfl
  | cons x mid ih =>
    obtain ⟨fuel, rfl⟩ : ∃ n, fuel = n + 1 := ⟨fuel - 1, by rw [List.length_cons] at enough; omega⟩
    obtain ⟨inside, slot, decoded⟩ := h.header split
    have other : ¬(x.entry.inode = t ∧ x.entry.fileType ≠ XX) := fun same => none x List.mem_cons_self ⟨same.2, same.1⟩
    rw [Ext2.removeLoop, if_pos inside, slot]
    simp only [bind, Except.bind, decoded]
    rw [if_neg other, h.next split, ih (fun y mem => none y (List.mem_cons_of_mem x mem)) (by rw [split]; simp)
      (by rw [List.length_cons] at enough; omega), List.append_assoc, List.singleton_append]

end Laid

/-! ### The record that is removed -/

@[simp] theorem length_gone : r.gone.bytes.length = r.bytes.length := by
  rw [Record.length_bytes, Record.length_bytes]
  rfl

theorem headers_gone
    (headers : ∀ front x back, before ++ r :: after = front ++ x :: back →
      (front.flatMap Record.bytes).length % blockBytes + entryBytes ≤ blockBytes) :
    ∀ front x back, before ++ r.gone :: after = front ++ x :: back →
      (front.flatMap Record.bytes).length % blockBytes + entryBytes ≤ blockBytes := by
  intro front x back split
  rcases List.append_eq_append_iff.mp split with ⟨mid, rfl, tail⟩ | ⟨mid, rfl, tail⟩
  · rcases mid with _ | ⟨y, mid⟩
    · rw [List.append_nil]
      exact headers before r after rfl
    · obtain ⟨rfl, rfl⟩ := List.cons.inj tail
      have old := headers (before ++ r :: mid) x back (by simp)
      simpa using old
  · rcases mid with _ | ⟨y, mid⟩
    · exact headers front r after (by simp)
    · obtain ⟨rfl, rfl⟩ := List.cons.inj tail
      exact headers front x (mid ++ r :: after) (by simp)

theorem flatMap_gone : (before ++ r.gone :: after).flatMap Record.bytes =
    before.flatMap Record.bytes ++ (r.gone.entry.encode ++ ((r.name ++ [0]) ++ after.flatMap Record.bytes)) := by
  rw [List.flatMap_append, List.flatMap_cons, Record.bytes, List.append_assoc]
  rfl

theorem countP_gone (live : r.Live) :
    (before ++ r.gone :: after).countP (·.Live) + 1 = (before ++ r :: after).countP (·.Live) := by
  have gone : ¬r.gone.Live := fun live => live rfl
  simp only [List.countP_append, List.countP_cons, decide_eq_true_eq, if_pos live, if_neg gone]
  omega

def Inode.setDirLen (inode : Inode) (n : Nat) : Inode := { inode with dirLen := n }

namespace Inode

variable {n : Nat}

@[simp] theorem setDirLen_index : (inode.setDirLen n).index = inode.index := rfl

@[simp] theorem setDirLen_type : (inode.setDirLen n).type = inode.type := rfl

@[simp] theorem setDirLen_size : (inode.setDirLen n).size = inode.size := rfl

@[simp] theorem setDirLen_len : (inode.setDirLen n).len = inode.len := rfl

@[simp] theorem setDirLen_links : (inode.setDirLen n).links = inode.links := rfl

@[simp] theorem setDirLen_linkNum : (inode.setDirLen n).linkNum = inode.linkNum := rfl

@[simp] theorem setDirLen_dirLen : (inode.setDirLen n).dirLen = n := rfl

end Inode

theorem Inode.Fits.setDirLen {n : Nat} (h : inode.Fits) (small : n < 2 ^ 32) : (inode.setDirLen n).Fits :=
  { h with dirLen := small }

namespace Laid

theorem contents_gone (h : Laid dev inode records) (distinct : inode.links.Nodup)
    (split : records = before ++ r :: after) :
    contents (dev.write (inode.address (before.flatMap Record.bytes).length) r.gone.entry.encode) inode =
      (before ++ r.gone :: after).flatMap Record.bytes := by
  have inside := h.inside split
  have same : r.gone.entry.encode.length = r.entry.encode.length := by simp
  rw [contents_write h.len h.covered distinct (by rw [length_encodeEntry]; omega)
    (by rw [length_encodeEntry]; exact h.headers before r after split), h.content, split, flatMap_gone,
      List.flatMap_append,
    List.flatMap_cons, Record.bytes, List.append_assoc, pwrite_middle same]

theorem gone (h : Laid dev inode records) (split : records = before ++ r :: after)
    (content : contents dev' inode = (before ++ r.gone :: after).flatMap Record.bytes) :
    Laid dev' inode (before ++ r.gone :: after) where
  len := h.len
  covered := h.covered
  content := content
  plain := by
    subst split
    intro x mem
    rcases List.mem_append.mp mem with old | mem
    · exact h.plain x (List.mem_append_left _ old)
    rcases List.mem_cons.mp mem with rfl | old
    · obtain ⟨name, inode, -⟩ := h.plain r (by simp)
      exact ⟨name, inode, by show XX < 2 ^ 32; decide⟩
    · exact h.plain x (List.mem_append_right _ (List.mem_cons_of_mem r old))
  headers := by
    subst split
    exact headers_gone h.headers

theorem setDirLen (h : Laid dev inode records) : Laid dev (inode.setDirLen n) records :=
  ⟨⟨h.len, h.covered, h.content, h.plain⟩, h.headers⟩

/-- The record is marked in its block, and then the inode is stored. -/
theorem dirRemove (h : Laid dev inode records) (distinct : inode.links.Nodup) (low : inode.index < 80)
    (fits : inode.Fits)
    (split : records = before ++ r :: after) (live : r.Live) (none : ∀ x ∈ before, ¬x.To r.inode) {n : Nat}
    (hn : n = (inode.dirLen + (2 ^ 32 - 1)) % 2 ^ 32) :
    ∃ dev', dirRemove dev inode r.inode = .ok (dev', inode.setDirLen n) ∧ SameMaps dev dev' ∧
      Outside dev dev' {inode.index} {b | b ∈ inode.links} ∧ readInode dev' inode.index = inode.setDirLen n ∧
      Laid dev' (inode.setDirLen n) (before ++ r.gone :: after) := by
  have enough : before.length < inode.size + 1 := by
    have bytes := length_le_bytes records
    rw [← h.size_eq, split, List.length_append] at bytes
    omega
  have loop :=
    @removeLoop dev inode records [] before after r (inode.size + 1) r.inode h .none ⟨live, rfl⟩ none split enough
  obtain ⟨inside, slot, -⟩ := h.header split
  let dev₁ := dev.write (inode.address (before.flatMap Record.bytes).length) r.gone.entry.encode
  obtain ⟨stored, eq⟩ : ∃ stored, stored = inode.setDirLen n := ⟨_, rfl⟩
  have done : Ext2.dirRemove dev inode r.inode = .ok (writeInode dev₁ inode.index stored, stored) := by
    rw [Ext2.dirRemove]
    rw [List.flatMap_nil, List.length_nil, List.nil_append] at loop
    simp only [loop, slot, bind, Except.bind]
    rw [← hn, eq]
    rfl
  have chunk : (before.flatMap Record.bytes).length % blockBytes + r.gone.entry.encode.length ≤ blockBytes := by
    rw [length_encodeEntry]
    exact h.headers before r after split
  have slot_mem : inode.slot ((before.flatMap Record.bytes).length / blockBytes) ∈ inode.links := by
    apply Inode.slot_mem h.len
    have covered := h.covered
    simp only [blockBytes] at *
    omega
  have first : Outside dev dev₁ ∅ {b | b ∈ inode.links} :=
    (Outside.of_write chunk).mono (Set.Subset.refl _) (Set.singleton_subset_iff.mpr slot_mem)
  have second : Outside dev₁ (writeInode dev₁ inode.index stored) {inode.index} ∅ := Outside.of_writeInode low
  have stays : stored.Fits := by
    rw [eq, hn]
    exact fits.setDirLen (Nat.mod_lt _ (by decide))
  rw [← eq]
  refine ⟨_, done, ?_, ?_, readInode_writeInode stays, ?_⟩
  · exact (SameMaps.of_write (data_addr _ _)).trans (SameMaps.of_write (block_lt_table inode.index))
  · exact (first.mono (Set.empty_subset _) (Set.Subset.refl _)).trans
      (second.mono (Set.Subset.refl _) (Set.empty_subset _))
  · rw [eq] at second ⊢
    refine (h.gone split ?_).setDirLen
    rw [second.contents_eq h.len h.covered fun b _ => Set.notMem_empty b]
    exact h.contents_gone distinct split

end Laid

theorem exists_first (mem : r ∈ records) (live : r.Live) :
    ∃ before x after, records = before ++ x :: after ∧ x.To r.inode ∧ ∀ y ∈ before, ¬y.To r.inode := by
  cases found : records.find? (·.To r.inode) with
  | none =>
    have absent := List.find?_eq_none.mp found r mem
    exact absurd (decide_eq_true ⟨live, rfl⟩) absent
  | some x =>
    obtain ⟨names, before, after, split, first⟩ := List.find?_eq_some_iff_append.mp found
    exact ⟨before, x, after, split, of_decide_eq_true names, fun y mem => by simpa using first y mem⟩

/-! ### Runs on one directory -/

/-- A call of `ext2_create_entry` or of `ext2_dir_remove`. -/
inductive DirCall where
  | create (r : Record)
  | remove (index : Nat)

/-- The first live record of the inode is removed. -/
def removeFirst (index : Nat) : List Record → List Record
  | [] => []
  | r :: records => if r.To index then r.gone :: records else r :: removeFirst index records

namespace DirCall

def perform (dir : Device × Inode) : DirCall → Except Fault (Device × Inode)
  | create r => createEntry dir.1 dir.2 r.inode r.name r.type
  | remove index => dirRemove dir.1 dir.2 index

def apply (records : List Record) : DirCall → List Record
  | create r => records ++ [r]
  | remove index => removeFirst index records

/-- A live entry that leaves the directory in its first block, or a removal that has a record to remove. -/
def Allowed (records : List Record) : DirCall → Prop
  | create r => (r.Live ∧ 0 ∉ r.name ∧ r.inode < 2 ^ 31 ∧ r.type < 2 ^ 32) ∧
      ((records ++ [r]).flatMap Record.bytes).length ≤ blockBytes
  | remove index => ∃ r ∈ records, r.To index

instance (records : List Record) : (call : DirCall) → Decidable (call.Allowed records)
  | create _ => inferInstanceAs (Decidable (_ ∧ _))
  | remove index => inferInstanceAs (Decidable (∃ r ∈ records, r.To index))

end DirCall

def Permitted : List Record → List DirCall → Prop
  | _, [] => True
  | records, call :: calls => call.Allowed records ∧ Permitted (call.apply records) calls

/-- The records fill the directory, their number is counted, and a lookup finds the first live one of a name. -/
structure DirRight (dev : Device) (inode : Inode) (records : List Record) : Prop where
  listed : Listed dev inode records
  dirLen : inode.dirLen = records.countP (·.Live)
  lookup : ∀ name, 0 ∉ name → dirLookup dev inode name = .ok (named records name)

/-- A directory in its first block, between two calls. -/
structure SmallDir (dev : Device) (inode : Inode) (records : List Record) : Prop where
  laid : Laid dev inode records
  sized : Sized inode
  marked : Marked dev inode
  dirLen : inode.dirLen = records.countP (·.Live)
  block : inode.size ≤ blockBytes

theorem removeFirst_eq (names : r.To t) (none : ∀ x ∈ before, ¬x.To t) :
    removeFirst t (before ++ r :: after) = before ++ r.gone :: after := by
  induction before with
  | nil => rw [List.nil_append, removeFirst, if_pos names, List.nil_append]
  | cons x before ih =>
    rw [List.cons_append, removeFirst, if_neg (none x List.mem_cons_self),
      ih fun y mem => none y (List.mem_cons_of_mem x mem), List.cons_append]

theorem named_append (found : named records name ≠ -1) : named (records ++ [r]) name = named records name := by
  unfold named at found ⊢
  rw [List.find?_append]
  cases first : records.find? fun r => r.Names name with
  | none =>
    rw [first] at found
    exact absurd rfl found
  | some x => rfl

theorem dataWrite_done (buf : List Byte) (sized : Sized inode) (marked : Marked dev inode) (some : buf ≠ [])
    (chunk : inode.size % blockBytes + buf.length ≤ blockBytes)
    (fits : inode.size + buf.length ≤ linkSlots * blockBytes)
    (room : Room dev inode inode.size buf.length) :
    ∃ dev' inode', dataWrite dev inode buf inode.size = .ok (dev', inode') ∧ Appended dev inode buf dev' inode' :=
  ⟨_, _, dataWrite_eq sized.len fits room, dataWrite_appended sized marked some chunk fits
    (dataWrite_eq sized.len fits room)⟩

theorem Sized.setDirLen (h : Sized inode) (small : n < 2 ^ 32) : Sized (inode.setDirLen n) :=
  ⟨h.low, h.len, h.filled, h.distinct, h.fits.setDirLen small⟩

namespace SmallDir

theorem right (h : SmallDir dev inode records) : DirRight dev inode records :=
  ⟨h.laid.toListed, h.dirLen, fun _ plain => h.laid.dirLookup plain⟩

theorem createEntry (h : SmallDir dev inode records) (fits : inode.size + r.bytes.length ≤ blockBytes)
    (free : inode.len = 0 → freeBits dev dmap ≠ []) :
    ∃ dev' inode', createEntry dev inode r.inode r.name r.type = .ok (dev', inode') ∧
      Appended dev inode.count r.bytes dev' inode' := by
  have length := r.length_bytes
  have filled := h.sized.filled
  have sixteen : r.entry.encode.length = entryBytes := length_encodeEntry _
  have size : inode.count.size = inode.size := rfl
  simp only [blocks, entryBytes, blockBytes] at *
  have room : Room dev inode.count inode.count.size r.entry.encode.length := by
    by_cases empty : inode.len = 0
    · right
      have some := List.length_pos_of_ne_nil (free empty)
      rw [sixteen]
      exact some
    · left
      show inode.size < inode.len * 1024
      omega
  obtain ⟨dev₁, inode₁, first, one⟩ :=
    dataWrite_done r.entry.encode h.sized.count h.marked (by rw [← List.length_pos_iff, sixteen]; decide)
    (by rw [size, sixteen]; simp only [blockBytes]; omega)
      (by rw [size, sixteen]; simp only [linkSlots, blockBytes]; omega) room
  have size₁ : inode₁.size = inode.size + 16 := by
    rw [one.size, sixteen]
    rfl
  have filled₁ := one.sized.filled
  have name : (r.name ++ [0]).length = r.name.length + 1 := by simp
  simp only [blocks, blockBytes] at filled₁
  obtain ⟨dev₂, inode₂, second, two⟩ := dataWrite_done (r.name ++ [0]) one.sized one.marked (by simp)
    (by rw [size₁, name]; simp only [blockBytes]; omega) (by rw [size₁, name]; simp only [linkSlots, blockBytes]; omega)
    (.inl (by rw [size₁]; simp only [blockBytes]; omega))
  refine ⟨dev₂, inode₂, ?_, one.trans two⟩
  rw [Ext2.createEntry]
  show (dataWrite dev inode.count r.entry.encode inode.count.size >>=
    fun x => dataWrite x.1 x.2 (r.name ++ [0]) x.2.size) = _
  rw [first]
  exact second

theorem count_le (h : SmallDir dev inode records) : records.countP (·.Live) ≤ blockBytes := by
  have bytes := length_le_bytes records
  rw [← h.laid.size_eq] at bytes
  exact (List.countP_le_length.trans bytes).trans h.block

theorem append (h : SmallDir dev inode records) (live : r.Live)
    (plain : 0 ∉ r.name ∧ r.inode < 2 ^ 31 ∧ r.type < 2 ^ 32)
    (fits : inode.size + r.bytes.length ≤ blockBytes) (done : Appended dev inode.count r.bytes dev' inode') :
    SmallDir dev' inode' (records ++ [r]) where
  laid := by
    refine h.laid.append ?_ plain done
    rw [r.length_bytes] at fits
    simp only [blockBytes, entryBytes] at *
    omega
  sized := done.sized
  marked := done.marked
  dirLen := by
    have bound := h.count_le
    rw [done.dirLen, Inode.count, h.dirLen, List.countP_append, List.countP_singleton, decide_eq_true live, if_pos rfl]
    simp only [blockBytes] at bound
    exact Nat.mod_eq_of_lt (by omega)
  block := by
    rw [done.size]
    exact fits

theorem create (h : SmallDir dev inode records) (free : inode.len = 0 → freeBits dev dmap ≠ [])
    (allowed : (DirCall.create r).Allowed records) :
    ∃ dev' inode', Ext2.createEntry dev inode r.inode r.name r.type = .ok (dev', inode') ∧
      SmallDir dev' inode' (records ++ [r]) := by
  obtain ⟨⟨live, plain⟩, room⟩ := allowed
  rw [List.flatMap_append, List.length_append, ← h.laid.size_eq, List.flatMap_singleton] at room
  obtain ⟨dev', inode', done, appended⟩ := h.createEntry room free
  exact ⟨dev', inode', done, h.append live plain room appended⟩

theorem remove (h : SmallDir dev inode records) (some : ∃ r ∈ records, r.To t) :
    ∃ dev' inode', Ext2.dirRemove dev inode t = .ok (dev', inode') ∧ SmallDir dev' inode' (removeFirst t records) := by
  obtain ⟨x, mem, live, rfl⟩ := some
  obtain ⟨before, r, after, split, names, first⟩ := exists_first mem live
  rw [← names.2] at first ⊢
  obtain ⟨n, hn⟩ : ∃ n, n = (inode.dirLen + (2 ^ 32 - 1)) % 2 ^ 32 := ⟨_, rfl⟩
  obtain ⟨dev', done, maps, -, -, laid⟩ :=
    h.laid.dirRemove h.sized.distinct h.sized.low h.sized.fits split names.1 first hn
  have small : n < 2 ^ 32 := by
    rw [hn]
    exact Nat.mod_lt _ (by decide)
  have count : n = (before ++ r.gone :: after).countP (·.Live) := by
    have counted : (before ++ r.gone :: after).countP (·.Live) + 1 = (before ++ r :: after).countP (·.Live) :=
      countP_gone names.1
    have dirLen := h.dirLen
    have bound := h.count_le
    simp only [split, blockBytes] at dirLen bound
    omega
  have marked : Marked dev' (inode.setDirLen n) := fun b mem =>
    ⟨(h.marked b mem).1, (maps.readMap (by decide) (h.marked b mem).1).trans (h.marked b mem).2⟩
  refine ⟨dev', _, done, ?_⟩
  rw [split, removeFirst_eq ⟨names.1, rfl⟩ first]
  exact ⟨laid, h.sized.setDirLen small, marked, count, h.block⟩

theorem len_ne_zero (h : SmallDir dev inode records) (some : records ≠ []) : inode.len ≠ 0 := by
  have filled := h.sized.filled
  have bytes := length_le_bytes records
  have pos := List.length_pos_of_ne_nil some
  rw [← h.laid.size_eq] at bytes
  simp only [blocks, blockBytes] at filled
  omega

theorem apply_ne_nil {call : DirCall} (allowed : call.Allowed records) : call.apply records ≠ [] := by
  cases call with
  | create r => simp [DirCall.apply]
  | remove index =>
    obtain ⟨r, mem, -⟩ := allowed
    cases records with
    | nil => cases mem
    | cons x records =>
      rw [DirCall.apply, removeFirst]
      split <;> simp

theorem step {call : DirCall} (h : SmallDir dev inode records) (free : inode.len = 0 → freeBits dev dmap ≠ [])
    (allowed : call.Allowed records) :
    ∃ dev' inode', call.perform (dev, inode) = .ok (dev', inode') ∧ SmallDir dev' inode' (call.apply records) := by
  cases call with
  | create r => exact h.create free allowed
  | remove index => exact h.remove allowed

theorem run {calls : List DirCall} (h : SmallDir dev inode records)
    (free : inode.len = 0 → calls ≠ [] → freeBits dev dmap ≠ []) (permitted : Permitted records calls) :
    ∃ dev' inode', calls.foldlM DirCall.perform (dev, inode) = .ok (dev', inode') ∧
      SmallDir dev' inode' (calls.foldl DirCall.apply records) := by
  induction calls generalizing dev inode records with
  | nil => exact ⟨dev, inode, rfl, h⟩
  | cons call calls ih =>
    obtain ⟨allowed, permitted⟩ := permitted
    obtain ⟨dev₁, inode₁, first, h₁⟩ := h.step (fun empty => free empty (List.cons_ne_nil call calls)) allowed
    have block := h₁.len_ne_zero (apply_ne_nil allowed)
    obtain ⟨dev', inode', rest, h'⟩ := ih h₁ (fun empty => absurd empty block) permitted
    refine ⟨dev', inode', ?_, h'⟩
    rw [List.foldlM_cons, first]
    exact rest

theorem empty (low : inode.index < 80) (fits : inode.Fits) (fresh : inode.size = 0 ∧ inode.len = 0 ∧ inode.dirLen = 0) :
    SmallDir dev inode [] := by
  obtain ⟨size, len, dirLen⟩ := fresh
  have links : inode.links = [] := by simp [Inode.links, len]
  refine ⟨⟨⟨?_, ?_, ?_, ?_⟩, ?_⟩, ⟨low, ?_, ?_, ?_, fits⟩, ?_, dirLen, ?_⟩
  · rw [len]
    exact Nat.zero_le _
  · rw [size]
    exact Nat.zero_le _
  · rw [contents, size]
    rfl
  · intro r mem
    cases mem
  · intro before r rest split
    simp at split
  · rw [len]
    exact Nat.zero_le _
  · rw [len, size]
    rfl
  · rw [links]
    exact List.nodup_nil
  · intro b mem
    rw [links] at mem
    cases mem
  · rw [size]
    exact Nat.zero_le _

/-- An entry that is appended hides no other. -/
theorem keeps (h : SmallDir dev inode records) (allowed : (DirCall.create r).Allowed records)
    (done : Ext2.createEntry dev inode r.inode r.name r.type = .ok (dev', inode')) (plain : 0 ∉ name) {v : Int}
    (found : dirLookup dev inode name = .ok v) (some : v ≠ -1) : dirLookup dev' inode' name = .ok v := by
  obtain ⟨⟨live, fields⟩, room⟩ := allowed
  rw [List.flatMap_append, List.length_append, ← h.laid.size_eq, List.flatMap_singleton] at room
  have fits : EntryFits inode r.name := by
    have length := r.length_bytes
    simp only [EntryFits, blockBytes, entryBytes, linkSlots] at *
    omega
  have appended := h.append live fields room (createEntry_appended h.sized h.marked fits done)
  rw [h.laid.dirLookup plain] at found
  obtain rfl := Except.ok.inj found
  rw [appended.laid.dirLookup plain, named_append some]

end SmallDir

/-- Every run of calls on an empty directory succeeds as long as it stays in one block, and leaves the records of the
calls; an entry that is appended changes no lookup that succeeded. -/
theorem directory_run (dev : Device) (inode : Inode) (low : inode.index < 80) (fits : inode.Fits)
    (fresh : inode.size = 0 ∧ inode.len = 0 ∧ inode.dirLen = 0) (calls : List DirCall)
    (free : calls ≠ [] → ∃ b, freeMap dev dmap = some b) (permitted : Permitted [] calls) :
    ∃ dev' inode', calls.foldlM DirCall.perform (dev, inode) = .ok (dev', inode') ∧
      DirRight dev' inode' (calls.foldl DirCall.apply []) ∧
      ∀ r dev'' inode'', (DirCall.create r).Allowed (calls.foldl DirCall.apply []) →
        createEntry dev' inode' r.inode r.name r.type = .ok (dev'', inode'') →
        ∀ name v, 0 ∉ name → dirLookup dev' inode' name = .ok v → v ≠ -1 → dirLookup dev'' inode'' name = .ok v := by
  have room (_ : inode.len = 0) (some : calls ≠ []) : freeBits dev dmap ≠ [] := by
    obtain ⟨b, first⟩ := free some
    rw [freeMap_eq] at first
    rintro none
    rw [none] at first
    cases first
  obtain ⟨dev', inode', done, dir⟩ := (SmallDir.empty low fits fresh).run room permitted
  exact ⟨dev', inode', done, dir.right, fun r dev'' inode'' allowed appended name v plain found some =>
    dir.keeps allowed appended plain found some⟩

def freshDir : Inode := ⟨1, DR, 7, 0, 0, 1, 0, 1, Vector.replicate linkSlots 0⟩

theorem freshDir_fits : freshDir.Fits := by
  refine ⟨?_, ?_, ?_, ?_, ?_, ?_, ?_, ?_, fun b mem => ?_⟩
  case refine_9 =>
    rw [List.eq_of_mem_replicate (show b ∈ List.replicate linkSlots 0 from mem)]
    decide
  all_goals decide

/-- "a" and "b" are entered, and "a" is removed. -/
theorem directory_run_sample :
    let calls := [DirCall.create ⟨2, [97], NF⟩, .create ⟨3, [98], NF⟩, .remove 2]
    let dev : Device := fun _ => 0
    ∃ dev' inode', calls.foldlM DirCall.perform (dev, freshDir) = .ok (dev', inode') ∧
      DirRight dev' inode' (calls.foldl DirCall.apply []) ∧
      ∀ r dev'' inode'', (DirCall.create r).Allowed (calls.foldl DirCall.apply []) →
        createEntry dev' inode' r.inode r.name r.type = .ok (dev'', inode'') →
        ∀ name v, 0 ∉ name → dirLookup dev' inode' name = .ok v → v ≠ -1 → dirLookup dev'' inode'' name = .ok v :=
  directory_run (fun _ => 0) freshDir (by decide) freshDir_fits (by decide) _ (fun _ => ⟨0, by decide +kernel⟩)
    ⟨by decide, by decide, by decide, trivial⟩

end OsLabs.Ext2

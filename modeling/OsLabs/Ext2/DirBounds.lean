import OsLabs.Ext2.Bounds

/-!
# Directories and paths inside the device

A directory is read record by record. Its headers and its names each lie in one
block, so what the loops read raw stays in the blocks of the directory.
-/

namespace OsLabs.Ext2.Rd
open Util Program

variable {n k d fuel offset : Nat} {dev dev' : Device} {inode inode' : Inode} {name post : List Byte}
  {records before rest es : List Record} {r : Record} {parent : Nat → Nat} {entries : Nat → List Record}

/-! ### Names in one block -/

/-- Behind the header of every record, from offset `a` on, its name stays in one block. -/
def NamesFit : Nat → List Record → Prop
  | _, [] => True
  | a, r :: rest => (a + entryBytes) % blockBytes + (r.name.length + 1) ≤ blockBytes ∧
      NamesFit (a + r.bytes.length) rest

theorem namesFit_append {a : Nat} :
    NamesFit a (before ++ rest) ↔ NamesFit a before ∧ NamesFit (a + (before.flatMap Record.bytes).length) rest := by
  induction before generalizing a with
  | nil => simp [NamesFit]
  | cons r before ih =>
    simp only [List.cons_append, NamesFit, ih, List.flatMap_cons, List.length_append, Nat.add_assoc, and_assoc]

/-- The entries of a directory, behind its own two records. -/
def FolderFits (es : List Record) : Prop := NamesFit 0 (folderRecords 0 0 es)

theorem folderFits_iff {parent : Nat} : FolderFits es ↔ NamesFit 0 (folderRecords k parent es) := Iff.rfl

theorem folderFits_nil : FolderFits [] := by
  refine ⟨?_, ?_, trivial⟩ <;> decide

theorem FolderFits.gone (h : FolderFits (before ++ r :: rest)) : FolderFits (before ++ r.gone :: rest) := by
  have split (x : Record) : folderRecords 0 0 (before ++ x :: rest) = folderRecords 0 0 before ++ x :: rest := rfl
  rw [FolderFits, split] at *
  rw [namesFit_append] at *
  exact h

theorem FolderFits.append {parent : Nat} (h : FolderFits es) (folder : Folder dev k parent es)
    (fits : EntryFits (Ext2.readInode dev k) r.name) : FolderFits (es ++ [r]) := by
  have split : folderRecords k parent (es ++ [r]) = folderRecords k parent es ++ [r] := rfl
  rw [@folderFits_iff k _ parent, split, namesFit_append]
  refine ⟨h, ?_, trivial⟩
  rw [Nat.zero_add, ← folder.listed.size_eq]
  exact fits.2.1

/-! ### Lookups -/

section

variable (cap : Capacity n)
include cap

theorem lookupLoop_within (h : Listed dev inode records) (owned : ∀ b ∈ inode.links, OnDisk n b)
    {cur : Option (List Byte)}
    (split : records = before ++ rest) (full : ∀ old, cur = some old → old.length = entryBytes) :
    Within (Transfer.Inside n) (lookupLoop inode name fuel cur (before.flatMap Record.bytes).length) dev := by
  induction fuel generalizing before rest cur with
  | zero => exact within_stop
  | succ fuel ih =>
    cases rest with
    | nil =>
      have done : ¬(before.flatMap Record.bytes).length < inode.size := by
        rw [h.size_eq, split, List.append_nil]
        omega
      rw [lookupLoop, if_neg done]
      exact within_pure
    | cons r rest =>
      have inside := h.inside split
      have split' : records = (before ++ [r]) ++ rest := by rw [split]; simp
      have later (cur : List Byte) (length : cur.length = entryBytes) : Within (Transfer.Inside n)
          (lookupLoop inode name fuel (some cur) (((before.flatMap Record.bytes).length + r.entry.recLen) % 2 ^ 32))
            dev := by
        rw [h.next split]
        exact ih split' fun old same => Option.some.inj same ▸ length
      rw [lookupLoop, if_pos (by omega)]
      split
      · exact within_stop
      refine (dataRead_computes _ _ _).within_bind.mpr
        ⟨dataRead_within cap h.len h.covered owned (by omega), fun bytes read => ?_⟩
      rw [h.read_entry split] at read
      obtain rfl := Except.ok.inj read
      refine (Computes.lift _).within_bind.mpr ⟨within_lift, fun cur' overlaid => ?_⟩
      have taken : cur' = r.entry.encode := by
        cases cur with
        | none =>
          rw [overlay, if_pos (length_encodeEntry _)] at overlaid
          exact (Except.ok.inj overlaid).symm
        | some old =>
          rw [overlay, List.drop_of_length_le (by rw [full old rfl, length_encodeEntry]), List.append_nil] at overlaid
          exact (Except.ok.inj overlaid).symm
      have next := later cur' (by rw [taken, length_encodeEntry])
      have nameLen : r.entry.nameLen = r.name.length + 1 := rfl
      rw [taken] at next
      simp only [taken, h.decode split]
      split
      · exact next
      split
      · exact within_stop
      rw [nameLen]
      refine (dataRead_computes _ _ _).within_bind.mpr
        ⟨dataRead_within cap h.len h.covered owned (by omega), fun bytes _ => ?_⟩
      refine (Computes.lift _).within_bind.mpr ⟨within_lift, fun same _ => ?_⟩
      split
      · exact within_pure
      · exact next

theorem dirLookup_within (h : Listed dev inode records) (owned : ∀ b ∈ inode.links, OnDisk n b) :
    Within (Transfer.Inside n) (dirLookup inode name) dev :=
  @lookupLoop_within n (inode.size + 1) dev inode name records [] records cap h owned none rfl
    fun _ none => nomatch none

omit cap in
theorem dirLookup_empty (empty : inode.size = 0) : Within (Transfer.Inside n) (dirLookup inode name) dev := by
  rw [dirLookup, lookupLoop, if_neg (by omega)]
  exact within_pure

/-! ### Raw reads -/

theorem readEntry_within (h : Laid dev inode records) (owned : ∀ b ∈ inode.links, OnDisk n b)
    (split : records = before ++ r :: rest) :
    Within (Transfer.Inside n) (readEntry inode (before.flatMap Record.bytes).length) dev := by
  have inside := h.inside split
  have header := h.headers before r rest split
  refine (Computes.lift _).within_bind.mpr ⟨within_lift, fun b link => ?_⟩
  have on_slot := slot_on_disk h.len h.covered owned (h.header split).1
  rw [linkAt_slot link]
  exact (read_computes _ _).within_next.mpr ⟨read_within cap (by omega), within_pure⟩

theorem removeLoop_within (h : Laid dev inode records) (owned : ∀ b ∈ inode.links, OnDisk n b) {index : Nat}
    {cur : Option Entry}
    (split : records = before ++ rest) :
    Within (Transfer.Inside n) (removeLoop inode index fuel cur (before.flatMap Record.bytes).length) dev := by
  induction fuel generalizing before rest cur with
  | zero => exact within_stop
  | succ fuel ih =>
    cases rest with
    | nil =>
      have done : ¬(before.flatMap Record.bytes).length < inode.size := by
        rw [h.size_eq, split, List.append_nil]
        omega
      rw [removeLoop, if_neg done]
      exact within_pure
    | cons r rest =>
      obtain ⟨inside, slot, decoded⟩ := h.header split
      have split' : records = (before ++ [r]) ++ rest := by rw [split]; simp
      rw [removeLoop, if_pos inside]
      refine (readEntry_computes _ _).within_bind.mpr ⟨readEntry_within cap h owned split, fun e read => ?_⟩
      simp only [slot, ok_bind, decoded, Except.ok.injEq] at read
      subst read
      split
      · exact within_pure
      · rw [h.next split]
        exact ih split'

/-- The header that is written back is that of a record. -/
theorem dirRemove_within (h : Laid dev inode records) (owned : ∀ b ∈ inode.links, OnDisk n b) (low : inode.index < 80)
    (split : records = before ++ r :: rest) (live : r.Live) (none : ∀ x ∈ before, ¬x.To r.inode) :
    Within (Transfer.Inside n) (dirRemove inode r.inode) dev := by
  have enough : before.length < inode.size + 1 := by
    have bytes := length_le_bytes records
    rw [← h.size_eq, split, List.length_append] at bytes
    omega
  have loop :=
    @Laid.removeLoop dev inode records [] before rest r (inode.size + 1) r.inode h .none ⟨live, rfl⟩ none split enough
  have scan := @removeLoop_within n (inode.size + 1) dev inode records [] records cap h owned r.inode .none rfl
  rw [List.flatMap_nil, List.length_nil] at loop scan
  refine (removeLoop_computes _ _ _ _).within_bind.mpr ⟨scan, fun found same => ?_⟩
  rw [loop] at same
  rw [← Except.ok.inj same]
  have inside := h.inside split
  have header := h.headers before r rest split
  have on_slot := slot_on_disk h.len h.covered owned (h.header split).1
  refine Program.within_bind.mpr ⟨writeChunk_within cap ?_, fun dev₁ _ _ => ?_⟩
  · rw [length_encodeEntry, List.nil_append]
    omega
  · exact Program.within_bind.mpr ⟨writeInode_within cap low, fun _ _ _ => within_pure⟩

theorem listLoop_within (h : Laid dev inode records) (owned : ∀ b ∈ inode.links, OnDisk n b)
    (names : NamesFit 0 records)
    {fileOffset cnt size ret bufOffset : Nat} {buf : List Byte} (split : records = before ++ rest)
    (counted : inode.dirLen = cnt + rest.countP (·.Live)) :
    Within (Transfer.Inside n)
    (listLoop inode fileOffset fuel cnt size (before.flatMap Record.bytes).length ret bufOffset buf)
      dev := by
  induction fuel generalizing before rest cnt size ret bufOffset buf with
  | zero => exact within_stop
  | succ fuel ih =>
    by_cases more : cnt < inode.dirLen ∧ size ≠ 0
    · cases rest with
      | nil =>
        rw [List.countP_nil] at counted
        omega
      | cons r rest =>
        obtain ⟨inside, slot, decoded⟩ := h.header split
        have split' : records = (before ++ [r]) ++ rest := by rw [split]; simp
        rw [listLoop, if_pos more]
        refine (readEntry_computes _ _).within_bind.mpr ⟨readEntry_within cap h owned split, fun e read => ?_⟩
        simp only [slot, ok_bind, decoded, Except.ok.injEq] at read
        subst read
        have type : r.entry.fileType = r.type := rfl
        have nameLen : r.entry.nameLen = r.name.length + 1 := rfl
        simp only [h.next split, type, nameLen]
        split
        · rename_i gone
          have live : ¬r.Live := fun live => live gone
          rw [List.countP_cons_of_neg (by simpa using live)] at counted
          exact ih split' counted
        rename_i live
        have alive : r.Live := live
        rw [List.countP_cons_of_pos (by simpa using alive)] at counted
        refine (Computes.lift _).within_bind.mpr ⟨within_lift, fun b link => ?_⟩
        have whole := h.inside split
        have room : ((before.flatMap Record.bytes).length + entryBytes) % blockBytes + (r.name.length + 1) ≤
            blockBytes := by
          rw [split, namesFit_append] at names
          simpa using names.2.1
        have on_slot := slot_on_disk h.len h.covered owned
          (show (before.flatMap Record.bytes).length + entryBytes < inode.size by omega)
        rw [linkAt_slot link]
        refine (read_computes _ _).within_next.mpr ⟨read_within cap (by omega), ?_⟩
        split
        · refine (Computes.lift _).within_bind.mpr ⟨within_lift, fun len _ => ?_⟩
          refine (Computes.lift _).within_bind.mpr ⟨within_lift, fun copy _ => ?_⟩
          refine (Computes.lift _).within_bind.mpr ⟨within_lift, fun line _ => ?_⟩
          exact ih split' (by omega)
        · exact ih split' (by omega)
    · rw [listLoop, if_neg more]
      exact within_pure

theorem inodeList_within {file : File} {size : Nat} {buf : List Byte} (h : Laid dev file.inode.fsInode records)
    (owned : ∀ b ∈ file.inode.fsInode.links, OnDisk n b) (names : NamesFit 0 records)
    (counted : file.inode.fsInode.dirLen = records.countP (·.Live)) :
    Within (Transfer.Inside n) (inodeList file buf size) dev := by
  refine (listLoop_computes _ _ _ _ _ _ _ _).within_bind.mpr ⟨?_, fun done _ => ?_⟩
  · exact @listLoop_within n _ dev file.inode.fsInode records [] records cap h owned names _ 0 size 0 0 buf rfl
      (by rw [counted, Nat.zero_add])
  · exact (Computes.lift _).within_bind.mpr ⟨within_lift, fun _ _ => within_pure⟩

end

end OsLabs.Ext2.Rd

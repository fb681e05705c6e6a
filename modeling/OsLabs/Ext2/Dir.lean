import OsLabs.Ext2.Read
import OsLabs.Util.Path

/-!
# Directories

`ext2_create_entry`, `ext2_dir_lookup` and `ext2_dir_remove`. A directory is a file
of records: a `dir_entry_t` and then the name with its NUL. A lookup in a
directory that is a list of records returns the first live one of that name.
-/

namespace OsLabs.Ext2
open Util

structure Entry where
  inode : Nat
  recLen : Nat
  nameLen : Nat
  fileType : Nat
  deriving DecidableEq

def entryBytes : Nat := 16

def Entry.encode (e : Entry) : List Byte :=
  encodeLE 4 e.inode ++ (encodeLE 4 e.recLen ++ (encodeLE 4 e.nameLen ++ encodeLE 4 e.fileType))

def Entry.decode (bs : List Byte) : Entry where
  inode := decodeLE (bs.take 4)
  recLen := decodeLE ((bs.drop 4).take 4)
  nameLen := decodeLE ((bs.drop 8).take 4)
  fileType := decodeLE ((bs.drop 12).take 4)

def asInt (x : Nat) : Int := (x : Int).bmod (2 ^ 32)

/-! ### Operations -/

def createEntry (dev : Device) (inode : Inode) (entryInode : Nat) (entryName : List Byte) (type : Nat) :
    Except Fault (Device × Inode) := do
  let dir : Entry := {
    inode := entryInode
    recLen := entryBytes + (entryName.length + 1)
    nameLen := entryName.length + 1
    fileType := type }
  let inode := { inode with dirLen := (inode.dirLen + 1) % 2 ^ 32 }
  let (dev, inode) ← dataWrite dev inode dir.encode inode.size
  dataWrite dev inode (entryName ++ [0]) inode.size

/-- What a read of fewer than 16 bytes leaves in `cur`. -/
def overlay (cur : Option (List Byte)) (bytes : List Byte) : Except Fault (List Byte) :=
  match cur with
  | some old => .ok (bytes ++ old.drop bytes.length)
  | none => if bytes.length = entryBytes then .ok bytes else .error .unread

/-- `strcmp(name, tmp_name) == 0`, where `bytes` are what was read into `tmp_name`. -/
def sameName (name bytes : List Byte) : Except Fault Bool :=
  if (name ++ [0]).isPrefixOf bytes then .ok true
  else if bytes.isPrefixOf (name ++ [0]) then .error .unread
  else .ok false

def lookupLoop (dev : Device) (inode : Inode) (name : List Byte) : Nat → Option (List Byte) → Nat → Except Fault Int
  | 0, _, _ => .error .diverges
  | fuel + 1, cur, offset =>
    if offset < inode.size then do
      if 2 ^ 31 ≤ offset then .error .bounds
      else
        let cur ← overlay cur (← dataRead dev inode entryBytes offset)
        let e := Entry.decode cur
        let next := lookupLoop dev inode name fuel (some cur) ((offset + e.recLen) % 2 ^ 32)
        if e.fileType = XX then next
        else if 2 ^ 31 ≤ e.nameLen then .error .bounds
        else if ← sameName name (← dataRead dev inode e.nameLen (offset + entryBytes)) then .ok (asInt e.inode)
        else next
    else .ok (-1)

def dirLookup (dev : Device) (inode : Inode) (name : List Byte) : Except Fault Int :=
  lookupLoop dev inode name (inode.size + 1) none 0

/-- The loop of `ext2_dir_remove`: the entry in `cur` and the offset where it stops. -/
def removeLoop (dev : Device) (inode : Inode) (index : Nat) : Nat → Option Entry → Nat →
    Except Fault (Option Entry × Nat)
  | 0, _, _ => .error .diverges
  | fuel + 1, cur, offset =>
    if offset < inode.size then do
      let b ← inode.linkAt (offset / blockBytes)
      let e := Entry.decode (dev.read (data b + offset % blockBytes) entryBytes)
      if e.inode = index ∧ e.fileType ≠ XX then .ok (some { e with fileType := XX }, offset)
      else removeLoop dev inode index fuel (some e) ((offset + e.recLen) % 2 ^ 32)
    else .ok (cur, offset)

def dirRemove (dev : Device) (inode : Inode) (index : Nat) : Except Fault (Device × Inode) := do
  match ← removeLoop dev inode index (inode.size + 1) none 0 with
  | (none, _) => .error .unread
  | (some e, offset) =>
    let b ← inode.linkAt (offset / blockBytes)
    let dev := dev.write (data b + offset % blockBytes) e.encode
    let inode := { inode with dirLen := (inode.dirLen + (2 ^ 32 - 1)) % 2 ^ 32 }
    .ok (writeInode dev inode.index inode, inode)

/-! ### Records -/

structure Record where
  inode : Nat
  name : List Byte
  type : Nat
  deriving DecidableEq

namespace Record

def entry (r : Record) : Entry := ⟨r.inode, entryBytes + (r.name.length + 1), r.name.length + 1, r.type⟩

def bytes (r : Record) : List Byte := r.entry.encode ++ (r.name ++ [0])

def Valid (r : Record) : Prop := Component r.name ∧ r.inode < 2 ^ 31 ∧ r.type < 2 ^ 32

instance (r : Record) : Decidable r.Valid := inferInstanceAs (Decidable (_ ∧ _ ∧ _))

def Names (name : List Byte) (r : Record) : Prop := r.type ≠ XX ∧ r.name = name

instance (name : List Byte) (r : Record) : Decidable (r.Names name) := inferInstanceAs (Decidable (_ ∧ _))

end Record

def contents (dev : Device) (inode : Inode) : List Byte := (List.range inode.size).map (byteAt dev inode)

/-- The file is these records, whatever their names. -/
structure Listed (dev : Device) (inode : Inode) (records : List Record) : Prop where
  len : inode.len ≤ linkSlots
  covered : inode.size ≤ inode.len * blockBytes
  content : contents dev inode = records.flatMap Record.bytes
  plain : ∀ r ∈ records, 0 ∉ r.name ∧ r.inode < 2 ^ 31 ∧ r.type < 2 ^ 32

/-- The file is the directory of these records. -/
structure IsDir (dev : Device) (inode : Inode) (records : List Record) : Prop where
  len : inode.len ≤ linkSlots
  covered : inode.size ≤ inode.len * blockBytes
  content : contents dev inode = records.flatMap Record.bytes
  valid : ∀ r ∈ records, r.Valid

/-- The first live record of the name. -/
def named (records : List Record) (name : List Byte) : Int :=
  match records.find? fun r => r.Names name with
  | some r => r.inode
  | none => -1

variable {dev : Device} {inode : Inode} {records before rest : List Record} {r : Record} {name : List Byte}
  {n offset fuel : Nat}

@[simp] theorem length_encodeEntry (e : Entry) : e.encode.length = entryBytes := by
  simp [Entry.encode, entryBytes]

theorem take_encodeLE {k v : Nat} {tail : List Byte} : (encodeLE k v ++ tail).take k = encodeLE k v := by
  rw [List.take_append_of_le_length (by simp), List.take_of_length_le (by simp)]

theorem drop_encodeLE {k v : Nat} {tail : List Byte} : (encodeLE k v ++ tail).drop k = tail := by
  rw [List.drop_append_of_le_length (by simp), List.drop_of_length_le (by simp), List.nil_append]

theorem decode_encode {e : Entry} (inode : e.inode < 2 ^ 32) (recLen : e.recLen < 2 ^ 32) (nameLen : e.nameLen < 2 ^ 32)
    (fileType : e.fileType < 2 ^ 32) : Entry.decode e.encode = e := by
  have drops : e.encode.drop 8 = encodeLE 4 e.nameLen ++ encodeLE 4 e.fileType ∧
      e.encode.drop 12 = encodeLE 4 e.fileType := by
    have four : e.encode.drop 4 = encodeLE 4 e.recLen ++ (encodeLE 4 e.nameLen ++ encodeLE 4 e.fileType) :=
      drop_encodeLE
    have eight : e.encode.drop 8 = encodeLE 4 e.nameLen ++ encodeLE 4 e.fileType := by
      rw [show 8 = 4 + 4 from rfl, ← List.drop_drop, four, drop_encodeLE]
    refine ⟨eight, ?_⟩
    rw [show 12 = 8 + 4 from rfl, ← List.drop_drop, eight, drop_encodeLE]
  have last : (encodeLE 4 e.fileType).take 4 = encodeLE 4 e.fileType := List.take_of_length_le (by simp)
  have value {v : Nat} (hv : v < 2 ^ 32) : decodeLE (encodeLE 4 v) = v := by
    rw [decodeLE_encodeLE]
    exact Nat.mod_eq_of_lt hv
  rw [Entry.decode, drops.1, drops.2, take_encodeLE, last, Entry.encode, take_encodeLE, drop_encodeLE, take_encodeLE,
    value inode, value recLen, value nameLen, value fileType]

theorem length_contents : (contents dev inode).length = inode.size := by simp [contents]

theorem dataRead_contents (hlen : inode.len ≤ linkSlots) (covered : inode.size ≤ inode.len * blockBytes)
    (inside : offset + n ≤ inode.size) :
    dataRead dev inode n offset = .ok (((contents dev inode).drop offset).take n) := by
  rw [dataRead_inside hlen covered inside]
  congr 1
  apply List.ext_getElem
  · rw [List.length_take, List.length_drop, length_contents, List.length_map, List.length_range]
    omega
  · intro i _ _
    simp [contents]

theorem sameName_eq (plain : 0 ∉ name) {other : List Byte} (plain' : 0 ∉ other) :
    sameName name (other ++ [0]) = .ok (decide (other = name)) := by
  have prefixes {xs ys : List Byte} (hy : 0 ∉ ys) (h : xs ++ [0] <+: ys ++ [0]) : xs = ys := by
    obtain ⟨t, ht⟩ := h
    rcases List.eq_nil_or_concat t with rfl | ⟨t, x, rfl⟩
    · rw [List.append_nil] at ht
      exact List.append_cancel_right ht
    · rw [List.concat_eq_append, ← List.append_assoc] at ht
      have same := List.append_inj_left' ht rfl
      exact absurd (by rw [← same]; simp) hy
  by_cases same : other = name
  · subst same
    simp [sameName]
  · have forward : ¬(name ++ [0] <+: other ++ [0]) := fun h => same (prefixes plain' h).symm
    have backward : ¬(other ++ [0] <+: name ++ [0]) := fun h => same (prefixes plain h)
    simp [sameName, forward, backward, same]

namespace Record

theorem length_bytes (r : Record) : r.bytes.length = entryBytes + (r.name.length + 1) := by
  simp [bytes]

end Record

theorem length_le_bytes (records : List Record) : records.length ≤ (records.flatMap Record.bytes).length := by
  induction records with
  | nil => exact Nat.le_refl 0
  | cons r records ih =>
    rw [List.flatMap_cons, List.length_append, Record.length_bytes, List.length_cons]
    omega

theorem asInt_small {x : Nat} (h : x < 2 ^ 31) : asInt x = x := bmod_small (by omega) (by omega)

section

variable (h : Listed dev inode records)
include h

theorem Listed.size_eq : inode.size = (records.flatMap Record.bytes).length := by
  rw [← h.content, length_contents]

theorem Listed.size_le : inode.size ≤ linkSlots * blockBytes :=
  Nat.le_trans h.covered (Nat.mul_le_mul_right _ h.len)

theorem Listed.drop (split : records = before ++ r :: rest) :
    (contents dev inode).drop (before.flatMap Record.bytes).length = r.bytes ++ rest.flatMap Record.bytes := by
  rw [h.content, split, List.flatMap_append, List.flatMap_cons, List.drop_left]

theorem Listed.inside (split : records = before ++ r :: rest) :
    (before.flatMap Record.bytes).length + (entryBytes + (r.name.length + 1)) ≤ inode.size := by
  rw [h.size_eq, split, List.flatMap_append, List.flatMap_cons, List.length_append, List.length_append,
    Record.length_bytes]
  omega

theorem Listed.read_entry (split : records = before ++ r :: rest) :
    dataRead dev inode entryBytes (before.flatMap Record.bytes).length = .ok r.entry.encode := by
  have inside := h.inside split
  rw [dataRead_contents h.len h.covered (by omega), h.drop split, Record.bytes, List.append_assoc,
    List.take_left' (length_encodeEntry _)]

theorem Listed.read_name (split : records = before ++ r :: rest) :
    dataRead dev inode (r.name.length + 1) ((before.flatMap Record.bytes).length + entryBytes) =
    .ok (r.name ++ [0]) := by
  have inside := h.inside split
  rw [dataRead_contents h.len h.covered (by omega), ← List.drop_drop, h.drop split, Record.bytes, List.append_assoc,
    List.drop_left' (length_encodeEntry _), List.take_left' (by simp)]

theorem Listed.decode (split : records = before ++ r :: rest) : Entry.decode r.entry.encode = r.entry := by
  have inside := h.inside split
  have small := h.size_le
  have valid := h.plain r (by rw [split]; simp)
  simp only [linkSlots, blockBytes] at small
  apply decode_encode
  · show r.inode < _
    have := valid.2.1
    omega
  · show entryBytes + (r.name.length + 1) < _
    omega
  · show r.name.length + 1 < _
    omega
  · exact valid.2.2

theorem Listed.next (split : records = before ++ r :: rest) :
    ((before.flatMap Record.bytes).length + r.entry.recLen) % 2 ^ 32 =
    ((before ++ [r]).flatMap Record.bytes).length := by
  have inside := h.inside split
  have small := h.size_le
  simp only [linkSlots, blockBytes] at small
  rw [List.flatMap_append, List.length_append, List.flatMap_singleton, Record.length_bytes]
  exact Nat.mod_eq_of_lt (by show _ + (entryBytes + (r.name.length + 1)) < _; omega)

theorem Listed.lookupLoop (plain : 0 ∉ name) {cur : Option (List Byte)} (split : records = before ++ rest)
    (full : ∀ old, cur = some old → old.length = entryBytes) (enough : rest.length < fuel) :
    lookupLoop dev inode name fuel cur (before.flatMap Record.bytes).length = .ok (named rest name) := by
  induction fuel generalizing before rest cur with
  | zero => omega
  | succ fuel ih =>
    cases rest with
    | nil =>
      have done : ¬(before.flatMap Record.bytes).length < inode.size := by
        rw [h.size_eq, split, List.append_nil]
        omega
      rw [Ext2.lookupLoop, if_neg done]
      rfl
    | cons r rest =>
      have inside := h.inside split
      have small := h.size_le
      have valid := h.plain r (by rw [split]; simp)
      simp only [linkSlots, blockBytes] at small
      have taken : overlay cur r.entry.encode = .ok r.entry.encode := by
        cases cur with
        | none => rw [overlay, if_pos (length_encodeEntry _)]
        | some old => rw [overlay, List.drop_of_length_le (by rw [full old rfl, length_encodeEntry]), List.append_nil]
      have later : Ext2.lookupLoop dev inode name fuel (some r.entry.encode)
          (((before.flatMap Record.bytes).length + r.entry.recLen) % 2 ^ 32) = .ok (named rest name) := by
        rw [h.next split]
        exact ih (by rw [split]; simp) (fun _ same => Option.some.inj same ▸ length_encodeEntry _)
          (by rw [List.length_cons] at enough; omega)
      rw [Ext2.lookupLoop, if_pos (by omega)]
      simp only [h.read_entry split, taken, h.decode split, later, bind, Except.bind]
      rw [if_neg (by omega)]
      have nameLen : r.entry.nameLen = r.name.length + 1 := rfl
      have type : r.entry.fileType = r.type := rfl
      rw [type, nameLen, h.read_name split]
      by_cases gone : r.type = XX
      · rw [if_pos gone]
        simp [named, Record.Names, gone]
      · rw [if_neg gone, if_neg (by omega)]
        simp only [sameName_eq plain valid.1]
        by_cases same : r.name = name
        · have small : asInt r.entry.inode = (r.inode : Int) := asInt_small valid.2.1
          simp [named, Record.Names, gone, same, small]
        · simp [named, Record.Names, gone, same]

/-- A lookup finds the first live record of the name. -/
theorem Listed.dirLookup (plain : 0 ∉ name) : dirLookup dev inode name = .ok (named records name) := by
  have count : records.length ≤ inode.size := by
    rw [h.size_eq]
    exact length_le_bytes records
  exact @Listed.lookupLoop dev inode records [] records name (inode.size + 1) h plain none rfl
    (fun _ none => nomatch none)
    (by omega)

end

theorem IsDir.listed (h : IsDir dev inode records) : Listed dev inode records :=
  ⟨h.len, h.covered, h.content, fun r mem => ⟨(h.valid r mem).1.2.2, (h.valid r mem).2⟩⟩

theorem IsDir.dirLookup (h : IsDir dev inode records) (plain : 0 ∉ name) :
    dirLookup dev inode name = .ok (named records name) :=
  h.listed.dirLookup plain

end OsLabs.Ext2

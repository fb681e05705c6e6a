import OsLabs.Data.Memory

/-!
# frecov

The search for pictures in the image of a FAT32 disk. The image is mapped from its start and
offsets count from there; they can be negative, since nothing checks them. An error is a read
outside the mapping or a write outside `name`. What `sha1sum` prints for the bytes it is given is left out.
-/

namespace OsLabs.Frecov

inductive Fault where
  | read
  | name
  deriving DecidableEq, Repr

/-- The bytes of the image that lie inside the mapping. -/
def Inside (img : List Byte) (offset : Int) (len : Nat) : Prop := 0 ≤ offset ∧ offset + len ≤ img.length

instance {img : List Byte} {offset : Int} {len : Nat} : Decidable (Inside img offset len) :=
    inferInstanceAs (Decidable (_ ∧ _))

def bytes (img : List Byte) (offset : Int) (len : Nat) : List Byte := (img.drop offset.toNat).take len

def field (img : List Byte) (offset : Int) (len : Nat) : Nat := decodeLE (bytes img offset len)

def read (img : List Byte) (offset : Int) (len : Nat) : Except Fault Nat :=
  if Inside img offset len then .ok (field img offset len) else .error .read

/-- `mmap_open`: `size` is an `int`, and a mapping whose size is not positive is not made. -/
def mmapOpen (file : List Byte) : Option (List Byte) :=
  let size := BitVec.ofNat 32 file.length
  if 0 < size.toInt then some (file.take size.toNat) else none

/-- The fields of `struct DBR` that are used. -/
structure Dbr where
  bytePerSector : Nat
  sectorPerCluster : Nat
  numOfResSector : Nat
  numOfFat : Nat
  numOfFatSector : Nat
  deriving DecidableEq, Repr

def dbrSize : Nat := 48

def dbrOf (img : List Byte) : Dbr := ⟨field img 11 2, field img 13 1, field img 14 2, field img 16 1, field img 36 4⟩

def readDbr (img : List Byte) : Except Fault Dbr := if Inside img 0 dbrSize then .ok (dbrOf img) else .error .read

def Dbr.clusterSize (dbr : Dbr) : Nat := dbr.bytePerSector * dbr.sectorPerCluster

/-- `data_ptr - img_ptr`, a product of `uint32_t`s. -/
def Dbr.data (dbr : Dbr) : Nat := dbr.bytePerSector * (dbr.numOfResSector + dbr.numOfFat * dbr.numOfFatSector) % 2 ^ 32

def Dbr.addr (dbr : Dbr) (highCluster lowCluster : Nat) : Nat :=
  (highCluster * 2 ^ 16 + lowCluster + (2 ^ 32 - 2)) * dbr.clusterSize % 2 ^ 32

def isbmp (img : List Byte) (ext : Int) : Except Fault Bool := do
  let c ← read img ext 1
  if c ≠ 98 ∧ c ≠ 66 then .ok false
  else do
    let c ← read img (ext + 1) 1
    if c ≠ 109 ∧ c ≠ 77 then .ok false
    else do
      let c ← read img (ext + 2) 1
      if c ≠ 112 ∧ c ≠ 80 then .ok false else .ok true

def nameSize : Nat := 128

def putName (name : List Nat) (i c : Nat) : Except Fault (List Nat) :=
  if i < nameSize then .ok (name.set i c) else .error .name

/-- Where `low_name`, `middle_name` and `high_name` are in a `struct LFILE`. -/
def nameOffsets : List Int := [1, 3, 5, 7, 9, 14, 16, 18, 20, 22, 24, 28, 30]

/-- The loops that copy the parts of the name of one entry. -/
def copyName (img : List Byte) (ptr : Int) : List Int → Nat → List Nat → Except Fault (List Nat)
  | [], _, name => .ok name
  | offset :: offsets, i, name => do
    let c ← read img (ptr + offset) 2
    let name ← putName name i c
    copyName img ptr offsets (i + 1) name

def isLong (img : List Byte) (ptr : Int) : Except Fault Bool := do
  let flag ← read img (ptr + 11) 1
  if flag = 15 then do
    let cluster ← read img (ptr + 26) 2
    .ok (cluster = 0)
  else .ok false

/-- The loop over the entries of a long name, back from the one at `ptr`. -/
def longEntries (img : List Byte) (ptr : Int) (base : Nat) (name : List Nat) : Except Fault (List Nat) := do
  if ← isLong img ptr then
    let name ← copyName img ptr nameOffsets base name
    -- always, when the name has been copied
    if base + 12 < nameSize then longEntries img (ptr - 32) (base + 13) name
    else .error .name
  else .ok name
termination_by nameSize - base

/-- `iswbmp`, with the name that it leaves if it is true; there is a zero in the name. -/
def iswbmp (name : List Nat) : Except Fault (Option (List Nat)) :=
  match (name.takeWhile (· ≠ 0)).findIdx? (· = 46) with
  | none => .ok none
  | some ppos => do
    let name ← putName name (ppos + 1) 98
    let name ← putName name (ppos + 2) 109
    let name ← putName name (ppos + 3) 112
    .ok (some name)

def validbmp (img : List Byte) (bmp : Int) (size : Nat) : Except Fault Bool := do
  let c ← read img bmp 1
  if c ≠ 66 then .ok false
  else do
    let c ← read img (bmp + 1) 1
    if c ≠ 77 then .ok false
    else do
      let bmpSize ← read img (bmp + 2) 4
      .ok (bmpSize = size)

/-- What is stored in `ans` for a picture, with the bytes of which it is the hash. -/
structure Entry where
  name : List Nat
  content : List Byte
  size : Nat
  deriving DecidableEq, Repr

/-- `write(fl_in[1], bmp_ptr, bmp_ptr->size)`: what `sha1sum` gets. -/
def hashed (img : List Byte) (bmp : Int) : Except Fault (List Byte) := do
  let size ← read img (bmp + 2) 4
  if Inside img bmp size then .ok (bytes img bmp size) else .error .read

/-- The rest of the body when there is a dot in the name. -/
def recover (img : List Byte) (dbr : Dbr) (ptr : Int) (name : List Nat) : Except Fault (List Entry) := do
  let size ← read img (ptr + 28) 4
  if size = 0 then .ok []
  else do
    let lowCluster ← read img (ptr + 26) 2
    if lowCluster = 0 then .ok []
    else do
      let highCluster ← read img (ptr + 20) 2
      let bmp : Int := dbr.data + dbr.addr highCluster lowCluster
      if ← validbmp img bmp size then
        let content ← hashed img bmp
        .ok [⟨name.takeWhile (· ≠ 0), content, size⟩]
      else .ok []

def entry (img : List Byte) (dbr : Dbr) (ptr : Int) : Except Fault (List Entry) := do
  if ← isbmp img (ptr + 8) then
    let name ← longEntries img (ptr - 32) 0 (List.replicate nameSize 0)
    match ← iswbmp name with
    | none => .ok []
    | some name => recover img dbr ptr name
  else .ok []

def scan (img : List Byte) (dbr : Dbr) (ptr : Nat) : Except Fault (List Entry) :=
  if ptr ≤ img.length then do
    let found ← entry img dbr ptr
    let others ← scan img dbr (ptr + 32)
    .ok (found ++ others)
  else .ok []
termination_by img.length + 1 - ptr

/-- `main` up to the `qsort`; it stops before it reads anything when the file is not mapped. -/
def main (file : List Byte) : Except Fault (List Entry) :=
  match mmapOpen file with
  | none => .ok []
  | some img => do
    let dbr ← readDbr img
    scan img dbr dbr.data

end OsLabs.Frecov

import OsLabs.Data.Contract
import OsLabs.Data.Memory

/-!
# The device of the ext2 file system

Where the maps, the inode table and the data blocks are, and how an inode lies in
its slot of the table. A device is its bytes.
-/

namespace OsLabs.Ext2

abbrev Device := Mem

/-- What stops an operation: a failed assertion, an access past the 25 link slots, a map without
a clear bit (`free_map` returned -1), a use of bytes that were not read, a loop that does not end, or a
use of the NULL pointer. -/
inductive Fault where
  | assertion | bounds | noFreeBit | unread | diverges | null
  deriving DecidableEq

def blockBytes : Nat := 1024
def inodeBytes : Nat := 128

def imap : Nat := 0
def dmap : Nat := 1
def itable : Nat := 2
def dataB : Nat := 12

def block (x : Nat) : Nat := x * blockBytes
def table (i : Nat) : Nat := block itable + i * inodeBytes
def data (i : Nat) : Nat := block dataB + i * blockBytes

/-- `enum TYPE`, as far as ext2 uses it. -/
def NF : Nat := 0
def DR : Nat := 1
def XX : Nat := 2

def linkSlots : Nat := 25

structure Inode where
  index : Nat
  type : Nat
  permission : Nat
  size : Nat
  len : Nat
  id : Nat
  dirLen : Nat
  linkNum : Nat
  link : Vector Nat linkSlots
  deriving DecidableEq

namespace Inode

def links (inode : Inode) : List Nat := inode.link.toList.take inode.len

def encode (inode : Inode) : List Byte :=
  encodeLE 4 inode.index ++ encodeLE 2 inode.type ++ encodeLE 2 inode.permission ++ encodeLE 4 inode.size ++
    encodeLE 4 inode.len ++ encodeLE 4 inode.id ++ encodeLE 4 inode.dirLen ++ encodeLE 4 inode.linkNum ++
    inode.link.toList.flatMap (encodeLE 4)

end Inode

def readInode (dev : Device) (i : Nat) : Inode where
  index := dev.load 4 (table i)
  type := dev.load 2 (table i + 4)
  permission := dev.load 2 (table i + 6)
  size := dev.load 4 (table i + 8)
  len := dev.load 4 (table i + 12)
  id := dev.load 4 (table i + 16)
  dirLen := dev.load 4 (table i + 20)
  linkNum := dev.load 4 (table i + 24)
  link := Vector.ofFn fun j => dev.load 4 (table i + 28 + 4 * j)

def writeInode (dev : Device) (i : Nat) (inode : Inode) : Device := dev.write (table i) inode.encode

theorem length_words (l : List Nat) : (l.flatMap (encodeLE 4)).length = 4 * l.length := by
  induction l with
  | nil => rfl
  | cons b l ih =>
    rw [List.flatMap_cons, List.length_append, ih, encodeLE_length, List.length_cons]
    omega

theorem length_encode (inode : Inode) : inode.encode.length = inodeBytes := by
  simp only [Inode.encode, List.length_append, encodeLE_length, length_words, Vector.length_toList]
  rfl

structure Inode.Fits (inode : Inode) : Prop where
  index : inode.index < 256 ^ 4
  type : inode.type < 256 ^ 2
  permission : inode.permission < 256 ^ 2
  size : inode.size < 256 ^ 4
  len : inode.len < 256 ^ 4
  id : inode.id < 256 ^ 4
  dirLen : inode.dirLen < 256 ^ 4
  linkNum : inode.linkNum < 256 ^ 4
  link : ∀ b ∈ inode.link.toList, b < 256 ^ 4

theorem encode_link (inode : Inode) {j : Nat} (inside : j < inode.link.toList.length) : ∃ pre tail,
    inode.encode = pre ++ (encodeLE 4 inode.link.toList[j] ++ tail) ∧ pre.length = 28 + 4 * j := by
  have split : inode.link.toList.flatMap (encodeLE 4) = (inode.link.toList.take j).flatMap (encodeLE 4) ++
      (encodeLE 4 inode.link.toList[j] ++ (inode.link.toList.drop (j + 1)).flatMap (encodeLE 4)) := by
    rw [← List.flatMap_cons, ← List.flatMap_append, ← List.drop_eq_getElem_cons inside, List.take_append_drop]
  refine ⟨_, (inode.link.toList.drop (j + 1)).flatMap (encodeLE 4),
    by rw [Inode.encode, split, ← List.append_assoc], ?_⟩
  rw [List.length_append, length_words, List.length_take, Nat.min_eq_left (by omega)]
  simp only [List.length_append, encodeLE_length]

theorem readInode_writeInode {dev : Device} {i : Nat} {inode : Inode} (h : inode.Fits) :
    readInode (writeInode dev i inode) i = inode := by
  have field {k v off : Nat} (pre tail : List Byte) (hoff : pre.length = off)
      (split : inode.encode = pre ++ (encodeLE k v ++ tail)) (hv : v < 256 ^ k) :
      (writeInode dev i inode).load k (table i + off) = v := hoff ▸ Mem.load_field split hv
  have links : (Vector.ofFn fun j : Fin linkSlots => (writeInode dev i inode).load 4 (table i + 28 + 4 * j)) =
      inode.link := by
    apply Vector.ext
    intro j hj
    obtain ⟨pre, tail, split, length⟩ := @encode_link inode j (by simpa using hj)
    have := field pre tail length split (h.link _ (List.getElem_mem _))
    rw [Vector.getElem_ofFn, Nat.add_assoc]
    simpa using this
  have fields (inode' : Inode) (h1 : inode'.index = inode.index) (h2 : inode'.type = inode.type)
      (h3 : inode'.permission = inode.permission) (h4 : inode'.size = inode.size) (h5 : inode'.len = inode.len)
      (h6 : inode'.id = inode.id) (h7 : inode'.dirLen = inode.dirLen) (h8 : inode'.linkNum = inode.linkNum)
      (h9 : inode'.link = inode.link) : inode' = inode := by
    cases inode'
    cases inode
    simp_all
  -- the fields in front of each field, whose lengths are its offset
  apply fields
  · exact field [] _ rfl rfl h.index
  · exact field (encodeLE 4 inode.index) _ rfl rfl h.type
  · exact field (encodeLE 4 inode.index ++ encodeLE 2 inode.type) _ rfl rfl h.permission
  · exact field (encodeLE 4 inode.index ++ encodeLE 2 inode.type ++ encodeLE 2 inode.permission) _ rfl rfl h.size
  · exact field (encodeLE 4 inode.index ++ encodeLE 2 inode.type ++ encodeLE 2 inode.permission ++
      encodeLE 4 inode.size)
      _ rfl rfl h.len
  · exact field (encodeLE 4 inode.index ++ encodeLE 2 inode.type ++ encodeLE 2 inode.permission ++
      encodeLE 4 inode.size ++
      encodeLE 4 inode.len) _ rfl rfl h.id
  · exact field (encodeLE 4 inode.index ++ encodeLE 2 inode.type ++ encodeLE 2 inode.permission ++
      encodeLE 4 inode.size ++
      encodeLE 4 inode.len ++ encodeLE 4 inode.id) _ rfl rfl h.dirLen
  · exact field (encodeLE 4 inode.index ++ encodeLE 2 inode.type ++ encodeLE 2 inode.permission ++
      encodeLE 4 inode.size ++
      encodeLE 4 inode.len ++ encodeLE 4 inode.id ++ encodeLE 4 inode.dirLen) _ rfl rfl h.linkNum
  · exact links

theorem writeInode_outside {dev : Device} {i x : Nat} {inode : Inode} (h : x < table i ∨ table i + inodeBytes ≤ x) :
    writeInode dev i inode x = dev x :=
  Mem.write_outside (by rw [length_encode]; exact h)

/-- The maps are in front of the table, and the table is in front of the data. -/
theorem block_lt_table (i : Nat) : 2048 ≤ table i := by
  simp [table, block, itable, blockBytes]

theorem table_lt_data {i : Nat} (small : i < 80) (b : Nat) : table i + inodeBytes ≤ data b := by
  simp only [table, data, block, itable, dataB, blockBytes, inodeBytes]
  omega

theorem maps_lt_data (b : Nat) : 12288 ≤ data b := by
  simp [data, block, dataB, blockBytes]

/-- From index 80 on, the slots of the table are in the data blocks. -/
theorem covers_data {inode w : Inode} {b r : Nat} (hr : r < blockBytes) :
    Mem.Covers (table inode.index, w.encode) (data b + r) ↔ 80 ≤ inode.index ∧ b = (inode.index - 80) / 8 ∧
      inodeBytes * ((inode.index - 80) % 8) ≤ r ∧ r < inodeBytes * ((inode.index - 80) % 8) + inodeBytes := by
  simp only [Mem.Covers, length_encode, table, data, block, itable, dataB, blockBytes, inodeBytes] at *
  omega

end OsLabs.Ext2

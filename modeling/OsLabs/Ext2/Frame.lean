import Mathlib.Data.Set.Basic
import OsLabs.Data.Buffer
import OsLabs.Ext2.Dir
import OsLabs.Ext2.ReadBack

/-!
# What an operation leaves alone

Which maps, slots and blocks two devices share, and what follows for the inodes and
the files of one of them.
-/

namespace OsLabs.Ext2

variable {dev dev' dev'' : Device} {inode : Inode} {buf : List Byte} {k i b : Nat} {I B I' B' : Set Nat} {x : Bool}

/-! ### Inodes and files -/

theorem readInode_congr (same : ∀ x, table k ≤ x → x < table k + inodeBytes → dev' x = dev x) :
    readInode dev' k = readInode dev k := by
  have word {n off : Nat} (fits : off + n ≤ inodeBytes) : dev'.load n (table k + off) = dev.load n (table k + off) :=
    Mem.load_congr fun x lo hi => same x (by omega) (by omega)
  have first : dev'.load 4 (table k) = dev.load 4 (table k) := @word 4 0 (by decide)
  have links : (Vector.ofFn fun j : Fin linkSlots => dev'.load 4 (table k + 28 + 4 * j)) =
      Vector.ofFn fun j : Fin linkSlots => dev.load 4 (table k + 28 + 4 * j) := by
    congr 1
    funext j
    rw [Nat.add_assoc]
    exact word (by have := j.isLt; simp only [linkSlots, inodeBytes] at *; omega)
  simp only [readInode, first, links, @word 2 4 (by decide), @word 2 6 (by decide), @word 4 8 (by decide),
    @word 4 12 (by decide), @word 4 16 (by decide), @word 4 20 (by decide), @word 4 24 (by decide)]

theorem contents_congr (hlen : inode.len ≤ linkSlots) (covered : inode.size ≤ inode.len * blockBytes)
    (same : ∀ b ∈ inode.links, ∀ r < blockBytes, dev' (data b + r) = dev (data b + r)) :
    contents dev' inode = contents dev inode := by
  apply List.map_congr_left
  intro p mem
  have small := List.mem_range.mp mem
  refine same _ (Inode.slot_mem hlen ?_) _ (Nat.mod_lt _ (by decide))
  simp only [blockBytes] at *
  omega

theorem contents_write (hlen : inode.len ≤ linkSlots) (covered : inode.size ≤ inode.len * blockBytes)
    (distinct : inode.links.Nodup) {offset : Nat} (inside : offset + buf.length ≤ inode.size)
    (chunk : offset % blockBytes + buf.length ≤ blockBytes) :
    contents (dev.write (inode.address offset) buf) inode = pwrite (contents dev inode) offset buf := by
  have byte (k : Nat) (small : k < buf.length) : inode.address (offset + k) = inode.address offset + k :=
    address_add (by omega)
  apply List.ext_getElem?
  intro p
  rw [getElem?_pwrite (by rw [length_contents]; omega)]
  by_cases early : p < inode.size
  · rw [contents, List.getElem?_map, List.getElem?_range early, contents, List.getElem?_map, List.getElem?_range early]
    simp only [Option.map_some, byteAt]
    split
    · rename_i here
      obtain ⟨k, rfl⟩ := Nat.exists_eq_add_of_le here.1
      have small : k < buf.length := by omega
      rw [byte k small, Mem.write_at k small, Nat.add_sub_cancel_left, List.getElem?_eq_getElem small]
    · rename_i out
      rw [Mem.write_outside]
      by_contra hits
      obtain ⟨k, same⟩ := Nat.exists_eq_add_of_le (show inode.address offset ≤ inode.address p by omega)
      have small : k < buf.length := by omega
      have := address_inj hlen distinct (by omega) (by omega) (same.trans (byte k small).symm)
      omega
  · rw [List.getElem?_eq_none (by rw [length_contents]; omega), if_neg (by omega),
      List.getElem?_eq_none (by rw [length_contents]; omega)]

/-! ### Frames -/

/-- The devices have the same marks and slots but for the inodes of `I`, and the same marks and bytes but for the
blocks of `B`. -/
structure Outside (dev dev' : Device) (I B : Set Nat) : Prop where
  inodes : ∀ i < mapBits, i ∉ I → readMap dev' imap i = readMap dev imap i
  blocks : ∀ b < mapBits, b ∉ B → readMap dev' dmap b = readMap dev dmap b
  slots : ∀ k < 80, k ∉ I → readInode dev' k = readInode dev k
  bytes : ∀ b ∉ B, ∀ r < blockBytes, dev' (data b + r) = dev (data b + r)

namespace Outside

theorem refl (dev : Device) (I B : Set Nat) : Outside dev dev I B :=
  ⟨fun _ _ _ => rfl, fun _ _ _ => rfl, fun _ _ _ => rfl, fun _ _ _ _ => rfl⟩

theorem trans (h : Outside dev dev' I B) (h' : Outside dev' dev'' I B) : Outside dev dev'' I B where
  inodes i small out := (h'.inodes i small out).trans (h.inodes i small out)
  blocks b small out := (h'.blocks b small out).trans (h.blocks b small out)
  slots k small out := (h'.slots k small out).trans (h.slots k small out)
  bytes b out r low := (h'.bytes b out r low).trans (h.bytes b out r low)

theorem mono (h : Outside dev dev' I B) (inodes : I ⊆ I') (blocks : B ⊆ B') : Outside dev dev' I' B' where
  inodes i small out := h.inodes i small fun mem => out (inodes mem)
  blocks b small out := h.blocks b small fun mem => out (blocks mem)
  slots k small out := h.slots k small fun mem => out (inodes mem)
  bytes b out := h.bytes b fun mem => out (blocks mem)

theorem of_low (inodes : ∀ i < mapBits, i ∉ I → readMap dev' imap i = readMap dev imap i)
    (blocks : ∀ b < mapBits, b ∉ B → readMap dev' dmap b = readMap dev dmap b)
    (same : ∀ x, block itable ≤ x → dev' x = dev x) : Outside dev dev' I B where
  inodes := inodes
  blocks := blocks
  slots k _ _ := readInode_congr fun x lo _ => same x (Nat.le_trans (block_lt_table k) lo)
  bytes b _ r _ := same _ (data_addr b r)

theorem of_setMap_imap (hi : i < mapBits) : Outside dev (setMap dev imap i x) {i} ∅ := by
  refine of_low (fun j _ other => ?_) (fun b hb _ => readMap_setMap_other (by decide) hi hb) fun y high => ?_
  · rw [readMap_setMap, if_neg (Set.mem_singleton_iff.not.mp other)]
  · have := map_lt_table (show imap < itable by decide) hi
    exact setMap_other (by omega)

theorem of_setMap_dmap (hb : b < mapBits) : Outside dev (setMap dev dmap b x) ∅ {b} := by
  refine of_low (fun j hj _ => readMap_setMap_other (by decide) hb hj) (fun c _ other => ?_) fun y high => ?_
  · rw [readMap_setMap, if_neg (Set.mem_singleton_iff.not.mp other)]
  · have := map_lt_table (show dmap < itable by decide) hb
    exact setMap_other (by omega)

theorem of_marks {bs : List Nat} (small : ∀ b ∈ bs, b < mapBits) : Outside dev (marks dev bs) ∅ {b | b ∈ bs} := by
  induction bs generalizing dev with
  | nil => exact refl dev _ _
  | cons b bs ih =>
    have first : Outside dev (setMap dev dmap b true) ∅ {c | c ∈ b :: bs} :=
      (of_setMap_dmap (small b List.mem_cons_self)).mono (fun _ h => h) fun c same => by
        rw [Set.mem_singleton_iff.mp same]
        exact List.mem_cons_self
    exact first.trans ((ih fun c mem => small c (List.mem_cons_of_mem b mem)).mono (fun _ h => h)
      fun c mem => List.mem_cons_of_mem b mem)

theorem of_high (same : SameMaps dev dev') (slots : ∀ k < 80, k ∉ I → readInode dev' k = readInode dev k)
    (bytes : ∀ b ∉ B, ∀ r < blockBytes, dev' (data b + r) = dev (data b + r)) : Outside dev dev' I B where
  inodes i small _ := same.readMap (by decide) small
  blocks b small _ := same.readMap (by decide) small
  slots := slots
  bytes := bytes

theorem of_writeInode (low : k < 80) : Outside dev (writeInode dev k inode) {k} ∅ := by
  refine of_high (SameMaps.of_write (block_lt_table k)) (fun j _ other => readInode_congr fun x lo hi => ?_)
    fun b _ r _ => writeInode_outside (.inr ?_)
  · apply writeInode_outside
    have different : j ≠ k := other
    simp only [table, inodeBytes] at *
    omega
  · exact Nat.le_trans (table_lt_data low b) (Nat.le_add_right _ r)

theorem of_write {r : Nat} (room : r + buf.length ≤ blockBytes) : Outside dev (dev.write (data b + r) buf) ∅ {b} := by
  refine of_high (SameMaps.of_write (data_addr b r)) (fun k low _ => readInode_congr fun x lo hi => ?_)
    fun c other s hs => ?_
  · have := table_lt_data low b
    exact Mem.write_before (by omega)
  · have different : c ≠ b := other
    apply Mem.write_outside
    simp only [data, block, blockBytes, dataB] at *
    omega

theorem contents_eq (h : Outside dev dev' I B) (hlen : inode.len ≤ linkSlots)
    (covered : inode.size ≤ inode.len * blockBytes) (apart : ∀ b ∈ inode.links, b ∉ B) :
    contents dev' inode = contents dev inode :=
  contents_congr hlen covered fun b mem => h.bytes b (apart b mem)

end Outside

end OsLabs.Ext2

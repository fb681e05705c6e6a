import OsLabs.Ext2.Links
import OsLabs.Ext2.Outcomes

/-!
# Transfers inside the device

On a device of `n` bytes that has the maps, the inode table and a block of data, an
operation issues no transfer past the end, as long as the blocks of the inodes that
it works on, and the blocks that it takes, lie on the device.
-/

namespace OsLabs.Ext2.Rd
open Util Program

/-- The transfer neither starts in front of a device of `n` bytes nor ends behind it. -/
def Transfer.Inside (n : Nat) (t : Transfer) : Prop := 0 ≤ t.offset ∧ t.offset + t.count ≤ n

instance (n : Nat) (t : Transfer) : Decidable (t.Inside n) := inferInstanceAs (Decidable (_ ∧ _))

/-- A device with room for a block of data, and of a size that is an `int`. -/
structure Capacity (n : Nat) : Prop where
  table : data 1 ≤ n
  word : n < 2 ^ 31

def OnDisk (n b : Nat) : Prop := data b + blockBytes ≤ n

instance (n b : Nat) : Decidable (OnDisk n b) := inferInstanceAs (Decidable (_ ≤ _))

variable {n : Nat} {dev dev' : Device} {inode inode' : Inode} {blk i a c offset fuel : Nat} {x first : Bool}
  {bs buf name : List Byte}
  {records before rest : List Record}

theorem linkAt_slot {b q : Nat} (link : inode.linkAt q = .ok b) : b = inode.slot q := by
  unfold Inode.linkAt at link
  unfold Inode.slot
  split at link
  · rename_i found
    rw [← Except.ok.inj link, found]
    rfl
  · cases link

theorem allocate_full {b : Nat} {rest : List Nat} (free : freeBits dev dmap = b :: rest)
    (full : ¬inode.len < linkSlots) :
    Ext2.allocate dev inode = .error .bounds := by
  have found : Ext2.freeMap dev dmap = some b := by rw [freeMap_eq, free, List.head?_cons]
  unfold Ext2.allocate
  simp only [found, if_neg full]

theorem appendWrites_take {cs : List (List Byte)} {bs : List Nat} :
    appendWrites offset inode (bs.take cs.length) cs = appendWrites offset inode bs cs := by
  induction bs generalizing inode cs with
  | nil => rw [List.take_nil]
  | cons b bs ih =>
    cases cs with
    | nil => rw [List.length_nil, List.take_zero, appendWrites, appendWrites] <;> simp
    | cons c cs => rw [List.length_cons, List.take_succ_cons, appendWrites, appendWrites, ih]

theorem writeLoop_index (hlen : inode.len ≤ linkSlots) (fits : offset + buf.length ≤ linkSlots * blockBytes)
    (done : Ext2.writeLoop inode.len offset buf.length dev inode true buf = .ok (dev', inode')) :
    inode'.index = inode.index := by
  by_cases room : Room dev inode offset buf.length
  · rw [loop_eq hlen fits room] at done
    rw [← (Prod.mk.inj (Except.ok.inj done)).2, Inode.pushAll_index]
  · rw [loop_short fits room] at done
    cases done

section

variable (cap : Capacity n)
include cap

theorem Capacity.low (h : a ≤ block dataB) : a ≤ n := by
  have table := cap.table
  simp only [data, block, dataB, blockBytes] at *
  omega

theorem Capacity.inside (h : a + c ≤ n) : Transfer.Inside n ⟨asInt a, c⟩ := by
  have word := cap.word
  have small : asInt a = (a : Int) := asInt_small (by omega)
  rw [Transfer.Inside, small]
  simp only
  omega

theorem read_within (h : a + c ≤ n) : Within (Transfer.Inside n) (read a c) dev :=
  Program.within_bind.mpr ⟨within_issue.mpr (cap.inside h), fun _ _ _ => within_look⟩

theorem write_within (h : a + bs.length ≤ n) : Within (Transfer.Inside n) (write a bs) dev :=
  Program.within_bind.mpr ⟨within_issue.mpr (cap.inside h), fun _ _ _ => within_change⟩

/-! ### Maps and slots -/

theorem Capacity.map (hb : blk < itable) (hi : i < mapBits) : map blk i + 1 ≤ n := by
  refine cap.low (Nat.le_trans (map_lt_table hb hi) ?_)
  decide

theorem readMap_within (hb : blk < itable) (hi : i < mapBits) : Within (Transfer.Inside n) (readMap blk i) dev :=
  (read_computes _ _).within_next.mpr ⟨read_within cap (cap.map hb hi), within_pure⟩

theorem writeMap_within (hb : blk < itable) (hi : i < mapBits) : Within (Transfer.Inside n) (writeMap blk i x) dev := by
  refine (read_computes _ _).within_next.mpr ⟨read_within cap (cap.map hb hi), ?_⟩
  refine (readMap_computes _ _).within_next.mpr ⟨readMap_within cap hb hi, ?_⟩
  split
  · exact within_stop
  refine Program.within_bind.mpr ⟨write_within cap (cap.map hb hi), fun dev₁ _ _ => ?_⟩
  refine (readMap_computes _ _).within_next.mpr ⟨readMap_within cap hb hi, ?_⟩
  split
  · exact within_stop
  · exact within_pure

theorem scan_within (hb : blk < itable) {is : List Nat} (small : ∀ i ∈ is, i < mapBits) :
    Within (Transfer.Inside n) (scan blk is) dev := by
  induction is with
  | nil => exact within_pure
  | cons i is ih =>
    refine (readMap_computes _ _).within_next.mpr ⟨readMap_within cap hb (small i List.mem_cons_self), ?_⟩
    split
    · exact ih fun j mem => small j (List.mem_cons_of_mem i mem)
    · exact within_pure

theorem freeMap_within (hb : blk < itable) : Within (Transfer.Inside n) (freeMap blk) dev := by
  apply scan_within cap hb
  intro i mem
  have := List.mem_range.mp mem
  simp only [mapBits, blockBytes] at *
  omega

theorem noFreeBit_within {α : Type} (hb : blk < itable) :
    Within (Transfer.Inside n) (noFreeBit blk : RdProgram α) dev := by
  have start : block blk + 1 ≤ n := by
    apply cap.low
    simp only [block, itable, dataB, blockBytes] at *
    omega
  exact (read_computes _ _).within_next.mpr ⟨read_within cap start, within_stop⟩

theorem readInode_within (low : i < 80) : Within (Transfer.Inside n) (readInode i) dev :=
  (read_computes _ _).within_next.mpr ⟨read_within cap (cap.low (table_lt_data low 0)), within_pure⟩

theorem writeInode_within (low : i < 80) : Within (Transfer.Inside n) (writeInode i inode) dev := by
  apply write_within cap
  rw [length_encode]
  exact cap.low (table_lt_data low 0)

theorem inodeCreate_within {gid type per : Nat} : Within (Transfer.Inside n) (inodeCreate gid type per) dev := by
  refine (freeMap_computes _).within_next.mpr ⟨freeMap_within cap (by decide), ?_⟩
  cases found : Ext2.freeMap dev imap with
  | none => exact noFreeBit_within cap (by decide)
  | some index =>
    have inside := (freeMap_some found).1
    refine Program.within_bind.mpr ⟨writeMap_within cap (by decide) ?_, fun _ _ _ => within_pure⟩
    simp only [mapBits, blockBytes] at *
    omega

theorem clearLoop_within {is : List Nat} (small : ∀ i ∈ is, ∀ b, inode.linkAt i = .ok b → b < mapBits) :
    Within (Transfer.Inside n) (clearLoop inode is) dev := by
  induction is generalizing dev with
  | nil => exact within_pure
  | cons i is ih =>
    refine (Computes.lift _).within_bind.mpr ⟨within_lift, fun b link => ?_⟩
    refine Program.within_bind.mpr
      ⟨writeMap_within cap (by decide) (small i List.mem_cons_self b link), fun _ _ _ => ?_⟩
    exact ih fun j mem => small j (List.mem_cons_of_mem i mem)

theorem inodeRemove_within (len : inode.len ≤ linkSlots) (low : inode.index < 80) (marked : Marked dev' inode) :
    Within (Transfer.Inside n) (inodeRemove inode) dev := by
  refine Program.within_bind.mpr ⟨writeMap_within cap (by decide) (Nat.lt_trans low (by decide)), fun _ _ _ => ?_⟩
  apply clearLoop_within cap
  intro i mem b link
  have inside := List.mem_range.mp mem
  rw [Inode.linkAt_eq (Nat.lt_of_lt_of_le inside len)] at link
  rw [← Except.ok.inj link]
  exact (marked _ (Inode.slot_mem len inside)).1

/-! ### Writing -/

theorem allocate_within : Within (Transfer.Inside n) (allocate inode) dev := by
  refine (freeMap_computes _).within_next.mpr ⟨freeMap_within cap (by decide), ?_⟩
  cases found : Ext2.freeMap dev dmap with
  | none => exact noFreeBit_within cap (by decide)
  | some b =>
    have inside := (freeMap_some found).1
    simp only
    split
    · refine Program.within_bind.mpr ⟨writeMap_within cap (by decide) ?_, fun _ _ _ => within_pure⟩
      simp only [mapBits, blockBytes] at *
      omega
    · exact within_stop

theorem writeChunk_within (h : data (inode.slot (offset / blockBytes)) + offset % blockBytes + bs.length ≤ n) :
    Within (Transfer.Inside n) (writeChunk inode offset bs) dev := by
  refine (Computes.lift _).within_bind.mpr ⟨within_lift, fun b link => write_within cap ?_⟩
  rw [linkAt_slot link]
  exact h

theorem writeLoop_existing_within {originalLen : Nat} (existing : offset < originalLen * blockBytes)
    (chunk : ∀ c ∈ chunks fuel (if first then blockBytes - offset % blockBytes else blockBytes) buf,
      data (inode.slot (offset / blockBytes)) + offset % blockBytes + c.length ≤ n) :
    Within (Transfer.Inside n) (writeLoop originalLen offset fuel inode first buf) dev := by
  induction fuel generalizing dev first buf with
  | zero =>
    unfold writeLoop
    split
    · exact within_pure
    · exact within_stop
  | succ fuel ih =>
    unfold writeLoop
    split
    · exact within_pure
    rename_i more
    rw [chunks, if_neg more] at chunk
    simp only [take_min_length, drop_min_length]
    refine Program.within_bind.mpr ⟨writeChunk_within cap (chunk _ List.mem_cons_self), fun _ _ _ => ?_⟩
    exact ih fun c mem => chunk c (List.mem_cons_of_mem _ mem)

theorem writeLoop_append_within {originalLen : Nat} (past : ¬offset < originalLen * blockBytes)
    (chunk : ∀ w ∈ appendWrites offset inode (freeBits dev dmap) (chunks fuel blockBytes buf), w.1 + w.2.length ≤ n) :
    Within (Transfer.Inside n) (writeLoop originalLen offset fuel inode first buf) dev := by
  induction fuel generalizing dev inode buf with
  | zero =>
    unfold writeLoop
    split
    · exact within_pure
    · exact within_stop
  | succ fuel ih =>
    unfold writeLoop
    split
    · exact within_pure
    rename_i more
    rw [chunks, if_neg more] at chunk
    simp only [take_min_length, drop_min_length]
    refine Program.within_bind.mpr ⟨allocate_within cap, fun dev₁ inode₁ taken => ?_⟩
    rw [result_allocate] at taken
    cases free : freeBits dev dmap with
    | nil =>
      rw [allocate_none free] at taken
      cases taken
    | cons b rest =>
      by_cases slots : inode.len < linkSlots
      · rw [allocate_eq free slots] at taken
        simp only [Except.ok.injEq, Prod.mk.injEq] at taken
        obtain ⟨rfl, rfl⟩ := taken
        rw [free, appendWrites] at chunk
        refine Program.within_bind.mpr ⟨writeChunk_within cap (chunk _ List.mem_cons_self), fun dev₂ _ written => ?_⟩
        rw [result_writeChunk] at written
        by_cases hq : offset / blockBytes < linkSlots
        · rw [Ext2.writeChunk, Inode.linkAt_eq hq] at written
          obtain ⟨rfl, -⟩ := Prod.mk.inj (Except.ok.inj written)
          refine ih fun w mem => chunk w (List.mem_cons_of_mem _ ?_)
          rw [freeBits_round free (data_addr _ _)] at mem
          exact mem
        · have none : (inode.push b).linkAt (offset / blockBytes) = .error .bounds := by
            simp [Inode.linkAt, hq]
          rw [Ext2.writeChunk, none] at written
          cases written
      · rw [allocate_full free slots] at taken
        cases taken

theorem writeLoop_within (chunk : ∀ w ∈ chunkWrites dev inode buf offset, w.1 + w.2.length ≤ n) :
    Within (Transfer.Inside n) (writeLoop inode.len offset buf.length inode true buf) dev := by
  unfold chunkWrites at chunk
  by_cases existing : offset < inode.len * blockBytes
  · rw [if_pos existing] at chunk
    exact writeLoop_existing_within cap existing fun c mem => chunk _ (List.mem_map_of_mem mem)
  · rw [if_neg existing, newBlocks, if_neg existing, ← length_chunks (Nat.le_refl buf.length),
      appendWrites_take] at chunk
    exact writeLoop_append_within cap existing chunk

theorem dataWrite_within (hlen : inode.len ≤ linkSlots) (fits : offset + buf.length ≤ linkSlots * blockBytes)
    (low : inode.index < 80) (chunk : ∀ w ∈ chunkWrites dev inode buf offset, w.1 + w.2.length ≤ n) :
    Within (Transfer.Inside n) (dataWrite inode buf offset) dev := by
  refine Program.within_bind.mpr ⟨writeLoop_within cap chunk, fun dev₁ inode₁ looped => ?_⟩
  rw [result_writeLoop] at looped
  have index := writeLoop_index hlen fits looped
  simp only
  split
  · exact Program.within_bind.mpr ⟨writeInode_within cap (by rw [index]; exact low), fun _ _ _ => within_pure⟩
  · exact within_pure

theorem inodeWrite_within {file : File} (low : file.inode.fsInode.index < 80)
    (bounded : file.inode.fsInode.type = NF → Bounded file.inode.fsInode file.offset buf.length)
    (chunk : file.inode.fsInode.type = NF →
      ∀ w ∈ chunkWrites dev file.inode.fsInode buf file.offset, w.1 + w.2.length ≤ n) :
    Within (Transfer.Inside n) (inodeWrite file buf) dev := by
  unfold inodeWrite
  simp only
  split
  · exact within_stop
  split
  · rename_i normal
    have inside := bounded normal
    have small := offset_int inside.fits
    rw [Nat.mod_eq_of_lt (show file.offset < 2 ^ 32 by omega), if_neg fun below => absurd below.1 (by omega)]
    refine Program.within_bind.mpr ⟨writeLoop_within cap (chunk normal), fun dev₁ inode₁ looped => ?_⟩
    rw [result_writeLoop] at looped
    have index := writeLoop_index inside.len inside.fits looped
    split
    · exact Program.within_bind.mpr ⟨writeInode_within cap (by rw [index]; exact low), fun _ _ _ => within_pure⟩
    · exact within_pure
  · exact within_pure

end

/-! ### Chunks on the device -/

theorem chunks_some {room : Nat} (pos : 0 < room) {c : List Byte} (mem : c ∈ chunks fuel room buf) : 0 < c.length := by
  induction fuel generalizing room buf with
  | zero => cases mem
  | succ fuel ih =>
    unfold chunks at mem
    split at mem
    · cases mem
    rename_i more
    rcases List.mem_cons.mp mem with rfl | later
    · have := List.length_pos_of_ne_nil more
      rw [List.length_take]
      omega
    · exact ih (by decide) later

theorem appendWrites_some {cs : List (List Byte)} {bs : List Nat} (some : ∀ c ∈ cs, 0 < c.length) :
    ∀ w ∈ appendWrites offset inode bs cs, 0 < w.2.length := by
  induction bs generalizing inode cs with
  | nil => simp [appendWrites]
  | cons b bs ih =>
    cases cs with
    | nil => simp [appendWrites]
    | cons c cs =>
      exact List.forall_mem_cons.mpr ⟨some c List.mem_cons_self, ih fun d mem => some d (List.mem_cons_of_mem c mem)⟩

theorem chunkWrites_some : ∀ w ∈ chunkWrites dev inode buf offset, 0 < w.2.length := by
  intro w mem
  unfold chunkWrites at mem
  split at mem
  · obtain ⟨c, inside, rfl⟩ := List.mem_map.mp mem
    refine chunks_some ?_ inside
    have := Nat.mod_lt offset (show 0 < blockBytes by decide)
    omega
  · exact appendWrites_some (fun c inside => chunks_some (by decide) inside) w mem

/-- The last byte of a chunk is in one of the blocks. -/
theorem on_disk_of_stays {bs : List Nat} {w : Nat × List Byte} (start : ∃ b r, w.1 = data b + r) (some : 0 < w.2.length)
    (stays : Stays bs w) (owned : ∀ b ∈ bs, OnDisk n b) : w.1 + w.2.length ≤ n := by
  obtain ⟨b, r, start⟩ := start
  obtain ⟨q, hq⟩ : ∃ q, q = b + (r + w.2.length - 1) / blockBytes := ⟨_, rfl⟩
  have last : w.1 + w.2.length - 1 = data q + (r + w.2.length - 1) % blockBytes := by
    rw [start, hq]
    simp only [data, block, dataB, blockBytes]
    omega
  have below : (r + w.2.length - 1) % blockBytes < blockBytes := Nat.mod_lt _ (by decide)
  have inside : q ∈ bs := by
    by_contra out
    refine stays q out _ below ⟨?_, ?_⟩ <;> omega
  have on_q : data q + blockBytes ≤ n := owned q inside
  omega

theorem chunkWrites_on_disk (bounded : Bounded inode offset buf.length)
    (contained : Contained dev inode offset buf.length)
    (owned : ∀ b ∈ blocksAfter dev inode offset buf.length, OnDisk n b) :
    ∀ w ∈ chunkWrites dev inode buf offset, w.1 + w.2.length ≤ n := by
  intro w mem
  have stays := (stored_stays_iff bounded contained.room).mpr contained w (List.mem_append_left _ mem)
  exact on_disk_of_stays (chunkWrites_data w mem) (chunkWrites_some w mem) stays owned

/-- What is appended in one block. -/
theorem append_on_disk (sized : Sized inode) (some : buf ≠ [])
    (chunk : inode.size % blockBytes + buf.length ≤ blockBytes)
    (fits : inode.size + buf.length ≤ linkSlots * blockBytes) (old : ∀ b ∈ inode.links, OnDisk n b)
    (new : ∀ b ∈ newBlocks dev inode inode.size buf.length, OnDisk n b) :
    ∀ w ∈ chunkWrites dev inode buf inode.size, w.1 + w.2.length ≤ n := by
  have pos := List.length_pos_of_ne_nil some
  by_cases room : Room dev inode inode.size buf.length
  · have request := append_request sized pos chunk fits room
    have full : (written dev inode inode.size buf.length).len ≤ linkSlots := by
      rw [Request.written_len]
      exact request.slots
    have slot := Inode.slot_mem full request.written_covers
    rw [written_links request] at slot
    have owned : data ((written dev inode inode.size buf.length).slot (inode.size / blockBytes)) + blockBytes ≤ n :=
      (List.mem_append.mp slot).elim (old _) (new _)
    rw [chunkWrites_single request chunk]
    intro w mem
    rw [List.mem_singleton.mp mem, Inode.address]
    show data _ + inode.size % blockBytes + buf.length ≤ n
    omega
  · obtain ⟨past, short⟩ := not_or.mp room
    have none : freeBits dev dmap = [] := by
      apply List.eq_nil_of_length_eq_zero
      simp only [blocks, blockBytes] at *
      omega
    rw [chunkWrites, if_neg past, newBlocks, if_neg past, none, List.take_nil]
    intro w none
    cases none

/-! ### Reading -/

/-- The block that a byte of the file is in. -/
theorem slot_on_disk (hlen : inode.len ≤ linkSlots) (covered : inode.size ≤ inode.len * blockBytes)
    (owned : ∀ b ∈ inode.links, OnDisk n b) (inside : offset < inode.size) :
    data (inode.slot (offset / blockBytes)) + blockBytes ≤ n := by
  refine owned _ (Inode.slot_mem hlen ?_)
  simp only [blockBytes] at *
  omega

section

variable (cap : Capacity n)
include cap

theorem readChunk_within {left : Nat} (h : data (inode.slot (offset / blockBytes)) + offset % blockBytes + left ≤ n) :
    Within (Transfer.Inside n) (readChunk inode offset left) dev := by
  refine (Computes.lift _).within_bind.mpr ⟨within_lift, fun b link => ?_⟩
  rw [if_neg (by omega), linkAt_slot link]
  exact read_within cap h

theorem readLoop_within {cnt size : Nat} (hlen : inode.len ≤ linkSlots) (covered : inode.size ≤ inode.len * blockBytes)
    (owned : ∀ b ∈ inode.links, OnDisk n b) (inside : offset + size ≤ inode.size)
    (aligned : first = false → offset % blockBytes = 0 ∨ size = 0) (counted : cnt = offset / blockBytes ∨ size = 0) :
    Within (Transfer.Inside n) (readLoop inode fuel cnt size offset first) dev := by
  induction fuel generalizing cnt size offset first with
  | zero => exact within_stop
  | succ fuel ih =>
    unfold readLoop
    split
    · rename_i more
      obtain rfl := counted.resolve_right more.2
      have left :=
        readLeft_eq hlen covered (Nat.pos_of_ne_zero more.2) inside fun later => (aligned later).resolve_right more.2
      have on_slot := slot_on_disk hlen covered owned more.1
      simp only [left, Int.toNat_natCast]
      refine (readChunk_computes _ _ _).within_bind.mpr ⟨readChunk_within cap ?_, fun bytes _ => ?_⟩
      · have := Nat.mod_lt offset (show 0 < blockBytes by decide)
        omega
      refine (readLoop_computes _ _ _ _ _).within_bind.mpr ⟨ih ?_ (fun _ => ?_) ?_, fun _ _ => within_pure⟩
      all_goals
        simp only [blockBytes] at *
        omega
    · exact within_pure

theorem dataRead_within {size : Nat} (hlen : inode.len ≤ linkSlots) (covered : inode.size ≤ inode.len * blockBytes)
    (owned : ∀ b ∈ inode.links, OnDisk n b) (inside : offset + size ≤ inode.size) :
    Within (Transfer.Inside n) (dataRead inode size offset) dev :=
  readLoop_within cap hlen covered owned inside (fun later => nomatch later) (.inl rfl)

end

/-- The chunk at the end of a file that an earlier chunk of the same read led to. -/
def LastFits (n : Nat) (inode : Inode) : Prop := data (inode.slot (inode.len - 1)) + (inode.size - (inode.len - 1)) ≤ n

/-- A read of a regular file starts in its last block, stops in front of that, or has room for the chunk there. -/
def ReadFits (n : Nat) (inode : Inode) (offset size : Nat) : Prop :=
  inode.size ≤ offset ∨ size = 0 ∨ inode.size ≤ inode.len * blockBytes ∧
    (inode.len - 1 ≤ offset / blockBytes ∨ StopsEarly inode offset size ∨ LastFits n inode)

section

variable (cap : Capacity n)
include cap

omit cap in
theorem inodeReadLoop_end {cnt size : Nat} (ended : inode.size ≤ offset ∨ size = 0) :
    Within (Transfer.Inside n) (inodeReadLoop inode fuel cnt size offset first) dev := by
  cases fuel with
  | zero => exact within_stop
  | succ fuel =>
    rw [inodeReadLoop, if_neg (by omega)]
    exact within_pure

theorem inodeReadLoop_within {cnt size : Nat} (hlen : inode.len ≤ linkSlots) (owned : ∀ b ∈ inode.links, OnDisk n b)
    (small : size < 2 ^ 32) (covered : inode.size ≤ inode.len * blockBytes)
    (aligned : first = false → offset % blockBytes = 0) (counted : cnt = offset / blockBytes)
    (reach : first = true ∧ inode.len - 1 ≤ offset / blockBytes ∨ StopsEarly inode offset size ∨ LastFits n inode) :
    Within (Transfer.Inside n) (inodeReadLoop inode fuel cnt size offset first) dev := by
  induction fuel generalizing cnt size offset first with
  | zero => exact within_stop
  | succ fuel ih =>
    by_cases more : offset < inode.size ∧ size ≠ 0
    · rw [inodeReadLoop, if_pos more, counted]
      have here : offset / blockBytes < inode.len := by
        simp only [blockBytes] at *
        omega
      have below := Nat.mod_lt offset (show 0 < blockBytes by decide)
      have on_slot := slot_on_disk hlen covered owned more.1
      by_cases inner : offset / blockBytes < inode.len - 1
      · simp only [readLeft_inner hlen inner aligned, Int.toNat_natCast]
        refine (readChunk_computes _ _ _).within_bind.mpr ⟨readChunk_within cap (by omega), fun bytes _ => ?_⟩
        refine (inodeReadLoop_computes _ _ _ _ _).within_bind.mpr ⟨?_, fun _ _ => within_pure⟩
        have next : (offset + (blockBytes - offset % blockBytes)) % blockBytes = 0 ∧
            offset / blockBytes + 1 = (offset + (blockBytes - offset % blockBytes)) / blockBytes := by
          simp only [blockBytes] at *
          omega
        refine ih (Nat.mod_lt _ (by decide)) (fun _ => next.1) next.2 (.inr ?_)
        rcases reach with last | stops | fits
        · omega
        · exact .inl (stops.next small more.2)
        · exact .inr fits
      · have last : offset / blockBytes = inode.len - 1 := by omega
        have reached : inode.len - 1 ≤ inode.size := by
          simp only [blockBytes] at *
          omega
        cases first with
        | true =>
          simp only [readLeft_last hlen covered more.1 (Nat.le_of_eq last.symm), Int.toNat_natCast]
          refine (readChunk_computes _ _ _).within_bind.mpr ⟨readChunk_within cap ?_, fun bytes _ => ?_⟩
          · simp only [blockBytes] at *
            omega
          · exact (inodeReadLoop_computes _ _ _ _ _).within_bind.mpr
              ⟨inodeReadLoop_end (.inl (by omega)), fun _ _ => within_pure⟩
        | false =>
          simp only [readLeft_later hlen covered reached (Nat.le_of_eq last.symm) (Nat.zero_lt_of_lt here),
            Int.toNat_natCast]
          have fits : LastFits n inode := by
            rcases reach with start | stops | fits
            · exact absurd start.1 (by decide)
            · simp only [StopsEarly, blockBytes] at *
              omega
            · exact fits
          rw [LastFits, ← last] at fits
          have zero := aligned rfl
          refine (readChunk_computes _ _ _).within_bind.mpr ⟨readChunk_within cap (by omega), fun bytes _ => ?_⟩
          refine (inodeReadLoop_computes _ _ _ _ _).within_bind.mpr
            ⟨inodeReadLoop_end (.inl ?_), fun _ _ => within_pure⟩
          simp only [blockBytes] at *
          omega
    · exact inodeReadLoop_end (by omega)

theorem inodeRead_within {file : File} {size : Nat} {before : Byte} (hlen : file.inode.fsInode.len ≤ linkSlots)
    (owned : ∀ b ∈ file.inode.fsInode.links, OnDisk n b) (small : size < 2 ^ 32)
    (fits : ReadFits n file.inode.fsInode (file.offset % 2 ^ 32) size) :
    Within (Transfer.Inside n) (inodeRead file size before) dev := by
  refine (inodeReadLoop_computes _ _ _ _ _).within_bind.mpr ⟨?_, fun _ _ => within_pure⟩
  rcases fits with ended | none | ⟨covered, reach⟩
  · exact inodeReadLoop_end (.inl ended)
  · exact inodeReadLoop_end (.inr none)
  · exact inodeReadLoop_within cap hlen owned small covered (fun later => nomatch later) rfl
      (reach.imp_left fun last => ⟨rfl, last⟩)

end

end OsLabs.Ext2.Rd

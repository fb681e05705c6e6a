import OsLabs.Ext2.Data

/-!
# What a write does

The device after the write loop: the new blocks are marked, and then every chunk
of the buffer is stored at its address. As `offset` never moves, all chunks of a
write into existing blocks go to one address.
-/

namespace OsLabs.Ext2

variable {dev dev' : Device} {inode inode' : Inode} {offset fuel b q : Nat} {buf : List Byte} {bs : List Nat}

/-! ### Link slots -/

namespace Inode

/-- Slot `j` of the link array, as far as there is one. -/
def slot (inode : Inode) (j : Nat) : Nat := inode.link[j]?.getD 0

def pushAll (inode : Inode) (bs : List Nat) : Inode := bs.foldl push inode

theorem linkAt_eq (h : q < linkSlots) : inode.linkAt q = .ok (inode.slot q) := by
  simp [linkAt, slot, h]

@[simp] theorem pushAll_nil : inode.pushAll [] = inode := rfl

@[simp] theorem pushAll_cons : inode.pushAll (b :: bs) = (inode.push b).pushAll bs := rfl

@[simp] theorem push_len : (inode.push b).len = inode.len + 1 := rfl

@[simp] theorem push_index : (inode.push b).index = inode.index := rfl

@[simp] theorem push_size : (inode.push b).size = inode.size := rfl

@[simp] theorem push_type : (inode.push b).type = inode.type := rfl

theorem pushAll_len : (inode.pushAll bs).len = inode.len + bs.length := by
  induction bs generalizing inode with
  | nil => rfl
  | cons b bs ih => rw [pushAll_cons, ih, push_len, List.length_cons]; omega

@[simp] theorem pushAll_index : (inode.pushAll bs).index = inode.index := by
  induction bs generalizing inode with
  | nil => rfl
  | cons b bs ih => rw [pushAll_cons, ih, push_index]

@[simp] theorem pushAll_size : (inode.pushAll bs).size = inode.size := by
  induction bs generalizing inode with
  | nil => rfl
  | cons b bs ih => rw [pushAll_cons, ih, push_size]

@[simp] theorem pushAll_type : (inode.pushAll bs).type = inode.type := by
  induction bs generalizing inode with
  | nil => rfl
  | cons b bs ih => rw [pushAll_cons, ih, push_type]

theorem push_slot : (inode.push b).slot q = if q = inode.len ∧ q < linkSlots then b else inode.slot q := by
  unfold slot push
  rw [Vector.getElem?_setIfInBounds]
  by_cases same : inode.len = q
  · subst same
    by_cases room : inode.len < linkSlots <;> simp [room]
  · have : ¬(q = inode.len ∧ q < linkSlots) := fun h => same h.1.symm
    simp [same, this]

theorem pushAll_slot (room : inode.len + bs.length ≤ linkSlots) : (inode.pushAll bs).slot q =
    if inode.len ≤ q ∧ q < inode.len + bs.length then (bs[q - inode.len]?).getD 0 else inode.slot q := by
  induction bs generalizing inode with
  | nil =>
    rw [pushAll_nil, if_neg]
    rw [List.length_nil]
    omega
  | cons b bs ih =>
    rw [List.length_cons] at room
    rw [pushAll_cons, ih (by rw [push_len]; omega), push_slot, push_len, List.length_cons]
    by_cases same : q = inode.len
    · subst same
      have : inode.len < linkSlots := by omega
      simp [this]
    · by_cases new : inode.len ≤ q ∧ q < inode.len + (bs.length + 1)
      · obtain ⟨k, rfl⟩ : ∃ k, q = inode.len + (k + 1) := ⟨q - inode.len - 1, by omega⟩
        rw [if_pos (by omega), if_pos new]
        congr 1
        rw [show inode.len + (k + 1) - (inode.len + 1) = k by omega, Nat.add_sub_cancel_left,
          List.getElem?_cons_succ]
      · rw [if_neg (by omega), if_neg (by omega), if_neg new]

theorem length_links (h : inode.len ≤ linkSlots) : inode.links.length = inode.len := by
  simp [links]
  exact h

theorem links_getElem? (h : inode.len ≤ linkSlots) (hq : q < inode.len) : inode.links[q]? = some (inode.slot q) := by
  have small : q < linkSlots := by omega
  simp [links, slot, hq, small]

theorem slot_mem (h : inode.len ≤ linkSlots) (hq : q < inode.len) : inode.slot q ∈ inode.links :=
  List.mem_of_getElem? (links_getElem? h hq)

theorem mem_links (h : inode.len ≤ linkSlots) : b ∈ inode.links ↔ ∃ q, q < inode.len ∧ inode.slot q = b := by
  rw [List.mem_iff_getElem?]
  constructor
  · rintro ⟨q, hq⟩
    have small : q < inode.len := by
      rw [← length_links h]
      exact (List.getElem?_eq_some_iff.mp hq).1
    rw [links_getElem? h small] at hq
    exact ⟨q, small, Option.some.inj hq⟩
  · rintro ⟨q, small, rfl⟩
    exact ⟨q, links_getElem? h small⟩

theorem pushAll_links (room : inode.len + bs.length ≤ linkSlots) :
    (inode.pushAll bs).links = inode.links ++ bs := by
  apply List.ext_getElem?
  intro q
  have full : (inode.pushAll bs).len ≤ linkSlots := by rw [pushAll_len]; exact room
  have half : inode.len ≤ linkSlots := by omega
  by_cases old : q < inode.len
  · rw [links_getElem? full (by rw [pushAll_len]; omega), pushAll_slot room, if_neg (by omega),
      List.getElem?_append_left (by rw [length_links half]; exact old), links_getElem? half old]
  · rw [List.getElem?_append_right (by rw [length_links half]; omega), length_links half]
    by_cases new : q < inode.len + bs.length
    · rw [links_getElem? full (by rw [pushAll_len]; exact new), pushAll_slot room, if_pos ⟨by omega, new⟩]
      have inside : q - inode.len < bs.length := by omega
      simp [inside]
    · rw [List.getElem?_eq_none (by rw [length_links full, pushAll_len]; omega),
        List.getElem?_eq_none (by omega)]

end Inode

/-! ### Marks -/

def marks (dev : Device) (bs : List Nat) : Device := bs.foldl (fun dev b => setMap dev dmap b true) dev

@[simp] theorem marks_nil : marks dev [] = dev := rfl

@[simp] theorem marks_cons : marks dev (b :: bs) = marks (setMap dev dmap b true) bs := rfl

theorem freeBits_marks {rest : List Nat} (free : freeBits dev dmap = bs ++ rest) :
    freeBits (marks dev bs) dmap = rest := by
  induction bs generalizing dev with
  | nil => exact free
  | cons b bs ih => exact ih (freeBits_setMap free)

theorem SameMaps.symm (h : SameMaps dev dev') : SameMaps dev' dev := fun x hx => (h x hx).symm

theorem SameMaps.trans {dev'' : Device} (h : SameMaps dev dev') (h' : SameMaps dev' dev'') : SameMaps dev dev'' :=
  fun x hx => (h' x hx).trans (h x hx)

theorem SameMaps.of_write {a : Nat} {c : List Byte} (h : block itable ≤ a) : SameMaps dev (dev.write a c) :=
  fun _ hx => Mem.write_before (by omega)

theorem SameMaps.of_writes {ws : List (Nat × List Byte)} (h : ∀ w ∈ ws, block itable ≤ w.1) :
    SameMaps dev (dev.writes ws) := by
  intro x hx
  apply Mem.writes_outside
  intro w hw cover
  have := h w hw
  have := cover.1
  omega

theorem SameMaps.setMap {blk i : Nat} {x : Bool} (h : SameMaps dev dev') (hb : blk < itable) (hi : i < mapBits) :
    SameMaps (setMap dev blk i x) (setMap dev' blk i x) := by
  intro a ha
  by_cases here : a = map blk i
  · rw [here, setMap_at, setMap_at, h _ (map_lt_table hb hi)]
  · rw [setMap_other here, setMap_other here, h a ha]

theorem data_addr (b r : Nat) : block itable ≤ data b + r := by
  have := maps_lt_data b
  simp only [block, itable, blockBytes]
  omega

theorem setMap_write {a : Nat} {c : List Byte} (hb : b < mapBits) (h : block itable ≤ a) :
    setMap (dev.write a c) dmap b true = (setMap dev dmap b true).write a c := by
  have low := map_lt_table (show dmap < itable by decide) hb
  funext x
  by_cases here : x = map dmap b
  · rw [here, Mem.write_before (by omega), setMap_at, setMap_at, Mem.write_before (by omega)]
  · rw [setMap_other here]
    exact Mem.write_agree (setMap_other here).symm

theorem marks_write {a : Nat} {c : List Byte} (hbs : ∀ b ∈ bs, b < mapBits) (h : block itable ≤ a) :
    marks (dev.write a c) bs = (marks dev bs).write a c := by
  induction bs generalizing dev with
  | nil => rfl
  | cons b bs ih =>
    rw [marks_cons, marks_cons, setMap_write (hbs b List.mem_cons_self) h,
      ih fun b hb => hbs b (List.mem_cons_of_mem _ hb)]

theorem marks_outside {x : Nat} (hbs : ∀ b ∈ bs, b < mapBits) (h : block itable ≤ x) : marks dev bs x = dev x := by
  induction bs generalizing dev with
  | nil => rfl
  | cons b bs ih =>
    have low := map_lt_table (show dmap < itable by decide) (hbs b List.mem_cons_self)
    rw [marks_cons, ih fun b hb => hbs b (List.mem_cons_of_mem _ hb), setMap_other (by omega)]

theorem SameMaps.marks (h : SameMaps dev dev') (hbs : ∀ b ∈ bs, b < mapBits) :
    SameMaps (marks dev bs) (marks dev' bs) := by
  induction bs generalizing dev dev' with
  | nil => exact h
  | cons b bs ih =>
    exact ih (h.setMap (by decide) (hbs b List.mem_cons_self)) fun b hb => hbs b (List.mem_cons_of_mem _ hb)

theorem free_lt (h : b ∈ freeBits dev dmap) : b < mapBits := by
  have := (mem_freeBits.mp h).1
  simp only [mapBits, blockBytes] at *
  omega

/-! ### The loop -/

/-- The chunks of a buffer: one of at most `room` bytes, then blocks. -/
def chunks : Nat → Nat → List Byte → List (List Byte)
  | 0, _, _ => []
  | fuel + 1, room, buf => if buf = [] then [] else buf.take room :: chunks fuel blockBytes (buf.drop room)

/-- The chunks of a write that allocates a block for each, with their addresses. -/
def appendWrites (offset : Nat) : Inode → List Nat → List (List Byte) → List (Nat × List Byte)
  | inode, b :: bs, c :: cs => (data ((inode.push b).slot (offset / blockBytes)) + offset % blockBytes, c) ::
      appendWrites offset (inode.push b) bs cs
  | _, _, _ => []

theorem take_min_length (k : Nat) : buf.take (min k buf.length) = buf.take k := by
  rcases Nat.le_total k buf.length with h | h
  · rw [Nat.min_eq_left h]
  · rw [Nat.min_eq_right h, List.take_length, List.take_of_length_le h]

theorem drop_min_length (k : Nat) : buf.drop (min k buf.length) = buf.drop k := by
  rcases Nat.le_total k buf.length with h | h
  · rw [Nat.min_eq_left h]
  · rw [Nat.min_eq_right h, List.drop_length, List.drop_of_length_le h]

def blocks (n : Nat) : Nat := (n + (blockBytes - 1)) / blockBytes

theorem chunks_getElem? (enough : buf.length ≤ fuel) (k : Nat) : (chunks fuel blockBytes buf)[k]? =
    if blockBytes * k < buf.length then some ((buf.drop (blockBytes * k)).take blockBytes) else none := by
  induction fuel generalizing buf k with
  | zero =>
    obtain rfl := List.eq_nil_of_length_eq_zero (Nat.le_zero.mp enough)
    simp [chunks]
  | succ fuel ih =>
    by_cases done : buf = []
    · simp [done, chunks]
    · have pos := List.length_pos_of_ne_nil done
      rw [chunks, if_neg done]
      cases k with
      | zero => simp [pos]
      | succ k =>
        rw [List.getElem?_cons_succ, ih (by rw [List.length_drop]; simp only [blockBytes]; omega), List.length_drop,
          List.drop_drop, Nat.mul_succ, Nat.add_comm blockBytes]
        by_cases more : blockBytes * k + blockBytes < buf.length
        · rw [if_pos (by omega), if_pos more]
        · rw [if_neg (by omega), if_neg more]

theorem length_chunks (enough : buf.length ≤ fuel) : (chunks fuel blockBytes buf).length = blocks buf.length := by
  have beyond (k : Nat) : (chunks fuel blockBytes buf).length ≤ k ↔ ¬blockBytes * k < buf.length := by
    rw [← List.getElem?_eq_none_iff, chunks_getElem? enough k]
    split <;> simp [*]
  have this := beyond (blocks buf.length)
  have that := beyond (blocks buf.length - 1)
  simp only [blocks, blockBytes] at *
  omega

theorem writeLoop_done {originalLen : Nat} {first : Bool} :
    writeLoop originalLen offset fuel dev inode first [] = .ok (dev, inode) := by
  cases fuel <;> rfl

/-- Into existing blocks: every chunk goes to the address of the first. -/
theorem writeLoop_existing {originalLen : Nat} {first : Bool} (existing : offset < originalLen * blockBytes)
    (hq : offset / blockBytes < linkSlots) (enough : buf.length ≤ fuel) :
    writeLoop originalLen offset fuel dev inode first buf =
      .ok (dev.writes ((chunks fuel (if first then blockBytes - offset % blockBytes else blockBytes) buf).map
        (data (inode.slot (offset / blockBytes)) + offset % blockBytes, ·)), inode) := by
  induction fuel generalizing dev first buf with
  | zero =>
    obtain rfl := List.eq_nil_of_length_eq_zero (Nat.le_zero.mp enough)
    rfl
  | succ fuel ih =>
    by_cases done : buf = []
    · simp [done, writeLoop, chunks]
    · have pos : 0 < blockBytes - offset % blockBytes := by
        have := Nat.mod_lt offset (show 0 < blockBytes by decide)
        omega
      have room : 0 < (if first then blockBytes - offset % blockBytes else blockBytes) := by
        split
        · exact pos
        · decide
      rw [writeLoop, if_neg done, if_pos existing, chunks, if_neg done]
      simp only [writeChunk, Inode.linkAt_eq hq, take_min_length, drop_min_length, bind, Except.bind,
        List.map_cons, Mem.writes_cons]
      rw [ih (by rw [List.length_drop]; omega)]
      rfl

variable {originalLen : Nat} {first : Bool} {rest : List Nat}

theorem allocate_eq (free : freeBits dev dmap = b :: rest) (room : inode.len < linkSlots) :
    allocate dev inode = .ok (setMap dev dmap b true, inode.push b) := by
  have found : freeMap dev dmap = some b := by rw [freeMap_eq, free, List.head?_cons]
  have unmarked : readMap dev dmap b ≠ true := by simp [(freeMap_some found).2]
  unfold allocate
  simp only [found, if_pos room, writeMap_eq unmarked, bind, Except.bind]

theorem allocate_none (full : freeBits dev dmap = []) : allocate dev inode = .error .noFreeBit := by
  have nothing : freeMap dev dmap = none := by rw [freeMap_eq, full, List.head?_nil]
  unfold allocate
  simp only [nothing]

theorem writeLoop_append_round (past : ¬offset < originalLen * blockBytes) (hq : offset / blockBytes < linkSlots)
    (more : buf ≠ []) (free : freeBits dev dmap = b :: rest) (room : inode.len < linkSlots) :
    writeLoop originalLen offset (fuel + 1) dev inode first buf =
      writeLoop originalLen offset fuel ((setMap dev dmap b true).write
        (data ((inode.push b).slot (offset / blockBytes)) + offset % blockBytes) (buf.take blockBytes))
        (inode.push b) first (buf.drop blockBytes) := by
  rw [writeLoop, if_neg more, if_neg past, allocate_eq free room]
  simp only [bind, Except.bind, writeChunk, Inode.linkAt_eq hq, take_min_length, drop_min_length]

theorem freeBits_round {a : Nat} {c : List Byte} (free : freeBits dev dmap = b :: rest) (h : block itable ≤ a) :
    freeBits ((setMap dev dmap b true).write a c) dmap = rest := by
  rw [(SameMaps.of_write h).freeBits (by decide), freeBits_setMap free]

/-- Past the existing blocks: a new block for each chunk. -/
theorem writeLoop_append (past : ¬offset < originalLen * blockBytes) (hq : offset / blockBytes < linkSlots)
    (enough : buf.length ≤ fuel) (free : freeBits dev dmap = bs ++ rest)
    (count : (chunks fuel blockBytes buf).length = bs.length) (room : inode.len + bs.length ≤ linkSlots) :
    writeLoop originalLen offset fuel dev inode first buf =
      .ok ((marks dev bs).writes (appendWrites offset inode bs (chunks fuel blockBytes buf)), inode.pushAll bs) := by
  induction fuel generalizing dev inode buf bs with
  | zero =>
    obtain rfl := List.eq_nil_of_length_eq_zero (Nat.le_zero.mp enough)
    obtain rfl := List.eq_nil_of_length_eq_zero count.symm
    rfl
  | succ fuel ih =>
    by_cases done : buf = []
    · subst done
      obtain rfl := List.eq_nil_of_length_eq_zero count.symm
      rw [writeLoop_done]
      rfl
    · have low : ∀ b ∈ bs, b < mapBits := fun b hb => free_lt (by rw [free]; exact List.mem_append_left _ hb)
      rw [chunks, if_neg done] at count ⊢
      cases bs with
      | nil => simp at count
      | cons b bs =>
        have addr := data_addr ((inode.push b).slot (offset / blockBytes)) (offset % blockBytes)
        rw [List.length_cons] at room
        rw [writeLoop_append_round past hq done free (by omega),
          ih (by rw [List.length_drop]; simp only [blockBytes]; omega) (freeBits_round free addr)
            (by simpa using count) (by rw [Inode.push_len]; omega),
          marks_write (fun b hb => low b (List.mem_cons_of_mem _ hb)) addr]
        rfl

/-- Without enough free blocks the write fails when the last of them is used up. -/
theorem writeLoop_short (past : ¬offset < originalLen * blockBytes) (hq : offset / blockBytes < linkSlots)
    (short : (freeBits dev dmap).length < (chunks fuel blockBytes buf).length)
    (room : inode.len + (freeBits dev dmap).length < linkSlots) :
    writeLoop originalLen offset fuel dev inode first buf = .error .noFreeBit := by
  induction fuel generalizing dev inode buf with
  | zero => simp [chunks] at short
  | succ fuel ih =>
    have more : buf ≠ [] := by
      rintro rfl
      simp [chunks] at short
    rw [chunks, if_neg more, List.length_cons] at short
    cases free : freeBits dev dmap with
    | nil =>
      rw [writeLoop, if_neg more, if_neg past, allocate_none free]
      rfl
    | cons b rest =>
      have addr := data_addr ((inode.push b).slot (offset / blockBytes)) (offset % blockBytes)
      rw [free, List.length_cons] at short room
      rw [writeLoop_append_round past hq more free (by omega)]
      apply ih
      · rw [freeBits_round free addr]
        omega
      · rw [freeBits_round free addr, Inode.push_len]
        omega

/-! ### The whole write -/

/-- The blocks that a write of `n` bytes takes. -/
def newBlocks (dev : Device) (inode : Inode) (offset n : Nat) : List Nat :=
  if offset < inode.len * blockBytes then [] else (freeBits dev dmap).take (blocks n)

def Room (dev : Device) (inode : Inode) (offset n : Nat) : Prop :=
  offset < inode.len * blockBytes ∨ blocks n ≤ (freeBits dev dmap).length

def chunkWrites (dev : Device) (inode : Inode) (buf : List Byte) (offset : Nat) : List (Nat × List Byte) :=
  if offset < inode.len * blockBytes then
    (chunks buf.length (blockBytes - offset % blockBytes) buf).map
      (data (inode.slot (offset / blockBytes)) + offset % blockBytes, ·)
  else appendWrites offset inode (newBlocks dev inode offset buf.length) (chunks buf.length blockBytes buf)

def Inode.grow (inode : Inode) (updateSize : Nat) : Inode :=
  if inode.size < updateSize then { inode with size := updateSize } else inode

/-- The slot of the table that is stored when the size grows. -/
def tableWrites (inode : Inode) (updateSize : Nat) : List (Nat × List Byte) :=
  if inode.size < updateSize then [(table inode.index, (inode.grow updateSize).encode)] else []

theorem mem_newBlocks {n : Nat} (h : b ∈ newBlocks dev inode offset n) : b ∈ freeBits dev dmap := by
  unfold newBlocks at h
  split at h
  · simp at h
  · exact List.mem_of_mem_take h

theorem not_mem_newBlocks {n : Nat} (taken : readMap dev dmap b = true) : b ∉ newBlocks dev inode offset n := by
  intro mem
  rw [(mem_freeBits.mp (mem_newBlocks mem)).2] at taken
  cases taken

theorem newBlocks_lt {n : Nat} : ∀ b ∈ newBlocks dev inode offset n, b < mapBits :=
  fun _ hb => free_lt (mem_newBlocks hb)

theorem length_newBlocks {n : Nat} (past : ¬offset < inode.len * blockBytes) (room : Room dev inode offset n) :
    (newBlocks dev inode offset n).length = blocks n := by
  rw [newBlocks, if_neg past, List.length_take]
  exact Nat.min_eq_left (room.resolve_left past)

theorem covered_of_filled (filled : inode.len = blocks inode.size) : inode.size ≤ inode.len * blockBytes := by
  simp only [blocks, blockBytes] at *
  omega

/-- A write that ends in the last block at most has link slots for its new blocks. -/
theorem slots_suffice {n : Nat} (hlen : inode.len ≤ linkSlots) (fits : offset + n ≤ linkSlots * blockBytes) :
    inode.len + (newBlocks dev inode offset n).length ≤ linkSlots := by
  unfold newBlocks
  split
  · simpa using hlen
  · rw [List.length_take]
    simp only [blocks, linkSlots, blockBytes] at *
    omega

theorem appendWrites_addr {cs : List (List Byte)} : ∀ w ∈ appendWrites offset inode bs cs, block itable ≤ w.1 := by
  induction bs generalizing inode cs with
  | nil => simp [appendWrites]
  | cons b bs ih =>
    cases cs with
    | nil => simp [appendWrites]
    | cons c cs => exact List.forall_mem_cons.mpr ⟨data_addr _ _, ih⟩

theorem chunkWrites_addr : ∀ w ∈ chunkWrites dev inode buf offset, block itable ≤ w.1 := by
  intro w hw
  unfold chunkWrites at hw
  split at hw
  · obtain ⟨c, _, rfl⟩ := List.mem_map.mp hw
    exact data_addr _ _
  · exact appendWrites_addr w hw

theorem loop_eq (hlen : inode.len ≤ linkSlots) (fits : offset + buf.length ≤ linkSlots * blockBytes)
    (room : Room dev inode offset buf.length) :
    writeLoop inode.len offset buf.length dev inode true buf =
      .ok ((marks dev (newBlocks dev inode offset buf.length)).writes (chunkWrites dev inode buf offset),
        inode.pushAll (newBlocks dev inode offset buf.length)) := by
  by_cases done : buf = []
  · subst done
    simp [writeLoop_done, chunkWrites, newBlocks, chunks, appendWrites, blocks, blockBytes]
  · have hq : offset / blockBytes < linkSlots := by
      have := List.length_pos_of_ne_nil done
      simp only [linkSlots, blockBytes] at *
      omega
    have slots := @slots_suffice dev _ _ _ hlen fits
    by_cases existing : offset < inode.len * blockBytes
    · rw [writeLoop_existing existing hq (Nat.le_refl _), newBlocks, chunkWrites, if_pos existing, if_pos existing]
      rfl
    · have split : freeBits dev dmap =
          newBlocks dev inode offset buf.length ++ (freeBits dev dmap).drop (blocks buf.length) := by
        rw [newBlocks, if_neg existing, List.take_append_drop]
      rw [writeLoop_append existing hq (Nat.le_refl _) split _ slots, chunkWrites, if_neg existing]
      rw [length_chunks (Nat.le_refl _), length_newBlocks existing room]

theorem loop_short (fits : offset + buf.length ≤ linkSlots * blockBytes)
    (full : ¬Room dev inode offset buf.length) :
    writeLoop inode.len offset buf.length dev inode true buf = .error .noFreeBit := by
  obtain ⟨past, short⟩ := not_or.mp full
  have counted := length_chunks (Nat.le_refl buf.length)
  apply writeLoop_short past
  · simp only [blocks, linkSlots, blockBytes] at *
    omega
  · omega
  · simp only [blocks, linkSlots, blockBytes] at *
    omega

theorem tableWrites_addr {n : Nat} : ∀ w ∈ tableWrites inode n, block itable ≤ w.1 := by
  intro w hw
  unfold tableWrites at hw
  split at hw
  · obtain rfl := List.mem_singleton.mp hw
    exact block_lt_table _
  · simp at hw

namespace Inode

variable {n : Nat}

@[simp] theorem grow_index : (inode.grow n).index = inode.index := by unfold grow; split <;> rfl

@[simp] theorem grow_type : (inode.grow n).type = inode.type := by unfold grow; split <;> rfl

@[simp] theorem grow_len : (inode.grow n).len = inode.len := by unfold grow; split <;> rfl

@[simp] theorem grow_links : (inode.grow n).links = inode.links := by unfold grow; split <;> rfl

@[simp] theorem grow_slot : (inode.grow n).slot q = inode.slot q := by unfold grow; split <;> rfl

theorem grow_size : (inode.grow n).size = max inode.size n := by
  unfold grow
  split
  · rw [Nat.max_eq_right (by omega)]
  · rw [Nat.max_eq_left (by omega)]

end Inode

theorem grow_device (dev : Device) (inode : Inode) (updateSize : Nat) :
    (if inode.size < updateSize then
      (writeInode dev inode.index { inode with size := updateSize }, { inode with size := updateSize })
    else (dev, inode)) = (dev.writes (tableWrites inode updateSize), inode.grow updateSize) := by
  unfold tableWrites Inode.grow
  split <;> rfl

/-- All that a write stores past the maps, in order. -/
def stored (dev : Device) (inode : Inode) (buf : List Byte) (offset : Nat) : List (Nat × List Byte) :=
  chunkWrites dev inode buf offset ++
    tableWrites (inode.pushAll (newBlocks dev inode offset buf.length)) (offset + buf.length)

def written (dev : Device) (inode : Inode) (offset n : Nat) : Inode :=
  (inode.pushAll (newBlocks dev inode offset n)).grow (offset + n)

theorem stored_addr : ∀ w ∈ stored dev inode buf offset, block itable ≤ w.1 := by
  intro w hw
  rcases List.mem_append.mp hw with hw | hw
  · exact chunkWrites_addr w hw
  · exact tableWrites_addr w hw

theorem dataWrite_eq (hlen : inode.len ≤ linkSlots) (fits : offset + buf.length ≤ linkSlots * blockBytes)
    (room : Room dev inode offset buf.length) :
    dataWrite dev inode buf offset =
      .ok ((marks dev (newBlocks dev inode offset buf.length)).writes (stored dev inode buf offset),
        written dev inode offset buf.length) := by
  rw [dataWrite, loop_eq hlen fits room, stored, written]
  simp only [bind, Except.bind, Mem.writes_append]
  rw [← grow_device]
  split <;> rfl

theorem dataWrite_short (fits : offset + buf.length ≤ linkSlots * blockBytes)
    (full : ¬Room dev inode offset buf.length) : dataWrite dev inode buf offset = .error .noFreeBit := by
  rw [dataWrite, loop_short fits full]
  rfl

/-! ### Devices with the same maps -/

theorem newBlocks_congr {n : Nat} (h : SameMaps dev dev') :
    newBlocks dev' inode offset n = newBlocks dev inode offset n := by
  rw [newBlocks, newBlocks, h.freeBits (by decide)]

theorem stored_congr (h : SameMaps dev dev') : stored dev' inode buf offset = stored dev inode buf offset := by
  rw [stored, stored, chunkWrites, chunkWrites, newBlocks_congr h]

theorem written_congr {n : Nat} (h : SameMaps dev dev') : written dev' inode offset n = written dev inode offset n := by
  rw [written, written, newBlocks_congr h]

theorem room_congr {n : Nat} (h : SameMaps dev dev') : Room dev' inode offset n ↔ Room dev inode offset n := by
  rw [Room, Room, h.freeBits (by decide)]

end OsLabs.Ext2

import OsLabs.Ext2.Read

/-!
# Reading back what was written

A write is read back exactly when it stays in one block. Its loop stores every
chunk at the address of the first, so the second chunk already overwrites the
start of the buffer.
-/

namespace OsLabs.Ext2

/-- What a write and a read of the same bytes should do: the read returns the buffer, and
every other byte below the old size reads as before. -/
def ReadsBack (dev : Device) (inode : Inode) (buf : List Byte) (offset : Nat) : Prop :=
  ∃ dev' inode', dataWrite dev inode buf offset = .ok (dev', inode') ∧
    dataRead dev' inode' buf.length offset = .ok buf ∧
    ∀ p < inode.size, p < offset ∨ offset + buf.length ≤ p → dataRead dev' inode' 1 p = dataRead dev inode 1 p

/-- A write of `n` bytes to a file whose blocks are those of its size, with enough free blocks. -/
structure Request (dev : Device) (inode : Inode) (offset n : Nat) : Prop where
  len_eq : inode.len = blocks inode.size
  distinct : inode.links.Nodup
  start : offset ≤ inode.size
  pos : 0 < n
  fits : inode.size ≤ linkSlots * blockBytes ∧ offset + n ≤ linkSlots * blockBytes
  free : blocks (offset + n) ≤ inode.len + (freeBits dev dmap).length

/-- The write stays in one block, a new block is none of the file's, and the inode, which is stored with
a new size, does not lie in the file: from index 80 on its slot is in data block `(index - 80) / 8`. -/
structure OneBlock (dev : Device) (inode : Inode) (offset n : Nat) : Prop where
  chunk : offset % blockBytes + n ≤ blockBytes
  fresh : inode.len * blockBytes ≤ offset → ∀ b, freeMap dev dmap = some b → b ∉ inode.links
  apart : inode.size < offset + n → 80 ≤ inode.index →
    ∀ j, (inode.links ++ (freeMap dev dmap).toList)[j]? = some ((inode.index - 80) / 8) →
      offset + n ≤ blockBytes * j + inodeBytes * ((inode.index - 80) % 8)

namespace Request

variable {dev dev' : Device} {inode : Inode} {offset n : Nat} {buf : List Byte}

theorem len_le (h : Request dev inode offset n) : inode.len ≤ linkSlots := by
  have := h.fits.1
  rw [h.len_eq]
  simp only [blocks, linkSlots, blockBytes] at *
  omega

theorem covered (h : Request dev inode offset n) : inode.size ≤ inode.len * blockBytes := by
  rw [h.len_eq]
  simp only [blocks, blockBytes]
  omega

theorem past (h : Request dev inode offset n) (past : ¬offset < inode.len * blockBytes) :
    offset = inode.len * blockBytes := by
  have := h.covered
  have := h.start
  omega

theorem room (h : Request dev inode offset n) : Room dev inode offset n := by
  by_cases existing : offset < inode.len * blockBytes
  · exact Or.inl existing
  · have := h.past existing
    have := h.free
    right
    simp only [blocks, blockBytes] at *
    omega

theorem congr (h : Request dev inode offset n) (same : SameMaps dev dev') : Request dev' inode offset n where
  len_eq := h.len_eq
  distinct := h.distinct
  start := h.start
  pos := h.pos
  fits := h.fits
  free := by rw [same.freeBits (by decide)]; exact h.free

theorem slots (h : Request dev inode offset n) : inode.len + (newBlocks dev inode offset n).length ≤ linkSlots :=
  slots_suffice h.len_le h.fits.2

theorem written_len :
    (written dev inode offset n).len = inode.len + (newBlocks dev inode offset n).length := by
  rw [written, Inode.grow_len, Inode.pushAll_len]

/-- The slot where the write starts is one of the file after the write. -/
theorem written_covers (h : Request dev inode offset n) :
    offset / blockBytes < (written dev inode offset n).len := by
  rw [written_len]
  by_cases existing : offset < inode.len * blockBytes
  · simp only [blockBytes] at *
    omega
  · rw [length_newBlocks existing h.room, h.past existing]
    have := h.pos
    simp only [blocks, blockBytes]
    omega

theorem address_old (h : Request dev inode offset n) {p : Nat} (hp : p < inode.len * blockBytes) :
    (written dev inode offset n).address p = inode.address p := by
  have : p / blockBytes < inode.len := by
    simp only [blockBytes] at *
    omega
  rw [Inode.address, Inode.address, written, Inode.grow_slot, Inode.pushAll_slot h.slots, if_neg (by omega)]

end Request

theorem data_inj {b b' r r' : Nat} (hr : r < blockBytes) (hr' : r' < blockBytes) (h : data b + r = data b' + r') :
    b = b' ∧ r = r' := by
  simp only [data, block, dataB, blockBytes] at *
  omega

theorem slot_inj {inode : Inode} {i j : Nat} (hlen : inode.len ≤ linkSlots) (distinct : inode.links.Nodup)
    (hi : i < inode.len) (hj : j < inode.len) (same : inode.slot i = inode.slot j) : i = j := by
  have inside : i < inode.links.length := by rw [Inode.length_links hlen]; exact hi
  have get := Inode.links_getElem? hlen hi
  rw [same, ← Inode.links_getElem? hlen hj] at get
  exact (List.getElem?_inj inside distinct).mp get

theorem address_inj {inode : Inode} {p p' : Nat} (hlen : inode.len ≤ linkSlots) (distinct : inode.links.Nodup)
    (hp : p < inode.len * blockBytes) (hp' : p' < inode.len * blockBytes) (same : inode.address p = inode.address p') :
    p = p' := by
  have pos : 0 < blockBytes := by decide
  obtain ⟨slots, bytes⟩ := data_inj (Nat.mod_lt _ pos) (Nat.mod_lt _ pos) same
  have blocks := slot_inj hlen distinct (Nat.div_lt_of_lt_mul (by rw [Nat.mul_comm]; exact hp))
    (Nat.div_lt_of_lt_mul (by rw [Nat.mul_comm]; exact hp')) slots
  rw [← Nat.div_add_mod p blockBytes, ← Nat.div_add_mod p' blockBytes, blocks, bytes]

section

variable {dev dev' : Device} {inode : Inode} {offset n p : Nat} {buf : List Byte}

theorem chunks_single {room : Nat} (more : buf ≠ []) (short : buf.length ≤ room) :
    chunks buf.length room buf = [buf] := by
  have pos := List.length_pos_of_ne_nil more
  obtain ⟨fuel, hfuel⟩ : ∃ fuel, buf.length = fuel + 1 := ⟨buf.length - 1, by omega⟩
  have rest : chunks fuel blockBytes [] = [] := by cases fuel <;> rfl
  rw [hfuel, chunks, if_neg more, List.drop_of_length_le short, List.take_of_length_le short, rest]

theorem written_size : (written dev inode offset n).size = max inode.size (offset + n) := by
  rw [written, Inode.grow_size, Inode.pushAll_size]

theorem written_links (h : Request dev inode offset n) :
    (written dev inode offset n).links = inode.links ++ newBlocks dev inode offset n := by
  rw [written, Inode.grow_links, Inode.pushAll_links h.slots]

/-- Past the blocks of the file, the new block of a write that fits one is the first free one. -/
theorem newBlocks_single (h : Request dev inode offset n) (past : ¬offset < inode.len * blockBytes)
    (short : n ≤ blockBytes) :
    ∃ b, newBlocks dev inode offset n = [b] ∧ freeMap dev dmap = some b := by
  have one : blocks n = 1 := by
    have := h.pos
    simp only [blocks, blockBytes] at *
    omega
  have count := length_newBlocks past h.room
  rw [one] at count
  obtain ⟨b, single⟩ := List.length_eq_one_iff.mp count
  refine ⟨b, single, ?_⟩
  rw [newBlocks, if_neg past, one] at single
  rw [freeMap_eq]
  cases free : freeBits dev dmap with
  | nil => simp [free] at single
  | cons c rest => simpa [free] using single

theorem chunkWrites_single (h : Request dev inode offset buf.length)
    (chunk : offset % blockBytes + buf.length ≤ blockBytes) :
    chunkWrites dev inode buf offset = [((written dev inode offset buf.length).address offset, buf)] := by
  have more : buf ≠ [] := List.ne_nil_of_length_pos h.pos
  by_cases existing : offset < inode.len * blockBytes
  · rw [chunkWrites, if_pos existing, chunks_single more (by omega), h.address_old existing]
    rfl
  · obtain ⟨b, single, -⟩ := newBlocks_single h existing (by omega)
    rw [chunkWrites, if_neg existing, chunks_single more (by omega), single, written, single, Inode.address,
      Inode.grow_slot]
    rfl

/-- A byte of the file as far as the write reaches, and its place in the block. -/
theorem address_add {w : Inode} {i : Nat} (room : offset % blockBytes + i < blockBytes) :
    w.address (offset + i) = w.address offset + i := by
  have same : (offset + i) / blockBytes = offset / blockBytes ∧
      (offset + i) % blockBytes = offset % blockBytes + i := by
    simp only [blockBytes] at *
    omega
  rw [Inode.address, Inode.address, same.1, same.2, Nat.add_assoc]

theorem fileBlocks (h : Request dev inode offset n) (chunk : offset % blockBytes + n ≤ blockBytes)
    (hp : p < offset + n) : (inode.links ++ (freeMap dev dmap).toList)[p / blockBytes]? =
      some ((written dev inode offset n).slot (p / blockBytes)) := by
  have full : (written dev inode offset n).len ≤ linkSlots := by
    rw [Request.written_len]
    exact h.slots
  by_cases existing : offset < inode.len * blockBytes
  · have hq : p / blockBytes < inode.len := by
      simp only [blockBytes] at *
      omega
    rw [List.getElem?_append_left (by rw [Inode.length_links h.len_le]; exact hq), Inode.links_getElem? h.len_le hq,
      written, Inode.grow_slot, Inode.pushAll_slot h.slots, if_neg (by omega)]
  · obtain ⟨b, single, free⟩ := newBlocks_single h existing (by omega)
    have all : inode.links ++ (freeMap dev dmap).toList = (written dev inode offset n).links := by
      rw [written_links h, single, free]
      rfl
    have hq : p / blockBytes < (written dev inode offset n).len := by
      have := h.past existing
      rw [Request.written_len, single, List.length_singleton]
      simp only [blockBytes] at *
      omega
    rw [all, Inode.links_getElem? full hq]

theorem apart_iff (h : Request dev inode offset n) (chunk : offset % blockBytes + n ≤ blockBytes) :
    (∀ p < offset + n, ¬Mem.Covers (table inode.index, (written dev inode offset n).encode)
        ((written dev inode offset n).address p)) ↔
      (80 ≤ inode.index → ∀ j, (inode.links ++ (freeMap dev dmap).toList)[j]? = some ((inode.index - 80) / 8) →
        offset + n ≤ blockBytes * j + inodeBytes * ((inode.index - 80) % 8)) := by
  constructor
  · intro apart high j there
    by_contra early
    have hp : blockBytes * j + inodeBytes * ((inode.index - 80) % 8) < offset + n := by omega
    have place : (blockBytes * j + inodeBytes * ((inode.index - 80) % 8)) / blockBytes = j ∧
        (blockBytes * j + inodeBytes * ((inode.index - 80) % 8)) % blockBytes =
          inodeBytes * ((inode.index - 80) % 8) := by
      simp only [blockBytes, inodeBytes]
      omega
    have slot := fileBlocks h chunk hp
    rw [place.1, there] at slot
    apply apart _ hp
    rw [Inode.address, place.1, place.2, covers_data (by simp only [blockBytes, inodeBytes]; omega)]
    exact ⟨high, (Option.some.inj slot).symm, Nat.le_refl _, Nat.lt_add_of_pos_right (by decide)⟩
  · intro apart p hp covers
    rw [Inode.address, covers_data (Nat.mod_lt _ (by decide))] at covers
    obtain ⟨high, here, after, -⟩ := covers
    have := apart high (p / blockBytes) (by rw [fileBlocks h chunk hp, here])
    have := Nat.div_add_mod p blockBytes
    omega

theorem table_misses (h : Request dev inode offset n) (one : OneBlock dev inode offset n)
    (hp : p < max inode.size (offset + n)) :
    ∀ v ∈ tableWrites (inode.pushAll (newBlocks dev inode offset n)) (offset + n),
      ¬Mem.Covers v ((written dev inode offset n).address p) := by
  intro v hv
  unfold tableWrites at hv
  rw [Inode.pushAll_size, Inode.pushAll_index] at hv
  split at hv
  case isTrue grows =>
    obtain rfl := List.mem_singleton.mp hv
    exact (apart_iff h one.chunk).mpr (one.apart grows) p (by omega)
  case isFalse => simp at hv

theorem written_distinct (h : Request dev inode offset n) (one : OneBlock dev inode offset n) :
    (written dev inode offset n).links.Nodup := by
  rw [written_links h]
  by_cases existing : offset < inode.len * blockBytes
  · rw [newBlocks, if_pos existing, List.append_nil]
    exact h.distinct
  · obtain ⟨b, single, free⟩ := newBlocks_single h existing (by have := one.chunk; omega)
    rw [single, List.nodup_append]
    refine ⟨h.distinct, by simp, ?_⟩
    intro c hc d hd
    rw [List.mem_singleton.mp hd]
    rintro rfl
    exact one.fresh (by omega) c free hc

theorem written_covered (h : Request dev inode offset n) (chunk : offset % blockBytes + n ≤ blockBytes) :
    (written dev inode offset n).size ≤ (written dev inode offset n).len * blockBytes := by
  have reach := h.written_covers
  have old := h.covered
  have grown : inode.len ≤ (written dev inode offset n).len := by
    rw [Request.written_len]
    omega
  rw [written_size]
  simp only [blockBytes] at *
  omega

/-- A write inside one block is read back, and changes nothing else of the file. -/
theorem readsBack_of_oneBlock (h : Request dev inode offset buf.length)
    (one : OneBlock dev inode offset buf.length) : ReadsBack dev inode buf offset := by
  let w := written dev inode offset buf.length
  let dev₁ := marks dev (newBlocks dev inode offset buf.length)
  let dev₂ := dev₁.writes (stored dev inode buf offset)
  have full : w.len ≤ linkSlots := by
    show (written dev inode offset buf.length).len ≤ linkSlots
    rw [Request.written_len]
    exact h.slots
  have covered : w.size ≤ w.len * blockBytes := written_covered h one.chunk
  have size : w.size = max inode.size (offset + buf.length) := written_size
  have bytes (x : Nat) (hx : x < max inode.size (offset + buf.length)) :
      dev₂ (w.address x) = dev₁.write (w.address offset) buf (w.address x) := by
    show dev₁.writes (stored dev inode buf offset) (w.address x) = _
    rw [stored, chunkWrites_single h one.chunk, Mem.writes_append, Mem.writes_outside (table_misses h one hx)]
    rfl
  have inside (i : Nat) (hi : i < buf.length) : w.address (offset + i) = w.address offset + i :=
    address_add (by have := one.chunk; omega)
  refine ⟨dev₂, w, dataWrite_eq h.len_le h.fits.2 h.room, ?_, ?_⟩
  · rw [dataRead_inside full covered (by omega)]
    congr 1
    apply List.ext_getElem (by simp)
    intro i hi hbuf
    simp only [List.getElem_map, List.getElem_range, byteAt]
    rw [bytes _ (by omega), inside i hbuf, Mem.write_at i hbuf]
  · intro p hp out
    have marked : dev₁ (w.address p) = dev (w.address p) := marks_outside newBlocks_lt (data_addr _ _)
    have kept : byteAt dev₂ w p = byteAt dev inode p := by
      have misses : w.address p < w.address offset ∨ w.address offset + buf.length ≤ w.address p := by
        by_contra hits
        obtain ⟨i, hi⟩ : ∃ i, w.address p = w.address offset + i := ⟨w.address p - w.address offset, by omega⟩
        have small : i < buf.length := by omega
        have same := address_inj full (written_distinct h one) (by omega) (by omega) (hi.trans (inside i small).symm)
        omega
      have old : w.address p = inode.address p := h.address_old (by have := h.covered; omega)
      rw [byteAt, bytes p (by omega), Mem.write_outside misses, marked, old, byteAt]
    rw [dataRead_inside full covered (by omega), dataRead_inside h.len_le h.covered (by omega)]
    simpa using kept

/-! ### Nothing else is read back -/

/-- The chunks of what is left of a buffer: there is a first one, which is not empty. -/
theorem chunks_drop {tail : List Byte} {k : Nat} (hk : k < tail.length) : ∃ rest,
    chunks tail.length blockBytes (tail.drop k) = (tail.drop k).take blockBytes :: rest ∧
      0 < ((tail.drop k).take blockBytes).length := by
  obtain ⟨fuel, hfuel⟩ : ∃ fuel, tail.length = fuel + 1 := ⟨tail.length - 1, by omega⟩
  have more : tail.drop k ≠ [] := by
    rw [← List.length_pos_iff, List.length_drop]
    omega
  rw [hfuel, chunks, if_neg more, List.length_take, List.length_drop]
  exact ⟨_, rfl, by simp only [blockBytes]; omega⟩

theorem covers_first {a : Nat} {c : List Byte} (pos : 0 < c.length) : Mem.Covers (a, c) a :=
  ⟨Nat.le_refl a, by simpa using pos⟩

/-- When a write needs a second chunk, that chunk covers the first byte of the buffer, and neither it
nor what follows depends on that byte. -/
def Split (dev : Device) (inode : Inode) (tail : List Byte) (offset : Nat) : Prop :=
  ∃ rest, (∃ v ∈ rest, Mem.Covers v ((written dev inode offset (tail.length + 1)).address offset)) ∧
    ∀ x, ∃ c, stored dev inode (x :: tail) offset =
      ((written dev inode offset (tail.length + 1)).address offset, c) :: rest

theorem stored_split_existing {tail : List Byte} (h : Request dev inode offset (tail.length + 1))
    (long : blockBytes < offset % blockBytes + (tail.length + 1)) (existing : offset < inode.len * blockBytes) :
    Split dev inode tail offset := by
  have aligned := Nat.mod_lt offset (show 0 < blockBytes by decide)
  obtain ⟨k, hk⟩ : ∃ k, blockBytes - offset % blockBytes = k + 1 := ⟨blockBytes - offset % blockBytes - 1, by omega⟩
  obtain ⟨rest, next, pos⟩ := @chunks_drop tail k (by omega)
  refine ⟨(chunks tail.length blockBytes (tail.drop k)).map
    (data (inode.slot (offset / blockBytes)) + offset % blockBytes, ·) ++
      tableWrites (inode.pushAll (newBlocks dev inode offset (tail.length + 1))) (offset + (tail.length + 1)),
    ⟨(data (inode.slot (offset / blockBytes)) + offset % blockBytes, (tail.drop k).take blockBytes), ?_, ?_⟩,
    fun x => ⟨(x :: tail).take (k + 1), ?_⟩⟩
  · rw [next]
    simp
  · rw [h.address_old existing]
    exact covers_first pos
  · rw [stored, chunkWrites, if_pos existing, List.length_cons, chunks, if_neg (List.cons_ne_nil x tail), hk,
      List.drop_succ_cons, h.address_old existing]
    rfl

theorem stored_split_append {tail : List Byte} (h : Request dev inode offset (tail.length + 1))
    (long : blockBytes < offset % blockBytes + (tail.length + 1)) (past : ¬offset < inode.len * blockBytes) :
    Split dev inode tail offset := by
  have aligned : offset % blockBytes = 0 := by
    rw [h.past past, Nat.mul_mod_left]
  have slot : offset / blockBytes = inode.len := by
    rw [h.past past]
    exact Nat.mul_div_cancel _ (by decide)
  have count := length_newBlocks past h.room
  obtain ⟨b, b', bs, new⟩ : ∃ b b' bs, newBlocks dev inode offset (tail.length + 1) = b :: b' :: bs := by
    match hnew : newBlocks dev inode offset (tail.length + 1) with
    | [] | [_] =>
      rw [hnew] at count
      simp only [blocks, blockBytes, List.length_cons, List.length_nil] at *
      omega
    | b :: b' :: bs => exact ⟨b, b', bs, rfl⟩
  have slots := h.slots
  rw [new] at slots
  simp only [List.length_cons] at slots
  have first : (inode.push b).slot inode.len = b := by
    rw [Inode.push_slot, if_pos ⟨rfl, by omega⟩]
  have kept : ((inode.push b).push b').slot inode.len = b := by
    rw [Inode.push_slot, if_neg (by rw [Inode.push_len]; omega), first]
  have final : (written dev inode offset (tail.length + 1)).address offset = data b + offset % blockBytes := by
    rw [Inode.address, written, Inode.grow_slot, new, slot,
      Inode.pushAll_slot (by simp only [List.length_cons]; omega), if_pos (by simp only [List.length_cons]; omega)]
    simp
  obtain ⟨rest, next, pos⟩ := @chunks_drop tail 1023 (by rw [aligned] at long; simp only [blockBytes] at long; omega)
  refine ⟨appendWrites offset (inode.push b) (b' :: bs) (chunks tail.length blockBytes (tail.drop 1023)) ++
      tableWrites (inode.pushAll (newBlocks dev inode offset (tail.length + 1))) (offset + (tail.length + 1)),
    ⟨(data b + offset % blockBytes, (tail.drop 1023).take blockBytes), ?_, ?_⟩,
    fun x => ⟨(x :: tail).take blockBytes, ?_⟩⟩
  · rw [next, appendWrites, slot, kept]
    simp
  · rw [final]
    exact covers_first pos
  · rw [stored, chunkWrites, if_neg past, List.length_cons, new, chunks, if_neg (List.cons_ne_nil x tail),
      show blockBytes = 1023 + 1 from rfl, List.drop_succ_cons, appendWrites, slot, first, final]
    rfl

theorem stored_split {tail : List Byte} (h : Request dev inode offset (tail.length + 1))
    (long : blockBytes < offset % blockBytes + (tail.length + 1)) : Split dev inode tail offset := by
  by_cases existing : offset < inode.len * blockBytes
  · exact stored_split_existing h long existing
  · exact stored_split_append h long existing

/-- The write reads back on every device with the same maps, whatever the buffer holds. -/
def AlwaysReadsBack (dev : Device) (inode : Inode) (offset n : Nat) : Prop :=
  ∀ dev' buf, SameMaps dev dev' → buf.length = n → ReadsBack dev' inode buf offset

theorem readsBack_read (h : Request dev inode offset buf.length) (same : SameMaps dev dev')
    (back : ReadsBack dev' inode buf offset) :
    let dev₂ := (marks dev' (newBlocks dev inode offset buf.length)).writes (stored dev inode buf offset)
    dataRead dev₂ (written dev inode offset buf.length) buf.length offset = .ok buf ∧
      ∀ p < inode.size, p < offset ∨ offset + buf.length ≤ p →
        dataRead dev₂ (written dev inode offset buf.length) 1 p = dataRead dev' inode 1 p := by
  obtain ⟨dev₂, inode₂, done, read, others⟩ := back
  have result := dataWrite_eq h.len_le h.fits.2 (h.congr same).room
  rw [newBlocks_congr same, stored_congr same, written_congr same, done] at result
  obtain ⟨rfl, rfl⟩ := Prod.mk.inj (Except.ok.inj result)
  exact ⟨read, others⟩

theorem readsBack_first (h : Request dev inode offset buf.length) (same : SameMaps dev dev')
    (back : ReadsBack dev' inode buf offset) :
    buf[0]? = some ((marks dev' (newBlocks dev inode offset buf.length)).writes (stored dev inode buf offset)
      ((written dev inode offset buf.length).address offset)) := by
  have small : max inode.size (offset + buf.length) ≤ linkSlots * blockBytes := Nat.max_le.mpr h.fits
  have pos := h.pos
  refine dataRead_first ?_ h.written_covers ?_ pos ?_ (readsBack_read h same back).1
  · rw [Request.written_len]
    exact h.slots
  · rw [written_size]
    exact small
  · rw [written_size]
    omega

/-- Two buffers that differ in the first byte only cannot both be read back after two chunks. -/
theorem chunk_of_always (h : Request dev inode offset n) (all : AlwaysReadsBack dev inode offset n) :
    offset % blockBytes + n ≤ blockBytes := by
  by_contra long
  obtain ⟨k, rfl⟩ : ∃ k, n = k + 1 := ⟨n - 1, by have := h.pos; omega⟩
  let tail : List Byte := List.replicate k 0
  have length : tail.length = k := List.length_replicate
  have request : Request dev inode offset (tail.length + 1) := by rw [length]; exact h
  obtain ⟨rest, covered, split⟩ := stored_split request (by rw [length]; omega)
  have read (x : Byte) : x = (marks dev (newBlocks dev inode offset (tail.length + 1))).writes
      (stored dev inode (x :: tail) offset) ((written dev inode offset (tail.length + 1)).address offset) := by
    have back := all dev (x :: tail) (fun _ _ => rfl) (by rw [List.length_cons, length])
    have first := @readsBack_first dev dev inode offset (x :: tail) request (fun _ _ => rfl) back
    rw [List.getElem?_cons_zero, List.length_cons] at first
    exact Option.some.inj first
  obtain ⟨c, zero⟩ := split 0
  obtain ⟨d, one⟩ := split 1
  have same : (0 : Byte) = 1 := by
    rw [read 0, read 1, zero, one, Mem.writes_cons, Mem.writes_cons]
    exact Mem.writes_covered covered
  exact absurd same (by decide)

/-- A byte of the file that the write covers but should keep reads the same on two devices that differ there. -/
theorem not_covered_of_always (h : Request dev inode offset n) (all : AlwaysReadsBack dev inode offset n)
    (hp : p < inode.size) (out : p < offset ∨ offset + n ≤ p) (hlen : buf.length = n) :
    ¬∃ v ∈ stored dev inode buf offset, Mem.Covers v (inode.address p) := by
  intro covered
  subst hlen
  have covers := written_covered h (chunk_of_always h all)
  have full : (written dev inode offset buf.length).len ≤ linkSlots := by
    rw [Request.written_len]
    exact h.slots
  have old : (written dev inode offset buf.length).address p = inode.address p :=
    h.address_old (by have := h.covered; omega)
  have read (x : Byte) :
      x = (marks (dev.write (inode.address p) [x]) (newBlocks dev inode offset buf.length)).writes
        (stored dev inode buf offset) (inode.address p) := by
    have same : SameMaps dev (dev.write (inode.address p) [x]) := SameMaps.of_write (data_addr _ _)
    have after := (readsBack_read h same (all _ buf same rfl)).2 p hp out
    rw [dataRead_inside full covers (by rw [written_size]; omega), dataRead_inside h.len_le h.covered (by omega)]
      at after
    have byte : byteAt (dev.write (inode.address p) [x]) inode p = x := by
      have := @Mem.write_at dev (inode.address p) [x] 0 (by simp)
      simpa [byteAt] using this
    simp only [List.range_one, List.map_cons, List.map_nil, Nat.add_zero, byte, Except.ok.injEq, List.cons.injEq,
      and_true] at after
    rw [byteAt, old] at after
    exact after.symm
  have same : (0 : Byte) = 1 := by
    rw [read 0, read 1]
    exact Mem.writes_covered covered
  exact absurd same (by decide)

theorem fresh_of_always (h : Request dev inode offset n) (all : AlwaysReadsBack dev inode offset n)
    (past : inode.len * blockBytes ≤ offset) {b : Nat} (free : freeMap dev dmap = some b) : b ∉ inode.links := by
  intro mem
  have chunk := chunk_of_always h all
  obtain ⟨j, hj, here⟩ := (Inode.mem_links h.len_le).mp mem
  obtain ⟨buf, length⟩ : ∃ buf : List Byte, buf.length = n := ⟨List.replicate n 0, List.length_replicate⟩
  subst length
  obtain ⟨c, new, free'⟩ := newBlocks_single h (by omega) (by omega)
  obtain rfl : b = c := Option.some.inj (free.symm.trans free')
  have size : blockBytes * j < inode.size := by
    have := h.len_eq
    simp only [blocks, blockBytes] at *
    omega
  have start : offset = inode.len * blockBytes := h.past (by omega)
  refine @not_covered_of_always dev inode offset buf.length (blockBytes * j) buf h all size ?_ rfl
    ⟨_, List.mem_append_left _ (by rw [chunkWrites_single h chunk]; exact List.mem_singleton_self _), ?_⟩
  · left
    rw [start, Nat.mul_comm]
    exact Nat.mul_lt_mul_of_pos_right hj (by decide)
  · have slot : offset / blockBytes = inode.len := by
      rw [start]
      exact Nat.mul_div_cancel _ (by decide)
    have slots := h.slots
    rw [new] at slots
    have there : (written dev inode offset buf.length).address offset = inode.address (blockBytes * j) := by
      rw [Inode.address, Inode.address, written, Inode.grow_slot, new, slot,
        Inode.pushAll_slot slots, if_pos (by simp), Nat.mul_div_cancel_left _ (by decide), Nat.mul_mod_right, start,
        Nat.mul_mod_left, here]
      simp
    have pos := h.pos
    exact ⟨Nat.le_of_eq there, by rw [there]; show _ < _ + buf.length; omega⟩

theorem apart_of_always (h : Request dev inode offset n) (all : AlwaysReadsBack dev inode offset n)
    (grows : inode.size < offset + n) (hp : p < offset + n) :
    ¬Mem.Covers (table inode.index, (written dev inode offset n).encode) ((written dev inode offset n).address p) := by
  intro covers
  have chunk := chunk_of_always h all
  have full : (written dev inode offset n).len ≤ linkSlots := by
    rw [Request.written_len]
    exact h.slots
  have table : tableWrites (inode.pushAll (newBlocks dev inode offset n)) (offset + n) =
      [(table inode.index, (written dev inode offset n).encode)] := by
    rw [tableWrites, Inode.pushAll_size, Inode.pushAll_index, if_pos grows]
    rfl
  have length (x : Byte) : (List.replicate n x).length = n := List.length_replicate
  have split (x : Byte) : stored dev inode (List.replicate n x) offset =
      chunkWrites dev inode (List.replicate n x) offset ++
        [(Ext2.table inode.index, (written dev inode offset n).encode)] := by
    rw [stored, length, table]
  by_cases early : p < offset
  · have size : p < inode.size := Nat.lt_of_lt_of_le early h.start
    have old := h.address_old (Nat.lt_of_lt_of_le size h.covered)
    refine not_covered_of_always h all size (Or.inl early) (length 0) ⟨_, ?_, old ▸ covers⟩
    rw [split]
    exact List.mem_append_right _ (List.mem_singleton_self _)
  · -- the byte is one of the buffer, but the slot of the table is stored over it
    have read (x : Byte) : x = (marks dev (newBlocks dev inode offset n)).writes
        (stored dev inode (List.replicate n x) offset) ((written dev inode offset n).address p) := by
      have request : Request dev inode offset (List.replicate n x).length := by rw [length]; exact h
      have back := (readsBack_read request (fun _ _ => rfl) (all dev _ (fun _ _ => rfl) (length x))).1
      rw [length, dataRead_inside full (written_covered h chunk) (by rw [written_size]; omega)] at back
      have byte := congrArg (fun l => l[p - offset]?) (Except.ok.inj back)
      have small : p - offset < n := by omega
      simp only [List.getElem?_map, List.getElem?_range small, Option.map_some, List.getElem?_replicate, if_pos small,
        Nat.add_sub_cancel' (Nat.le_of_not_lt early), byteAt, Option.some.injEq] at byte
      exact byte.symm
    have same : (0 : Byte) = 1 := by
      rw [read 0, read 1, split, split, Mem.writes_append, Mem.writes_append]
      exact Mem.writes_covered ⟨_, List.mem_singleton_self _, covers⟩
    exact absurd same (by decide)

/-- Exactly the writes that stay in one block are read back. -/
theorem readsBack_iff (h : Request dev inode offset n) :
    AlwaysReadsBack dev inode offset n ↔ OneBlock dev inode offset n := by
  constructor
  · intro all
    have chunk := chunk_of_always h all
    exact ⟨chunk, fun past _ => fresh_of_always h all past, fun grows =>
      (apart_iff h chunk).mp fun _ => apart_of_always h all grows⟩
  · intro one dev' buf same length
    subst length
    have free : freeMap dev' dmap = freeMap dev dmap := by
      rw [freeMap_eq, same.freeBits (by decide), freeMap_eq]
    exact readsBack_of_oneBlock (h.congr same) ⟨one.chunk, by rw [free]; exact one.fresh, by rw [free]; exact one.apart⟩

end

def twoBlocks : Inode where
  index := 1
  type := NF
  permission := 0
  size := 2048
  len := 2
  id := 1
  dirLen := 0
  linkNum := 1
  link := (Vector.replicate linkSlots 0).set 1 1

/-- A device where nothing but the two blocks is marked. -/
def twoMarked : Device := fun x => if x = 0 then 2 else if x = 1024 then 3 else 0

theorem twoBlocks_request {offset n : Nat} (start : offset ≤ 2048) (pos : 0 < n) (inside : offset + n ≤ 2048) :
    Request twoMarked twoBlocks offset n where
  len_eq := by decide
  distinct := by decide
  start := start
  pos := pos
  fits := ⟨by decide, by simp only [linkSlots, blockBytes]; omega⟩
  free := by
    have enough : blocks (offset + n) ≤ twoBlocks.len := by
      rw [show twoBlocks.len = 2 from rfl]
      simp only [blocks, blockBytes]
      omega
    exact Nat.le_trans enough (Nat.le_add_right _ _)

/-- A write inside the second block. -/
theorem readsBack_iff_sample : AlwaysReadsBack twoMarked twoBlocks 1024 1000 :=
  (readsBack_iff (twoBlocks_request (by decide) (by decide) (by decide))).mpr
    ⟨by decide, fun past => absurd past (by decide), fun grows => absurd grows (by decide)⟩

/-- Two bytes across a block boundary: the second is stored over the first. -/
theorem readsBack_counterexample :
    Request twoMarked twoBlocks 1023 [1, 2].length ∧ ¬ReadsBack twoMarked twoBlocks [1, 2] 1023 := by
  refine ⟨twoBlocks_request (by decide) (by decide) (by decide), ?_⟩
  rintro ⟨dev, inode, done, read, -⟩
  have wrong : (dataWrite twoMarked twoBlocks [1, 2] 1023 >>= fun r => dataRead r.1 r.2 2 1023) =
      .ok [2, 0] := by decide +kernel
  rw [done] at wrong
  have := Except.ok.inj (read.symm.trans wrong)
  exact absurd this (by decide)

end OsLabs.Ext2

import OsLabs.Ext2.Read

/-!
# A write leaves the other files alone

The chunks of a write start at the same place in a block, and only the first is cut
to what is left of that block. A later chunk may reach into the next physical block,
which belongs to anyone.
-/

namespace OsLabs.Ext2

/-! ### Blocks that a run of bytes touches -/

/-- The run stores no byte outside the data blocks `bs`. -/
def Stays (bs : List Nat) (w : Nat × List Byte) : Prop := ∀ b ∉ bs, ∀ r < blockBytes, ¬Mem.Covers w (data b + r)

variable {dev dev' : Device} {inode : Inode} {offset n b s fuel : Nat} {bs : List Nat} {buf c : List Byte}

/-- A run of at most a block touches the block where it starts and maybe the next one. -/
theorem stays_iff (hs : s < blockBytes) (some : 0 < c.length) (short : c.length ≤ blockBytes) :
    Stays bs (data b + s, c) ↔ b ∈ bs ∧ (s + c.length ≤ blockBytes ∨ b + 1 ∈ bs) := by
  have next (r : Nat) : data (b + 1) + r = data b + (blockBytes + r) := by
    simp only [data, blockBytes]
    omega
  constructor
  · intro stays
    refine ⟨?_, ?_⟩
    · by_contra out
      exact stays b out s hs ⟨Nat.le_refl _, by simpa using some⟩
    · by_contra out
      obtain ⟨long, out⟩ := not_or.mp out
      apply stays (b + 1) out 0 (by decide)
      rw [next]
      simp only [Mem.Covers]
      omega
  · rintro ⟨here, room⟩ b' out r hr ⟨lo, hi⟩
    simp only at lo hi
    have near : b' = b ∨ b' = b + 1 ∧ blockBytes < s + c.length := by
      simp only [data, block, dataB, blockBytes] at *
      omega
    rcases near with rfl | ⟨rfl, long⟩
    · exact out here
    · exact out (room.resolve_left (by omega))

/-- The slot of the table is outside the data, or in one data block. -/
theorem stays_table {w : Inode} :
    Stays bs (table inode.index, w.encode) ↔ inode.index < 80 ∨ (inode.index - 80) / 8 ∈ bs := by
  constructor
  · intro stays
    by_contra out
    obtain ⟨high, out⟩ := not_or.mp out
    apply stays _ out (inodeBytes * ((inode.index - 80) % 8)) (by simp only [inodeBytes, blockBytes]; omega)
    rw [covers_data (by simp only [inodeBytes, blockBytes]; omega)]
    exact ⟨by omega, rfl, Nat.le_refl _, Nat.lt_add_of_pos_right (by decide)⟩
  · rintro inside b' out r hr covers
    obtain ⟨high, rfl, -, -⟩ := (covers_data hr).mp covers
    rcases inside with small | mem
    · omega
    · exact out mem

/-! ### The chunks -/

theorem mem_chunks (enough : buf.length ≤ fuel) (h : c ∈ chunks fuel blockBytes buf) :
    0 < c.length ∧ c.length ≤ min blockBytes buf.length := by
  obtain ⟨k, hk⟩ := List.mem_iff_getElem?.mp h
  rw [chunks_getElem? enough] at hk
  split at hk
  · obtain rfl := Option.some.inj hk
    rw [List.length_take, List.length_drop]
    simp only [blockBytes] at *
    omega
  · cases hk

/-- Into existing blocks: only a second chunk can reach past the block, as far as `n` allows. -/
theorem stays_existing {r : Nat} (hr : r < blockBytes) (mem : b ∈ bs) :
    (∀ c ∈ chunks buf.length (blockBytes - r) buf, Stays bs (data b + r, c)) ↔
      r = 0 ∨ buf.length ≤ 2 * (blockBytes - r) ∨ b + 1 ∈ bs := by
  cases hlen : buf.length with
  | zero => simp [chunks]
  | succ fuel =>
    have more : buf ≠ [] := List.ne_nil_of_length_pos (by omega)
    have rest : (buf.drop (blockBytes - r)).length = fuel + 1 - (blockBytes - r) := by rw [List.length_drop, hlen]
    have first : Stays bs (data b + r, buf.take (blockBytes - r)) := by
      rw [stays_iff hr (by rw [List.length_take]; omega) (by rw [List.length_take]; omega), List.length_take]
      exact ⟨mem, Or.inl (by omega)⟩
    rw [chunks, if_neg more, List.forall_mem_cons]
    constructor
    · rintro ⟨-, stays⟩
      by_contra out
      obtain ⟨shifted, out⟩ := not_or.mp out
      obtain ⟨long, out⟩ := not_or.mp out
      have second : (buf.drop (blockBytes - r)).take blockBytes ∈ chunks fuel blockBytes
          (buf.drop (blockBytes - r)) := by
        have get := @chunks_getElem? fuel (buf.drop (blockBytes - r)) (by rw [rest]; omega) 0
        rw [Nat.mul_zero, if_pos (by rw [rest]; omega), List.drop_zero] at get
        exact List.mem_of_getElem? get
      have := stays _ second
      rw [stays_iff hr (by rw [List.length_take, rest]; simp only [blockBytes] at *; omega)
        (by rw [List.length_take]; omega), List.length_take, rest] at this
      rcases this.2 with short | next
      · omega
      · exact out next
    · intro room
      refine ⟨first, fun c hc => ?_⟩
      have size := mem_chunks (by rw [rest]; omega) hc
      rw [rest] at size
      rw [stays_iff hr size.1 (by omega)]
      refine ⟨mem, ?_⟩
      rcases room with zero | short | next
      · exact Or.inl (by omega)
      · exact Or.inl (by omega)
      · exact Or.inr next

/-- Where the `k`-th chunk of an allocating write goes: to the new block of its slot once there is one. -/
theorem appendWrites_getElem? {new : List Nat} {cs : List (List Byte)} (count : cs.length = new.length)
    (room : inode.len + new.length ≤ linkSlots) (k : Nat) :
    (appendWrites offset inode new cs)[k]? = cs[k]?.map fun c =>
      (data ((inode.pushAll (new.take (k + 1))).slot (offset / blockBytes)) + offset % blockBytes, c) := by
  induction new generalizing inode cs k with
  | nil =>
    obtain rfl := List.eq_nil_of_length_eq_zero count
    simp [appendWrites]
  | cons b new ih =>
    cases cs with
    | nil => simp at count
    | cons c cs =>
      rw [List.length_cons] at room
      cases k with
      | zero => simp [appendWrites]
      | succ k =>
        rw [appendWrites, List.getElem?_cons_succ, List.getElem?_cons_succ, List.take_succ_cons, Inode.pushAll_cons,
          ih (by simpa using count) (by rw [Inode.push_len]; omega)]

theorem chunk_inside {new : List Nat} (count : new.length = blocks buf.length) (k : Nat) :
    blockBytes * k < buf.length ↔ k < new.length := by
  rw [count]
  simp only [blocks, blockBytes]
  omega

/-- The place of chunk `k`: slot `q` when the blocks up to the one for it are pushed. -/
theorem pushAll_take_slot {new : List Nat} {k : Nat} (past : inode.len ≤ q) (room : inode.len + new.length ≤ linkSlots)
    (hk : k < new.length) : (inode.pushAll (new.take (k + 1))).slot q =
      if q - inode.len ≤ k then (new[q - inode.len]?).getD 0 else inode.slot q := by
  rw [Inode.pushAll_slot (by rw [List.length_take]; omega), List.length_take, Nat.min_eq_left (by omega)]
  by_cases there : q - inode.len ≤ k
  · rw [if_pos (by omega), if_pos there, List.getElem?_take_of_lt (by omega)]
  · rw [if_neg (by omega), if_neg there]

theorem appendWrites_chunks {new : List Nat} (P : Nat × List Byte → Prop) (count : new.length = blocks buf.length)
    (room : inode.len + new.length ≤ linkSlots) :
    (∀ w ∈ appendWrites offset inode new (chunks buf.length blockBytes buf), P w) ↔
      ∀ k < new.length, P (data ((inode.pushAll (new.take (k + 1))).slot (offset / blockBytes)) +
        offset % blockBytes, (buf.drop (blockBytes * k)).take blockBytes) := by
  have get (k : Nat) := @appendWrites_getElem? inode offset new (chunks buf.length blockBytes buf)
    (by rw [length_chunks (Nat.le_refl _), count]) room k
  constructor
  · intro each k hk
    refine each _ (List.mem_of_getElem? (i := k) ?_)
    rw [get, chunks_getElem? (Nat.le_refl _), if_pos ((chunk_inside count k).mpr hk)]
    rfl
  · intro each w hw
    obtain ⟨k, hk⟩ := List.mem_iff_getElem?.mp hw
    rw [get, chunks_getElem? (Nat.le_refl _)] at hk
    split at hk
    case isTrue more =>
      obtain rfl := Option.some.inj hk
      exact each k ((chunk_inside count k).mp more)
    case isFalse => cases hk

/-- Past the existing blocks: the chunks before slot `offset / blockBytes` is filled go to the block that the slot
still names, the later ones to the new block in it, each time the first of them is the longest. -/
theorem stays_append {new : List Nat} (past : ¬offset < inode.len * blockBytes)
    (count : new.length = blocks buf.length) (room : inode.len + new.length ≤ linkSlots) (sub : ∀ b ∈ new, b ∈ bs) :
    (∀ w ∈ appendWrites offset inode new (chunks buf.length blockBytes buf), Stays bs w) ↔
      (buf ≠ [] → inode.len < offset / blockBytes → inode.slot (offset / blockBytes) ∈ bs ∧
        (offset % blockBytes + min blockBytes buf.length ≤ blockBytes ∨
          inode.slot (offset / blockBytes) + 1 ∈ bs)) ∧
      ∀ b, new[offset / blockBytes - inode.len]? = some b →
        offset % blockBytes + min blockBytes
          (buf.length - blockBytes * (offset / blockBytes - inode.len)) ≤ blockBytes ∨
          b + 1 ∈ bs := by
  have hr : offset % blockBytes < blockBytes := Nat.mod_lt _ (by decide)
  have slot_le : inode.len ≤ offset / blockBytes := by
    simp only [blockBytes] at *
    omega
  have inside := chunk_inside count
  have length (k : Nat) : ((buf.drop (blockBytes * k)).take blockBytes).length =
      min blockBytes (buf.length - blockBytes * k) := by
    rw [List.length_take, List.length_drop]
  have place (k : Nat) (hk : k < new.length) := pushAll_take_slot slot_le room hk
  have stays (k : Nat) (hk : k < new.length) (B : Nat) : Stays bs (data B + offset % blockBytes,
      (buf.drop (blockBytes * k)).take blockBytes) ↔ B ∈ bs ∧
        (offset % blockBytes + min blockBytes (buf.length - blockBytes * k) ≤ blockBytes ∨ B + 1 ∈ bs) := by
    have := (inside k).mpr hk
    rw [stays_iff hr (by rw [length]; simp only [blockBytes] at *; omega) (by rw [length]; omega), length]
  rw [appendWrites_chunks (Stays bs) count room]
  constructor
  · intro each
    refine ⟨fun more stale => ?_, fun b there => ?_⟩
    · have some : 0 < new.length := (inside 0).mp (by simpa using List.length_pos_of_ne_nil more)
      have first := each 0 some
      rw [place 0 some, if_neg (by omega), stays 0 some] at first
      simpa using first
    · obtain ⟨some, -⟩ := List.getElem?_eq_some_iff.mp there
      have later := each _ some
      rw [place _ some, if_pos (Nat.le_refl _), there, Option.getD_some, stays _ some] at later
      exact later.2
  · rintro ⟨stale, fresh⟩ k hk
    rw [place k hk]
    split
    case isTrue there =>
      have filled : offset / blockBytes - inode.len < new.length := by omega
      obtain ⟨b, hb⟩ : ∃ b, new[offset / blockBytes - inode.len]? = some b := ⟨_, List.getElem?_eq_getElem filled⟩
      rw [hb, Option.getD_some, stays k hk]
      refine ⟨sub b (List.mem_of_getElem? hb), ?_⟩
      rcases fresh b hb with short | next
      · left
        have := Nat.mul_le_mul_left blockBytes there
        omega
      · exact Or.inr next
    case isFalse early =>
      have more : buf ≠ [] := List.ne_nil_of_length_pos (by have := (inside k).mpr hk; omega)
      obtain ⟨mem, room⟩ := stale more (by omega)
      rw [stays k hk]
      refine ⟨mem, ?_⟩
      rcases room with short | next
      · exact Or.inl (by omega)
      · exact Or.inr next

/-! ### Writes that keep to the file -/

def blocksAfter (dev : Device) (inode : Inode) (offset n : Nat) : List Nat :=
  inode.links ++ newBlocks dev inode offset n

/-- When a write of `n` bytes keeps to the blocks of its file. -/
structure Contained (dev : Device) (inode : Inode) (offset n : Nat) : Prop where
  room : Room dev inode offset n
  /-- The inode, if it is stored, is not in a data block of another file. -/
  table : inode.size < offset + n → inode.index < 80 ∨ (inode.index - 80) / 8 ∈ blocksAfter dev inode offset n
  /-- Into existing blocks, the second chunk ends inside the block of the first. -/
  existing : offset < inode.len * blockBytes → offset % blockBytes = 0 ∨ n ≤ 2 * (blockBytes - offset % blockBytes) ∨
    inode.slot (offset / blockBytes) + 1 ∈ blocksAfter dev inode offset n
  /-- The slot where the write starts is not behind the last link, or names a block of the file with room in it. -/
  stale : n ≠ 0 → inode.len < offset / blockBytes →
    inode.slot (offset / blockBytes) ∈ blocksAfter dev inode offset n ∧
      (offset % blockBytes + min blockBytes n ≤ blockBytes ∨
        inode.slot (offset / blockBytes) + 1 ∈ blocksAfter dev inode offset n)
  /-- The new block of that slot has room for the chunk. -/
  fresh : ∀ b, (newBlocks dev inode offset n)[offset / blockBytes - inode.len]? = some b →
    offset % blockBytes + min blockBytes (n - blockBytes * (offset / blockBytes - inode.len)) ≤ blockBytes ∨
      b + 1 ∈ blocksAfter dev inode offset n

/-- A write of `n` bytes to a live inode: inside the file, and at most to byte `25 * 1024`. -/
structure Bounded (inode : Inode) (offset n : Nat) : Prop where
  len : inode.len ≤ linkSlots
  start : offset ≤ inode.size
  fits : offset + n ≤ linkSlots * blockBytes

theorem stored_stays_iff (h : Bounded inode offset buf.length) (room : Room dev inode offset buf.length) :
    (∀ w ∈ stored dev inode buf offset, Stays (blocksAfter dev inode offset buf.length) w) ↔
      Contained dev inode offset buf.length := by
  have slots := @slots_suffice dev _ _ _ h.len h.fits
  have table : (∀ w ∈ tableWrites (inode.pushAll (newBlocks dev inode offset buf.length)) (offset + buf.length),
      Stays (blocksAfter dev inode offset buf.length) w) ↔ (inode.size < offset + buf.length →
        inode.index < 80 ∨ (inode.index - 80) / 8 ∈ blocksAfter dev inode offset buf.length) := by
    rw [tableWrites, Inode.pushAll_size, Inode.pushAll_index]
    by_cases grows : inode.size < offset + buf.length
    · rw [if_pos grows, List.forall_mem_singleton, stays_table]
      simp [grows]
    · simp [grows]
  rw [stored, List.forall_mem_append, table]
  have sub : ∀ b ∈ newBlocks dev inode offset buf.length, b ∈ blocksAfter dev inode offset buf.length :=
    fun b hb => List.mem_append_right _ hb
  by_cases existing : offset < inode.len * blockBytes
  · have hq : offset / blockBytes < inode.len := by
      simp only [blockBytes] at *
      omega
    have mem : inode.slot (offset / blockBytes) ∈ blocksAfter dev inode offset buf.length :=
      List.mem_append_left _ (Inode.slot_mem h.len hq)
    have chunks : (∀ w ∈ chunkWrites dev inode buf offset, Stays (blocksAfter dev inode offset buf.length) w) ↔
        offset % blockBytes = 0 ∨ buf.length ≤ 2 * (blockBytes - offset % blockBytes) ∨
          inode.slot (offset / blockBytes) + 1 ∈ blocksAfter dev inode offset buf.length := by
      rw [chunkWrites, if_pos existing, List.forall_mem_map]
      exact stays_existing (Nat.mod_lt _ (by decide)) mem
    have none : newBlocks dev inode offset buf.length = [] := by rw [newBlocks, if_pos existing]
    rw [chunks]
    constructor
    · rintro ⟨chunk, table⟩
      exact ⟨room, table, fun _ => chunk, fun _ stale => by omega, by simp [none]⟩
    · intro contained
      exact ⟨contained.existing existing, contained.table⟩
  · rw [chunkWrites, if_neg existing, stays_append existing (length_newBlocks existing room) slots sub]
    have empty : buf ≠ [] ↔ buf.length ≠ 0 := by simp
    rw [empty]
    constructor
    · rintro ⟨⟨stale, fresh⟩, table⟩
      exact ⟨room, table, fun here => absurd here existing, stale, fresh⟩
    · intro contained
      exact ⟨⟨contained.stale, contained.fresh⟩, contained.table⟩

/-- After a write to `inode`: no data block that is not in its links then is changed, and every other live inode
reads as before. -/
structure Keeps (dev : Device) (inode : Inode) (dev' : Device) (inode' : Inode) : Prop where
  frame : ∀ b ∉ inode'.links, ∀ r < blockBytes, dev' (data b + r) = dev (data b + r)
  reads : ∀ other : Inode, other.len ≤ linkSlots → other.size ≤ other.len * blockBytes →
    (∀ b ∈ other.links, b ∉ inode.links ∧ readMap dev dmap b = true) →
    ∀ n offset, offset + n ≤ other.size → dataRead dev' other n offset = dataRead dev other n offset

theorem Keeps.of_frame {inode' : Inode} (links : ∀ b ∈ inode'.links, b ∈ blocksAfter dev inode offset n)
    (frame : ∀ b ∉ inode'.links, ∀ r < blockBytes, dev' (data b + r) = dev (data b + r)) :
    Keeps dev inode dev' inode' where
  frame := frame
  reads other len covered apart n' offset' inside := by
    refine dataRead_congr len covered inside fun b hb => frame b fun mem => ?_
    obtain ⟨foreign, marked⟩ := apart b hb
    rcases List.mem_append.mp (links b mem) with own | new
    · exact foreign own
    · exact not_mem_newBlocks marked new

/-- `ext2_data_write` keeps to the file, whatever the device and the buffer hold. -/
def DataWriteKeeps (dev : Device) (inode : Inode) (offset n : Nat) : Prop :=
  ∀ dev₀ buf, SameMaps dev dev₀ → buf.length = n →
    ∃ dev' inode', dataWrite dev₀ inode buf offset = .ok (dev', inode') ∧ Keeps dev₀ inode dev' inode'

/-- The same of `ext2_inode_write`, through any file with this inode and offset. -/
def InodeWriteKeeps (dev : Device) (inode : Inode) (offset n : Nat) : Prop :=
  ∀ dev₀ buf file, SameMaps dev dev₀ → buf.length = n → file.inode.fsInode = inode → file.offset = offset →
    ∃ dev' file' size, inodeWrite dev₀ file buf = .ok (dev', file', size) ∧
      Keeps dev₀ inode dev' file'.inode.fsInode

theorem written_links_eq (h : Bounded inode offset n) :
    (written dev inode offset n).links = blocksAfter dev inode offset n := by
  rw [written, Inode.grow_links, Inode.pushAll_links (slots_suffice h.len h.fits), blocksAfter]

theorem keeps_of_contained (h : Bounded inode offset buf.length) (same : SameMaps dev dev')
    (contained : Contained dev inode offset buf.length) :
    Keeps dev' inode ((marks dev' (newBlocks dev inode offset buf.length)).writes (stored dev inode buf offset))
      (written dev inode offset buf.length) := by
  have stays := (stored_stays_iff h contained.room).mpr contained
  have links := @written_links_eq dev _ _ _ h
  have after : blocksAfter dev' inode offset buf.length = blocksAfter dev inode offset buf.length := by
    rw [blocksAfter, newBlocks_congr same, blocksAfter]
  apply @Keeps.of_frame dev' _ inode offset buf.length _ (by rw [links, after]; exact fun _ hb => hb)
  intro b out r hr
  rw [links] at out
  rw [Mem.writes_outside fun w hw => stays w hw b out r hr, marks_outside newBlocks_lt (data_addr b r)]

/-- What is stored outside the file shows on one of two devices that differ there. -/
theorem contained_of_keeps (h : Bounded inode offset buf.length) (room : Room dev inode offset buf.length)
    (keeps : ∀ dev₀, SameMaps dev dev₀ → Keeps dev₀ inode
      ((marks dev₀ (newBlocks dev inode offset buf.length)).writes (stored dev inode buf offset))
      (written dev inode offset buf.length)) : Contained dev inode offset buf.length := by
  apply (stored_stays_iff h room).mp
  intro w hw b out r hr covers
  rw [← written_links_eq h] at out
  have kept (x : Byte) : x = (marks (dev.write (data b + r) [x]) (newBlocks dev inode offset buf.length)).writes
      (stored dev inode buf offset) (data b + r) := by
    have frame := (keeps _ (SameMaps.of_write (c := [x]) (data_addr b r))).frame b out r hr
    have byte := @Mem.write_at dev (data b + r) [x] 0 (by simp)
    rw [frame]
    simpa using byte.symm
  have same : (0 : Byte) = 1 := by
    rw [kept 0, kept 1]
    exact Mem.writes_covered ⟨w, hw, covers⟩
  exact absurd same (by decide)

theorem dataWriteKeeps_iff (h : Bounded inode offset n) :
    DataWriteKeeps dev inode offset n ↔ Contained dev inode offset n := by
  constructor
  · intro all
    obtain ⟨buf, length⟩ : ∃ buf : List Byte, buf.length = n := ⟨List.replicate n 0, List.length_replicate⟩
    subst length
    have room : Room dev inode offset buf.length := by
      by_contra full
      obtain ⟨_, _, done, -⟩ := all dev buf (fun _ _ => rfl) rfl
      rw [dataWrite_short h.fits full] at done
      cases done
    apply contained_of_keeps h room
    intro dev₀ same
    obtain ⟨dev', inode', done, keeps⟩ := all dev₀ buf same rfl
    rw [dataWrite_eq h.len h.fits ((room_congr same).mpr room), newBlocks_congr same, stored_congr same,
      written_congr same] at done
    obtain ⟨rfl, rfl⟩ := Prod.mk.inj (Except.ok.inj done)
    exact keeps
  · intro contained dev₀ buf same length
    subst length
    refine ⟨_, _, dataWrite_eq h.len h.fits ((room_congr same).mpr contained.room), ?_⟩
    rw [newBlocks_congr same, stored_congr same, written_congr same]
    exact keeps_of_contained h same contained

/-- No offset inside the links is negative as an `int`. -/
theorem offset_int (fits : offset + n ≤ linkSlots * blockBytes) : offset < 2 ^ 31 := by
  simp only [linkSlots, blockBytes] at fits
  omega

theorem inodeWrite_eq {file : File} (normal : file.inode.fsInode.type = NF) (small : file.offset < 2 ^ 31) :
    (inodeWrite dev file buf).map (fun r => (r.1, r.2.1.inode.fsInode)) =
      dataWrite dev file.inode.fsInode buf file.offset := by
  have int : file.offset % 2 ^ 32 = file.offset := Nat.mod_eq_of_lt (by omega)
  rw [inodeWrite, dataWrite]
  simp only [int, normal, NF, DR, bind, Except.bind, if_true]
  rw [if_neg (by decide), if_neg (by omega)]
  cases writeLoop file.inode.fsInode.len file.offset buf.length dev file.inode.fsInode true buf with
  | error e => rfl
  | ok r =>
    simp only
    split <;> rfl

theorem inodeWriteKeeps_normal (normal : inode.type = NF) (small : offset < 2 ^ 31) :
    InodeWriteKeeps dev inode offset n ↔ DataWriteKeeps dev inode offset n := by
  constructor
  · intro all dev₀ buf same length
    let file : File :=
      ⟨⟨inode, inode.permission, inode.size, inode.id, inode.type, inode.dirLen, inode.linkNum⟩, offset⟩
    obtain ⟨dev', file', size, done, keeps⟩ := all dev₀ buf file same length rfl rfl
    have eq := @inodeWrite_eq dev₀ buf file normal small
    rw [done] at eq
    exact ⟨dev', file'.inode.fsInode, eq.symm, keeps⟩
  · rintro all dev₀ buf file same length rfl rfl
    obtain ⟨dev', inode', done, keeps⟩ := all dev₀ buf same length
    have eq := @inodeWrite_eq dev₀ buf file normal small
    rw [done] at eq
    cases result : inodeWrite dev₀ file buf with
    | error e =>
      rw [result] at eq
      cases eq
    | ok r =>
      obtain ⟨dev₁, file', size⟩ := r
      rw [result] at eq
      obtain ⟨rfl, rfl⟩ := Prod.mk.inj (Except.ok.inj eq)
      exact ⟨dev₁, file', size, rfl, keeps⟩

/-- Through a file, a directory is refused by an assertion and what is no regular file is not written. -/
theorem inodeWriteKeeps_iff (h : Bounded inode offset n) : InodeWriteKeeps dev inode offset n ↔
    inode.type ≠ DR ∧ (inode.type = NF → Contained dev inode offset n) := by
  by_cases normal : inode.type = NF
  · rw [inodeWriteKeeps_normal normal (offset_int h.fits), dataWriteKeeps_iff h]
    simp [normal, NF, DR]
  · constructor
    · intro all
      refine ⟨fun directory => ?_, fun type => absurd type normal⟩
      let file : File := ⟨⟨inode, 0, 0, 0, 0, 0, 0⟩, offset⟩
      obtain ⟨_, _, _, done, -⟩ := all dev (List.replicate n 0) file (fun _ _ => rfl) List.length_replicate rfl rfl
      rw [inodeWrite, if_pos directory] at done
      cases done
    · rintro ⟨regular, -⟩ dev₀ buf file - - rfl rfl
      refine ⟨dev₀, file, buf.length, ?_, ?_⟩
      · rw [inodeWrite, if_neg regular, if_neg normal]
      · exact @Keeps.of_frame dev₀ dev₀ _ 0 0 _ (fun b hb => List.mem_append_left _ hb) fun _ _ _ _ => rfl

/-- Exactly the writes that are contained in their file leave the others alone. -/
theorem writeKeeps_iff (h : Bounded inode offset n) :
    (DataWriteKeeps dev inode offset n ↔ Contained dev inode offset n) ∧
      (InodeWriteKeeps dev inode offset n ↔ inode.type ≠ DR ∧ (inode.type = NF → Contained dev inode offset n)) :=
  ⟨dataWriteKeeps_iff h, inodeWriteKeeps_iff h⟩

def oneBlock : Inode where
  index := 1
  type := NF
  permission := 0
  size := 1024
  len := 1
  id := 1
  dirLen := 0
  linkNum := 1
  link := Vector.replicate linkSlots 0

/-- A device where inodes 1 and 2 and blocks 0 and 1 are marked. -/
def twoFiles : Device := fun x => if x = 0 then 6 else if x = 1024 then 3 else 0

theorem oneBlock_bounded {n : Nat} (start : offset ≤ 1024) (fits : offset + n ≤ linkSlots * blockBytes) :
    Bounded oneBlock offset n := ⟨by decide, start, fits⟩

/-- A write over the second half of the block and half a block more. -/
theorem writeKeeps_iff_sample : DataWriteKeeps twoFiles oneBlock 512 1024 := by
  have sample := (@writeKeeps_iff twoFiles oneBlock 512 1024 (oneBlock_bounded (by decide) (by decide))).1
  exact sample.mpr ⟨Or.inl (by decide), fun _ => Or.inl (by decide), fun _ => Or.inr (Or.inl (by decide)),
    fun _ stale => absurd stale (by decide), fun b new => by simp [newBlocks, oneBlock, blockBytes] at new⟩

/-- Three bytes from byte 1023 on: the second chunk starts there again and ends in block 1, of another file. -/
theorem writeKeeps_counterexample : Bounded oneBlock 1023 3 ∧ ¬∃ dev inode,
    dataWrite twoFiles oneBlock [1, 2, 3] 1023 = .ok (dev, inode) ∧ Keeps twoFiles oneBlock dev inode := by
  refine ⟨oneBlock_bounded (by decide) (by decide), ?_⟩
  rintro ⟨dev, inode, done, keeps⟩
  have spilled : (dataWrite twoFiles oneBlock [1, 2, 3] 1023 >>= fun r => .ok (r.2.links, r.1 (data 1))) =
      (.ok ([0], 3) : Except Fault _) := by decide +kernel
  rw [done] at spilled
  obtain ⟨links, byte⟩ := Prod.mk.inj (Except.ok.inj spilled)
  have kept := keeps.frame 1 (by rw [links]; decide) 0 (by decide)
  rw [Nat.add_zero] at kept
  exact absurd (byte.symm.trans kept) (by decide)

end OsLabs.Ext2

import OsLabs.Ext2.Frame

/-!
# Growing a directory

What `ext2_append_data` and `ext2_create_entry` do when each of their writes stays
in one block.
-/

namespace OsLabs.Ext2

/-- An inode in memory that has the blocks of its size, and a slot in the blocks of the table. -/
structure Sized (inode : Inode) : Prop where
  low : inode.index < 80
  len : inode.len ≤ linkSlots
  filled : inode.len = blocks inode.size
  distinct : inode.links.Nodup
  fits : inode.Fits

def Marked (dev : Device) (inode : Inode) : Prop := ∀ b ∈ inode.links, b < mapBits ∧ readMap dev dmap b = true

/-- The bytes were appended to the file of the inode, which took free blocks and was stored. -/
structure Appended (dev : Device) (inode : Inode) (bytes : List Byte) (dev' : Device) (inode' : Inode) : Prop where
  sized : Sized inode'
  same : inode' = { inode with size := inode'.size, len := inode'.len, link := inode'.link }
  size : inode'.size = inode.size + bytes.length
  content : contents dev' inode' = contents dev inode ++ bytes
  links : ∃ bs, inode'.links = inode.links ++ bs ∧ ∀ b ∈ bs, b < mapBits ∧ readMap dev dmap b = false
  marked : Marked dev' inode'
  stored : readInode dev' inode.index = inode'
  inodes : ∀ i < mapBits, readMap dev' imap i = readMap dev imap i
  outside : Outside dev dev' {inode.index} {b | b ∈ inode'.links}

variable {dev dev' dev'' : Device} {inode inode' inode'' : Inode} {bs : List Nat}
  {buf bytes bytes' : List Byte} {b n : Nat}

theorem Sized.covered (h : Sized inode) : inode.size ≤ inode.len * blockBytes := covered_of_filled h.filled

theorem Sized.size_le (h : Sized inode) : inode.size ≤ linkSlots * blockBytes :=
  Nat.le_trans h.covered (Nat.mul_le_mul_right blockBytes h.len)

/-! ### The inode after a write -/

theorem pushAll_same : inode.pushAll bs =
    { inode with len := (inode.pushAll bs).len, link := (inode.pushAll bs).link } := by
  induction bs generalizing inode with
  | nil => rfl
  | cons b bs ih =>
    rw [Inode.pushAll_cons, ih]
    rfl

theorem written_same {offset : Nat} : written dev inode offset n = { inode with
    size := (written dev inode offset n).size
    len := (written dev inode offset n).len
    link := (written dev inode offset n).link } := by
  unfold written Inode.grow
  rw [pushAll_same]
  split <;> rfl

theorem pushAll_link (small : ∀ b ∈ inode.link.toList, b < 256 ^ 4) (new : ∀ b ∈ bs, b < 256 ^ 4) :
    ∀ b ∈ (inode.pushAll bs).link.toList, b < 256 ^ 4 := by
  induction bs generalizing inode with
  | nil => exact small
  | cons b bs ih =>
    rw [Inode.pushAll_cons]
    refine ih (fun c mem => ?_) fun c mem => new c (List.mem_cons_of_mem b mem)
    have set : (inode.push b).link.toList = inode.link.toList.set inode.len b := by
      simp only [Inode.push, Vector.toList_setIfInBounds]
    rw [set] at mem
    rcases List.mem_or_eq_of_mem_set mem with old | rfl
    · exact small c old
    · exact new c List.mem_cons_self

theorem grow_link : (inode.grow n).link = inode.link := by
  unfold Inode.grow
  split <;> rfl

theorem written_fits {offset : Nat} (h : inode.Fits) (size : (written dev inode offset n).size < 256 ^ 4)
    (len : (written dev inode offset n).len < 256 ^ 4) : (written dev inode offset n).Fits := by
  have link : ∀ b ∈ (written dev inode offset n).link.toList, b < 256 ^ 4 := by
    rw [written, grow_link]
    apply pushAll_link h.link
    intro b mem
    have := newBlocks_lt b mem
    simp only [mapBits, blockBytes] at this
    omega
  rw [written_same]
  exact ⟨h.index, h.type, h.permission, size, len, h.id, h.dirLen, h.linkNum, link⟩

theorem readMap_marks : readMap (marks dev bs) dmap b = (decide (b ∈ bs) || readMap dev dmap b) := by
  induction bs generalizing dev with
  | nil => simp
  | cons c bs ih =>
    rw [marks_cons, ih, readMap_setMap]
    by_cases same : b = c <;> simp [same]

theorem write_marked {offset : Nat} (marked : ∀ b ∈ bs, b < mapBits ∧ readMap dev dmap b = true) :
    ∀ b ∈ bs, b < mapBits ∧
      readMap ((marks dev (newBlocks dev inode offset buf.length)).writes (stored dev inode buf offset))
        dmap b = true := by
  intro b mem
  obtain ⟨small, old⟩ := marked b mem
  refine ⟨small, ?_⟩
  rw [(SameMaps.of_writes stored_addr).readMap (by decide) small, readMap_marks, old, Bool.or_true]

theorem written_marked {offset : Nat} (marked : Marked dev inode)
    (links : (written dev inode offset buf.length).links = inode.links ++ newBlocks dev inode offset buf.length) :
    Marked ((marks dev (newBlocks dev inode offset buf.length)).writes (stored dev inode buf offset))
      (written dev inode offset buf.length) := by
  intro b mem
  rw [links] at mem
  rcases List.mem_append.mp mem with old | new
  · exact write_marked marked b old
  · refine ⟨newBlocks_lt b new, ?_⟩
    rw [(SameMaps.of_writes stored_addr).readMap (by decide) (newBlocks_lt b new), readMap_marks, decide_eq_true new,
      Bool.true_or]

/-! ### Appending -/

theorem append_request (sized : Sized inode) (pos : 0 < n) (chunk : inode.size % blockBytes + n ≤ blockBytes)
    (fits : inode.size + n ≤ linkSlots * blockBytes) (room : Room dev inode inode.size n) :
    Request dev inode inode.size n where
  len_eq := sized.filled
  distinct := sized.distinct
  start := Nat.le_refl _
  pos := pos
  fits := ⟨sized.size_le, fits⟩
  free := by
    have filled := sized.filled
    have covered := sized.covered
    rcases room with existing | enough
    · simp only [blocks, blockBytes] at *
      omega
    · by_cases existing : inode.size < inode.len * blockBytes
      · simp only [blocks, blockBytes] at *
        omega
      · simp only [blocks, blockBytes] at *
        omega

theorem append_oneBlock (sized : Sized inode) (marked : Marked dev inode)
    (chunk : inode.size % blockBytes + n ≤ blockBytes) : OneBlock dev inode inode.size n where
  chunk := chunk
  fresh _ b free mem := by
    have := (marked b mem).2
    rw [(freeMap_some free).2] at this
    exact Bool.noConfusion this
  apart _ high := absurd sized.low (Nat.not_lt.mpr high)

theorem append_device (request : Request dev inode inode.size buf.length)
    (chunk : inode.size % blockBytes + buf.length ≤ blockBytes) :
    dev'.writes (stored dev inode buf inode.size) =
      writeInode (dev'.write ((written dev inode inode.size buf.length).address inode.size) buf) inode.index
        (written dev inode inode.size buf.length) := by
  have grows : inode.size < inode.size + buf.length := Nat.lt_add_of_pos_right request.pos
  rw [stored, chunkWrites_single request chunk, tableWrites, Inode.pushAll_size, Inode.pushAll_index, if_pos grows]
  rfl

theorem append_outside (request : Request dev inode inode.size buf.length) (low : inode.index < 80)
    (chunk : inode.size % blockBytes + buf.length ≤ blockBytes) :
    Outside (marks dev (newBlocks dev inode inode.size buf.length))
      ((marks dev (newBlocks dev inode inode.size buf.length)).writes (stored dev inode buf inode.size)) {inode.index}
      {b | b ∈ (written dev inode inode.size buf.length).links} := by
  have full : (written dev inode inode.size buf.length).len ≤ linkSlots := by
    rw [Request.written_len]
    exact request.slots
  rw [append_device request chunk]
  refine ((Outside.of_write chunk).mono (Set.empty_subset _) ?_).trans
    ((Outside.of_writeInode low).mono (Set.Subset.refl _) (Set.empty_subset _))
  rw [Set.singleton_subset_iff]
  exact Inode.slot_mem full request.written_covers

theorem contents_append (sized : inode.len ≤ linkSlots ∧ inode.size ≤ inode.len * blockBytes)
    (sized' : inode'.len ≤ linkSlots ∧ inode'.size ≤ inode'.len * blockBytes)
    (size : inode'.size = inode.size + buf.length) (read : dataRead dev' inode' buf.length inode.size = .ok buf)
    (others : ∀ p < inode.size, dataRead dev' inode' 1 p = dataRead dev inode 1 p) :
    contents dev' inode' = contents dev inode ++ buf := by
  rw [dataRead_inside sized'.1 sized'.2 (by omega)] at read
  have tail := Except.ok.inj read
  rw [contents, size, List.range_add, List.map_append, List.map_map]
  refine congr_arg₂ (· ++ ·) (List.map_congr_left fun p mem => ?_) tail
  have small := List.mem_range.mp mem
  have same := others p small
  rw [dataRead_inside sized'.1 sized'.2 (by omega), dataRead_inside sized.1 sized.2 (by omega)] at same
  simpa using same

theorem written_sized (sized : Sized inode) (request : Request dev inode inode.size n)
    (one : OneBlock dev inode inode.size n)
    (room : Room dev inode inode.size n) : Sized (written dev inode inode.size n) := by
  have len : (written dev inode inode.size n).len = inode.len + (newBlocks dev inode inode.size n).length :=
    Request.written_len
  have size := @written_size dev inode inode.size n
  have slots := request.slots
  have low := request.fits.2
  have filled := sized.filled
  have covered := sized.covered
  have chunk := one.chunk
  refine ⟨?_, by rw [len]; exact slots, ?_, written_distinct request one, ?_⟩
  · rw [written, Inode.grow_index, Inode.pushAll_index]
    exact sized.low
  · rw [size, len]
    by_cases existing : inode.size < inode.len * blockBytes
    · rw [newBlocks, if_pos existing, List.length_nil]
      simp only [blocks, blockBytes] at *
      omega
    · rw [length_newBlocks existing room]
      simp only [blocks, blockBytes] at *
      omega
  · simp only [linkSlots, blockBytes] at low slots
    exact written_fits sized.fits (by omega) (by omega)

theorem dataWrite_appended (sized : Sized inode) (marked : Marked dev inode) (some : buf ≠ [])
    (chunk : inode.size % blockBytes + buf.length ≤ blockBytes)
    (fits : inode.size + buf.length ≤ linkSlots * blockBytes)
    (done : dataWrite dev inode buf inode.size = .ok (dev', inode')) : Appended dev inode buf dev' inode' := by
  have pos := List.length_pos_of_ne_nil some
  have room : Room dev inode inode.size buf.length := by
    by_contra full
    rw [dataWrite_short fits full] at done
    cases done
  have request := append_request sized pos chunk fits room
  have one := append_oneBlock sized marked chunk
  have links := written_links request
  have after := written_sized sized request one room
  have covers := written_covered request chunk
  have size : (written dev inode inode.size buf.length).size = inode.size + buf.length := by
    rw [written_size]
    omega
  have result := dataWrite_eq sized.len fits room
  obtain ⟨dev₂, inode₂, eq, read, others⟩ := readsBack_of_oneBlock request one
  obtain ⟨rfl, rfl⟩ := Prod.mk.inj (Except.ok.inj (done.symm.trans eq))
  obtain ⟨rfl, rfl⟩ := Prod.mk.inj (Except.ok.inj (done.symm.trans result))
  have new (b : Nat) (mem : b ∈ newBlocks dev inode inode.size buf.length) : b < mapBits ∧ readMap dev dmap b = false :=
    ⟨newBlocks_lt b mem, (mem_freeBits.mp (mem_newBlocks mem)).2⟩
  have same : SameMaps (marks dev (newBlocks dev inode inode.size buf.length))
      ((marks dev (newBlocks dev inode inode.size buf.length)).writes (stored dev inode buf inode.size)) :=
    SameMaps.of_writes stored_addr
  have outside := append_outside request sized.low chunk
  have marking : Outside dev _ ∅ _ := Outside.of_marks fun b mem => (new b mem).1
  constructor
  case sized => exact after
  case same => exact written_same
  case size => exact size
  case content =>
    exact contents_append ⟨sized.len, sized.covered⟩ ⟨after.len, covers⟩ size read fun p small =>
      others p small (.inl small)
  case links => exact ⟨_, links, new⟩
  case marked => exact written_marked marked links
  case stored =>
    rw [append_device request chunk]
    exact readInode_writeInode after.fits
  case inodes =>
    intro i small
    exact (same.readMap (by decide) small).trans (marking.inodes i small (Set.notMem_empty i))
  case outside =>
    refine (marking.mono (Set.empty_subset _) fun b mem => ?_).trans outside
    show b ∈ (written dev inode inode.size buf.length).links
    rw [links]
    exact List.mem_append_right _ mem

namespace Appended

theorem index (h : Appended dev inode bytes dev' inode') : inode'.index = inode.index := by rw [h.same]

theorem type (h : Appended dev inode bytes dev' inode') : inode'.type = inode.type := by rw [h.same]

theorem dirLen (h : Appended dev inode bytes dev' inode') : inode'.dirLen = inode.dirLen := by rw [h.same]

theorem linkNum (h : Appended dev inode bytes dev' inode') : inode'.linkNum = inode.linkNum := by rw [h.same]

theorem mem (h : Appended dev inode bytes dev' inode') (mem : b ∈ inode.links) : b ∈ inode'.links := by
  obtain ⟨bs, links, -⟩ := h.links
  rw [links]
  exact List.mem_append_left bs mem

/-- A block that was taken before, by another inode, is not among those of this one. -/
theorem apart (h : Appended dev inode bytes dev' inode') (taken : readMap dev dmap b = true) (out : b ∉ inode.links) :
    b ∉ inode'.links := by
  intro mem
  obtain ⟨bs, links, free⟩ := h.links
  rw [links] at mem
  rcases List.mem_append.mp mem with old | new
  · exact out old
  · rw [(free b new).2] at taken
    cases taken

theorem trans (h : Appended dev inode bytes dev' inode') (h' : Appended dev' inode' bytes' dev'' inode'') :
    Appended dev inode (bytes ++ bytes') dev'' inode'' where
  sized := h'.sized
  same := by
    rw [h'.same, h.same]
  size := by rw [h'.size, h.size, List.length_append, Nat.add_assoc]
  content := by rw [h'.content, h.content, List.append_assoc]
  links := by
    obtain ⟨bs, links, free⟩ := h.links
    obtain ⟨bs', links', free'⟩ := h'.links
    refine ⟨bs ++ bs', by rw [links', links, List.append_assoc], fun b mem => ?_⟩
    rcases List.mem_append.mp mem with first | second
    · exact free b first
    · obtain ⟨small, unmarked⟩ := free' b second
      refine ⟨small, ?_⟩
      rw [← h.outside.blocks b small fun own => ?_]
      · exact unmarked
      · rw [(h.marked b own).2] at unmarked
        exact Bool.noConfusion unmarked
  marked := h'.marked
  stored := by rw [← h.index, h'.stored]
  inodes i small := (h'.inodes i small).trans (h.inodes i small)
  outside := by
    have second := h'.outside
    rw [h.index] at second
    exact (h.outside.mono (Set.Subset.refl _) fun _ mem => h'.mem mem).trans second

end Appended

/-- A directory entry whose header and name each stay in one block. -/
def EntryFits (inode : Inode) (name : List Byte) : Prop :=
  inode.size % blockBytes + entryBytes ≤ blockBytes ∧
    (inode.size + entryBytes) % blockBytes + (name.length + 1) ≤ blockBytes ∧
    inode.size + entryBytes + (name.length + 1) ≤ linkSlots * blockBytes

def Inode.count (inode : Inode) : Inode := { inode with dirLen := (inode.dirLen + 1) % 2 ^ 32 }

theorem Sized.count (h : Sized inode) : Sized inode.count where
  low := h.low
  len := h.len
  filled := h.filled
  distinct := h.distinct
  fits := { h.fits with dirLen := Nat.mod_lt _ (by decide) }

theorem createEntry_appended {r : Record} (sized : Sized inode) (marked : Marked dev inode)
    (fits : EntryFits inode r.name)
    (done : createEntry dev inode r.inode r.name r.type = .ok (dev', inode')) :
    Appended dev inode.count r.bytes dev' inode' := by
  obtain ⟨header, name, room⟩ := fits
  have length : r.entry.encode.length = entryBytes := length_encodeEntry _
  obtain ⟨⟨dev₁, inode₁⟩, first, done⟩ := bind_ok done
  have one : Appended dev inode.count r.entry.encode dev₁ inode₁ :=
    dataWrite_appended sized.count marked (by rw [← List.length_pos_iff, length]; decide) (by rw [length]; exact header)
      (by rw [length]; exact Nat.le_trans (Nat.le_add_right _ _) room) first
  have size : inode₁.size = inode.size + entryBytes := by
    rw [one.size, length]
    rfl
  have two := dataWrite_appended one.sized one.marked (by simp) (by rw [size]; simpa using name)
    (by rw [size]; simpa using room) done
  exact one.trans two

/-! ### The records -/

/-- A directory whose headers each lie in one block. -/
structure Laid (dev : Device) (inode : Inode) (records : List Record) : Prop extends Listed dev inode records where
  headers : ∀ before r rest, records = before ++ r :: rest →
    (before.flatMap Record.bytes).length % blockBytes + entryBytes ≤ blockBytes

theorem Laid.append {records : List Record} {r : Record} (h : Laid dev inode records)
    (header : inode.size % blockBytes + entryBytes ≤ blockBytes)
    (plain : 0 ∉ r.name ∧ r.inode < 2 ^ 31 ∧ r.type < 2 ^ 32) (done : Appended dev inode.count r.bytes dev' inode') :
    Laid dev' inode' (records ++ [r]) where
  len := done.sized.len
  covered := done.sized.covered
  content := by
    rw [done.content, List.flatMap_append, List.flatMap_singleton, ← h.content]
    rfl
  plain := by
    intro x mem
    rcases List.mem_append.mp mem with old | new
    · exact h.plain x old
    · rw [List.mem_singleton.mp new]
      exact plain
  headers := by
    intro before x rest split
    rcases List.eq_nil_or_concat rest with rfl | ⟨rest, last, rfl⟩
    · obtain ⟨old, -⟩ := List.append_inj' split rfl
      rw [← old, ← h.size_eq]
      exact header
    · rw [List.concat_eq_append, ← List.cons_append, ← List.append_assoc] at split
      exact h.headers before x rest (List.append_inj' split rfl).1

end OsLabs.Ext2

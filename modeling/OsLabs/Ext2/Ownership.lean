import OsLabs.Data.Machine
import OsLabs.Data.Ledger
import OsLabs.Ext2.Write

/-!
# Who owns which block

The blocks of the live inodes are written down twice, in the link slots and in the
map of the device. Creating, writing and removing keep the two in step, and
`write_map` never finds a bit that is already what it should become.
-/

namespace OsLabs.Ext2

def bits : Set Nat := {i | i < mapBits}

/-! ### Marks on the device -/

variable {dev dev' : Device} {inode inode' : Inode} {held bs rest : List Nat} {b offset gid type per : Nat}
  {buf : List Byte}

theorem readMap_marks_imap {i : Nat} (hbs : ∀ b ∈ bs, b < mapBits) (hi : i < mapBits) :
    readMap (marks dev bs) imap i = readMap dev imap i := by
  induction bs generalizing dev with
  | nil => rfl
  | cons b bs ih =>
    rw [marks_cons, ih fun b hb => hbs b (List.mem_cons_of_mem _ hb),
      readMap_setMap_other (by decide) (hbs b List.mem_cons_self) hi]

theorem records_marks (h : Records bits (readMap dev dmap) held) (free : freeBits dev dmap = bs ++ rest) :
    Records bits (readMap (marks dev bs) dmap) (bs ++ held) := by
  induction bs generalizing dev held with
  | nil => exact h
  | cons b bs ih =>
    have mem : b ∈ freeBits dev dmap := by rw [free]; exact List.mem_cons_self
    have marked := h.acquire (free_lt mem) (mem_freeBits.mp mem).2 fun j _ => readMap_setMap dev dmap b j true
    have after := ih marked (freeBits_setMap free)
    exact after.perm List.perm_middle

theorem records_same {blk : Nat} (h : Records bits (readMap dev blk) held) (same : SameMaps dev dev')
    (hb : blk < itable) : Records bits (readMap dev' blk) held :=
  h.congr fun _ hi => same.readMap hb hi

/-! ### The operations -/

/-- A write appends free blocks to the links, and marks them. -/
theorem dataWrite_cases (hlen : inode.len ≤ linkSlots) (fits : offset + buf.length ≤ linkSlots * blockBytes) :
    (∃ dev' inode' bs rest, dataWrite dev inode buf offset = .ok (dev', inode') ∧ freeBits dev dmap = bs ++ rest ∧
      SameMaps (marks dev bs) dev' ∧ inode'.index = inode.index ∧ inode'.links = inode.links ++ bs ∧
      inode'.len ≤ linkSlots) ∨
    dataWrite dev inode buf offset = .error .noFreeBit := by
  by_cases room : Room dev inode offset buf.length
  · left
    let new := newBlocks dev inode offset buf.length
    have slots : inode.len + new.length ≤ linkSlots := slots_suffice hlen fits
    have prefixed : ∃ rest, freeBits dev dmap = new ++ rest := by
      by_cases existing : offset < inode.len * blockBytes
      · exact ⟨freeBits dev dmap, by simp [new, newBlocks, existing]⟩
      · exact ⟨(freeBits dev dmap).drop (blocks buf.length), by
          simp only [new, newBlocks, if_neg existing, List.take_append_drop]⟩
    obtain ⟨rest, free⟩ := prefixed
    refine ⟨_, _, new, rest, dataWrite_eq hlen fits room, free, SameMaps.of_writes stored_addr, ?_, ?_, ?_⟩
    · rw [written, Inode.grow_index, Inode.pushAll_index]
    · rw [written, Inode.grow_links, Inode.pushAll_links slots]
    · rw [written, Inode.grow_len, Inode.pushAll_len]
      exact slots
  · exact Or.inr (dataWrite_short fits room)

theorem clear_blocks {bs : List Nat} (h : Records bits (readMap dev dmap) (bs ++ rest)) :
    ∃ dev', bs.foldlM (fun dev b => writeMap dev dmap b false) dev = .ok dev' ∧
      Records bits (readMap dev' dmap) rest ∧ ∀ i < mapBits, readMap dev' imap i = readMap dev imap i := by
  induction bs generalizing dev with
  | nil => exact ⟨dev, rfl, h, fun _ _ => rfl⟩
  | cons b bs ih =>
    have low : b < mapBits := h.within b List.mem_cons_self
    have marked : readMap dev dmap b ≠ false := by simp [h.marked_of_mem List.mem_cons_self]
    obtain ⟨dev', cleared, records, same⟩ := ih (h.release fun j _ => readMap_setMap dev dmap b j false)
    refine ⟨dev', ?_, records, ?_⟩
    · rw [List.foldlM_cons, writeMap_eq marked]
      exact cleared
    · intro i hi
      rw [same i hi, readMap_setMap_other (by decide) low hi]

theorem foldlM_slots {js : List Nat} (small : ∀ j ∈ js, j < linkSlots) :
    js.foldlM (fun dev i => do writeMap dev dmap (← inode.linkAt i) false) dev =
      (js.map inode.slot).foldlM (fun dev b => writeMap dev dmap b false) dev := by
  induction js generalizing dev with
  | nil => rfl
  | cons j js ih =>
    rw [List.foldlM_cons, List.map_cons, List.foldlM_cons, Inode.linkAt_eq (small j List.mem_cons_self)]
    simp only [bind, Except.bind]
    split
    · rfl
    · exact ih fun j hj => small j (List.mem_cons_of_mem _ hj)

theorem links_eq_slots (hlen : inode.len ≤ linkSlots) : inode.links = (List.range inode.len).map inode.slot := by
  apply List.ext_getElem?
  intro q
  by_cases hq : q < inode.len
  · rw [Inode.links_getElem? hlen hq]
    simp [hq]
  · rw [List.getElem?_eq_none (by rw [Inode.length_links hlen]; omega), List.getElem?_eq_none (by simp; omega)]

theorem inodeRemove_eq (hlen : inode.len ≤ linkSlots)
    (inodes : Records bits (readMap dev imap) (inode.index :: held))
    (blocks : Records bits (readMap dev dmap) (inode.links ++ rest)) :
    ∃ dev', inodeRemove dev inode = .ok dev' ∧ Records bits (readMap dev' imap) held ∧
      Records bits (readMap dev' dmap) rest := by
  have low : inode.index < mapBits := inodes.within _ List.mem_cons_self
  have marked : readMap dev imap inode.index ≠ false := by simp [inodes.marked_of_mem List.mem_cons_self]
  have kept : Records bits (readMap (setMap dev imap inode.index false) dmap) (inode.links ++ rest) :=
    blocks.congr fun i hi => readMap_setMap_other (by decide) low hi
  obtain ⟨dev', cleared, records, same⟩ := clear_blocks kept
  refine ⟨dev', ?_, ?_, records⟩
  · have small : ∀ j ∈ List.range inode.len, j < linkSlots := fun j hj => by
      have := List.mem_range.mp hj
      omega
    rw [inodeRemove, writeMap_eq marked]
    apply (foldlM_slots small).trans
    rw [← links_eq_slots hlen]
    exact cleared
  · exact (inodes.release fun j _ => readMap_setMap dev imap _ j false).congr fun i hi => same i hi

/-! ### Runs -/

/-- The device, the counter of ids, and the one copy in memory of every live inode. -/
structure Disk where
  dev : Device
  gid : Nat
  live : List Inode

inductive Op where
  | create (type per : Nat)
  | write (i : Nat) (buf : List Byte) (offset : Nat)
  | remove (i : Nat)

/-- A write starts inside the file and ends in block 25 at most. -/
def Admits (s : Disk) : Op → Prop
  | .create _ _ => True
  | .write i buf offset =>
    ∃ inode, s.live[i]? = some inode ∧ offset ≤ inode.size ∧ offset + buf.length ≤ linkSlots * blockBytes
  | .remove i => ∃ inode, s.live[i]? = some inode

/-- An operation on the `i`-th live inode, through its copy. -/
def perform (s : Disk) : Op → Except Fault Disk
  | .create type per => do
    let (dev, inode, gid) ← inodeCreate s.dev s.gid type per
    .ok { dev, gid, live := s.live ++ [inode] }
  | .write i buf offset =>
    match s.live[i]? with
    | none => .ok s
    | some inode => do
      let (dev, inode) ← dataWrite s.dev inode buf offset
      .ok { s with dev, live := s.live.set i inode }
  | .remove i =>
    match s.live[i]? with
    | none => .ok s
    | some inode => do
      let dev ← inodeRemove s.dev inode
      .ok { s with dev, live := s.live.eraseIdx i }

/-- Runs from clear maps; `free_map` finds a bit in every step taken. -/
def disks : Machine Disk Op where
  Init s := s.live = [] ∧ ∀ i < mapBits, readMap s.dev imap i = false ∧ readMap s.dev dmap i = false
  Step s op t := Admits s op ∧ perform s op = .ok t

/-- The maps hold exactly what the live inodes own. -/
structure Owned (s : Disk) : Prop where
  slots : ∀ inode ∈ s.live, inode.len ≤ linkSlots
  inodes : Records bits (readMap s.dev imap) (s.live.map Inode.index)
  blocks : Records bits (readMap s.dev dmap) (s.live.flatMap Inode.links)

theorem split_at {live : List Inode} {i : Nat} (h : live[i]? = some inode) :
    ∃ before after, live = before ++ inode :: after ∧ live.eraseIdx i = before ++ after ∧
      ∀ new, live.set i new = before ++ new :: after := by
  obtain ⟨inside, here⟩ := List.getElem?_eq_some_iff.mp h
  refine ⟨live.take i, live.drop (i + 1), ?_, List.eraseIdx_eq_take_drop_succ live i, fun new => ?_⟩
  · rw [← here, ← List.drop_eq_getElem_cons inside, List.take_append_drop]
  · rw [List.set_eq_take_append_cons_drop, if_pos inside]

section Steps

variable {s t : Disk} {op : Op}

theorem owned_create (h : Owned s) (type per : Nat) :
    (∃ t, perform s (.create type per) = .ok t ∧ Owned t) ∨ perform s (.create type per) = .error .noFreeBit := by
  cases found : freeMap s.dev imap with
  | none =>
    right
    simp only [perform, inodeCreate_none found]
    rfl
  | some index =>
    left
    have done := @inodeCreate_eq s.dev s.gid type per index found
    have free := freeMap_some found
    have low : index < mapBits := by
      simp only [mapBits, blockBytes] at *
      omega
    refine ⟨_, by simp only [perform, done]; rfl, ?_, ?_, ?_⟩
    · intro other mem
      rcases List.mem_append.mp mem with mem | mem
      · exact h.slots other mem
      · rw [List.mem_singleton.mp mem]
        exact Nat.zero_le _
    · have taken := h.inodes.acquire low free.2 fun j _ => readMap_setMap s.dev imap index j true
      apply taken.perm
      rw [List.map_append, List.map_singleton]
      exact (List.perm_append_singleton _ _).symm
    · have same (inode : Inode) (empty : inode.links = []) :
          (s.live ++ [inode]).flatMap Inode.links = s.live.flatMap Inode.links := by simp [empty]
      rw [same _ rfl]
      exact h.blocks.congr fun j hj => readMap_setMap_other (by decide) low hj

theorem owned_write (h : Owned s) {i : Nat} (live : s.live[i]? = some inode)
    (fits : offset + buf.length ≤ linkSlots * blockBytes) :
    (∃ t, perform s (.write i buf offset) = .ok t ∧ Owned t) ∨
      perform s (.write i buf offset) = .error .noFreeBit := by
  obtain ⟨before, after, split, -, set⟩ := split_at live
  have hlen : inode.len ≤ linkSlots := h.slots inode (List.mem_of_getElem? live)
  rcases @dataWrite_cases s.dev _ _ _ hlen fits with
    ⟨dev', inode', bs, rest, done, free, same, index, links, len⟩ | failed
  · left
    have low : ∀ b ∈ bs, b < mapBits := fun b hb => free_lt (by rw [free]; exact List.mem_append_left _ hb)
    refine ⟨⟨dev', s.gid, s.live.set i inode'⟩, by simp only [perform, live, done]; rfl, ?_, ?_, ?_⟩
    · intro other mem
      rcases List.mem_or_eq_of_mem_set mem with mem | rfl
      · exact h.slots other mem
      · exact len
    · have indices : (s.live.set i inode').map Inode.index = s.live.map Inode.index := by
        rw [set, split]
        simp [index]
      show Records bits (readMap dev' imap) ((s.live.set i inode').map Inode.index)
      rw [indices]
      exact records_same (h.inodes.congr fun j hj => readMap_marks_imap low hj) same (by decide)
    · refine records_same ((records_marks h.blocks free).perm ?_) same (by decide)
      rw [set, split, List.perm_iff_count]
      intro b
      simp [links]
      omega
  · right
    simp only [perform, live, failed]
    rfl

theorem owned_remove (h : Owned s) {i : Nat} (live : s.live[i]? = some inode) :
    ∃ t, perform s (.remove i) = .ok t ∧ Owned t := by
  obtain ⟨before, after, split, erase, -⟩ := split_at live
  have hlen : inode.len ≤ linkSlots := h.slots inode (List.mem_of_getElem? live)
  have inodes : Records bits (readMap s.dev imap) (inode.index :: (before ++ after).map Inode.index) := by
    apply h.inodes.perm
    rw [split, List.map_append, List.map_append, List.map_cons]
    exact List.perm_middle
  have blocks : Records bits (readMap s.dev dmap) (inode.links ++ (before ++ after).flatMap Inode.links) := by
    apply h.blocks.perm
    rw [split, List.perm_iff_count]
    intro b
    simp
    omega
  obtain ⟨dev', done, inodes', blocks'⟩ := inodeRemove_eq hlen inodes blocks
  refine ⟨⟨dev', s.gid, s.live.eraseIdx i⟩, by simp only [perform, live, done]; rfl, ?_, ?_, ?_⟩
  · intro other mem
    exact h.slots other (List.mem_of_mem_eraseIdx mem)
  · rw [erase]
    exact inodes'
  · rw [erase]
    exact blocks'

theorem owned_step (h : Owned s) (admits : Admits s op) :
    (∃ t, perform s op = .ok t ∧ Owned t) ∨ perform s op = .error .noFreeBit := by
  cases op with
  | create type per => exact owned_create h type per
  | write i buf offset =>
    obtain ⟨inode, live, -, fits⟩ := admits
    exact owned_write h live fits
  | remove i =>
    obtain ⟨inode, live⟩ := admits
    exact Or.inl (owned_remove h live)

theorem owned_reachable (h : disks.Reachable s) : Owned s := by
  refine h.induct Owned ?_ ?_
  · rintro s ⟨none, clear⟩
    refine ⟨?_, ?_, ?_⟩
    · simp [none]
    · rw [none]
      exact Records.empty fun i hi => (clear i hi).1
    · rw [none]
      exact Records.empty fun i hi => (clear i hi).2
  · rintro s op t owned ⟨admits, done⟩
    rcases owned_step owned admits with ⟨t', done', owned'⟩ | failed
    · rw [done] at done'
      cases done'
      exact owned'
    · rw [done] at failed
      cases failed

end Steps

/-- What the maps say of the live inodes, and that no operation fails but for want of a free bit. -/
structure Consistent (s : Disk) : Prop where
  len_le : ∀ inode ∈ s.live, inode.len ≤ 25
  distinct_indices : (s.live.map Inode.index).Nodup
  imap_exact : ∀ i < mapBits, readMap s.dev imap i = true ↔ ∃ inode ∈ s.live, inode.index = i
  distinct_blocks : (s.live.flatMap fun inode => inode.link.toList.take inode.len).Nodup
  dmap_exact : ∀ b < mapBits, readMap s.dev dmap b = true ↔ ∃ inode ∈ s.live, b ∈ inode.link.toList.take inode.len
  inside : ∀ inode ∈ s.live, inode.index < mapBits ∧ ∀ b ∈ inode.link.toList.take inode.len, b < mapBits
  no_assertion : ∀ op, Admits s op → (∃ t, perform s op = .ok t) ∨ perform s op = .error .noFreeBit

/-- In every state of a run the maps are exactly what the live inodes own. -/
theorem reachable_consistent {s : Disk} (h : disks.Reachable s) : Consistent s := by
  have owned := owned_reachable h
  constructor
  · exact owned.slots
  · exact owned.inodes.nodup
  · intro i hi
    rw [owned.inodes.marks i hi, List.mem_map]
  · exact owned.blocks.nodup
  · intro b hb
    rw [owned.blocks.marks b hb, List.mem_flatMap]
    rfl
  · intro inode mem
    refine ⟨owned.inodes.within _ (List.mem_map_of_mem mem), fun b hb => ?_⟩
    exact owned.blocks.within b (List.mem_flatMap.mpr ⟨inode, mem, hb⟩)
  · intro op admits
    rcases owned_step owned admits with ⟨t, done, -⟩ | failed
    · exact Or.inl ⟨t, done⟩
    · exact Or.inr failed

theorem freeBits_clear {blk : Nat} (clear : ∀ i < mapBits, readMap dev blk i = false) :
    freeBits dev blk = List.range blockBytes := by
  apply List.filter_eq_self.mpr
  intro i hi
  have low := List.mem_range.mp hi
  rw [clear i (by simp only [mapBits, blockBytes] at *; omega)]
  rfl

/-- A file is created on a fresh device and three bytes are written to it. -/
theorem reachable_consistent_sample : ∃ s : Disk, s.live.map (fun inode => (inode.index, inode.links)) = [(0, [0])] ∧
    Consistent s := by
  let fresh : Disk := ⟨fun _ => 0, 0, []⟩
  have clear (blk : Nat) : ∀ i < mapBits, readMap fresh.dev blk i = false := fun i _ => by simp [fresh, readMap]
  have start : disks.Reachable fresh := .init ⟨rfl, fun i hi => ⟨clear imap i hi, clear dmap i hi⟩⟩
  have first : freeMap fresh.dev imap = some 0 := by
    rw [freeMap_eq, freeBits_clear (clear imap), List.head?_range, if_neg (by decide)]
  obtain ⟨inode, gid, made, index, links, len⟩ : ∃ inode gid,
      inodeCreate fresh.dev 0 NF 7 = .ok (setMap fresh.dev imap 0 true, inode, gid) ∧ inode.index = 0 ∧
        inode.links = [] ∧ inode.len = 0 := ⟨_, _, inodeCreate_eq first, rfl, rfl, rfl⟩
  let made : Disk := ⟨setMap fresh.dev imap 0 true, gid, [inode]⟩
  have created : disks.Reachable made := start.step (l := .create NF 7) ⟨trivial, by simp only [perform, fresh, *]; rfl⟩
  have free : freeBits made.dev dmap = List.range blockBytes := freeBits_clear fun i hi =>
    (readMap_setMap_other (by decide) (by decide) hi).trans (clear dmap i hi)
  have new : newBlocks made.dev inode 0 3 = [0] := by
    rw [newBlocks, len, free, if_neg (by decide), List.take_range]
    rfl
  have room : Room made.dev inode 0 3 := Or.inr (by rw [free, List.length_range]; decide)
  have slots : inode.len + (newBlocks made.dev inode 0 3).length ≤ linkSlots := by rw [new, len]; decide
  obtain ⟨dev, inode', written, index', links'⟩ : ∃ dev inode', dataWrite made.dev inode [1, 2, 3] 0 =
    .ok (dev, inode') ∧
      inode'.index = 0 ∧ inode'.links = [0] := by
    refine ⟨_, _, dataWrite_eq (by rw [len]; decide) (by decide) room, ?_, ?_⟩
    · rw [written, Inode.grow_index, Inode.pushAll_index, index]
    · rw [written, Inode.grow_links]
      exact (Inode.pushAll_links slots).trans (by rw [links, new]; rfl)
  refine ⟨⟨dev, gid, [inode']⟩, by simp [index', links'], reachable_consistent (created.step (l := .write 0 [1, 2, 3] 0)
    ⟨⟨inode, rfl, Nat.zero_le _, by decide⟩, ?_⟩)⟩
  simp only [perform, made, List.getElem?_cons_zero] at *
  rw [written]
  rfl

end OsLabs.Ext2

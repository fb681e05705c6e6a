import OsLabs.Ext2.DirBounds

/-!
# Calls inside the device

The calls that take blocks, and those that look up a path. What is marked in the data
map is on the device as long as every block that `free_map` hands out is.
-/

namespace OsLabs.Ext2.Rd
open Util Program

variable {n k d fuel offset m i : Nat} {dev dev' dev₀ : Device} {inode inode' father : Inode}
  {buf name post : List Byte}
  {bs rest : List Nat} {r : Record} {parent : Nat → Nat} {entries : Nat → List Record}

/-! ### The blocks in use -/

def MarkedOnDisk (n : Nat) (dev : Device) : Prop := ∀ b < mapBits, Ext2.readMap dev dmap b = true → OnDisk n b

/-- The next `k` blocks that `free_map` hands out are on the device. -/
def FreeOnDisk (n k : Nat) (dev : Device) : Prop := ∀ b ∈ (freeBits dev dmap).take k, OnDisk n b

theorem MarkedOnDisk.links (h : MarkedOnDisk n dev) (marked : Marked dev inode) : ∀ b ∈ inode.links, OnDisk n b :=
  fun b mem => h b (marked b mem).1 (marked b mem).2

theorem MarkedOnDisk.congr (h : MarkedOnDisk n dev)
    (same : ∀ b < mapBits, Ext2.readMap dev' dmap b = true → Ext2.readMap dev dmap b = true) : MarkedOnDisk n dev' :=
  fun b small marked => h b small (same b small marked)

theorem MarkedOnDisk.sameMaps (h : MarkedOnDisk n dev) (same : SameMaps dev dev') : MarkedOnDisk n dev' :=
  h.congr fun b small marked => by rwa [same.readMap (by decide) small] at marked

theorem freeOnDisk_zero : FreeOnDisk n 0 dev := fun _ none => nomatch none

theorem FreeOnDisk.sameMaps (h : FreeOnDisk n k dev) (same : SameMaps dev dev') : FreeOnDisk n k dev' := by
  rw [FreeOnDisk, same.freeBits (by decide)]
  exact h

theorem FreeOnDisk.mono (h : FreeOnDisk n k dev) (le : m ≤ k) : FreeOnDisk n m dev :=
  fun b mem => h b ((List.take_subset_take_left _ le) mem)

def asked (inode : Inode) (offset m : Nat) : Nat := if offset < inode.len * blockBytes then 0 else blocks m

theorem newBlocks_eq : newBlocks dev inode offset m = (freeBits dev dmap).take (asked inode offset m) := by
  unfold newBlocks asked
  split
  · rfl
  · rfl

theorem asked_append (filled : inode.len = blocks inode.size) (some : 0 < m)
    (chunk : inode.size % blockBytes + m ≤ blockBytes) :
    asked inode inode.size m = blocks (inode.size + m) - inode.len := by
  unfold asked
  split
  all_goals
    simp only [blocks, blockBytes] at *
    omega

theorem write_on_disk (h : MarkedOnDisk n dev) (new : ∀ b ∈ newBlocks dev inode offset buf.length, OnDisk n b) :
    MarkedOnDisk n ((marks dev (newBlocks dev inode offset buf.length)).writes (stored dev inode buf offset)) := by
  intro b small marked
  rw [(SameMaps.of_writes stored_addr).readMap (by decide) small, readMap_marks, Bool.or_eq_true,
    decide_eq_true_eq] at marked
  exact marked.elim (new b) (h b small)

theorem write_free (free : FreeOnDisk n (k + asked inode offset buf.length) dev) :
    FreeOnDisk n k ((marks dev (newBlocks dev inode offset buf.length)).writes (stored dev inode buf offset)) := by
  have split : freeBits dev dmap = newBlocks dev inode offset buf.length ++
      (freeBits dev dmap).drop (asked inode offset buf.length) := by
    rw [newBlocks_eq, List.take_append_drop]
  rw [FreeOnDisk, (SameMaps.of_writes stored_addr).freeBits (by decide), freeBits_marks split]
  intro b mem
  rw [List.take_drop, Nat.add_comm] at mem
  exact free b (List.mem_of_mem_drop mem)

/-! ### Appending -/

/-- The program stays inside the device, and leaves its marks and the next `k` blocks to hand out on it. -/
abbrev Keeps {α : Type} (n k : Nat) (dev : Device) (x : RdProgram α) : Prop :=
  Leaves (Transfer.Inside n) x dev fun dev' _ => MarkedOnDisk n dev' ∧ FreeOnDisk n k dev'

theorem dataWrite_keeps (cap : Capacity n) (sized : Sized inode) (marked : Marked dev inode) (some : buf ≠ [])
    (chunk : inode.size % blockBytes + buf.length ≤ blockBytes)
    (fits : inode.size + buf.length ≤ linkSlots * blockBytes)
    (marks : MarkedOnDisk n dev) (free : FreeOnDisk n (k + (blocks (inode.size + buf.length) - inode.len)) dev) :
    Keeps n k dev (dataWrite inode buf inode.size) := by
  rw [← asked_append sized.filled (List.length_pos_of_ne_nil some) chunk] at free
  have new : ∀ b ∈ newBlocks dev inode inode.size buf.length, OnDisk n b := by
    rw [newBlocks_eq]
    exact free.mono (Nat.le_add_left _ _)
  refine ⟨dataWrite_within cap sized.len fits sized.low
    (append_on_disk sized some chunk fits (marks.links marked) new), fun dev' inode' done => ?_⟩
  rw [result_dataWrite] at done
  by_cases room : Room dev inode inode.size buf.length
  · rw [dataWrite_eq sized.len fits room] at done
    rw [← (Prod.mk.inj (Except.ok.inj done)).1]
    exact ⟨write_on_disk marks new, write_free free⟩
  · rw [dataWrite_short fits room] at done
    cases done

def entryBlocks (inode : Inode) (name : List Byte) : Nat :=
  blocks (inode.size + entryBytes + (name.length + 1)) - inode.len

theorem createEntry_keeps {entryInode type : Nat} (cap : Capacity n) (sized : Sized inode) (marked : Marked dev inode)
    (fits : EntryFits inode name) (marks : MarkedOnDisk n dev) (free : FreeOnDisk n (k + entryBlocks inode name) dev) :
    Keeps n k dev (createEntry inode entryInode name type) := by
  obtain ⟨header, behind, room⟩ := fits
  obtain ⟨entry, hentry⟩ : ∃ entry : Entry, entry =
    ⟨entryInode, entryBytes + (name.length + 1), name.length + 1, type⟩ := ⟨_, rfl⟩
  have length : entry.encode.length = entryBytes := length_encodeEntry _
  have filled := sized.filled
  have some : entry.encode ≠ [] := by
    rw [← List.length_pos_iff, length]
    decide
  have chunk : inode.count.size % blockBytes + entry.encode.length ≤ blockBytes := by
    rw [length]
    exact header
  have small : inode.count.size + entry.encode.length ≤ linkSlots * blockBytes := by
    rw [length]
    exact Nat.le_trans (Nat.le_add_right _ _) room
  have first : Keeps n
      (k + (blocks (inode.size + entryBytes + (name.length + 1)) - blocks (inode.size + entryBytes))) dev
      (dataWrite inode.count entry.encode inode.count.size) := by
    refine dataWrite_keeps cap sized.count marked some chunk small marks (free.mono ?_)
    rw [length]
    show _ + (blocks (inode.size + entryBytes) - inode.len) ≤ _
    simp only [entryBlocks, blocks, entryBytes, blockBytes] at *
    omega
  have whole : createEntry inode entryInode name type =
      dataWrite inode.count entry.encode inode.count.size >>=
        fun inode => dataWrite inode (name ++ [0]) inode.size := by
    rw [hentry]
    rfl
  rw [whole]
  apply first.bind
  intro dev₁ inode₁ done h
  obtain ⟨marks₁, free₁⟩ := h
  rw [result_dataWrite] at done
  have one := dataWrite_appended sized.count marked some chunk small done
  have size : inode₁.size = inode.size + entryBytes := by
    rw [one.size, length]
    rfl
  refine dataWrite_keeps cap one.sized one.marked (by simp) ?_ ?_ marks₁ ?_
  · rw [size]
    simpa using behind
  · rw [size]
    simpa using room
  · rw [one.sized.filled, size]
    simpa using free₁

/-! ### Paths -/

/-- Every inode that a component is looked up in is a directory or empty. -/
def ThroughFolders (dev : Device) : Nat → Inode → Option (List Byte) → Prop
  | 0, _, _ => True
  | fuel + 1, inode, tmp =>
    match rootdir tmp with
    | none => True
    | some pre => (inode.type = DR ∨ inode.size = 0) ∧ ∀ index, Ext2.dirLookup dev inode pre = .ok index → 0 ≤ index →
        ThroughFolders dev fuel (Ext2.readInode dev index.toNat) (postname tmp)

def Walkable (dev : Device) : Option (List Byte) → Prop
  | none => True
  | some name => ThroughFolders dev ((strip name).length + 1) (Ext2.readInode dev 0) (some (strip name))

theorem dirLookup_none (empty : inode.size = 0) : Ext2.dirLookup dev inode name = .ok (-1) := by
  rw [Ext2.dirLookup, Ext2.lookupLoop, if_neg (by omega)]

section

variable (cap : Capacity n) (T : Tree dev parent entries) (marks : MarkedOnDisk n dev)
include cap T marks

theorem folder_within (here : IsFolder dev d) :
    Within (Transfer.Inside n) (dirLookup (Ext2.readInode dev d) name) dev :=
  dirLookup_within cap (T.folder d here).1.listed (marks.links (T.node d here.1).marked)

omit cap marks in
theorem found_used {index : Int} (here : IsFolder dev d) (plain : 0 ∉ name)
    (found : Ext2.dirLookup dev (Ext2.readInode dev d) name = .ok index) (some : 0 ≤ index) : Used dev index.toNat := by
  obtain ⟨records, up, -⟩ := T.folder d here
  rw [records.listed.dirLookup plain] at found
  obtain ⟨t, rfl⟩ := Int.eq_ofNat_of_zero_le some
  obtain ⟨x, mem, names, rfl⟩ := named_cases (Except.ok.inj found)
  rw [Int.toNat_natCast]
  rcases List.mem_cons.mp mem with rfl | mem
  · exact here.1
  rcases List.mem_cons.mp mem with rfl | mem
  · exact up.1
  · exact T.named d x mem names.1

theorem pathLoop_within {tmp : Option (List Byte)} (used : Used dev i) (plain : ∀ path, tmp = some path → 0 ∉ path)
    (through : ThroughFolders dev fuel (Ext2.readInode dev i) tmp) :
    Within (Transfer.Inside n) (pathLoop fuel (Ext2.readInode dev i) tmp) dev ∧
      ∀ inode, Ext2.pathLoop dev fuel (Ext2.readInode dev i) tmp = .ok (some inode) →
        ∃ k, Used dev k ∧ inode = Ext2.readInode dev k := by
  induction fuel generalizing i tmp with
  | zero => exact ⟨within_stop, fun _ none => nomatch none⟩
  | succ fuel ih =>
    unfold pathLoop Ext2.pathLoop
    unfold ThroughFolders at through
    cases first : rootdir tmp with
    | none => exact ⟨within_pure, fun inode same => ⟨i, used, (Option.some.inj (Except.ok.inj same)).symm⟩⟩
    | some pre =>
      rw [first] at through
      simp only at through ⊢
      obtain ⟨kind, next⟩ := through
      cases tmp with
      | none => cases first
      | some path =>
        have plainPre : 0 ∉ pre := fun mem => plain path rfl (rootdir_subset first mem)
        have plainPost (post : List Byte) (last : postname (some path) = some post) : 0 ∉ post :=
          fun mem => plain path rfl (postname_subset last mem)
        rcases kind with directory | empty
        · have here : IsFolder dev i := ⟨used, directory⟩
          have step (index : Int) (found : Ext2.dirLookup dev (Ext2.readInode dev i) pre = .ok index)
              (some : 0 ≤ index) :=
            ih (found_used T here plainPre found some) plainPost (next index found some)
          constructor
          · refine (dirLookup_computes _ _).within_bind.mpr ⟨folder_within cap T marks here, fun index found => ?_⟩
            split
            · rename_i some
              have low := (T.node _ (found_used T here plainPre found some)).low
              exact (readInode_computes _).within_next.mpr ⟨readInode_within cap low, (step index found some).1⟩
            · exact within_pure
          · intro inode done
            obtain ⟨index, found, done⟩ := bind_ok done
            split at done
            · rename_i some
              exact (step index found some).2 inode done
            · cases done
        · have missing := @dirLookup_none dev (Ext2.readInode dev i) pre empty
          constructor
          · refine (dirLookup_computes _ _).within_bind.mpr ⟨dirLookup_empty empty, fun index found => ?_⟩
            rw [missing] at found
            obtain rfl := Except.ok.inj found
            exact within_pure
          · intro inode done
            rw [missing] at done
            cases done

theorem inodeLookup_within {path : Option (List Byte)} (plain : ∀ name, path = some name → 0 ∉ name)
    (walk : Walkable dev path) :
    Within (Transfer.Inside n) (inodeLookup path) dev ∧
      ∀ inode, Ext2.inodeLookup dev path = .ok (some inode) → ∃ k, Used dev k ∧ inode = Ext2.readInode dev k := by
  cases path with
  | none => exact ⟨within_stop, fun _ none => nomatch none⟩
  | some name =>
    have root := T.root.1.1
    have stripped : ∀ path, some (strip name) = some path → 0 ∉ path := by
      intro path same mem
      rw [← Option.some.inj same] at mem
      exact plain name rfl (strip_subset mem)
    have both := pathLoop_within cap T marks root stripped walk
    exact ⟨(readInode_computes _).within_next.mpr ⟨readInode_within cap (T.node 0 root).low, both.1⟩, both.2⟩

theorem alldir_within (plain : 0 ∉ name) (walk : Walkable dev (alldir (some name))) :
    Within (Transfer.Inside n) (inodeLookup (alldir (some name))) dev :=
  (inodeLookup_within cap T marks (fun _ found mem => plain (alldir_subset found mem)) walk).1

theorem lookup_within (plain : 0 ∉ name) (walk : Walkable dev (some name)) :
    Within (Transfer.Inside n) (lookup name) dev ∧ ∀ cur, Ext2.lookup dev name = .ok (some cur) →
      ∃ k, Used dev k ∧ cur = updateInode (Ext2.readInode dev k) := by
  obtain ⟨within, found⟩ := inodeLookup_within cap T marks (fun _ same => Option.some.inj same ▸ plain) walk
  refine ⟨(inodeLookup_computes _).within_bind.mpr ⟨within, fun _ _ => within_pure⟩, fun cur done => ?_⟩
  obtain ⟨inode, looked, rfl, -⟩ := lookup_read done
  obtain ⟨k, used, rfl⟩ := found inode looked
  exact ⟨k, used, rfl⟩

end

/-! ### New entries -/

theorem writeInode_keeps (cap : Capacity n) (low : i < 80) (marks : MarkedOnDisk n dev) (free : FreeOnDisk n k dev) :
    Keeps n k dev (writeInode i inode) where
  within := writeInode_within cap low
  post dev' _ done := by
    rw [result_writeInode] at done
    rw [← (Prod.mk.inj (Except.ok.inj done)).1]
    have same : SameMaps dev (Ext2.writeInode dev i inode) := SameMaps.of_write (block_lt_table i)
    exact ⟨marks.sameMaps same, free.sameMaps same⟩

theorem setMap_imap (small : i < mapBits) {x : Bool} : ∀ b < mapBits,
    Ext2.readMap (setMap dev imap i x) dmap b = Ext2.readMap dev dmap b :=
  fun b inside => readMap_setMap_other (by decide) small inside

theorem inodeCreate_keeps {gid type per : Nat} (cap : Capacity n) (marks : MarkedOnDisk n dev)
    (free : FreeOnDisk n k dev) :
    Keeps n k dev (inodeCreate gid type per) where
  within := inodeCreate_within cap
  post dev' made done := by
    rw [result_inodeCreate] at done
    obtain ⟨t, found, rfl, -⟩ := inodeCreate_cases done
    have inside := (freeMap_some found).1
    have same := @setMap_imap t dev (by simp only [mapBits, blockBytes] at *; omega) true
    refine ⟨marks.congr fun b small marked => by rwa [same b small] at marked, ?_⟩
    rw [FreeOnDisk, freeBits_congr fun b small => same b (by simp only [mapBits, blockBytes] at *; omega)]
    exact free

/-- The first entry of a new directory takes a block. -/
theorem self_keeps (cap : Capacity n) (sized : Sized inode) (marked : Marked dev₀ inode) (size : inode.size = 0)
    (marks : MarkedOnDisk n dev₀) (free : FreeOnDisk n (k + 1) dev₀) :
    Leaves (Transfer.Inside n) (createEntry inode inode.index dot DR) dev₀ fun dev₁ inode₁ =>
      (MarkedOnDisk n dev₁ ∧ FreeOnDisk n k dev₁) ∧ Sized inode₁ ∧ Marked dev₁ inode₁ ∧ inode₁.size = 18 ∧
        inode₁.index = inode.index := by
  have len : inode.len = 0 := by
    rw [sized.filled, size]
    rfl
  have room : EntryFits inode dot := by
    rw [EntryFits, size]
    decide
  have one : entryBlocks inode dot = 1 := by
    rw [entryBlocks, size, len]
    rfl
  obtain ⟨within, post⟩ :=
    @createEntry_keeps n k dev₀ inode dot inode.index DR cap sized marked room marks (by rw [one]; exact free)
  refine ⟨within, fun dev₁ inode₁ done => ⟨post dev₁ inode₁ done, ?_⟩⟩
  rw [result_createEntry] at done
  have grown := createEntry_appended (r := ⟨inode.index, dot, DR⟩) sized marked room done
  refine ⟨grown.sized, grown.marked, ?_, grown.index⟩
  rw [grown.size, Record.length_bytes]
  show inode.size + _ = _
  rw [size]
  rfl

/-- The second one is in the same block. -/
theorem up_keeps (cap : Capacity n) (sized : Sized inode) (marked : Marked dev₀ inode) (size : inode.size = 18)
    (marks : MarkedOnDisk n dev₀) (free : FreeOnDisk n k dev₀) :
    Leaves (Transfer.Inside n) (createEntry inode d dotdot DR) dev₀ fun dev₁ inode₁ =>
      (MarkedOnDisk n dev₁ ∧ FreeOnDisk n k dev₁) ∧ inode₁.index = inode.index := by
  have len : inode.len = 1 := by
    rw [sized.filled, size]
    rfl
  have none : entryBlocks inode dotdot = 0 := by
    rw [entryBlocks, size, len]
    rfl
  have room : EntryFits inode dotdot := by
    rw [EntryFits, size]
    decide
  obtain ⟨within, post⟩ :=
    @createEntry_keeps n k dev₀ inode dotdot d DR cap sized marked room marks (by rw [none]; exact free)
  refine ⟨within, fun dev₁ inode₁ done => ⟨post dev₁ inode₁ done, ?_⟩⟩
  rw [result_createEntry] at done
  exact (createEntry_appended (r := ⟨d, dotdot, DR⟩) sized marked room done).index

/-- The blocks that a new entry takes, and a new directory, are on the device. -/
def EntryOnDisk (n : Nat) (dev : Device) (name : List Byte) (type : Nat) : Prop :=
  ∀ father post, Ext2.inodeLookup dev (alldir (some name)) = .ok (some father) → filename (some name) = some post →
    FreeOnDisk n (entryBlocks father post + if type = DR then 1 else 0) dev

/-- The entry of an inode that has its own, in a directory in use. -/
theorem entry_keeps {type : Nat} (cap : Capacity n) (T : Tree dev parent entries) (candidate : Candidate dev dev₀ inode)
    (here : IsFolder dev d) (other : d ≠ inode.index) (fits : EntryFits (Ext2.readInode dev d) post)
    (marks : MarkedOnDisk n dev₀) (free : FreeOnDisk n (entryBlocks (Ext2.readInode dev d) post) dev₀) :
    Leaves (Transfer.Inside n) (createEntry (Ext2.readInode dev d) inode.index post type) dev₀ fun dev₁ father =>
      MarkedOnDisk n dev₁ ∧ father.index = d := by
  have node := T.node d here.1
  have sized := (T.folder d here).1.sized node
  have marked := candidate.still_marked (fun j used => (T.node j used).marked) here.1 other
  obtain ⟨within, post'⟩ :=
    @createEntry_keeps n 0 dev₀ (Ext2.readInode dev d) post inode.index type cap sized marked fits marks
    (by rwa [Nat.zero_add])
  refine ⟨within, fun dev₁ father done => ⟨(post' dev₁ father done).1, ?_⟩⟩
  rw [result_createEntry] at done
  exact (createEntry_appended (r := ⟨inode.index, post, type⟩) sized marked fits done).index.trans node.index

theorem createFile_keeps {gid per type : Nat} (cap : Capacity n) (T : Tree dev parent entries)
    (marks : MarkedOnDisk n dev)
    (sort : type = NF ∨ type = DR) (plain : 0 ∉ name) (folder : FoundFolder dev name) (room : EntryRoom dev name)
    (low : ∀ t, Ext2.freeMap dev imap = some t → t < 80) (walk : Walkable dev (alldir (some name)))
    (free : EntryOnDisk n dev name type) :
    Leaves (Transfer.Inside n) (createFile gid name false per type) dev fun dev' _ => MarkedOnDisk n dev' := by
  simp only [createFile, Bool.false_eq_true, if_false]
  apply (inodeLookup_computes _).leaves_bind (alldir_within cap T marks plain walk)
  intro found looked
  cases found with
  | none => exact .pure marks
  | some father =>
    cases last : filename (some name) with
    | none => exact .stop
    | some post =>
      have fits := room father post looked last
      have blocks := free father post looked last
      obtain ⟨d, here, rfl⟩ := folder father looked
      have node := T.node d here.1
      apply (inodeCreate_keeps cap marks blocks).bind
      intro dev₀ made created h
      obtain ⟨marks₀, free₀⟩ := h
      obtain ⟨inode, gid₀⟩ := made
      rw [result_inodeCreate] at created
      obtain ⟨candidate, unused, sized, -, size, dirLen, -⟩ := inodeCreate_candidate sort low created
      have other {j : Nat} (same : j = inode.index) : d ≠ j := by
        rintro rfl
        exact unused (same ▸ here.1)
      -- the two inodes are stored once the entry is made
      have stores {dev₁ : Device} {inode₁ : Inode} (candidate₁ : Candidate dev dev₁ inode₁)
          (same : inode₁.index = inode.index)
          (marks₁ : MarkedOnDisk n dev₁) (free₁ : FreeOnDisk n (entryBlocks (Ext2.readInode dev d) post) dev₁) :
          Leaves (Transfer.Inside n) (do
            let father ← createEntry (Ext2.readInode dev d) inode₁.index post type
            writeInode father.index father
            writeInode inode₁.index inode₁
            pure (gid₀, (0 : Int))) dev₁ fun dev' _ => MarkedOnDisk n dev' := by
        apply (entry_keeps cap T candidate₁ here (other same) fits marks₁ free₁).bind
        intro dev₂ father _ h
        obtain ⟨marks₂, index⟩ := h
        apply (writeInode_keeps cap (by rw [index]; exact node.low) marks₂ freeOnDisk_zero).bind
        intro dev₃ _ _ h
        obtain ⟨marks₃, -⟩ := h
        apply (writeInode_keeps cap candidate₁.low marks₃ freeOnDisk_zero).bind
        intro dev₄ _ _ h
        obtain ⟨marks₄, -⟩ := h
        exact .pure marks₄
      rcases sort with rfl | rfl
      · rw [if_neg (by decide)] at free₀
        exact stores candidate rfl marks₀ free₀
      · rw [if_pos rfl] at free₀
        apply (self_keeps cap sized candidate.marked size marks₀ free₀).bind
        intro dev₁ inode₁ self h
        obtain ⟨⟨marks₁, free₁⟩, sized₁, marked₁, size₁, -⟩ := h
        apply (up_keeps cap sized₁ marked₁ size₁ marks₁ free₁).bind
        intro dev₂ inode₂ up h
        obtain ⟨⟨marks₂, free₂⟩, -⟩ := h
        rw [result_createEntry] at self up
        obtain ⟨candidate₂, -, -, same, -⟩ :=
          newFolder candidate (fun j used => (T.node j used).marked) sized size dirLen
          node.low self (fun _ => node.index) up
        exact stores candidate₂ same marks₂ free₂

/-! ### Removing -/

theorem clear_marks {bs : List Nat} (done : bs.foldlM (fun dev b => Ext2.writeMap dev dmap b false) dev = .ok dev') :
    ∀ b < mapBits, Ext2.readMap dev' dmap b = true → Ext2.readMap dev dmap b = true := by
  induction bs generalizing dev with
  | nil =>
    obtain rfl := Except.ok.inj done
    exact fun b _ marked => marked
  | cons c bs ih =>
    rw [List.foldlM_cons] at done
    obtain ⟨dev₁, cleared, done⟩ := bind_ok done
    obtain rfl := writeMap_done cleared
    intro b small marked
    have before := ih done b small marked
    rw [readMap_setMap] at before
    split at before
    · cases before
    · exact before

theorem inodeRemove_keeps (cap : Capacity n) (len : inode.len ≤ linkSlots) (low : inode.index < 80)
    (marked : Marked dev' inode)
    (marks : MarkedOnDisk n dev) :
    Leaves (Transfer.Inside n) (inodeRemove inode) dev fun dev' _ => MarkedOnDisk n dev' where
  within := inodeRemove_within cap len low marked
  post dev₂ _ done := by
    rw [result_inodeRemove] at done
    cases removed : Ext2.inodeRemove dev inode with
    | error e =>
      rw [removed] at done
      cases done
    | ok dev₁ =>
      rw [removed] at done
      obtain ⟨rfl, -⟩ := Prod.mk.inj (Except.ok.inj done)
      obtain ⟨dev₂, unmarked, removed⟩ := bind_ok removed
      obtain rfl := writeMap_done unmarked
      have slots : ∀ j ∈ List.range inode.len, j < linkSlots :=
        fun j mem => Nat.lt_of_lt_of_le (List.mem_range.mp mem) len
      rw [foldlM_slots slots, ← links_eq_slots len] at removed
      apply marks.congr
      intro b small still
      rw [← setMap_imap (Nat.lt_trans low (by decide)) b small]
      exact clear_marks removed b small still

theorem rm_keeps (cap : Capacity n) (T : Tree dev parent entries) (marks : MarkedOnDisk n dev) (plain : 0 ∉ name)
    (removable : Removable dev name) (walk : Walkable dev (alldir (some name))) :
    Leaves (Transfer.Inside n) (rm name) dev fun dev' _ => MarkedOnDisk n dev' := by
  unfold rm
  split
  · exact .pure marks
  apply (inodeLookup_computes _).leaves_bind (alldir_within cap T marks plain walk)
  intro found looked
  cases found with
  | none => exact .pure marks
  | some father =>
    cases last : filename (some name) with
    | none => exact .stop
    | some post =>
      have own := removable.2 father post looked last
      obtain ⟨d, here, rfl⟩ := removable.1 father looked
      have plain_post := filename_plain plain last
      apply (dirLookup_computes _ _).leaves_bind (folder_within cap T marks here)
      intro index named
      split
      · exact .pure marks
      rename_i some
      obtain ⟨t, rfl⟩ := Int.eq_ofNat_of_zero_le (Int.not_lt.mp some)
      have used := found_used T here plain_post named (Int.natCast_nonneg t)
      rw [Int.toNat_natCast] at used ⊢
      have target := T.node t used
      apply (readInode_computes _).leaves_bind (readInode_within cap target.low)
      intro inode read
      obtain rfl := Except.ok.inj read
      split
      · exact .pure marks
      rename_i removable
      obtain ⟨before, r, after, split, live, rfl, first, other, up⟩ :=
        T.entry_of_name here plain_post named own removable
      have node := T.node d here.1
      have folder := (T.folder d here).1
      have records : folderRecords d (parent d) (entries d) = folderRecords d (parent d) before ++ r :: after := by
        rw [split]
        rfl
      have cut : Leaves (Transfer.Inside n) (dirRemove (Ext2.readInode dev d) r.inode) dev fun dev₁ _ =>
          MarkedOnDisk n dev₁ := by
        refine ⟨dirRemove_within cap folder.laid (marks.links node.marked)
          (by rw [node.index]; exact node.low) records live
          (folderRecords_absent first ⟨other, up⟩), fun dev₁ _ done => ?_⟩
        obtain ⟨dev₂, inode₂, done', maps, -⟩ := folder.dirRemove node split live first ⟨other, up⟩
        rw [result_dirRemove, done'] at done
        rw [← (Prod.mk.inj (Except.ok.inj done)).1]
        exact marks.sameMaps maps
      apply cut.bind
      intro dev₁ _ _ marks₁
      split
      · refine (inodeRemove_keeps cap target.len (by rw [target.index]; exact target.low) target.marked marks₁).bind
          fun dev₂ _ _ marks₂ => .pure marks₂
      · exact (writeInode_keeps cap target.low marks₁ freeOnDisk_zero).bind fun dev₂ _ _ ⟨marks₂, _⟩ => .pure marks₂

/-! ### Linking -/

theorem inodeLink_keeps {file : File} (cap : Capacity n) (T : Tree dev parent entries) (marks : MarkedOnDisk n dev)
    (plain : 0 ∉ name) (folder : FoundFolder dev name) (room : EntryRoom dev name) (used : Used dev k)
    (fresh : file.inode.fsInode = Ext2.readInode dev k) (normal : (Ext2.readInode dev k).type = NF)
    (walk : Walkable dev (alldir (some name))) (free : EntryOnDisk n dev name NF) :
    Leaves (Transfer.Inside n) (inodeLink file name) dev fun dev' _ => MarkedOnDisk n dev' := by
  apply (inodeLookup_computes _).leaves_bind (alldir_within cap T marks plain walk)
  intro found looked
  cases found with
  | none => exact .stop
  | some father =>
    cases last : filename (some name) with
    | none => exact .stop
    | some post =>
      have fits := room father post looked last
      have blocks := free father post looked last
      rw [if_neg (by decide)] at blocks
      obtain ⟨d, here, rfl⟩ := folder father looked
      have node := T.node k used
      have candidate :=
        @Tree.candidate dev parent entries k (Ext2.readInode dev k).linkNum T used readInode_fits.linkNum
      have other : d ≠ (Ext2.readInode dev k).index := by
        rw [node.index]
        rintro rfl
        have directory := here.2
        rw [normal] at directory
        exact absurd directory (by decide)
      rw [fresh]
      refine (entry_keeps cap T candidate here other fits marks blocks).bind fun dev₁ father _ ⟨marks₁, _⟩ => ?_
      refine (writeInode_keeps cap ?_ marks₁ freeOnDisk_zero).bind fun dev₂ _ _ ⟨marks₂, _⟩ => .pure marks₂
      show (Ext2.readInode dev k).index < 80
      rw [node.index]
      exact node.low

/-! ### A fresh file system -/

theorem bzero_within {x : Nat} (cap : Capacity n) (table : x < dataB) : Within (Transfer.Inside n) (bzero x) dev := by
  refine write_within cap (cap.low ?_)
  rw [List.length_replicate]
  simp only [block, dataB, blockBytes] at *
  omega

theorem bzeroLoop_within {is : List Nat} (cap : Capacity n) (table : ∀ i ∈ is, itable + i < dataB) :
    Within (Transfer.Inside n) (bzeroLoop is) dev := by
  induction is generalizing dev with
  | nil => exact within_pure
  | cons i is ih =>
    refine Program.within_bind.mpr ⟨bzero_within cap (table i List.mem_cons_self), fun dev₁ _ _ => ?_⟩
    exact ih fun j mem => table j (List.mem_cons_of_mem i mem)

/-- Nothing is marked but what the root takes. -/
theorem ext2Init_keeps {gid : Nat} (cap : Capacity n) :
    Leaves (Transfer.Inside n) (ext2Init gid name) dev fun dev' _ => MarkedOnDisk n dev' := by
  obtain ⟨clear, hclear⟩ : ∃ clear, clear = (List.range itableNum).foldl (fun dev i => Ext2.bzero dev (itable + i))
    (Ext2.bzero (Ext2.bzero dev imap) dmap) := ⟨_, rfl⟩
  have unmarked {blk : Nat} (map : blk = imap ∨ blk = dmap) : ∀ i < mapBits, Ext2.readMap clear blk i = false :=
    fun i small => by rw [hclear, cleared map small]
  have marks : MarkedOnDisk n clear := by
    intro b small marked
    rw [unmarked (.inr rfl) b small] at marked
    cases marked
  have free : FreeOnDisk n 1 clear := by
    rw [FreeOnDisk, freeBits_clear (unmarked (.inr rfl)), List.take_range]
    intro b mem
    obtain rfl : b = 0 := by
      have := List.mem_range.mp mem
      omega
    exact cap.table
  have lowest (t : Nat) (found : Ext2.freeMap clear imap = some t) : t < 80 := by
    rw [freeMap_eq, freeBits_clear (unmarked (.inl rfl)), List.head?_range, if_neg (by decide)] at found
    rw [← Option.some.inj found]
    decide
  have start : Leaves (Transfer.Inside n) (createFile gid name true anyAccess DR) clear fun dev' _ =>
      MarkedOnDisk n dev' := by
    simp only [createFile, if_true]
    apply (inodeCreate_keeps cap marks free).bind
    intro dev₀ made created h
    obtain ⟨marks₀, free₀⟩ := h
    obtain ⟨inode, gid₀⟩ := made
    rw [result_inodeCreate] at created
    obtain ⟨candidate, -, sized, -, size, -⟩ := inodeCreate_candidate (.inr rfl) lowest created
    apply (self_keeps cap sized candidate.marked size marks₀ free₀).bind
    intro dev₁ inode₁ _ h
    obtain ⟨⟨marks₁, free₁⟩, sized₁, marked₁, size₁, index₁⟩ := h
    apply (up_keeps cap sized₁ marked₁ size₁ marks₁ free₁).bind
    intro dev₂ inode₂ _ h
    obtain ⟨⟨marks₂, free₂⟩, index₂⟩ := h
    have low : inode₂.index < 80 := by
      rw [index₂, index₁]
      exact candidate.low
    exact (writeInode_keeps cap low marks₂ free₂).bind fun dev₃ _ _ kept => .pure kept.1
  have zeros : ∀ i ∈ List.range itableNum, itable + i < dataB := by decide
  have maps {x : Nat} {dev : Device} (table : x < dataB) : Leaves (Transfer.Inside n) (bzero x) dev fun dev' _ =>
      dev' = Ext2.bzero dev x :=
    ⟨bzero_within cap table, fun dev' _ done => by
      rw [result_bzero] at done
      exact (Prod.mk.inj (Except.ok.inj done)).1.symm⟩
  refine (maps (by decide)).bind fun dev₁ _ _ first => (maps (by decide)).bind fun dev₂ _ _ second => ?_
  have loop : Leaves (Transfer.Inside n) (bzeroLoop (List.range itableNum)) dev₂ fun dev' _ => dev' = clear := by
    refine ⟨bzeroLoop_within cap zeros, fun dev' _ done => ?_⟩
    rw [result_bzeroLoop, second, first, ← hclear] at done
    exact (Prod.mk.inj (Except.ok.inj done)).1.symm
  apply loop.bind
  intro dev₃ _ _ same
  rw [same]
  exact start.bind fun dev₄ _ _ marks₄ => .pure marks₄

end OsLabs.Ext2.Rd

import OsLabs.Ext2.View

/-!
# What an operation changes in the store

A new entry adds a name, a removal takes one away and the item with its last one, and
a write that stays in one block replaces bytes of one file.
-/

namespace OsLabs.Ext2
open Util Function

variable {dev dev' : Device} {parent parent' : Nat → Nat} {entries entries' : Nat → List Record} {k d t n offset : Nat}
  {inode : Inode} {r : Record} {before after : List Record} {c name : List Byte} {dir cs : List (List Byte)}
  {buf : List Byte} {I B : Set Nat}

/-! ### Files that are left alone -/

theorem SameFile.of_outside (same : readInode dev' k = readInode dev k) (outside : Outside dev dev' I B)
    (apart : ∀ b ∈ (readInode dev k).links, b ∉ B) : SameFile dev dev' k :=
  ⟨⟨_, same⟩, fun b mem => outside.bytes b (apart b mem)⟩

theorem SameFile.filled (same : SameFile dev dev' k) (filled : (readInode dev k).len = blocks (readInode dev k).size) :
    (readInode dev' k).len = blocks (readInode dev' k).size := by
  obtain ⟨⟨n, same⟩, -⟩ := same
  rw [same]
  exact filled

theorem Whole.contents_same (W : Whole dev parent entries) (used : Used dev k) (same : SameFile dev dev' k) :
    contents dev' (readInode dev' k) = contents dev (readInode dev k) := by
  obtain ⟨⟨n, same⟩, bytes⟩ := same
  have linkNum : contents dev' ((readInode dev k).setLinkNum n) = contents dev' (readInode dev k) := rfl
  rw [same, linkNum]
  exact contents_congr (W.node k used).len (W.covered used) bytes

/-- The store that a device holds. -/
theorem Whole.view_eq (W : Whole dev parent entries) {s : Store Nat (List Byte)}
    (unused : ∀ k, ¬Used dev k → s k = none)
    (folder : ∀ k, IsFolder dev k → s k = some (.folder (nameIn (folderRecords k (parent k) (entries k)))))
    (file : ∀ k, Used dev k → (readInode dev k).type ≠ DR → s k = some (.file (contents dev (readInode dev k)))) :
    view dev = s := by
  funext k
  by_cases used : Used dev k
  · by_cases directory : (readInode dev k).type = DR
    · rw [W.view_folder ⟨used, directory⟩, folder k ⟨used, directory⟩]
    · rw [view_file used directory, file k used directory]
  · rw [view_unused used, unused k used]

/-! ### A new entry -/

namespace Added

variable (W : Whole dev parent entries) (h : Added dev dev' parent entries d r B)
include W h

theorem sameFile (used : Used dev k) (d_ne : k ≠ d) (r_ne : k ≠ r.inode) : SameFile dev dev' k := by
  obtain ⟨same, apart⟩ := h.same W.toTree used d_ne r_ne
  exact .of_outside same h.outside apart

theorem whole (unused : nameIn (folderRecords d (parent d) (entries d)) r.name = none)
    (filled : (readInode dev' r.inode).len = blocks (readInode dev' r.inode).size) :
    Whole dev' (update parent r.inode d) (update entries d (entries d ++ [r])) where
  toTree := h.tree W.toTree
  distinct e := by
    by_cases here : e = d
    · subst here
      rw [update_self]
      exact ((W.distinct e).append (nameIn_none unused)).folder
    · rw [update_of_ne here]
      exact (W.distinct e).folder
  filled j used := by
    by_cases here : j = d
    · subst here
      exact h.folder.filled
    by_cases new : j = r.inode
    · rw [new]
      exact filled
    · have old := ((h.used j).mp used).resolve_right new
      exact (h.sameFile W old here new).filled (W.filled j old)

/-- The store has one more name, and perhaps one more item. -/
theorem view_eq (unused : nameIn (folderRecords d (parent d) (entries d)) r.name = none)
    (filled : (readInode dev' r.inode).len = blocks (readInode dev' r.inode).size) :
    view dev' = update ((view dev).rename d r.name (some r.inode)) r.inode (view dev' r.inode) := by
  have W' := h.whole W unused filled
  rw [Store.rename_folder (W.view_folder h.here)]
  refine W'.view_eq (fun j none => ?_) (fun j folder => ?_) fun j used other => ?_
  · have new : j ≠ r.inode := fun same => none ((h.used j).mpr (.inr same))
    have old : ¬Used dev j := fun used => none ((h.used j).mpr (.inl used))
    have here : j ≠ d := by
      rintro rfl
      exact old h.here.1
    rw [update_of_ne new, update_of_ne here, view_unused old]
  · by_cases new : j = r.inode
    · subst new
      rw [update_self, W'.view_folder folder]
    rw [update_of_ne new, update_of_ne new]
    by_cases here : j = d
    · subst here
      rw [update_self, update_self]
      have append : folderRecords j (parent j) (entries j ++ [r]) = folderRecords j (parent j) (entries j) ++ [r] := rfl
      rw [append, nameIn_append h.live (nameIn_none unused)]
    · rw [update_of_ne here, update_of_ne here, W.view_folder (h.of_isFolder W.toTree folder new)]
  · by_cases new : j = r.inode
    · subst new
      rw [update_self, view_file used other]
    have old := ((h.used j).mp used).resolve_right new
    have here : j ≠ d := by
      rintro rfl
      exact other (h.isFolder W.toTree h.here).1.2
    have kept := (h.kept W.toTree old new).1
    rw [update_of_ne new, update_of_ne here, view_file old (kept ▸ other),
      W.contents_same old (h.sameFile W old here new)]

end Added

/-! ### A removed entry -/

namespace Removed

variable (W : Whole dev parent entries) (h : Removed dev dev' parent entries d before r after B)
include W h

theorem sameFile (used : Used dev k) (d_ne : k ≠ d) (r_ne : k ≠ r.inode) : SameFile dev dev' k := by
  obtain ⟨same, apart⟩ := h.same W.toTree used d_ne r_ne
  exact .of_outside same h.outside apart

theorem whole (same : Used dev' r.inode → SameFile dev dev' r.inode) :
    Whole dev' parent (remaining entries d before r after) where
  toTree := h.tree W.toTree
  distinct e := (W.distinct e).sublist (((remaining_sublist h.split e).cons_cons _).cons_cons _)
  filled j used := by
    have old := h.used_of used
    by_cases here : j = d
    · subst here
      exact h.folder.filled
    by_cases target : j = r.inode
    · subst target
      exact (same used).filled (W.filled _ old)
    · exact (h.sameFile W old here target).filled (W.filled j old)

/-- The store has one name less, and perhaps one item less. -/
theorem view_eq (same : Used dev' r.inode → SameFile dev dev' r.inode) :
    view dev' = update ((view dev).rename d r.name none) r.inode (view dev' r.inode) := by
  have W' := h.whole W same
  have distinct := W.distinct d
  have split : folderRecords d (parent d) (entries d) = folderRecords d (parent d) before ++ r :: after := by
    rw [h.split]
    rfl
  rw [Store.rename_folder (W.view_folder h.here)]
  refine W'.view_eq (fun j none => ?_) (fun j folder => ?_) fun j used other => ?_
  · by_cases target : j = r.inode
    · rw [target, update_self, view_unused (target ▸ none)]
    have old : ¬Used dev j := fun used => none (h.of_used used target)
    have here : j ≠ d := by
      rintro rfl
      exact old h.here.1
    rw [update_of_ne target, update_of_ne here, view_unused old]
  · obtain ⟨old, target⟩ := h.of_isFolder W.toTree folder
    rw [update_of_ne target, remaining, update_of_ne target]
    by_cases here : j = d
    · subst here
      rw [split] at distinct ⊢
      rw [update_self, update_self, ← nameIn_gone distinct h.live]
      rfl
    · rw [update_of_ne here, update_of_ne here, W.view_folder old]
  · by_cases target : j = r.inode
    · subst target
      rw [update_self, view_file used other]
    have old := h.used_of used
    have here : j ≠ d := by
      rintro rfl
      exact other (h.isFolder W.toTree h.here target).2
    have kept := (h.kept W.toTree old target).1
    rw [update_of_ne target, update_of_ne here, view_file old (kept ▸ other),
      W.contents_same old (h.sameFile W old here target)]

end Removed

/-! ### A write -/

/-- A write that starts inside the file and stays in one block. -/
structure Fits (inode : Inode) (offset n : Nat) : Prop where
  start : offset ≤ inode.size
  chunk : offset % blockBytes + n ≤ blockBytes
  room : offset + n ≤ linkSlots * blockBytes

theorem Fits.contained (h : Fits inode offset n) (covered : inode.size ≤ inode.len * blockBytes)
    (low : inode.index < 80)
    (room : Room dev inode offset n) : Contained dev inode offset n where
  room := room
  table _ := .inl low
  existing _ := .inr (.inl (by have := h.chunk; omega))
  stale _ late := by
    have := h.start
    simp only [blockBytes] at *
    omega
  fresh _ _ := .inl (by have := h.chunk; omega)

theorem contents_written (h : Request dev inode offset buf.length) (one : OneBlock dev inode offset buf.length) :
    contents ((marks dev (newBlocks dev inode offset buf.length)).writes (stored dev inode buf offset))
      (written dev inode offset buf.length) = pwrite (contents dev inode) offset buf := by
  obtain ⟨dev₂, inode₂, done, read, others⟩ := readsBack_of_oneBlock h one
  rw [dataWrite_eq h.len_le h.fits.2 h.room] at done
  obtain ⟨rfl, rfl⟩ := Prod.mk.inj (Except.ok.inj done)
  have full : (written dev inode offset buf.length).len ≤ linkSlots := by
    rw [Request.written_len]
    exact h.slots
  have covered := written_covered h one.chunk
  have size := @written_size dev inode offset buf.length
  have start := h.start
  generalize written dev inode offset buf.length = inode' at *
  generalize (marks dev (newBlocks dev inode offset buf.length)).writes (stored dev inode buf offset) = dev' at *
  rw [dataRead_contents full covered (by omega)] at read
  apply List.ext_getElem?
  intro p
  rw [getElem?_pwrite (by rw [length_contents]; exact start)]
  split
  · rename_i here
    have byte := congrArg (·[p - offset]?) (Except.ok.inj read)
    simp only [List.getElem?_take_of_lt (show p - offset < buf.length by omega), List.getElem?_drop,
      Nat.add_sub_cancel' here.1] at byte
    exact byte
  · rename_i out
    by_cases inside : p < inode.size
    · have byte := others p inside (by omega)
      rw [dataRead_contents full covered (by omega), dataRead_contents h.len_le h.covered (by omega)] at byte
      have first := congrArg (·[0]?) (Except.ok.inj byte)
      simpa only [List.getElem?_take_of_lt Nat.one_pos, List.getElem?_drop, Nat.add_zero] using first
    · rw [List.getElem?_eq_none (by rw [length_contents]; omega),
        List.getElem?_eq_none (by rw [length_contents]; omega)]

theorem Fits.request (h : Fits inode offset n) (filled : inode.len = blocks inode.size) (len : inode.len ≤ linkSlots)
    (distinct : inode.links.Nodup) (some : 0 < n) (room : Room dev inode offset n) : Request dev inode offset n where
  len_eq := filled
  distinct := distinct
  start := h.start
  pos := some
  fits := ⟨Nat.le_trans (covered_of_filled filled) (Nat.mul_le_mul_right blockBytes len), h.room⟩
  free := by
    have covered := covered_of_filled filled
    obtain ⟨start, chunk, -⟩ := h
    by_cases existing : offset < inode.len * blockBytes
    · simp only [blocks, blockBytes] at *
      omega
    · have enough := room.resolve_left existing
      simp only [blocks, blockBytes] at *
      omega

theorem written_filled (h : Request dev inode offset n) (chunk : offset % blockBytes + n ≤ blockBytes) :
    (written dev inode offset n).len = blocks (written dev inode offset n).size := by
  have covered := h.covered
  have filled := h.len_eq
  have start := h.start
  have pos := h.pos
  rw [Request.written_len, written_size]
  by_cases existing : offset < inode.len * blockBytes
  · rw [newBlocks, if_pos existing, List.length_nil]
    simp only [blocks, blockBytes] at *
    omega
  · rw [length_newBlocks existing h.room]
    have last := h.past existing
    simp only [blocks, blockBytes] at *
    omega

theorem readInode_written (h : Request dev inode offset buf.length) (low : inode.index < 80)
    (stored : readInode dev inode.index = inode)
    (fits : (written dev inode offset buf.length).Fits) :
    readInode ((marks dev (newBlocks dev inode offset buf.length)).writes (Ext2.stored dev inode buf offset))
      inode.index = written dev inode offset buf.length := by
  by_cases grows : inode.size < offset + buf.length
  · exact slot_stored grows fits
  · have existing : offset < inode.len * blockBytes := by
      have := h.covered
      have := h.pos
      omega
    rw [slot_kept low fun more => absurd more grows, stored, written, newBlocks, if_pos existing]
    exact (if_neg grows).symm

theorem inodeWrite_room {file : File} {ret : Nat} {file' : File} (normal : file.inode.fsInode.type = NF)
    (fits : file.offset + buf.length ≤ linkSlots * blockBytes)
    (done : inodeWrite dev file buf = .ok (dev', file', ret)) :
    Room dev file.inode.fsInode file.offset buf.length ∧ ret = buf.length := by
  constructor
  · by_contra full
    have same := @inodeWrite_eq dev buf file normal (offset_int fits)
    rw [done, dataWrite_short fits full] at same
    cases same
  · unfold inodeWrite at done
    simp only [normal, NF, DR, if_true] at done
    rw [if_neg (by decide), if_neg fun below => absurd (offset_int fits) (by omega)] at done
    obtain ⟨⟨dev₁, inode₁⟩, -, done⟩ := bind_ok done
    simp only at done
    split at done
    · exact (Prod.mk.inj (Prod.mk.inj (Except.ok.inj done)).2).2.symm
    · exact (Prod.mk.inj (Prod.mk.inj (Except.ok.inj done)).2).2.symm

/-- A write through a fresh copy of the inode changes the file as it should, and nothing else. -/
theorem Whole.write {file file' : File} {ret : Nat} (W : Whole dev parent entries) (used : Used dev k)
    (normal : (readInode dev k).type = NF) (fresh : file.inode.fsInode = readInode dev k)
    (fits : Fits (readInode dev k) file.offset buf.length) (done : inodeWrite dev file buf = .ok (dev', file', ret)) :
    ret = buf.length ∧ Whole dev' parent entries ∧ view dev' =
      update (view dev) k (some (.file (pwrite (contents dev (readInode dev k)) file.offset buf))) := by
  have node := W.node k used
  have other : (readInode dev k).type ≠ DR := by
    rw [normal]
    decide
  have kind : file.inode.fsInode.type = NF := by rw [fresh, normal]
  obtain ⟨room, rfl⟩ := inodeWrite_room kind fits.room done
  refine ⟨rfl, ?_⟩
  rw [fresh] at room
  have contained := fits.contained (W.covered used) (by rw [node.index]; exact node.low) room
  have writable : Writable dev (readInode dev k) file.offset buf.length := by
    refine ⟨⟨node.len, fits.start, fits.room⟩, contained, fun j usedJ ne => ?_, fun _ => ?_, fun _ _ => ?_,
      fun _ _ => ⟨node.distinct, node.marked⟩⟩
    · rw [node.index] at ne
      exact W.apart j k usedJ used ne
    · rw [node.index]
      exact normal
    · rw [node.index]
  have same := @inodeWrite_eq dev buf file kind (offset_int fits.room)
  rw [done, fresh] at same
  by_cases none : buf = []
  · subst none
    rw [dataWrite, List.length_nil, writeLoop_done] at same
    simp only [bind, Except.bind] at same
    rw [Nat.add_zero, if_neg (Nat.not_lt.mpr fits.start)] at same
    obtain ⟨rfl, -⟩ := Prod.mk.inj (Except.ok.inj same)
    rw [pwrite_nil (by rw [length_contents]; exact fits.start), ← view_file used other, update_eq_self]
    exact ⟨W, rfl⟩
  have request := fits.request (W.filled k used) node.len node.distinct (List.length_pos_of_ne_nil none) room
  have one : OneBlock dev (readInode dev k) file.offset buf.length := by
    refine ⟨fits.chunk, fun _ b free mem => ?_, fun _ high => ?_⟩
    · have marked := (node.marked b mem).2
      rw [(freeMap_some free).2] at marked
      cases marked
    · rw [node.index] at high
      exact absurd node.low (Nat.not_lt.mpr high)
  rw [dataWrite_eq node.len fits.room room] at same
  obtain ⟨device, -⟩ := Prod.mk.inj (Except.ok.inj same)
  have rewritten := writable.rewritten W.toTree readInode_fits normal
  have stored := readInode_written request (by rw [node.index]; exact node.low) (by rw [node.index])
    (writable.written_fits readInode_fits)
  have content := contents_written request one
  rw [node.index] at rewritten stored
  rw [← device] at rewritten stored content
  have W' : Whole dev' parent entries := by
    refine ⟨rewritten.tree W.toTree, W.distinct, fun j usedJ => ?_⟩
    by_cases here : j = k
    · subst here
      rw [stored]
      exact written_filled request fits.chunk
    · have old := (rewritten.used j).mp usedJ
      rw [(rewritten.same W.toTree old here).1]
      exact W.filled j old
  refine ⟨W', W'.view_eq (fun j unused => ?_) (fun j folder => ?_) fun j usedJ kindJ => ?_⟩
  · have here : j ≠ k := by
      rintro rfl
      exact unused ((rewritten.used j).mpr used)
    rw [update_of_ne here, view_unused fun old => unused ((rewritten.used j).mpr old)]
  · have old := (rewritten.isFolder W.toTree).mp folder
    have here : j ≠ k := by
      rintro rfl
      exact other old.2
    rw [update_of_ne here, W.view_folder old]
  · have old := (rewritten.used j).mp usedJ
    by_cases here : j = k
    · subst here
      rw [update_self, stored, content]
    · obtain ⟨same, apart⟩ := rewritten.same W.toTree old here
      rw [update_of_ne here, view_file old (same ▸ kindJ),
        W.contents_same old (.of_outside same rewritten.outside apart)]

end OsLabs.Ext2

import OsLabs.Ext2.Create
import OsLabs.Ext2.Directory
import OsLabs.Ext2.Ownership

/-!
# Removed entries

What `ext2_inode_remove` and `ext2_rm` do to the tree.
-/

namespace OsLabs.Ext2
open Util Function

variable {dev dev' dev₁ : Device} {parent : Nat → Nat} {entries : Nat → List Record} {k d p fuel t : Nat}
  {inode inode' father : Inode} {post name : List Byte} {r : Record} {bytes : List Byte}
    {es before mid rest after : List Record}

/-! ### The directory -/

/-- Neither the own record of a directory nor that of its parent is of the inode. -/
theorem folderRecords_absent (none : ∀ x ∈ before, ¬x.To r.inode) (own : k ≠ r.inode ∧ p ≠ r.inode) :
    ∀ x ∈ folderRecords k p before, ¬x.To r.inode := by
  intro x mem
  rcases List.mem_cons.mp mem with rfl | mem
  · exact fun names => own.1 names.2
  rcases List.mem_cons.mp mem with rfl | mem
  · exact fun names => own.2 names.2
  · exact none x mem

theorem Folder.dirRemove (h : Folder dev k p es) (node : Node dev k) (split : es = before ++ r :: after) (live : r.Live)
    (none : ∀ x ∈ before, ¬x.To r.inode) (own : k ≠ r.inode ∧ p ≠ r.inode) :
    ∃ dev' inode', dirRemove dev (readInode dev k) r.inode = .ok (dev', inode') ∧ SameMaps dev dev' ∧
      Outside dev dev' {k} {b | b ∈ (readInode dev k).links} ∧
      readInode dev' k = (readInode dev k).setDirLen (2 + (before ++ r.gone :: after).countP (·.Live)) ∧
      Folder dev' k p (before ++ r.gone :: after) := by
  have records : folderRecords k p es = folderRecords k p before ++ r :: after := by
    rw [split]
    rfl
  have records' : folderRecords k p (before ++ r.gone :: after) = folderRecords k p before ++ r.gone :: after := rfl
  have absent := folderRecords_absent none own
  obtain ⟨n, hn⟩ : ∃ n, n = ((readInode dev k).dirLen + (2 ^ 32 - 1)) % 2 ^ 32 := ⟨_, rfl⟩
  have count : n = 2 + (before ++ r.gone :: after).countP (·.Live) := by
    rw [hn]
    have counted : (before ++ r.gone :: after).countP (·.Live) + 1 = (before ++ r :: after).countP (·.Live) :=
      countP_gone live
    have small : (readInode dev k).dirLen < 2 ^ 32 := readInode_fits.dirLen
    have dirLen := h.dirLen
    rw [split] at dirLen
    omega
  obtain ⟨dev', done, maps, outside, read, laid⟩ :=
    h.laid.dirRemove node.distinct (by rw [node.index]; exact node.low) readInode_fits records live absent hn
  rw [node.index] at outside read
  rw [count] at done read laid
  refine ⟨dev', _, done, maps, outside, read, ?_, ?_, ?_, ?_⟩
  · rw [read, records']
    exact laid.toListed
  · rw [read]
    exact h.filled
  · rw [records']
    exact laid.headers
  · rw [read]
    rfl

/-! ### The inode that is removed -/

theorem writeMap_done {blk i : Nat} {x : Bool} (done : writeMap dev blk i x = .ok dev') :
    dev' = setMap dev blk i x := by
  unfold writeMap at done
  split at done
  · cases done
  split at done
  · cases done
  · exact (Except.ok.inj done).symm

theorem clear_outside {bs : List Nat} (small : ∀ b ∈ bs, b < mapBits)
    (done : bs.foldlM (fun dev b => writeMap dev dmap b false) dev = .ok dev') : Outside dev dev' ∅ {b | b ∈ bs} := by
  induction bs generalizing dev with
  | nil =>
    obtain rfl := Except.ok.inj done
    exact Outside.refl dev _ _
  | cons b bs ih =>
    rw [List.foldlM_cons] at done
    obtain ⟨dev₁, cleared, done⟩ := bind_ok done
    obtain rfl := writeMap_done cleared
    have first : Outside dev (setMap dev dmap b false) ∅ {b} := Outside.of_setMap_dmap (small b List.mem_cons_self)
    have rest := ih (fun c mem => small c (List.mem_cons_of_mem b mem)) done
    refine (first.mono (Set.Subset.refl _) ?_).trans
      (rest.mono (Set.Subset.refl _) fun c mem => List.mem_cons_of_mem b mem)
    exact Set.singleton_subset_iff.mpr List.mem_cons_self

theorem inodeRemove_outside (len : inode.len ≤ linkSlots) (low : inode.index < mapBits)
    (small : ∀ b ∈ inode.links, b < mapBits)
    (done : inodeRemove dev inode = .ok dev') :
    Outside dev dev' {inode.index} {b | b ∈ inode.links} ∧ readMap dev' imap inode.index = false := by
  obtain ⟨dev₁, unmarked, done⟩ := bind_ok done
  obtain rfl := writeMap_done unmarked
  have slots : ∀ j ∈ List.range inode.len, j < linkSlots := fun j mem => Nat.lt_of_lt_of_le (List.mem_range.mp mem) len
  rw [foldlM_slots slots, ← links_eq_slots len] at done
  have first : Outside dev (setMap dev imap inode.index false) {inode.index} ∅ := Outside.of_setMap_imap low
  have rest := clear_outside small done
  refine ⟨(first.mono (Set.Subset.refl _) (Set.empty_subset _)).trans
    (rest.mono (Set.empty_subset _) (Set.Subset.refl _)), ?_⟩
  rw [rest.inodes _ low (Set.notMem_empty _), readMap_setMap, if_pos rfl]

theorem clear_high {bs : List Nat} (small : ∀ b ∈ bs, b < mapBits)
    (done : bs.foldlM (fun dev b => writeMap dev dmap b false) dev = .ok dev') {y : Nat} (high : block itable ≤ y) :
    dev' y = dev y := by
  induction bs generalizing dev with
  | nil => rw [Except.ok.inj done]
  | cons b bs ih =>
    rw [List.foldlM_cons] at done
    obtain ⟨dev₁, cleared, done⟩ := bind_ok done
    obtain rfl := writeMap_done cleared
    have low := map_lt_table (show dmap < itable by decide) (small b List.mem_cons_self)
    rw [ih (fun c mem => small c (List.mem_cons_of_mem b mem)) done, setMap_other (by omega)]

theorem inodeRemove_high (len : inode.len ≤ linkSlots) (low : inode.index < mapBits)
    (small : ∀ b ∈ inode.links, b < mapBits)
    (done : inodeRemove dev inode = .ok dev') {y : Nat} (high : block itable ≤ y) : dev' y = dev y := by
  obtain ⟨dev₁, unmarked, done⟩ := bind_ok done
  obtain rfl := writeMap_done unmarked
  have slots : ∀ j ∈ List.range inode.len, j < linkSlots := fun j mem => Nat.lt_of_lt_of_le (List.mem_range.mp mem) len
  rw [foldlM_slots slots, ← links_eq_slots len] at done
  have before := map_lt_table (show imap < itable by decide) low
  rw [clear_high small done high, setMap_other (by omega)]

/-! ### Removing a file -/

/-- The directory is a directory in use, and is not removed itself unless it holds entries. -/
def Removable (dev : Device) (name : List Byte) : Prop :=
  FoundFolder dev name ∧ ∀ father post, inodeLookup dev (alldir (some name)) = .ok (some father) →
    filename (some name) = some post → dirLookup dev father post = .ok (father.index : Int) → 2 < father.dirLen

theorem named_cases {records : List Record} (found : named records post = (t : Int)) :
    ∃ x ∈ records, x.Names post ∧ x.inode = t := by
  unfold named at found
  cases first : records.find? fun r => r.Names post with
  | none =>
    rw [first] at found
    change (-1 : Int) = t at found
    omega
  | some x =>
    rw [first] at found
    exact ⟨x, List.mem_of_find?_eq_some first, by simpa using List.find?_some first, Int.ofNat.inj found⟩

theorem Tree.entry_of_name (T : Tree dev parent entries) (here : IsFolder dev d) (plain : 0 ∉ post)
    (found : dirLookup dev (readInode dev d) post = .ok (t : Int))
    (own : dirLookup dev (readInode dev d) post = .ok ((readInode dev d).index : Int) → 2 < (readInode dev d).dirLen)
    (removable : ¬((readInode dev t).type = DR ∧ 2 < (readInode dev t).dirLen)) :
    ∃ before r after, entries d = before ++ r :: after ∧ r.Live ∧ r.inode = t ∧
      (∀ x ∈ before, ¬x.To r.inode) ∧ d ≠ r.inode ∧ parent d ≠ r.inode := by
  obtain ⟨records, up, -⟩ := T.folder d here
  rw [records.listed.dirLookup plain] at found own
  obtain ⟨x, mem, names, rfl⟩ := named_cases (Except.ok.inj found)
  rw [(T.node d here.1).index] at own
  have not_own : d ≠ x.inode := by
    rintro rfl
    exact removable ⟨here.2, own found⟩
  -- the parent holds the entry of the directory
  have not_parent : parent d ≠ x.inode := by
    intro same
    have other : d ≠ 0 := by
      rintro rfl
      exact not_own (T.root.2.symm.trans same)
    obtain ⟨y, entry, alive, -⟩ := T.entry_of_folder here other
    have counted := (T.folder _ up).1.dirLen
    have pos : 0 < (entries (parent d)).countP (·.Live) := List.countP_pos_iff.mpr ⟨y, entry, decide_eq_true alive⟩
    rw [← same] at removable
    exact removable ⟨up.2, by omega⟩
  have entry : x ∈ entries d := by
    rcases List.mem_cons.mp mem with rfl | mem
    · exact absurd rfl not_own
    rcases List.mem_cons.mp mem with rfl | mem
    · exact absurd rfl not_parent
    · exact mem
  obtain ⟨before, r, after, split, own, first⟩ := exists_first entry names.1
  rw [← own.2] at not_own not_parent first
  exact ⟨before, r, after, split, own.1, own.2, first, not_own, not_parent⟩

theorem Marked.of_sameMaps (h : Marked dev inode) (same : SameMaps dev dev') : Marked dev' inode := by
  intro b mem
  obtain ⟨small, marked⟩ := h b mem
  exact ⟨small, (same.readMap (by decide) small).trans marked⟩

theorem Node.setDirLen {n : Nat} (h : Node dev k) (maps : SameMaps dev dev')
    (read : readInode dev' k = (readInode dev k).setDirLen n) : Node dev' k := by
  refine ⟨h.low, ?_, ?_, ?_, ?_, ?_⟩ <;> rw [read]
  · exact h.index
  · exact h.kind
  · exact h.len
  · exact h.distinct
  · have marked := h.marked.of_sameMaps maps
    intro b mem
    rw [Inode.setDirLen_links] at mem
    exact marked b mem

theorem Node.setLinkNum {n : Nat} (h : Node dev k) (marked : Marked dev' (readInode dev k))
    (read : readInode dev' k = (readInode dev k).setLinkNum n) : Node dev' k := by
  refine ⟨h.low, ?_, ?_, ?_, ?_, ?_⟩ <;> rw [read]
  · exact h.index
  · exact h.kind
  · exact h.len
  · exact h.distinct
  · exact marked.setLinkNum

theorem Tree.entry_ne_root (T : Tree dev parent entries) (mem : r ∈ entries d) (live : r.Live) : r.inode ≠ 0 := by
  by_cases directory : (readInode dev r.inode).type = DR
  · exact (T.home d r mem live directory).1
  · intro zero
    rw [zero] at directory
    exact directory T.root.1.2

/-- The entry is removed on the first device, and the inode loses a link or is removed on the second. -/
theorem removed_of_entry {n : Nat} (T : Tree dev parent entries)
    (split : entries d = before ++ r :: after) (live : r.Live)
    (other : d ≠ r.inode) (empty : ¬((readInode dev r.inode).type = DR ∧ 2 < (readInode dev r.inode).dirLen))
    (maps : SameMaps dev dev₁) (first : Outside dev dev₁ {d} {b | b ∈ (readInode dev d).links})
    (read : readInode dev₁ d = (readInode dev d).setDirLen n)
    (folder : Folder dev₁ d (parent d) (before ++ r.gone :: after))
    (second : Outside dev₁ dev' {r.inode} {b | b ∈ (readInode dev r.inode).links})
    (last : Used dev' r.inode ↔ (readInode dev r.inode).linkNum ≠ 1)
    (stored : Used dev' r.inode → ∃ m, readInode dev' r.inode = (readInode dev r.inode).setLinkNum m ∧
      m + 1 = (readInode dev r.inode).linkNum ∧ Marked dev' (readInode dev r.inode)) :
    Removed dev dev' parent entries d before r after
      ({b | b ∈ (readInode dev d).links} ∪ {b | b ∈ (readInode dev r.inode).links}) := by
  have mem : r ∈ entries d := by
    rw [split]
    simp
  have here := (T.low_of_entry mem).1
  have used := T.named d r mem live
  have node := T.node d here.1
  have target := T.node r.inode used
  have same : readInode dev' d = (readInode dev d).setDirLen n := by
    rw [second.slots d node.low (Set.mem_singleton_iff.not.mpr other), read]
  have away (b : Nat) (own : b ∈ (readInode dev₁ d).links) : b ∉ (readInode dev r.inode).links := by
    rw [read, Inode.setDirLen_links] at own
    exact T.apart d r.inode here.1 used other b own
  have kept : readInode dev' d = readInode dev₁ d := same.trans read.symm
  have top := T.entry_ne_root mem live
  constructor
  case split => exact split
  case live => exact live
  case here => exact here
  case other => exact ⟨other, top⟩
  case used =>
    intro j
    by_cases this : j = r.inode
    · subst this
      rw [last]
      exact ⟨fun more => ⟨used, fun _ => more⟩, fun both => both.2 rfl⟩
    · have unchanged : Used dev' j ↔ Used dev j := by
        rw [← used_of_sameMaps maps]
        apply and_congr_right
        intro small
        rw [second.inodes j small (Set.mem_singleton_iff.not.mpr this)]
      rw [unchanged]
      exact ⟨fun old => ⟨old, fun same => absurd same this⟩, And.left⟩
  case outside =>
    exact (first.mono (Set.singleton_subset_iff.mpr (Set.mem_insert d _)) Set.subset_union_left).trans
      (second.mono (Set.subset_insert _ _) Set.subset_union_right)
  case others =>
    intro j usedJ d_ne t_ne b own
    rintro (inD | inTarget)
    · exact T.apart j d usedJ here.1 d_ne b own inD
    · exact T.apart j r.inode usedJ used t_ne b own inTarget
  case node =>
    refine ⟨(node.setDirLen maps read).congr kept second away, fun still => ?_⟩
    obtain ⟨m, value, -, marked⟩ := stored still
    exact target.setLinkNum marked value
  case folder => exact folder.congr kept second away
  case links =>
    refine ⟨by rw [same, Inode.setDirLen_links], fun still => ?_⟩
    obtain ⟨m, value, -⟩ := stored still
    rw [value, Inode.setLinkNum_links]
  case target =>
    intro still
    obtain ⟨m, value, count, -⟩ := stored still
    rw [value, Inode.setLinkNum_type, Inode.setLinkNum_linkNum]
    refine ⟨target.kind.resolve_right fun directory => ?_, count⟩
    exact last.mp still ((T.folder r.inode ⟨used, directory⟩).2.2 top)
  case empty =>
    intro directory
    have counted := (T.folder r.inode directory).1.dirLen
    by_contra some
    exact empty ⟨directory.2, by omega⟩
  case parentSame =>
    rw [same, Inode.setDirLen_type, Inode.setDirLen_linkNum]
    exact ⟨rfl, rfl⟩

/-! ### The call -/

/-- The steps of an `ext2_rm` that removes an entry of inode `t`: `dev₁` is the device after `ext2_dir_remove`. -/
structure Removal (dev dev₁ dev' : Device) (name : List Byte) (father : Inode) (post : List Byte) (t : Nat) : Prop where
  lookup : inodeLookup dev (alldir (some name)) = .ok (some father)
  last : filename (some name) = some post
  named : dirLookup dev father post = .ok (t : Int)
  removable : ¬((readInode dev t).type = DR ∧ 2 < (readInode dev t).dirLen)
  cut : ∃ father', dirRemove dev father t = .ok (dev₁, father')
  ends : (readInode dev t).linkNum = 1 ∧ inodeRemove dev₁ (readInode dev t) = .ok dev' ∨
    (readInode dev t).linkNum ≠ 1 ∧ ∃ n, n = ((readInode dev t).linkNum + (2 ^ 32 - 1)) % 2 ^ 32 ∧
      dev' = writeInode dev₁ t ((readInode dev t).setLinkNum n)

/-- What an `ext2_rm` finds that removes nothing: the root, no directory, no such name, or a directory with entries. -/
def Refused (dev : Device) (name : List Byte) : Prop :=
  name = [slash] ∨ inodeLookup dev (alldir (some name)) = .ok none ∨
    ∃ father post, inodeLookup dev (alldir (some name)) = .ok (some father) ∧ filename (some name) = some post ∧
      ((∃ index < 0, dirLookup dev father post = .ok index) ∨
        ∃ t : Nat, dirLookup dev father post = .ok (t : Int) ∧ (readInode dev t).type = DR ∧
          2 < (readInode dev t).dirLen)

theorem rm_cases {ret : Int} (done : rm dev name = .ok (dev', ret)) :
    ret = -1 ∧ dev' = dev ∧ Refused dev name ∨
      ret = 0 ∧ ∃ father post t dev₁, Removal dev dev₁ dev' name father post t := by
  unfold rm at done
  split at done
  · rename_i root
    obtain ⟨rfl, rfl⟩ := Prod.mk.inj (Except.ok.inj done)
    exact .inl ⟨rfl, rfl, .inl root⟩
  obtain ⟨found, lookup, done⟩ := bind_ok done
  cases found with
  | none =>
    obtain ⟨rfl, rfl⟩ := Prod.mk.inj (Except.ok.inj done)
    exact .inl ⟨rfl, rfl, .inr (.inl lookup)⟩
  | some father =>
    cases last : filename (some name) with
    | none =>
      rw [last] at done
      cases done
    | some post =>
      rw [last] at done
      obtain ⟨index, named, done⟩ := bind_ok done
      by_cases missing : index < 0
      · rw [if_pos missing] at done
        obtain ⟨rfl, rfl⟩ := Prod.mk.inj (Except.ok.inj done)
        exact .inl ⟨rfl, rfl, .inr (.inr ⟨father, post, lookup, last, .inl ⟨index, missing, named⟩⟩)⟩
      obtain ⟨t, rfl⟩ := Int.eq_ofNat_of_zero_le (Int.not_lt.mp missing)
      rw [if_neg missing, Int.toNat_natCast] at done
      by_cases full : (readInode dev t).type = DR ∧ 2 < (readInode dev t).dirLen
      · rw [if_pos full] at done
        obtain ⟨rfl, rfl⟩ := Prod.mk.inj (Except.ok.inj done)
        exact .inl ⟨rfl, rfl, .inr (.inr ⟨father, post, lookup, last, .inr ⟨t, named, full⟩⟩)⟩
      rw [if_neg full] at done
      obtain ⟨⟨dev₁, father'⟩, cut, done⟩ := bind_ok done
      by_cases one : (readInode dev t).linkNum = 1
      · simp only [if_pos one] at done
        obtain ⟨dev₂, removed, done⟩ := bind_ok done
        obtain ⟨rfl, rfl⟩ := Prod.mk.inj (Except.ok.inj done)
        exact .inr ⟨rfl, father, post, t, dev₁, lookup, last, named, full, ⟨father', cut⟩, .inl ⟨one, removed⟩⟩
      · simp only [if_neg one] at done
        obtain ⟨rfl, rfl⟩ := Prod.mk.inj (Except.ok.inj done)
        exact .inr ⟨rfl, father, post, t, dev₁, lookup, last, named, full, ⟨father', cut⟩, .inr ⟨one, _, rfl, rfl⟩⟩

/-- What the last step leaves of the inode. -/
structure Unlinked (dev dev₁ dev' : Device) (t : Nat) : Prop where
  outside : Outside dev₁ dev' {t} {b | b ∈ (readInode dev t).links}
  used : Used dev' t ↔ (readInode dev t).linkNum ≠ 1
  stored : Used dev' t → ∃ m, readInode dev' t = (readInode dev t).setLinkNum m ∧ m + 1 = (readInode dev t).linkNum ∧
    Marked dev' (readInode dev t)

theorem Removal.unlinked {father : Inode} (h : Removal dev dev₁ dev' name father post t) (node : Node dev t)
    (used : Used dev t) (maps : SameMaps dev dev₁) (pos : 0 < (readInode dev t).linkNum) :
    Unlinked dev dev₁ dev' t := by
  have marked := node.marked.of_sameMaps maps
  rcases h.ends with ⟨one, removed⟩ | ⟨more, n, hn, rfl⟩
  · obtain ⟨outside, unmarked⟩ := inodeRemove_outside node.len (by rw [node.index]; exact used.1)
      (fun b own => (node.marked b own).1) removed
    rw [node.index] at outside unmarked
    have unused : ¬Used dev' t := by
      intro still
      rw [still.2] at unmarked
      cases unmarked
    exact ⟨outside, ⟨fun still => absurd still unused, fun more => absurd one more⟩, fun still => absurd still unused⟩
  · have outside : Outside dev₁ (writeInode dev₁ t ((readInode dev t).setLinkNum n)) {t} ∅ :=
      Outside.of_writeInode node.low
    have maps' : SameMaps dev₁ (writeInode dev₁ t ((readInode dev t).setLinkNum n)) :=
      SameMaps.of_write (block_lt_table t)
    have small : n < 2 ^ 32 := by
      rw [hn]
      exact Nat.mod_lt _ (by decide)
    have count : n + 1 = (readInode dev t).linkNum := by
      have bound : (readInode dev t).linkNum < 2 ^ 32 := readInode_fits.linkNum
      omega
    refine ⟨outside.mono (Set.Subset.refl _) (Set.empty_subset _), ⟨fun _ => more, fun _ => ?_⟩,
      fun _ => ⟨n, ?_, count, ?_⟩⟩
    · exact (used_of_sameMaps maps').mpr ((used_of_sameMaps maps).mpr used)
    · exact readInode_writeInode (readInode_fits.setLinkNum small)
    · exact marked.of_sameMaps maps'

theorem remaining_sublist (split : entries d = before ++ r :: after) (j : Nat) :
    ((remaining entries d before r after j).filter (·.Live)).Sublist ((entries j).filter (·.Live)) := by
  unfold remaining
  by_cases target : j = r.inode
  · subst target
    rw [update_self]
    exact List.nil_sublist _
  rw [update_of_ne target]
  by_cases here : j = d
  · subst here
    have gone : ¬r.gone.Live := fun live => live rfl
    rw [update_self, split, List.filter_append, List.filter_append, List.filter_cons_of_neg (by simpa using gone)]
    exact (List.Sublist.refl _).append ((List.sublist_cons_self r after).filter _)
  · rw [update_of_ne here]

/-- A call has removed the first live record `r` of an inode that the last name of the path leads to. -/
structure Cut (dev dev' : Device) (parent : Nat → Nat) (entries : Nat → List Record) (name : List Byte) (d : Nat)
    (before : List Record) (r : Record) (after : List Record) : Prop where
  lookup : inodeLookup dev (alldir (some name)) = .ok (some (readInode dev d))
  last : ∃ post, filename (some name) = some post ∧ dirLookup dev (readInode dev d) post = .ok (r.inode : Int)
  first : ∀ x ∈ before, ¬x.To r.inode
  removed : ∃ B, Removed dev dev' parent entries d before r after B
  same : Used dev' r.inode → SameFile dev dev' r.inode

theorem rm_cut {father : Inode} (T : Tree dev parent entries) (plain : 0 ∉ name) (removable : Removable dev name)
    (steps : Removal dev dev₁ dev' name father post t) :
    ∃ d before r after, Cut dev dev' parent entries name d before r after := by
  have own := removable.2 father post steps.lookup steps.last
  obtain ⟨d, here, rfl⟩ := removable.1 father steps.lookup
  obtain ⟨before, r, after, split, live, rfl, first, other, up⟩ :=
    T.entry_of_name here (filename_plain plain steps.last) steps.named own steps.removable
  obtain ⟨father', cut⟩ := steps.cut
  obtain ⟨dev₂, father₂, cut', maps, outside, read, folder⟩ :=
    (T.folder d here).1.dirRemove (T.node d here.1) split live first ⟨other, up⟩
  obtain ⟨rfl, rfl⟩ := Prod.mk.inj (Except.ok.inj (cut.symm.trans cut'))
  have mem : r ∈ entries d := by
    rw [split]
    simp
  have used := T.named d r mem live
  have node := T.node r.inode used
  have pos := total_pos (T.low_of_entry mem).2 mem live
  rw [← T.count r.inode used (T.entry_ne_root mem live)] at pos
  have ends := steps.unlinked node used maps pos
  refine ⟨d, before, r, after, steps.lookup, ⟨post, steps.last, steps.named⟩, first,
    ⟨_, removed_of_entry T split live other steps.removable maps outside read folder ends.outside
      ends.used ends.stored⟩,
    fun still => ?_⟩
  obtain ⟨m, value, -⟩ := ends.stored still
  refine ⟨⟨m, value⟩, fun b mem k low => ?_⟩
  have kept := outside.bytes b (fun inD => T.apart d r.inode here.1 used other b inD mem) k low
  rcases steps.ends with ⟨one, -⟩ | ⟨-, n, -, rfl⟩
  · exact absurd one (ends.used.mp still)
  · rw [writeInode_outside (.inr (Nat.le_trans (table_lt_data node.low b) (Nat.le_add_right _ k))), kept]

/-- One entry is marked as removed, if any. -/
theorem rm_entries {ret : Int} (T : Tree dev parent entries) (plain : 0 ∉ name) (removable : Removable dev name)
    (done : rm dev name = .ok (dev', ret)) : ∃ entries', Tree dev' parent entries' ∧ (entries' = entries ∨
      ∃ d before r after, entries d = before ++ r :: after ∧ entries' = remaining entries d before r after) := by
  rcases rm_cases done with ⟨-, rfl, -⟩ | ⟨-, father, post, t, dev₁, steps⟩
  · exact ⟨entries, T, .inl rfl⟩
  obtain ⟨d, before, r, after, cut⟩ := rm_cut T plain removable steps
  obtain ⟨B, removed⟩ := cut.removed
  exact ⟨_, removed.tree T, .inr ⟨d, before, r, after, removed.split, rfl⟩⟩

/-- No name is added: the live entries are some of those before. -/
theorem rm_tree {ret : Int} (T : Tree dev parent entries) (plain : 0 ∉ name) (removable : Removable dev name)
    (done : rm dev name = .ok (dev', ret)) : ∃ entries', Tree dev' parent entries' ∧
      ∀ k, ((entries' k).filter (·.Live)).Sublist ((entries k).filter (·.Live)) := by
  obtain ⟨entries', T', rfl | ⟨d, before, r, after, split, rfl⟩⟩ := rm_entries T plain removable done
  · exact ⟨entries', T', fun k => List.Sublist.refl _⟩
  · exact ⟨_, T', remaining_sublist split⟩

end OsLabs.Ext2

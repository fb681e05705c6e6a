import OsLabs.Ext2.Links

/-!
# Names

A name of a directory is looked up by its record, but removed by its inode, and no
entry is checked against the names that are there. What a removal does to the
other names, and when the names of every directory are distinct.
-/

namespace OsLabs.Ext2
open Util Function

def DistinctNames (records : List Record) : Prop := ((records.filter (·.Live)).map Record.name).Nodup

instance (records : List Record) : Decidable (DistinctNames records) := inferInstanceAs (Decidable (List.Nodup _))

variable {dev dev' dev₁ : Device} {parent : Nat → Nat} {entries entries' : Nat → List Record} {d k t : Nat}
  {records before after es : List Record} {r x : Record} {inode : Inode} {name post : List Byte}

/-! ### Live names -/

namespace DistinctNames

theorem eq (h : DistinctNames records) (memR : r ∈ records) (memX : x ∈ records) (liveR : r.Live) (liveX : x.Live)
    (same : r.name = x.name) : r = x := by
  have one := List.inj_on_of_nodup_map h
  exact one (List.mem_filter.mpr ⟨memR, decide_eq_true liveR⟩) (List.mem_filter.mpr ⟨memX, decide_eq_true liveX⟩) same

theorem sublist (h : DistinctNames records) {records' : List Record}
    (fewer : (records'.filter (·.Live)).Sublist (records.filter (·.Live))) : DistinctNames records' :=
  List.Nodup.sublist (fewer.map Record.name) h

theorem append (h : DistinctNames records) (absent : ∀ x ∈ records, ¬x.Names r.name) :
    DistinctNames (records ++ [r]) := by
  unfold DistinctNames
  by_cases live : r.Live
  · rw [List.filter_append, List.map_append, List.filter_singleton, decide_eq_true live, cond_true, List.map_singleton]
    apply List.Nodup.append h (List.nodup_singleton _)
    rw [List.disjoint_singleton]
    intro mem
    obtain ⟨x, own, same⟩ := List.mem_map.mp mem
    obtain ⟨old, alive⟩ := List.mem_filter.mp own
    exact absent x old ⟨of_decide_eq_true alive, same⟩
  · rw [List.filter_append, List.filter_singleton, decide_eq_false live, cond_false, List.append_nil]
    exact h

end DistinctNames

theorem named_none (absent : ∀ x ∈ records, ¬x.Names post) : named records post = -1 := by
  unfold named
  rw [List.find?_eq_none.mpr fun x mem => by simpa using absent x mem]

theorem named_gone (other : r.name ≠ post) :
    named (before ++ r.gone :: after) post = named (before ++ r :: after) post := by
  have old : ¬r.Names post := fun names => other names.2
  have new : ¬r.gone.Names post := fun names => names.1 rfl
  simp only [named, List.find?_append, List.find?_cons, decide_eq_false old, decide_eq_false new]

theorem absent_gone (h : DistinctNames (before ++ r :: after)) (live : r.Live) :
    ∀ x ∈ before ++ r.gone :: after, ¬x.Names r.name := by
  unfold DistinctNames at h
  rw [List.filter_append, List.filter_cons_of_pos (by simpa using live), List.map_append, List.map_cons] at h
  have alone := List.nodup_middle.mp h
  intro x mem names
  apply (List.nodup_cons.mp alone).1
  rw [← names.2, ← List.map_append, ← List.filter_append]
  refine List.mem_map_of_mem (List.mem_filter.mpr ⟨?_, decide_eq_true names.1⟩)
  rcases List.mem_append.mp mem with old | mem
  · exact List.mem_append_left _ old
  rcases List.mem_cons.mp mem with rfl | old
  · exact absurd rfl names.1
  · exact List.mem_append_right _ old

/-! ### Removing a name -/

/-- A directory whose records lie in one block, and whose live records name inodes under distinct names. -/
structure BlockDir (dev : Device) (d : Nat) (records : List Record) : Prop where
  node : Node dev d
  listed : Listed dev (readInode dev d) records
  block : (readInode dev d).size ≤ blockBytes
  targets : ∀ r ∈ records, r.Live → Node dev r.inode
  distinct : DistinctNames records

/-- The name is removed from directory `d`, and every other name leads where it led. -/
structure RemovesOnly (dev dev' : Device) (d : Nat) (post : List Byte) : Prop where
  gone : dirLookup dev' (readInode dev' d) post = .ok (-1)
  others : ∀ other, 0 ∉ other → other ≠ post →
    dirLookup dev' (readInode dev' d) other = dirLookup dev (readInode dev d) other

/-- The record of the name is the first live record of its inode. -/
def FirstLink (records : List Record) (post : List Byte) : Prop :=
  ∀ r ∈ records, r.Names post → records.find? (·.To r.inode) = some r

instance (records : List Record) (post : List Byte) : Decidable (FirstLink records post) :=
  inferInstanceAs (Decidable (∀ r ∈ records, _))

theorem BlockDir.laid (h : BlockDir dev d records) : Laid dev (readInode dev d) records where
  toListed := h.listed
  headers before r rest split := by
    have inside := h.listed.inside split
    have block := h.block
    simp only [blockBytes] at *
    omega

/-- The last step leaves the file of the directory as it is, even that of the inode that is removed. -/
theorem Removal.listed {father : Inode} {n : Nat} (h : Removal dev dev₁ dev' name father post t) (node : Node dev t)
    (low : d < 80) (read : readInode dev₁ d = (readInode dev d).setDirLen n)
    (records : Listed dev₁ ((readInode dev d).setDirLen n) es) : Listed dev' (readInode dev' d) es := by
  rcases h.ends with ⟨-, removed⟩ | ⟨-, m, hm, rfl⟩
  · have small : (readInode dev t).index < mapBits := by
      rw [node.index]
      exact Nat.lt_trans node.low (by decide)
    have high (y : Nat) (high : block itable ≤ y) : dev' y = dev₁ y :=
      inodeRemove_high node.len small (fun b own => (node.marked b own).1) removed high
    have same : readInode dev' d = (readInode dev d).setDirLen n := by
      rw [← read]
      exact readInode_congr fun y above _ => high y (Nat.le_trans (block_lt_table d) above)
    rw [same]
    refine ⟨records.len, records.covered, ?_, records.plain⟩
    rw [← records.content]
    exact contents_congr records.len records.covered fun b _ r _ => high _ (data_addr b r)
  · have outside : Outside dev₁ (writeInode dev₁ t ((readInode dev t).setLinkNum m)) {t} ∅ :=
      Outside.of_writeInode node.low
    have content := outside.contents_eq records.len records.covered fun b _ => Set.notMem_empty b
    by_cases here : d = t
    · subst here
      have small : m < 2 ^ 32 := by
        rw [hm]
        exact Nat.mod_lt _ (by decide)
      rw [readInode_writeInode (readInode_fits.setLinkNum small)] at *
      exact ⟨records.len, records.covered, content.trans records.content, records.plain⟩
    · rw [outside.slots d low (Set.mem_singleton_iff.not.mpr here), read]
      exact ⟨records.len, records.covered, content.trans records.content, records.plain⟩

/-- After the call the directory holds its records, but the first live one of the inode is removed. -/
theorem BlockDir.removed {father : Inode} (h : BlockDir dev d records) (found : father = readInode dev d)
    (plain : 0 ∉ post)
    (steps : Removal dev dev₁ dev' name father post t) :
    (∃ r ∈ records, r.Names post ∧ r.inode = t) ∧ ∃ before x after, records = before ++ x :: after ∧
      records.find? (·.To t) = some x ∧ Listed dev' (readInode dev' d) (before ++ x.gone :: after) := by
  subst found
  have named := steps.named
  rw [h.listed.dirLookup plain] at named
  obtain ⟨r, mem, names, target⟩ := named_cases (Except.ok.inj named)
  refine ⟨⟨r, mem, names, target⟩, ?_⟩
  have node := h.targets r mem names.1
  obtain ⟨before, x, after, split, own, first⟩ := exists_first mem names.1
  rw [target] at own first node
  obtain ⟨n, hn⟩ : ∃ n, n = ((readInode dev d).dirLen + (2 ^ 32 - 1)) % 2 ^ 32 := ⟨_, rfl⟩
  obtain ⟨dev₂, cut', -, -, read, laid⟩ := h.laid.dirRemove h.node.distinct (by rw [h.node.index]; exact h.node.low)
    readInode_fits split own.1 (by rw [own.2]; exact first) hn
  obtain ⟨father', cut⟩ := steps.cut
  rw [own.2] at cut'
  obtain ⟨rfl, -⟩ := Prod.mk.inj (Except.ok.inj (cut'.symm.trans cut))
  rw [h.node.index] at read
  refine ⟨before, x, after, split, ?_, steps.listed node h.node.low read laid.toListed⟩
  exact List.find?_eq_some_iff_append.mpr
    ⟨decide_eq_true own, before, after, split, fun y mem => by simpa using first y mem⟩

/-- A removal keeps to its name if and only if no record in front of the one it names has the same inode. -/
theorem removesOnly_iff (h : BlockDir dev d records) (plain : 0 ∉ name)
    (found : inodeLookup dev (alldir (some name)) = .ok (some (readInode dev d)))
    (last : filename (some name) = some post)
    (done : rm dev name = .ok (dev', 0)) : RemovesOnly dev dev' d post ↔ FirstLink records post := by
  have post_plain := filename_plain plain last
  rcases rm_cases done with ⟨bad, -⟩ | ⟨-, father, post', t, dev₁, steps⟩
  · cases bad
  have same := steps.lookup
  rw [found] at same
  have father_eq := (Option.some.inj (Except.ok.inj same)).symm
  have last' := steps.last
  rw [last] at last'
  obtain rfl := Option.some.inj last'
  obtain ⟨⟨r, mem, names, rfl⟩, before, x, after, rfl, first, listed⟩ := h.removed father_eq post_plain steps
  have own : x.To r.inode := by simpa using List.find?_some first
  have lookup (other : List Byte) (plain : 0 ∉ other) :
      dirLookup dev' (readInode dev' d) other = .ok (named (before ++ x.gone :: after) other) := listed.dirLookup plain
  constructor
  · intro only r' mem' names'
    obtain rfl := h.distinct.eq mem' mem names'.1 names.1 (names'.2.trans names.2.symm)
    rw [first]
    by_cases here : x.name = post
    · rw [h.distinct.eq (by simp) mem own.1 names.1 (here.trans names.2.symm)]
    · -- the name still leads to the inode
      have gone := only.gone
      have led := steps.named
      rw [lookup post post_plain, named_gone here] at gone
      rw [father_eq, h.listed.dirLookup post_plain, Except.ok.inj gone] at led
      exact absurd (Except.ok.inj led) (by omega)
  · intro one
    obtain rfl := Option.some.inj (first.symm.trans (one r mem names))
    constructor
    · rw [lookup post post_plain, named_none]
      rw [← names.2]
      exact absent_gone h.distinct names.1
    · intro other plain' ne
      rw [lookup other plain', h.listed.dirLookup plain', named_gone (by rw [names.2]; exact ne.symm)]

instance (dev : Device) (inode : Inode) : Decidable (Marked dev inode) :=
    inferInstanceAs (Decidable (∀ b ∈ inode.links, _))

instance (dev : Device) (k : Nat) : Decidable (Node dev k) :=
  decidable_of_iff (k < 80 ∧ (readInode dev k).index = k ∧ ((readInode dev k).type = NF ∨ (readInode dev k).type = DR) ∧
      (readInode dev k).len ≤ linkSlots ∧ (readInode dev k).links.Nodup ∧ Marked dev (readInode dev k))
    ⟨fun ⟨low, index, kind, len, distinct, marked⟩ => ⟨low, index, kind, len, distinct, marked⟩,
      fun h => ⟨h.low, h.index, h.kind, h.len, h.distinct, h.marked⟩⟩

instance (dev : Device) (inode : Inode) (records : List Record) : Decidable (Listed dev inode records) :=
  decidable_of_iff (inode.len ≤ linkSlots ∧ inode.size ≤ inode.len * blockBytes ∧
      contents dev inode = records.flatMap Record.bytes ∧ ∀ r ∈ records, 0 ∉ r.name ∧ r.inode < 2 ^ 31 ∧
        r.type < 2 ^ 32)
    ⟨fun ⟨len, covered, content, plain⟩ => ⟨len, covered, content, plain⟩,
      fun h => ⟨h.len, h.covered, h.content, h.plain⟩⟩

instance (dev : Device) (d : Nat) (records : List Record) : Decidable (BlockDir dev d records) :=
  decidable_of_iff (Node dev d ∧ Listed dev (readInode dev d) records ∧ (readInode dev d).size ≤ blockBytes ∧
      (∀ r ∈ records, r.Live → Node dev r.inode) ∧ DistinctNames records)
    ⟨fun ⟨node, listed, block, targets, distinct⟩ => ⟨node, listed, block, targets, distinct⟩,
      fun h => ⟨h.node, h.listed, h.block, h.targets, h.distinct⟩⟩

def linked : List Record := [⟨0, dot, DR⟩, ⟨0, dotdot, DR⟩, ⟨1, [102], NF⟩, ⟨1, [103], NF⟩]

theorem linked_run : ∃ dev, BlockDir dev 0 linked ∧ (∃ dev', rm dev [102] = .ok (dev', 0)) ∧
    ∃ dev', rm dev [103] = .ok (dev', 0) ∧ dirLookup dev' (readInode dev' 0) [103] = .ok 1 := by
  have run : (do
      let init ← ext2Init (fun _ => 0) 0 []
      let s ← Fs.call ⟨init.1, init.2, fun _ => none⟩ (.vfsOpen 0 [102] true)
      let t ← s.1.call (.vfsLink 1 [102] [103])
      let first ← rm t.1.dev [102]
      let second ← rm t.1.dev [103]
      .ok (decide (BlockDir t.1.dev 0 linked ∧ first.2 = 0 ∧ second.2 = 0 ∧
        dirLookup second.1 (readInode second.1 0) [103] = .ok 1))) = (.ok true : Except Fault Bool) := by
    decide +kernel
  obtain ⟨⟨dev, gid⟩, -, run⟩ := bind_ok run
  obtain ⟨⟨s, fd⟩, -, run⟩ := bind_ok run
  obtain ⟨⟨t, ret⟩, -, run⟩ := bind_ok run
  obtain ⟨⟨dev₁, ret₁⟩, first, run⟩ := bind_ok run
  obtain ⟨⟨dev₂, ret₂⟩, second, run⟩ := bind_ok run
  obtain ⟨dir, rfl, rfl, still⟩ := of_decide_eq_true (Except.ok.inj run)
  exact ⟨t.dev, dir, ⟨dev₁, first⟩, dev₂, second, still⟩

theorem removesOnly_iff_sample : ∃ dev dev', BlockDir dev 0 linked ∧ rm dev [102] = .ok (dev', 0) ∧
    RemovesOnly dev dev' 0 [102] := by
  obtain ⟨dev, dir, ⟨dev', removed⟩, -⟩ := linked_run
  exact ⟨dev, dev', dir, removed, (removesOnly_iff dir (by decide) rfl rfl removed).mpr (by decide)⟩

/-- The entry `f` goes when `g` is removed. -/
theorem removesOnly_counterexample : ∃ dev dev', BlockDir dev 0 linked ∧ rm dev [103] = .ok (dev', 0) ∧
    ¬RemovesOnly dev dev' 0 [103] := by
  obtain ⟨dev, dir, -, dev', removed, still⟩ := linked_run
  refine ⟨dev, dev', dir, removed, fun only => ?_⟩
  have gone := only.gone
  rw [still] at gone
  exact absurd gone (by decide)

/-! ### The records of a directory -/

/-- The records, with the names as C strings, by the scan of `ext2_dir_lookup`. -/
def recordLoop (dev : Device) (inode : Inode) : Nat → Nat → Except Fault (List Record)
  | 0, _ => .error .diverges
  | fuel + 1, offset =>
    if offset < inode.size then do
      let e := Entry.decode (← dataRead dev inode entryBytes offset)
      let name ← dataRead dev inode e.nameLen (offset + entryBytes)
      let rest ← recordLoop dev inode fuel ((offset + e.recLen) % 2 ^ 32)
      .ok (⟨e.inode, name.takeWhile (· ≠ 0), e.fileType⟩ :: rest)
    else .ok []

def dirRecords (dev : Device) (inode : Inode) : Except Fault (List Record) := recordLoop dev inode (inode.size + 1) 0

theorem takeWhile_name (plain : 0 ∉ post) : (post ++ [0]).takeWhile (· ≠ 0) = post := by
  have name (c : Byte) (mem : c ∈ post) : decide (c ≠ 0) = true := by
    rw [decide_eq_true_eq]
    rintro rfl
    exact plain mem
  rw [List.takeWhile_append_of_pos name]
  simp

theorem Listed.recordLoop {rest : List Record} {fuel : Nat} (h : Listed dev inode records)
    (split : records = before ++ rest) (enough : rest.length < fuel) :
    recordLoop dev inode fuel (before.flatMap Record.bytes).length = .ok rest := by
  induction fuel generalizing before rest with
  | zero => omega
  | succ fuel ih =>
    cases rest with
    | nil =>
      have done : ¬(before.flatMap Record.bytes).length < inode.size := by
        rw [h.size_eq, split, List.append_nil]
        omega
      rw [Ext2.recordLoop, if_neg done]
    | cons r rest =>
      have inside := h.inside split
      have plain := (h.plain r (by rw [split]; simp)).1
      rw [List.length_cons] at enough
      have later : Ext2.recordLoop dev inode fuel ((before ++ [r]).flatMap Record.bytes).length = .ok rest :=
        ih (by rw [split]; simp) (by omega)
      have name : dataRead dev inode r.entry.nameLen ((before.flatMap Record.bytes).length + entryBytes) =
          .ok (r.name ++ [0]) := h.read_name split
      rw [Ext2.recordLoop, if_pos (by omega)]
      simp only [h.read_entry split, h.decode split, name, bind, Except.bind]
      rw [h.next split, later, takeWhile_name plain]
      rfl

theorem Listed.dirRecords (h : Listed dev inode records) : dirRecords dev inode = .ok records := by
  have count := length_le_bytes records
  rw [← h.size_eq] at count
  exact @Listed.recordLoop dev records [] inode records (inode.size + 1) h rfl (by omega)

/-! ### Runs -/

structure Volume where
  dev : Device
  gid : Nat

/-- The link is that of `vfs_link`, on a file that is opened for it. -/
inductive NameCall where
  | mkdir (name : List Byte)
  | create (name : List Byte)
  | link (oldpath newpath : List Byte)
  | rm (name : List Byte)

namespace NameCall

def perform (s : Volume) : NameCall → Except Fault (Volume × Int)
  | mkdir name => do
    let (dev, gid, ret) ← createFile s.dev s.gid name false anyAccess DR
    .ok (⟨dev, gid⟩, ret)
  | create name => do
    let (dev, gid, ret) ← createFile s.dev s.gid name false anyAccess NF
    .ok (⟨dev, gid⟩, ret)
  | link oldpath newpath => do
    match ← openFile s.dev oldpath with
    | none => .ok (s, -1)
    | some file => do
      let (dev, _, ret) ← inodeLink s.dev file newpath
      .ok ({ s with dev }, ret)
  | rm name => do
    let (dev, ret) ← Ext2.rm s.dev name
    .ok ({ s with dev }, ret)

def Valid : NameCall → Prop
  | mkdir name | create name | rm name => 0 ∉ name
  | link oldpath newpath => 0 ∉ oldpath ∧ 0 ∉ newpath

instance : (call : NameCall) → Decidable call.Valid
  | mkdir _ | create _ | rm _ => inferInstanceAs (Decidable (0 ∉ _))
  | link _ _ => inferInstanceAs (Decidable (_ ∧ _))

end NameCall

/-- The last name of the path is that of an entry of the directory in front of it. -/
def Taken (dev : Device) (name : List Byte) : Prop :=
  ∃ father post, inodeLookup dev (alldir (some name)) = .ok (some father) ∧ filename (some name) = some post ∧
    ∃ t : Nat, dirLookup dev father post = .ok (t : Int)

/-- The calls that keep to the tree and make no entry of a name that is there. -/
def Unused (s : Volume) : NameCall → Prop
  | .mkdir name | .create name => Creatable s.dev name ∧ ¬Taken s.dev name
  | .link oldpath newpath => Linkable s.dev oldpath newpath ∧ ¬Taken s.dev newpath
  | .rm name => Removable s.dev name

theorem named_some (mem : x ∈ records) (names : x.Names post) : ∃ t : Nat, named records post = t := by
  unfold named
  cases found : records.find? fun r => r.Names post with
  | none => exact absurd (decide_eq_true names) (List.find?_eq_none.mp found x mem)
  | some y => exact ⟨y.inode, rfl⟩

/-- The first two names of a directory are the same in every directory. -/
theorem DistinctNames.folder {k p k' p' : Nat} (h : DistinctNames (folderRecords k p es)) :
    DistinctNames (folderRecords k' p' es) := h

/-- A file system with its tree, where no directory has a name twice. -/
def Separate (s : Volume) : Prop :=
  ∃ parent entries, Tree s.dev parent entries ∧ ∀ d, DistinctNames (folderRecords d (parent d) (entries d))

section

variable {s s' : Volume} {call : NameCall} {gid : Nat} {ret : Int} {P : Volume → NameCall → Prop}

theorem Entered.separate {parent' : Nat → Nat} (T : Tree dev parent entries)
    (old : ∀ d, DistinctNames (folderRecords d (parent d) (entries d))) (plain : 0 ∉ name) (unused : ¬Taken dev name)
    (T' : Tree dev' parent' entries') (h : Entered dev name entries entries') : Separate ⟨dev', gid⟩ := by
  refine ⟨parent', entries', T', fun d => ?_⟩
  rcases h with rfl | ⟨e, r, here, lookup, last, rfl⟩
  · exact (old d).folder
  by_cases same : d = e
  · subst same
    have records := (T.folder d here).1.listed
    have absent : ∀ x ∈ folderRecords d (parent d) (entries d), ¬x.Names r.name := by
      intro x mem names
      obtain ⟨t, found⟩ := named_some mem names
      refine unused ⟨_, r.name, lookup, last, t, ?_⟩
      rw [records.dirLookup (filename_plain plain last), found]
    rw [update_self]
    exact ((old d).append absent).folder
  · rw [update_of_ne same]
    exact (old d).folder

namespace Separate

theorem createFile {type : Nat} (h : Separate s) (sort : type = NF ∨ type = DR) (plain : 0 ∉ name)
    (sane : Creatable s.dev name)
    (unused : ¬Taken s.dev name) (done : createFile s.dev s.gid name false anyAccess type = .ok (dev', gid, ret)) :
    Separate ⟨dev', gid⟩ := by
  obtain ⟨parent, entries, T, distinct⟩ := h
  obtain ⟨parent', entries', T', entered⟩ := createFile_tree T sort plain sane.folder sane.room sane.slot done
  exact entered.separate T distinct plain unused T'

theorem link {oldpath newpath : List Byte} (h : Separate s) (plain : 0 ∉ newpath)
    (sane : Linkable s.dev oldpath newpath)
    (unused : ¬Taken s.dev newpath) (done : (NameCall.link oldpath newpath).perform s = .ok (s', ret)) :
    Separate s' := by
  obtain ⟨found, opened, done⟩ := bind_ok done
  cases found with
  | none =>
    obtain ⟨rfl, -⟩ := Prod.mk.inj (Except.ok.inj done)
    exact h
  | some file =>
    obtain ⟨⟨dev', file', ret'⟩, linked, done⟩ := bind_ok done
    obtain ⟨rfl, -⟩ := Prod.mk.inj (Except.ok.inj done)
    obtain ⟨cur, looked, opened⟩ := bind_ok opened
    cases cur with
    | none => cases opened
    | some cur =>
      obtain rfl := Option.some.inj (Except.ok.inj opened)
      obtain ⟨inode, found, rfl, -⟩ := lookup_read looked
      obtain ⟨k, used, rfl, normal⟩ := sane.file inode found
      obtain ⟨parent, entries, T, distinct⟩ := h
      obtain ⟨parent', entries', T', entered⟩ := inodeLink_tree T plain sane.folder sane.room used rfl normal linked
      exact entered.separate T distinct plain unused T'

theorem rm (h : Separate s) (plain : 0 ∉ name) (sane : Removable s.dev name)
    (done : Ext2.rm s.dev name = .ok (dev', ret)) : Separate ⟨dev', s.gid⟩ := by
  obtain ⟨parent, entries, T, distinct⟩ := h
  obtain ⟨entries', T', fewer⟩ := rm_tree T plain sane done
  exact ⟨parent, entries', T', fun d => (distinct d).sublist (((fewer d).cons_cons _).cons_cons _)⟩

theorem step (h : Separate s) (valid : call.Valid) (sane : Unused s call) (done : call.perform s = .ok (s', ret)) :
    Separate s' := by
  cases call with
  | mkdir name =>
    obtain ⟨⟨dev, gid, made⟩, created, done⟩ := bind_ok done
    obtain ⟨rfl, -⟩ := Prod.mk.inj (Except.ok.inj done)
    exact h.createFile (.inr rfl) valid sane.1 sane.2 created
  | create name =>
    obtain ⟨⟨dev, gid, made⟩, created, done⟩ := bind_ok done
    obtain ⟨rfl, -⟩ := Prod.mk.inj (Except.ok.inj done)
    exact h.createFile (.inl rfl) valid sane.1 sane.2 created
  | link oldpath newpath => exact h.link valid.2 sane.1 sane.2 done
  | rm name =>
    obtain ⟨⟨dev, made⟩, removed, done⟩ := bind_ok done
    obtain ⟨rfl, -⟩ := Prod.mk.inj (Except.ok.inj done)
    exact h.rm valid sane removed

end Separate

/-- The root when the directory `a` is made twice. -/
def twice : List Record := [⟨0, dot, DR⟩, ⟨0, dotdot, DR⟩, ⟨1, [97], DR⟩, ⟨2, [97], DR⟩]

end

end OsLabs.Ext2

import OsLabs.Ext2.Tree

/-!
# New entries

What `ext2_create_file` and `ext2_inode_link` do to the tree: an inode that is new, or
has one more link, gets an entry in a directory.
-/

namespace OsLabs.Ext2
open Util Function

/-- An inode in memory that is to get an entry: a new one, or one in use. -/
structure Candidate (dev dev' : Device) (inode : Inode) : Prop where
  used : ∀ j, Used dev' j ↔ Used dev j ∨ j = inode.index
  outside : Outside dev dev' {inode.index} {b | b ∈ inode.links}
  apart : ∀ j, Used dev j → j ≠ inode.index → ∀ b ∈ (readInode dev j).links, b ∉ inode.links
  low : inode.index < 80
  kind : inode.type = NF ∨ inode.type = DR
  len : inode.len ≤ linkSlots
  distinct : inode.links.Nodup
  marked : Marked dev' inode
  fits : inode.Fits

variable {dev dev' dev₀ dev₁ dev₂ : Device} {parent : Nat → Nat} {entries : Nat → List Record}
  {k d p type per gid gid' : Nat}
  {inode inode' inode₁ inode₂ father : Inode} {post name : List Byte} {r : Record} {bytes : List Byte} {I B : Set Nat}

/-! ### The inode -/

theorem used_of_sameMaps (same : SameMaps dev dev') : Used dev' k ↔ Used dev k := by
  apply and_congr_right
  intro small
  rw [same.readMap (by decide) small]

theorem used_writeInode {j : Nat} : Used (writeInode dev k inode) j ↔ Used dev j :=
  used_of_sameMaps (SameMaps.of_write (block_lt_table k))

theorem Inode.Fits.blank {t : Nat} (type per : Nat) (low : t < 256 ^ 4) (id : gid < 2 ^ 32) :
    Inode.Fits ⟨t, type % 256, per % 256, 0, 0, gid, 0, 1, Vector.replicate linkSlots 0⟩ where
  index := low
  type := Nat.lt_trans (Nat.mod_lt type (by decide)) (by decide)
  permission := Nat.lt_trans (Nat.mod_lt per (by decide)) (by decide)
  size := Nat.pow_pos (by decide)
  len := Nat.pow_pos (by decide)
  id := id
  dirLen := Nat.pow_pos (by decide)
  linkNum := Nat.one_lt_pow (by decide) (by decide)
  link := by
    intro b mem
    rw [Vector.toList_replicate] at mem
    rw [List.eq_of_mem_replicate mem]
    exact Nat.pow_pos (by decide)

theorem inodeCreate_candidate (small : type = NF ∨ type = DR) (low : ∀ t, freeMap dev imap = some t → t < 80)
    (done : inodeCreate dev gid type per = .ok (dev', inode, gid')) : Candidate dev dev' inode ∧ ¬Used dev inode.index ∧
      Sized inode ∧ inode.type = type ∧ inode.size = 0 ∧ inode.dirLen = 0 ∧ inode.linkNum = 1 := by
  obtain ⟨t, free, rfl, rfl, gid⟩ := inodeCreate_cases done
  obtain ⟨inside, unmarked⟩ := freeMap_some free
  have bit : t < mapBits := by
    simp only [mapBits, blockBytes] at *
    omega
  have byte : type % 256 = type := by rcases small with rfl | rfl <;> rfl
  have fits := Inode.Fits.blank type per (Nat.lt_trans (low t free) (by decide)) gid
  have unused : ¬Used dev t := by
    intro used
    have marked := used.2
    rw [unmarked] at marked
    cases marked
  refine ⟨?_, unused, ⟨low t free, Nat.zero_le _, ?_, List.nodup_nil, fits⟩, byte, rfl, rfl, rfl⟩
  · constructor
    case used =>
      intro j
      simp only [Used, readMap_setMap]
      by_cases here : j = t <;> simp [here, bit]
    case outside => exact (Outside.of_setMap_imap bit).mono (Set.Subset.refl _) (Set.empty_subset _)
    case apart =>
      intro _ _ _ _ _ none
      cases none
    case low => exact low t free
    case kind =>
      show type % 256 = NF ∨ type % 256 = DR
      rw [byte]
      exact small
    case len => exact Nat.zero_le _
    case distinct => exact List.nodup_nil
    case marked =>
      intro _ none
      cases none
    case fits => exact fits
  · show 0 = blocks 0
    decide

theorem Candidate.still_marked (h : Candidate dev dev' inode) (marks : ∀ j, Used dev j → Marked dev (readInode dev j))
    (used : Used dev k) (other : k ≠ inode.index) : Marked dev' (readInode dev k) :=
  (marks k used).congr h.outside (h.apart k used other)

theorem Candidate.node (h : Candidate dev dev' inode) (frame : Outside dev' dev₁ I B) (apart : ∀ b ∈ inode.links, b ∉ B)
    (stored : readInode dev₁ inode.index = inode) : Node dev₁ inode.index := by
  refine ⟨h.low, ?_, ?_, ?_, ?_, ?_⟩ <;> rw [stored]
  · exact h.kind
  · exact h.len
  · exact h.distinct
  · exact h.marked.congr frame apart

theorem Candidate.append (h : Candidate dev dev' inode) (marks : ∀ j, Used dev j → Marked dev (readInode dev j))
    (done : Appended dev' inode.count bytes dev₁ inode') : Candidate dev dev₁ inode' := by
  have index : inode'.index = inode.index := done.index
  constructor
  case used =>
    intro j
    rw [index, ← h.used j]
    apply and_congr_right
    intro small
    rw [done.inodes j small]
  case outside =>
    rw [index]
    exact (h.outside.mono (Set.Subset.refl _) fun b mem => done.mem mem).trans done.outside
  case apart =>
    intro j used other b mem own
    rw [index] at other
    exact done.apart (h.still_marked marks used other b mem).2 (h.apart j used other b mem) own
  case low =>
    rw [index]
    exact h.low
  case kind =>
    rw [done.type]
    exact h.kind
  case len => exact done.sized.len
  case distinct => exact done.sized.distinct
  case marked => exact done.marked
  case fits => exact done.sized.fits

/-! ### A new directory -/

theorem folderRecords_headers {before rest : List Record} (split : folderRecords k d [] = before ++ r :: rest) :
    (before.flatMap Record.bytes).length % blockBytes + entryBytes ≤ blockBytes := by
  rcases before with _ | ⟨first, before⟩
  · decide
  obtain ⟨rfl, split⟩ := List.cons.inj split
  rcases before with _ | ⟨second, before⟩
  · rw [List.flatMap_singleton, Record.length_bytes]
    show (entryBytes + (dot.length + 1)) % blockBytes + entryBytes ≤ blockBytes
    decide
  · have none := (List.cons.inj split).2
    simp at none

/-- The two entries that every directory has. -/
theorem newFolder (h : Candidate dev dev' inode) (marks : ∀ j, Used dev j → Marked dev (readInode dev j))
    (sized : Sized inode) (size : inode.size = 0) (dirLen : inode.dirLen = 0) (low : d < 80)
    (self : createEntry dev' inode inode.index dot DR = .ok (dev₁, inode₁)) (above : inode₁.index = inode.index → p = d)
    (up : createEntry dev₁ inode₁ p dotdot DR = .ok (dev₂, inode₂)) :
    Candidate dev dev₂ inode₂ ∧ readInode dev₂ inode.index = inode₂ ∧ Folder dev₂ inode.index d [] ∧
      inode₂.index = inode.index ∧ inode₂.type = inode.type ∧ inode₂.linkNum = inode.linkNum := by
  have room : EntryFits inode dot := by
    rw [EntryFits, size]
    decide
  have one := createEntry_appended (r := ⟨inode.index, dot, DR⟩) sized h.marked room self
  have grown : inode₁.size = 18 := by
    rw [one.size, Record.length_bytes]
    show inode.size + _ = _
    rw [size]
    rfl
  have room' : EntryFits inode₁ dotdot := by
    rw [EntryFits, grown]
    decide
  have index : inode₁.index = inode.index := one.index
  rw [above index] at up
  have two := createEntry_appended (r := ⟨d, dotdot, DR⟩) one.sized one.marked room' up
  have stored : readInode dev₂ inode.index = inode₂ := by
    rw [← two.stored, ← index]
    rfl
  have counted : inode₂.dirLen = 2 := by
    have first : inode₁.dirLen = (inode.dirLen + 1) % 2 ^ 32 := one.dirLen
    have second : inode₂.dirLen = (inode₁.dirLen + 1) % 2 ^ 32 := two.dirLen
    rw [second, first, dirLen]
    rfl
  have content : contents dev₂ inode₂ = (folderRecords inode.index d []).flatMap Record.bytes := by
    have empty : contents dev' inode.count = [] := List.eq_nil_of_length_eq_zero (length_contents.trans size)
    have first : contents dev₁ inode₁.count = contents dev₁ inode₁ := rfl
    rw [two.content, first, one.content, empty]
    rfl
  have candidate := (h.append marks one).append marks two
  refine ⟨candidate, stored, ⟨⟨?_, ?_, ?_, ?_⟩, ?_, ?_, ?_⟩, two.index.trans index, two.type.trans one.type,
    two.linkNum.trans one.linkNum⟩
  · rw [stored]
    exact two.sized.len
  · rw [stored]
    exact two.sized.covered
  · rw [stored]
    exact content
  · intro r mem
    have plain : 0 ∉ dot ∧ 0 ∉ dotdot ∧ DR < 2 ^ 32 := by decide
    rcases List.mem_cons.mp mem with rfl | mem
    · exact ⟨plain.1, Nat.lt_trans sized.low (by decide), plain.2.2⟩
    · rw [List.mem_singleton.mp mem]
      exact ⟨plain.2.1, Nat.lt_trans low (by decide), plain.2.2⟩
  · rw [stored]
    exact two.sized.filled
  · intro before r rest split
    exact folderRecords_headers split
  · rw [stored]
    exact counted

/-! ### The entry in the directory -/

/-- The candidate leaves the directory as it is. -/
theorem Candidate.folder (T : Tree dev parent entries) (h : Candidate dev dev₀ inode) (here : IsFolder dev d)
    (other : d ≠ inode.index) :
    readInode dev₀ d = readInode dev d ∧ Node dev₀ d ∧ Folder dev₀ d (parent d) (entries d) := by
  have node := T.node d here.1
  have same : readInode dev₀ d = readInode dev d := h.outside.slots d node.low (by simp [other])
  have apart := h.apart d here.1 other
  exact ⟨same, node.congr same h.outside apart, (T.folder d here).1.congr same h.outside apart⟩

theorem Candidate.entry (T : Tree dev parent entries) (h : Candidate dev dev₀ inode) (here : IsFolder dev d)
    (other : d ≠ inode.index) (fits : EntryFits (readInode dev d) post)
    (entry : createEntry dev₀ (readInode dev d) inode.index post type = .ok (dev₁, father)) :
    readInode dev₀ d = readInode dev d ∧ Node dev₀ d ∧ Folder dev₀ d (parent d) (entries d) ∧
      Appended dev₀ (readInode dev₀ d).count (Record.mk inode.index post type).bytes dev₁ father := by
  obtain ⟨same, node₀, folder₀⟩ := h.folder T here other
  refine ⟨same, node₀, folder₀, ?_⟩
  rw [← same] at fits entry
  exact createEntry_appended (r := ⟨inode.index, post, type⟩) (folder₀.sized node₀) node₀.marked fits entry

/-- The candidate gets its entry, and the two inodes are stored. -/
theorem added_of_entry (T : Tree dev parent entries) (h : Candidate dev dev₀ inode) (here : IsFolder dev d)
    (other : d ≠ inode.index ∧ inode.index ≠ 0) (plain : 0 ∉ post) (sort : type = NF ∨ type = DR)
    (fits : EntryFits (readInode dev d) post)
    (entry : createEntry dev₀ (readInode dev d) inode.index post type = .ok (dev₁, father))
    (maps : SameMaps dev₁ dev') (stores : Outside dev₁ dev' {d, inode.index} ∅)
    (stored : readInode dev' d = father ∧ readInode dev' inode.index = inode)
    (linkNum : inode.linkNum = total entries inode.index + 1)
    (kind : inode.type = NF ∧ (Used dev inode.index → (readInode dev inode.index).type = NF) ∨
      inode.type = DR ∧ ¬Used dev inode.index ∧ readInode dev₀ inode.index = inode ∧ Folder dev₀ inode.index d []) :
    Added dev dev' parent entries d ⟨inode.index, post, type⟩ ({b | b ∈ father.links} ∪ {b | b ∈ inode.links}) := by
  have marks (j : Nat) (used : Used dev j) : Marked dev (readInode dev j) := (T.node j used).marked
  have live : (⟨inode.index, post, type⟩ : Record).Live :=
    by rcases sort with rfl | rfl <;> exact fun same => nomatch same
  have word : type < 2 ^ 32 := by rcases sort with rfl | rfl <;> decide
  obtain ⟨same₀, node₀, folder₀, done⟩ := h.entry T here other.1 fits entry
  have apart := h.apart d here.1 other.1
  rw [← same₀] at fits
  have small : inode.index < 2 ^ 31 := Nat.lt_trans h.low (by decide)
  obtain ⟨stored₁, node₁, folder₁⟩ := folder₀.append node₀ live ⟨plain, small, word⟩ fits done
  have grown : Outside dev₀ dev₁ {d} {b | b ∈ father.links} := by
    have frame := done.outside
    rwa [show (readInode dev₀ d).count.index = d from node₀.index] at frame
  have fresh (b : Nat) (marked : readMap dev₀ dmap b = true) (out : b ∉ (readInode dev d).links) : b ∉ father.links :=
    done.apart marked (by rwa [← same₀] at out)
  -- the blocks of the directory and those of the inode
  have away (b : Nat) (mem : b ∈ inode.links) : b ∉ father.links :=
    fresh b (h.marked b mem).2 fun own => apart b own mem
  have frame : Outside dev₀ dev' {d, inode.index} {b | b ∈ father.links} :=
    (grown.mono (Set.singleton_subset_iff.mpr (Set.mem_insert d _)) (Set.Subset.refl _)).trans
      (stores.mono (Set.Subset.refl _) (Set.empty_subset _))
  have same : readInode dev' d = readInode dev₁ d := stored.1.trans stored₁.symm
  have nothing (links : List Nat) : ∀ b ∈ links, b ∉ (∅ : Set Nat) := fun b _ => Set.notMem_empty b
  constructor
  case live => exact live
  case here => exact here
  case other => exact other
  case used =>
    intro j
    rw [used_of_sameMaps maps, ← h.used j]
    apply and_congr_right
    intro low
    rw [done.inodes j low]
  case outside =>
    exact (h.outside.mono (Set.subset_insert _ _) Set.subset_union_right).trans
      (frame.mono (Set.Subset.refl _) Set.subset_union_left)
  case others =>
    intro j used d_ne t_ne b mem own
    have marked := h.still_marked marks used t_ne b mem
    rcases own with inFather | inInode
    · exact fresh b marked.2 (T.apart j d used here.1 d_ne b mem) inFather
    · exact h.apart j used t_ne b mem inInode
  case node => exact ⟨node₁.congr same stores (nothing _), h.node frame away stored.2⟩
  case folder => exact folder₁.congr same stores (nothing _)
  case parentLinks =>
    intro b mem
    rw [stored.1] at mem
    refine ⟨.inl mem, ?_⟩
    show b ∉ (readInode dev' inode.index).links
    rw [stored.2]
    exact fun own => away b own mem
  case links =>
    intro b mem
    rw [show readInode dev' _ = inode from stored.2] at mem
    exact .inr mem
  case linkNum =>
    rw [show readInode dev' _ = inode from stored.2]
    exact linkNum
  case kind =>
    rw [show readInode dev' _ = inode from stored.2]
    rcases kind with file | ⟨directory, unused, stored₀, empty⟩
    · exact .inl file
    · have same₂ : readInode dev' inode.index = readInode dev₀ inode.index := stored.2.trans stored₀.symm
      refine .inr ⟨directory, unused, empty.congr same₂ frame ?_⟩
      rw [stored₀]
      exact away
  case parentSame =>
    rw [stored.1, done.type, done.linkNum, ← same₀]
    exact ⟨rfl, rfl⟩

/-! ### Operations -/

/-- What a lookup of a parent found is a directory in use. -/
def FoundFolder (dev : Device) (name : List Byte) : Prop :=
  ∀ father, inodeLookup dev (alldir (some name)) = .ok (some father) → ∃ d, IsFolder dev d ∧ father = readInode dev d

def EntryRoom (dev : Device) (name : List Byte) : Prop :=
  ∀ father post, inodeLookup dev (alldir (some name)) = .ok (some father) → filename (some name) = some post →
    EntryFits father post

theorem filename_plain (plain : 0 ∉ name) (found : filename (some name) = some post) : 0 ∉ post := by
  rcases name with _ | ⟨c, cs⟩
  · cases found
  · simp only [filename] at found
    split at found
    · obtain rfl := Option.some.inj found
      exact fun mem => plain (List.mem_of_mem_drop mem)
    · obtain rfl := Option.some.inj found
      exact plain

theorem stores_two (dev : Device) {inodeA inodeB : Inode} {j : Nat} (ne : k ≠ j) (lowK : k < 80) (lowJ : j < 80)
    (fitsA : inodeA.Fits)
    (fitsB : inodeB.Fits) : SameMaps dev (writeInode (writeInode dev k inodeA) j inodeB) ∧
      Outside dev (writeInode (writeInode dev k inodeA) j inodeB) {k, j} ∅ ∧
      readInode (writeInode (writeInode dev k inodeA) j inodeB) k = inodeA ∧
      readInode (writeInode (writeInode dev k inodeA) j inodeB) j = inodeB := by
  have second : Outside (writeInode dev k inodeA) (writeInode (writeInode dev k inodeA) j inodeB) {j} ∅ :=
    Outside.of_writeInode lowJ
  refine ⟨(SameMaps.of_write (block_lt_table k)).trans (SameMaps.of_write (block_lt_table j)), ?_, ?_,
    readInode_writeInode fitsB⟩
  · exact ((Outside.of_writeInode lowK).mono (Set.singleton_subset_iff.mpr (Set.mem_insert k _))
      (Set.Subset.refl _)).trans
      (second.mono (Set.subset_insert _ _) (Set.Subset.refl _))
  · rw [second.slots k lowK (Set.mem_singleton_iff.not.mpr ne)]
    exact readInode_writeInode fitsA

/-- The new inode has its own entries, if it is to have any. -/
structure Ready (dev dev' : Device) (inode : Inode) (d type : Nat) : Prop where
  candidate : Candidate dev dev' inode
  unused : ¬Used dev inode.index
  kind : inode.type = type
  one : inode.linkNum = 1
  filled : type = NF ∨ type = DR ∧ readInode dev' inode.index = inode ∧ Folder dev' inode.index d []

theorem Ready.added (T : Tree dev parent entries) (h : Ready dev dev₁ inode d type) (here : IsFolder dev d)
    (plain : 0 ∉ post)
    (fits : EntryFits (readInode dev d) post)
    (entry : createEntry dev₁ (readInode dev d) inode.index post type = .ok (dev₂, father)) :
    Added dev (writeInode (writeInode dev₂ father.index father) inode.index inode) parent entries d
        ⟨inode.index, post, type⟩ ({b | b ∈ father.links} ∪ {b | b ∈ inode.links}) ∧
      readInode (writeInode (writeInode dev₂ father.index father) inode.index inode) inode.index = inode := by
  have node := T.node d here.1
  have other : d ≠ inode.index := by
    intro same
    rw [same] at here
    exact h.unused here.1
  have top : inode.index ≠ 0 := by
    intro same
    have unused := h.unused
    rw [same] at unused
    exact unused T.root.1.1
  have sort : type = NF ∨ type = DR := h.filled.imp_right And.left
  obtain ⟨-, node₀, -, done⟩ := h.candidate.entry T here other fits entry
  have index : father.index = d := done.index.trans node₀.index
  obtain ⟨maps, stores, stored⟩ :=
    stores_two dev₂ other node.low h.candidate.low done.sized.fits h.candidate.fits
  rw [index]
  refine ⟨added_of_entry T h.candidate here ⟨other, top⟩ plain sort fits entry maps stores stored ?_ ?_, stored.2⟩
  · rw [h.one, T.total_eq_zero h.unused]
  · rcases h.filled with file | ⟨directory, stored₀, records⟩
    · exact .inl ⟨h.kind.trans file, fun used => absurd used h.unused⟩
    · exact .inr ⟨h.kind.trans directory, h.unused, stored₀, records⟩

/-- The entries once a call has added the last name of the path to the directory in front of it, if it has. -/
def Entered (dev : Device) (name : List Byte) (entries entries' : Nat → List Record) : Prop :=
  entries' = entries ∨ ∃ d r, IsFolder dev d ∧ inodeLookup dev (alldir (some name)) = .ok (some (readInode dev d)) ∧
    filename (some name) = some r.name ∧ entries' = update entries d (entries d ++ [r])

/-- A call has made inode `t`, and added the last name of the path to the directory `d` in front of it. -/
structure Made (dev dev' : Device) (parent : Nat → Nat) (entries : Nat → List Record) (name : List Byte)
    (type d t : Nat)
    (post : List Byte) : Prop where
  folder : IsFolder dev d
  lookup : inodeLookup dev (alldir (some name)) = .ok (some (readInode dev d))
  last : filename (some name) = some post
  added : ∃ B, Added dev dev' parent entries d ⟨t, post, type⟩ B
  unused : ¬Used dev t
  kind : (readInode dev' t).type = type
  empty : type = NF → (readInode dev' t).size = 0 ∧ (readInode dev' t).len = 0

theorem createFile_made {ret : Int} (T : Tree dev parent entries) (sort : type = NF ∨ type = DR) (plain : 0 ∉ name)
    (folder : FoundFolder dev name) (room : EntryRoom dev name) (low : ∀ t, freeMap dev imap = some t → t < 80)
    (done : createFile dev gid name false per type = .ok (dev', gid', ret)) :
    inodeLookup dev (alldir (some name)) = .ok none ∧ dev' = dev ∧ ret = -1 ∨
      ret = 0 ∧ ∃ d t post, Made dev dev' parent entries name type d t post := by
  obtain ⟨found, lookup, done⟩ := bind_ok done
  cases found with
  | none =>
    obtain ⟨rfl, same⟩ := Prod.mk.inj (Except.ok.inj done)
    exact .inl ⟨lookup, rfl, (Prod.mk.inj same).2.symm⟩
  | some father =>
    cases last : filename (some name) with
    | none =>
      rw [last] at done
      cases done
    | some post =>
      rw [last] at done
      have post_plain := filename_plain plain last
      have fits := room father post lookup last
      obtain ⟨d, here, rfl⟩ := folder father lookup
      have marks (j : Nat) (used : Used dev j) : Marked dev (readInode dev j) := (T.node j used).marked
      obtain ⟨⟨dev₀, inode, gid₀⟩, made, done⟩ := bind_ok done
      obtain ⟨candidate, unused, sized, kind, size, dirLen, one⟩ := inodeCreate_candidate sort low made
      rcases sort with rfl | rfl
      · obtain ⟨⟨dev₁, inode₁⟩, same, done⟩ := bind_ok done
        obtain ⟨rfl, rfl⟩ := Prod.mk.inj (Except.ok.inj same)
        obtain ⟨⟨dev₂, father⟩, entry, done⟩ := bind_ok done
        obtain ⟨rfl, same⟩ := Prod.mk.inj (Except.ok.inj done)
        obtain ⟨added, stored⟩ := Ready.added T ⟨candidate, unused, kind, one, .inl rfl⟩ here post_plain fits entry
        refine .inr ⟨(Prod.mk.inj same).2.symm, d, _, post, here, lookup, last, ⟨_, added⟩, unused, ?_, fun _ => ?_⟩ <;>
          rw [stored]
        · exact kind
        refine ⟨size, sized.filled.trans ?_⟩
        rw [size]
        rfl
      · obtain ⟨⟨dev₁, inode₁⟩, self, done⟩ := bind_ok done
        obtain ⟨⟨dev₂, inode₂⟩, up, done⟩ := bind_ok done
        obtain ⟨⟨dev₃, father⟩, entry, done⟩ := bind_ok done
        obtain ⟨rfl, same⟩ := Prod.mk.inj (Except.ok.inj done)
        have node := T.node d here.1
        obtain ⟨candidate', stored, records, index, kind', count⟩ :=
          newFolder candidate marks sized size dirLen node.low self (fun _ => node.index) up
        rw [← index] at unused stored records
        obtain ⟨added, last_stored⟩ := Ready.added T
          ⟨candidate', unused, kind'.trans kind, count.trans one, .inr ⟨rfl, stored, records⟩⟩ here
            post_plain fits entry
        refine .inr ⟨(Prod.mk.inj same).2.symm, d, _, post, here, lookup, last, ⟨_, added⟩, unused, ?_,
          fun file => absurd file (by decide)⟩
        rw [last_stored]
        exact kind'.trans kind

theorem createFile_tree {ret : Int} (T : Tree dev parent entries) (sort : type = NF ∨ type = DR) (plain : 0 ∉ name)
    (folder : FoundFolder dev name) (room : EntryRoom dev name) (low : ∀ t, freeMap dev imap = some t → t < 80)
    (done : createFile dev gid name false per type = .ok (dev', gid', ret)) :
    ∃ parent' entries', Tree dev' parent' entries' ∧ Entered dev name entries entries' := by
  rcases createFile_made T sort plain folder room low done with ⟨-, rfl, -⟩ | ⟨-, d, t, post, made⟩
  · exact ⟨parent, entries, T, .inl rfl⟩
  · obtain ⟨B, added⟩ := made.added
    exact ⟨_, _, added.tree T, .inr ⟨d, _, made.folder, made.lookup, made.last, rfl⟩⟩

def Inode.setLinkNum (inode : Inode) (n : Nat) : Inode := { inode with linkNum := n }

namespace Inode

variable {n : Nat}

@[simp] theorem setLinkNum_index : (inode.setLinkNum n).index = inode.index := rfl

@[simp] theorem setLinkNum_type : (inode.setLinkNum n).type = inode.type := rfl

@[simp] theorem setLinkNum_len : (inode.setLinkNum n).len = inode.len := rfl

@[simp] theorem setLinkNum_links : (inode.setLinkNum n).links = inode.links := rfl

@[simp] theorem setLinkNum_linkNum : (inode.setLinkNum n).linkNum = n := rfl

theorem Fits.setLinkNum (h : inode.Fits) (small : n < 2 ^ 32) : (inode.setLinkNum n).Fits :=
  { h with linkNum := small }

end Inode

theorem Marked.setLinkNum {n : Nat} (h : Marked dev inode) : Marked dev (inode.setLinkNum n) := by
  intro b mem
  rw [Inode.setLinkNum_links] at mem
  exact h b mem

theorem Tree.candidate {n : Nat} (T : Tree dev parent entries) (used : Used dev k) (small : n < 2 ^ 32) :
    Candidate dev dev ((readInode dev k).setLinkNum n) := by
  have node := T.node k used
  have index : ((readInode dev k).setLinkNum n).index = k := by rw [Inode.setLinkNum_index, node.index]
  constructor
  case used =>
    intro j
    rw [index]
    refine ⟨.inl, ?_⟩
    rintro (old | rfl)
    · exact old
    · exact used
  case outside => exact Outside.refl dev _ _
  case apart =>
    intro j usedJ other
    rw [index] at other
    rw [Inode.setLinkNum_links]
    exact T.apart j k usedJ used other
  case low =>
    rw [index]
    exact node.low
  case kind =>
    rw [Inode.setLinkNum_type]
    exact node.kind
  case len =>
    rw [Inode.setLinkNum_len]
    exact node.len
  case distinct =>
    rw [Inode.setLinkNum_links]
    exact node.distinct
  case marked => exact node.marked.setLinkNum
  case fits => exact readInode_fits.setLinkNum small

/-- File `k` has its bytes still, and only its link count is another one. -/
def SameFile (dev dev' : Device) (k : Nat) : Prop :=
  (∃ n, readInode dev' k = (readInode dev k).setLinkNum n) ∧
    ∀ b ∈ (readInode dev k).links, ∀ r < blockBytes, dev' (data b + r) = dev (data b + r)

/-- A file in use gets one more entry, and its link count is stored with it. -/
theorem linked_added (T : Tree dev parent entries) (used : Used dev k) (normal : (readInode dev k).type = NF)
    (here : IsFolder dev d) (plain : 0 ∉ post) (fits : EntryFits (readInode dev d) post)
    (linked : inode = (readInode dev k).setLinkNum (((readInode dev k).linkNum + 1) % 2 ^ 32))
    (entry : createEntry dev (readInode dev d) inode.index post NF = .ok (dev₁, father)) :
    Added dev (writeInode dev₁ inode.index inode) parent entries d ⟨k, post, NF⟩
        ({b | b ∈ father.links} ∪ {b | b ∈ inode.links}) ∧ SameFile dev (writeInode dev₁ inode.index inode) k := by
  have index : inode.index = k := by rw [linked, Inode.setLinkNum_index, (T.node k used).index]
  have type : inode.type = NF := by rw [linked, Inode.setLinkNum_type, normal]
  have candidate : Candidate dev dev inode := linked ▸ T.candidate used (Nat.mod_lt _ (by decide))
  have directory (same : (readInode dev k).type = DR) : False := by
    rw [normal] at same
    exact absurd same (by decide)
  have other : d ≠ inode.index := by
    rw [index]
    rintro rfl
    exact directory here.2
  have top : inode.index ≠ 0 := by
    rw [index]
    rintro rfl
    exact directory T.root.1.2
  have counted : inode.linkNum = total entries inode.index + 1 := by
    have bound := T.total_le (k := k)
    rw [linked, Inode.setLinkNum_linkNum, ← linked, index, T.count k used (index ▸ top)]
    simp only [linkSlots, blockBytes] at bound
    omega
  obtain ⟨-, node, -, appended⟩ := candidate.entry T here other fits entry
  have stores : Outside dev₁ (writeInode dev₁ inode.index inode) {inode.index} ∅ := Outside.of_writeInode candidate.low
  have first : readInode (writeInode dev₁ inode.index inode) d = father := by
    rw [stores.slots d node.low (Set.mem_singleton_iff.not.mpr other), ← appended.stored]
    show _ = readInode dev₁ (readInode dev d).index
    rw [node.index]
  have stored : readInode (writeInode dev₁ inode.index inode) inode.index = inode := readInode_writeInode candidate.fits
  have added :=
    added_of_entry T candidate here ⟨other, top⟩ plain (.inl rfl) fits entry (SameMaps.of_write (block_lt_table _))
    (stores.mono (Set.subset_insert _ _) (Set.Subset.refl _)) ⟨first, stored⟩ counted
    (.inl ⟨type, fun _ => by rw [index]; exact normal⟩)
  rw [index] at added stored ⊢
  refine ⟨added, ⟨_, stored.trans linked⟩, fun b mem r low => ?_⟩
  have foreign : b ∉ father.links := by
    refine appended.apart ((T.node k used).marked b mem).2 fun own => T.apart d k here.1 used ?_ b own mem
    rw [← index]
    exact other
  rw [writeInode_outside (.inr (Nat.le_trans (table_lt_data (T.node k used).low b) (Nat.le_add_right _ r)))]
  exact appended.outside.bytes b foreign r low

theorem inodeLink_made {file file' : File} {ret : Int} (T : Tree dev parent entries) (plain : 0 ∉ name)
    (folder : FoundFolder dev name) (room : EntryRoom dev name) (used : Used dev k)
    (fresh : file.inode.fsInode = readInode dev k) (normal : (readInode dev k).type = NF)
    (done : inodeLink dev file name = .ok (dev', file', ret)) : ret = 0 ∧ SameFile dev dev' k ∧
      ∃ d post B, IsFolder dev d ∧ inodeLookup dev (alldir (some name)) = .ok (some (readInode dev d)) ∧
        filename (some name) = some post ∧ Added dev dev' parent entries d ⟨k, post, NF⟩ B := by
  obtain ⟨found, lookup, done⟩ := bind_ok done
  cases found with
  | none => cases done
  | some father =>
    cases last : filename (some name) with
    | none =>
      rw [last] at done
      cases done
    | some post =>
      rw [last, fresh] at done
      have fits := room father post lookup last
      obtain ⟨d, here, rfl⟩ := folder father lookup
      obtain ⟨⟨dev₁, father⟩, entry, done⟩ := bind_ok done
      obtain ⟨rfl, same⟩ := Prod.mk.inj (Except.ok.inj done)
      obtain ⟨added, kept⟩ := linked_added T used normal here (filename_plain plain last) fits rfl entry
      exact ⟨(Prod.mk.inj same).2.symm, kept, d, post, _, here, lookup, rfl, added⟩

theorem inodeLink_tree {file file' : File} {ret : Int} (T : Tree dev parent entries) (plain : 0 ∉ name)
    (folder : FoundFolder dev name) (room : EntryRoom dev name) (used : Used dev k)
    (fresh : file.inode.fsInode = readInode dev k) (normal : (readInode dev k).type = NF)
    (done : inodeLink dev file name = .ok (dev', file', ret)) :
    ∃ parent' entries', Tree dev' parent' entries' ∧ Entered dev name entries entries' := by
  obtain ⟨-, -, d, post, B, here, lookup, last, added⟩ := inodeLink_made T plain folder room used fresh normal done
  exact ⟨_, _, added.tree T, .inr ⟨d, _, here, lookup, last, rfl⟩⟩

end OsLabs.Ext2

import OsLabs.Data.Heap
import OsLabs.Ext2.Namespace

/-!
# Blocks of the heap

`ext2_inode_lookup`, `ext2_dir_lookup` and `ext2_create_file` with the blocks that they
take from `pmm` and give back. What they find and store is what the functions without
a heap do; the inode that a lookup starts with is never given back by it.
-/

namespace OsLabs.Ext2.Blocks
open Program Allocator

/-- A string in a block; `none` is `NULL`. -/
abbrev Str := Option (Held (List Byte))

def text (path : Str) : Option (List Byte) := path.map (·.value)

def pointers (path : Str) : List Ptr := (path.map (·.block)).toList

variable {H W : Type} (A : Allocator H)

/-! ### Operations -/

/-- The functions of `util.c` on paths: an empty one gives `NULL`, another one a block that is cleared and filled. -/
def copyOf (f : Option (List Byte) → Option (List Byte)) (extra : Nat) (path : Str) : HeapProgram H W Fault Str :=
  match path with
  | none => pure none
  | some path => do
    A.use .null path.block
    match f (some path.value) with
    | none => pure none
    | some part => do
      let ret ← A.balloc .null (path.value.length + extra)
      pure (some ⟨ret, part⟩)

def rootdir (path : Str) : HeapProgram H W Fault Str := copyOf A Util.rootdir 1 path
def filename (path : Str) : HeapProgram H W Fault Str := copyOf A Util.filename 1 path
def alldir (path : Str) : HeapProgram H W Fault Str := copyOf A Util.alldir 0 path
def postname (path : Str) : HeapProgram H W Fault Str := copyOf A Util.postname 0 path

/-- The loop of `ext2_dir_lookup`, and the `inode` of the entry that it stops at; `tmp_name` is not freed there. -/
def lookupLoop (dev : Device) (inode : Held Inode) (name : Held (List Byte)) (cur : Ptr) :
    Nat → Option (List Byte) → Nat → HeapProgram H W Fault (Option Nat)
  | 0, _, _ => stop .diverges
  | fuel + 1, content, offset => do
    A.use .null inode.block
    if offset < inode.value.size then
      if 2 ^ 31 ≤ offset then stop .bounds
      else do
        let bytes ← lift (dataRead dev inode.value entryBytes offset)
        A.use .null cur
        let content ← lift (overlay content bytes)
        let e := Entry.decode content
        let next := lookupLoop dev inode name cur fuel (some content) ((offset + e.recLen) % 2 ^ 32)
        if e.fileType = XX then next
        else if 2 ^ 31 ≤ e.nameLen then stop .bounds
        else do
          let tmpName ← A.malloc (e.nameLen + 1)
          let bytes ← lift (dataRead dev inode.value e.nameLen (offset + entryBytes))
          A.use .null tmpName
          A.use .null name.block
          let same ← lift (sameName name.value bytes)
          if same then pure (some e.inode)
          else do
            A.kfree .null tmpName
            next
    else pure none

/-- The value is read from `cur` after it was freed. -/
def dirLookup (dev : Device) (inode : Held Inode) (name : Held (List Byte)) : HeapProgram H W Fault Int := do
  let cur ← A.malloc entryBytes
  let finded ← lookupLoop A dev inode name cur (inode.value.size + 1) none 0
  A.kfree .null cur
  match finded with
  | some index => do
    A.use .null cur
    pure (asInt index)
  | none => pure (-1)

def freeStr (tmp : Str) : HeapProgram H W Fault Unit :=
  match tmp with
  | some tmp => A.kfree .null tmp.block
  | none => pure ()

/-- The loop of `ext2_inode_lookup`; where it breaks nothing is freed. -/
def pathLoop (dev : Device) : Nat → Held Inode → Str → Str → Str → HeapProgram H W Fault (Option (Held Inode))
  | 0, _, _, _, _ => stop .diverges
  | fuel + 1, inode, tmp, pre, post =>
    match pre with
    | none => pure (some inode)
    | some pre => do
      let inodeIndex ← dirLookup A dev inode pre
      if 0 ≤ inodeIndex then do
        A.use .null inode.block
        freeStr A tmp
        A.kfree .null pre.block
        let pre ← rootdir A post
        let rest ← postname A post
        pathLoop dev fuel ⟨inode.block, readInode dev inodeIndex.toNat⟩ post pre rest
      else pure none

def inodeLookup (dev : Device) (name : Option (List Byte)) : HeapProgram H W Fault (Option (Held Inode)) :=
  match name with
  | none => stop .null
  | some name => do
    let tmp ← A.malloc (name.length + 1)
    A.use .null tmp
    let path : Held (List Byte) := ⟨tmp, Util.strip name⟩
    let inode ← A.malloc inodeBytes
    A.use .null inode
    let pre ← rootdir A (some path)
    let post ← postname A (some path)
    pathLoop A dev (path.value.length + 1) ⟨inode, readInode dev 0⟩ (some path) pre post

def createEntry (dev : Device) (inode entryInode : Held Inode) (entryName : List Byte) (type : Nat) :
    HeapProgram H W Fault (Device × Held Inode) := do
  let dir ← A.balloc .null entryBytes
  A.use .null entryInode.block
  A.use .null inode.block
  let made ← lift (Ext2.createEntry dev inode.value entryInode.value.index entryName type)
  A.kfree .null dir
  pure (made.1, ⟨inode.block, made.2⟩)

def inodeCreate (dev : Device) (gid type per : Nat) : HeapProgram H W Fault (Device × Held Inode × Nat) := do
  let made ← lift (Ext2.inodeCreate dev gid type per)
  let inode ← A.balloc .null inodeBytes
  pure (made.1, ⟨inode, made.2.1⟩, made.2.2)

def createDots (dev : Device) (dir father : Held Inode) (type : Nat) : HeapProgram H W Fault (Device × Held Inode) :=
  if type = DR then do
    let (dev, dir) ← createEntry A dev dir dir dot DR
    createEntry A dev dir father dotdot DR
  else pure (dev, dir)

/-- `ext2_create_file` of a path, with `isroot` 0. -/
def createFile (dev : Device) (gid : Nat) (name : List Byte) (per type : Nat) :
    HeapProgram H W Fault (Device × Nat × Int) := do
  let tmp ← A.balloc .null (name.length + 1)
  let pre ← alldir A (some ⟨tmp, name⟩)
  let post ← filename A (some ⟨tmp, name⟩)
  let father ← inodeLookup A dev (text pre)
  match father, post with
  | none, _ => pure (dev, gid, -1)
  | some _, none => stop .null
  | some father, some post => do
    let (dev, dir, gid) ← inodeCreate A dev gid type per
    let (dev, dir) ← createDots A dev dir father type
    A.use .null post.block
    let (dev, father) ← createEntry A dev father dir post.value type
    let dev := writeInode dev father.value.index father.value
    A.kfree .null father.block
    A.use .null dir.block
    let dev := writeInode dev dir.value.index dir.value
    A.kfree .null dir.block
    pure (dev, gid, 0)

/-! ### What the operations leave -/

variable {A} {dev : Device} {inode : Held Inode} {name : Held (List Byte)} {cur : Ptr} {path tmp pre post : Str}
  {mine : List Ptr} {w : W} {s : H × W} {fuel offset extra : Nat} {content : Option (List Byte)}
  {f : Option (List Byte) → Option (List Byte)}

theorem copyOf_leaves (null : f none = none) (own : A.Owns mine w s) : Leaves Access.Frees (copyOf A f extra path) s
    fun s' ret => A.Owns (pointers ret ++ mine) w s' ∧ text ret = f (text path) := by
  cases path with
  | none => exact .pure ⟨own, null.symm⟩
  | some path =>
    apply leaves_use_bind
    intro _
    cases part : f (some path.value) with
    | none => exact .pure ⟨own, part.symm⟩
    | some part' =>
      refine (balloc_leaves own).bind fun s' ret _ ⟨own, _⟩ => ?_
      exact .pure ⟨own, part.symm⟩

/-- The entry of `cur` is found or none is; the name that was found is not owned any more. -/
theorem lookupLoop_leaves (own : A.Owns (cur :: mine) w s) :
    Leaves Access.Frees (lookupLoop A dev inode name cur fuel content offset) s fun s' finded =>
      A.Owns (cur :: mine) w s' ∧
        Ext2.lookupLoop dev inode.value name.value fuel content offset = .ok ((finded.map asInt).getD (-1)) := by
  induction fuel generalizing content offset s with
  | zero => exact .stop
  | succ fuel ih =>
    apply leaves_use_bind
    intro _
    rw [Ext2.lookupLoop]
    by_cases inside : offset < inode.value.size
    · rw [if_pos inside, if_pos inside]
      by_cases large : 2 ^ 31 ≤ offset
      · rw [if_pos large]
        exact .stop
      · rw [if_neg large, if_neg large]
        apply leaves_lift_bind
        intro bytes read
        apply leaves_use_bind
        intro _
        apply leaves_lift_bind
        intro entry taken
        simp only [read, taken, bind, Except.bind]
        by_cases gone : (Entry.decode entry).fileType = XX
        · rw [if_pos gone, if_pos gone]
          exact ih own
        · rw [if_neg gone, if_neg gone]
          by_cases long : 2 ^ 31 ≤ (Entry.decode entry).nameLen
          · rw [if_pos long]
            exact .stop
          · rw [if_neg long, if_neg long]
            apply (malloc_leaves own).bind
            intro s' tmpName _ own
            apply leaves_lift_bind
            intro found read
            apply leaves_use_bind
            intro _
            apply leaves_use_bind
            intro _
            apply leaves_lift_bind
            intro same compared
            simp only [read, compared]
            cases same with
            | true =>
              refine .pure ⟨own.drop (List.sublist_cons_self _ _), ?_⟩
              rw [if_pos rfl, Option.map_some, Option.getD_some]
            | false => exact (kfree_leaves own).bind fun s' _ _ own => ih own
    · rw [if_neg inside, if_neg inside]
      exact .pure ⟨own, rfl⟩

theorem dirLookup_leaves (own : A.Owns mine w s) : Leaves Access.Frees (dirLookup A dev inode name) s fun s' index =>
    A.Owns mine w s' ∧ Ext2.dirLookup dev inode.value name.value = .ok index := by
  apply (malloc_leaves own).bind
  intro s' cur _ own
  refine (lookupLoop_leaves own).bind fun s' finded _ ⟨own, found⟩ => ?_
  apply (kfree_leaves own).bind
  intro s' _ _ own
  cases finded with
  | none =>
    refine .pure ⟨own, ?_⟩
    rw [Ext2.dirLookup, found]
    rfl
  | some index =>
    apply leaves_use_bind
    intro _
    refine .pure ⟨own, ?_⟩
    rw [Ext2.dirLookup, found, Option.map_some, Option.getD_some]

theorem freeStr_leaves (own : A.Owns (pointers tmp ++ mine) w s) :
    Leaves Access.Frees (freeStr A tmp) s fun s' _ => A.Owns mine w s' := by
  cases tmp with
  | none => exact .pure own
  | some tmp => exact kfree_leaves own

/-- Whether a file is found or not, the inode that the loop started with is still there. -/
theorem pathLoop_leaves (own : A.Owns (pointers post ++ (pointers pre ++ (pointers tmp ++ inode.block :: mine))) w s)
    (first : text pre = Util.rootdir (text tmp)) (rest : text post = Util.postname (text tmp)) :
    Leaves Access.Frees (pathLoop A dev fuel inode tmp pre post) s fun s' found =>
      A.Owns (inode.block :: mine) w s' ∧ (∀ file ∈ found, file.block = inode.block) ∧
        Ext2.pathLoop dev fuel inode.value (text tmp) = .ok (found.map (·.value)) := by
  induction fuel generalizing inode tmp pre post s with
  | zero => exact .stop
  | succ fuel ih =>
    have left : (inode.block :: mine).Sublist
        (pointers post ++ (pointers pre ++ (pointers tmp ++ inode.block :: mine))) :=
      (List.sublist_append_right _ _).trans ((List.sublist_append_right _ _).trans (List.sublist_append_right _ _))
    rw [Ext2.pathLoop, ← first]
    cases pre with
    | none => exact .pure ⟨own.drop left, fun file mem => Option.mem_some_iff.mp mem ▸ rfl, rfl⟩
    | some pre =>
      apply (dirLookup_leaves own).bind
      intro s' index _ h
      obtain ⟨own, looked⟩ := h
      have looked' : Ext2.dirLookup dev inode.value pre.value = .ok index := looked
      simp only [text, Option.map_some, looked', bind, Except.bind]
      by_cases found : 0 ≤ index
      · rw [if_pos found, if_pos found]
        apply leaves_use_bind
        intro _
        have order : A.Owns (pointers tmp ++ pre.block :: (pointers post ++ inode.block :: mine)) w s' :=
          own.of_count fun p _ => by
            simp only [pointers, Option.map_some, Option.toList_some, List.count_append,
              List.count_cons, List.count_nil]
            omega
        apply (freeStr_leaves order).bind
        intro s' _ _ own
        apply (kfree_leaves own).bind
        intro s' _ _ own
        apply (copyOf_leaves rfl own).bind
        intro s' pre' _ h
        obtain ⟨own, first'⟩ := h
        apply (copyOf_leaves rfl own).bind
        intro s' post' _ h
        obtain ⟨own, rest'⟩ := h
        exact rest ▸ ih own first' rest'
      · rw [if_neg found, if_neg found]
        exact .pure ⟨own.drop left, fun file none => absurd none (Option.not_mem_none file), rfl⟩

/-- A block is left whatever the result is, and it is that of the inode found. -/
theorem inodeLookup_leaves {name : Option (List Byte)} (own : A.Owns mine w s) :
    Leaves Access.Frees (inodeLookup A dev name) s fun s' found => ∃ block ≠ Ptr.null, A.Owns (block :: mine) w s' ∧
      (∀ file ∈ found, file.block = block) ∧ Ext2.inodeLookup dev name = .ok (found.map (·.value)) := by
  cases name with
  | none => exact .stop
  | some name =>
    apply (malloc_leaves own).bind
    intro s' tmp _ own
    apply leaves_use_bind
    intro _
    apply (malloc_leaves own).bind
    intro s' inode _ own
    apply leaves_use_bind
    intro there
    refine (copyOf_leaves rfl own).bind fun s' pre _ ⟨own, first⟩ => ?_
    refine (copyOf_leaves rfl own).bind fun s' post _ ⟨own, rest⟩ => ?_
    refine (pathLoop_leaves (own.of_count fun p _ => ?_) first rest).mono fun s' found ⟨own, same, looked⟩ =>
      ⟨inode, there, own, same, looked⟩
    simp only [pointers, Option.map_some, Option.toList_some, List.count_append, List.count_cons, List.count_nil]
    omega

theorem createEntry_leaves {entryInode : Held Inode} {entryName : List Byte} {type : Nat} (own : A.Owns mine w s) :
    Leaves Access.Frees (createEntry A dev inode entryInode entryName type) s fun s' made =>
      A.Owns mine w s' ∧ made.2.block = inode.block ∧
        Ext2.createEntry dev inode.value entryInode.value.index entryName type = .ok (made.1, made.2.value) := by
  refine (balloc_leaves own).bind fun s' dir _ ⟨own, _⟩ => ?_
  apply leaves_use_bind
  intro _
  apply leaves_use_bind
  intro _
  apply leaves_lift_bind
  intro made created
  exact (kfree_leaves own).bind fun s' _ _ own => .pure ⟨own, rfl, created⟩

theorem inodeCreate_leaves {gid type per : Nat} (own : A.Owns mine w s) :
    Leaves Access.Frees (inodeCreate A dev gid type per) s fun s' made =>
      A.Owns (made.2.1.block :: mine) w s' ∧
        Ext2.inodeCreate dev gid type per = .ok (made.1, made.2.1.value, made.2.2) := by
  apply leaves_lift_bind
  intro made created
  exact (balloc_leaves own).bind fun s' inode _ ⟨own, _⟩ => .pure ⟨own, created⟩

theorem createDots_leaves {dir father : Held Inode} {type : Nat} (own : A.Owns mine w s) :
    Leaves Access.Frees (createDots A dev dir father type) s fun s' made => A.Owns mine w s' ∧
    made.2.block = dir.block ∧
      (if type = DR then do
        let (dev, value) ← Ext2.createEntry dev dir.value dir.value.index dot DR
        Ext2.createEntry dev value father.value.index dotdot DR
      else .ok (dev, dir.value)) = .ok (made.1, made.2.value) := by
  unfold createDots
  by_cases folder : type = DR
  · rw [if_pos folder, if_pos folder]
    refine (createEntry_leaves own).bind fun s' ⟨dev₁, dir₁⟩ _ ⟨own, same, created⟩ => ?_
    refine (createEntry_leaves own).mono fun s' ⟨dev₂, dir₂⟩ ⟨own, same', created'⟩ => ⟨own, same'.trans same, ?_⟩
    rw [created]
    exact created'
  · rw [if_neg folder, if_neg folder]
    exact .pure ⟨own, rfl, rfl⟩

/-- The blocks of both inodes are given back; those of the lookup and of the names are not. -/
theorem createFile_leaves {gid per type : Nat} {name : List Byte} (own : A.Owns mine w s) :
    Leaves Access.Frees (createFile A dev gid name per type) s fun s' made => A.Owns mine w s' ∧
      Ext2.createFile dev gid name false per type = .ok made := by
  apply (balloc_leaves own).bind
  intro s' tmp _ h
  obtain ⟨own, -⟩ := h
  apply (copyOf_leaves rfl own).bind
  intro s' pre _ h
  obtain ⟨own, first⟩ := h
  apply (copyOf_leaves rfl own).bind
  intro s' post _ h
  obtain ⟨own, last⟩ := h
  apply (inodeLookup_leaves own).bind
  intro s' father _ h
  obtain ⟨block, -, own, same, looked⟩ := h
  have left : mine.Sublist (pointers post ++ (pointers pre ++ tmp :: mine)) :=
    (List.sublist_cons_self _ _).trans ((List.sublist_append_right _ _).trans (List.sublist_append_right _ _))
  rw [first] at looked
  have looked' : Ext2.inodeLookup dev (Util.alldir (some name)) = .ok (father.map (·.value)) := looked
  have named : Util.filename (some name) = post.map (·.value) := last.symm
  rw [Ext2.createFile, if_neg Bool.false_ne_true, looked', named, ok_bind]
  cases father with
  | none => exact .pure ⟨own.drop (left.cons _), rfl⟩
  | some father =>
    obtain rfl := same father rfl
    cases post with
    | none => exact .stop
    | some post =>
      apply (inodeCreate_leaves own).bind
      intro s' r _ h
      obtain ⟨dev₁, dir, gid₁⟩ := r
      obtain ⟨own, created⟩ := h
      apply (createDots_leaves own).bind
      intro s' r _ h
      obtain ⟨dev₂, dir₂⟩ := r
      obtain ⟨own, same, dots⟩ := h
      apply leaves_use_bind
      intro _
      apply (createEntry_leaves own).bind
      intro s' r _ h
      obtain ⟨dev₃, father₃⟩ := r
      obtain ⟨own, same', entry⟩ := h
      simp only at same same' created dots entry ⊢
      rw [same, same']
      apply (kfree_leaves (own.perm (.swap ..))).bind
      intro s' _ _ own
      apply leaves_use_bind
      intro _
      refine (kfree_leaves own).bind fun s' _ _ own => .pure ⟨own.drop left, ?_⟩
      simp only [Option.map_some, created]
      rw [ok_bind]
      by_cases folder : type = DR
      · rw [if_pos folder] at dots ⊢
        obtain ⟨⟨dev₄, value⟩, first, second⟩ := bind_ok dots
        simp only [first, second, entry, bind, Except.bind]
      · rw [if_neg folder] at dots ⊢
        obtain ⟨dev_eq, value_eq⟩ := Prod.mk.inj (Except.ok.inj dots)
        simp only [dev_eq, value_eq, entry, bind, Except.bind]

end OsLabs.Ext2.Blocks

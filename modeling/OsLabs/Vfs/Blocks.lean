import OsLabs.Ext2.Blocks
import OsLabs.Pmm.Allocator
import OsLabs.Util.Number
import OsLabs.Vfs.Disks

/-!
# Blocks of an open file

`vfs_open` and `vfs_close` with the blocks that they take from `pmm` and give back. The
methods of the file systems are programs on the heap; those of ext2 leave the inode
of every lookup behind, so that no open is undone by the close.
-/

namespace OsLabs.Vfs.Blocks
open Program Allocator Util

def oCreat : CInt := 4

/-- The blocks of a `file_t` and of its `inode_t`, and what the file system knows of the inode. -/
structure Handle (I : Type) where
  file : Ptr
  inode : Ptr
  value : I

/-- The methods of file systems, where `none` is `NULL`; `open` sets the offset of the file. -/
structure HeapDriver (H W S I E : Type) where
  lookup : S → Path → HeapProgram H W E (Option (Held I))
  create : S → Option (Path → HeapProgram H W E Int)
  openOp : Handle I → CInt → HeapProgram H W E Nat
  closeOp : I → Option (Handle I → HeapProgram H W E Unit)

variable {H W W' S S' I I' E α : Type}

/-! ### Operations -/

section

variable (A : Allocator H) (sizeofFile : Nat) (D : HeapDriver H W S I E) (initialized : Bool)

def onWorld (x : HeapProgram H W E α) : HeapProgram H (State W S (Handle I)) (Stop E) α :=
  zoom (fun s => (s.1, s.2.world)) (fun t s => (t.1, { s.2 with world := t.2 })) .method x

def spinLock : HeapProgram H (State W S (Handle I)) (Stop E) Unit := do
  let locked ← inspect fun s => Vfs.spinLock s.2
  change fun s => (s.1, locked)

def refuse : HeapProgram H (State W S (Handle I)) (Stop E) Int := do
  change fun s => (s.1, spinUnlock s.2)
  pure (-1)

/-- `get_free_flides`; every call before the end of `os_init` gets slot 0. -/
def getFreeFlides (flides : Vector (Option (File (Handle I))) noFile) : Option Nat :=
  if initialized then Vfs.getFreeFlides flides else some 0

/-- The end of `vfs_open`, with the inode `cur`. -/
def install (cur : Held I) (flags : CInt) : HeapProgram H (State W S (Handle I)) (Stop E) Int := do
  let findex ← inspect fun s => (getFreeFlides initialized s.2.flides).elim (.error .assertion) .ok
  let file ← A.malloc sizeofFile
  A.use .null file
  let handle : Handle I := ⟨file, cur.block, cur.value⟩
  let offset ← onWorld (D.openOp handle flags)
  change fun s => (s.1, spinUnlock (s.2.setFile findex (some ⟨handle, offset⟩)))
  pure findex

def vfsOpen (path : Path) (flags : CInt) : HeapProgram H (State W S (Handle I)) (Stop E) Int := do
  spinLock
  let m ← inspect fun s => s.2.mountAt (getMount s.2.mpt path)
  match m.fs with
  | none => stop .null
  | some fs => do
    let cur ← onWorld (D.lookup fs (path.drop m.path.length))
    match cur with
    | some cur => install A sizeofFile D initialized cur flags
    | none =>
      if flags &&& oCreat ≠ 0 then
        match D.create fs with
        | none => refuse
        | some create => do
          let ret ← onWorld (create (path.drop m.path.length))
          if ret = 0 then do
            let cur ← onWorld (D.lookup fs (path.drop m.path.length))
            match cur with
            | some cur => install A sizeofFile D initialized cur flags
            | none => refuse
          else refuse
      else refuse

/-- Only the block of the `file_t` is given back. -/
def vfsClose (fd : Int) : HeapProgram H (State W S (Handle I)) (Stop E) Int := do
  let entry ← inspect fun s => s.2.file fd
  match entry with
  | none => pure (-1)
  | some file => do
    spinLock
    A.use .null file.inode.file
    A.use .null file.inode.inode
    match D.closeOp file.inode.value with
    | none => pure (-1)
    | some close => do
      onWorld (close file.inode)
      A.kfree .null file.inode.file
      change fun s => (s.1, spinUnlock (s.2.setFile fd none))
      pure 0

end

/-! ### The methods of ext2 -/

/-- `inode_t` of ext2 with the block of its `fs_inode`. -/
structure Ext2Inode (R : Type) where
  disk : R
  fsInode : Ptr
  inode : Ext2.VfsInode

section

variable {R : Type} [DecidableEq R] (A : Allocator H) (sizeofInode : Nat)

def freeInode (fsInode : Ptr) : HeapProgram H W Ext2.Fault Unit :=
  if fsInode = .null then pure () else A.kfree .null fsInode

/-- `update_inode` of an `inode_t` with this `fs_inode`. -/
def updateInode (inode fsInode : Ptr) (extinode : Held Ext2.Inode) : HeapProgram H W Ext2.Fault Ext2.VfsInode := do
  A.use .null inode
  freeInode A fsInode
  A.use .null extinode.block
  pure (Ext2.updateInode extinode.value)

/-- `ext2_lookup`; the `inode_t` is cleared. -/
def ext2Lookup (d : R) (name : Path) : HeapProgram H (Disks R) Ext2.Fault (Option (Held (Ext2Inode R))) := do
  let dev ← look fun s => s.2.dev d
  let tmp ← Ext2.Blocks.inodeLookup A dev (some name)
  match tmp with
  | some tmp => do
    let ret ← A.balloc .null sizeofInode
    let inode ← updateInode A ret .null tmp
    pure (some ⟨ret, d, tmp.block, inode⟩)
  | none => pure none

def ext2Create (d : R) (name : Path) : HeapProgram H (Disks R) Ext2.Fault Int := do
  let w ← look fun s => s.2
  let made ← Ext2.Blocks.createFile A (w.dev d) w.gid name Ext2.anyAccess Ext2.NF
  change fun s => (s.1, { s.2.setDev d made.1 with gid := made.2.1 })
  pure made.2.2

def ext2Ops : HeapDriver H (Disks R) R (Ext2Inode R) Ext2.Fault where
  lookup := ext2Lookup A sizeofInode
  create d := some (ext2Create A d)
  openOp file _ := do
    A.use .null file.file
    pure 0
  closeOp _ := some fun _ => pure ()

end

/-! ### Other file systems -/

def onLeft (x : HeapProgram H W E α) : HeapProgram H (W × W') E α :=
  zoom (fun s => (s.1, s.2.1)) (fun t s => (t.1, (t.2, s.2.2))) id x

def onRight (x : HeapProgram H W' E α) : HeapProgram H (W × W') E α :=
  zoom (fun s => (s.1, s.2.2)) (fun t s => (t.1, (s.2.1, t.2))) id x

/-- The file systems of two kinds, each with a world of its own. -/
def HeapDriver.beside (D : HeapDriver H W S I E) (D' : HeapDriver H W' S' I' E) :
    HeapDriver H (W × W') (S ⊕ S') (I ⊕ I') E where
  lookup fs path :=
    match fs with
    | .inl fs => do
      let cur ← onLeft (D.lookup fs path)
      pure (cur.map fun i => ⟨i.block, .inl i.value⟩)
    | .inr fs => do
      let cur ← onRight (D'.lookup fs path)
      pure (cur.map fun i => ⟨i.block, .inr i.value⟩)
  create fs :=
    match fs with
    | .inl fs => (D.create fs).map fun create path => onLeft (create path)
    | .inr fs => (D'.create fs).map fun create path => onRight (create path)
  openOp file flags :=
    match file.value with
    | .inl i => onLeft (D.openOp ⟨file.file, file.inode, i⟩ flags)
    | .inr i => onRight (D'.openOp ⟨file.file, file.inode, i⟩ flags)
  closeOp i :=
    match i with
    | .inl i => (D.closeOp i).map fun close file => onLeft (close ⟨file.file, file.inode, i⟩)
    | .inr i => (D'.closeOp i).map fun close file => onRight (close ⟨file.file, file.inode, i⟩)

/-! ### What the methods leave -/

/-- `open` and `close` of the inode take and give back no block. -/
structure Quiet (A : Allocator H) (D : HeapDriver H W S I E) (i : I) : Prop where
  openOp : ∀ {file : Handle I} {flags : CInt} {mine : List Ptr} {s : H × W}, file.value = i → A.Owns mine s.2 s →
    Leaves Access.Frees (D.openOp file flags) s fun s' _ => A.Owns mine s'.2 s'
  closeOp : ∃ close, D.closeOp i = some close ∧
    ∀ (file : Handle I) (s : H × W), ∃ w, ((close file).run s).result = .ok ((s.1, w), ())

/-- Every lookup leaves a block that is never given back, whatever it finds. -/
structure LeavesBlock (A : Allocator H) (D : HeapDriver H W S I E) (fs : S) : Prop where
  lookup : ∀ {path : Path} {mine : List Ptr} {s : H × W}, A.Owns mine s.2 s →
    Leaves Access.Frees (D.lookup fs path) s fun s' cur => ∃ block ≠ Ptr.null, A.Owns (block :: mine) s'.2 s' ∧
      ∀ i ∈ cur, i.block ≠ .null ∧ Quiet A D i.value
  create : ∀ {create : Path → HeapProgram H W E Int} {path : Path} {mine : List Ptr} {s : H × W},
    D.create fs = some create → A.Owns mine s.2 s → Leaves Access.Frees (create path) s fun s' _ => A.Owns mine s'.2 s'

variable {A : Allocator H} {sizeofInode sizeofFile : Nat} {D : HeapDriver H W S I E} {D' : HeapDriver H W' S' I' E}
  {initialized : Bool} {mine : List Ptr} {path : Path} {flags : CInt}

section

variable {R : Type} {d : R}

theorem ext2Lookup_leaves {s : H × Disks R} (own : A.Owns mine s.2 s) :
    Leaves Access.Frees (ext2Lookup A sizeofInode d path) s fun s' cur => s'.2 = s.2 ∧
      (∃ block ≠ Ptr.null, A.Owns (block :: mine) s'.2 s') ∧ (∀ i ∈ cur, i.block ≠ .null ∧ i.value.disk = d) ∧
        Ext2.lookup (s.2.dev d) path = .ok (cur.map (·.value.inode)) := by
  apply leaves_look_bind
  refine (Ext2.Blocks.inodeLookup_leaves own).bind fun s' tmp _ ⟨block, there, own, _, looked⟩ => ?_
  cases tmp with
  | none =>
    refine .pure ⟨own.world, ⟨block, there, own.world ▸ own⟩, nofun, ?_⟩
    rw [Ext2.lookup, looked]
    rfl
  | some tmp =>
    refine (balloc_leaves own).bind fun s' ret _ ⟨own, there'⟩ => ?_
    refine Leaves.bind (Q := fun s' inode => A.Owns (ret :: block :: mine) s.2 s' ∧
      inode = Ext2.updateInode tmp.value) ?_ ?_
    · apply leaves_use_bind
      intro _
      apply Leaves.bind (Q := fun s' _ => s' = _) (.pure rfl)
      rintro s' _ - rfl
      apply leaves_use_bind
      intro _
      exact .pure ⟨own, rfl⟩
    · rintro s' _ - ⟨own, rfl⟩
      refine .pure ⟨own.world, ⟨block, there, own.world ▸ own.drop (List.sublist_cons_self _ _)⟩, ?_, ?_⟩
      · intro i mem
        obtain rfl := Option.mem_some_iff.mp mem
        exact ⟨there', rfl⟩
      · rw [Ext2.lookup, looked]
        rfl

variable [DecidableEq R]

/-- The blocks of the new file are given back, those of the lookup in it are not. -/
theorem ext2Create_leaves {s : H × Disks R} (own : A.Owns mine s.2 s) :
    Leaves Access.Frees (ext2Create A d path) s fun s' ret => A.Owns mine s'.2 s' ∧
      Vfs.ext2Create d s.2 path = .ok (s'.2, ret) := by
  apply leaves_look_bind
  refine (Ext2.Blocks.createFile_leaves own).bind fun s' made _ ⟨own, created⟩ => ?_
  apply leaves_change_bind
  refine .pure ⟨own.withWorld _, ?_⟩
  rw [Vfs.ext2Create, created, own.world]
  rfl

theorem ext2Ops_quiet (i : Ext2Inode R) : Quiet A (ext2Ops A sizeofInode) i where
  openOp _ own := by
    apply leaves_use_bind
    intro _
    exact .pure own
  closeOp := ⟨_, rfl, fun _ s => ⟨s.2, rfl⟩⟩

theorem ext2Ops_leavesBlock (d : R) : LeavesBlock A (ext2Ops A sizeofInode) d where
  lookup own := (ext2Lookup_leaves own).mono fun _ _ ⟨_, left, found, _⟩ =>
    ⟨left.choose, left.choose_spec.1, left.choose_spec.2, fun i mem => ⟨(found i mem).1, ext2Ops_quiet _⟩⟩
  create {create _ _ _} entry own := by
    obtain rfl : ext2Create A d = create := Option.some.inj entry
    exact (ext2Create_leaves own).mono fun _ _ => And.left

end

/-! ### Beside other file systems -/

theorem onLeft_leaves {x : HeapProgram H W E α} {s : H × (W × W')} {P : H × W → α → Prop}
    (h : A.Owns mine s.2.1 (s.1, s.2.1) → Leaves Access.Frees x (s.1, s.2.1) P) (own : A.Owns mine s.2 s) :
    Leaves Access.Frees (onLeft x : HeapProgram H (W × W') E α) s fun s' a => ∃ t, P t a ∧
    s' = (t.1, (t.2, s.2.2)) := by
  rw [onLeft]
  exact Leaves.zoom (P := P) (h (own.withWorld _))

theorem Quiet.beside {i : I} (quiet : Quiet A D i) : Quiet A (D.beside D') (.inl i) where
  openOp {file flags mine s} here own := by
    have method : (D.beside D').openOp file flags = onLeft (D.openOp ⟨file.file, file.inode, i⟩ flags) := by
      simp only [HeapDriver.beside, here]
    rw [method]
    apply (onLeft_leaves (fun own => quiet.openOp rfl own) own).mono
    rintro _ _ ⟨t, own, rfl⟩
    exact own.withWorld _
  closeOp := by
    obtain ⟨close, entry, done⟩ := quiet.closeOp
    refine ⟨_, congrArg (Option.map _) entry, fun file s => ?_⟩
    obtain ⟨w, done⟩ := done ⟨file.file, file.inode, i⟩ (s.1, s.2.1)
    refine ⟨(w, s.2.2), ?_⟩
    show ((onLeft (close _)).run s).result = _
    rw [onLeft, result_zoom, done]
    rfl

theorem LeavesBlock.beside {fs : S} (leaves : LeavesBlock A D fs) : LeavesBlock A (D.beside D') (.inl fs) where
  lookup own := by
    apply (onLeft_leaves (fun own => leaves.lookup own) own).bind
    rintro _ cur - ⟨t, ⟨block, there, own, found⟩, rfl⟩
    refine .pure ⟨block, there, own.withWorld _, fun i mem => ?_⟩
    obtain ⟨j, here, rfl⟩ := Option.mem_map.mp mem
    exact ⟨(found j here).1, (found j here).2.beside⟩
  create entry own := by
    obtain ⟨create, method, rfl⟩ := Option.map_eq_some_iff.mp entry
    apply (onLeft_leaves (fun own => leaves.create method own) own).mono
    rintro _ _ ⟨t, own, rfl⟩
    exact own.withWorld _

/-! ### Opening and closing -/

section

variable {s s' : H × State W S (Handle I)} {fd : Int} {m : Mountpoint S} {fs : S} {cur : Held I}

theorem onWorld_leaves {x : HeapProgram H W E α} {P : H × W → α → Prop}
    (h : A.Owns mine s.2.world (s.1, s.2.world) → Leaves Access.Frees x (s.1, s.2.world) P) (own : A.Owns mine s.2 s) :
    Leaves Access.Frees (onWorld x) s fun s' a => ∃ t, P t a ∧ s' = (t.1, { s.2 with world := t.2 }) := by
  rw [onWorld]
  exact Leaves.zoom (P := P) (h (own.withWorld _))

/-- The descriptor is open, and a close of it gives back the block of the `file_t`. -/
structure IsOpen (A : Allocator H) (D : HeapDriver H W S I E) (mine : List Ptr) (s : H × State W S (Handle I))
    (fd : Int) (i : Nat) (file : File (Handle I)) : Prop where
  fd_eq : fd = i
  inside : i < noFile
  entry : s.2.flides[i]? = some (some file)
  free : s.2.lockVfs = false
  there : file.inode.file ≠ .null ∧ file.inode.inode ≠ .null
  quiet : Quiet A D file.inode.value
  own : A.Owns (file.inode.file :: mine) s.2 s

theorem getFreeFlides_lt {flides : Vector (Option (File (Handle I))) noFile} {i : Nat}
    (free : getFreeFlides initialized flides = some i) : i < noFile := by
  unfold getFreeFlides at free
  split at free
  · exact (Vector.getElem?_eq_some_iff.mp (getFreeFlides_some free)).1
  · rw [← Option.some.inj free]
    decide

theorem install_leaves (quiet : Quiet A D cur.value) (there : cur.block ≠ .null) (own : A.Owns mine s.2 s) :
    Leaves Access.Frees (install A sizeofFile D initialized cur flags) s fun s' fd =>
      ∃ i file, IsOpen A D mine s' fd i file := by
  apply leaves_inspect_bind
  intro findex slot
  have inside : findex < noFile := by
    cases free : getFreeFlides initialized s.2.flides with
    | none =>
      rw [free] at slot
      cases slot
    | some i =>
      rw [free] at slot
      exact Except.ok.inj slot ▸ getFreeFlides_lt free
  apply (malloc_leaves own).bind
  intro s' file _ own
  apply leaves_use_bind
  intro there'
  apply (onWorld_leaves (fun own => quiet.openOp rfl own) (own.world ▸ own)).bind
  rintro _ offset - ⟨t, own, rfl⟩
  apply leaves_change_bind
  refine .pure ⟨findex, ⟨⟨file, cur.block, cur.value⟩, offset⟩, rfl, inside, ?_, rfl, ⟨there', there⟩, quiet,
    own.withWorld _⟩
  simp [spinUnlock, State.setFile, inside]

theorem spinLock_leaves :
    Leaves Access.Frees (spinLock : HeapProgram H (State W S (Handle I)) (Stop E) Unit) s fun s' _ =>
    s' = (s.1, { s.2 with lockVfs := true }) ∧ s.2.lockVfs = false := by
  apply leaves_inspect_bind
  intro locked taken
  apply Leaves.change.mono
  rintro _ _ rfl
  unfold Vfs.spinLock at taken
  split at taken
  · cases taken
  · rename_i free
    exact ⟨by rw [← Except.ok.inj taken], by simpa using free⟩

def Ended (A : Allocator H) (D : HeapDriver H W S I E) (mine : List Ptr) (s : H × State W S (Handle I))
    (fd : Int) : Prop :=
  (fd = -1 ∧ A.Owns mine s.2 s) ∨ ∃ i file, IsOpen A D mine s fd i file

theorem refuse_leaves (own : A.Owns mine s.2 s) :
    Leaves Access.Frees (refuse : HeapProgram H (State W S (Handle I)) (Stop E) Int) s (Ended A D mine) := by
  apply leaves_change_bind
  exact .pure (.inl ⟨rfl, own.withWorld _⟩)

/-- A block is left by the call, whatever it returns. -/
theorem vfsOpen_leaves (mounted : s.2.mountAt (E := E) (getMount s.2.mpt path) = .ok m) (here : m.fs = some fs)
    (leaves : LeavesBlock A D fs) (own : A.Owns mine s.2 s) :
    Leaves Access.Frees (vfsOpen A sizeofFile D initialized path flags) s fun s' fd =>
      ∃ block ≠ Ptr.null, Ended A D (block :: mine) s' fd := by
  apply spinLock_leaves.bind
  rintro _ _ - ⟨rfl, -⟩
  apply leaves_inspect_bind
  intro m' found
  obtain rfl : m = m' := Except.ok.inj (mounted.symm.trans found)
  rw [here]
  apply (onWorld_leaves (fun own => leaves.lookup own) (own.withWorld _)).bind
  rintro _ cur - ⟨t, ⟨block, there, own, found⟩, rfl⟩
  refine Leaves.mono (Q := Ended A D (block :: mine)) ?_ fun s' fd ended => ⟨block, there, ended⟩
  cases cur with
  | some cur =>
    exact (install_leaves (found cur rfl).2 (found cur rfl).1 (own.withWorld _)).mono fun s' fd opened => .inr opened
  | none =>
    by_cases creat : flags &&& oCreat ≠ 0
    · rw [if_pos creat]
      cases entry : D.create fs with
      | none => exact refuse_leaves (own.withWorld _)
      | some create =>
        apply (onWorld_leaves (fun own => leaves.create entry own) (own.withWorld _)).bind
        rintro _ ret - ⟨t, own, rfl⟩
        by_cases made : ret = 0
        · rw [if_pos made]
          apply (onWorld_leaves (fun own => leaves.lookup own) (own.withWorld _)).bind
          rintro _ cur - ⟨t, ⟨block', -, own, found⟩, rfl⟩
          have own := own.drop (List.sublist_cons_self _ _)
          cases cur with
          | some cur =>
            exact (install_leaves (found cur rfl).2 (found cur rfl).1 (own.withWorld _)).mono
              fun s' fd opened => .inr opened
          | none => exact refuse_leaves (own.withWorld _)
        · rw [if_neg made]
          exact refuse_leaves (own.withWorld _)
    · rw [if_neg creat]
      exact refuse_leaves (own.withWorld _)

/-- The close returns 0, and gives back one block. -/
theorem vfsClose_isOpen {i : Nat} {file : File (Handle I)} (h : IsOpen A D mine s fd i file) :
    ∃ s', ((vfsClose A D fd).run s).result = .ok (s', 0) ∧ A.Owns mine s'.2 s' := by
  obtain ⟨close, method, done⟩ := h.quiet.closeOp
  obtain ⟨w, done⟩ := done file.inode (s.1, s.2.world)
  let s₁ : H × State W S (Handle I) := (s.1, { s.2 with lockVfs := true })
  have access : (s.2.file fd : Except (Stop E) _) = .ok (some file) := by
    have inside : (0 : Int) ≤ i ∧ (i : Int) < noFile := ⟨Int.natCast_nonneg i, Int.ofNat_lt.mpr h.inside⟩
    rw [State.file, h.fd_eq, if_pos inside, Int.toNat_natCast, h.entry]
    rfl
  have looked : ((inspect fun s => s.2.file fd : HeapProgram H (State W S (Handle I)) (Stop E) _).run s).result =
      .ok (s, some file) := by
    rw [result_inspect, access]
    rfl
  have locked : ((spinLock : HeapProgram H (State W S (Handle I)) (Stop E) Unit).run s).result = .ok (s₁, ()) := by
    have free : ¬s.2.lockVfs = true := Bool.eq_false_iff.mp h.free
    rw [spinLock, result_bind, result_inspect, Vfs.spinLock, if_neg free]
    rfl
  have closed : ((onWorld (close file.inode) : HeapProgram H (State W S (Handle I)) (Stop E) Unit).run s₁).result =
      .ok ((s.1, { s₁.2 with world := w }), ()) := by
    rw [onWorld, result_zoom, done]
    rfl
  refine ⟨(A.free s.1 file.inode.file, spinUnlock ({ s₁.2 with world := w }.setFile fd none)), ?_,
    (h.own.free h.there.1).withWorld _⟩
  rw [vfsClose, result_bind_ok looked, result_bind_ok locked, result_bind_ok (use_result h.there.1),
    result_bind_ok (use_result h.there.2)]
  simp only [method]
  rw [result_bind_ok closed, result_bind_ok (kfree_result h.there.1)]
  rfl

/-! ### What is expected of both -/

/-- The state after a call that failed, or after the close of the descriptor that it returned. -/
def Ends (A : Allocator H) (D : HeapDriver H W S I E) (s : H × State W S (Handle I)) (fd : Int)
    (s' : H × State W S (Handle I)) : Prop :=
  if fd = -1 then s' = s else ((vfsClose A D fd).run s).result = .ok (s', 0)

/-- Every block taken on the way is given back once and not used afterwards, and at the end the live blocks are those
that there were. -/
structure RestoresBlocks (A : Allocator H) (sizeofFile : Nat) (D : HeapDriver H W S I E) (initialized : Bool)
    (s : H × State W S (Handle I)) (path : Path) (flags : CInt) : Prop where
  opening : Within Access.Sound (vfsOpen A sizeofFile D initialized path flags) s
  closing : ∀ s' fd, ((vfsOpen A sizeofFile D initialized path flags).run s).result = .ok (s', fd) → fd ≠ -1 →
    Within Access.Sound (vfsClose A D fd) s'
  live : ∀ s' fd, ((vfsOpen A sizeofFile D initialized path flags).run s).result = .ok (s', fd) →
    ∃ s'', Ends A D s' fd s'' ∧ A.live s''.1 = A.live s.1

theorem Ends.unique {t t' : H × State W S (Handle I)} (h : Ends A D s fd t) (h' : Ends A D s fd t') : t = t' := by
  unfold Ends at h h'
  split at h
  · rw [if_pos ‹_›] at h'
    exact h.trans h'.symm
  · rw [if_neg ‹_›, h] at h'
    exact (Prod.mk.inj (Except.ok.inj h')).1

/-- A file system that leaves a block at every lookup has more live blocks at the end. -/
theorem LeavesBlock.grows (leaves : LeavesBlock A D fs) (ok : A.Ok s.1)
    (mounted : s.2.mountAt (E := E) (getMount s.2.mpt path) = .ok m) (here : m.fs = some fs)
    (returned : ((vfsOpen A sizeofFile D initialized path flags).run s).result = .ok (s', fd)) :
    ∃ s'', Ends A D s' fd s'' ∧ A.live s.1 ⊂ A.live s''.1 := by
  obtain ⟨block, there, ended⟩ := (vfsOpen_leaves mounted here leaves (.all ok)).post s' fd returned
  rcases ended with ⟨rfl, own⟩ | ⟨i, file, opened⟩
  · exact ⟨s', by rw [Ends, if_pos rfl], own.more there⟩
  · obtain ⟨s'', closed, own⟩ := vfsClose_isOpen opened
    have positive : fd ≠ -1 := by
      have := opened.fd_eq
      omega
    exact ⟨s'', (if_neg positive).mpr closed, own.more there⟩

theorem LeavesBlock.not_restores (leaves : LeavesBlock A D fs) (ok : A.Ok s.1)
    (mounted : s.2.mountAt (E := E) (getMount s.2.mpt path) = .ok m) (here : m.fs = some fs)
    (returned : ((vfsOpen A sizeofFile D initialized path flags).run s).result = .ok (s', fd)) :
    ¬RestoresBlocks A sizeofFile D initialized s path flags := by
  intro restores
  obtain ⟨t, ended, more⟩ := leaves.grows ok mounted here returned
  obtain ⟨t', ended', same⟩ := restores.live s' fd returned
  rw [ended.unique ended', same] at more
  exact more.ne rfl

end

/-- On an ext2 mount no open that returns is undone, whatever the path and the flags. -/
theorem vfsOpen_restores_never {R : Type} [DecidableEq R] {D' : HeapDriver H W' S' I' Ext2.Fault} {d : R}
    {s s' : H × State (Disks R × W') (R ⊕ S') (Handle (Ext2Inode R ⊕ I'))} {fd : Int} {m : Mountpoint (R ⊕ S')}
    (ok : A.Ok s.1) (mounted : s.2.mountAt (E := Ext2.Fault) (getMount s.2.mpt path) = .ok m)
    (disk : m.fs = some (.inl d))
    (returned : ((vfsOpen A sizeofFile ((ext2Ops A sizeofInode).beside D') initialized path flags).run s).result =
      .ok (s', fd)) :
    (∃ s'', Ends A ((ext2Ops A sizeofInode).beside D') s' fd s'' ∧ A.live s.1 ⊂ A.live s''.1) ∧
      ¬RestoresBlocks A sizeofFile ((ext2Ops A sizeofInode).beside D') initialized s path flags :=
  ⟨(ext2Ops_leavesBlock d).beside.grows ok mounted disk returned,
    (ext2Ops_leavesBlock d).beside.not_restores ok mounted disk returned⟩

/-! ### A disk without files -/

def rootPmm : Allocator (Pmm.Heap × List Pmm.Block) := Pmm.pmm 8 256 4096 (by decide)

def rootDriver : HeapDriver (Pmm.Heap × List Pmm.Block) (Disks Unit × Disks Unit) (Unit ⊕ Unit)
    (Ext2Inode Unit ⊕ Ext2Inode Unit) Ext2.Fault :=
  (ext2Ops rootPmm 48).beside (ext2Ops rootPmm 48)

/-- The heap before the first request, and one disk on "/". -/
def rootOnly (dev : Ext2.Device) (gid : Nat) : (Pmm.Heap × List Pmm.Block) ×
    State (Disks Unit × Disks Unit) (Unit ⊕ Unit) (Handle (Ext2Inode Unit ⊕ Ext2Inode Unit)) where
  fst := (Pmm.listInit 8 (fun _ => 0) 256 4096, [])
  snd := {
    world := (⟨fun _ => dev, gid⟩, ⟨fun _ => dev, gid⟩)
    mpt := emptyTable.setIfInBounds 0 ⟨[slash], some (.inl ()), true⟩
    flides := Vector.replicate noFile none
    lockVfs := false }

/-- The call of `vfs_open` returns, and the path is on the disk. -/
def returnsOn (dev : Ext2.Device) (gid : Nat) (path : Path) : Bool :=
  match ((vfsOpen rootPmm 16 rootDriver true path 0).run (rootOnly dev gid)).result,
    (rootOnly dev gid).2.mountAt (E := Ext2.Fault) (getMount (rootOnly dev gid).2.mpt path) with
  | .ok _, .ok m => decide (m.fs = some (.inl ()))
  | _, _ => false

variable {dev : Ext2.Device} {gid : Nat}

theorem rootOnly_ok : rootPmm.Ok (rootOnly dev gid).1 :=
  Pmm.listInit_inv (w := 8) (m := fun _ => 0) (by decide) (by decide)

theorem returnsOn_cases (returns : returnsOn dev gid path = true) : ∃ s' fd m,
    ((vfsOpen rootPmm 16 rootDriver true path 0).run (rootOnly dev gid)).result = .ok (s', fd) ∧
    (rootOnly dev gid).2.mountAt (E := Ext2.Fault) (getMount (rootOnly dev gid).2.mpt path) = .ok m ∧
      m.fs = some (.inl ()) := by
  unfold returnsOn at returns
  split at returns
  · rename_i r m returned mounted
    exact ⟨r.1, r.2, m, returned, mounted, of_decide_eq_true returns⟩
  · cases returns

/-- After `ext2_init` the open of "/" returns, and that of "/x". -/
theorem fresh_returns : ∃ dev gid, Ext2.ext2Init (fun _ => 0) 0 [] = .ok (dev, gid) ∧
    returnsOn dev gid [slash] = true ∧ returnsOn dev gid [slash, 120] = true := by
  have run : (do
      let (dev, gid) ← Ext2.ext2Init (fun _ => 0) 0 []
      .ok (returnsOn dev gid [slash] && returnsOn dev gid [slash, 120])) = (.ok true : Except Ext2.Fault Bool) := by
    decide +kernel
  obtain ⟨⟨dev, gid⟩, fresh, run⟩ := bind_ok run
  exact ⟨dev, gid, fresh, Bool.and_eq_true_iff.mp (Except.ok.inj run)⟩

theorem vfsOpen_restores_never_sample : ∃ dev gid s' fd, Ext2.ext2Init (fun _ => 0) 0 [] = .ok (dev, gid) ∧
    ((vfsOpen rootPmm 16 rootDriver true [slash] 0).run (rootOnly dev gid)).result = .ok (s', fd) ∧
      (∃ s'', Ends rootPmm rootDriver s' fd s'' ∧ rootPmm.live (rootOnly dev gid).1 ⊂ rootPmm.live s''.1) ∧
        ¬RestoresBlocks rootPmm 16 rootDriver true (rootOnly dev gid) [slash] 0 := by
  obtain ⟨dev, gid, fresh, returns, -⟩ := fresh_returns
  obtain ⟨s', fd, m, returned, mounted, disk⟩ := returnsOn_cases returns
  refine ⟨dev, gid, s', fd, fresh, returned, ?_⟩
  have ok : rootPmm.Ok (rootOnly dev gid).1 := rootOnly_ok
  clear fresh returns
  generalize rootOnly dev gid = s at *
  exact vfsOpen_restores_never ok mounted disk returned

theorem rootOnly_not_restores (returns : returnsOn dev gid path = true) :
    ¬RestoresBlocks rootPmm 16 rootDriver true (rootOnly dev gid) path 0 := by
  obtain ⟨_, _, m, returned, mounted, disk⟩ := returnsOn_cases returns
  have leaves : LeavesBlock rootPmm rootDriver (.inl ()) := (ext2Ops_leavesBlock ()).beside
  exact leaves.not_restores rootOnly_ok mounted disk returned

/-- On a fresh disk, the open of "/" with its close, and the open of "/x", which there is not. -/
theorem vfsOpen_restores_counterexample : ∃ dev gid, Ext2.ext2Init (fun _ => 0) 0 [] = .ok (dev, gid) ∧
    ¬RestoresBlocks rootPmm 16 rootDriver true (rootOnly dev gid) [slash] 0 ∧
      ¬RestoresBlocks rootPmm 16 rootDriver true (rootOnly dev gid) [slash, 120] 0 := by
  obtain ⟨dev, gid, fresh, returns, returns'⟩ := fresh_returns
  exact ⟨dev, gid, fresh, rootOnly_not_restores returns, rootOnly_not_restores returns'⟩

end OsLabs.Vfs.Blocks

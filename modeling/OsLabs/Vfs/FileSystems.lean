import OsLabs.Data.Contract
import OsLabs.Vfs.Disks

/-!
# Open descriptors

The file systems as the shell sees them, with the methods that make and remove names,
and what each call of the VFS does to the set of open descriptors of the calling task.
-/

namespace OsLabs.Vfs
open Util

def FileType.toNat : FileType → Nat
  | nf => 0
  | dr => 1
  | xx => 2
  | mp => 3
  | dvChar => 4
  | dvBlock => 5

/-- The fields of `inode_t` that are printed. -/
structure Attrs where
  type : Nat
  size : Nat
  permission : Nat
  linkNum : Nat
  dirLen : Nat

/-- A method of a file system on a path, where `none` is `NULL`. -/
abbrev PathOp (W E : Type) := Option (W → Path → Except E (W × Int))

/-- Every `open` of the inodes sets the offset to 0 and every `close` returns 0, and neither does anything else. -/
structure FileSystems (W S I E : Type) extends Driver W S I (List Byte) E where
  mkdir : S → PathOp W E
  rmdir : S → PathOp W E
  unlink : S → PathOp W E
  devName : S → Option Path
  attrs : I → Attrs
  open_eq : ∀ i w, (ops i).openOp w i = .ok (w, ⟨i, 0⟩)
  close_eq : ∀ i, (ops i).closeOp = some fun w _ => .ok w

variable {W S I E : Type}

def FileSystems.isDir (D : FileSystems W S I E) (i : I) : Bool := (D.attrs i).type == FileType.dr.toNat

/-- The end of `vfs_mkdir`, `vfs_rmdir` and `vfs_unlink`. -/
def pathCall (op : S → PathOp W E) (s : State W S I) (m : Mountpoint S) (path : Path) :
    Except (Stop E) (State W S I × Int) :=
  match m.fs with
  | none => .error .null
  | some fs =>
    match op fs with
    | none => .ok (s, -1)
    | some f => do
      let (world, ret) ← method (f s.world (path.drop m.path.length))
      .ok ({ s with world := world }, ret)

section

variable (D : FileSystems W S I E) (s : State W S I) (path : Path)

def vfsMkdir : Except (Stop E) (State W S I × Int) := do
  pathCall D.mkdir s (← s.mountAt (getMount s.mpt path)) path

def vfsRmdir : Except (Stop E) (State W S I × Int) := do
  let m ← s.mountAt (getMount s.mpt path)
  if (path.drop m.path.length).length ≤ 1 then .ok (s, -1) else pathCall D.rmdir s m path

def vfsUnlink : Except (Stop E) (State W S I × Int) := do
  pathCall D.unlink s (← s.mountAt (getMount s.mpt path)) path

end

/-! ### The methods of ext2 -/

section

variable {R : Type} [DecidableEq R]

def ext2Mkdir (d : R) (w : Disks R) (path : Path) : Except Ext2.Fault (Disks R × Int) := do
  let (dev, gid, ret) ← Ext2.createFile (w.dev d) w.gid path false Ext2.anyAccess Ext2.DR
  .ok ({ w.setDev d dev with gid := gid }, ret)

def ext2Rm (d : R) (w : Disks R) (path : Path) : Except Ext2.Fault (Disks R × Int) := do
  let (dev, ret) ← Ext2.rm (w.dev d) path
  .ok (w.setDev d dev, ret)

/-- `ext2_ops`, on ramdisks of the given names. -/
def ext2FileSystems (before : Byte) (name : R → Path) : FileSystems (Disks R) R (R × Ext2.VfsInode) Ext2.Fault where
  toDriver := ext2Driver before
  mkdir d := some (ext2Mkdir d)
  rmdir d := some (ext2Rm d)
  unlink d := some (ext2Rm d)
  devName d := some (name d)
  attrs i := ⟨i.2.type, i.2.size, i.2.permission, i.2.linkNum, i.2.dirLen⟩
  open_eq _ _ := rfl
  close_eq _ := rfl

end

/-! ### The table -/

def opened (flides : Vector (Option (File I)) noFile) : Vector Bool noFile := flides.map (·.isSome)

variable {D : FileSystems W S I E} {s s' : State W S I} {path : Path} {fd ret : Int} {i : Nat} {file : File I}
  {m : Mountpoint S}
  {flides : Vector (Option (File I)) noFile} {creat : Bool}

theorem opened_set (flides : Vector (Option (File I)) noFile) (i : Nat) (entry : Option (File I)) :
    opened (flides.setIfInBounds i entry) = (opened flides).setIfInBounds i entry.isSome := by
  simp [opened, Vector.map_setIfInBounds]

theorem opened_getElem? (flides : Vector (Option (File I)) noFile) (i : Nat) :
    (opened flides)[i]? = flides[i]?.map (·.isSome) := by
  simp [opened]

/-- Storing what a slot holds already changes nothing. -/
theorem set_same {α : Type} {n : Nat} {v : Vector α n} {a : α} (here : v[i]? = some a) : v.setIfInBounds i a = v := by
  obtain ⟨inside, rfl⟩ := Vector.getElem?_eq_some_iff.mp here
  ext j hj
  rw [Vector.getElem_setIfInBounds]
  split
  · rename_i same
    simp [same]
  · rfl

/-- `flides[i]` is a free slot. -/
theorem opened_free (free : getFreeFlides flides = some i) : (opened flides)[i]? = some false := by
  rw [opened_getElem?, getFreeFlides_some free]
  rfl

/-- Whether a slot is free depends on the set of open descriptors. -/
theorem getFreeFlides_opened : getFreeFlides flides = (opened flides).toList.findIdx? (! ·) := by
  simp only [getFreeFlides, opened, Vector.toList_map, List.findIdx?_map]
  congr 1
  funext entry
  cases entry <;> rfl

/-! ### The calls -/

def State.put (s : State W S I) (i : Nat) (entry : Option (File I)) : State W S I :=
  { s with flides := s.flides.setIfInBounds i entry, lockVfs := false }

theorem install_eq (D : FileSystems W S I E) (s : State W S I) (cur : I) :
    install D.toDriver s cur = match getFreeFlides s.flides with
      | none => .error .assertion
      | some i => .ok (s.put i (some ⟨cur, 0⟩), (i : Int)) := by
  cases slot : getFreeFlides s.flides with
  | none => simp only [install, slot]
  | some i =>
    simp only [install, slot, D.open_eq]
    rfl

/-- A failed assertion means that. -/
def OnAssertion (full : Prop) (e : Stop E) : Prop := e = .assertion → full

theorem onAssertion_mono {α : Type} {P : α → Prop} {full full' : Prop} {x : Except (Stop E) α} (weaker : full → full')
    (h : Ensures P (OnAssertion full) x) : Ensures P (OnAssertion full') x :=
  h.mono (fun _ post => post) fun _ safe failed => weaker (safe failed)

theorem method_ensures {α : Type} (x : Except E α) : Ensures (fun a => x = .ok a) (OnAssertion False) (method x) := by
  cases x with
  | ok a => rfl
  | error e => exact nofun

theorem file_ensures (s : State W S I) (fd : Int) :
    Ensures (fun entry => s.flides[fd.toNat]?.join = entry) (OnAssertion False) (s.file fd : Except (Stop E) _) := by
  unfold State.file
  split
  · rfl
  · exact nofun

theorem mountAt_ensures (s : State W S I) (index : Int) :
    Ensures (fun _ => True) (OnAssertion False) (s.mountAt index : Except (Stop E) _) := by
  unfold State.mountAt
  split
  · split
    · trivial
    · exact nofun
  · exact nofun

theorem spinLock_ensures (s : State W S I) :
    Ensures (fun s' => s.lockVfs = false ∧ s' = { s with lockVfs := true }) (OnAssertion False)
      (spinLock s : Except (Stop E) _) := by
  unfold spinLock
  split
  · exact nofun
  · rename_i free
    exact ⟨by simpa using free, rfl⟩

theorem resolve_ensures (D : FileSystems W S I E) (s : State W S I) (path : Path) :
    Ensures (fun found => resolve D.toDriver s path = .ok found) (OnAssertion False) (resolve D.toDriver s path) := by
  cases resolved : resolve D.toDriver s path with
  | ok found => rfl
  | error e =>
    rintro rfl
    have safe : Ensures (fun _ => True) (OnAssertion False) (resolve D.toDriver s path) := by
      apply (mountAt_ensures s _).bind
      intro m _
      split
      · exact (method_ensures _).mono (fun _ _ => trivial) fun _ h => h
      · exact nofun
    exact safe.failure resolved rfl

/-- What a call of `vfs_open` without `O_CREAT` leaves: the path is not found, or is found and gets a free slot. -/
def Opens (D : FileSystems W S I E) (s : State W S I) (path : Path) (r : State W S I × Int) : Prop :=
  s.lockVfs = false ∧ ((resolve D.toDriver s path = .ok none ∧ r = (s, -1)) ∨
    ∃ cur i, resolve D.toDriver s path = .ok (some cur) ∧ getFreeFlides s.flides = some i ∧
      r = (s.put i (some ⟨cur, 0⟩), (i : Int)))

theorem vfsOpen_ensures (D : FileSystems W S I E) (s : State W S I) (path : Path) :
    Ensures (Opens D s path) (OnAssertion (getFreeFlides s.flides = none)) (vfsOpen D.toDriver s path false) := by
  apply (onAssertion_mono False.elim (spinLock_ensures s)).bind
  rintro _ ⟨free, rfl⟩
  apply (onAssertion_mono False.elim (resolve_ensures D _ path)).bind
  intro found resolved
  cases found with
  | none => exact ⟨free, .inl ⟨resolved, by rw [spinUnlock, ← free]⟩⟩
  | some cur =>
    simp only [install_eq]
    cases slot : getFreeFlides s.flides with
    | none => exact fun _ => rfl
    | some i => exact ⟨free, .inr ⟨cur, i, resolved, slot, rfl⟩⟩

def Creates (s : State W S I) (r : State W S I × Int) : Prop :=
  (r.2 = -1 ∧ r.1.flides = s.flides ∧ r.1.lockVfs = false) ∨
    ∃ file i, getFreeFlides s.flides = some i ∧ r.2 = i ∧ r.1.flides = s.flides.setIfInBounds i (some file) ∧
      r.1.lockVfs = false

theorem install_ensures {s₁ : State W S I} (D : FileSystems W S I E) (same : s₁.flides = s.flides) (cur : I) :
    Ensures (Creates s) (OnAssertion (getFreeFlides s.flides = none)) (install D.toDriver s₁ cur) := by
  rw [install_eq, same]
  cases slot : getFreeFlides s.flides with
  | none => exact fun _ => rfl
  | some i => exact .inr ⟨⟨cur, 0⟩, i, slot, rfl, by rw [State.put, same], rfl⟩

theorem vfsOpen_creates (D : FileSystems W S I E) (s : State W S I) (path : Path) :
    Ensures (Creates s) (OnAssertion (getFreeFlides s.flides = none)) (vfsOpen D.toDriver s path true) := by
  apply (onAssertion_mono False.elim (spinLock_ensures s)).bind
  rintro _ ⟨-, rfl⟩
  apply (onAssertion_mono False.elim (resolve_ensures D _ path)).bind
  intro found _
  cases found with
  | some cur => exact install_ensures D rfl cur
  | none =>
    rw [if_pos rfl]
    apply (onAssertion_mono False.elim (mountAt_ensures _ _)).bind
    intro m _
    split
    · exact .inl ⟨rfl, rfl, rfl⟩
    · refine (onAssertion_mono False.elim (method_ensures _)).bind fun ⟨world, made⟩ _ => ?_
      simp only
      split
      · apply (onAssertion_mono False.elim (resolve_ensures D _ path)).bind
        intro found _
        cases found with
        | some cur => exact install_ensures D rfl cur
        | none => exact .inl ⟨rfl, rfl, rfl⟩
      · exact .inl ⟨rfl, rfl, rfl⟩

/-- What a call leaves as it was: the open descriptors and the lock. -/
structure Keeps (s s' : State W S I) : Prop where
  opened : opened s'.flides = opened s.flides
  lockVfs : s'.lockVfs = s.lockVfs

theorem Keeps.refl (s : State W S I) : Keeps s s := ⟨rfl, rfl⟩

theorem Keeps.trans {s₁ : State W S I} (h : Keeps s s₁) (h' : Keeps s₁ s') : Keeps s s' :=
  ⟨h'.opened.trans h.opened, h'.lockVfs.trans h.lockVfs⟩

/-- A call that stores the `file_t` of a descriptor again. -/
theorem keeps_setFile {file' : File I} (entry : s.flides[fd.toNat]?.join = some file) (world : W) :
    Keeps s ({ s with world := world }.setFile fd (some file')) := by
  refine ⟨?_, rfl⟩
  simp only [State.setFile, opened_set, Option.isSome_some]
  apply set_same
  rw [opened_getElem?, Option.join_eq_some_iff.mp entry]
  rfl

theorem vfsRead_ensures (D : FileSystems W S I E) (s : State W S I) (fd : Int) (buf : List Byte) (nbyte : Nat) :
    Ensures (fun r => Keeps s r.1) (OnAssertion False) (vfsRead D.toDriver s fd buf nbyte) := by
  apply (file_ensures s fd).bind
  intro entry here
  cases entry with
  | none => exact .refl s
  | some file =>
    simp only
    split
    · exact .refl s
    · exact (method_ensures _).bind fun r _ => keeps_setFile here r.1

theorem vfsWrite_ensures (D : FileSystems W S I E) (s : State W S I) (fd : Int) (buf : List Byte) :
    Ensures (fun r => Keeps s r.1) (OnAssertion False) (vfsWrite D.toDriver s fd buf) := by
  apply (file_ensures s fd).bind
  intro entry here
  cases entry with
  | none => exact .refl s
  | some file =>
    simp only
    split
    · exact .refl s
    · exact (method_ensures _).bind fun r _ => keeps_setFile here r.1

theorem vfsLseek_ensures (D : FileSystems W S I E) (s : State W S I) (fd offset whence : Int) :
    Ensures (fun r => Keeps s r.1) (OnAssertion False) (vfsLseek D.toDriver s fd offset whence) := by
  apply (file_ensures s fd).bind
  intro entry here
  cases entry with
  | none => exact .refl s
  | some file =>
    simp only
    split
    · exact .refl s
    · exact (method_ensures _).bind fun r _ => keeps_setFile here r.1

theorem pathCall_ensures (op : S → PathOp W E) (s : State W S I) (m : Mountpoint S) (path : Path) :
    Ensures (fun r => Keeps s r.1) (OnAssertion False) (pathCall op s m path) := by
  unfold pathCall
  split
  · exact nofun
  · split
    · exact .refl s
    · exact (method_ensures _).bind fun r _ => ⟨rfl, rfl⟩

theorem vfsMkdir_ensures (D : FileSystems W S I E) (s : State W S I) (path : Path) :
    Ensures (fun r => Keeps s r.1) (OnAssertion False) (vfsMkdir D s path) :=
  (mountAt_ensures s _).bind fun m _ => pathCall_ensures D.mkdir s m path

theorem vfsUnlink_ensures (D : FileSystems W S I E) (s : State W S I) (path : Path) :
    Ensures (fun r => Keeps s r.1) (OnAssertion False) (vfsUnlink D s path) :=
  (mountAt_ensures s _).bind fun m _ => pathCall_ensures D.unlink s m path

theorem vfsRmdir_ensures (D : FileSystems W S I E) (s : State W S I) (path : Path) :
    Ensures (fun r => Keeps s r.1) (OnAssertion False) (vfsRmdir D s path) := by
  apply (mountAt_ensures s _).bind
  intro m _
  split
  · exact .refl s
  · exact pathCall_ensures D.rmdir s m path

/-! ### Opening and closing -/

theorem put_opened (s : State W S I) (i : Nat) (entry : Option (File I)) :
    opened (s.put i entry).flides = (opened s.flides).setIfInBounds i entry.isSome := opened_set ..

/-- A descriptor that was opened and is still open. -/
theorem put_ne (slot : getFreeFlides s.flides = some i) : opened (s.put i (some file)).flides ≠ opened s.flides := by
  intro same
  have free := opened_free slot
  obtain ⟨inside, -⟩ := Vector.getElem?_eq_some_iff.mp free
  rw [← same, put_opened] at free
  simp [inside] at free

/-- The call on a descriptor that is open. -/
theorem vfsClose_opened (used : (opened s.flides)[i]? = some true) :
    Ensures (fun r => r = (s.put i none, 0)) (OnAssertion False) (vfsClose D.toDriver s i) := by
  obtain ⟨inside, -⟩ := Vector.getElem?_eq_some_iff.mp used
  apply (file_ensures s i).bind
  intro entry access
  rw [opened_getElem?] at used
  obtain ⟨slot, here, some⟩ := Option.map_eq_some_iff.mp used
  rw [Int.toNat_natCast, here, Option.join_some] at access
  subst access
  cases slot with
  | none => cases some
  | some file =>
    apply (spinLock_ensures s).bind
    rintro _ ⟨-, rfl⟩
    simp only [D.close_eq]
    rfl

/-- A descriptor that was opened is closed again, after calls that keep the descriptors. -/
theorem vfsClose_restores (free : s.lockVfs = false) (slot : getFreeFlides s.flides = some i)
    (took : opened s'.flides = (opened s.flides).setIfInBounds i true) :
    Ensures (fun r => Keeps s r.1) (OnAssertion False) (vfsClose D.toDriver s' i) := by
  have unused := opened_free slot
  obtain ⟨inside, -⟩ := Vector.getElem?_eq_some_iff.mp unused
  refine (vfsClose_opened (by rw [took]; simp [inside])).mono ?_ fun _ h => h
  rintro _ rfl
  refine ⟨?_, free.symm⟩
  rw [put_opened, took, Option.isSome_none, Vector.setIfInBounds_setIfInBounds, set_same unused]

/-- Right after it was opened, closing it gives the state from before. -/
theorem vfsClose_put (free : s.lockVfs = false) (slot : getFreeFlides s.flides = some i) :
    Ensures (fun r => r = (s, 0)) (OnAssertion False) (vfsClose D.toDriver (s.put i (some file)) i) := by
  obtain ⟨inside, -⟩ := Vector.getElem?_eq_some_iff.mp (getFreeFlides_some slot)
  refine (vfsClose_opened (by rw [put_opened]; simp [inside])).mono ?_ fun _ h => h
  rintro _ rfl
  simp only [State.put, Vector.setIfInBounds_setIfInBounds, set_same (getFreeFlides_some slot), ← free]

theorem vfsClose_put_eq (free : s.lockVfs = false) (slot : getFreeFlides s.flides = some i) :
    vfsClose D.toDriver (s.put i (some file)) i = .ok (s, 0) := by
  obtain ⟨inside, -⟩ := Vector.getElem?_eq_some_iff.mp (getFreeFlides_some slot)
  have small : (0 : Int) ≤ i ∧ (i : Int) < noFile := ⟨Int.natCast_nonneg i, by omega⟩
  have entry : (s.put i (some file)).flides[i]? = some (some file) := by simp [State.put, inside]
  have closed : vfsClose D.toDriver (s.put i (some file)) i = .ok ((s.put i (some file)).put i none, 0) := by
    simp only [vfsClose, State.file, if_pos small, Int.toNat_natCast, entry, D.close_eq, bind, Except.bind]
    rfl
  rw [closed]
  simp only [State.put, Vector.setIfInBounds_setIfInBounds, set_same (getFreeFlides_some slot), ← free]

theorem vfsOpen_missing (free : s.lockVfs = false) (resolved : resolve D.toDriver s path = .ok none) :
    vfsOpen D.toDriver s path false = .ok (s, -1) := by
  have lock : spinLock (E := E) s = .ok { s with lockVfs := true } := by
    rw [spinLock, free]
    rfl
  have resolved' : resolve D.toDriver { s with lockVfs := true } path = .ok none := resolved
  simp only [vfsOpen, lock, resolved', bind, Except.bind]
  rw [if_neg Bool.false_ne_true, spinUnlock, ← free]

theorem vfsOpen_found {cur : I} (free : s.lockVfs = false) (resolved : resolve D.toDriver s path = .ok (some cur))
    (slot : getFreeFlides s.flides = some i) :
    vfsOpen D.toDriver s path false = .ok (s.put i (some ⟨cur, 0⟩), (i : Int)) := by
  have lock : spinLock (E := E) s = .ok { s with lockVfs := true } := by
    rw [spinLock, free]
    rfl
  have resolved' : resolve D.toDriver { s with lockVfs := true } path = .ok (some cur) := resolved
  have slot' : getFreeFlides { s with lockVfs := true }.flides = some i := slot
  simp only [vfsOpen, lock, resolved', bind, Except.bind, install_eq, slot']
  rfl

/-- A link that returns has left the descriptor of the old path open. -/
theorem vfsLink_ensures (D : FileSystems W S I E) (s : State W S I) (oldpath newpath : Path) :
    Ensures (fun r => opened r.1.flides ≠ opened s.flides) (OnAssertion True)
    (vfsLink D.toDriver s oldpath newpath) := by
  apply (onAssertion_mono (fun _ => trivial) (vfsOpen_ensures D s oldpath)).bind
  rintro ⟨s₁, fd⟩ ⟨-, ⟨-, here⟩ | ⟨cur, i, -, slot, here⟩⟩
  · obtain ⟨rfl, rfl⟩ := Prod.mk.inj here
    exact fun _ => trivial
  · obtain ⟨rfl, rfl⟩ := Prod.mk.inj here
    have differ := @put_ne _ _ _ s i ⟨cur, 0⟩ slot
    apply (onAssertion_mono False.elim (file_ensures _ (i : Int))).bind
    intro entry here
    cases entry with
    | none => exact fun _ => trivial
    | some file =>
      simp only
      split
      · exact differ
      · apply (onAssertion_mono False.elim (mountAt_ensures _ _)).bind
        intro m _
        apply (onAssertion_mono False.elim (method_ensures _)).bind
        intro r _
        exact fun same => differ ((keeps_setFile here r.1).opened.symm.trans same)

end OsLabs.Vfs

import OsLabs.Vfs.Blocks

/-!
# Calls without their blocks

What `vfs_open` does to descriptors and disks when the blocks of the heap are forgotten:
what it does over methods that know of no heap.
-/

namespace OsLabs.Vfs.Blocks
open Program Allocator Util

variable {H W S I J B E : Type}

/-- The state that the calls without a heap see. -/
def forget (view : I → J) (s : State W S (Handle I)) : State W S J where
  world := s.world
  mpt := s.mpt
  flides := s.flides.map fun slot => slot.map fun file => ⟨view file.inode.value, file.offset⟩
  lockVfs := s.lockVfs

/-- The methods do what those without a heap do, as far as they return. -/
structure Models (A : Allocator H) (D : HeapDriver H W S I E) (P : Driver W S J B E) (view : I → J) : Prop where
  lookup : ∀ {fs : S} {path : Path} {s : H × W}, A.Owns [] s.2 s →
    Leaves Access.Frees (D.lookup fs path) s fun s' cur =>
    A.Owns [] s.2 s' ∧ P.lookup fs s.2 path = .ok (cur.map fun i => view i.value)
  create : ∀ fs, Option.Rel (fun create create' => ∀ (path : Path) (s : H × W), A.Owns [] s.2 s →
    Leaves Access.Frees (create path) s fun s' ret => A.Owns [] s'.2 s' ∧ create' s.2 path = .ok (s'.2, ret))
    (D.create fs) (P.create fs)
  openOp : ∀ {file : Handle I} {flags : CInt} {s : H × W}, A.Owns [] s.2 s →
    Leaves Access.Frees (D.openOp file flags) s fun s' offset => A.Owns [] s'.2 s' ∧
      (P.ops (view file.value)).openOp s.2 (view file.value) = .ok (s'.2, ⟨view file.value, offset⟩)

variable {A : Allocator H} {D : HeapDriver H W S I E} {P : Driver W S J B E} {view : I → J}
  {sizeofFile sizeofInode : Nat}
  {s : H × State W S (Handle I)} {path : Path} {flags : CInt} {m : Mountpoint S} {fs : S} {cur : Held I}

theorem forget_world (t : State W S (Handle I)) : (forget view t).world = t.world := rfl

theorem getFreeFlides_forget (t : State W S (Handle I)) :
    Vfs.getFreeFlides (forget view t).flides = getFreeFlides true t.flides := by
  simp only [getFreeFlides, if_true, Vfs.getFreeFlides, forget, Vector.toList_map, List.findIdx?_map]
  congr 1
  funext slot
  cases slot <;> rfl

theorem install_models (models : Models A D P view) (own : A.Owns [] s.2 s) :
    Leaves Access.Frees (install A sizeofFile D true cur flags) s fun s' fd => A.Owns [] s'.2 s' ∧
      Vfs.install P (forget view s.2) (view cur.value) = .ok (forget view s'.2, fd) := by
  apply leaves_inspect_bind
  intro findex slot
  have free : Vfs.getFreeFlides (forget view s.2).flides = some findex := by
    rw [getFreeFlides_forget]
    cases free : getFreeFlides true s.2.flides with
    | none =>
      rw [free] at slot
      cases slot
    | some i =>
      rw [free] at slot
      exact congrArg some (Except.ok.inj slot)
  apply (malloc_leaves own).bind
  intro s' file _ own
  apply leaves_use_bind
  intro _
  have own' : A.Owns [] s'.2 s' := own.world ▸ own.drop (List.sublist_cons_self _ _)
  apply (onWorld_leaves (fun own => models.openOp own) own').bind
  rintro _ offset - ⟨t, ⟨own'', opened⟩, rfl⟩
  apply leaves_change_bind
  refine .pure ⟨own''.withWorld _, ?_⟩
  have opened' : (P.ops (view cur.value)).openOp (forget view s.2).world (view cur.value) =
      .ok (t.2, ⟨view cur.value, offset⟩) := by
    rw [← opened, own.world]
    rfl
  simp only [Vfs.install, free, opened', method, Except.mapError, bind, Except.bind]
  rw [own.world]
  simp [forget, spinUnlock, State.setFile, Vector.map_setIfInBounds]

theorem resolve_found {t : State W S J} {found : Option J} (mounted : t.mountAt (E := E) (getMount t.mpt path) = .ok m)
    (here : m.fs = some fs) (looked : P.lookup fs t.world (path.drop m.path.length) = .ok found) :
    resolve P t path = .ok found := by
  simp only [resolve, mounted, here, looked, method, Except.mapError, bind, Except.bind]

theorem refuse_models (own : A.Owns [] s.2 s) :
    Leaves Access.Frees (refuse : HeapProgram H (State W S (Handle I)) (Stop E) Int) s fun s' fd => A.Owns [] s'.2 s' ∧
      (.ok (spinUnlock (forget view s.2), -1) : Except (Stop E) _) = .ok (forget view s'.2, fd) := by
  apply leaves_change_bind
  exact .pure ⟨own.withWorld _, rfl⟩

/-- The second lookup, of a file that was made. -/
theorem installFound_models (models : Models A D P view)
    (mounted : s.2.mountAt (E := E) (getMount s.2.mpt path) = .ok m)
    (here : m.fs = some fs) (own : A.Owns [] s.2 s) :
    Leaves Access.Frees (do
      let cur ← onWorld (D.lookup fs (path.drop m.path.length))
      match cur with
      | some cur => install A sizeofFile D true cur flags
      | none => refuse) s fun s' fd => A.Owns [] s'.2 s' ∧ (do
        match ← resolve P (forget view s.2) path with
        | some cur => Vfs.install P (forget view s.2) cur
        | none => .ok (spinUnlock (forget view s.2), -1)) = .ok (forget view s'.2, fd) := by
  apply (onWorld_leaves (fun own => models.lookup own) own).bind
  rintro _ cur - ⟨t, ⟨own, looked⟩, rfl⟩
  have mounted' : (forget view s.2).mountAt (E := E) (getMount (forget view s.2).mpt path) = .ok m := mounted
  have world : ({ s.2 with world := t.2 } : State W S (Handle I)) = s.2 := by rw [own.world]
  rw [world, resolve_found mounted' here looked]
  cases cur with
  | some cur => exact install_models models (own.withWorld _)
  | none => exact refuse_models (own.withWorld _)

/-- A call that returns does to the disks and descriptors what the call without a heap does, and returns the same. -/
theorem vfsOpen_models (models : Models A D P view) (own : A.Owns [] s.2 s) :
    Leaves Access.Frees (vfsOpen A sizeofFile D true path flags) s fun s' fd => A.Owns [] s'.2 s' ∧
      Vfs.vfsOpen P (forget view s.2) path (decide (flags &&& oCreat ≠ 0)) = .ok (forget view s'.2, fd) := by
  apply spinLock_leaves.bind
  rintro _ _ - ⟨rfl, free⟩
  have locked : Vfs.spinLock (E := E) (forget view s.2) = .ok (forget view { s.2 with lockVfs := true }) := by
    rw [Vfs.spinLock, if_neg (show ¬(forget view s.2).lockVfs = true from Bool.eq_false_iff.mp free)]
    rfl
  rw [Vfs.vfsOpen, locked, ok_bind]
  clear locked
  generalize ({ s.2 with lockVfs := true } : State W S (Handle I)) = l
  apply leaves_inspect_bind
  intro m mounted
  cases here : m.fs with
  | none => exact .stop
  | some fs =>
    apply (onWorld_leaves (fun own => models.lookup own) (own.withWorld l)).bind
    rintro _ cur - ⟨t, ⟨own, looked⟩, rfl⟩
    have mounted' : (forget view l).mountAt (E := E) (getMount (forget view l).mpt path) = .ok m := mounted
    have world : ({ l with world := t.2 } : State W S (Handle I)) = l := by rw [own.world]
    simp only [world, resolve_found mounted' here looked, bind, Except.bind]
    cases cur with
    | some cur => exact install_models models (own.withWorld _)
    | none =>
      by_cases creat : flags &&& oCreat ≠ 0
      · simp only [Option.map_none, decide_eq_true creat, if_pos creat, if_true, mounted', here, Option.bind_some]
        have same := models.create fs
        generalize D.create fs = create at same
        generalize P.create fs = create' at same
        cases same with
        | none => exact refuse_models (own.withWorld _)
        | some same =>
          apply (onWorld_leaves (fun own => same _ _ own) (own.withWorld l)).bind
          rintro _ ret - ⟨t', ⟨own', created⟩, rfl⟩
          simp only [forget_world, method, created, Except.mapError]
          by_cases made : ret = 0
          · simp only [if_pos made]
            exact installFound_models models (s := (t'.1, { l with world := t'.2 })) mounted here (own'.withWorld _)
          · simp only [if_neg made]
            exact refuse_models (own'.withWorld _)
      · simp only [Option.map_none, decide_eq_false creat, if_neg creat, Bool.false_eq_true, if_false]
        exact refuse_models (own.withWorld _)

/-- Those of ext2 do what ext2 does. -/
theorem ext2Ops_models {R : Type} [DecidableEq R] {before : Byte} :
    Models A (ext2Ops A sizeofInode) (ext2Driver before) fun i : Ext2Inode R => (i.disk, i.inode) where
  lookup {d path s} own := by
    refine (ext2Lookup_leaves own).mono fun s' cur ⟨same, ⟨block, _, own⟩, found, looked⟩ => ⟨?_, ?_⟩
    · exact same ▸ own.drop (List.sublist_cons_self _ _)
    · simp only [ext2Driver, looked, bind, Except.bind]
      cases cur with
      | none => rfl
      | some cur => simp only [Option.map_some, (found cur rfl).2]
  create d := .some fun _ _ own => ext2Create_leaves own
  openOp own := by
    apply leaves_use_bind
    intro _
    exact .pure ⟨own, rfl⟩

end OsLabs.Vfs.Blocks

import OsLabs.Data.Heap
import OsLabs.Util.Number
import OsLabs.Vfs.Disks

/-!
# Access

`vfs_access` asks the file system for the whole path, and its conditions join the
words with `|`, so that none of them is ever false.
-/

namespace OsLabs.Vfs
open Util

def rOk : CInt := 1
def wOk : CInt := 2
def xOk : CInt := 8
def fOk : CInt := 16

/-- The conditions of `vfs_access` on the permission of `cur`, which is `none` for `NULL`. -/
def accessValue (mode : CInt) (permission : Option (BitVec 16)) : Int :=
  match permission with
  | none => if mode ||| fOk ≠ 0 then -1 else 0
  | some permission =>
    let permission := permission.setWidth 32
    if mode ||| fOk ≠ 0 ∧ permission ||| rOk ≠ 0 then -1
    else if mode ||| fOk ≠ 0 ∧ permission ||| wOk ≠ 0 then -1
    else if mode ||| fOk ≠ 0 ∧ permission ||| xOk ≠ 0 then -1
    else 0

variable {W S I B E : Type}

/-- The `permission` of an inode, and the block that a lookup gives it in. -/
structure InodeView (I : Type) where
  permission : I → BitVec 16
  block : I → Ptr

section

variable (D : Driver W S I B E) (V : InodeView I) (s : State W S I) (path : Path) (mode : CInt)

/-- What `lookup` of the file system of a path finds under the whole path. -/
def lookupWhole : Except (Stop E) (Option I) := do
  let m ← s.mountAt (getMount s.mpt path)
  match m.fs with
  | some fs => method (D.lookup fs s.world path)
  | none => .error .null

/-- The value returned, and the pointer freed. -/
def vfsAccess : Except (Stop E) (Int × Ptr) := do
  let cur ← lookupWhole D s path
  .ok (accessValue mode (cur.map V.permission), cur.elim .null V.block)

/-- The path names an inode with every permission that is asked for. -/
def Allowed : Prop := ∃ i, resolve D s path = .ok (some i) ∧
  ∀ bit ∈ [rOk, wOk, xOk], mode &&& bit ≠ 0 → (V.permission i).setWidth 32 &&& bit ≠ 0

def AccessAnswers : Prop := ∃ ret freed, vfsAccess D V s path mode = .ok (ret, freed) ∧
  (Allowed D V s path mode → ret = 0) ∧ (¬Allowed D V s path mode → ret = -1) ∧
  ∃ i, lookupWhole D s path = .ok (some i) ∧ freed = V.block i

end

variable {D : Driver W S I B E} {V : InodeView I} {s : State W S I} {path : Path} {mode : CInt}

theorem or_ne_zero {x bit : CInt} (set : bit ≠ 0) : x ||| bit ≠ 0 := by
  intro zero
  exact set (BitVec.or_eq_zero_iff.mp zero).2

/-- Whatever is asked for, and of whatever inode. -/
theorem accessValue_eq (mode : CInt) (permission : Option (BitVec 16)) : accessValue mode permission = -1 := by
  cases permission with
  | none => exact if_pos (or_ne_zero (by decide))
  | some permission => exact if_pos ⟨or_ne_zero (by decide), or_ne_zero (by decide)⟩

theorem vfsAccess_found {cur : Option I} (found : lookupWhole D s path = .ok cur) :
    vfsAccess D V s path mode = .ok (-1, cur.elim .null V.block) := by
  rw [vfsAccess, found, ← accessValue_eq mode (cur.map V.permission)]
  rfl

/-- The call answers as expected exactly when the whole path is found, and no inode with the permissions is named. -/
theorem vfsAccess_answers (D : Driver W S I B E) (V : InodeView I) (s : State W S I) (path : Path) (mode : CInt) :
    AccessAnswers D V s path mode ↔ (∃ i, lookupWhole D s path = .ok (some i)) ∧ ¬Allowed D V s path mode := by
  constructor
  · rintro ⟨ret, freed, done, granted, -, i, found, -⟩
    refine ⟨⟨i, found⟩, fun allowed => ?_⟩
    rw [vfsAccess_found found] at done
    have denied := (Prod.mk.inj (Except.ok.inj done)).1
    rw [granted allowed] at denied
    cases denied
  · rintro ⟨⟨i, found⟩, refused⟩
    exact ⟨-1, V.block i, vfsAccess_found found, fun allowed => absurd allowed refused, fun _ => rfl, i, found, rfl⟩

def ext2View : InodeView (Unit × Ext2.VfsInode) := ⟨fun i => BitVec.ofNat 16 i.2.permission, fun _ => .block 4096⟩

/-- On a fresh disk "/." can be read, and is looked up as it stands, which the root has no entry for. -/
theorem vfsAccess_answers_counterexample : ∃ dev gid, Ext2.ext2Init (fun _ => 0) 0 [] = .ok (dev, gid) ∧
    ¬AccessAnswers (ext2Driver 0) ext2View (rootState dev gid) (slash :: Ext2.dot) rOk := by
  have run : (do
      let (dev, gid) ← Ext2.ext2Init (fun _ => 0) 0 []
      let missing := match lookupWhole (ext2Driver 0) (rootState dev gid) (slash :: Ext2.dot) with
        | .ok none => true
        | _ => false
      .ok missing) = (.ok true : Except Ext2.Fault Bool) := by
    decide +kernel
  obtain ⟨⟨dev, gid⟩, fresh, run⟩ := bind_ok run
  have missing := Except.ok.inj run
  refine ⟨dev, gid, fresh, ?_⟩
  rintro ⟨ret, freed, -, -, -, i, found, -⟩
  rw [found] at missing
  cases missing

end OsLabs.Vfs

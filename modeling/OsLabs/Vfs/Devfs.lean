import OsLabs.Pmm.Allocator
import OsLabs.Util.Number
import OsLabs.Vfs.Files

/-!
# devfs

`devfs_lookup` and the three tables of names it depends on: those that `checkdevice`
accepts, the registered devices, and the text that a read of the directory gives. They
differ in two names, and the exit for a name that is not accepted frees the wrong
pointer.
-/

namespace OsLabs.Vfs
open Program Util

def devfsDevices : List Path := [cstr "tty1", cstr "tty2", cstr "tty3", cstr "tyy4", cstr "ramdisk0", cstr "ramdiskm1"]

def checkdevice (name : Path) : Bool := devfsDevices.any fun device => name = device

/-- `device_t`, as far as `devfs_lookup` reads it. -/
structure DevfsDevice where
  name : Path
  id : Nat
  deriving DecidableEq, Repr

def devices : List DevfsDevice := [
  ⟨cstr "ramdisk0", 1⟩, ⟨cstr "ramdisk1", 2⟩, ⟨cstr "input", 1⟩, ⟨cstr "fb", 1⟩,
  ⟨cstr "tty1", 1⟩, ⟨cstr "tty2", 2⟩, ⟨cstr "tty3", 3⟩, ⟨cstr "tty4", 4⟩]

inductive DevfsFault where
  | panic
  deriving DecidableEq, Repr

/-- `dev_lookup` returns no `NULL`: it panics first. -/
def devLookup (name : Path) : Except DevfsFault DevfsDevice :=
  match devices.find? fun device => device.name = name with
  | some device => .ok device
  | none => .error .panic

/-- `inode_t` of devfs; `fs_inode` is the device. -/
structure DevfsInode where
  id : Nat
  fsInode : Option DevfsDevice
  type : FileType
  dirLen : Nat
  permission : Nat
  size : Nat
  linkNum : Nat
  deriving DecidableEq, Repr

/-- The end of `devfs_lookup`, for a name that was found. -/
def devfsInode (id : Nat) (fsInode : Option DevfsDevice) (type : FileType) (dirLen : Nat) : DevfsInode :=
  ⟨id, fsInode, type, dirLen, 3, 0, 1⟩

/-- `dev`, the module object. -/
def devModule : Ptr := .object 0

variable {H : Type} (A : Allocator H) (sizeofInode : Nat)

/-- `return ret;`: without a block that is `NULL` too. -/
def returned (ret : Ptr) (inode : DevfsInode) : Option (Ptr × DevfsInode) :=
  if ret = .null then none else some (ret, inode)

/-- The inode with its block; `none` is the return of `NULL`. The first two lines are `balloc`, which does not test for
`NULL`, and nor does what follows. -/
def devfsLookup (name : Path) : HeapProgram H Unit DevfsFault (Option (Ptr × DevfsInode)) := do
  let ret ← A.malloc (sizeofInode + 1)
  A.touch ret
  if name = [] ∨ name = cstr "." ∨ name = cstr ".." then do
    A.touch ret
    pure (returned ret (devfsInode 0 none .dr 8))
  else if checkdevice name = false then do
    A.mfree devModule
    pure none
  else do
    let tmp ← lift (devLookup name)
    A.touch ret
    pure (returned ret
      (devfsInode tmp.id (some tmp) (if (cstr "ramdisk").isPrefixOf name then .dvBlock else .dvChar) 0))

def devfsLs : List Byte := cstr ".\n..\ntty1\ntty2\ntty3\ntty4\nramdisk0\nramdisk1\n"

def textLines (text : List Byte) : List Path := (text.splitOn 10).dropLast

structure LooksUpDevice (h : H) (name : Path) : Prop where
  noPanic : ((devfsLookup A sizeofInode name).run (h, ())).result ≠ .error .panic
  listed : name ∈ textLines devfsLs →
    ∃ s inode, ((devfsLookup A sizeofInode name).run (h, ())).result = .ok (s, some inode)
  clean : ∀ s, ((devfsLookup A sizeofInode name).run (h, ())).result = .ok (s, none) → A.live s.1 = A.live h ∧
    Within Access.Frees (devfsLookup A sizeofInode name) (h, ())

def devfsNames : List Path := [[], cstr ".", cstr "..", cstr "tty1", cstr "tty2", cstr "tty3", cstr "ramdisk0"]

variable {A} {sizeofInode} {h : H} {name : Path}

example : textLines devfsLs = [cstr ".", cstr "..", cstr "tty1", cstr "tty2", cstr "tty3", cstr "tty4", cstr "ramdisk0",
    cstr "ramdisk1"] := by decide

/-! ### The three exits -/

theorem devfsLookup_result : ((devfsLookup A sizeofInode name).run (h, ())).result =
    if name = [] ∨ name = cstr "." ∨ name = cstr ".." then
      .ok (((A.alloc h (sizeofInode + 1)).1, ()),
        returned ((A.alloc h (sizeofInode + 1)).2.elim .null .block) (devfsInode 0 none .dr 8))
    else if checkdevice name = false then
      .ok ((A.free (A.alloc h (sizeofInode + 1)).1 devModule, ()), none)
    else (devLookup name).map fun tmp => (((A.alloc h (sizeofInode + 1)).1, ()),
      returned ((A.alloc h (sizeofInode + 1)).2.elim .null .block)
        (devfsInode tmp.id (some tmp) (if (cstr "ramdisk").isPrefixOf name then .dvBlock else .dvChar) 0)) := by
  rw [devfsLookup, result_bind_ok (A.malloc_result (s := (h, ()))), result_bind_ok rfl]
  split
  · rfl
  · split
    · rfl
    · rw [Computes.result_bind (Computes.lift _)]
      cases devLookup name with
      | error e => rfl
      | ok tmp => rfl

/-- A name that is not accepted frees the module object. -/
theorem devfsLookup_frees (other : ¬(name = [] ∨ name = cstr "." ∨ name = cstr ".."))
    (refused : checkdevice name = false) :
    ¬Within Access.Frees (devfsLookup A sizeofInode name) (h, ()) := by
  intro within
  have rest := (within_bind.mp within).2 _ _ (A.malloc_result (s := (h, ())))
  have rest := (within_bind.mp rest).2 _ _ rfl
  rw [if_neg other, if_pos refused] at rest
  have freed := (within_bind.mp rest).1
  have live := (within_bind.mp freed).2 _ _ rfl
  cases within_issue.mp (within_bind.mp live).1

theorem devfsLookup_found (mem : name ∈ devfsNames) : ∃ inode, ((devfsLookup A sizeofInode name).run (h, ())).result =
    .ok (((A.alloc h (sizeofInode + 1)).1, ()),
      returned ((A.alloc h (sizeofInode + 1)).2.elim .null .block) inode) := by
  rw [devfsLookup_result]
  by_cases folder : name = [] ∨ name = cstr "." ∨ name = cstr ".."
  · exact ⟨_, if_pos folder⟩
  · have accepted : ¬checkdevice name = false ∧ ∃ tmp, devLookup name = .ok tmp := by
      obtain ⟨nonempty, dot, dotdot⟩ : name ≠ [] ∧ name ≠ cstr "." ∧ name ≠ cstr ".." := by simpa using folder
      simp only [devfsNames, List.mem_cons, List.not_mem_nil, or_false, nonempty, dot, dotdot, false_or] at mem
      rcases mem with rfl | rfl | rfl | rfl
      all_goals exact ⟨by decide, _, rfl⟩
    obtain ⟨accepted, tmp, found⟩ := accepted
    rw [if_neg folder, if_neg accepted, found]
    exact ⟨_, rfl⟩

/-- The two names that `checkdevice` accepts and no device has. -/
theorem devfsLookup_panics (folder : ¬(name = [] ∨ name = cstr "." ∨ name = cstr ".."))
    (accepted : ¬checkdevice name = false) (other : name ∉ devfsNames) :
    ((devfsLookup A sizeofInode name).run (h, ())).result = .error .panic := by
  have unknown : devLookup name = .error .panic := by
    simp only [checkdevice, Bool.not_eq_false, List.any_eq_true, decide_eq_true_eq] at accepted
    obtain ⟨device, mem, rfl⟩ := accepted
    simp only [devfsDevices, List.mem_cons, List.not_mem_nil, or_false] at mem
    rcases mem with rfl | rfl | rfl | rfl | rfl | rfl
    · exact absurd (by decide) other
    · exact absurd (by decide) other
    · exact absurd (by decide) other
    · rfl
    · exact absurd (by decide) other
    · rfl
  rw [devfsLookup_result, if_neg folder, if_neg accepted, unknown]
  rfl

/-- For the empty name nothing is freed. -/
theorem devfsLookup_keeps : Within Access.Frees (devfsLookup A sizeofInode []) (h, ()) := by
  have touched : ∀ (p : Ptr) (s : H × Unit), Within Access.Frees (A.touch p : HeapProgram H Unit DevfsFault Unit) s :=
    fun p s => within_bind.mpr ⟨within_look, fun _ _ _ => within_issue.mpr trivial⟩
  have taken : Within Access.Frees (A.malloc (sizeofInode + 1) : HeapProgram H Unit DevfsFault Ptr) (h, ()) := by
    refine within_bind.mpr ⟨within_look, fun _ _ _ => within_bind.mpr ⟨within_issue.mpr trivial, fun _ _ _ => ?_⟩⟩
    exact within_bind.mpr ⟨within_change, fun _ _ _ => within_pure⟩
  refine within_bind.mpr ⟨taken, fun s ret _ => within_bind.mpr ⟨touched ret s, fun s' _ _ => ?_⟩⟩
  rw [if_pos (Or.inl rfl)]
  exact within_bind.mpr ⟨touched ret s', fun _ _ _ => within_pure⟩

/-! ### Every name -/

/-- A lookup that is as expected found its name; the empty name apart, it had room for the inode. -/
theorem LooksUpDevice.found (looks : LooksUpDevice A sizeofInode h name) :
    name ∈ devfsNames ∧ ((A.alloc h (sizeofInode + 1)).2 = none → name = []) := by
  have mem : name ∈ devfsNames := by
    by_contra other
    by_cases folder : name = [] ∨ name = cstr "." ∨ name = cstr ".."
    · rcases folder with rfl | rfl | rfl
      all_goals exact other (by decide)
    · by_cases refused : checkdevice name = false
      · have done := @devfsLookup_result _ A sizeofInode h name
        rw [if_neg folder, if_pos refused] at done
        exact devfsLookup_frees folder refused (looks.clean _ done).2
      · exact looks.noPanic (devfsLookup_panics folder refused other)
  refine ⟨mem, fun full => ?_⟩
  by_contra nonempty
  have listed : name ∈ textLines devfsLs := by
    simp only [devfsNames, List.mem_cons, List.not_mem_nil, or_false, nonempty, false_or] at mem
    rcases mem with rfl | rfl | rfl | rfl | rfl | rfl
    all_goals decide
  obtain ⟨s, inode, done⟩ := looks.listed listed
  obtain ⟨_, done'⟩ := @devfsLookup_found _ A sizeofInode h name mem
  rw [done, full] at done'
  cases done'

/-- With room for the inode the lookup is as expected for exactly seven names, without it for the empty name only. -/
theorem devfs_looksUp (ok : A.Ok h) : LooksUpDevice A sizeofInode h name ↔
    name ∈ devfsNames ∧ ((A.alloc h (sizeofInode + 1)).2 = none → name = []) := by
  refine ⟨LooksUpDevice.found, ?_⟩
  rintro ⟨mem, empty⟩
  obtain ⟨inode, done⟩ := @devfsLookup_found _ A sizeofInode h name mem
  cases room : (A.alloc h (sizeofInode + 1)).2 with
  | none =>
    obtain rfl := empty room
    refine ⟨?_, fun listed => absurd listed (by decide), fun s none => ⟨?_, devfsLookup_keeps⟩⟩
    · rw [done]
      rintro ⟨⟩
    · have left : ((A.alloc h (sizeofInode + 1)).1, ()) = s := congrArg Prod.fst (Except.ok.inj (done.symm.trans none))
      rw [← left]
      exact (A.alloc_none ok (Prod.ext rfl room)).2
  | some a =>
    rw [room] at done
    refine ⟨?_, fun _ => ⟨_, _, done⟩, fun s none => ?_⟩
    · rw [done]
      rintro ⟨⟩
    · rw [done] at none
      cases none

/-- The heap `[256, 4096)` before the first request. -/
def freshHeap : Pmm.Heap × List Pmm.Block := (Pmm.listInit 8 (fun _ => 0) 256 4096, [])

/-- "tty1" with room for the inode, and in a heap that has none. -/
theorem devfs_looksUp_sample : LooksUpDevice (Pmm.pmm 8 256 4096 (by decide)) 48 freshHeap (cstr "tty1") ∧
    ¬LooksUpDevice (Pmm.pmm 8 256 4096 (by decide)) 4096 freshHeap (cstr "tty1") := by
  have ok : (Pmm.pmm 8 256 4096 (by decide)).Ok freshHeap := Pmm.listInit_inv (by decide) (by decide)
  have room : ((Pmm.pmm 8 256 4096 (by decide)).alloc freshHeap 49).2 ≠ none := by decide +kernel
  have full : ((Pmm.pmm 8 256 4096 (by decide)).alloc freshHeap 4097).2 = none := by decide +kernel
  refine ⟨(devfs_looksUp ok).mpr ⟨by decide, fun none => absurd none room⟩, fun looks => ?_⟩
  have empty := ((devfs_looksUp ok).mp looks).2 full
  cases empty

/-- "tyy4" is accepted, and no device has the name. -/
theorem devfs_looksUp_counterexample :
    ¬∀ name, LooksUpDevice (Pmm.pmm 8 256 4096 (by decide)) 48 freshHeap name := by
  intro all
  exact (all (cstr "tyy4")).noPanic (devfsLookup_panics (by decide) (by decide) (by decide))

end OsLabs.Vfs

import OsLabs.Ext2.Changes

/-!
# The file system is a store

Every run of calls on paths, of those that the single operations are right about,
answers as the abstract store does, and leaves the store that the device holds.
-/

namespace OsLabs.Ext2
open Util Function

/-! ### Calls -/

/-- The lookup of the directory goes through directories, component by component. -/
structure Proper (dev : Device) (dir : List (List Byte)) (c : List Byte) : Prop where
  components : (∀ d ∈ dir, Component d) ∧ Component c
  shallow : Shallow dev dir false
  searched : Searched dev (readInode dev 0) (dir ++ [c])

/-- The same for a path, which is that of a regular file if there is one. -/
structure Opens (dev : Device) (path : List (List Byte)) : Prop where
  components : ∀ c ∈ path, Component c
  shallow : Shallow dev path false
  searched : Searched dev (readInode dev 0) path
  normal : ∀ inode, inodeLookup dev (some (join path)) = .ok (some inode) → inode.type = NF

variable {dev dev' : Device} {parent : Nat → Nat} {entries : Nat → List Record} {k d n : Nat} {inode : Inode}
  {c name : List Byte} {dir cs path oldpath : List (List Byte)} {buf : List Byte} {s t : Volume} {offset : Int}
  {answer : Answer} {before : Byte}

/-! ### Lookups -/

namespace Whole

variable (W : Whole dev parent entries)
include W

end Whole

/-! ### One call -/

def Holds (s : Volume) : Prop := ∃ parent entries, Whole s.dev parent entries

theorem Proper.alldir (p : Proper dev dir c) : Util.alldir (some (join (dir ++ [c]))) = some (join dir) :=
  alldir_join p.components.2

theorem Proper.filename (p : Proper dev dir c) : Util.filename (some (join (dir ++ [c]))) = some c :=
  filename_join p.components.1 p.components.2

theorem Proper.plain (p : Proper dev dir c) : 0 ∉ join (dir ++ [c]) := by
  apply join_plain
  intro d mem
  rcases List.mem_append.mp mem with mem | mem
  · exact p.components.1 d mem
  · rw [List.mem_singleton.mp mem]
    exact p.components.2

theorem Proper.root (root : (readInode dev 0).type = DR) (component : Component c) : Proper dev [] c :=
  ⟨⟨fun d mem => absurd mem List.not_mem_nil, component⟩, fun trailing => absurd trailing (by decide), root,
    fun _ _ => trivial⟩

theorem Opens.root (root : (readInode dev 0).type = DR) (component : Component c)
    (found : inodeLookup dev (some c) = .ok (some inode)) (normal : inode.type = NF) : Opens dev [c] := by
  refine ⟨fun d mem => ?_, trivial, ⟨root, fun _ _ => trivial⟩, fun other looked => ?_⟩
  · rw [List.mem_singleton.mp mem]
    exact component
  · rw [Option.some.inj (Except.ok.inj (looked.symm.trans found))]
    exact normal

end OsLabs.Ext2

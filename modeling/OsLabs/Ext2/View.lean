import OsLabs.Data.Store
import OsLabs.Ext2.Names
import OsLabs.Util.PathBuffer

/-!
# The store on a device

Which files and folders a device holds: an item for every inode in use, a file with
its bytes and a directory with the names of its live records. A path that is looked
up through directories leads where it leads in the store.
-/

namespace OsLabs.Ext2
open Util Function

def nameIn (records : List Record) (c : List Byte) : Option Nat := (records.find? fun r => r.Names c).map Record.inode

def view (dev : Device) : Store Nat (List Byte) := fun k =>
  if k < mapBits ∧ readMap dev imap k = true then
    if (readInode dev k).type = DR then
      match dirRecords dev (readInode dev k) with
      | .ok records => some (.folder (nameIn records))
      | .error _ => none
    else some (.file (contents dev (readInode dev k)))
  else none

/-- A tree of directories without a name twice, where every inode has the blocks of its size. -/
structure Whole (dev : Device) (parent : Nat → Nat) (entries : Nat → List Record) : Prop extends Tree dev
    parent entries where
  distinct : ∀ d, DistinctNames (folderRecords d (parent d) (entries d))
  filled : ∀ k, Used dev k → (readInode dev k).len = blocks (readInode dev k).size

variable {dev dev' : Device} {parent : Nat → Nat} {entries : Nat → List Record} {k d offset : Nat} {inode : Inode}
  {records : List Record} {r : Record} {c name : List Byte} {dir cs : List (List Byte)} {buf : List Byte}

/-! ### Names -/

theorem named_eq : named records c = match nameIn records c with
    | some k => (k : Int)
    | none => -1 := by
  unfold named nameIn
  cases records.find? fun r => r.Names c <;> rfl

theorem nameIn_some (found : nameIn records c = some k) : ∃ r ∈ records, r.Names c ∧ r.inode = k := by
  obtain ⟨r, first, same⟩ := Option.map_eq_some_iff.mp found
  exact ⟨r, List.mem_of_find?_eq_some first, by simpa using List.find?_some first, same⟩

theorem nameIn_none (none : nameIn records c = none) : ∀ r ∈ records, ¬r.Names c := by
  intro r mem names
  have absent := List.find?_eq_none.mp (Option.map_eq_none_iff.mp none) r mem
  exact absent (decide_eq_true names)

theorem nameIn_absent (absent : ∀ r ∈ records, ¬r.Names c) : nameIn records c = none := by
  unfold nameIn
  rw [List.find?_eq_none.mpr fun r mem => by simpa using absent r mem]
  rfl

theorem DistinctNames.nameIn (h : DistinctNames records) (mem : r ∈ records) (live : r.Live) :
    nameIn records r.name = some r.inode := by
  cases found : Ext2.nameIn records r.name with
  | none => exact absurd ⟨live, rfl⟩ (nameIn_none found r mem)
  | some k =>
    obtain ⟨x, own, names, same⟩ := nameIn_some found
    rw [← same, h.eq own mem names.1 live names.2]

/-- A record that is appended enters its name. -/
theorem nameIn_append (live : r.Live) (absent : ∀ x ∈ records, ¬x.Names r.name) :
    nameIn (records ++ [r]) = update (nameIn records) r.name (some r.inode) := by
  funext c
  unfold nameIn
  rw [List.find?_append]
  by_cases same : c = r.name
  · subst same
    rw [update_self, List.find?_eq_none.mpr fun x mem => by simpa using absent x mem]
    have own : r.Names r.name := ⟨live, rfl⟩
    simp [own]
  · rw [update_of_ne same]
    have other : ¬r.Names c := fun names => same names.2.symm
    simp [other]

/-- A record that is removed leaves its name without an inode. -/
theorem nameIn_gone {before after : List Record} (h : DistinctNames (before ++ r :: after)) (live : r.Live) :
    nameIn (before ++ r.gone :: after) = update (nameIn (before ++ r :: after)) r.name none := by
  funext c
  by_cases same : c = r.name
  · subst same
    rw [update_self]
    exact nameIn_absent (absent_gone h live)
  · rw [update_of_ne same]
    have old : ¬r.Names c := fun names => same names.2.symm
    have new : ¬r.gone.Names c := fun names => names.1 rfl
    simp only [nameIn, List.find?_append, List.find?_cons, decide_eq_false old, decide_eq_false new]

theorem view_unused (unused : ¬Used dev k) : view dev k = none := if_neg unused

theorem view_file (used : Used dev k) (other : (readInode dev k).type ≠ DR) :
    view dev k = some (.file (contents dev (readInode dev k))) := by
  unfold view
  obtain ⟨low, marked⟩ := used
  rw [if_pos ⟨low, marked⟩, if_neg other]

namespace Whole

variable (W : Whole dev parent entries)
include W

theorem view_folder (folder : IsFolder dev k) :
    view dev k = some (.folder (nameIn (folderRecords k (parent k) (entries k)))) := by
  have records := (W.folder k folder).1.listed.dirRecords
  obtain ⟨⟨low, marked⟩, kind⟩ := folder
  unfold view
  rw [if_pos ⟨low, marked⟩, if_pos kind, records]

theorem child_folder (folder : IsFolder dev d) :
    (view dev).child d c = nameIn (folderRecords d (parent d) (entries d)) c := by
  unfold Store.child
  rw [W.view_folder folder]

theorem child_some (found : (view dev).child d c = some k) :
    IsFolder dev d ∧ Used dev k ∧ nameIn (folderRecords d (parent d) (entries d)) c = some k := by
  have folder : IsFolder dev d := by
    by_contra other
    have none : (view dev).child d c = none := by
      unfold Store.child
      by_cases used : Used dev d
      · rw [view_file used fun kind => other ⟨used, kind⟩]
      · rw [view_unused used]
    rw [none] at found
    cases found
  rw [W.child_folder folder] at found
  refine ⟨folder, ?_, found⟩
  obtain ⟨r, mem, names, rfl⟩ := nameIn_some found
  rcases List.mem_cons.mp mem with rfl | mem
  · exact folder.1
  rcases List.mem_cons.mp mem with rfl | mem
  · exact (W.folder d folder).2.1.1
  · exact W.named d r mem names.1

theorem dirLookup (folder : IsFolder dev d) (plain : 0 ∉ c) : Ext2.dirLookup dev (readInode dev d) c =
    .ok (match (view dev).child d c with
      | some k => (k : Int)
      | none => -1) := by
  rw [(W.folder d folder).1.listed.dirLookup plain, named_eq, W.child_folder folder]

/-- The names by which an item is entered are those of the records that name it. -/
theorem entry_iff : (view dev).Entry dot dotdot d c k ↔ ∃ r ∈ entries d, r.Live ∧ r.name = c ∧ r.inode = k := by
  constructor
  · intro ⟨found, own, above⟩
    obtain ⟨-, -, found⟩ := W.child_some found
    obtain ⟨r, mem, names, same⟩ := nameIn_some found
    rcases List.mem_cons.mp mem with rfl | mem
    · exact absurd names.2.symm own
    rcases List.mem_cons.mp mem with rfl | mem
    · exact absurd names.2.symm above
    · exact ⟨r, mem, names.1, names.2, same⟩
  · intro ⟨r, mem, live, name, same⟩
    subst name same
    have distinct := W.distinct d
    have inside : r ∈ folderRecords d (parent d) (entries d) := List.mem_cons_of_mem _ (List.mem_cons_of_mem _ mem)
    refine ⟨(W.child_folder (W.low_of_entry mem).1).trans (distinct.nameIn inside live), ?_, ?_⟩
    all_goals
      have entered : r.name ∈ ((entries d).filter (·.Live)).map Record.name :=
        List.mem_map_of_mem (List.mem_filter.mpr ⟨mem, decide_eq_true live⟩)
      obtain ⟨first, distinct⟩ := List.nodup_cons.mp (show (dot :: dotdot :: _).Nodup from distinct)
      obtain ⟨second, -⟩ := List.nodup_cons.mp distinct
    · intro own
      exact first (List.mem_cons_of_mem _ (own ▸ entered))
    · intro above
      exact second (above ▸ entered)

/-- A directory has entries exactly when it counts more than its first two. -/
theorem full_iff (folder : IsFolder dev d) :
    (∃ c j, (view dev).Entry dot dotdot d c j) ↔ 2 < (readInode dev d).dirLen := by
  rw [(W.folder d folder).1.dirLen]
  constructor
  · intro ⟨c, j, entry⟩
    obtain ⟨r, mem, live, -⟩ := W.entry_iff.mp entry
    have pos : 0 < (entries d).countP (·.Live) := List.countP_pos_iff.mpr ⟨r, mem, decide_eq_true live⟩
    omega
  · intro more
    obtain ⟨r, mem, live⟩ := List.countP_pos_iff.mp (show 0 < (entries d).countP (·.Live) by omega)
    exact ⟨r.name, r.inode, W.entry_iff.mpr ⟨r, mem, of_decide_eq_true live, rfl, rfl⟩⟩

theorem covered (used : Used dev k) : (readInode dev k).size ≤ (readInode dev k).len * blockBytes :=
  covered_of_filled (W.filled k used)

end Whole

/-! ### Paths -/

/-- Only directories are searched for the components. -/
def Searched (dev : Device) : Inode → List (List Byte) → Prop
  | _, [] => True
  | inode, c :: cs => inode.type = DR ∧ ∀ k : Nat, dirLookup dev inode c = .ok (k : Int) →
      Searched dev (readInode dev k) cs

theorem Searched.front (h : Searched dev inode (dir ++ [c])) : Searched dev inode dir := by
  induction dir generalizing inode with
  | nil => trivial
  | cons d dir ih => exact ⟨h.1, fun k found => ih (h.2 k found)⟩

theorem alldir_join (last : Component c) : alldir (some (join (dir ++ [c]))) = some (join dir) := by
  by_cases top : dir = []
  · subst top
    exact PathBuffer.alldir_plain last.1 last.2.1
  · rw [join_snoc dir top]
    exact PathBuffer.alldir_split last.2.1

theorem filename_join (all : ∀ d ∈ dir, Component d) (last : Component c) :
    filename (some (join (dir ++ [c]))) = some c := by
  rcases dir with _ | ⟨d, dir⟩
  · obtain ⟨b, tail, rfl⟩ := List.exists_cons_of_ne_nil last.1
    exact PathBuffer.filename_plain fun mem => last.2.1 (List.mem_cons_of_mem b mem)
  · rw [join_snoc _ (List.cons_ne_nil d dir)]
    exact PathBuffer.filename_split (join_ne_nil (all d List.mem_cons_self)) last.2.1

theorem join_plain (all : ∀ d ∈ cs, Component d) : 0 ∉ join cs := by
  induction cs with
  | nil => exact List.not_mem_nil
  | cons c cs ih =>
    have first := (all c List.mem_cons_self).2.2
    have rest := ih fun d mem => all d (List.mem_cons_of_mem c mem)
    rcases cs with _ | ⟨d, cs⟩
    · exact first
    · rw [join_cons_cons]
      intro mem
      rcases List.mem_append.mp mem with mem | mem
      · exact first mem
      rcases List.mem_cons.mp mem with zero | mem
      · exact absurd zero (by decide)
      · exact rest mem

namespace Whole

variable (W : Whole dev parent entries)
include W

/-- A path that is searched in directories leads where it leads in the store. -/
theorem walk_eq (used : Used dev k) (all : ∀ c ∈ cs, Component c) (searched : Searched dev (readInode dev k) cs) :
    walk dev (readInode dev k) cs = .ok (((view dev).resolve k cs).map (readInode dev)) ∧
      ∀ j, (view dev).resolve k cs = some j → Used dev j := by
  induction cs generalizing k with
  | nil =>
    refine ⟨rfl, fun j found => ?_⟩
    obtain rfl := Option.some.inj found
    exact used
  | cons c cs ih =>
    have plain := (all c List.mem_cons_self).2.2
    have here : IsFolder dev k := ⟨used, searched.1⟩
    have found := W.dirLookup here plain
    simp only [Ext2.walk, Store.resolve, found, bind, Except.bind]
    cases lead : (view dev).child k c with
    | none =>
      rw [if_neg (by decide)]
      exact ⟨rfl, fun j none => absurd none (by simp)⟩
    | some j =>
      rw [lead] at found
      simp only [Option.bind_some]
      rw [if_pos (Int.natCast_nonneg j), Int.toNat_natCast]
      exact ih (W.child_some lead).2.1 (fun d mem => all d (List.mem_cons_of_mem c mem)) (searched.2 j found)

end Whole

end OsLabs.Ext2

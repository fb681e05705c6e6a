import Mathlib.Logic.Function.Basic
import OsLabs.Data.Buffer
import OsLabs.Data.Machine

/-!
# Files under names

What a file system is for: files of bytes and folders of names, and what the calls on
paths answer. A file goes with the last of its names, a folder only once it is empty.
-/

namespace OsLabs
open Function

inductive Item (Id Name : Type*) where
  | file (content : List Byte)
  | folder (names : Name → Option Id)

abbrev Store (Id Name : Type*) := Id → Option (Item Id Name)

inductive Kind where
  | file | folder

/-- The calls, on the path of an item or on a name of the folder `dir`. -/
inductive FileCall (Name : Type*) where
  | make (dir : List Name) (c : Name) (kind : Kind)
  | link (oldpath dir : List Name) (c : Name)
  | rm (dir : List Name) (c : Name)
  | write (path : List Name) (offset : Int) (buf : List Byte)
  | read (path : List Name) (offset : Int) (n : Nat)

/-- The value returned, and for a read what it stores in the buffer. -/
inductive Answer where
  | ret (value : Int)
  | bytes (stored : List Byte) (value : Int)
  deriving DecidableEq

variable {Id Name : Type*} [DecidableEq Id] [DecidableEq Name]

/-- A new item of folder `d`; a folder has one name for itself and one for the folder above. -/
def Item.new (own up : Name) (k d : Id) : Kind → Item Id Name
  | .file => .file []
  | .folder => .folder (update (update (fun _ => none) up (some d)) own (some k))

namespace Store

/-- An offset that is set is kept inside the file. -/
def clip (offset : Int) (size : Nat) : Nat := (max (min offset size) 0).toNat

/-- A read ends what it stores with a line end, if there is none, and a NUL; `before` is the byte in front of the
buffer. -/
def line (before : Byte) (bytes : List Byte) : List Byte :=
  bytes ++ if bytes.getLast?.getD before ≠ 10 then [10, 0] else [0]

omit [DecidableEq Id] [DecidableEq Name] in
section

def child (s : Store Id Name) (i : Id) (c : Name) : Option Id :=
  match s i with
  | some (.folder names) => names c
  | _ => none

def resolve (s : Store Id Name) (i : Id) : List Name → Option Id
  | [] => some i
  | c :: cs => (s.child i c).bind fun j => s.resolve j cs

/-- The item is entered under the name, by which no folder names itself or the one above. -/
def Entry (own up : Name) (s : Store Id Name) (d : Id) (c : Name) (k : Id) : Prop :=
  s.child d c = some k ∧ c ≠ own ∧ c ≠ up

end

def rename (s : Store Id Name) (d : Id) (c : Name) (target : Option Id) : Store Id Name :=
  match s d with
  | some (.folder names) => update s d (some (.folder (update names c target)))
  | _ => s

variable {s : Store Id Name} {d : Id} {names : Name → Option Id} {c : Name} {target : Option Id}

theorem rename_folder (folder : s d = some (.folder names)) :
    s.rename d c target = update s d (some (.folder (update names c target))) := by
  unfold rename
  rw [folder]

/-- What a call answers, and the store that it leaves. -/
inductive Serves (own up : Name) (root : Id) : Store Id Name → FileCall Name × Answer → Store Id Name → Prop where
  | makeMissing {s dir c kind} (missing : s.resolve root dir = none) :
      Serves own up root s (.make dir c kind, .ret (-1)) s
  | make {s dir c kind d t names} (found : s.resolve root dir = some d) (folder : s d = some (.folder names))
      (unused : names c = none) (other : c ≠ own ∧ c ≠ up) (fresh : s t = none) :
      Serves own up root s (.make dir c kind, .ret 0) (update (s.rename d c (some t)) t (some (.new own up t d kind)))
  | linkMissing {s oldpath dir c} (missing : s.resolve root oldpath = none) :
      Serves own up root s (.link oldpath dir c, .ret (-1)) s
  | link {s oldpath dir c d k names content} (file : s.resolve root oldpath = some k)
      (normal : s k = some (.file content))
      (found : s.resolve root dir = some d) (folder : s d = some (.folder names)) (unused : names c = none)
      (other : c ≠ own ∧ c ≠ up) :
      Serves own up root s (.link oldpath dir c, .ret 0) (s.rename d c (some k))
  | rmMissing {s dir c} (missing : ∀ d, s.resolve root dir = some d → s.child d c = none) :
      Serves own up root s (.rm dir c, .ret (-1)) s
  | rmFull {s dir c d k} (found : s.resolve root dir = some d) (named : s.child d c = some k)
      (full : ∃ c' j, s.Entry own up k c' j) : Serves own up root s (.rm dir c, .ret (-1)) s
  | unlink {s dir c d k} (found : s.resolve root dir = some d) (named : s.Entry own up d c k)
      (empty : ∀ c' j, ¬s.Entry own up k c' j) (more : ∃ e c', (s.rename d c none).Entry own up e c' k) :
      Serves own up root s (.rm dir c, .ret 0) (s.rename d c none)
  | remove {s dir c d k} (found : s.resolve root dir = some d) (named : s.Entry own up d c k)
      (empty : ∀ c' j, ¬s.Entry own up k c' j) (last : ∀ e c', ¬(s.rename d c none).Entry own up e c' k) :
      Serves own up root s (.rm dir c, .ret 0) (update (s.rename d c none) k none)
  | writeMissing {s path offset buf} (missing : s.resolve root path = none) :
      Serves own up root s (.write path offset buf, .ret (-1)) s
  | write {s path offset buf k content} (found : s.resolve root path = some k) (normal : s k = some (.file content)) :
      Serves own up root s (.write path offset buf, .ret buf.length)
        (update s k (some (.file (pwrite content (clip offset content.length) buf))))
  | readMissing {s path offset n} (missing : s.resolve root path = none) :
      Serves own up root s (.read path offset n, .ret (-1)) s
  | read {s path offset n k content} (found : s.resolve root path = some k) (normal : s k = some (.file content))
      (before : Byte) : Serves own up root s (.read path offset n,
        .bytes (line before ((content.drop (clip offset content.length)).take n)) 0) s

def machine (own up : Name) (root : Id) : Machine (Store Id Name) (FileCall Name × Answer) where
  Init s := s = update (fun _ => none) root (some (.new own up root root .folder))
  Step := Serves own up root

/-! ### Every item has a path -/

/-- A path of entries leads from the root to the item. -/
inductive Under (own up : Name) (root : Id) (s : Store Id Name) : Id → Prop where
  | top : Under own up root s root
  | entry {d k : Id} {c : Name} : Under own up root s d → s.Entry own up d c k → Under own up root s k

/-- The root is a folder that is entered nowhere, and every item has a path. -/
structure Rooted (own up : Name) (root : Id) (s : Store Id Name) : Prop where
  folder : ∃ names, s root = some (.folder names)
  top : ∀ d c, ¬s.Entry own up d c root
  under : ∀ k, s k ≠ none → Under own up root s k

variable {own up : Name} {root k t e : Id} {s' : Store Id Name} {kind : Kind} {c' : Name} {content : List Byte}

omit [DecidableEq Id] [DecidableEq Name] in
theorem child_folder (found : s.child d c = some k) : ∃ names, s d = some (.folder names) := by
  unfold child at found
  split at found
  · exact ⟨_, by assumption⟩
  · cases found

omit [DecidableEq Id] [DecidableEq Name] in
theorem Under.mono (h : Under own up root s k) (kept : ∀ d c j, s.Entry own up d c j → s'.Entry own up d c j) :
    Under own up root s' k := by
  induction h with
  | top => exact .top
  | entry _ entry ih => exact ih.entry (kept _ _ _ entry)

namespace Rooted

variable (h : Rooted own up root s)
include h

omit [DecidableEq Id] [DecidableEq Name] in
/-- An item gets an entry. -/
theorem grow (folder : ∃ names, s' root = some (.folder names)) (there : s d ≠ none) (other : t ≠ root)
    (entries : ∀ e c' j, s'.Entry own up e c' j ↔ s.Entry own up e c' j ∨ e = d ∧ c' = c ∧ j = t)
    (items : ∀ j, s' j ≠ none → s j ≠ none ∨ j = t) : Rooted own up root s' where
  folder := folder
  top e c' entry := by
    rcases (entries e c' root).mp entry with old | ⟨-, -, rfl⟩
    · exact h.top e c' old
    · exact other rfl
  under j item := by
    have kept {j : Id} (under : Under own up root s j) : Under own up root s' j :=
      under.mono fun e c' i entry => (entries e c' i).mpr (.inl entry)
    rcases items j item with old | rfl
    · exact kept (h.under j old)
    · exact (kept (h.under d there)).entry ((entries d c j).mpr (.inr ⟨rfl, rfl, rfl⟩))

end Rooted

end Store

end OsLabs

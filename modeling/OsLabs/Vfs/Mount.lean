import OsLabs.Data.Machine
import OsLabs.Data.Memory

/-!
# The mount table

`vfs_mount`, `vfs_unmount` and `get_mount` on the table of `MAXMP` slots. The slots
stand for a partial map from paths to file systems, and `get_mount` chooses by it
alone.
-/

namespace OsLabs.Vfs

abbrev Path := List Byte

structure Mountpoint (F : Type) where
  path : Path
  fs : Option F
  exist : Bool

def maxMounts : Nat := 64

abbrev Table (F : Type) := Vector (Mountpoint F) maxMounts

variable {F : Type}

def emptyTable : Table F := Vector.replicate maxMounts ⟨[], none, false⟩

/-- The loop of `vfs_mount` from slot `i` on: `none` is the return of -1, else the free slot found. -/
def mountLoop (path : Path) : List (Mountpoint F) → Nat → Option Nat → Option (Option Nat)
  | [], _, index => some index
  | m :: ms, i, index =>
    if index = none ∧ m.exist = false then mountLoop path ms (i + 1) (some i)
    else if m.exist = true ∧ m.path = path then none
    else mountLoop path ms (i + 1) index

/-- The table and the value returned; `none` is a store to `mpt[-1]`. -/
def mount (t : Table F) (path : Path) (fs : Option F) : Option (Table F × Int) :=
  match mountLoop path t.toList 0 none with
  | none => some (t, -1)
  | some none => none
  | some (some index) => some (t.setIfInBounds index ⟨path, fs, true⟩, 0)

def unmount (t : Table F) (path : Path) : Table F × Int :=
  (t.map fun m => if m.exist = true ∧ m.path = path then { m with exist := false } else m,
    if t.toList.any fun m => m.exist = true ∧ m.path = path then 0 else -1)

def getMountLoop (path : Path) : List (Mountpoint F) → Nat → Int → Nat → Int
  | [], _, index, _ => index
  | m :: ms, i, index, len =>
    if m.exist = true ∧ m.path.isPrefixOf path = true ∧ len < m.path.length then
      getMountLoop path ms (i + 1) i m.path.length
    else getMountLoop path ms (i + 1) index len

def getMount (t : Table F) (path : Path) : Int := getMountLoop path t.toList 0 (-1) 0

/-! ### The map that the table stands for -/

def Mounted (t : Table F) (path : Path) (fs : Option F) : Prop :=
  ∃ m ∈ t.toList, m.exist = true ∧ m.path = path ∧ m.fs = fs

def Distinct (t : Table F) : Prop :=
  ∀ (i j : Nat) (m m' : Mountpoint F), t.toList[i]? = some m → t.toList[j]? = some m' →
    m.exist = true → m'.exist = true → m.path = m'.path → i = j

variable {t t' : Table F} {path p : Path} {fs f : Option F} {ms : List (Mountpoint F)} {m : Mountpoint F} {i len : Nat}
  {index : Option Nat}

theorem distinct_empty : Distinct (emptyTable : Table F) := by
  intro i j m m' hi _ live
  have := List.mem_of_getElem? hi
  rw [emptyTable, Vector.toList_replicate] at this
  rw [List.eq_of_mem_replicate this] at live
  cases live

theorem slot_iff : (∃ m ∈ t.toList, m.exist = true ∧ m.path = path) ↔ ∃ f, Mounted t path f := by
  constructor
  · intro slot
    obtain ⟨m, mem, live, here⟩ := slot
    exact ⟨m.fs, m, mem, live, here, rfl⟩
  · intro mounted
    obtain ⟨f, m, mem, live, here, -⟩ := mounted
    exact ⟨m, mem, live, here⟩

/-! ### Mounting -/

/-- The loop finds a slot of the path, or else the first free slot. -/
theorem mountLoop_eq : mountLoop path ms i index =
    if (∃ m ∈ ms, m.exist = true ∧ m.path = path) then none
    else some (index.or ((ms.findIdx? fun m => m.exist = false).map (i + ·))) := by
  induction ms generalizing i index with
  | nil => cases index <;> simp [mountLoop]
  | cons m ms ih =>
    rw [mountLoop, List.findIdx?_cons]
    cases live : m.exist with
    | false =>
      cases index with
      | none => simp [ih, live]
      | some k => simp [ih, live]
    | true =>
      by_cases same : m.path = path
      · simp [live, same]
      · cases index <;> simp [ih, live, same, Function.comp_def, Nat.add_assoc, Nat.add_comm 1]

theorem mount_refused (h : Mounted t path f) : mount t path fs = some (t, -1) := by
  rw [mount, mountLoop_eq, if_pos (slot_iff.mpr ⟨f, h⟩)]

theorem mount_free (new : ∀ f, ¬Mounted t path f) (room : ∃ m ∈ t.toList, m.exist = false) :
    ∃ k m, t.toList[k]? = some m ∧ m.exist = false ∧
      mount t path fs = some (t.setIfInBounds k ⟨path, fs, true⟩, 0) := by
  have absent := mt slot_iff.mp (not_exists.mpr new)
  obtain ⟨k, hk⟩ : ∃ k, t.toList.findIdx? (fun m => m.exist = false) = some k := by
    cases found : t.toList.findIdx? (fun m => m.exist = false) with
    | some k => exact ⟨k, rfl⟩
    | none =>
      obtain ⟨m, mem, free⟩ := room
      have := List.findIdx?_eq_none_iff.mp found m mem
      simp [free] at this
  obtain ⟨inside, free, -⟩ := List.findIdx?_eq_some_iff_getElem.mp hk
  refine ⟨k, t.toList[k], List.getElem?_eq_getElem inside, by simpa using free, ?_⟩
  rw [mount, mountLoop_eq, if_neg absent, hk]
  simp

theorem mount_full (new : ∀ f, ¬Mounted t path f) (full : ∀ m ∈ t.toList, m.exist = true) : mount t path fs = none := by
  have absent := mt slot_iff.mp (not_exists.mpr new)
  have none : t.toList.findIdx? (fun m => m.exist = false) = none :=
    List.findIdx?_eq_none_iff.mpr fun m mem => by simp [full m mem]
  rw [mount, mountLoop_eq, if_neg absent, none]
  rfl

theorem mount_none_iff : mount t path fs = none ↔ (∀ f, ¬Mounted t path f) ∧ ∀ m ∈ t.toList, m.exist = true := by
  constructor
  · intro none
    have new : ∀ f, ¬Mounted t path f := by
      intro f mounted
      rw [mount_refused mounted] at none
      cases none
    refine ⟨new, fun m mem => ?_⟩
    by_contra free
    obtain ⟨k, m, -, -, done⟩ := @mount_free F t path fs new ⟨m, mem, by simpa using free⟩
    rw [done] at none
    cases none
  · rintro ⟨new, full⟩
    exact mount_full new full

theorem getElem?_set {k j : Nat} {new : Mountpoint F} (hk : k < t.toList.length) :
    (t.setIfInBounds k new).toList[j]? = if j = k then some new else t.toList[j]? := by
  rw [Vector.toList_setIfInBounds, List.getElem?_set]
  by_cases same : k = j
  · subst same
    have inside : k < maxMounts := by simpa using hk
    simp [inside]
  · rw [if_neg same, if_neg (Ne.symm same)]

theorem mounted_set {k : Nat} {new : Mountpoint F} (there : t.toList[k]? = some m) (free : m.exist = false)
    (live : new.exist = true) : Mounted (t.setIfInBounds k new) p f ↔ Mounted t p f ∨ (new.path = p ∧ new.fs = f) := by
  obtain ⟨inside, -⟩ := List.getElem?_eq_some_iff.mp there
  constructor
  · rintro ⟨m', mem, live', here, fs⟩
    obtain ⟨j, hj⟩ := List.mem_iff_getElem?.mp mem
    rw [getElem?_set inside] at hj
    split at hj
    · obtain rfl := Option.some.inj hj
      exact Or.inr ⟨here, fs⟩
    · exact Or.inl ⟨m', List.mem_of_getElem? hj, live', here, fs⟩
  · rintro (⟨m', mem, live', here, fs⟩ | ⟨here, fs⟩)
    · obtain ⟨j, hj⟩ := List.mem_iff_getElem?.mp mem
      have other : j ≠ k := by
        rintro rfl
        rw [there] at hj
        obtain rfl := Option.some.inj hj
        rw [free] at live'
        cases live'
      exact ⟨m', List.mem_of_getElem? (i := j) (by rw [getElem?_set inside, if_neg other, hj]), live', here, fs⟩
    · exact ⟨new, List.mem_of_getElem? (i := k) (by rw [getElem?_set inside, if_pos rfl]), live, here, fs⟩

theorem distinct_set {k : Nat} {new : Mountpoint F} (h : Distinct t) (there : t.toList[k]? = some m)
    (fresh : ∀ f, ¬Mounted t new.path f) : Distinct (t.setIfInBounds k new) := by
  obtain ⟨inside, -⟩ := List.getElem?_eq_some_iff.mp there
  intro i j m₁ m₂ hi hj live₁ live₂ same
  rw [getElem?_set inside] at hi hj
  by_cases ik : i = k <;> by_cases jk : j = k
  · rw [ik, jk]
  · rw [if_pos ik] at hi
    rw [if_neg jk] at hj
    obtain rfl := Option.some.inj hi
    exact absurd ⟨m₂, List.mem_of_getElem? hj, live₂, same.symm, rfl⟩ (fresh m₂.fs)
  · rw [if_neg ik] at hi
    rw [if_pos jk] at hj
    obtain rfl := Option.some.inj hj
    exact absurd ⟨m₁, List.mem_of_getElem? hi, live₁, same, rfl⟩ (fresh m₁.fs)
  · rw [if_neg ik] at hi
    rw [if_neg jk] at hj
    exact h i j m₁ m₂ hi hj live₁ live₂ same

/-! ### Unmounting -/

theorem mounted_unmount : Mounted (unmount t path).1 p f ↔ Mounted t p f ∧ p ≠ path := by
  simp only [Mounted, unmount, Vector.toList_map, List.mem_map]
  constructor
  · rintro ⟨_, ⟨m, mem, rfl⟩, live, here, fs⟩
    by_cases gone : m.exist = true ∧ m.path = path
    · rw [if_pos gone] at live
      cases live
    · rw [if_neg gone] at live here fs
      exact ⟨⟨m, mem, live, here, fs⟩, fun same => gone ⟨live, here.trans same⟩⟩
  · rintro ⟨⟨m, mem, live, here, fs⟩, other⟩
    have kept : ¬(m.exist = true ∧ m.path = path) := fun gone => other (here.symm.trans gone.2)
    exact ⟨m, ⟨m, mem, if_neg kept⟩, live, here, fs⟩

theorem distinct_unmount (h : Distinct t) : Distinct (unmount t path).1 := by
  intro i j m₁ m₂ hi hj live₁ live₂ same
  simp only [unmount, Vector.toList_map, List.getElem?_map, Option.map_eq_some_iff] at hi hj
  obtain ⟨a, ha, rfl⟩ := hi
  obtain ⟨b, hb, rfl⟩ := hj
  split at live₁
  · cases live₁
  · split at live₂
    · cases live₂
    · rename_i ka kb
      rw [if_neg ka, if_neg kb] at same
      exact h i j a b ha hb live₁ live₂ same

theorem unmount_value : ((unmount t path).2 = 0 ↔ ∃ f, Mounted t path f) ∧
    ((unmount t path).2 = -1 ↔ ¬∃ f, Mounted t path f) := by
  have any : (t.toList.any fun m => m.exist = true ∧ m.path = path) = true ↔ ∃ f, Mounted t path f := by
    rw [List.any_eq_true, ← slot_iff]
    simp only [decide_eq_true_eq]
  rw [← any, unmount]
  split <;> simp_all

/-! ### Choosing -/

/-- What the loop finds: nothing longer than `len`, or the longest of the prefixes. -/
theorem getMountLoop_spec {start : Int} : (getMountLoop path ms i start len = start ∧
      ∀ m ∈ ms, m.exist = true → m.path <+: path → m.path.length ≤ len) ∨
    ∃ k m, ms[k]? = some m ∧ getMountLoop path ms i start len = ((i + k : Nat) : Int) ∧ m.exist = true ∧
      m.path <+: path ∧ len < m.path.length ∧
      ∀ m' ∈ ms, m'.exist = true → m'.path <+: path → m'.path.length ≤ m.path.length := by
  induction ms generalizing i start len with
  | nil => exact Or.inl ⟨rfl, by simp⟩
  | cons m ms ih =>
    rw [getMountLoop]
    by_cases better : m.exist = true ∧ m.path.isPrefixOf path = true ∧ len < m.path.length
    · obtain ⟨live, front, long⟩ := better
      rw [if_pos ⟨live, front, long⟩]
      right
      rcases @ih (i + 1) m.path.length i with ⟨found, none⟩ | ⟨k, m', there, found, live', front', long', longest⟩
      · refine ⟨0, m, rfl, by rw [found, Nat.add_zero], live, List.isPrefixOf_iff_prefix.mp front, long, ?_⟩
        exact List.forall_mem_cons.mpr ⟨fun _ _ => Nat.le_refl _, none⟩
      · refine ⟨k + 1, m', there, by rw [found, Nat.add_assoc, Nat.add_comm 1], live', front', by omega, ?_⟩
        exact List.forall_mem_cons.mpr ⟨fun _ _ => by omega, longest⟩
    · rw [if_neg better]
      have short : m.exist = true → m.path <+: path → m.path.length ≤ len := by
        intro live front
        by_contra long
        exact better ⟨live, List.isPrefixOf_iff_prefix.mpr front, by omega⟩
      rcases @ih (i + 1) len start with ⟨found, none⟩ | ⟨k, m', there, found, live', front', long', longest⟩
      · exact Or.inl ⟨found, List.forall_mem_cons.mpr ⟨short, none⟩⟩
      · right
        refine ⟨k + 1, m', there, by rw [found, Nat.add_assoc, Nat.add_comm 1], live', front', long', ?_⟩
        exact List.forall_mem_cons.mpr ⟨fun live front => Nat.le_trans (short live front) (by omega), longest⟩

/-- `p` is the longest non-empty mounted path that is a prefix of `path`, and `fs` is mounted there. -/
def Chosen (t : Table F) (path p : Path) (fs : Option F) : Prop :=
  Mounted t p fs ∧ p ≠ [] ∧ p <+: path ∧ ∀ p' fs', Mounted t p' fs' → p' <+: path → p'.length ≤ p.length

/-- The entry that `get_mount` returns, or -1 when no non-empty mounted path is a prefix. -/
theorem getMount_spec : (getMount t path = -1 ∧ ∀ p fs, Mounted t p fs → p <+: path → p = []) ∨
    ∃ (k : Nat) (m : Mountpoint F), getMount t path = k ∧ t.toList[k]? = some m ∧ m.exist = true ∧
      Chosen t path m.path m.fs := by
  rcases @getMountLoop_spec F path t.toList 0 0 (-1) with
    ⟨found, none⟩ | ⟨k, m, there, found, live, front, long, longest⟩
  · refine Or.inl ⟨found, ?_⟩
    rintro p fs ⟨m, mem, live, rfl, -⟩ front
    exact List.eq_nil_of_length_eq_zero (Nat.le_zero.mp (none m mem live front))
  · refine Or.inr ⟨k, m, by rw [getMount, found, Nat.zero_add], there, live, ?_⟩
    refine ⟨⟨m, List.mem_of_getElem? there, live, rfl, rfl⟩, List.ne_nil_of_length_pos long, front, ?_⟩
    rintro _ _ ⟨m', mem, live', rfl, -⟩ front'
    exact longest m' mem live' front'

def chosenFs (t : Table F) (path : Path) : Option (Option F) :=
  if 0 ≤ getMount t path then t.toList[(getMount t path).toNat]?.map Mountpoint.fs else none

theorem Distinct.fs_eq (h : Distinct t) {f' : Option F} (hf : Mounted t p f) (hf' : Mounted t p f') : f = f' := by
  obtain ⟨m, mem, live, here, rfl⟩ := hf
  obtain ⟨m', mem', live', here', rfl⟩ := hf'
  obtain ⟨i, hi⟩ := List.mem_iff_getElem?.mp mem
  obtain ⟨j, hj⟩ := List.mem_iff_getElem?.mp mem'
  obtain rfl := h i j m m' hi hj live live' (here.trans here'.symm)
  rw [hi] at hj
  rw [Option.some.inj hj]

theorem chosenFs_eq_some (h : Distinct t) : chosenFs t path = some fs ↔ ∃ p, Chosen t path p fs := by
  rcases @getMount_spec F t path with ⟨found, none⟩ | ⟨k, m, found, there, -, chosen⟩
  · rw [chosenFs, found, if_neg (by decide)]
    constructor
    · intro absurd
      cases absurd
    · rintro ⟨p, mounted, nonempty, front, -⟩
      exact absurd (none p fs mounted front) nonempty
  · rw [chosenFs, found, if_pos (Int.natCast_nonneg k), Int.toNat_natCast, there]
    constructor
    · intro eq
      obtain rfl := Option.some.inj eq
      exact ⟨m.path, chosen⟩
    · rintro ⟨p, mounted, -, front, longest⟩
      obtain ⟨mounted', -, front', longest'⟩ := chosen
      have same : p = m.path := List.IsPrefix.eq_of_length
        (List.prefix_of_prefix_length_le front front' (longest' p fs mounted front))
        (Nat.le_antisymm (longest' p fs mounted front) (longest m.path m.fs mounted' front'))
      subst same
      exact congrArg some (h.fs_eq mounted' mounted)

/-- The choice depends on the mounted pairs only. -/
theorem chosenFs_congr (h : Distinct t) (h' : Distinct t') (same : ∀ p fs, Mounted t p fs ↔ Mounted t' p fs)
    (path : Path) : chosenFs t path = chosenFs t' path := by
  have chosen (p : Path) (fs : Option F) : Chosen t path p fs ↔ Chosen t' path p fs := by
    simp only [Chosen, same]
  apply Option.ext
  intro fs
  rw [chosenFs_eq_some h, chosenFs_eq_some h']
  simp only [chosen]

/-! ### Runs -/

inductive Call (F : Type) where
  | mount (path : Path) (fs : Option F)
  | unmount (path : Path)

/-- Runs from the empty table; a mount that needs a 65th slot is not part of them. -/
def tables (F : Type) : Machine (Table F) (Call F) where
  Init t := t = emptyTable
  Step t call t' :=
    match call with
    | .mount path fs => ∃ value, mount t path fs = some (t', value)
    | .unmount path => t' = (unmount t path).1

theorem distinct_reachable (h : (tables F).Reachable t) : Distinct t := by
  refine h.induct Distinct ?_ ?_
  · rintro t rfl
    exact distinct_empty
  · intro t call t' distinct step
    cases call with
    | unmount path =>
      obtain rfl := step
      exact distinct_unmount distinct
    | mount path fs =>
      obtain ⟨value, done⟩ := step
      by_cases present : ∃ f, Mounted t path f
      · obtain ⟨f, mounted⟩ := present
        rw [mount_refused mounted] at done
        obtain ⟨rfl, -⟩ := Prod.mk.inj (Option.some.inj done)
        exact distinct
      · have new : ∀ f, ¬Mounted t path f := not_exists.mp present
        by_cases room : ∃ m ∈ t.toList, m.exist = false
        · obtain ⟨k, m, there, free, done'⟩ := @mount_free F t path fs new room
          rw [done] at done'
          obtain ⟨rfl, -⟩ := Prod.mk.inj (Option.some.inj done')
          exact distinct_set distinct there new
        · have full : ∀ m ∈ t.toList, m.exist = true := by
            intro m mem
            by_contra free
            exact room ⟨m, mem, by simpa using free⟩
          rw [mount_full new full] at done
          cases done

/-- What the calls do on a table, and what `get_mount` chooses. -/
structure MountsRight (t : Table F) : Prop where
  distinct : Distinct t
  mount_new : ∀ path fs, (∀ f, ¬Mounted t path f) → (∃ m ∈ t.toList, m.exist = false) →
    ∃ t', mount t path fs = some (t', 0) ∧ ∀ p f, Mounted t' p f ↔ Mounted t p f ∨ (path = p ∧ fs = f)
  mount_again : ∀ path fs f, Mounted t path f → mount t path fs = some (t, -1)
  mount_none : ∀ path fs, mount t path fs = none ↔ (∀ f, ¬Mounted t path f) ∧ ∀ m ∈ t.toList, m.exist = true
  unmount : ∀ path, ((unmount t path).2 = 0 ↔ ∃ f, Mounted t path f) ∧
    ((unmount t path).2 = -1 ↔ ¬∃ f, Mounted t path f) ∧
    ∀ p f, Mounted (unmount t path).1 p f ↔ Mounted t p f ∧ p ≠ path
  choice : ∀ path, (getMount t path = -1 ∧ ∀ p fs, Mounted t p fs → p <+: path → p = []) ∨
    ∃ (k : Nat) (m : Mountpoint F), getMount t path = k ∧ t.toList[k]? = some m ∧ m.exist = true ∧
      Chosen t path m.path m.fs

/-- In every table of a run the calls and the choice are right, and the choice depends on the mounted pairs only. -/
theorem reachable_mounts (h : (tables F).Reachable t) : MountsRight t ∧
    ∀ t', (tables F).Reachable t' → (∀ p fs, Mounted t p fs ↔ Mounted t' p fs) →
      ∀ path, chosenFs t path = chosenFs t' path := by
  have distinct := distinct_reachable h
  refine ⟨⟨distinct, ?_, ?_, fun path fs => mount_none_iff, ?_, fun path => getMount_spec⟩, ?_⟩
  · intro path fs new room
    obtain ⟨k, m, there, free, done⟩ := @mount_free F t path fs new room
    exact ⟨_, done, fun p f => mounted_set there free rfl⟩
  · intro path fs f mounted
    exact mount_refused mounted
  · intro path
    exact ⟨unmount_value.1, unmount_value.2, fun p f => mounted_unmount⟩
  · intro t' reached same path
    exact chosenFs_congr distinct (distinct_reachable reached) same path

/-- "/" and "/dev" are mounted, and "/dev" is unmounted. -/
def devGone : Table Nat :=
  (unmount ((emptyTable.setIfInBounds 0 ⟨[47], some 1, true⟩).setIfInBounds 1 ⟨[47, 100, 101, 118], some 2, true⟩)
    [47, 100, 101, 118]).1

/-- "/proc" gets the slot. -/
def reused : Table Nat := devGone.setIfInBounds 1 ⟨[47, 112, 114, 111, 99], some 3, true⟩

/-- "/proc" is mounted first. -/
def turned : Table Nat :=
  (emptyTable.setIfInBounds 0 ⟨[47, 112, 114, 111, 99], some 3, true⟩).setIfInBounds 1 ⟨[47], some 1, true⟩

theorem reachable_mount {value : Int} (h : (tables F).Reachable t) (done : mount t path fs = some (t', value)) :
    (tables F).Reachable t' :=
  @Machine.Reachable.step _ _ (tables F) t t' (.mount path fs) h ⟨value, done⟩

theorem reused_reachable : (tables Nat).Reachable reused := by
  have start : (tables Nat).Reachable emptyTable := .init rfl
  have root := @reachable_mount Nat _ _ [47] (some 1) 0 start rfl
  have dev := @reachable_mount Nat _ _ [47, 100, 101, 118] (some 2) 0 root rfl
  have gone : (tables Nat).Reachable devGone :=
    @Machine.Reachable.step _ _ (tables Nat) _ _ (.unmount [47, 100, 101, 118]) dev rfl
  have free : mountLoop [47, 112, 114, 111, 99] devGone.toList 0 none = some (some 1) := by decide +kernel
  exact @reachable_mount Nat _ _ [47, 112, 114, 111, 99] (some 3) 0 gone (by rw [mount, free]; rfl)

theorem turned_reachable : (tables Nat).Reachable turned := by
  have start : (tables Nat).Reachable emptyTable := .init rfl
  have proc := @reachable_mount Nat _ _ [47, 112, 114, 111, 99] (some 3) 0 start rfl
  exact @reachable_mount Nat _ _ [47] (some 1) 0 proc rfl

theorem reused_turned {f : Option Nat} : Mounted reused p f ↔ Mounted turned p f := by
  have empty : ¬Mounted (emptyTable : Table Nat) p f := by
    rintro ⟨m, mem, live, -⟩
    rw [emptyTable, Vector.toList_replicate] at mem
    rw [List.eq_of_mem_replicate mem] at live
    cases live
  have left : Mounted reused p f ↔ ([47] = p ∧ some 1 = f) ∨ ([47, 112, 114, 111, 99] = p ∧ some 3 = f) := by
    have slot : devGone.toList[1]?.map Mountpoint.exist = some false := by decide +kernel
    obtain ⟨m, there, free⟩ := Option.map_eq_some_iff.mp slot
    rw [reused, mounted_set there free rfl, devGone, mounted_unmount, mounted_set (k := 1) rfl rfl rfl,
      mounted_set (k := 0) rfl rfl rfl]
    constructor
    · rintro (⟨(⟨old | root⟩ | dev), other⟩ | proc)
      · exact absurd old empty
      · exact .inl root
      · exact absurd dev.1.symm other
      · exact .inr proc
    · rintro (⟨rfl, rfl⟩ | proc)
      · exact .inl ⟨.inl (.inr ⟨rfl, rfl⟩), by decide⟩
      · exact .inr proc
  have right : Mounted turned p f ↔ ([47, 112, 114, 111, 99] = p ∧ some 3 = f) ∨ ([47] = p ∧ some 1 = f) := by
    unfold turned
    rw [mounted_set (k := 1) rfl rfl rfl, mounted_set (k := 0) rfl rfl rfl, or_iff_right empty]
  rw [left, right, or_comm]

/-- The slot of "/dev" is that of "/proc" now, and a path under "/dev" is one of the root again. -/
theorem reachable_mounts_sample : MountsRight reused ∧ getMount reused [47, 112, 114, 111, 99, 47, 49] = 1 ∧
    getMount reused [47, 100, 101, 118, 47, 49] = 0 ∧ ∀ path, chosenFs reused path = chosenFs turned path := by
  obtain ⟨right, same⟩ := reachable_mounts reused_reachable
  exact ⟨right, by decide +kernel, by decide +kernel, same _ turned_reachable fun _ _ => reused_turned⟩

end OsLabs.Vfs

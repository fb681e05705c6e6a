import Mathlib.Data.Finset.Card
import Mathlib.Logic.Function.Basic
import OsLabs.Data.Program
import OsLabs.Vfs.Mount

/-!
# Indices into the mount table

`vfs_mount` and `vfs_unmount` on a memory that goes on before and after `mpt`: each
access is an event with its index, and a store outside the table changes what lies
there. A call stays inside unless it mounts a new path on a full table.
-/

namespace OsLabs.Vfs
open Function Program

/-- `mpt[i]` at every index; outside [0, `MAXMP`) it is what lies next to the table. -/
abbrev Around (F : Type) := Int → Mountpoint F

variable {F : Type}

def slots : List Int := (List.range maxMounts).map Int.ofNat

/-- The loop of `vfs_mount` on the indices left: `none` is the return of -1. -/
def vfsMountLoop (path : Path) : List Int → Int → Program Int (Around F) Empty (Option Int)
  | [], index => pure (some index)
  | i :: is, index => do
    issue i
    let m ← look fun mpt => mpt i
    if index = -1 ∧ m.exist = false then vfsMountLoop path is i
    else if m.exist = true ∧ m.path = path then pure none
    else vfsMountLoop path is index

def vfsMount (path : Path) (fs : Option F) : Program Int (Around F) Empty Int := do
  match ← vfsMountLoop path slots (-1) with
  | none => pure (-1)
  | some index => do
    issue index
    change fun mpt => update mpt index ⟨path, fs, true⟩
    pure 0

def vfsUnmountLoop (path : Path) : List Int → Int → Program Int (Around F) Empty Int
  | [], finded => pure finded
  | i :: is, finded => do
    issue i
    let m ← look fun mpt => mpt i
    if m.exist = true ∧ m.path = path then do
      change fun mpt => update mpt i { m with exist := false }
      vfsUnmountLoop path is 0
    else vfsUnmountLoop path is finded

def vfsUnmount (path : Path) : Program Int (Around F) Empty Int := vfsUnmountLoop path slots (-1)

def perform : Call F → Program Int (Around F) Empty Int
  | .mount path fs => vfsMount path fs
  | .unmount path => vfsUnmount path

def after (mpt : Around F) : List (Call F) → Around F
  | [] => mpt
  | call :: calls =>
    match ((perform call).run mpt).result with
    | .ok (mpt, _) => after mpt calls
    | .error e => nomatch e

def InTable (i : Int) : Prop := 0 ≤ i ∧ i < maxMounts

/-- What is expected of a call: it stays inside the table, and without a free slot a mount fails and changes nothing. -/
structure Guarded (mpt : Around F) (call : Call F) : Prop where
  inside : Within InTable (perform call) mpt
  refuses : ∀ path fs, call = .mount path fs → (∀ i ∈ slots, (mpt i).exist = true) →
    ((perform call).run mpt).result = .ok (mpt, -1)

def tableOf (mpt : Around F) : Table F := Vector.ofFn fun i : Fin maxMounts => mpt i.val

variable {mpt mpt' : Around F} {path : Path} {fs : Option F} {is : List Int}
  {i index finded value : Int} {call : Call F}
  {calls : List (Call F)}

theorem mem_slots : i ∈ slots ↔ InTable i := by
  simp only [slots, List.mem_map, List.mem_range, InTable, Int.ofNat_eq_natCast]
  constructor
  · rintro ⟨k, small, rfl⟩
    omega
  · rintro ⟨low, high⟩
    exact ⟨i.toNat, by omega, by omega⟩

/-! ### What the loops do -/

/-- The loop of `vfs_mount` only reads, and does what `mountLoop` does on the slots that it reads. -/
theorem vfsMountLoop_result {k n : Nat} {found : Option Nat} (free : index = (found.map Int.ofNat).getD (-1)) :
    ((vfsMountLoop path ((List.range' k n).map Int.ofNat) index).run mpt).result =
      .ok (mpt, (mountLoop path ((List.range' k n).map fun i => mpt (Int.ofNat i)) k found).map fun found =>
        (found.map Int.ofNat).getD (-1)) := by
  induction n generalizing k index found with
  | zero => simp [vfsMountLoop, mountLoop, free]
  | succ n ih =>
    have unset : index = -1 ↔ found = none := by
      cases found with
      | none => simp [free]
      | some i => simp [free]
    simp only [List.range'_succ, List.map_cons, vfsMountLoop, mountLoop, unset]
    rw [result_bind_ok rfl, result_bind_ok rfl]
    split
    · exact ih rfl
    · split
      · rfl
      · exact ih free

theorem tableOf_toList : (tableOf mpt).toList = (List.range' 0 maxMounts).map fun i => mpt (Int.ofNat i) := by
  rw [tableOf, Vector.toList_ofFn]
  apply List.ext_getElem (by simp)
  intro i _ _
  simp

theorem vfsMountLoop_slots : ((vfsMountLoop path slots (-1)).run mpt).result =
    .ok (mpt, (mountLoop path (tableOf mpt).toList 0 none).map fun found => (found.map Int.ofNat).getD (-1)) := by
  rw [tableOf_toList, slots, List.range_eq_range']
  exact vfsMountLoop_result rfl

theorem vfsMountLoop_within {p : Int → Prop} (all : ∀ i ∈ is, p i) : Within p (vfsMountLoop path is index) mpt := by
  induction is generalizing index with
  | nil => exact within_pure
  | cons i is ih =>
    obtain ⟨here, rest⟩ := List.forall_mem_cons.mp all
    refine within_bind.mpr ⟨within_issue.mpr here, fun _ _ done => ?_⟩
    obtain ⟨rfl, -⟩ := Prod.mk.inj (Except.ok.inj done)
    refine within_bind.mpr ⟨within_look, fun _ m done => ?_⟩
    obtain ⟨rfl, -⟩ := Prod.mk.inj (Except.ok.inj done)
    split
    · exact ih rest
    · split
      · exact within_pure
      · exact ih rest

theorem vfsUnmountLoop_within {p : Int → Prop} (all : ∀ i ∈ is, p i) :
    Within p (vfsUnmountLoop path is finded) mpt := by
  induction is generalizing mpt finded with
  | nil => exact within_pure
  | cons i is ih =>
    obtain ⟨here, rest⟩ := List.forall_mem_cons.mp all
    refine within_bind.mpr ⟨within_issue.mpr here, fun _ _ _ => ?_⟩
    refine within_bind.mpr ⟨within_look, fun _ m _ => ?_⟩
    split
    · exact within_bind.mpr ⟨within_change, fun _ _ _ => ih rest⟩
    · exact ih rest

theorem mountLoop_lt {t : Table F} {k : Nat} (searched : mountLoop path t.toList 0 none = some (some k)) :
    k < maxMounts := by
  rw [mountLoop_eq] at searched
  split at searched
  · cases searched
  · obtain ⟨j, found, rfl⟩ := Option.map_eq_some_iff.mp (Option.some.inj searched)
    have := (List.findIdx?_eq_some_iff_getElem.mp found).1
    simpa using this

/-- What `vfs_mount` does after its loop. -/
theorem vfsMount_run {found : Option (Option Nat)} (searched : mountLoop path (tableOf mpt).toList 0 none = found) :
    ((vfsMount path fs).run mpt).result = .ok (match found with
      | none => (mpt, -1)
      | some found => (update mpt ((found.map Int.ofNat).getD (-1)) ⟨path, fs, true⟩, 0)) := by
  have done := @vfsMountLoop_slots F mpt path
  rw [searched] at done
  rw [vfsMount, result_bind_ok done]
  cases found with
  | none => rfl
  | some found => rfl

theorem tableOf_outside {m : Mountpoint F} (out : ¬InTable i) : tableOf (update mpt i m) = tableOf mpt := by
  ext j hj : 1
  rw [tableOf, Vector.getElem_ofFn, tableOf, Vector.getElem_ofFn]
  refine update_of_ne ?_ _ _
  rintro rfl
  exact out ⟨Int.natCast_nonneg j, Int.ofNat_lt.mpr hj⟩

theorem mountLoop_refused {f : Option F} (mounted : Mounted (tableOf mpt) path f) :
    mountLoop path (tableOf mpt).toList 0 none = none := by
  obtain ⟨m, mem, live, here, -⟩ := mounted
  rw [mountLoop_eq, if_pos ⟨m, mem, live, here⟩]

theorem mountLoop_full (full : mount (tableOf mpt) path fs = none) :
    mountLoop path (tableOf mpt).toList 0 none = some none := by
  rw [mount] at full
  generalize mountLoop path (tableOf mpt).toList 0 none = found at full ⊢
  cases found with
  | none => cases full
  | some slot =>
    cases slot with
    | none => rfl
    | some slot => cases full

/-- On a full table a new path is stored before the first slot. -/
theorem vfsMount_outside (full : mount (tableOf mpt) path fs = none) :
    ((vfsMount path fs).run mpt).result = .ok (update mpt (-1) ⟨path, fs, true⟩, 0) :=
  vfsMount_run (mountLoop_full full)

/-- With a slot for it the call does on the table what `mount` does, and leaves what lies next to it alone. -/
theorem vfsMount_table {t' : Table F} (done : mount (tableOf mpt) path fs = some (t', value)) :
    ∃ mpt', ((vfsMount path fs).run mpt).result = .ok (mpt', value) ∧ tableOf mpt' = t' ∧
      ∀ i, ¬InTable i → mpt' i = mpt i := by
  rw [mount] at done
  split at done
  · rename_i searched
    obtain ⟨rfl, rfl⟩ := Prod.mk.inj (Option.some.inj done)
    exact ⟨mpt, vfsMount_run searched, rfl, fun _ _ => rfl⟩
  · cases done
  · rename_i k searched
    obtain ⟨rfl, rfl⟩ := Prod.mk.inj (Option.some.inj done)
    have small := mountLoop_lt searched
    refine ⟨_, vfsMount_run searched, ?_, fun i out => update_of_ne ?_ _ _⟩
    · ext j hj : 1
      rw [tableOf, Vector.getElem_ofFn, Vector.getElem_setIfInBounds, tableOf, Vector.getElem_ofFn]
      by_cases same : k = j
      · subst same
        simp
      · rw [if_neg same]
        exact update_of_ne (fun eq => same (Int.ofNat.inj eq.symm)) _ _
    · rintro rfl
      exact out ⟨Int.natCast_nonneg k, Int.ofNat_lt.mpr small⟩

/-- The loop of `vfs_unmount` clears the slots of the path among those left. -/
theorem vfsUnmountLoop_result (once : is.Nodup) : ∃ mpt', ((vfsUnmountLoop path is finded).run mpt).result =
      .ok (mpt', if ∃ i ∈ is, (mpt i).exist = true ∧ (mpt i).path = path then 0 else finded) ∧
    ∀ i, mpt' i = if i ∈ is ∧ (mpt i).exist = true ∧
    (mpt i).path = path then { mpt i with exist := false } else mpt i := by
  induction is generalizing mpt finded with
  | nil => exact ⟨mpt, by simp [vfsUnmountLoop], by simp⟩
  | cons i is ih =>
    obtain ⟨new, once⟩ := List.nodup_cons.mp once
    rw [vfsUnmountLoop, result_bind_ok rfl, result_bind_ok rfl]
    by_cases here : (mpt i).exist = true ∧ (mpt i).path = path
    · rw [if_pos here, result_bind_ok rfl]
      obtain ⟨mpt', done, slot⟩ := @ih (update mpt i { mpt i with exist := false }) 0 once
      refine ⟨mpt', ?_, fun j => ?_⟩
      · rw [done, ite_self, if_pos ⟨i, List.mem_cons_self, here⟩]
      · rw [slot]
        by_cases same : j = i
        · subst same
          simp [new, here]
        · simp [same]
    · rw [if_neg here]
      obtain ⟨mpt', done, slot⟩ := @ih mpt finded once
      refine ⟨mpt', ?_, fun j => ?_⟩
      · simp only [done, List.mem_cons, exists_eq_or_imp, here, false_or]
      · rw [slot]
        by_cases same : j = i
        · subst same
          simp [new, here]
        · simp [same]

theorem slots_nodup : slots.Nodup := List.nodup_range.map fun _ _ same => Int.ofNat.inj same

theorem vfsUnmount_table : ∃ mpt' value, ((vfsUnmount path).run mpt).result = .ok (mpt', value) ∧
    tableOf mpt' = (unmount (tableOf mpt) path).1 := by
  obtain ⟨mpt', done, slot⟩ := @vfsUnmountLoop_result F mpt path slots (-1) slots_nodup
  refine ⟨mpt', _, done, ?_⟩
  ext j hj : 1
  have inside : (j : Int) ∈ slots := mem_slots.mpr ⟨Int.natCast_nonneg j, Int.ofNat_lt.mpr hj⟩
  simp [tableOf, unmount, slot, inside]

/-! ### The paths that are mounted -/

/-- The mounted paths after a call, from those before it. -/
def mountedAfter (paths : Finset Path) : Call F → Finset Path
  | .mount path _ => if paths.card < maxMounts then insert path paths else paths
  | .unmount path => paths.erase path

def mountedPaths (calls : List (Call F)) : Finset Path := calls.foldl mountedAfter ∅

/-- The table holds these paths, each in one slot. -/
structure Stands (mpt : Around F) (paths : Finset Path) : Prop where
  distinct : Distinct (tableOf mpt)
  mounted : ∀ p, p ∈ paths ↔ ∃ f, Mounted (tableOf mpt) p f

variable {paths : Finset Path}

theorem Distinct.paths_nodup {t : Table F} (h : Distinct t) :
    ((t.toList.filter (·.exist)).map Mountpoint.path).Nodup := by
  rw [List.Nodup, List.pairwise_map, List.pairwise_filter, List.pairwise_iff_getElem]
  intro i j hi hj before live live' same
  exact absurd (h i j _ _ (List.getElem?_eq_getElem hi) (List.getElem?_eq_getElem hj) live live' same)
    (Nat.ne_of_lt before)

theorem Stands.card (h : Stands mpt paths) : ((tableOf mpt).toList.filter (·.exist)).length = paths.card := by
  rw [← @List.length_map _ _ _ Mountpoint.path, ← List.toFinset_card_of_nodup h.distinct.paths_nodup]
  congr 1
  ext p
  rw [h.mounted, ← slot_iff]
  simp only [List.mem_toFinset, List.mem_map, List.mem_filter, and_assoc]

theorem Stands.full (h : Stands mpt paths) : (∀ m ∈ (tableOf mpt).toList, m.exist = true) ↔ maxMounts ≤ paths.card := by
  have size : (tableOf mpt).toList.length = maxMounts := by simp
  rw [← h.card, ← List.filter_eq_self]
  constructor
  · intro all
    rw [all, size]
  · intro long
    exact List.filter_sublist.eq_of_length_le (size.trans_le long)

theorem Stands.mount_none (h : Stands mpt paths) :
    mount (tableOf mpt) path fs = none ↔ ¬(path ∈ paths ∨ paths.card < maxMounts) := by
  rw [mount_none_iff, h.full, h.mounted, not_or, not_exists, Nat.not_lt]

theorem Stands.congr (h : Stands mpt paths) (same : tableOf mpt' = tableOf mpt) : Stands mpt' paths where
  distinct := same.symm ▸ h.distinct
  mounted p := same.symm ▸ h.mounted p

theorem stands_blank (blank : ∀ i ∈ slots, (mpt i).exist = false) : Stands mpt ∅ := by
  have free : ∀ m ∈ (tableOf mpt).toList, m.exist = false := by
    intro m mem
    obtain ⟨k, small, rfl⟩ := List.mem_map.mp (tableOf_toList ▸ mem)
    exact blank _ (List.mem_map_of_mem (List.range_eq_range' ▸ small))
  refine ⟨?_, fun p => ?_⟩
  · intro i j m m' hi _ live
    rw [free m (List.mem_of_getElem? hi)] at live
    cases live
  · simp only [Finset.notMem_empty, false_iff, not_exists]
    rintro f ⟨m, mem, live, -⟩
    rw [free m mem] at live
    cases live

/-- Every call leaves a table of the paths that it should; a store next to the table changes none of its slots. -/
theorem stands_step (h : Stands mpt paths) : ∃ mpt' value, ((perform call).run mpt).result = .ok (mpt', value) ∧
    Stands mpt' (mountedAfter paths call) := by
  cases call with
  | unmount path =>
    obtain ⟨mpt', value, done, table⟩ := @vfsUnmount_table F mpt path
    refine ⟨mpt', value, done, table ▸ distinct_unmount h.distinct, fun p => ?_⟩
    simp only [mountedAfter, Finset.mem_erase, table, mounted_unmount, h.mounted]
    constructor
    · rintro ⟨other, f, mounted⟩
      exact ⟨f, mounted, other⟩
    · rintro ⟨f, mounted, other⟩
      exact ⟨other, f, mounted⟩
  | mount path fs =>
    by_cases present : ∃ f, Mounted (tableOf mpt) path f
    · obtain ⟨f, mounted⟩ := present
      obtain ⟨mpt', done, table, -⟩ := vfsMount_table (@mount_refused _ _ _ fs _ mounted)
      have same : mountedAfter paths (.mount path fs) = paths := by
        rw [mountedAfter, Finset.insert_eq_of_mem ((h.mounted path).mpr ⟨f, mounted⟩), ite_self]
      exact ⟨mpt', _, done, same.symm ▸ h.congr table⟩
    · have new : ∀ f, ¬Mounted (tableOf mpt) path f := not_exists.mp present
      by_cases full : ∀ m ∈ (tableOf mpt).toList, m.exist = true
      · have same : mountedAfter paths (.mount path fs) = paths := if_neg (Nat.not_lt.mpr (h.full.mp full))
        have table : tableOf (update mpt (-1) ⟨path, fs, true⟩) = tableOf mpt := tableOf_outside (by simp [InTable])
        exact ⟨_, _, vfsMount_outside (mount_full new full), same.symm ▸ h.congr table⟩
      · have room : ∃ m ∈ (tableOf mpt).toList, m.exist = false := by
          simpa using full
        obtain ⟨k, m, there, free, stored⟩ := @mount_free _ _ _ fs new room
        obtain ⟨mpt', done, table, -⟩ := vfsMount_table stored
        have grown : mountedAfter paths (.mount path fs) = insert path paths :=
          if_pos (Nat.lt_of_not_le (mt h.full.mpr full))
        refine ⟨mpt', _, done, table ▸ distinct_set h.distinct there new, fun p => ?_⟩
        simp only [grown, Finset.mem_insert, table, mounted_set there free, h.mounted]
        constructor
        · rintro (rfl | ⟨f, mounted⟩)
          · exact ⟨fs, .inr ⟨rfl, rfl⟩⟩
          · exact ⟨f, .inl mounted⟩
        · rintro ⟨f, mounted | ⟨same, -⟩⟩
          · exact .inr ⟨f, mounted⟩
          · exact .inl same.symm

theorem stands_after (h : Stands mpt paths) : Stands (after mpt calls) (calls.foldl mountedAfter paths) := by
  induction calls generalizing mpt paths with
  | nil => exact h
  | cons call calls ih =>
    obtain ⟨mpt', value, done, next⟩ := @stands_step F mpt call paths h
    rw [after, done, List.foldl_cons]
    exact ih next

/-! ### Which calls stay inside -/

theorem unmount_guarded : Guarded mpt (.unmount path) where
  inside := vfsUnmountLoop_within fun _ => mem_slots.mp
  refuses _ _ same := nomatch same

/-- On a full table the store is before the first slot. -/
theorem mount_outside (full : mount (tableOf mpt) path fs = none) : ¬Within InTable (vfsMount path fs) mpt := by
  intro inside
  have done := @vfsMountLoop_slots F mpt path
  rw [mountLoop_full full] at done
  have stored := (within_bind.mp inside).2 _ _ done
  exact absurd (within_issue.mp (within_bind.mp stored).1).1 (by decide)

theorem mount_inside {t' : Table F} (room : mount (tableOf mpt) path fs = some (t', value)) :
    Within InTable (vfsMount path fs) mpt := by
  refine within_bind.mpr ⟨vfsMountLoop_within fun _ => mem_slots.mp, fun _ found done => ?_⟩
  rw [vfsMountLoop_slots] at done
  obtain ⟨rfl, rfl⟩ := Prod.mk.inj (Except.ok.inj done)
  rw [mount] at room
  cases searched : mountLoop path (tableOf mpt).toList 0 none with
  | none => exact within_pure
  | some found =>
    cases found with
    | none =>
      rw [searched] at room
      cases room
    | some k =>
      have small : InTable (k : Int) := ⟨Int.natCast_nonneg k, Int.ofNat_lt.mpr (mountLoop_lt searched)⟩
      exact within_bind.mpr
        ⟨within_issue.mpr small, fun _ _ _ => within_bind.mpr ⟨within_change, fun _ _ _ => within_pure⟩⟩

theorem mount_guarded (h : Stands mpt paths) :
    Guarded mpt (.mount path fs) ↔ path ∈ paths ∨ paths.card < maxMounts := by
  constructor
  · intro guarded
    by_contra none
    exact mount_outside (h.mount_none.mpr none) guarded.inside
  · intro fits
    have some : mount (tableOf mpt) path fs ≠ none := mt h.mount_none.mp (not_not.mpr fits)
    obtain ⟨⟨t', value⟩, room⟩ := Option.ne_none_iff_exists'.mp some
    refine ⟨mount_inside room, ?_⟩
    rintro _ _ ⟨⟩ full
    have all : ∀ m ∈ (tableOf mpt).toList, m.exist = true := by
      intro m mem
      obtain ⟨k, small, rfl⟩ := List.mem_map.mp (tableOf_toList ▸ mem)
      exact full _ (List.mem_map_of_mem (List.range_eq_range' ▸ small))
    rcases fits with mem | small
    · obtain ⟨f, mounted⟩ := (h.mounted path).mp mem
      exact vfsMount_run (mountLoop_refused mounted)
    · exact absurd small (Nat.not_lt.mpr (h.full.mp all))

/-- In a run from an empty table every call is guarded exactly when each path is mounted while it is mounted already or
fewer than `MAXMP` are. -/
theorem mounts_guarded_iff (blank : ∀ i ∈ slots, (mpt i).exist = false) (calls : List (Call F)) :
    (∀ k call, calls[k]? = some call → Guarded (after mpt (calls.take k)) call) ↔
    ∀ k path fs, calls[k]? = some (.mount path fs) → path ∈ mountedPaths (calls.take k) ∨
      (mountedPaths (calls.take k)).card < maxMounts := by
  have stands (k : Nat) : Stands (after mpt (calls.take k)) (mountedPaths (calls.take k)) :=
    stands_after (stands_blank blank)
  constructor
  · intro guarded k path fs here
    exact (mount_guarded (stands k)).mp (guarded k _ here)
  · intro fits k call here
    cases call with
    | unmount path => exact unmount_guarded
    | mount path fs => exact (mount_guarded (stands k)).mpr (fits k path fs here)

/-- The memory before the first call, with nothing mounted. -/
def blank : Around Nat := fun _ => ⟨[], none, false⟩

/-- The root, and a second mount of it. -/
theorem mounts_guarded_iff_sample : Guarded blank (.mount [47] (some 0)) ∧
    Guarded (after blank [.mount [47] (some 0)]) (.mount [47] (some 1)) := by
  let calls : List (Call Nat) := [.mount [47] (some 0), .mount [47] (some 1)]
  have guarded : ∀ k call, calls[k]? = some call → Guarded (after blank (calls.take k)) call := by
    apply (mounts_guarded_iff (fun _ _ => rfl) calls).mpr
    intro k path fs here
    match k with
    | 0 => exact .inr (by decide)
    | 1 => exact .inr (by decide)
    | k + 2 => cases here
  exact ⟨guarded 0 _ rfl, guarded 1 _ rfl⟩

/-- As many mounts of one-character paths as there are slots, and one more. -/
def oneTooMany : List (Call Nat) := (List.range (maxMounts + 1)).map fun i => .mount [UInt8.ofNat i] none

theorem mounts_guarded_iff_counterexample :
    ¬∀ k call, oneTooMany[k]? = some call → Guarded (after blank (oneTooMany.take k)) call := by
  intro all
  have stands : Stands (after blank (oneTooMany.take maxMounts)) (mountedPaths (oneTooMany.take maxMounts)) :=
    stands_after (stands_blank fun _ _ => rfl)
  have last := (mount_guarded stands).mp (all maxMounts (.mount [64] none) rfl)
  revert last
  decide +kernel

end OsLabs.Vfs

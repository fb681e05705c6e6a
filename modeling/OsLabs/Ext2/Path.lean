import Mathlib.Tactic.IntervalCases
import OsLabs.Ext2.Dir

/-!
# Path lookup

`ext2_inode_lookup` peels a path with `rootdir` and `postname`. The first takes
what is before the first slash, the second what is after the last one, so of a
path with three components or more only the first and the last are looked up.
-/

namespace OsLabs.Ext2
open Util

/-- The loop of `ext2_inode_lookup`; `none` is the return of NULL. -/
def pathLoop (dev : Device) : Nat → Inode → Option (List Byte) → Except Fault (Option Inode)
  | 0, _, _ => .error .diverges
  | fuel + 1, inode, tmp =>
    match rootdir tmp with
    | none => .ok (some inode)
    | some pre => do
      let inodeIndex ← dirLookup dev inode pre
      if 0 ≤ inodeIndex then pathLoop dev fuel (readInode dev inodeIndex.toNat) (postname tmp)
      else .ok none

def inodeLookup (dev : Device) (name : Option (List Byte)) : Except Fault (Option Inode) :=
  match name with
  | none => .error .null
  | some name =>
    let tmp := strip name
    pathLoop dev (tmp.length + 1) (readInode dev 0) (some tmp)

/-- The components looked up one after the other. -/
def walk (dev : Device) : Inode → List (List Byte) → Except Fault (Option Inode)
  | inode, [] => .ok (some inode)
  | inode, c :: cs => do
    let inodeIndex ← dirLookup dev inode c
    if 0 ≤ inodeIndex then walk dev (readInode dev inodeIndex.toNat) cs else .ok none

/-- Every inode in use that is a directory holds records of inodes in use, and inode 0 is one. -/
structure WellFormed (dev : Device) : Prop where
  root : readMap dev imap 0 = true ∧ (readInode dev 0).type = DR
  dirs : ∀ i < mapBits, readMap dev imap i = true → (readInode dev i).type = DR →
    ∃ records, IsDir dev (readInode dev i) records ∧
      ∀ r ∈ records, r.type ≠ XX → r.inode < mapBits ∧ readMap dev imap r.inode = true

/-! ### What is looked up -/

variable {dev : Device} {inode : Inode} {c d : List Byte} {cs : List (List Byte)} {fuel : Nat}

theorem pathLoop_empty : pathLoop dev (fuel + 1) inode (some []) = .ok (some inode) := rfl

theorem pathLoop_single (hc : Component c) : pathLoop dev (fuel + 2) inode (some c) = walk dev inode [c] := by
  rw [pathLoop, rootdir_plain hc.2.1 hc.1]
  simp only [postname_plain hc.2.1 hc.1, pathLoop_empty, walk]

/-- Of two components or more, the first and the last are looked up. -/
theorem pathLoop_append (hd : Component d) {middle : List Byte}
    (first : rootdir (some middle) = some c) (last : postname (some middle) = some d) :
    pathLoop dev (fuel + 3) inode (some middle) = walk dev inode [c, d] := by
  rw [pathLoop, first]
  simp only [last, pathLoop_single hd, walk]

/-- The components that the code looks up. -/
def ends : List (List Byte) → List (List Byte)
  | [] => []
  | [c] => [c]
  | c :: d :: cs => [c, (d :: cs).getLast (List.cons_ne_nil d cs)]

theorem join_cons_cons : join (c :: d :: cs) = c ++ slash :: join (d :: cs) := rfl

theorem inodeLookup_join (nonempty : cs ≠ []) (all : ∀ c ∈ cs, Component c) (trailing : Bool) :
    inodeLookup dev (some (join cs ++ if trailing then [slash] else [])) = walk dev (readInode dev 0) (ends cs) := by
  rw [inodeLookup]
  simp only [strip_join nonempty all trailing]
  match cs, nonempty with
  | [c], _ =>
    have hc := all c (by simp)
    have pos := List.length_pos_of_ne_nil hc.1
    obtain ⟨k, hk⟩ : ∃ k, (join [c]).length = k + 1 := ⟨c.length - 1, by show c.length = _; omega⟩
    rw [hk]
    exact pathLoop_single hc
  | c :: d :: cs, _ =>
    have hc := all c (by simp)
    let e := (d :: cs).getLast (List.cons_ne_nil d cs)
    have he : Component e := all e (List.mem_cons_of_mem _ (List.getLast_mem _))
    have split : c :: d :: cs = (c :: d :: cs).dropLast ++ [e] := by
      conv => lhs; rw [← List.dropLast_append_getLast (List.cons_ne_nil c (d :: cs))]
      rw [List.getLast_cons_cons]
    have pos := List.length_pos_of_ne_nil (@join_ne_nil _ cs (all d (by simp)))
    obtain ⟨k, hk⟩ : ∃ k, (join (c :: d :: cs)).length = k + 2 := by
      refine ⟨(join (c :: d :: cs)).length - 2, ?_⟩
      rw [join_cons_cons, List.length_append, List.length_cons]
      omega
    rw [hk]
    refine pathLoop_append he ?_ ?_
    · rw [join_cons_cons]
      exact rootdir_append hc.2.1 hc.1
    · rw [split, join_snoc _ (by simp)]
      exact postname_append he.2.1

/-- The empty path is the root; a lone slash is not stripped and looks up the empty name. -/
theorem inodeLookup_empty (trailing : Bool) : inodeLookup dev (some (join [] ++ if trailing then [slash] else [])) =
    walk dev (readInode dev 0) (if trailing then [[]] else []) := by
  cases trailing with
  | false => rfl
  | true =>
    have strip : strip [slash] = [slash] := rfl
    have root : rootdir (some [slash]) = some [] := rfl
    have rest : postname (some [slash]) = some [] := rfl
    simp only [inodeLookup, join, List.nil_append, if_true, strip, List.length_singleton]
    rw [pathLoop, root]
    simp only [rest, pathLoop_empty, walk]

/-- A path is looked up component by component: one of at most two components, or one whose last component
leads, from the directory of the first, to where the whole path leads. -/
def Shallow (dev : Device) (cs : List (List Byte)) (trailing : Bool) : Prop :=
  match cs with
  | [] => trailing = true → walk dev (readInode dev 0) [[]] = .ok (some (readInode dev 0))
  | [_] | [_, _] => True
  | c :: d :: e :: cs => walk dev (readInode dev 0) [c, (e :: cs).getLast (List.cons_ne_nil e cs)] =
      walk dev (readInode dev 0) (c :: d :: e :: cs)

theorem inodeLookup_iff (all : ∀ c ∈ cs, Component c) (trailing : Bool) :
    inodeLookup dev (some (join cs ++ if trailing then [slash] else [])) = walk dev (readInode dev 0) cs ↔
      Shallow dev cs trailing := by
  match cs with
  | [] =>
    rw [inodeLookup_empty]
    cases trailing <;> simp [Shallow, walk]
  | [c] => simp [inodeLookup_join (List.cons_ne_nil _ _) all, ends, Shallow]
  | [c, d] => simp [inodeLookup_join (List.cons_ne_nil _ _) all, ends, Shallow]
  | c :: d :: e :: cs =>
    rw [inodeLookup_join (List.cons_ne_nil _ _) all]
    simp only [ends, Shallow, List.getLast_cons_cons]

/-! ### A path of three components -/

/-- A directory or file of one block, the block of its own number. -/
def smallInode (index type size : Nat) : Inode where
  index := index
  type := type
  permission := 7
  size := size
  len := 1
  id := index + 1
  dirLen := 3
  linkNum := 1
  link := Vector.replicate linkSlots index

/-- The directory `a` of the root, `b` in it, and the file `c` in that. -/
def deepRecords : Nat → List Record
  | 0 => [⟨0, [46], DR⟩, ⟨0, [46, 46], DR⟩, ⟨1, [97], DR⟩]
  | 1 => [⟨1, [46], DR⟩, ⟨0, [46, 46], DR⟩, ⟨2, [98], DR⟩]
  | 2 => [⟨2, [46], DR⟩, ⟨1, [46, 46], DR⟩, ⟨3, [99], NF⟩]
  | _ => []

def deepInode (i : Nat) : Inode :=
  smallInode i (if i < 3 then DR else NF) ((deepRecords i).flatMap Record.bytes).length

def deepWrites : List (Nat × List Byte) :=
  (List.range 4).map (fun i => (table i, (deepInode i).encode)) ++
    (List.range 4).map fun i => (data i, (deepRecords i).flatMap Record.bytes)

/-- Inodes 0 to 3 and blocks 0 to 3 are in use. -/
def deep : Device := Mem.writes (fun x => if x = block imap ∨ x = block dmap then 15 else 0) deepWrites

theorem first_marks {marked : Byte} {ws : List (Nat × List Byte)} (addr : ∀ w ∈ ws, block itable ≤ w.1) {i : Nat}
    (hi : i < mapBits)
    (used : readMap (Mem.writes (fun x => if x = block imap ∨ x = block dmap then marked else 0) ws) imap i = true) :
    i < 8 := by
  have low := map_lt_table (show imap < itable by decide) hi
  by_contra late
  rw [readMap, Mem.writes_outside fun w hw covers => by have := addr w hw; have := covers.1; omega] at used
  have other : ¬(map imap i = block imap ∨ map imap i = block dmap) := by
    simp only [map, block, imap, dmap, mapBits, blockBytes] at *
    omega
  simp [other] at used

theorem deep_imap : ∀ i < mapBits, readMap deep imap i = true → i < 4 := by
  intro i hi used
  have small := first_marks (by decide +kernel) hi used
  clear hi
  revert used
  interval_cases i <;> decide +kernel

theorem deep_wellFormed : WellFormed deep where
  root := by decide +kernel
  dirs := by
    intro i hi marked directory
    have small := deep_imap i hi marked
    refine ⟨deepRecords i, ⟨?_, ?_, ?_, ?_⟩, ?_⟩ <;> clear hi marked directory <;> interval_cases i <;> decide +kernel

theorem inodeLookup_iff_sample : inodeLookup deep (some (join [[97], [98]] ++ [slash])) =
    walk deep (readInode deep 0) [[97], [98]] :=
  (inodeLookup_iff (by decide) true).mpr trivial

/-- The path a/b/c names a file, and the lookup returns NULL. -/
theorem inodeLookup_counterexample : WellFormed deep ∧ (∀ c ∈ [[97], [98], [99]], Component c) ∧
    inodeLookup deep (some (join [[97], [98], [99]])) ≠ walk deep (readInode deep 0) [[97], [98], [99]] := by
  refine ⟨deep_wellFormed, by decide, ?_⟩
  have found : walk deep (readInode deep 0) [[97], [98], [99]] = .ok (some (deepInode 3)) := by decide +kernel
  have missed : inodeLookup deep (some (join [[97], [98], [99]])) = .ok none := by decide +kernel
  rw [found, missed]
  simp

end OsLabs.Ext2

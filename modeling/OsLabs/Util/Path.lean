import Mathlib.Data.List.TakeWhile
import OsLabs.Data.Memory

/-!
# Path strings

`strip`, `rootdir`, `filename`, `alldir` and `postname`. A C string is its bytes
without the NUL; `none` is the NULL pointer.
-/

namespace OsLabs.Util

def slash : Byte := 47

/-- For the empty string `strip` looks at the byte before it, which is no part of the string. -/
def strip (tmp : List Byte) : List Byte :=
  if tmp.length ≠ 1 ∧ tmp.getLast? = some slash then tmp.dropLast else tmp

def rootdir (path : Option (List Byte)) : Option (List Byte) :=
  match path with
  | none | some [] => none
  | some path => some (path.takeWhile (· ≠ slash))

/-- The first index with a slash that the loops from the end down to `lo` meet. -/
def lastSlash (lo : Nat) (path : List Byte) : Option Nat :=
  (List.range path.length).reverse.find? fun i => lo ≤ i ∧ path[i]? = some slash

def filename (path : Option (List Byte)) : Option (List Byte) :=
  match path with
  | none | some [] => none
  | some path =>
    match lastSlash 1 path with
    | some i => some (path.drop (i + 1))
    | none => some path

/-- Without a slash the cleared buffer is left as it is. -/
def alldir (path : Option (List Byte)) : Option (List Byte) :=
  match path with
  | none | some [] => none
  | some path =>
    match lastSlash 0 path with
    | some i => some (path.take i)
    | none => some []

def postname (path : Option (List Byte)) : Option (List Byte) :=
  match path with
  | none | some [] => none
  | some path =>
    match lastSlash 0 path with
    | some i => some (path.drop (i + 1))
    | none => some []

/-! ### The last slash -/

variable {path front back : List Byte} {lo i : Nat}

theorem lastSlash_none (plain : slash ∉ path) : lastSlash lo path = none := by
  refine List.find?_eq_none.mpr fun i _ => ?_
  simp only [decide_eq_true_eq]
  rintro ⟨-, here⟩
  exact plain (List.mem_of_getElem? here)

theorem lastSlash_append (plain : slash ∉ back) (low : lo ≤ front.length) :
    lastSlash lo (front ++ slash :: back) = some front.length := by
  have split : List.range (front ++ slash :: back).length =
      List.range front.length ++ front.length :: (List.range back.length).map (front.length + 1 + ·) := by
    rw [List.length_append, List.length_cons, List.range_add, List.range_succ_eq_map]
    simp [Function.comp_def, Nat.add_assoc, Nat.add_comm 1]
  have after : ∀ i ∈ ((List.range back.length).map (front.length + 1 + ·)).reverse,
      ¬(lo ≤ i ∧ (front ++ slash :: back)[i]? = some slash) := by
    intro i hi
    obtain ⟨j, hj, rfl⟩ := List.mem_map.mp (List.mem_reverse.mp hi)
    rintro ⟨-, here⟩
    rw [List.getElem?_append_right (by omega), show front.length + 1 + j - front.length = j + 1 by omega,
      List.getElem?_cons_succ] at here
    exact plain (List.mem_of_getElem? here)
  rw [lastSlash, split, List.reverse_append, List.reverse_cons, List.append_assoc, List.singleton_append,
    List.find?_append, List.find?_eq_none.mpr (by simpa using after), Option.none_or, List.find?_cons_of_pos]
  simp [low]

theorem rootdir_append (plain : slash ∉ front) (nonempty : front ≠ []) :
    rootdir (some (front ++ slash :: back)) = some front := by
  have before : ∀ x ∈ front, decide (x ≠ slash) = true := by
    intro x hx
    simp only [decide_eq_true_eq]
    rintro rfl
    exact plain hx
  cases front with
  | nil => exact absurd rfl nonempty
  | cons x front =>
    have := @List.takeWhile_append_of_pos _ _ _ (slash :: back) before
    simp only [rootdir, List.cons_append] at this ⊢
    rw [this]
    simp

theorem rootdir_plain (plain : slash ∉ path) (nonempty : path ≠ []) : rootdir (some path) = some path := by
  have all : path.takeWhile (· ≠ slash) = path := by
    rw [List.takeWhile_eq_self_iff]
    intro x hx
    simp only [decide_eq_true_eq]
    rintro rfl
    exact plain hx
  cases path with
  | nil => exact absurd rfl nonempty
  | cons x path => simp only [rootdir, all]

theorem postname_append (plain : slash ∉ back) : postname (some (front ++ slash :: back)) = some back := by
  have found : lastSlash 0 (front ++ slash :: back) = some front.length := lastSlash_append plain (Nat.zero_le _)
  cases front with
  | nil => simp only [postname, List.nil_append] at *; rw [found]; simp
  | cons x front =>
    simp only [postname, List.cons_append] at *
    rw [found]
    simp

theorem postname_plain (plain : slash ∉ path) (nonempty : path ≠ []) : postname (some path) = some [] := by
  cases path with
  | nil => exact absurd rfl nonempty
  | cons x path => simp only [postname, lastSlash_none plain]

/-! ### The characters of the parts -/

theorem strip_subset : strip path ⊆ path := by
  unfold strip
  split
  · exact List.dropLast_subset path
  · exact List.Subset.refl path

theorem rootdir_subset (found : rootdir (some path) = some front) : front ⊆ path := by
  cases path with
  | nil => cases found
  | cons x path =>
    simp only [rootdir] at found
    rw [← Option.some.inj found]
    exact (List.takeWhile_prefix _).subset

theorem postname_subset (found : postname (some path) = some back) : back ⊆ path := by
  cases path with
  | nil => cases found
  | cons x path =>
    simp only [postname] at found
    split at found
    · rw [← Option.some.inj found]
      exact List.drop_subset _ _
    · rw [← Option.some.inj found]
      exact List.nil_subset _

theorem alldir_subset (found : alldir (some path) = some front) : front ⊆ path := by
  cases path with
  | nil => cases found
  | cons x path =>
    simp only [alldir] at found
    split at found
    · rw [← Option.some.inj found]
      exact List.take_subset _ _
    · rw [← Option.some.inj found]
      exact List.nil_subset _

/-! ### Paths of components -/

/-- A component: neither empty nor with a slash or a NUL. -/
def Component (c : List Byte) : Prop := c ≠ [] ∧ slash ∉ c ∧ 0 ∉ c

instance (c : List Byte) : Decidable (Component c) := inferInstanceAs (Decidable (_ ∧ _ ∧ _))

def join : List (List Byte) → List Byte
  | [] => []
  | [c] => c
  | c :: cs => c ++ slash :: join cs

variable {c d : List Byte} {cs : List (List Byte)}

theorem join_ne_nil (hc : Component c) : join (c :: cs) ≠ [] := by
  cases cs with
  | nil => exact hc.1
  | cons d cs => simp [join]

theorem join_snoc (cs : List (List Byte)) (nonempty : cs ≠ []) : join (cs ++ [d]) = join cs ++ slash :: d := by
  induction cs with
  | nil => exact absurd rfl nonempty
  | cons c cs ih =>
    cases cs with
    | nil => rfl
    | cons e cs =>
      have := ih (by simp)
      simp only [List.cons_append, join] at this ⊢
      rw [this]
      simp

theorem getLast_join (nonempty : cs ≠ []) (all : ∀ c ∈ cs, Component c) : (join cs).getLast? ≠ some slash := by
  obtain ⟨front, d, rfl⟩ := List.eq_nil_or_concat cs |>.resolve_left nonempty
  have hd := all d (by simp)
  obtain ⟨init, last, rfl⟩ := List.eq_nil_or_concat d |>.resolve_left hd.1
  have : last ≠ slash := by
    rintro rfl
    exact hd.2.1 (by simp)
  cases front with
  | nil => simpa [join] using this
  | cons c front =>
    rw [List.concat_eq_append, List.concat_eq_append, join_snoc _ (by simp)]
    simpa [List.getLast?_append, List.getLast?_cons] using this

theorem strip_join (nonempty : cs ≠ []) (all : ∀ c ∈ cs, Component c) (trailing : Bool) :
    strip (join cs ++ if trailing then [slash] else []) = join cs := by
  obtain ⟨c, cs, rfl⟩ := List.exists_cons_of_ne_nil nonempty
  have pos := List.length_pos_of_ne_nil (@join_ne_nil _ cs (all c List.mem_cons_self))
  cases trailing with
  | true =>
    have long : (join (c :: cs) ++ [slash]).length ≠ 1 := by
      rw [List.length_append, List.length_singleton]
      omega
    simp [strip, pos.ne']
  | false => simp [strip, getLast_join nonempty all]

end OsLabs.Util

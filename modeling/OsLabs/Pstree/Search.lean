import OsLabs.Data.Exchange
import OsLabs.Pstree.Getinfo
import Mathlib.Data.List.Lex
import Mathlib.Data.Int.Order.Basic

/-!
# The order of the children

The loops of `search` over `cur->son`. Names are compared as `char`s, which are signed.
-/

namespace OsLabs.Pstree
open Util

instance : Inhabited Process := ⟨⟨0, 0, [], [], []⟩⟩

def schar (b : Byte) : Int := b.toBitVec.toInt

/-- `cpr`, with the characters that are still to be compared. -/
def cpr : List Byte → List Byte → Bool
  | x :: a, y :: b => if schar y < schar x then true else if schar x < schar y then false else cpr a b
  | a, b => b.length < a.length

def belongsBehind (issort : Bool) (x y : Process) : Bool := if issort then y.pid.slt x.pid else cpr x.name y.name

def sortSons (issort : Bool) (son : List Process) : List Process :=
  live (exchangeSort (belongsBehind issort) son.length fun i => son.getD i default) son.length

/-! ### Names -/

theorem cpr_iff (a b : List Byte) : cpr a b = true ↔ b.map schar < a.map schar := by
  induction a generalizing b with
  | nil => simp [cpr]
  | cons x a ih =>
    cases b with
    | nil => simp [cpr]
    | cons y b =>
      unfold cpr
      rw [List.map_cons, List.map_cons, List.cons_lt_cons_iff, ← ih]
      by_cases above : schar y < schar x
      · simp [above]
      · by_cases below : schar x < schar y
        · have other : schar y ≠ schar x := by omega
          simp [above, below, other]
        · have same : schar y = schar x := by omega
          simp [same]

theorem cpr_false_iff (a b : List Byte) : cpr a b = false ↔ a.map schar ≤ b.map schar := by
  rw [← Bool.not_eq_true, cpr_iff, not_lt]

/-- A proper prefix stands first. -/
theorem cpr_prefix (a : List Byte) {b : List Byte} (nonempty : b ≠ []) :
    cpr (a ++ b) a = true ∧ cpr a (a ++ b) = false := by
  induction a with
  | nil =>
    have longer := List.length_pos_of_ne_nil nonempty
    cases b with
    | nil => exact absurd rfl nonempty
    | cons => exact ⟨rfl, rfl⟩
  | cons x a ih => simpa [cpr] using ih

/-! ### Children -/

theorem belongsBehind_preordered (issort : Bool) : Preordered (belongsBehind issort) := by
  cases issort
  · refine ⟨fun x y behind => ?_, fun x y z first second => ?_⟩
    · exact (cpr_false_iff _ _).mpr ((cpr_iff _ _).mp behind).le
    · exact (cpr_false_iff _ _).mpr (((cpr_false_iff _ _).mp first).trans ((cpr_false_iff _ _).mp second))
  · refine ⟨fun x y behind => ?_, fun x y z first second => ?_⟩ <;> simp [belongsBehind, BitVec.slt] at * <;> omega

theorem sortSons_perm (issort : Bool) (son : List Process) : (sortSons issort son).Perm son := by
  have all : live (fun i => son.getD i default) son.length = son := by
    apply List.ext_getElem (by simp [live])
    intro i _ inside
    simp [live, inside]
  have kept := (exchangeSort_rearranged (belongsBehind issort) son.length fun i => son.getD i default).perm
  rwa [all] at kept

/-- **Behind the loops the children are all there, by their ids with `-n` and else by their names.** -/
theorem sortSons_sorted (son : List Process) :
    ((sortSons true son).Perm son ∧ (sortSons true son).Pairwise fun x y => x.pid.toInt ≤ y.pid.toInt) ∧
    ((sortSons false son).Perm son ∧ (sortSons false son).Pairwise fun x y => x.name.map schar ≤ y.name.map schar) ∧
    (∀ a b, cpr a b = true ↔ b.map schar < a.map schar) ∧
    ∀ a b : List Byte, b ≠ [] → cpr (a ++ b) a = true ∧ cpr a (a ++ b) = false := by
  refine ⟨⟨sortSons_perm true son, ?_⟩, ⟨sortSons_perm false son, ?_⟩, cpr_iff, fun a b => cpr_prefix a⟩
  · refine (exchangeSort_pairwise (belongsBehind_preordered true) son.length _).imp fun {x y} right => ?_
    simpa [belongsBehind, BitVec.slt] using right
  · exact (exchangeSort_pairwise (belongsBehind_preordered false) son.length _).imp fun {x y} right =>
      (cpr_false_iff _ _).mp right

end OsLabs.Pstree

import Mathlib.Data.List.Nodup
import Mathlib.Logic.Equiv.Basic

/-!
# Exchange sort

Two nested loops over an array that exchange two elements whenever the first one belongs
behind the second one. The elements are rearranged whatever the comparison does; they are
in order behind the loops if it is that of a total preorder.
-/

namespace OsLabs
open Function

variable {α : Type} {a b c : Nat → α} {out : α → α → Bool} {n m i j k : Nat}

/-- The elements with an index below `n`. -/
def live (a : Nat → α) (n : Nat) : List α := (List.range n).map a

def exchange (a : Nat → α) (i j : Nat) : Nat → α := update (update a i (a j)) j (a i)

/-- The body of the outer loop, with `j` running over the indices given. -/
def exchangeFrom (out : α → α → Bool) (i : Nat) (a : Nat → α) (js : List Nat) : Nat → α :=
  js.foldl (fun a j => if out (a i) (a j) then exchange a i j else a) a

/-- `for (int i = 0; i < n; ++i) for (int j = i + 1; j < n; ++j)`; `out x y` says that `x` belongs behind `y`. -/
def exchangeSort (out : α → α → Bool) (n : Nat) (a : Nat → α) : Nat → α :=
  (List.range n).foldl (fun a i => exchangeFrom out i a (List.range' (i + 1) (n - (i + 1)))) a

/-! ### The elements are kept -/

/-- The elements below `n` in another order. -/
def Rearranged (n : Nat) (a b : Nat → α) : Prop := ∃ p : Equiv.Perm Nat, (∀ i, n ≤ i → p i = i) ∧ b = a ∘ p

theorem exchange_eq (a : Nat → α) (i j : Nat) : exchange a i j = a ∘ Equiv.swap i j := by
  rw [exchange, Equiv.swap_comm, Equiv.comp_swap_eq_update]

namespace Rearranged

theorem refl (n : Nat) (a : Nat → α) : Rearranged n a a := ⟨Equiv.refl Nat, fun _ _ => rfl, rfl⟩

theorem trans (h : Rearranged n a b) (h' : Rearranged n b c) : Rearranged n a c := by
  obtain ⟨p, fixed, rfl⟩ := h
  obtain ⟨q, fixed', rfl⟩ := h'
  refine ⟨q.trans p, fun i high => ?_, rfl⟩
  rw [Equiv.trans_apply, fixed' i high, fixed i high]

theorem exchange (a : Nat → α) (hi : i < n) (hj : j < n) : Rearranged n a (exchange a i j) := by
  refine ⟨Equiv.swap i j, fun k high => ?_, exchange_eq a i j⟩
  exact Equiv.swap_apply_of_ne_of_ne (by omega) (by omega)

theorem kept (h : Rearranged n a b) (high : n ≤ i) : b i = a i := by
  obtain ⟨p, fixed, rfl⟩ := h
  exact congrArg a (fixed i high)

theorem perm (h : Rearranged n a b) : (live b n).Perm (live a n) := by
  obtain ⟨p, fixed, rfl⟩ := h
  have indices : ((List.range n).map p).Perm (List.range n) := by
    apply (List.perm_ext_iff_of_nodup (List.nodup_range.map p.injective) List.nodup_range).mpr
    intro i
    rw [List.mem_map, List.mem_range]
    constructor
    · rintro ⟨j, low, rfl⟩
      by_contra high
      have same := p.injective (fixed (p j) (Nat.le_of_not_lt high))
      rw [same] at high
      exact high (List.mem_range.mp low)
    · intro low
      refine ⟨p.symm i, List.mem_range.mpr ?_, p.apply_symm_apply i⟩
      by_contra high
      have same := fixed _ (Nat.le_of_not_lt high)
      rw [p.apply_symm_apply] at same
      rw [← same] at high
      exact high low
  have mapped := indices.map a
  rwa [List.map_map] at mapped

end Rearranged

theorem exchangeFrom_rearranged (hi : i < n) {js : List Nat} (inside : ∀ j ∈ js, j < n) :
    Rearranged n a (exchangeFrom out i a js) := by
  induction js generalizing a with
  | nil => exact .refl n a
  | cons j js ih =>
    obtain ⟨hj, inside⟩ := List.forall_mem_cons.mp inside
    rw [exchangeFrom, List.foldl_cons]
    split
    · exact (Rearranged.exchange a hi hj).trans (ih inside)
    · exact ih inside

theorem inner_inside (mem : j ∈ List.range' (i + 1) (n - (i + 1))) : i < j ∧ j < n := by
  have bounds := List.mem_range'_1.mp mem
  omega

/-- The elements below `n` are rearranged and no others are touched, whatever the comparison. -/
theorem exchangeSort_rearranged (out : α → α → Bool) (n : Nat) (a : Nat → α) :
    Rearranged n a (exchangeSort out n a) := by
  have rounds (is : List Nat) (inside : ∀ i ∈ is, i < n) (a : Nat → α) : Rearranged n a
      (is.foldl (fun a i => exchangeFrom out i a (List.range' (i + 1) (n - (i + 1)))) a) := by
    induction is generalizing a with
    | nil => exact .refl n a
    | cons i is ih =>
      obtain ⟨hi, inside⟩ := List.forall_mem_cons.mp inside
      have first : Rearranged n a (exchangeFrom out i a (List.range' (i + 1) (n - (i + 1)))) :=
        exchangeFrom_rearranged hi fun j mem => (inner_inside mem).2
      exact first.trans (ih inside _)
  exact rounds _ (fun i mem => List.mem_range.mp mem) a

/-! ### The elements are ordered -/

/-- A comparison that never puts two elements behind each other, and is transitive where it does not. -/
structure Preordered (out : α → α → Bool) : Prop where
  asymm : ∀ x y, out x y = true → out y x = false
  trans : ∀ x y z, out x y = false → out y z = false → out x z = false

theorem exchange_first (a : Nat → α) (i j : Nat) : exchange a i j i = a j := by
  rw [exchange_eq, comp_apply, Equiv.swap_apply_left]

theorem exchange_second (a : Nat → α) (i j : Nat) : exchange a i j j = a i := by
  rw [exchange_eq, comp_apply, Equiv.swap_apply_right]

theorem exchange_other (a : Nat → α) (hi : k ≠ i) (hj : k ≠ j) : exchange a i j k = a k := by
  rw [exchange_eq, comp_apply, Equiv.swap_apply_of_ne_of_ne hi hj]

/-- The first `i` elements are in order, and in front of all others below `n`. -/
def Sorted (out : α → α → Bool) (n i : Nat) (a : Nat → α) : Prop :=
    ∀ p q, p < i → p < q → q < n → out (a p) (a q) = false

theorem Sorted.exchange (h : Sorted out n i a) (hi : i < n) (hj : i < j) (hn : j < n) :
    Sorted out n i (exchange a i j) := by
  intro p q low less high
  have first : OsLabs.exchange a i j p = a p := exchange_other a (by omega) (by omega)
  rw [first]
  by_cases qi : q = i
  · rw [qi, exchange_first]
    exact h p j low (by omega) hn
  · by_cases qj : q = j
    · rw [qj, exchange_second]
      exact h p i low low hi
    · rw [exchange_other a qi qj]
      exact h p q low less high

/-- One round: no element that `j` has passed belongs in front of the one at `i`. -/
theorem exchangeFrom_sorted (order : Preordered out) (hi : i < n) (sorted : Sorted out n i a) (start : i < m)
    (passed : ∀ q, i < q → q < m → out (a i) (a q) = false) (room : m + k = n) :
    Sorted out n (i + 1) (exchangeFrom out i a (List.range' m k)) := by
  induction k generalizing a m with
  | zero =>
    intro p q low less high
    by_cases last : p = i
    · rw [last]
      exact passed q (last ▸ less) (by omega)
    · exact sorted p q (by omega) less high
  | succ k ih =>
    rw [List.range'_succ, exchangeFrom, List.foldl_cons]
    split
    · rename_i wrong
      refine ih (sorted.exchange hi start (by omega)) (by omega) (fun q above below => ?_) (by omega)
      rw [exchange_first]
      by_cases new : q = m
      · rw [new, exchange_second]
        exact order.asymm _ _ wrong
      · rw [exchange_other a (by omega) new]
        exact order.trans _ _ _ (order.asymm _ _ wrong) (passed q above (by omega))
    · rename_i right
      refine ih sorted (by omega) (fun q above below => ?_) (by omega)
      by_cases new : q = m
      · rw [new]
        exact Bool.eq_false_iff.mpr right
      · exact passed q above (by omega)

theorem exchangeSort_sorted (order : Preordered out) (n : Nat) (a : Nat → α) :
    Sorted out n n (exchangeSort out n a) := by
  have rounds (k : Nat) (bound : k ≤ n) : Sorted out n k
      ((List.range k).foldl (fun a i => exchangeFrom out i a (List.range' (i + 1) (n - (i + 1)))) a) := by
    induction k with
    | zero => intro p q low; omega
    | succ k ih =>
      rw [List.range_succ, List.foldl_append]
      exact exchangeFrom_sorted order bound (ih (by omega)) (Nat.lt_succ_self k)
        (fun q above below => by omega) (by omega)
  exact rounds n (Nat.le_refl n)

/-- **Behind the loops no element is out of order.** -/
theorem exchangeSort_pairwise (order : Preordered out) (n : Nat) (a : Nat → α) :
    (live (exchangeSort out n a) n).Pairwise fun x y => out x y = false := by
  have sorted := exchangeSort_sorted order n a
  refine List.pairwise_map.mpr (List.pairwise_lt_range.imp_of_mem fun hp hq less => ?_)
  exact sorted _ _ (List.mem_range.mp hp) less (List.mem_range.mp hq)

end OsLabs

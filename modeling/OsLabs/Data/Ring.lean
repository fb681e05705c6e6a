import Mathlib.Data.List.Basic
import Mathlib.Logic.Function.Basic
import Mathlib.Order.Nat

/-! Circular buffers: the cells of an array of `n` that hold a queue, the oldest entry first. -/

namespace OsLabs
open Function

/-- The `n` cells hold `l` from `front` on, and `rear` is the cell after its last entry. -/
structure Ring {α : Type*} (n : Nat) (cell : Nat → α) (front rear : Nat) (l : List α) : Prop where
  front_lt : front < n
  rear_eq : rear = (front + l.length) % n
  room : l.length < n
  cells : ∀ i x, l[i]? = some x → cell ((front + i) % n) = x

namespace Ring

variable {α : Type*} {n front rear : Nat} {cell : Nat → α} {l : List α} {x : α}

theorem slot_eq {i : Nat} (lt : front < n) (le : i ≤ n) :
    (front + i) % n = if front + i < n then front + i else front + i - n := by
  split
  · rename_i small
    exact Nat.mod_eq_of_lt small
  · rw [Nat.mod_eq_sub_mod (by omega), Nat.mod_eq_of_lt (by omega)]

theorem slot_inj {i j : Nat} (lt : front < n) (hi : i < n) (hj : j < n)
    (h : (front + i) % n = (front + j) % n) : i = j := by
  rw [slot_eq lt hi.le, slot_eq lt hj.le] at h
  split at h <;> split at h <;> omega

theorem wrap_eq {r : Nat} (lt : r < n) : (if r + 1 = n then 0 else r + 1) = (r + 1) % n := by
  split
  · rename_i last
    rw [last, Nat.mod_self]
  · rw [Nat.mod_eq_of_lt (by omega)]

/-- Stepping back from a cell that was reached by wrapping. -/
theorem unwrap_eq {r : Nat} (lt : r < n) : (if (r + 1) % n = 0 then n else (r + 1) % n) - 1 = r := by
  rcases Nat.lt_or_ge (r + 1) n with small | large
  · rw [Nat.mod_eq_of_lt small, if_neg (Nat.succ_ne_zero r), Nat.add_sub_cancel]
  · rw [show r + 1 = n by omega, Nat.mod_self, if_pos rfl]
    omega

theorem rear_lt (h : Ring n cell front rear l) : rear < n := by
  rw [h.rear_eq]
  exact Nat.mod_lt _ (Nat.zero_lt_of_lt h.front_lt)

theorem empty (lt : front < n) : Ring n cell front front [] where
  front_lt := lt
  rear_eq := by rw [List.length_nil, Nat.add_zero, Nat.mod_eq_of_lt lt]
  room := Nat.zero_lt_of_lt lt
  cells := by simp

theorem empty_iff (h : Ring n cell front rear l) : rear = front ↔ l = [] := by
  constructor
  · intro same
    have slot := h.rear_eq
    rw [slot_eq h.front_lt h.room.le, same] at slot
    have bound := h.room
    have := h.front_lt
    apply List.length_eq_zero_iff.mp
    split at slot <;> omega
  · rintro rfl
    rw [h.rear_eq, List.length_nil, Nat.add_zero, Nat.mod_eq_of_lt h.front_lt]

theorem next_rear (h : Ring n cell front rear l) : (rear + 1) % n = (front + (l.length + 1)) % n := by
  rw [h.rear_eq, Nat.mod_add_mod, Nat.add_assoc]

/-- One more entry makes the indices meet exactly when one cell is left. -/
theorem full_iff (h : Ring n cell front rear l) : (rear + 1) % n = front ↔ l.length + 1 = n := by
  have lt := h.front_lt
  have bound := h.room
  rw [h.next_rear, slot_eq lt (by omega)]
  split <;> omega

theorem congr {cell' : Nat → α} (h : Ring n cell front rear l)
    (same : ∀ i < l.length, cell' ((front + i) % n) = cell ((front + i) % n)) :
    Ring n cell' front rear l where
  front_lt := h.front_lt
  rear_eq := h.rear_eq
  room := h.room
  cells i x hx := (same i (List.getElem?_eq_some_iff.mp hx).1).trans (h.cells i x hx)

/-- The cell at `rear` is none of those in use. -/
theorem write_rear (h : Ring n cell front rear l) : Ring n (update cell rear x) front rear l := by
  apply h.congr
  intro i hi
  rw [update_of_ne]
  intro same
  rw [h.rear_eq] at same
  have := slot_inj h.front_lt (hi.trans h.room) h.room same
  omega

theorem push (h : Ring n cell front rear l) (free : l.length + 1 < n) :
    Ring n (update cell rear x) front ((rear + 1) % n) (l ++ [x]) where
  front_lt := h.front_lt
  rear_eq := by rw [h.next_rear, List.length_append, List.length_singleton]
  room := by simpa using free
  cells i y hy := by
    rw [List.getElem?_append] at hy
    split at hy
    · exact h.write_rear.cells i y hy
    · obtain ⟨at_end, rfl⟩ : i = l.length ∧ x = y := by
        rw [List.getElem?_singleton] at hy
        split at hy
        · exact ⟨by omega, Option.some.inj hy⟩
        · cases hy
      rw [at_end, ← h.rear_eq, update_self]

theorem pop (h : Ring n cell front rear (x :: l)) :
    cell front = x ∧ Ring n cell ((front + 1) % n) rear l := by
  refine ⟨?_, Nat.mod_lt _ (Nat.zero_lt_of_lt h.front_lt), ?_, ?_, ?_⟩
  · have first := h.cells 0 x rfl
    rwa [Nat.add_zero, Nat.mod_eq_of_lt h.front_lt] at first
  · rw [h.rear_eq, List.length_cons, Nat.mod_add_mod]
    congr 1
    omega
  · exact Nat.lt_of_succ_lt h.room
  · intro i y hy
    rw [Nat.mod_add_mod, Nat.add_assoc, Nat.add_comm 1]
    exact h.cells (i + 1) y hy

theorem pop_back (h : Ring n cell front rear (l ++ [x])) :
    ∃ last, rear = (last + 1) % n ∧ last < n ∧ cell last = x ∧ Ring n cell front last l := by
  have lt := h.front_lt
  refine ⟨(front + l.length) % n, ?_, Nat.mod_lt _ (Nat.zero_lt_of_lt lt), ?_, lt, rfl, ?_, ?_⟩
  · rw [h.rear_eq, Nat.mod_add_mod, List.length_append, List.length_singleton, Nat.add_assoc]
  · exact h.cells l.length x (by simp)
  · have := h.room
    rw [List.length_append, List.length_singleton] at this
    omega
  · intro i y hy
    apply h.cells i y
    rw [List.getElem?_append_left (List.getElem?_eq_some_iff.mp hy).1, hy]

theorem drop {l₁ l₂ : List α} (h : Ring n cell front rear (l₁ ++ l₂)) :
    Ring n cell ((front + l₁.length) % n) rear l₂ := by
  induction l₁ generalizing front with
  | nil => simpa [Nat.mod_eq_of_lt h.front_lt] using h
  | cons x l₁ ih =>
    have rest := ih h.pop.2
    rwa [Nat.mod_add_mod, Nat.add_assoc, Nat.add_comm 1] at rest

end Ring

/-- The entries between the two indices, read off the cells. -/
def ringContents {α : Type*} (n : Nat) (cell : Nat → α) (front rear : Nat) : List α :=
  (List.range ((rear + n - front) % n)).map fun i => cell ((front + i) % n)

theorem Ring.ringContents_eq {α : Type*} {n front rear : Nat} {cell : Nat → α} {l : List α}
    (h : Ring n cell front rear l) : ringContents n cell front rear = l := by
  have lt := h.front_lt
  have bound := h.room
  have size : (rear + n - front) % n = l.length := by
    rw [h.rear_eq, slot_eq lt bound.le]
    split
    · rw [show front + l.length + n - front = l.length + n by omega, Nat.add_mod_right,
        Nat.mod_eq_of_lt bound]
    · rw [show front + l.length - n + n - front = l.length by omega, Nat.mod_eq_of_lt bound]
  unfold ringContents
  rw [size]
  apply List.ext_getElem?
  intro i
  rw [List.getElem?_map]
  by_cases small : i < l.length
  · rw [List.getElem?_range small, Option.map_some, List.getElem?_eq_getElem small]
    exact congrArg some (h.cells i _ (List.getElem?_eq_getElem small))
  · rw [List.getElem?_eq_none (by simpa using small), List.getElem?_eq_none (by omega), Option.map_none]

end OsLabs

import OsLabs.Data.Memory

/-!
# C strings in a buffer

`strlen`, `strncpy` and `strcat` on a buffer of bytes. `none` is a read or a write
past the end of a buffer.
-/

namespace OsLabs

def poke (buf : List Byte) (offset : Nat) (bytes : List Byte) : Option (List Byte) :=
  if offset + bytes.length ≤ buf.length then some (buf.take offset ++ (bytes ++ buf.drop (offset + bytes.length)))
  else none

def strlen (buf : List Byte) : Option Nat := buf.findIdx? (· = 0)

/-- The `n` bytes that `strncpy` stores; the source pointer stays on its NUL. -/
def strncpyBytes : List Byte → Nat → Option (List Byte)
  | _, 0 => some []
  | [], _ + 1 => none
  | c :: src, n + 1 => if c = 0 then (strncpyBytes (c :: src) n).map (c :: ·) else (strncpyBytes src n).map (c :: ·)

def strncpy (buf : List Byte) (offset : Nat) (src : List Byte) (n : Nat) : Option (List Byte) := do
  poke buf offset (← strncpyBytes src n)

def strcat (buf src : List Byte) : Option (List Byte) := do
  poke buf (← strlen buf) (src ++ [0])

variable {front text tail src : List Byte} {offset : Nat}

/-- A store behind `front` is a store in what follows it. -/
theorem poke_behind : poke (front ++ tail) (front.length + offset) src = (poke tail offset src).map (front ++ ·) := by
  have room : front.length + offset + src.length ≤ (front ++ tail).length ↔ offset + src.length ≤ tail.length := by
    rw [List.length_append]
    omega
  simp only [poke, room]
  split
  · rw [List.take_length_add_append, Nat.add_assoc, List.drop_length_add_append, List.append_assoc]
    rfl
  · rfl

theorem prefix_of_poke {buf : List Byte} (behind : front.length ≤ offset)
    (done : poke (front ++ tail) offset src = some buf) : front <+: buf := by
  obtain ⟨d, rfl⟩ := Nat.exists_eq_add_of_le behind
  rw [poke_behind] at done
  obtain ⟨rest, -, rfl⟩ := Option.map_eq_some_iff.mp done
  exact List.prefix_append front rest

theorem poke_start :
    poke tail 0 src = if src.length ≤ tail.length then some (src ++ tail.drop src.length) else none := by
  simp [poke]

theorem strlen_append (plain : 0 ∉ text) : strlen (text ++ tail) = (strlen tail).map (text.length + ·) := by
  have none : text.findIdx? (· = 0) = none := List.findIdx?_eq_none_iff.mpr fun x mem => by
    have other : x ≠ 0 := fun zero => plain (zero ▸ mem)
    simpa using other
  rw [strlen, List.findIdx?_append, none, Option.none_or]
  simp only [Nat.add_comm]
  rfl

theorem strlen_string (plain : 0 ∉ text) : strlen (text ++ 0 :: tail) = some text.length := by
  rw [strlen_append plain]
  rfl

/-- What stands before a string is kept. -/
theorem strcat_append (plain : 0 ∉ text) : strcat (text ++ tail) src = (strcat tail src).map (text ++ ·) := by
  simp only [strcat, strlen_append plain]
  cases strlen tail with
  | none => rfl
  | some i => exact poke_behind

/-- The empty string becomes `src`, and any other keeps its first byte, which is no NUL. -/
theorem strcat_head {c d : Byte} {rest : List Byte} (done : strcat tail (c :: src) = some (d :: rest)) :
    d = c ∨ d ≠ 0 := by
  cases tail with
  | nil => cases done
  | cons x tail =>
    rw [strcat, strlen, List.findIdx?_cons] at done
    by_cases zero : x = 0
    · left
      simp only [zero, decide_true, if_true] at done
      change poke _ 0 _ = _ at done
      rw [poke_start] at done
      split at done
      · exact (List.cons.inj (Option.some.inj done)).1.symm
      · cases done
    · right
      simp only [zero, decide_false, Bool.false_eq_true, if_false] at done
      cases found : tail.findIdx? (· = 0) with
      | none =>
        rw [found] at done
        cases done
      | some i =>
        rw [found] at done
        change poke _ (i + 1) _ = _ at done
        unfold poke at done
        split at done
        · have head : x = d := (List.cons.inj (Option.some.inj done)).1
          rwa [← head]
        · cases done

theorem strcat_length {buf : List Byte} (done : strcat tail src = some buf) : buf.length = tail.length := by
  unfold strcat at done
  obtain ⟨i, -, done⟩ := Option.bind_eq_some_iff.mp done
  unfold poke at done
  split at done
  · rename_i room
    rw [← Option.some.inj done]
    simp only [List.length_append, List.length_take, List.length_drop] at room ⊢
    omega
  · cases done

/-- Copying a string without its NUL. -/
theorem strncpyBytes_string (plain : 0 ∉ text) : strncpyBytes (text ++ tail) text.length = some text := by
  induction text with
  | nil => cases tail <;> rfl
  | cons c text ih =>
    have other : c ≠ 0 := fun zero => plain (zero ▸ List.mem_cons_self)
    rw [List.cons_append, List.length_cons, strncpyBytes, if_neg other,
      ih fun mem => plain (List.mem_cons_of_mem c mem)]
    rfl

end OsLabs

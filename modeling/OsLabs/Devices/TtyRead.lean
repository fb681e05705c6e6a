import OsLabs.Devices.Tty

/-!
# The buffer of a tty read

`tty_read` counts the bytes of the line, and stores those for which the caller's buffer
has room. Callers take the count for the number of bytes stored.
-/

namespace OsLabs.Devices

/-- The section of `tty_read` under `tty->lock`, with the index of each byte stored. -/
def ttyReadStores (tty : Tty) (count : Nat) : Option (Tty × List (Byte × Nat) × Nat) := do
  let (front, stores, nread) ← readStores tty.queue.buf count ttyCookBufSz tty.queue.front [] 0
  some ({ tty with queue := { tty.queue with front := front } }, stores, nread)

variable {tty tty' : Tty} {count nread : Nat} {stores : List (Byte × Nat)} {line rest : List Byte}

/-- What is expected of a read with a completed line first in the queue: it takes the line with its terminator, and
returns how many bytes it stored, all of them inside the buffer, as is the last byte that the caller overwrites. -/
structure ReadsLine (tty : Tty) (count : Nat) (rest : List Byte) (tty' : Tty)
    (stores : List (Byte × Nat)) (nread : Nat) :
    Prop where
  takes : tty'.queue.Contains rest ∧ tty'.queue.rear = tty.queue.rear
  value : nread = stores.length
  bound : nread ≤ count
  inside : ∀ store ∈ stores, store.2 < count
  terminator : 0 ≤ (nread : Int) - 1 ∧ (nread : Int) - 1 < count

theorem ttyReadStores_line (h : tty.queue.Contains (line ++ 0 :: rest)) (text : (0 : Byte) ∉ line) :
    ∃ tty', ttyReadStores tty count = some (tty', (line.take count).zipIdx, line.length) ∧ tty'.queue.Contains rest ∧
      tty'.queue.rear = tty.queue.rear := by
  have enough : line.length < ttyCookBufSz := by
    have bound := h.ring.room
    rw [List.length_append] at bound
    omega
  have loop := @readStores_line _ _ count _ _ _ 0 [] _ h.ring text enough
  refine ⟨{ tty with queue := { tty.queue with front := (tty.queue.front + (line.length + 1)) % ttyCookBufSz } }, ?_,
    contains_drop h, rfl⟩
  rw [ttyReadStores, loop]
  simp

/-- A read of a line is as expected exactly when the line is not empty and not longer than the buffer. -/
theorem ttyRead_readsLine (tty : Tty) (count : Nat) (line rest : List Byte) (h : tty.queue.Contains (line ++ 0 :: rest))
    (text : (0 : Byte) ∉ line) : ∃ tty' stores nread, ttyReadStores tty count = some (tty', stores, nread) ∧
      (ReadsLine tty count rest tty' stores nread ↔ 1 ≤ line.length ∧ line.length ≤ count) := by
  obtain ⟨tty', done, contains, rear⟩ := @ttyReadStores_line tty count line rest h text
  refine ⟨tty', _, _, done, ?_, ?_⟩
  · rintro ⟨-, -, bound, -, low, -⟩
    omega
  · rintro ⟨low, high⟩
    refine ⟨⟨contains, rear⟩, ?_, high, ?_, by omega, by omega⟩
    · rw [List.length_zipIdx, List.length_take, Nat.min_eq_right high]
    · rintro ⟨ch, i⟩ mem
      have index := (List.mem_zipIdx mem).2.1
      rw [List.length_take] at index
      omega

def oneLine (text : List Byte) : Tty := ⟨⟨fun i => text[i]?.getD 0, 0, text.length + 1⟩, 1⟩

theorem oneLine_contains (short : line.length + 2 ≤ ttyCookBufSz) :
    (oneLine line).queue.Contains (line ++ 0 :: []) := by
  refine ⟨⟨bufSz_pos, ?_, ?_, ?_⟩, ?_⟩
  · simp only [oneLine, List.length_append, List.length_cons, List.length_nil, Nat.zero_add]
    rw [Nat.mod_eq_of_lt (by omega)]
  · rw [List.length_append, List.length_cons, List.length_nil]
    omega
  · intro i x here
    have small : i < line.length + 1 := by simpa using (List.getElem?_eq_some_iff.mp here).1
    simp only [oneLine, Nat.zero_add]
    rw [Nat.mod_eq_of_lt (by omega)]
    rcases Nat.lt_succ_iff_lt_or_eq.mp small with inside | rfl
    · rw [List.getElem?_append_left inside] at here
      rw [here, Option.getD_some]
    · rw [List.getElem?_append_right (Nat.le_refl _), Nat.sub_self] at here
      rw [List.getElem?_eq_none (Nat.le_refl _), Option.getD_none]
      exact Option.some.inj here
  · simp only [oneLine, Nat.zero_add]
    rw [Nat.mod_eq_of_lt (Nat.sub_lt bufSz_pos Nat.one_pos), List.getElem?_eq_none (by omega), Option.getD_none]

/-- "ab" and a newline, read into 8 bytes. -/
theorem ttyRead_readsLine_sample :
    ∃ tty' stores nread, ttyReadStores (oneLine [97, 98, 10]) 8 = some (tty', stores, nread) ∧
    (ReadsLine (oneLine [97, 98, 10]) 8 [] tty' stores nread ↔ 1 ≤ [97, 98, 10].length ∧ [97, 98, 10].length ≤ 8) :=
  ttyRead_readsLine _ _ _ _ (oneLine_contains (by decide)) (by decide)

/-- A line of 128 characters and a newline, read into the 128 bytes of the shell. -/
theorem ttyRead_readsLine_counterexample :
    ¬∀ (tty : Tty) (count : Nat) (line rest : List Byte), tty.queue.Contains (line ++ 0 :: rest) → (0 : Byte) ∉ line →
      ∃ tty' stores nread, ttyReadStores tty count = some (tty', stores, nread) ∧
        ReadsLine tty count rest tty' stores nread := by
  intro all
  have contains := @oneLine_contains (List.replicate 128 97 ++ [10]) (by simp [ttyCookBufSz])
  have text : (0 : Byte) ∉ List.replicate 128 97 ++ [10] := by decide +kernel
  obtain ⟨_, _, _, done, reads⟩ := all _ 128 _ _ contains text
  obtain ⟨_, done', -⟩ := @ttyReadStores_line _ 128 _ _ contains text
  rw [done'] at done
  cases done
  have bound := reads.bound
  rw [List.length_append, List.length_replicate, List.length_singleton] at bound
  omega

end OsLabs.Devices

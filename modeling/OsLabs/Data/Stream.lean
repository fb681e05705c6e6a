import Mathlib.Data.List.TakeWhile
import OsLabs.Data.Memory

/-!
# Byte files with a position

A file opened by the C library, seen as its bytes and the position in them. The
stream also records where each seek went and what each `%s` conversion stored,
which the callers' bounds are about.
-/

namespace OsLabs

/-- `seeks` are the targets of the seeks so far, with the length of the file at the time, and
`stores` the number of bytes that each `%s` stored, with the room the caller gave it. -/
structure Stream where
  bytes : List Byte
  pos : Nat
  seeks : List (Int × Nat)
  stores : List (Nat × Int)

def isspace (b : Byte) : Bool := b = 32 || (9 ≤ b && b ≤ 13)

namespace Stream

def opened (bytes : List Byte) : Stream := ⟨bytes, 0, [], []⟩

/-- A seek before the start of the file fails and moves nothing. -/
def seek (f : Stream) (target : Int) : Stream :=
  { f with pos := if 0 ≤ target then target.toNat else f.pos, seeks := (target, f.bytes.length) :: f.seeks }

def seekCur (f : Stream) (offset : Int) : Stream := f.seek (f.pos + offset)

def seekEnd (f : Stream) : Stream := f.seek f.bytes.length

/-- `%c`: the byte read, or `old` at the end of the file. -/
def getByte (f : Stream) (old : Byte) : Byte × Stream :=
  match f.bytes[f.pos]? with
  | some b => (b, { f with pos := f.pos + 1 })
  | none => (old, f)

/-- `%s`: the next word is stored with a terminating zero in `room` bytes; nothing is stored
when only white space is left. -/
def getWord (f : Stream) (room : Int) : Option (List Byte) × Stream :=
  let rest := f.bytes.drop f.pos
  let text := rest.dropWhile isspace
  if text = [] then (none, { f with pos := f.pos + rest.length })
  else
    let word := text.takeWhile fun b => !isspace b
    (some word, { f with
      pos := f.pos + (rest.takeWhile isspace).length + word.length
      stores := (word.length + 1, room) :: f.stores })

def put (f : Stream) (bs : List Byte) : Stream :=
  { f with
    bytes := f.bytes.take f.pos ++ bs ++ f.bytes.drop (f.pos + bs.length)
    pos := f.pos + bs.length }

/-- `ftruncate`; a negative length is refused. -/
def truncate (f : Stream) (n : Int) : Stream :=
  if n < 0 then f
  else { f with bytes := f.bytes.take n.toNat ++ List.replicate (n.toNat - f.bytes.length) 0 }

/-- The bytes before and after the position. -/
structure At (f : Stream) (before after : List Byte) : Prop where
  bytes : f.bytes = before ++ after
  pos : f.pos = before.length

/-- Every seek so far stayed inside the file. -/
def Inside (f : Stream) : Prop := ∀ s ∈ f.seeks, 0 ≤ s.1 ∧ s.1 ≤ s.2

/-- Every word so far was stored in the room it was given. -/
def Fits (f : Stream) : Prop := ∀ s ∈ f.stores, (s.1 : Int) ≤ s.2

/-- The position moved, by seeks inside the file; nothing was stored or written. -/
structure Moved (f f' : Stream) : Prop where
  bytes : f'.bytes = f.bytes
  stores : f'.stores = f.stores
  inside : f.Inside → f'.Inside

variable {f f' f'' : Stream} {before after bs : List Byte} {b old : Byte}

theorem Moved.refl (f : Stream) : Moved f f := ⟨rfl, rfl, id⟩

theorem Moved.trans (h : Moved f f') (h' : Moved f' f'') : Moved f f'' :=
  ⟨h'.bytes.trans h.bytes, h'.stores.trans h.stores, h'.inside ∘ h.inside⟩

theorem seek_moved {n : Nat} (h : n ≤ f.bytes.length) : Moved f (f.seek n) where
  bytes := rfl
  stores := rfl
  inside inside t ht := by
    rcases List.mem_cons.mp ht with rfl | ht
    · exact ⟨Int.natCast_nonneg n, Int.ofNat_le.mpr h⟩
    · exact inside t ht

theorem seek_at {n : Nat} (h : f.bytes = before ++ after) (hn : n = before.length) : (f.seek n).At before after :=
  ⟨h, by simp [seek, hn]⟩

theorem seekEnd_at (f : Stream) : f.seekEnd.At f.bytes [] := ⟨by simp [seekEnd, seek], by simp [seekEnd, seek]⟩

theorem seekEnd_moved (f : Stream) : Moved f f.seekEnd := seek_moved (Nat.le_refl _)

theorem At.get (h : f.At before (b :: after)) : f.getByte old = (b, { f with pos := f.pos + 1 }) := by
  have : f.bytes[f.pos]? = some b := by rw [h.bytes, h.pos]; simp
  simp [getByte, this]

theorem At.getBack (h : f.At (before ++ [b]) after) (old : Byte) :
    let back := f.seekCur (-1)
    let read := back.getByte old
    read.1 = b ∧ (read.2.seekCur (-1)).At before (b :: after) ∧ Moved f (read.2.seekCur (-1)) := by
  intro back read
  have pos : f.pos = before.length + 1 := by simpa using h.pos
  have bytes : f.bytes = before ++ b :: after := by simpa using h.bytes
  have backEq : back = f.seek before.length := by
    simp only [back, seekCur, pos]
    congr 1
    omega
  have backAt : back.At before (b :: after) := backEq ▸ seek_at bytes rfl
  have readEq : read = (b, { back with pos := back.pos + 1 }) := backAt.get
  have backMoved : Moved f back := backEq ▸ seek_moved (by simp [bytes])
  have again : read.2.seekCur (-1) = ({ back with pos := back.pos + 1 } : Stream).seek before.length := by
    simp only [readEq, seekCur, backAt.pos]
    congr 1
    omega
  refine ⟨by rw [readEq], ?_, ?_⟩
  · rw [again]
    exact seek_at backAt.bytes rfl
  · rw [again]
    apply backMoved.trans
    have : Moved back { back with pos := back.pos + 1 } := ⟨rfl, rfl, id⟩
    exact this.trans (seek_moved (by simp [backAt.bytes]))

/-- A word after white space and before more of it. -/
theorem At.getWord {space word : List Byte} {t : Byte} {room : Int} (h : f.At before (space ++ word ++ t :: after))
    (hs : ∀ x ∈ space, isspace x) (ht : isspace t) (hw : ∀ x ∈ word, isspace x = false) (nonempty : word ≠ []) :
    f.getWord room = (some word, { f with
      pos := before.length + space.length + word.length, stores := (word.length + 1, room) :: f.stores }) := by
  have rest : f.bytes.drop f.pos = space ++ (word ++ t :: after) := by rw [h.bytes, h.pos]; simp
  obtain ⟨x, xs, rfl⟩ := List.exists_cons_of_ne_nil nonempty
  have hx : isspace x = false := hw x (by simp)
  have text : (space ++ (x :: xs ++ t :: after)).dropWhile isspace = x :: xs ++ t :: after := by
    rw [List.dropWhile_append_of_pos hs]
    simp [hx]
  have blank : (space ++ (x :: xs ++ t :: after)).takeWhile isspace = space := by
    rw [List.takeWhile_append_of_pos hs]
    simp [hx]
  have found : (x :: xs ++ t :: after).takeWhile (fun b => !isspace b) = x :: xs := by
    rw [List.takeWhile_append_of_pos (by simpa using hw)]
    simp [ht]
  simp only [Stream.getWord, rest, text, blank, found]
  rw [if_neg (by simp)]
  simp [h.pos]

theorem put_end (h : f.pos = f.bytes.length) : (f.put bs).bytes = f.bytes ++ bs := by
  simp [put, h]

theorem truncate_negative {n : Int} (h : n < 0) : f.truncate n = f := if_pos h

theorem truncate_trace (f : Stream) (n : Int) : (f.truncate n).stores = f.stores ∧ (f.truncate n).seeks = f.seeks := by
  unfold truncate
  split <;> exact ⟨rfl, rfl⟩

theorem truncate_bytes {n : Nat} (h : n ≤ f.bytes.length) : (f.truncate n).bytes = f.bytes.take n := by
  have : ¬ (n : Int) < 0 := by omega
  simp [truncate, this, Nat.sub_eq_zero_of_le h]

end Stream

end OsLabs

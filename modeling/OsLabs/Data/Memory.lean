import Mathlib.Data.List.Basic
import Mathlib.Tactic.Ring

/-!
# Byte memory

Memory as the byte at every address, reads and writes of byte runs, and
little-endian words of a fixed number of bytes. Two runs that do not overlap do
not affect each other: `read_write_of_disjoint`, `load_store_of_disjoint`.
-/

namespace OsLabs

abbrev Byte := UInt8

abbrev Mem := Nat → Byte

namespace Mem

def read (m : Mem) (a n : Nat) : List Byte := (List.range n).map fun i => m (a + i)

def write (m : Mem) (a : Nat) (bs : List Byte) : Mem :=
  fun x => if a ≤ x then (bs[x - a]?).getD (m x) else m x

variable {m m' : Mem} {a b x n k : Nat} {bs cs : List Byte}

theorem write_before (h : x < a) : m.write a bs x = m x := by
  simp [write, Nat.not_le.mpr h]

theorem write_after (h : a + bs.length ≤ x) : m.write a bs x = m x := by
  simp only [write]
  split
  · rw [List.getElem?_eq_none (by omega)]; rfl
  · rfl

theorem write_outside (h : x < a ∨ a + bs.length ≤ x) : m.write a bs x = m x :=
  h.elim write_before write_after

theorem write_at (i : Nat) (h : i < bs.length) : m.write a bs (a + i) = bs[i] := by
  simp [write, h]

theorem write_inside (lo : a ≤ x) (hi : x - a < bs.length) : m.write a bs x = bs[x - a] := by
  obtain ⟨i, rfl⟩ := Nat.exists_eq_add_of_le lo
  simpa using write_at (m := m) (a := a) i (by omega)

@[simp] theorem write_nil : m.write a [] = m := by
  funext x; simp [write]

@[simp] theorem read_length : (m.read a n).length = n := by simp [read]

@[simp] theorem read_zero : m.read a 0 = [] := rfl

theorem read_getElem (i : Nat) (h : i < (m.read a n).length) : (m.read a n)[i] = m (a + i) := by
  simp [read]

theorem read_add : m.read a (n + k) = m.read a n ++ m.read (a + n) k := by
  simp [read, List.range_add, Nat.add_assoc]

theorem read_congr (h : ∀ x, a ≤ x → x < a + n → m x = m' x) : m.read a n = m'.read a n := by
  apply List.map_congr_left
  intro i hi
  exact h _ (by omega) (by have := List.mem_range.mp hi; omega)

theorem read_ext (hl : bs.length = n) (h : ∀ i (hi : i < bs.length), m (a + i) = bs[i]) :
    m.read a n = bs := by
  apply List.ext_getElem (by simp [hl])
  intro i h1 h2
  rw [read_getElem, h i h2]

theorem read_write_same : (m.write a bs).read a bs.length = bs :=
  read_ext rfl fun i hi => write_at i hi

theorem read_write_of_disjoint (h : b + n ≤ a ∨ a + bs.length ≤ b) :
    (m.write a bs).read b n = m.read b n :=
  read_congr fun x h1 h2 => write_outside (by omega)

theorem read_write_within (lo : a ≤ b) (hi : b + n ≤ a + bs.length) :
    (m.write a bs).read b n = (bs.drop (b - a)).take n := by
  apply read_ext (by simp; omega)
  intro i h
  have hn : i < n := by simp at h; omega
  rw [write_inside (by omega) (by omega), List.getElem_take, List.getElem_drop]
  congr 1
  omega

/-! ### Several writes -/

/-- Memory after the runs `ws` are stored, each at its address. -/
def writes (m : Mem) (ws : List (Nat × List Byte)) : Mem := ws.foldl (fun m w => m.write w.1 w.2) m

def Covers (w : Nat × List Byte) (x : Nat) : Prop := w.1 ≤ x ∧ x < w.1 + w.2.length

variable {w : Nat × List Byte} {ws : List (Nat × List Byte)}

@[simp] theorem writes_nil : m.writes [] = m := rfl

@[simp] theorem writes_cons : m.writes (w :: ws) = (m.write w.1 w.2).writes ws := rfl

theorem writes_append {vs : List (Nat × List Byte)} : m.writes (ws ++ vs) = (m.writes ws).writes vs :=
  List.foldl_append

theorem not_covers (h : ¬Covers w x) : x < w.1 ∨ w.1 + w.2.length ≤ x := by
  unfold Covers at h
  omega

theorem writes_outside (h : ∀ w ∈ ws, ¬Covers w x) : m.writes ws x = m x := by
  induction ws generalizing m with
  | nil => rfl
  | cons w ws ih =>
    rw [writes_cons, ih fun v hv => h v (List.mem_cons_of_mem _ hv),
      write_outside (not_covers (h w List.mem_cons_self))]

theorem write_agree (h : m x = m' x) : m.write a bs x = m'.write a bs x := by
  simp only [write, h]

theorem writes_agree (h : m x = m' x) : m.writes ws x = m'.writes ws x := by
  induction ws generalizing m m' with
  | nil => exact h
  | cons w ws ih => exact ih (write_agree h)

theorem write_covered (h : Covers w x) : m.write w.1 w.2 x = m'.write w.1 w.2 x := by
  have inside : x - w.1 < w.2.length := by have := h.2; have := h.1; omega
  rw [write_inside h.1 inside, write_inside h.1 inside]

theorem writes_covered (h : ∃ w ∈ ws, Covers w x) : m.writes ws x = m'.writes ws x := by
  induction ws generalizing m m' with
  | nil => simp at h
  | cons w ws ih =>
    by_cases here : Covers w x
    · rw [writes_cons, writes_cons]
      exact writes_agree (write_covered here)
    · apply ih
      obtain ⟨v, hv, cover⟩ := h
      rcases List.mem_cons.mp hv with rfl | hv
      · exact absurd cover here
      · exact ⟨v, hv, cover⟩

end Mem

/-! ### Little-endian words -/

/-- The `k` low bytes of `v`, least significant first. -/
def encodeLE : Nat → Nat → List Byte
  | 0, _ => []
  | k + 1, v => UInt8.ofNat v :: encodeLE k (v / 256)

def decodeLE : List Byte → Nat
  | [] => 0
  | b :: bs => b.toNat + 256 * decodeLE bs

@[simp] theorem encodeLE_length (k v : Nat) : (encodeLE k v).length = k := by
  induction k generalizing v with
  | zero => rfl
  | succ k ih => simp [encodeLE, ih]

theorem decodeLE_encodeLE (k v : Nat) : decodeLE (encodeLE k v) = v % 256 ^ k := by
  induction k generalizing v with
  | zero => simp [encodeLE, decodeLE, Nat.mod_one]
  | succ k ih =>
    have low : (UInt8.ofNat v).toNat = v % 256 := UInt8.toNat_ofNat'
    rw [encodeLE, decodeLE, ih, low, Nat.pow_succ', Nat.mod_mul]

theorem decodeLE_lt (bs : List Byte) : decodeLE bs < 256 ^ bs.length := by
  induction bs with
  | nil => simp [decodeLE]
  | cons b bs ih =>
    have hb := b.toNat_lt
    rw [decodeLE, List.length_cons, Nat.pow_succ]
    omega

namespace Mem

def load (k : Nat) (m : Mem) (a : Nat) : Nat := decodeLE (m.read a k)

def store (k : Nat) (m : Mem) (a v : Nat) : Mem := m.write a (encodeLE k v)

variable {k a b v x : Nat} {m m' : Mem}

theorem load_lt : m.load k a < 256 ^ k := by
  have := decodeLE_lt (m.read a k)
  rwa [read_length] at this

theorem load_congr (h : ∀ x, a ≤ x → x < a + k → m x = m' x) : m.load k a = m'.load k a := by
  rw [load, read_congr h, load]

theorem load_store_same : (m.store k a v).load k a = v % 256 ^ k := by
  have := @read_write_same m a (encodeLE k v)
  rw [encodeLE_length] at this
  rw [load, store, this, decodeLE_encodeLE]

theorem load_store_of_disjoint (h : b + k ≤ a ∨ a + k ≤ b) :
    (m.store k a v).load k b = m.load k b := by
  rw [load, store, read_write_of_disjoint (by simpa using h), load]

theorem load_field {bs pre tail : List Byte} (split : bs = pre ++ (encodeLE k v ++ tail)) (hv : v < 256 ^ k) :
    (m.write a bs).load k (a + pre.length) = v := by
  have within := @read_write_within m a (a + pre.length) k bs (by omega) (by
    rw [split, List.length_append, List.length_append, encodeLE_length]
    omega)
  rw [load, within, split, Nat.add_sub_cancel_left, List.drop_left, List.take_left' (encodeLE_length k v),
    decodeLE_encodeLE, Nat.mod_eq_of_lt hv]

end Mem

end OsLabs

import Mathlib.Logic.Function.Basic
import OsLabs.Data.Memory

/-!
# memcpy and memmove

Byte by byte, on the bytes at machine addresses of any width. A copy upwards reads every
byte before it is overwritten where the destination is not above the source, and a copy
downwards where it is not below.
-/

namespace OsLabs.Klib
open Function

variable {w : Nat} {m m' m₀ : BitVec w → Byte} {out input a : BitVec w} {lo hi k n : Nat}

def memcpyLoop (m : BitVec w → Byte) (ptr s : BitVec w) : Nat → BitVec w → Byte
  | 0 => m
  | n + 1 => memcpyLoop (update m ptr (m s)) (ptr + 1) (s + 1) n

def backwardLoop (m : BitVec w → Byte) (ptr s : BitVec w) : Nat → BitVec w → Byte
  | 0 => m
  | n + 1 => backwardLoop (update m ptr (m s)) (ptr - 1) (s - 1) n

def memcpy (m : BitVec w → Byte) (out input n : BitVec w) : BitVec w → Byte := memcpyLoop m out input n.toNat

def memmove (m : BitVec w → Byte) (out input n : BitVec w) : BitVec w → Byte :=
  if out ≤ input ∨ input + n ≤ out then memcpy m out input n
  else backwardLoop m (out + n - 1) (input + n - 1) n.toNat

/-! ### The interval that was copied -/

/-- The bytes from `lo` on below `hi` were copied, and no others were written. -/
structure Copied (m₀ : BitVec w → Byte) (out input : BitVec w) (lo hi : Nat) (m : BitVec w → Byte) : Prop where
  copied : ∀ i, lo ≤ i → i < hi → m (out + BitVec.ofNat w i) = m₀ (input + BitVec.ofNat w i)
  kept : ∀ a, (∀ i, lo ≤ i → i < hi → a ≠ out + BitVec.ofNat w i) → m a = m₀ a

theorem toNat_offset {i : Nat} (bound : out.toNat + i < 2 ^ w) : (out + BitVec.ofNat w i).toNat = out.toNat + i := by
  rw [BitVec.toNat_add, BitVec.toNat_ofNat, Nat.mod_eq_of_lt (show i < 2 ^ w by omega), Nat.mod_eq_of_lt bound]

theorem offset_succ : out + BitVec.ofNat w (k + 1) = out + BitVec.ofNat w k + 1 := by
  rw [BitVec.ofNat_add, ← BitVec.add_assoc]
  rfl

theorem offset_pred : out + BitVec.ofNat w (k + 1) - 1 = out + BitVec.ofNat w k := by
  rw [offset_succ, BitVec.add_sub_cancel]

namespace Copied

theorem start (m₀ : BitVec w → Byte) (out input : BitVec w) (k : Nat) : Copied m₀ out input k k m₀ where
  copied i low high := by omega
  kept _ _ := rfl

/-- A byte next to the interval, read before the copy wrote to it. -/
theorem extend (h : Copied m₀ out input lo hi m)
    (unread : ∀ i, lo ≤ i → i < hi → input + BitVec.ofNat w k ≠ out + BitVec.ofNat w i) {lo' hi' : Nat}
    (next : ∀ i, lo' ≤ i ∧ i < hi' ↔ lo ≤ i ∧ i < hi ∨ i = k) :
    Copied m₀ out input lo' hi' (update m (out + BitVec.ofNat w k) (m (input + BitVec.ofNat w k))) where
  copied i low high := by
    by_cases same : out + BitVec.ofNat w i = out + BitVec.ofNat w k
    · have index : BitVec.ofNat w i = BitVec.ofNat w k := (BitVec.add_right_inj _).mp same
      rw [same, update_self, index]
      exact h.kept _ unread
    · have inner : lo ≤ i ∧ i < hi := ((next i).mp ⟨low, high⟩).resolve_right fun new => same (new ▸ rfl)
      rw [update_of_ne same]
      exact h.copied i inner.1 inner.2
  kept a outside := by
    have mine := (next k).mpr (.inr rfl)
    rw [update_of_ne (outside k mine.1 mine.2)]
    apply h.kept a
    intro i low high
    have wider := (next i).mpr (.inl ⟨low, high⟩)
    exact outside i wider.1 wider.2

end Copied

theorem memcpyLoop_copied (h : Copied m₀ out input 0 k m)
    (unread : ∀ j, k ≤ j → j < k + n → ∀ i < j, input + BitVec.ofNat w j ≠ out + BitVec.ofNat w i) :
    Copied m₀ out input 0 (k + n) (memcpyLoop m (out + BitVec.ofNat w k) (input + BitVec.ofNat w k) n) := by
  induction n generalizing k m with
  | zero => exact h
  | succ n ih =>
    have next : Copied m₀ out input 0 (k + 1) _ :=
      h.extend (fun i _ below => unread k (Nat.le_refl k) (by omega) i below) (fun i => by omega)
    have rest := ih next fun j low high => unread j (by omega) (by omega)
    rw [memcpyLoop, ← offset_succ, ← offset_succ, show k + (n + 1) = k + 1 + n by omega]
    exact rest

/-- Here the interval grows downwards. -/
theorem backwardLoop_copied (h : Copied m₀ out input n hi m) (inside : n ≤ hi)
    (unread : ∀ j < n, ∀ i, j < i → i < hi → input + BitVec.ofNat w j ≠ out + BitVec.ofNat w i) :
    Copied m₀ out input 0 hi (backwardLoop m (out + BitVec.ofNat w n - 1) (input + BitVec.ofNat w n - 1) n) := by
  induction n generalizing m with
  | zero => exact h
  | succ n ih =>
    rw [offset_pred, offset_pred, backwardLoop]
    have next : Copied m₀ out input n hi _ :=
      h.extend (fun i above below => unread n (Nat.lt_succ_self n) i above below) (fun i => by omega)
    exact ih next (by omega) fun j below => unread j (by omega)

/-! ### memmove -/

/-- The destination holds what the source held, and every byte outside is as it was. -/
structure Moved (m : BitVec w → Byte) (out input n : BitVec w) (m' : BitVec w → Byte) : Prop where
  copied : ∀ i < n.toNat, m' (out + BitVec.ofNat w i) = m (input + BitVec.ofNat w i)
  kept : ∀ a : BitVec w, a.toNat < out.toNat ∨ out.toNat + n.toNat ≤ a.toNat → m' a = m a

theorem Copied.moved {n : BitVec w} (h : Copied m out input 0 n.toNat m') (bound : out.toNat + n.toNat ≤ 2 ^ w) :
    Moved m out input n m' where
  copied i below := h.copied i (Nat.zero_le i) below
  kept a outside := by
    apply h.kept a
    rintro i - below rfl
    rw [toNat_offset (by omega)] at outside
    omega

/-- **For all ranges that do not wrap, with any overlap, the bytes of the source arrive as they were before.** -/
theorem memmove_moved (m : BitVec w → Byte) (out input n : BitVec w) (outBound : out.toNat + n.toNat ≤ 2 ^ w)
    (inputBound : input.toNat + n.toNat ≤ 2 ^ w) : Moved m out input n (memmove m out input n) := by
  refine Copied.moved ?_ outBound
  have apart {i j : Nat} (hi : i < n.toNat) (hj : j < n.toNat) (other : input.toNat + j ≠ out.toNat + i) :
      input + BitVec.ofNat w j ≠ out + BitVec.ofNat w i := by
    intro same
    have values := congrArg BitVec.toNat same
    rw [toNat_offset (by omega), toNat_offset (by omega)] at values
    exact other values
  unfold memmove
  split
  · rename_i forward
    have zero (p : BitVec w) : p + BitVec.ofNat w 0 = p := BitVec.add_zero p
    have order : out.toNat ≤ input.toNat ∨ input.toNat + n.toNat ≤ out.toNat ∨ n.toNat = 0 ∨
        input.toNat + n.toNat = 2 ^ w := by
      rcases forward with below | above
      · exact .inl below
      · by_cases top : input.toNat + n.toNat = 2 ^ w
        · exact .inr (.inr (.inr top))
        · rw [BitVec.le_def, BitVec.toNat_add_of_lt (by omega)] at above
          exact .inr (.inl above)
    have copied := @memcpyLoop_copied w m m out input 0 n.toNat (.start m out input 0) fun j _ high i below =>
      apart (by omega) (by omega) (by omega)
    rwa [zero, zero, Nat.zero_add] at copied
  · rename_i backward
    obtain ⟨above, overlaps⟩ := not_or.mp backward
    have order : input.toNat < out.toNat := by rwa [BitVec.not_le] at above
    have copied := @backwardLoop_copied w m m out input n.toNat n.toNat (.start m out input n.toNat) (Nat.le_refl _)
      fun j below i more high => apart high (by omega) (by omega)
    rwa [BitVec.ofNat_toNat, BitVec.setWidth_eq] at copied

/-- A range moved up by one byte. -/
theorem memmove_moved_sample :
    Moved (fun a : BitVec 8 => UInt8.ofBitVec a) 4 3 2 (memmove (fun a => UInt8.ofBitVec a) 4 3 2) :=
  memmove_moved _ _ _ _ (by decide) (by decide)

end OsLabs.Klib

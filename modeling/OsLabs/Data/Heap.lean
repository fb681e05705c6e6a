import Mathlib.Data.Finset.Basic
import OsLabs.Data.Program

/-!
# Programs on a heap

An allocator by what it promises of its live blocks, and programs that take blocks
from it, give them back and use them. Each event says whether its block was live.
-/

namespace OsLabs

/-- `NULL`, an object that no allocator made, or a block by its address. -/
inductive Ptr where
  | null
  | object (n : Nat)
  | block (a : Nat)
  deriving DecidableEq, Repr

/-- An allocator on heaps of a type, with the blocks that are live in each; what it promises it promises of heaps that
are `Ok`, and a free of something else may leave one that is not. -/
structure Allocator (H : Type) where
  alloc : H → Nat → H × Option Nat
  free : H → Ptr → H
  live : H → Finset Nat
  Ok : H → Prop
  alloc_none {h h' : H} {n : Nat} : Ok h → alloc h n = (h', none) → Ok h' ∧ live h' = live h
  alloc_some {h h' : H} {n a : Nat} : Ok h → alloc h n = (h', some a) →
    Ok h' ∧ a ∉ live h ∧ live h' = insert a (live h)
  free_live {h : H} {a : Nat} : Ok h → a ∈ live h →
    Ok (free h (.block a)) ∧ live (free h (.block a)) = (live h).erase a

/-- What a program does to a block; a free and a use say whether the pointer was one to a live block. -/
inductive Access where
  | alloc (a : Option Nat)
  | free (p : Ptr) (live : Bool)
  | use (p : Ptr) (live : Bool)
  deriving DecidableEq, Repr

/-- No free and no use of anything but a live block. -/
def Access.Sound : Access → Prop
  | .alloc _ => True
  | .free _ live => live = true
  | .use _ live => live = true

/-- No free of anything but a live block. -/
def Access.Frees : Access → Prop
  | .free _ live => live = true
  | _ => True

structure Held (α : Type) where
  block : Ptr
  value : α

abbrev HeapProgram (H W E α : Type) := Program Access (H × W) E α

namespace Allocator
open Program

variable {H W E α : Type} (A : Allocator H)

def isLive (h : H) : Ptr → Bool
  | .block a => a ∈ A.live h
  | _ => false

def malloc (n : Nat) : HeapProgram H W E Ptr := do
  let r ← look fun s => A.alloc s.1 n
  issue (.alloc r.2)
  change fun s => (r.1, s.2)
  pure (r.2.elim .null .block)

def mfree (p : Ptr) : HeapProgram H W E Unit := do
  let live ← look fun s => A.isLive s.1 p
  issue (.free p live)
  change fun s => (A.free s.1 p, s.2)

/-- `pmm->free` as it is called: it reads the node in front of the block, and `NULL` has none. -/
def kfree (null : E) (p : Ptr) : HeapProgram H W E Unit := if p = .null then stop null else A.mfree p

/-- An access through the pointer, which does not return for `NULL`. -/
def use (null : E) (p : Ptr) : HeapProgram H W E Unit := do
  let live ← look fun s => A.isLive s.1 p
  issue (.use p live)
  if p = .null then stop null else pure ()

/-- An access through the pointer, which goes on for `NULL`: address 0 is memory too. -/
def touch (p : Ptr) : HeapProgram H W E Unit := do
  let live ← look fun s => A.isLive s.1 p
  issue (.use p live)

/-- `balloc`: a block of one byte more, cleared. -/
def balloc (null : E) (n : Nat) : HeapProgram H W E Ptr := do
  let p ← A.malloc (n + 1)
  A.use null p
  pure p

variable {A} {s : H × W} {n a : Nat} {p : Ptr} {null : E}

theorem malloc_result : ((A.malloc n : HeapProgram H W E Ptr).run s).result =
    .ok (((A.alloc s.1 n).1, s.2), (A.alloc s.1 n).2.elim .null .block) := rfl

theorem use_result (there : p ≠ .null) : ((A.use null p : HeapProgram H W E Unit).run s).result = .ok (s, ()) := by
  rw [use, result_bind_ok rfl, result_bind_ok rfl, if_neg there]
  rfl

theorem kfree_result (there : p ≠ .null) :
    ((A.kfree null p : HeapProgram H W E Unit).run s).result = .ok ((A.free s.1 p, s.2), ()) := by
  rw [kfree, if_neg there]
  rfl

/-! ### Ownership -/

/-- The pointers that a part of a program has to give back, `NULL` apart: each of them once, to different live blocks;
and the world it runs in. -/
structure Owns (A : Allocator H) (mine : List Ptr) (w : W) (s : H × W) : Prop where
  ok : A.Ok s.1
  once : ∀ p ≠ Ptr.null, mine.count p ≤ (A.isLive s.1 p).toNat
  world : s.2 = w

variable {mine kept : List Ptr} {w : W}

theorem isLive_block {h : H} : A.isLive h (.block a) = decide (a ∈ A.live h) := rfl

noncomputable def blocks (A : Allocator H) (h : H) : List Ptr := (A.live h).toList.map Ptr.block

namespace Owns

/-- Less is owned, or in another order; what is left is never given back. -/
theorem of_count (own : A.Owns mine w s) (fewer : ∀ p ≠ Ptr.null, kept.count p ≤ mine.count p) : A.Owns kept w s :=
  ⟨own.ok, fun p there => Nat.le_trans (fewer p there) (own.once p there), own.world⟩

theorem perm (own : A.Owns mine w s) (same : mine.Perm kept) : A.Owns kept w s :=
  own.of_count fun p _ => Nat.le_of_eq (same.count_eq p).symm

theorem drop (own : A.Owns mine w s) (sub : kept.Sublist mine) : A.Owns kept w s :=
  own.of_count fun p _ => sub.count_le p

theorem cons_null (own : A.Owns mine w s) : A.Owns (.null :: mine) w s :=
  own.of_count fun p there => by rw [List.count_cons_of_ne (Ne.symm there)]

theorem withWorld {V : Type} (own : A.Owns mine w s) (v : V) : A.Owns mine v (s.1, v) := ⟨own.ok, own.once, rfl⟩

/-- The first pointer is to a live block, and not among the others. -/
theorem head (own : A.Owns (p :: mine) w s) (there : p ≠ .null) : A.isLive s.1 p = true ∧ p ∉ mine := by
  have once := own.once p there
  rw [List.count_cons_self] at once
  have flag := Bool.toNat_le (A.isLive s.1 p)
  refine ⟨?_, List.count_eq_zero.mp (by omega)⟩
  by_contra dead
  rw [Bool.eq_false_iff.mpr dead, Bool.toNat_false] at once
  omega

theorem alloc (own : A.Owns mine w s) (n : Nat) :
    A.Owns ((A.alloc s.1 n).2.elim .null .block :: mine) w ((A.alloc s.1 n).1, s.2) := by
  cases made : (A.alloc s.1 n).2 with
  | none =>
    obtain ⟨ok, same⟩ := A.alloc_none own.ok (Prod.ext rfl made)
    refine cons_null ⟨ok, fun p there => ?_, own.world⟩
    have live : A.isLive (A.alloc s.1 n).1 p = A.isLive s.1 p := by
      cases p <;> simp [isLive, same]
    exact live ▸ own.once p there
  | some a =>
    obtain ⟨ok, fresh, more⟩ := A.alloc_some own.ok (Prod.ext rfl made)
    refine ⟨ok, fun p there => ?_, own.world⟩
    have once := own.once p there
    rw [Option.elim_some, List.count_cons]
    by_cases this : p = .block a
    · subst this
      rw [isLive_block, decide_eq_false fresh, Bool.toNat_false] at once
      rw [isLive_block, more, decide_eq_true (Finset.mem_insert_self a _)]
      simp only [beq_self_eq_true, if_true, Bool.toNat_true]
      omega
    · have live : A.isLive (A.alloc s.1 n).1 p = A.isLive s.1 p := by
        cases p with
        | block b =>
          have other : b ≠ a := fun same => this (congrArg Ptr.block same)
          simp [isLive, more, other]
        | null => rfl
        | object k => rfl
      rw [live, if_neg (by simpa using Ne.symm this)]
      omega

theorem free (own : A.Owns (p :: mine) w s) (there : p ≠ .null) : A.Owns mine w (A.free s.1 p, s.2) := by
  obtain ⟨live, apart⟩ := own.head there
  cases p with
  | block a =>
    obtain ⟨ok, less⟩ := A.free_live own.ok (of_decide_eq_true live)
    refine ⟨ok, fun q there => ?_, own.world⟩
    by_cases this : q = .block a
    · rw [this, List.count_eq_zero.mpr apart]
      exact Nat.zero_le _
    · have once := own.once q there
      rw [List.count_cons_of_ne (Ne.symm this)] at once
      have same : A.isLive (A.free s.1 (.block a)) q = A.isLive s.1 q := by
        cases q with
        | block b =>
          have other : b ≠ a := fun same => this (congrArg Ptr.block same)
          simp [isLive, less, other]
        | null => rfl
        | object k => rfl
      rwa [same]
  | null => exact absurd rfl there
  | object k => cases live

/-- At the start, of all live blocks. -/
theorem all (ok : A.Ok s.1) : A.Owns (A.blocks s.1) s.2 s := by
  refine ⟨ok, fun p there => ?_, rfl⟩
  have nodup : (A.blocks s.1).Nodup := (A.live s.1).nodup_toList.map fun _ _ same => Ptr.block.inj same
  by_cases mem : p ∈ A.blocks s.1
  · have live : A.isLive s.1 p = true := by
      obtain ⟨a, inside, rfl⟩ := List.mem_map.mp mem
      exact decide_eq_true (Finset.mem_toList.mp inside)
    rw [live, List.count_eq_one_of_mem nodup mem]
    rfl
  · rw [List.count_eq_zero.mpr mem]
    exact Nat.zero_le _

/-- With a block more than there were, there are more. -/
theorem more {h : H} (own : A.Owns (p :: A.blocks h) w s) (there : p ≠ .null) : A.live h ⊂ A.live s.1 := by
  have inside : ∀ q ∈ p :: A.blocks h, q ≠ .null → A.isLive s.1 q = true := by
    intro q mem there
    have once := Nat.le_trans (List.count_pos_iff.mpr mem) (own.once q there)
    by_contra dead
    rw [Bool.eq_false_iff.mpr dead] at once
    exact absurd once (by decide)
  obtain ⟨live, apart⟩ := own.head there
  refine (Finset.ssubset_iff_of_subset fun a mem => ?_).mpr ?_
  · have mem' : Ptr.block a ∈ A.blocks h := List.mem_map_of_mem (Finset.mem_toList.mpr mem)
    exact of_decide_eq_true (inside _ (List.mem_cons_of_mem _ mem') Ptr.noConfusion)
  · cases p with
    | block a =>
      exact ⟨a, of_decide_eq_true live, fun mem => apart (List.mem_map_of_mem (Finset.mem_toList.mpr mem))⟩
    | null => exact absurd rfl there
    | object k => cases live

end Owns

/-! ### What the operations leave -/

theorem malloc_leaves (own : A.Owns mine w s) :
    Leaves Access.Frees (A.malloc n : HeapProgram H W E Ptr) s fun s' p => A.Owns (p :: mine) w s' := by
  apply leaves_look_bind
  apply leaves_issue_bind trivial
  apply leaves_change_bind
  exact .pure (own.alloc n)

theorem use_leaves :
    Leaves Access.Frees (A.use null p : HeapProgram H W E Unit) s fun s' _ => s' = s ∧ p ≠ .null := by
  apply leaves_look_bind
  apply leaves_issue_bind trivial
  split
  · exact .stop
  · rename_i there
    exact .pure ⟨rfl, there⟩

theorem leaves_use_bind {f : Unit → HeapProgram H W E α} {R : H × W → α → Prop}
    (rest : p ≠ .null → Leaves Access.Frees (f ()) s R) : Leaves Access.Frees (A.use null p >>= f) s R := by
  apply use_leaves.bind
  intro s' _ _ h
  rw [h.1]
  exact rest h.2

theorem balloc_leaves (own : A.Owns mine w s) : Leaves Access.Frees (A.balloc null n : HeapProgram H W E Ptr) s
    fun s' p => A.Owns (p :: mine) w s' ∧ p ≠ .null := by
  apply (malloc_leaves own).bind
  intro s' p _ own
  apply leaves_use_bind
  intro there
  exact .pure ⟨own, there⟩

theorem kfree_leaves (own : A.Owns (p :: mine) w s) :
    Leaves Access.Frees (A.kfree null p : HeapProgram H W E Unit) s fun s' _ => A.Owns mine w s' := by
  unfold kfree
  split
  · exact .stop
  · rename_i there
    apply leaves_look_bind
    have live : (Access.free p (A.isLive _ p)).Frees := (own.head there).1
    apply leaves_issue_bind live
    exact Leaves.change.mono fun s' _ same => same ▸ own.free there

end Allocator

end OsLabs

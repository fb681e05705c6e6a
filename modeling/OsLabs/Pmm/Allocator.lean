import OsLabs.Data.Heap
import OsLabs.Pmm.Runs

/-!
# pmm as an allocator

`kalloc` and `kfree` keep what programs on a heap rely on: a block handed out is not
live before, and a block given back is the only one that is no longer live.
-/

namespace OsLabs.Pmm

variable {w pmStart pmEnd size : Nat} {h h' : Heap} {live : List Block} {a : Nat} {b : Block}

/-- The addresses that the live blocks were handed out by. -/
def pointers (w : Nat) (live : List Block) : Finset Nat := (live.map (Block.ptr w)).toFinset

/-- The live block that was handed out by the address. -/
def blockOf (w : Nat) (live : List Block) (ptr : Nat) : Option Block := live.find? fun b => b.ptr w = ptr

def request (w : Nat) (s : Heap × List Block) (size : Nat) : (Heap × List Block) × Option Nat :=
  match kalloc w s.1 size with
  | some (h, r) => if r = 0 then ((h, s.2), none) else ((h, ⟨r - bias w, size⟩ :: s.2), some r)
  | none => (s, none)

/-- What a pointer is to `kfree`. -/
def address : Ptr → Nat
  | .null => 0
  | .object n => n
  | .block a => a

def release (w : Nat) (s : Heap × List Block) (p : Ptr) : Heap × List Block :=
  (kfree w s.1 (address p), (blockOf w s.2 (address p)).elim s.2 s.2.erase)

theorem pointers_nodup (hw : 0 < w) (I : Inv w pmStart pmEnd h live) : (live.map (Block.ptr w)).Nodup := by
  obtain ⟨bs, perm, L⟩ := I.layout
  have nodes := L.nodes_nodup hw
  have inner : (bs.map Block.node).Nodup := by
    simp only [cells, List.map_cons, List.map_append, List.nodup_cons, List.nodup_append] at nodes
    exact nodes.2.1
  apply ((perm.map _).nodup_iff).mp
  rw [show Block.ptr w = (fun n => n + bias w) ∘ Block.node from rfl, ← List.map_map]
  exact inner.map fun _ _ same => Nat.add_right_cancel same

theorem request_none (hw : 0 < w) (I : Inv w pmStart pmEnd h live) (fits : size + bias w < 256 ^ w)
    {s : Heap × List Block} (done : request w (h, live) size = (s, none)) :
    Inv w pmStart pmEnd s.1 s.2 ∧ pointers w s.2 = pointers w live := by
  rw [request] at done
  rcases kalloc_cases hw I fits with failed | ⟨h', node, found, -⟩
  · simp only [failed, if_true, Prod.mk.injEq] at done
    obtain ⟨rfl, -⟩ := done
    exact ⟨I, rfl⟩
  · have positive : node + bias w ≠ 0 := by simp only [bias]; omega
    simp only [found, if_neg positive, Prod.mk.injEq, reduceCtorEq, and_false] at done

theorem request_some (hw : 0 < w) (I : Inv w pmStart pmEnd h live) (fits : size + bias w < 256 ^ w)
    {s : Heap × List Block} (done : request w (h, live) size = (s, some a)) :
    Inv w pmStart pmEnd s.1 s.2 ∧ a ∉ pointers w live ∧ pointers w s.2 = insert a (pointers w live) := by
  rw [request] at done
  rcases kalloc_cases hw I fits with failed | ⟨h', node, found, I'⟩
  · simp [failed] at done
  · have positive : node + bias w ≠ 0 := by simp only [bias]; omega
    simp only [found, positive, if_false, Nat.add_sub_cancel, Prod.mk.injEq, Option.some.injEq] at done
    obtain ⟨rfl, rfl⟩ := done
    have fresh := (List.nodup_cons.mp (pointers_nodup hw I')).1
    refine ⟨I', ?_, ?_⟩
    · simpa [pointers, Block.ptr] using fresh
    · simp [pointers, Block.ptr]

theorem release_live (hw : 0 < w) (I : Inv w pmStart pmEnd h live) (mem : a ∈ pointers w live) :
    Inv w pmStart pmEnd (release w (h, live) (.block a)).1 (release w (h, live) (.block a)).2 ∧
      pointers w (release w (h, live) (.block a)).2 = (pointers w live).erase a := by
  obtain ⟨b, found, rfl⟩ : ∃ b, blockOf w live a = some b ∧ b.ptr w = a := by
    obtain ⟨b, mem, same⟩ := List.mem_map.mp (List.mem_toFinset.mp mem)
    cases found : blockOf w live a with
    | none => exact absurd (by simpa using same) (List.find?_eq_none.mp found b mem)
    | some c => exact ⟨c, rfl, by simpa using List.find?_some found⟩
  have inside : b ∈ live := List.mem_of_find?_eq_some found
  have unique := List.inj_on_of_nodup_map (pointers_nodup hw I)
  have once : live.Nodup := List.Nodup.of_map _ (pointers_nodup hw I)
  simp only [release, address, found, Option.elim_some]
  refine ⟨kfree_inv hw I inside, ?_⟩
  ext x
  simp only [pointers, List.mem_toFinset, List.mem_map, Finset.mem_erase, once.mem_erase_iff]
  constructor
  · rintro ⟨c, ⟨other, mem⟩, rfl⟩
    exact ⟨fun same => other (unique mem inside same), c, mem, rfl⟩
  · rintro ⟨other, c, mem, rfl⟩
    exact ⟨c, ⟨fun same => other (same ▸ rfl), mem⟩, rfl⟩

/-- The allocator of a heap range; no caller asks for more than a word can say. -/
def pmm (w pmStart pmEnd : Nat) (hw : 0 < w) : Allocator (Heap × List Block) where
  alloc s size := if size + bias w < 256 ^ w then request w s size else (s, none)
  free := release w
  live s := pointers w s.2
  Ok s := Inv w pmStart pmEnd s.1 s.2
  alloc_none I done := by
    split at done
    · rename_i fits
      exact request_none hw I fits done
    · cases done
      exact ⟨I, rfl⟩
  alloc_some I done := by
    split at done
    · rename_i fits
      exact request_some hw I fits done
    · cases done
  free_live I mem := release_live hw I mem

end OsLabs.Pmm

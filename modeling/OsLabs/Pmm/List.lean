import Mathlib.Data.List.Perm.Subperm
import OsLabs.Data.Linked
import OsLabs.Pmm.Model

/-!
# The node list

What `addNode` and `deleteNode` do to the list nodes stored in memory, and the
layout that both keep: the nodes are linked in address order, each with its
block behind it.
-/

namespace OsLabs.Pmm

variable {w x y p a b c size : Nat} {m m' : Mem} {h : Heap}

/-- The headers at `x` and `y` do not overlap. -/
def Apart (w x y : Nat) : Prop := x + bias w ≤ y ∨ y + bias w ≤ x

theorem addWord_eq (h : x + y < 256 ^ w) : addWord w x y = x + y := Nat.mod_eq_of_lt h

theorem subWord_eq (hx : x < 256 ^ w) (h : y ≤ x) : subWord w x y = x - y := by
  rw [subWord, show x + 256 ^ w - y = (x - y) + 256 ^ w by omega, Nat.add_mod_right]
  exact Nat.mod_eq_of_lt (by omega)

theorem fields_congr (same : ∀ y, x ≤ y → y < x + bias w → m y = m' y) :
    getNext w m x = getNext w m' x ∧ getPre w m x = getPre w m' x ∧
      getStart w m x = getStart w m' x ∧ getEnd w m x = getEnd w m' x := by
  simp only [bias] at same
  refine ⟨?_, ?_, ?_, ?_⟩ <;> exact Mem.load_congr fun y h1 h2 => same y (by omega) (by omega)

/-! ### Adding a node -/

section AddNode

variable (size) (hc : getEnd w h.mem p = c) (hb : getNext w h.mem p = b)
  (pc : Apart w p c) (bc : Apart w b c) (pb : Apart w p b)
  (word : p < 256 ^ w) (fit : c + size + bias w < 256 ^ w)
include hc hb pc bc pb word fit

/-- The new node `c` stands between `p` and the old successor `b` of `p`. -/
theorem addNode_links :
    getNext w (addNode w h p size).1.mem p = c ∧ getNext w (addNode w h p size).1.mem c = b ∧
      getPre w (addNode w h p size).1.mem c = p ∧ getPre w (addNode w h p size).1.mem b = c := by
  obtain ⟨m, head, tail⟩ := h
  simp only [Apart, bias] at *
  simp only [getEnd, getNext] at hc hb
  have hb' : b < 256 ^ w := hb ▸ Mem.load_lt
  simp (disch := omega) only [addNode, getNext, getPre, getStart, getEnd, setNext, setPre, setStart,
    setEnd, hc, hb, Mem.load_store_same, Mem.load_store_of_disjoint, Nat.mod_eq_of_lt, and_self]

omit word in
theorem addNode_block :
    getStart w (addNode w h p size).1.mem c = c ∧
      getEnd w (addNode w h p size).1.mem c = c + size + bias w ∧
      (addNode w h p size).2 = c + bias w := by
  obtain ⟨m, head, tail⟩ := h
  simp only [Apart, bias] at *
  simp only [getEnd, getNext] at hc hb
  simp (disch := omega) only [addNode, getNext, getStart, getEnd, setNext, setPre, setStart,
    setEnd, hc, hb, bias, addWord_eq, Mem.load_store_same, Mem.load_store_of_disjoint,
    Nat.mod_eq_of_lt, and_self]

omit word fit in
/-- Every other header keeps its fields, but for `next` of `p` and `pre` of `b`. -/
theorem addNode_other (xc : Apart w x c) (xp : x = p ∨ Apart w x p) (xb : x = b ∨ Apart w x b) :
    (x ≠ p → getNext w (addNode w h p size).1.mem x = getNext w h.mem x) ∧
      (x ≠ b → getPre w (addNode w h p size).1.mem x = getPre w h.mem x) ∧
      getStart w (addNode w h p size).1.mem x = getStart w h.mem x ∧
      getEnd w (addNode w h p size).1.mem x = getEnd w h.mem x := by
  obtain ⟨m, head, tail⟩ := h
  simp only [Apart, bias] at *
  simp only [getEnd, getNext] at hc hb
  simp (disch := omega) only [addNode, getNext, getPre, getStart, getEnd, setNext, setPre, setStart,
    setEnd, hc, hb, Mem.load_store_same, Mem.load_store_of_disjoint]
  refine ⟨fun ne => ?_, fun ne => ?_, ?_, ?_⟩ <;>
    simp (disch := omega) only [Mem.load_store_of_disjoint]

end AddNode

/-! ### Deleting a node -/

section DeleteNode

variable (ha : getPre w h.mem p = a) (hb : getNext w h.mem p = b)
  (bp : Apart w b p) (ab : Apart w a b)
include ha hb bp ab

theorem deleteNode_links :
    getNext w (deleteNode w h p).mem a = b ∧ getPre w (deleteNode w h p).mem b = a := by
  obtain ⟨m, head, tail⟩ := h
  simp only [Apart, bias] at *
  simp only [getPre, getNext] at ha hb
  have ha' : a < 256 ^ w := ha ▸ Mem.load_lt
  have hb' : b < 256 ^ w := hb ▸ Mem.load_lt
  simp (disch := omega) only [deleteNode, getNext, getPre, setNext, setPre, ha, hb,
    Mem.load_store_same, Mem.load_store_of_disjoint, Nat.mod_eq_of_lt, and_self]

theorem deleteNode_other (xa : x = a ∨ Apart w x a) (xb : x = b ∨ Apart w x b) :
    (x ≠ a → getNext w (deleteNode w h p).mem x = getNext w h.mem x) ∧
      (x ≠ b → getPre w (deleteNode w h p).mem x = getPre w h.mem x) ∧
      getStart w (deleteNode w h p).mem x = getStart w h.mem x ∧
      getEnd w (deleteNode w h p).mem x = getEnd w h.mem x := by
  obtain ⟨m, head, tail⟩ := h
  simp only [Apart, bias] at *
  simp only [getPre, getNext] at ha hb
  simp (disch := omega) only [deleteNode, getNext, getPre, getStart, getEnd, setNext, setPre, ha, hb,
    Mem.load_store_of_disjoint]
  refine ⟨fun ne => ?_, fun ne => ?_, ?_, ?_⟩ <;>
    simp (disch := omega) only [Mem.load_store_of_disjoint]

end DeleteNode

/-! ### The layout of the list -/

/-- A node and the number of payload bytes behind its header. -/
structure Block where
  node : Nat
  size : Nat
  deriving DecidableEq

/-- The pointer that `kalloc` returns for the block. -/
def Block.ptr (w : Nat) (b : Block) : Nat := b.node + bias w

def Block.stop (w : Nat) (b : Block) : Nat := b.node + bias w + b.size

/-- The nodes of `bs` are stored in memory, in address order and without overlap. -/
structure Layout (w : Nat) (h : Heap) (bs : List Block) : Prop where
  linked : Linked (getNext w h.mem) (getPre w h.mem) (bs.map Block.node)
  starts : ∀ b ∈ bs, getStart w h.mem b.node = b.node
  ends : ∀ b ∈ bs, getEnd w h.mem b.node = b.stop w
  order : bs.Pairwise fun a b => a.stop w ≤ b.node
  word : ∀ b ∈ bs, b.stop w < 256 ^ w

namespace Layout

variable {bs l l' : List Block} {a b c : Block}

theorem node_lt (L : Layout w h bs) (hb : b ∈ bs) : b.node < 256 ^ w := by
  have := L.word b hb; unfold Block.stop at this; omega

theorem nodes_increasing (hw : 0 < w) (L : Layout w h bs) : (bs.map Block.node).Pairwise (· < ·) := by
  refine List.pairwise_map.mpr (L.order.imp fun h => ?_)
  simp only [Block.stop, bias] at h; omega

theorem nodes_nodup (hw : 0 < w) (L : Layout w h bs) : (bs.map Block.node).Nodup :=
  (L.nodes_increasing hw).imp fun h => Nat.ne_of_lt h

theorem length_le (hw : 0 < w) (L : Layout w h bs) : bs.length ≤ 256 ^ w := by
  have sub : bs.map Block.node ⊆ List.range (256 ^ w) := by
    intro x hx
    obtain ⟨b, hb, rfl⟩ := List.mem_map.mp hx
    exact List.mem_range.mpr (L.node_lt hb)
  simpa using (List.subperm_of_subset (L.nodes_nodup hw) sub).length_le

theorem apart (L : Layout w h bs) (ha : a ∈ bs) (hb : b ∈ bs) :
    a = b ∨ a.stop w ≤ b.node ∨ b.stop w ≤ a.node := by
  have order := L.order
  clear L
  induction bs with
  | nil => cases ha
  | cons x bs ih =>
    have ⟨first, rest⟩ := List.pairwise_cons.mp order
    rcases List.mem_cons.mp ha with rfl | ha' <;> rcases List.mem_cons.mp hb with rfl | hb'
    · exact Or.inl rfl
    · exact Or.inr (Or.inl (first b hb'))
    · exact Or.inr (Or.inr (first a ha'))
    · exact ih ha' hb' rest

theorem header_apart (L : Layout w h bs) (ha : a ∈ bs) (hb : b ∈ bs) :
    a.node = b.node ∨ Apart w a.node b.node := by
  rcases L.apart ha hb with rfl | h | h
  · exact Or.inl rfl
  · exact Or.inr (Or.inl (by unfold Block.stop at h; omega))
  · exact Or.inr (Or.inr (by unfold Block.stop at h; omega))

theorem next_eq (L : Layout w h (l ++ a :: b :: l')) : getNext w h.mem a.node = b.node := by
  have := L.linked
  simp only [List.map_append, List.map_cons] at this
  exact (Linked.split.mp this).2.1.1

theorem pre_eq (L : Layout w h (l ++ a :: b :: l')) : getPre w h.mem b.node = a.node := by
  have := L.linked
  simp only [List.map_append, List.map_cons] at this
  exact (Linked.split.mp this).2.1.2

section Insert

variable (hw : 0 < w) (L : Layout w h (l ++ a :: b :: l')) (gap : a.stop w + size + bias w ≤ b.node)
include L gap

/-- Every block ends before the gap starts, or starts behind the new block. -/
theorem around (x : Block) (hx : x ∈ l ++ a :: b :: l') :
    x.stop w ≤ a.stop w ∨ a.stop w + size + bias w ≤ x.node := by
  obtain ⟨-, orderA, cross⟩ := List.pairwise_append.mp L.order
  obtain ⟨-, orderB⟩ := List.pairwise_cons.mp orderA
  obtain ⟨afterB, -⟩ := List.pairwise_cons.mp orderB
  simp only [List.mem_append, List.mem_cons] at hx
  unfold Block.stop at *
  rcases hx with hx | rfl | rfl | hx
  · have := cross x hx a (by simp); omega
  · omega
  · omega
  · have := afterB x hx; omega

theorem fresh (x : Block) (hx : x ∈ l ++ a :: b :: l') : Apart w x.node (a.stop w) := by
  rcases L.around gap x hx with before | after
  · exact Or.inl (by unfold Block.stop at before ⊢; omega)
  · exact Or.inr (by omega)

omit L in
theorem neighbours_apart : Apart w a.node b.node := Or.inl (by unfold Block.stop at gap; omega)

theorem insert_other (x : Block) (hx : x ∈ l ++ a :: b :: l') :
    (x.node ≠ a.node → getNext w (addNode w h a.node size).1.mem x.node = getNext w h.mem x.node) ∧
      (x.node ≠ b.node → getPre w (addNode w h a.node size).1.mem x.node = getPre w h.mem x.node) ∧
      getStart w (addNode w h a.node size).1.mem x.node = getStart w h.mem x.node ∧
      getEnd w (addNode w h a.node size).1.mem x.node = getEnd w h.mem x.node :=
  addNode_other size (L.ends a (by simp)) L.next_eq (L.fresh gap a (by simp)) (L.fresh gap b (by simp))
    (neighbours_apart gap) (L.fresh gap x hx) (L.header_apart hx (by simp)) (L.header_apart hx (by simp))

include hw

theorem insert : Layout w (addNode w h a.node size).1 (l ++ a :: ⟨a.stop w, size⟩ :: b :: l') := by
  have other := L.insert_other gap
  have fit : a.stop w + size + bias w < 256 ^ w := Nat.lt_of_le_of_lt gap (L.node_lt (by simp))
  have positive : 0 < bias w := by simp only [bias]; omega
  obtain ⟨nextA, nextC, preC, preB⟩ := addNode_links size (L.ends a (by simp)) L.next_eq
    (L.fresh gap a (by simp)) (L.fresh gap b (by simp)) (neighbours_apart gap) (L.node_lt (by simp)) fit
  obtain ⟨startC, endC, -⟩ := addNode_block size (L.ends a (by simp)) L.next_eq
    (L.fresh gap a (by simp)) (L.fresh gap b (by simp)) (neighbours_apart gap) fit
  constructor
  · have nodup := L.nodes_nodup hw
    have linked := L.linked
    simp only [List.map_append, List.map_cons] at nodup linked ⊢
    refine linked.insert nodup nextA nextC preC preB (fun x hx ne => ?_) (fun x hx ne => ?_)
    · obtain ⟨y, hy, rfl⟩ := List.mem_map.mp (show x ∈ (l ++ a :: b :: l').map Block.node by simpa using hx)
      exact (other y hy).1 ne
    · obtain ⟨y, hy, rfl⟩ := List.mem_map.mp (show x ∈ (l ++ a :: b :: l').map Block.node by simpa using hx)
      exact (other y hy).2.1 ne
  · intro x hx
    by_cases old : x ∈ l ++ a :: b :: l'
    · rw [(other x old).2.2.1, L.starts x old]
    · obtain rfl : x = ⟨a.stop w, size⟩ := by grind
      exact startC
  · intro x hx
    by_cases old : x ∈ l ++ a :: b :: l'
    · rw [(other x old).2.2.2, L.ends x old]
    · obtain rfl : x = ⟨a.stop w, size⟩ := by grind
      rw [endC]; simp only [Block.stop]; omega
  · obtain ⟨orderL, orderA, cross⟩ := List.pairwise_append.mp L.order
    obtain ⟨afterA, orderB⟩ := List.pairwise_cons.mp orderA
    obtain ⟨afterB, -⟩ := List.pairwise_cons.mp orderB
    simp only [Block.stop] at *
    refine List.pairwise_append.mpr ⟨orderL, ?_, fun x hx y hy => ?_⟩
    · refine List.pairwise_cons.mpr ⟨fun x hx => ?_, List.pairwise_cons.mpr ⟨fun x hx => ?_, orderB⟩⟩
      · rcases List.mem_cons.mp hx with rfl | hx
        · exact Nat.le_refl _
        · exact afterA x hx
      · rcases List.mem_cons.mp hx with rfl | hx
        · dsimp only; omega
        · have := afterB x hx; dsimp only; omega
    · rcases List.mem_cons.mp hy with rfl | hy
      · exact cross x hx _ (by simp)
      · rcases List.mem_cons.mp hy with rfl | hy
        · have := cross x hx a (by simp); dsimp only; omega
        · exact cross x hx y (List.mem_cons_of_mem _ hy)
  · intro x hx
    by_cases old : x ∈ l ++ a :: b :: l'
    · exact L.word x old
    · obtain rfl : x = ⟨a.stop w, size⟩ := by grind
      simp only [Block.stop] at *; omega

end Insert

section Remove

variable (hw : 0 < w) (L : Layout w h (l ++ a :: c :: b :: l'))
include hw L

theorem removed_apart : Apart w b.node c.node ∧ Apart w a.node b.node := by
  have nodup := L.nodes_nodup hw
  have ne : b.node ≠ c.node ∧ a.node ≠ b.node := by
    simp only [List.map_append, List.map_cons] at nodup
    grind
  exact ⟨(L.header_apart (by simp) (by simp)).resolve_left ne.1,
    (L.header_apart (by simp) (by simp)).resolve_left ne.2⟩

omit hw in
theorem next_removed : getNext w h.mem c.node = b.node :=
  have L' : Layout w h ((l ++ [a]) ++ c :: b :: l') := by simpa using L
  L'.next_eq

theorem remove_other (x : Block) (hx : x ∈ l ++ a :: c :: b :: l') :
    (x.node ≠ a.node → getNext w (deleteNode w h c.node).mem x.node = getNext w h.mem x.node) ∧
      (x.node ≠ b.node → getPre w (deleteNode w h c.node).mem x.node = getPre w h.mem x.node) ∧
      getStart w (deleteNode w h c.node).mem x.node = getStart w h.mem x.node ∧
      getEnd w (deleteNode w h c.node).mem x.node = getEnd w h.mem x.node :=
  deleteNode_other L.pre_eq L.next_removed (L.removed_apart hw).1 (L.removed_apart hw).2
    (L.header_apart hx (by simp)) (L.header_apart hx (by simp))

theorem remove : Layout w (deleteNode w h c.node) (l ++ a :: b :: l') := by
  have sub : (l ++ a :: b :: l').Sublist (l ++ a :: c :: b :: l') := by simp
  have other := fun x hx => L.remove_other hw x (sub.subset hx)
  have links := deleteNode_links L.pre_eq L.next_removed (L.removed_apart hw).1 (L.removed_apart hw).2
  constructor
  · have nodup := L.nodes_nodup hw
    have linked := L.linked
    simp only [List.map_append, List.map_cons] at nodup linked ⊢
    refine linked.unlink nodup links.1 links.2 (fun x hx ne => ?_) (fun x hx ne => ?_)
    · obtain ⟨y, hy, rfl⟩ := List.mem_map.mp (show x ∈ (l ++ a :: b :: l').map Block.node by simpa using hx)
      exact (other y hy).1 ne
    · obtain ⟨y, hy, rfl⟩ := List.mem_map.mp (show x ∈ (l ++ a :: b :: l').map Block.node by simpa using hx)
      exact (other y hy).2.1 ne
  · exact fun x hx => (other x hx).2.2.1.trans (L.starts x (sub.subset hx))
  · exact fun x hx => (other x hx).2.2.2.trans (L.ends x (sub.subset hx))
  · exact L.order.sublist sub
  · exact fun x hx => L.word x (sub.subset hx)

end Remove

theorem congr (L : Layout w h bs) {h' : Heap}
    (same : ∀ b ∈ bs, ∀ y, b.node ≤ y → y < b.node + bias w → h.mem y = h'.mem y) : Layout w h' bs := by
  have fields := fun b hb => fields_congr (same b hb)
  constructor
  · refine L.linked.congr (fun x hx => ?_) (fun x hx => ?_)
    · obtain ⟨b, hb, rfl⟩ := List.mem_map.mp ((List.dropLast_sublist _).subset hx)
      exact (fields b hb).1.symm
    · obtain ⟨b, hb, rfl⟩ := List.mem_map.mp (List.mem_of_mem_tail hx)
      exact (fields b hb).2.1.symm
  · exact fun b hb => (fields b hb).2.2.1.symm.trans (L.starts b hb)
  · exact fun b hb => (fields b hb).2.2.2.symm.trans (L.ends b hb)
  · exact L.order
  · exact L.word

end Layout

end OsLabs.Pmm

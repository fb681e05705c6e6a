import OsLabs.Data.Machine
import OsLabs.Pmm.List

/-!
# Runs of the allocator

Every run of `kalloc` and `kfree` from `listInit` keeps the node list in step
with the live blocks. In between, clients may write everything but the headers
of the list nodes.
-/

namespace OsLabs.Pmm

variable {w size pmStart pmEnd fuel : Nat} {m : Mem} {h h' : Heap} {bs l l' live : List Block} {a b c : Block}

/-! ### First fit -/

/-- The gap between `a` and its successor `b` is too small for the request. -/
def Tight (w size : Nat) (a b : Block) : Prop := b.node < a.stop w + (size + bias w)

/-- The gap between `a` and its successor `b` has fewer than `n` bytes. -/
def Short (w n : Nat) (a b : Block) : Prop := b.node < a.stop w + n

/-- The scan finds the first gap that fits the word `size + BIAS`, or no gap fits. -/
theorem kallocLoop_scan (hw : 0 < w) (L : Layout w h (l ++ (l' ++ [c]))) (tail : c.node = h.tail)
    {p : Nat} (start : ∀ x ∈ (l' ++ [c]).head?, x.node = p) (enough : l'.length < fuel) :
    (kallocLoop w h size fuel p = some (h, 0) ∧ (l' ++ [c]).IsChain (Short w (addWord w size (bias w)))) ∨
      ∃ pre a b post, l' ++ [c] = pre ++ a :: b :: post ∧
        (pre ++ [a]).IsChain (Short w (addWord w size (bias w))) ∧ a.stop w + addWord w size (bias w) ≤ b.node ∧
        kallocLoop w h size fuel p = some (addNode w h a.node size) := by
  obtain ⟨fuel, rfl⟩ : ∃ k, fuel = k + 1 := ⟨fuel - 1, by omega⟩
  induction l' generalizing l fuel p with
  | nil =>
    have := start c (by simp)
    exact Or.inl ⟨by rw [kallocLoop, if_pos (by omega)], .singleton c⟩
  | cons a l' ih =>
    obtain rfl : a.node = p := start a (by simp)
    obtain ⟨b, post, hpost⟩ : ∃ b post, l' ++ [c] = b :: post := by
      cases l' with
      | nil => exact ⟨c, [], rfl⟩
      | cons b l' => exact ⟨b, l' ++ [c], rfl⟩
    have La : Layout w h (l ++ a :: b :: post) := by rw [← hpost]; simpa using L
    have notTail : a.node ≠ h.tail := by
      have nodup := L.nodes_nodup hw
      rw [← tail]
      simp only [List.map_append, List.map_cons, List.map_nil] at nodup
      grind
    have hb : b ∈ l ++ a :: b :: post := by simp
    have behind : a.stop w ≤ b.node :=
      (List.pairwise_cons.mp (List.pairwise_append.mp La.order).2.1).1 b (by simp)
    have gap : subWord w (getStart w h.mem (getNext w h.mem a.node)) (getEnd w h.mem a.node) = b.node - a.stop w := by
      rw [La.next_eq, La.starts b hb, La.ends a (by simp), subWord_eq (La.node_lt hb) behind]
    rw [kallocLoop, if_neg notTail, gap]
    by_cases room : addWord w size (bias w) ≤ b.node - a.stop w
    · refine Or.inr ⟨[], a, b, post, by simp [hpost], .singleton a, by omega, ?_⟩
      rw [if_pos room]
    · rw [if_neg room, La.next_eq]
      have short : Short w (addWord w size (bias w)) a b := by unfold Short; omega
      obtain ⟨fuel, rfl⟩ : ∃ k, fuel = k + 1 := ⟨fuel - 1, by simp at enough; omega⟩
      have rest : Layout w h ((l ++ [a]) ++ (l' ++ [c])) := by simpa using L
      have startB : ∀ x ∈ (l' ++ [c]).head?, x.node = b.node := by rw [hpost]; simp
      rcases ih rest startB fuel (by simp at enough; omega) with
        ⟨found, chain⟩ | ⟨pre, x, y, post', split, chain, room', found⟩
      · refine Or.inl ⟨found, ?_⟩
        rw [List.cons_append, hpost] at *
        exact List.isChain_cons_cons.mpr ⟨short, chain⟩
      · refine Or.inr ⟨a :: pre, x, y, post', by simp [split], ?_, room', found⟩
        rw [hpost] at split
        cases pre with
        | nil =>
          simp only [List.nil_append, List.cons.injEq] at split
          rw [← split.1]
          exact List.isChain_pair.mpr short
        | cons z pre =>
          simp only [List.cons_append, List.cons.injEq] at split
          obtain ⟨rfl, -⟩ := split
          exact List.isChain_cons_cons.mpr ⟨short, chain⟩

/-! ### The run invariant -/

/-- The nodes of the list in order: `head`, the given blocks, `tail`. -/
def cells (h : Heap) (bs : List Block) : List Block := ⟨h.head, 0⟩ :: (bs ++ [⟨h.tail, 0⟩])

/-- The list nodes are exactly those of the live blocks. -/
structure Inv (w pmStart pmEnd : Nat) (h : Heap) (live : List Block) : Prop where
  head : h.head = pmStart
  tail : h.tail + bias w = pmEnd
  first : getPre w h.mem h.head = 0
  last : getNext w h.mem h.tail = 0
  layout : ∃ bs, bs.Perm live ∧ Layout w h (cells h bs)

theorem cells_ends (h : Heap) (bs : List Block) : (⟨h.head, 0⟩ : Block) ∈ cells h bs ∧ ⟨h.tail, 0⟩ ∈ cells h bs := by
  simp [cells]

/-- Two neighbours of the list cut it, and the blocks, into two parts. -/
theorem cells_gap {pre post : List Block} (split : cells h bs = pre ++ a :: b :: post) :
    ∃ l r, bs = l ++ r ∧ pre ++ [a] = ⟨h.head, 0⟩ :: l ∧ b :: post = r ++ [⟨h.tail, 0⟩] := by
  unfold cells at split
  obtain ⟨l, hl⟩ : ∃ l, pre ++ [a] = ⟨h.head, 0⟩ :: l := by
    cases pre with
    | nil => exact ⟨[], by simp at split; simp [split.1]⟩
    | cons x pre => exact ⟨pre ++ [a], by simp at split; simp [split.1]⟩
  rw [show pre ++ a :: b :: post = (pre ++ [a]) ++ (b :: post) by simp, hl, List.cons_append] at split
  have split := (List.cons.inj split).2
  obtain ⟨r, t, hr⟩ : ∃ r t, b :: post = r ++ [t] :=
    ⟨_, _, (List.dropLast_concat_getLast (by simp)).symm⟩
  rw [hr, ← List.append_assoc] at split
  have ⟨same, last⟩ := List.append_inj' split rfl
  exact ⟨l, r, same, hl, by rw [hr, ← last]⟩

theorem cells_around (l r : List Block) : ∃ pre a b post,
    cells h (l ++ c :: r) = pre ++ a :: c :: b :: post ∧ cells h (l ++ r) = pre ++ a :: b :: post ∧
      ⟨h.head, 0⟩ ∈ pre ++ [a] ∧ ⟨h.tail, 0⟩ ∈ b :: post := by
  obtain ⟨pre, a, ha⟩ : ∃ pre a, (⟨h.head, 0⟩ : Block) :: l = pre ++ [a] :=
    ⟨_, _, (List.dropLast_concat_getLast (by simp)).symm⟩
  obtain ⟨b, post, hb⟩ : ∃ b post, r ++ [(⟨h.tail, 0⟩ : Block)] = b :: post := by
    cases r with
    | nil => exact ⟨_, _, rfl⟩
    | cons x r => exact ⟨_, _, rfl⟩
  refine ⟨pre, a, b, post, ?_, ?_, by simp [← ha], by simp [← hb]⟩
  · rw [cells, show pre ++ a :: c :: b :: post = (pre ++ [a]) ++ c :: (b :: post) by simp, ← ha, ← hb]
    simp
  · rw [cells, show pre ++ a :: b :: post = (pre ++ [a]) ++ (b :: post) by simp, ← ha, ← hb]
    simp

/-- `head` comes before the later neighbour and `tail` after the earlier one. -/
theorem ends_outside {pre post : List Block} (hw : 0 < w) (L : Layout w h (pre ++ a :: b :: post))
    (head : ⟨h.head, 0⟩ ∈ pre ++ [a]) (tail : ⟨h.tail, 0⟩ ∈ b :: post) :
    h.head ≠ b.node ∧ h.tail ≠ a.node := by
  have inc := List.pairwise_map.mp (L.nodes_increasing hw)
  rw [show pre ++ a :: b :: post = (pre ++ [a]) ++ (b :: post) by simp] at inc
  obtain ⟨-, -, cross⟩ := List.pairwise_append.mp inc
  exact ⟨Nat.ne_of_lt (cross _ head b (by simp)), Nat.ne_of_gt (cross a (by simp) _ tail)⟩

theorem listInit_inv (range : pmStart + 2 * bias w ≤ pmEnd) (word : pmEnd < 256 ^ w) :
    Inv w pmStart pmEnd (listInit w m pmStart pmEnd) [] := by
  have htail : subWord w pmEnd (bias w) = pmEnd - bias w := subWord_eq word (by omega)
  have htail' : pmEnd - 4 * w < 256 ^ w := by omega
  simp only [bias] at range htail
  constructor
  · rfl
  · simp only [listInit, htail, bias]; omega
  · simp (disch := omega) only [listInit, htail, bias, getPre, getStart, setNext, setPre, setStart, setEnd,
      Mem.load_store_same, Mem.load_store_of_disjoint, Nat.zero_mod]
  · simp (disch := omega) only [listInit, htail, bias, getNext, getStart, setNext, setPre, setStart, setEnd,
      Mem.load_store_same, Mem.load_store_of_disjoint, Nat.zero_mod]
  · refine ⟨[], List.Perm.refl _, ?_⟩
    constructor
    · apply List.isChain_pair.mpr
      simp (disch := omega) only [listInit, htail, bias, getNext, getPre, getStart, setNext, setPre, setStart,
        setEnd, Mem.load_store_same, Mem.load_store_of_disjoint, Nat.mod_eq_of_lt, and_self]
    · simp only [cells, List.nil_append, List.forall_mem_cons, List.not_mem_nil, false_imp_iff, implies_true,
        and_true]
      simp (disch := omega) only [listInit, htail, bias, getStart, setNext, setPre, setStart,
        setEnd, Mem.load_store_same, Mem.load_store_of_disjoint, Nat.mod_eq_of_lt, and_self]
    · simp only [cells, List.nil_append, List.forall_mem_cons, List.not_mem_nil, false_imp_iff, implies_true,
        and_true]
      simp (disch := omega) only [listInit, htail, bias, getEnd, getStart, setNext, setPre, setStart,
        setEnd, Mem.load_store_same, Mem.load_store_of_disjoint, Nat.mod_eq_of_lt, addWord_eq, Block.stop,
        Nat.add_zero, and_self]
    · simp only [cells, listInit, htail, bias, Block.stop, List.nil_append, List.pairwise_cons, List.mem_singleton, 
        forall_eq, List.not_mem_nil, false_imp_iff, implies_true, List.Pairwise.nil, and_true]
      omega
    · simp only [cells, listInit, htail, bias, Block.stop, List.nil_append, List.forall_mem_cons, List.not_mem_nil,
        false_imp_iff, implies_true, and_true]
      omega

/-- `kalloc` takes the first gap that fits the word `size + BIAS`. -/
theorem kalloc_scan (hw : 0 < w) (L : Layout w h (cells h bs)) :
    (kalloc w h size = some (h, 0) ∧ (cells h bs).IsChain (Short w (addWord w size (bias w)))) ∨
      ∃ pre a b post, cells h bs = pre ++ a :: b :: post ∧
        (pre ++ [a]).IsChain (Short w (addWord w size (bias w))) ∧ a.stop w + addWord w size (bias w) ≤ b.node ∧
        kalloc w h size = some (addNode w h a.node size) := by
  have enough : (⟨h.head, 0⟩ :: bs : List Block).length < 256 ^ w := by
    have := L.length_le hw
    simp only [cells, List.length_cons, List.length_append, List.length_nil] at this ⊢
    omega
  have L' : Layout w h ([] ++ ((⟨h.head, 0⟩ :: bs) ++ [⟨h.tail, 0⟩])) := by simpa [cells] using L
  have start : ∀ x ∈ (((⟨h.head, 0⟩ : Block) :: bs) ++ [(⟨h.tail, 0⟩ : Block)]).head?, x.node = h.head := by simp
  exact kallocLoop_scan hw L' rfl start enough

/-- The same for a request that does not wrap. -/
theorem kalloc_fits (hw : 0 < w) (L : Layout w h (cells h bs)) (fits : size + bias w < 256 ^ w) :
    (kalloc w h size = some (h, 0) ∧ (cells h bs).IsChain (Tight w size)) ∨
      ∃ pre a b post, cells h bs = pre ++ a :: b :: post ∧ (pre ++ [a]).IsChain (Tight w size) ∧
        a.stop w + size + bias w ≤ b.node ∧ kalloc w h size = some (addNode w h a.node size) := by
  have scan := @kalloc_scan w size h bs hw L
  rw [addWord_eq fits] at scan
  rcases scan with failed | ⟨pre, a, b, post, split, tight, room, found⟩
  · exact .inl failed
  · exact .inr ⟨pre, a, b, post, split, tight, by omega, found⟩

/-- `kalloc` always returns: either no gap fits and the heap is as before, or a new
block is listed at the start of the first gap that fits. -/
theorem kalloc_cases (hw : 0 < w) (I : Inv w pmStart pmEnd h live) (fits : size + bias w < 256 ^ w) :
    kalloc w h size = some (h, 0) ∨
      ∃ h' node, kalloc w h size = some (h', node + bias w) ∧
        Inv w pmStart pmEnd h' (⟨node, size⟩ :: live) := by
  obtain ⟨bs, perm, L⟩ := I.layout
  rcases kalloc_fits hw L fits with ⟨found, -⟩ | ⟨pre, a, b, post, split', -, gap, found⟩
  · exact Or.inl found
  · right
    rw [split'] at L
    have positive : 0 < bias w := by simp only [bias]; omega
    have fit : a.stop w + size + bias w < 256 ^ w := Nat.lt_of_le_of_lt gap (L.node_lt (by simp))
    have ptr := (addNode_block size (L.ends a (by simp)) L.next_eq (L.fresh gap a (by simp)) (L.fresh gap b (by simp))
      (Layout.neighbours_apart gap) fit).2.2
    refine ⟨(addNode w h a.node size).1, a.stop w, ?_, ?_⟩
    · rw [found, ← ptr]
    obtain ⟨before, after, rfl, hl, hr⟩ := cells_gap split'
    have head : (⟨h.head, 0⟩ : Block) ∈ pre ++ [a] := by simp [hl]
    have tail : (⟨h.tail, 0⟩ : Block) ∈ b :: post := by simp [hr]
    have ends := ends_outside hw L head tail
    have headMem : (⟨h.head, 0⟩ : Block) ∈ pre ++ a :: b :: post := by
      rw [← split']; exact (cells_ends h _).1
    have tailMem : (⟨h.tail, 0⟩ : Block) ∈ pre ++ a :: b :: post := by
      rw [← split']; exact (cells_ends h _).2
    refine ⟨I.head, I.tail, ?_, ?_, before ++ ⟨a.stop w, size⟩ :: after, ?_, ?_⟩
    · exact ((L.insert_other gap _ headMem).2.1 ends.1).trans I.first
    · exact ((L.insert_other gap _ tailMem).1 ends.2).trans I.last
    · exact List.perm_middle.trans (perm.cons _)
    · have := L.insert hw gap
      rw [show pre ++ a :: ⟨a.stop w, size⟩ :: b :: post = (pre ++ [a]) ++ ⟨a.stop w, size⟩ :: (b :: post) by simp,
        hl, hr] at this
      simpa [cells, addNode] using this

theorem kfree_inv (hw : 0 < w) (I : Inv w pmStart pmEnd h live) (mem : c ∈ live) :
    Inv w pmStart pmEnd (kfree w h (c.ptr w)) (live.erase c) := by
  obtain ⟨bs, perm, L⟩ := I.layout
  obtain ⟨before, after, rfl⟩ := List.append_of_mem (perm.mem_iff.mpr mem)
  obtain ⟨pre, a, b, post, whole, rest, head, tail⟩ := cells_around (h := h) (c := c) before after
  rw [whole] at L
  have here : subWord w (c.ptr w) (bias w) = c.node := by
    have := L.word c (by simp)
    unfold Block.stop at this
    rw [Block.ptr, subWord_eq (by omega) (by omega)]
    omega
  have R := L.remove hw
  have ends := ends_outside hw R head tail
  have headMem : (⟨h.head, 0⟩ : Block) ∈ pre ++ a :: c :: b :: post := by
    rw [← whole]; exact (cells_ends h _).1
  have tailMem : (⟨h.tail, 0⟩ : Block) ∈ pre ++ a :: c :: b :: post := by
    rw [← whole]; exact (cells_ends h _).2
  rw [kfree, here]
  refine ⟨I.head, I.tail, ?_, ?_, before ++ after, ?_, ?_⟩
  · exact ((L.remove_other hw _ headMem).2.1 ends.1).trans I.first
  · exact ((L.remove_other hw _ tailMem).1 ends.2).trans I.last
  · exact List.Perm.cons_inv ((List.perm_middle.symm.trans perm).trans (List.perm_cons_erase mem))
  · rw [← rest] at R
    exact R

/-- Clients write what they like, but no header. -/
theorem client_inv (I : Inv w pmStart pmEnd h live)
    (same : ∀ b ∈ cells h live, ∀ y, b.node ≤ y → y < b.node + bias w → h.mem y = m y) :
    Inv w pmStart pmEnd ⟨m, h.head, h.tail⟩ live := by
  obtain ⟨bs, perm, L⟩ := I.layout
  have same' : ∀ b ∈ cells h bs, ∀ y, b.node ≤ y → y < b.node + bias w → h.mem y = m y := by
    intro b hb
    apply same b
    simpa [cells, perm.mem_iff] using hb
  have headFields := fields_congr (same' _ (cells_ends h bs).1)
  have tailFields := fields_congr (same' _ (cells_ends h bs).2)
  exact ⟨I.head, I.tail, headFields.2.1.symm.trans I.first, tailFields.1.symm.trans I.last, bs, perm, L.congr same'⟩

/-! ### Runs -/

inductive Op where
  | kalloc (size : Nat)
  | kfree (ptr : Nat)
  | client

/-- One call, or a write by the clients in between. The blocks are those that are
live: handed out and not freed since. -/
inductive Step (w : Nat) : Heap × List Block → Op → Heap × List Block → Prop where
  | kalloc {h h' : Heap} {live : List Block} {size r : Nat} (fits : size + bias w < 256 ^ w)
      (returned : kalloc w h size = some (h', r)) :
      Step w (h, live) (.kalloc size) (h', if r = 0 then live else ⟨r - bias w, size⟩ :: live)
  | kfree {h : Heap} {live : List Block} {b : Block} (handedOut : b ∈ live) :
      Step w (h, live) (.kfree (b.ptr w)) (kfree w h (b.ptr w), live.erase b)
  | client {h : Heap} {live : List Block} {m : Mem}
      (headers : ∀ b ∈ cells h live, ∀ y, b.node ≤ y → y < b.node + bias w → h.mem y = m y) :
      Step w (h, live) .client (⟨m, h.head, h.tail⟩, live)

/-- The allocator over the heap range `[pmStart, pmEnd)`. -/
def allocator (w pmStart pmEnd : Nat) : Machine (Heap × List Block) Op where
  Init s := ∃ m, s = (listInit w m pmStart pmEnd, [])
  Step := Step w

theorem step_inv (hw : 0 < w) {s t : Heap × List Block} {op : Op} (I : Inv w pmStart pmEnd s.1 s.2)
    (step : Step w s op t) : Inv w pmStart pmEnd t.1 t.2 := by
  cases step with
  | kalloc fits returned =>
    rcases kalloc_cases hw I fits with failed | ⟨h', node, found, I'⟩
    · rw [failed] at returned
      obtain ⟨rfl, rfl⟩ := Prod.mk.inj (Option.some.inj returned)
      exact I
    · rw [found] at returned
      obtain ⟨rfl, rfl⟩ := Prod.mk.inj (Option.some.inj returned)
      have positive : 0 < bias w := by simp only [bias]; omega
      rw [if_neg (by omega), Nat.add_sub_cancel]
      exact I'
  | kfree handedOut => exact kfree_inv hw I handedOut
  | client headers => exact client_inv I headers

theorem reachable_inv (hw : 0 < w) (range : pmStart + 2 * bias w ≤ pmEnd) (word : pmEnd < 256 ^ w)
    {s : Heap × List Block} (run : (allocator w pmStart pmEnd).Reachable s) : Inv w pmStart pmEnd s.1 s.2 := by
  refine run.induct (fun s => Inv w pmStart pmEnd s.1 s.2) ?_ fun s op t I step => step_inv hw I step
  rintro s ⟨m, rfl⟩
  exact listInit_inv range word

/-! ### The list after any run -/

theorem empty_nodes (I : Inv w pmStart pmEnd h []) :
    nodeAt w h.mem h.head = ⟨h.tail, 0, h.head, h.head + bias w⟩ ∧
      nodeAt w h.mem h.tail = ⟨0, h.head, h.tail, h.tail + bias w⟩ := by
  obtain ⟨bs, perm, L⟩ := I.layout
  obtain rfl := List.Perm.eq_nil perm
  have links := List.isChain_pair.mp L.linked
  have starts := L.starts
  have ends := L.ends
  simp only [cells, List.nil_append, List.forall_mem_cons, List.not_mem_nil, false_imp_iff, implies_true,
    and_true, Block.stop, Nat.add_zero] at starts ends
  simp [nodeAt, links, starts, ends, I.first, I.last]

theorem kfree_all (hw : 0 < w) {ptrs : List Nat} (I : Inv w pmStart pmEnd h live)
    (all : ptrs.Perm (live.map (Block.ptr w))) : Inv w pmStart pmEnd (ptrs.foldl (kfree w) h) [] := by
  induction ptrs generalizing h live with
  | nil =>
    obtain rfl : live = [] := List.map_eq_nil_iff.mp (List.Perm.nil_eq all).symm
    exact I
  | cons p ptrs ih =>
    obtain ⟨b, mem, rfl⟩ := List.mem_map.mp (all.mem_iff.mp List.mem_cons_self)
    have rest : ptrs.Perm ((live.erase b).map (Block.ptr w)) :=
      List.Perm.cons_inv (all.trans ((List.perm_cons_erase mem).map (Block.ptr w)))
    exact ih (kfree_inv hw I mem) rest

/-- The node list describes the live blocks exactly. -/
structure ListExact (w pmStart pmEnd : Nat) (h : Heap) (live : List Block) : Prop where
  /-- `next` leads from `head` over the nodes of the live blocks to `tail`, with
  increasing addresses, and `pre` leads back. -/
  walk : ∃ nodes : List Nat, nodes.Perm (live.map Block.node) ∧
    (h.head :: (nodes ++ [h.tail])).Pairwise (· < ·) ∧
    Linked (getNext w h.mem) (getPre w h.mem) (h.head :: (nodes ++ [h.tail]))
  within : ∀ b ∈ live, getEnd w h.mem h.head ≤ b.node ∧ b.ptr w + b.size ≤ getStart w h.mem h.tail
  disjoint : live.Pairwise fun a b => a.ptr w + a.size ≤ b.node ∨ b.ptr w + b.size ≤ a.node
  returns : ∀ size, size + bias w < 256 ^ w → ∃ h' r, kalloc w h size = some (h', r)
  restored : ∀ (m : Mem) (ptrs : List Nat), ptrs.Perm (live.map (Block.ptr w)) →
    let h' := ptrs.foldl (kfree w) h
    let init := listInit w m pmStart pmEnd
    h'.head = init.head ∧ h'.tail = init.tail ∧
      nodeAt w h'.mem h'.head = nodeAt w init.mem init.head ∧
      nodeAt w h'.mem h'.tail = nodeAt w init.mem init.tail

theorem inv_listExact (hw : 0 < w) (range : pmStart + 2 * bias w ≤ pmEnd) (word : pmEnd < 256 ^ w)
    (I : Inv w pmStart pmEnd h live) : ListExact w pmStart pmEnd h live := by
  obtain ⟨bs, perm, L⟩ := I.layout
  have ends := cells_ends h bs
  refine ⟨⟨bs.map Block.node, perm.map _, ?_, ?_⟩, ?_, ?_, ?_, ?_⟩
  · simpa [cells] using L.nodes_increasing hw
  · simpa [cells] using L.linked
  · intro b hb
    rw [L.ends _ ends.1, L.starts _ ends.2]
    obtain ⟨first, rest⟩ := List.pairwise_cons.mp L.order
    have hb : b ∈ bs := perm.mem_iff.mpr hb
    exact ⟨first b (by simp [hb]), (List.pairwise_append.mp rest).2.2 b hb _ (by simp)⟩
  · have order := (List.pairwise_append.mp (List.pairwise_cons.mp L.order).2).1
    have either : bs.Pairwise fun a b => a.ptr w + a.size ≤ b.node ∨ b.ptr w + b.size ≤ a.node :=
      order.imp fun {a b} before => Or.inl before
    exact (perm.pairwise_iff fun h => Or.symm h).mp either
  · intro size fits
    rcases kalloc_cases hw I fits with failed | ⟨h', node, found, -⟩
    · exact ⟨h, 0, failed⟩
    · exact ⟨h', _, found⟩
  · intro m ptrs all
    have F := kfree_all hw I all
    have J := listInit_inv (m := m) range word
    have tails : (ptrs.foldl (kfree w) h).tail = (listInit w m pmStart pmEnd).tail := by
      have := F.tail; have := J.tail; omega
    have heads : (ptrs.foldl (kfree w) h).head = (listInit w m pmStart pmEnd).head := F.head.trans J.head.symm
    refine ⟨heads, tails, ?_, ?_⟩
    · rw [(empty_nodes F).1, (empty_nodes J).1, heads, tails]
    · rw [(empty_nodes F).2, (empty_nodes J).2, heads, tails]

/-- Whatever is allocated, freed and written, the list describes the live blocks. -/
theorem reachable_listExact (hw : 0 < w) (range : pmStart + 2 * bias w ≤ pmEnd) (word : pmEnd < 256 ^ w)
    (run : (allocator w pmStart pmEnd).Reachable (h, live)) : ListExact w pmStart pmEnd h live :=
  inv_listExact hw range word (reachable_inv hw range word run)

def afterKalloc (w : Nat) (h : Heap) (size : Nat) : Heap := ((kalloc w h size).map Prod.fst).getD h

theorem kalloc_eq (h : Heap) (size r : Nat) (ptr : (kalloc w h size).map Prod.snd = some r) :
    kalloc w h size = some (afterKalloc w h size, r) := by
  obtain ⟨⟨h', r'⟩, found, rfl⟩ := Option.map_eq_some_iff.mp ptr
  simp [afterKalloc, found]

/-- The heap `[256, 4096)` after `kalloc(10)`, `kalloc(7)` and a `kfree` of the first block. -/
def sampleHeap : Heap :=
  kfree 4 (afterKalloc 4 (afterKalloc 4 (listInit 4 (fun _ => 0) 256 4096) 10) 7) 288

theorem sampleHeap_reachable : (allocator 4 256 4096).Reachable (sampleHeap, [⟨298, 7⟩]) := by
  have init : (allocator 4 256 4096).Reachable (listInit 4 (fun _ => 0) 256 4096, []) := .init ⟨_, rfl⟩
  have first := init.step (Step.kalloc (by decide) (kalloc_eq _ 10 288 (by decide +kernel)))
  have second := first.step (Step.kalloc (by decide) (kalloc_eq _ 7 314 (by decide +kernel)))
  have live : (⟨272, 10⟩ : Block) ∈ [(⟨298, 7⟩ : Block), ⟨272, 10⟩] := by decide
  exact second.step (@Step.kfree 4 _ _ ⟨272, 10⟩ live)

theorem reachable_listExact_sample : ListExact 4 256 4096 sampleHeap [⟨298, 7⟩] :=
  reachable_listExact (by decide) (by decide) (by decide) sampleHeap_reachable

end OsLabs.Pmm

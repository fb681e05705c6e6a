import OsLabs.Pmm.Runs

/-!
# Where a block is placed

What `kalloc` answers in every reachable state, read off the list in memory: the
lowest gap that holds the request and its node, or NULL when there is none. A
request so large that adding `BIAS` wraps is answered as a small one.
-/

namespace OsLabs.Pmm

variable {w n size pmStart pmEnd : Nat} {m : Mem} {h h' : Heap} {bs l live : List Block} {a b : Block}

/-! ### The gaps of the list -/

/-- The list nodes in the order of `next`, from `head` to `tail`. -/
structure Nodes (w : Nat) (h : Heap) (ns : List Nat) : Prop where
  ends : ∃ inner, ns = h.head :: (inner ++ [h.tail])
  order : ns.Pairwise (· < ·)
  linked : Linked (getNext w h.mem) (getPre w h.mem) ns

/-- The free bytes between the node `x` and the next node `y`. -/
def gap (w : Nat) (m : Mem) (x y : Nat) : Nat := getStart w m y - getEnd w m x

/-- Every gap between neighbours has fewer than `n` bytes. -/
def Full (w n : Nat) (m : Mem) (ns : List Nat) : Prop := ns.IsChain fun x y => gap w m x y < n

theorem Layout.nodes (hw : 0 < w) (L : Layout w h (cells h bs)) : Nodes w h ((cells h bs).map Block.node) :=
  ⟨⟨bs.map Block.node, by simp [cells]⟩, L.nodes_increasing hw, L.linked⟩

theorem Nodes.unique {ns ns' : List Nat} (nodes : Nodes w h ns) (nodes' : Nodes w h ns') : ns = ns' := by
  obtain ⟨inner, rfl⟩ := nodes.ends
  obtain ⟨inner', rfl⟩ := nodes'.ends
  have last : ∀ inner : List Nat, (h.head :: (inner ++ [h.tail])).getLast? = some h.tail := fun inner => by
    rw [← List.cons_append, List.getLast?_concat]
  rw [nodes.linked.unique nodes'.linked (nodes.order.imp fun less => Nat.ne_of_lt less)
    (nodes'.order.imp fun less => Nat.ne_of_lt less) (last inner) (last inner')]

theorem Layout.gap_eq (L : Layout w h bs) (ha : a ∈ bs) (hb : b ∈ bs) :
    gap w h.mem a.node b.node = b.node - a.stop w := by
  rw [gap, L.starts b hb, L.ends a ha]

theorem Layout.full_iff (L : Layout w h bs) (sub : l.Sublist bs) :
    Full w n h.mem (l.map Block.node) ↔ l.IsChain (Short w n) := by
  rw [Full, List.isChain_map]
  induction l with
  | nil => exact iff_of_true .nil .nil
  | cons a l ih =>
    cases l with
    | nil => exact iff_of_true (.singleton a) (.singleton a)
    | cons b l =>
      have behind : a.stop w ≤ b.node := (List.pairwise_cons.mp (L.order.sublist sub)).1 b (by simp)
      have short : gap w h.mem a.node b.node < n ↔ Short w n a b := by
        rw [L.gap_eq (sub.subset (by simp)) (sub.subset (by simp)), Short]
        omega
      rw [List.isChain_cons_cons, List.isChain_cons_cons, short, ih ((List.sublist_cons_self _ _).trans sub)]

/-! ### First fit -/

/-- The new node starts the gap between `a` and `b`, the first with room, and every other node keeps its place. -/
structure Placed (w size : Nat) (h h' : Heap) (r : Nat) (pre : List Nat) (a b : Nat) (post : List Nat) : Prop where
  before : Full w (size + bias w) h.mem (pre ++ [a])
  room : size + bias w ≤ gap w h.mem a b
  ptr : r = getEnd w h.mem a + bias w
  nodes : Nodes w h' (pre ++ a :: getEnd w h.mem a :: b :: post)
  start : getStart w h'.mem (getEnd w h.mem a) = getEnd w h.mem a
  stop : getEnd w h'.mem (getEnd w h.mem a) = getEnd w h.mem a + size + bias w
  kept : ∀ x ∈ pre ++ a :: b :: post,
    getStart w h'.mem x = getStart w h.mem x ∧ getEnd w h'.mem x = getEnd w h.mem x

/-- The call on the list `ns` that leaves `h'` and returns `r`. -/
structure FirstFit (w size : Nat) (h : Heap) (ns : List Nat) (h' : Heap) (r : Nat) : Prop where
  null_iff : r = 0 ↔ Full w (size + bias w) h.mem ns
  unchanged : r = 0 → h' = h
  placed : r ≠ 0 → ∃ pre a b post, ns = pre ++ a :: b :: post ∧ Placed w size h h' r pre a b post

theorem insert_placed {pre post : List Block} (hw : 0 < w) (L : Layout w h (cells h bs))
    (split : cells h bs = pre ++ a :: b :: post) (short : (pre ++ [a]).IsChain (Tight w size))
    (room : a.stop w + size + bias w ≤ b.node) :
    Placed w size h (addNode w h a.node size).1 (addNode w h a.node size).2 (pre.map Block.node) a.node b.node
      (post.map Block.node) := by
  have positive : 0 < bias w := by simp only [bias]; omega
  have new := split ▸ L
  have fit : a.stop w + size + bias w < 256 ^ w := Nat.lt_of_le_of_lt room (new.node_lt (by simp))
  have stop : getEnd w h.mem a.node = a.stop w := new.ends a (by simp)
  obtain ⟨startC, endC, ptr⟩ := addNode_block size stop new.next_eq (new.fresh room a (by simp))
    (new.fresh room b (by simp)) (Layout.neighbours_apart room) fit
  obtain ⟨before, after, rfl, hl, hr⟩ := cells_gap split
  have listed : pre ++ a :: ⟨a.stop w, size⟩ :: b :: post =
      cells (addNode w h a.node size).1 (before ++ ⟨a.stop w, size⟩ :: after) := by
    rw [show pre ++ a :: ⟨a.stop w, size⟩ :: b :: post = (pre ++ [a]) ++ ⟨a.stop w, size⟩ ::
      (b :: post) by simp, hl, hr]
    simp [cells, addNode]
  have inserted := new.insert hw room
  rw [listed] at inserted
  constructor
  · have sub : (pre ++ [a]).Sublist (pre ++ a :: b :: post) := by simp
    simpa using (new.full_iff sub).mpr short
  · rw [new.gap_eq (by simp) (by simp)]
    omega
  · rw [stop, ptr]
  · have nodes := inserted.nodes hw
    rw [← listed] at nodes
    simpa [stop] using nodes
  · rw [stop, startC]
  · rw [stop, endC]
  · intro x hx
    obtain ⟨y, hy, rfl⟩ := List.mem_map.mp (show x ∈ (pre ++ a :: b :: post).map Block.node by simpa using hx)
    exact (new.insert_other room y hy).2.2

theorem kalloc_firstFit (hw : 0 < w) (L : Layout w h (cells h bs)) (fits : size + bias w < 256 ^ w) :
    ∃ h' r, kalloc w h size = some (h', r) ∧ FirstFit w size h ((cells h bs).map Block.node) h' r := by
  have positive : 0 < bias w := by simp only [bias]; omega
  have full := @Layout.full_iff w (size + bias w) h _ _ L (List.Sublist.refl _)
  rcases kalloc_fits hw L fits with ⟨found, short⟩ | ⟨pre, a, b, post, split, short, room, found⟩
  · exact ⟨h, 0, found, iff_of_true rfl (full.mpr short), fun _ => rfl, fun some => absurd rfl some⟩
  · have placed := insert_placed hw L split short room
    have some : (addNode w h a.node size).2 ≠ 0 := by
      rw [placed.ptr]
      omega
    refine ⟨_, _, found, iff_of_false some fun full' => ?_, fun zero => absurd zero some,
      fun _ => ⟨_, _, _, _, by simp [split], placed⟩⟩
    have short' := full.mp full'
    rw [split, List.isChain_append_cons_cons] at short'
    have less : b.node < a.stop w + (size + bias w) := short'.2.1
    omega

/-- After any run, `kalloc` places a block in the first gap that holds it. -/
theorem reachable_firstFit (hw : 0 < w) (range : pmStart + 2 * bias w ≤ pmEnd) (word : pmEnd < 256 ^ w)
    (run : (allocator w pmStart pmEnd).Reachable (h, live)) (fits : size + bias w < 256 ^ w) :
    ∃ ns h' r, Nodes w h ns ∧ kalloc w h size = some (h', r) ∧ FirstFit w size h ns h' r := by
  obtain ⟨bs, -, L⟩ := (reachable_inv hw range word run).layout
  obtain ⟨h', r, found, first⟩ := kalloc_firstFit hw L fits
  exact ⟨_, h', r, L.nodes hw, found, first⟩

theorem reachable_firstFit_sample : ∃ ns h' r, Nodes 4 sampleHeap ns ∧ kalloc 4 sampleHeap 10 = some (h', r) ∧
    FirstFit 4 10 sampleHeap ns h' r :=
  reachable_firstFit (by decide) (by decide) (by decide) sampleHeap_reachable (by decide)

/-! ### Requests that wrap -/

/-- The nodes and their fields are as before. -/
def Unchanged (w : Nat) (h h' : Heap) (ns : List Nat) : Prop :=
  h'.head = h.head ∧ h'.tail = h.tail ∧ ∀ x ∈ ns, nodeAt w h'.mem x = nodeAt w h.mem x

/-- The bytes behind a pointer end before the next node starts, and where no gap holds them there is no pointer. -/
def Answers (w size : Nat) (h : Heap) (ns : List Nat) : Prop :=
  ∃ h' r, kalloc w h size = some (h', r) ∧
    (r ≠ 0 → r + size ≤ getStart w h'.mem (getNext w h'.mem (r - bias w))) ∧
    (Full w (size + bias w) h.mem ns → r = 0 ∧ Unchanged w h h' ns)

/-- `size + BIAS` is a word, or what is left of it fits in no gap. -/
def Fits (w size : Nat) (h : Heap) (ns : List Nat) : Prop :=
  size + bias w < 256 ^ w ∨ Full w (size + bias w - 256 ^ w) h.mem ns

theorem addWord_wrapped (small : size < 256 ^ w) (wraps : 256 ^ w ≤ size + bias w) (low : bias w ≤ 256 ^ w) :
    addWord w size (bias w) = size + bias w - 256 ^ w := by
  rw [addWord, Nat.mod_eq_sub_mod wraps, Nat.mod_eq_of_lt (by omega)]

/-- No gap has as many bytes as there are addresses. -/
theorem full_wrapped (wraps : 256 ^ w ≤ n) (ns : List Nat) : Full w n m ns := by
  have all : ns.Pairwise fun x y => gap w m x y < n :=
    List.pairwise_of_forall fun x y => Nat.lt_of_le_of_lt (Nat.sub_le _ _) (Nat.lt_of_lt_of_le Mem.load_lt wraps)
  exact all.isChain

theorem addNode_next (p size : Nat) : getNext w (addNode w h p size).1.mem p = getEnd w h.mem p := by
  obtain ⟨m, head, tail⟩ := h
  have word : getEnd w m p < 256 ^ w := Mem.load_lt
  simp only [addNode, getNext, setNext, Mem.load_store_same, Nat.mod_eq_of_lt word]

/-- A node that is put on top of its successor moves the end of that. -/
theorem addNode_over {p c : Nat} (hc : getEnd w h.mem p = c) (hb : getNext w h.mem p = c) (apart : Apart w p c) :
    getEnd w (addNode w h p size).1.mem c = addWord w (addWord w c size) (bias w) := by
  obtain ⟨m, head, tail⟩ := h
  simp only [Apart, bias] at *
  simp only [getEnd, getNext] at hc hb
  have word : c < 256 ^ w := hb ▸ Mem.load_lt
  simp (disch := omega) only [addNode, getNext, getStart, getEnd, setNext, setPre, setStart, setEnd, hc, hb, bias,
    Mem.load_store_same, Mem.load_store_of_disjoint, Nat.mod_eq_of_lt]
  exact Nat.mod_eq_of_lt (Nat.mod_lt _ (Nat.pow_pos (by decide)))

/-- A request that wraps into a gap changes the list. -/
theorem wrapped_changes {pre post : List Block} (hw : 0 < w) (L : Layout w h (pre ++ a :: b :: post))
    (wraps : 256 ^ w ≤ size + bias w) (room : a.stop w + (size + bias w - 256 ^ w) ≤ b.node) :
    ¬Unchanged w h (addNode w h a.node size).1 ((pre ++ a :: b :: post).map Block.node) := by
  rintro ⟨-, -, same⟩
  have stop : getEnd w h.mem a.node = a.stop w := L.ends a (by simp)
  have next := congrArg Node.next (same a.node (by simp))
  simp only [nodeAt, addNode_next, stop, L.next_eq] at next
  -- Without a free byte in the gap the node is put on the successor, whose end moves.
  have inFront : Apart w a.node b.node := .inl (by unfold Block.stop at room; omega)
  have tail := congrArg Node.stop (same b.node (by simp))
  simp only [nodeAt, L.ends b (by simp), addNode_over (stop.trans next) L.next_eq inFront] at tail
  have whole : b.node + size + bias w = b.node + 256 ^ w := by omega
  rw [addWord, addWord, Nat.mod_add_mod, whole, Nat.add_mod_right, Nat.mod_eq_of_lt (L.node_lt (by simp)), Block.stop,
    bias] at tail
  omega

theorem Layout.bias_le (L : Layout w h (cells h bs)) : bias w ≤ 256 ^ w := by
  have := L.word _ (cells_ends h bs).2
  unfold Block.stop at this
  omega

theorem kalloc_wrapped (hw : 0 < w) (L : Layout w h (cells h bs)) (small : size < 256 ^ w)
    (wraps : 256 ^ w ≤ size + bias w) (fits : Fits w size h ((cells h bs).map Block.node)) :
    kalloc w h size = some (h, 0) := by
  have scan := @kalloc_scan w size h bs hw L
  rw [addWord_wrapped small wraps L.bias_le] at scan
  rcases scan with ⟨found, -⟩ | ⟨pre, a, b, post, split, -, room, -⟩
  · exact found
  · have short := (L.full_iff (List.Sublist.refl _)).mp (fits.resolve_left (by omega))
    rw [split, List.isChain_append_cons_cons] at short
    have less : b.node < a.stop w + (size + bias w - 256 ^ w) := short.2.1
    omega

theorem fits_of_answers (hw : 0 < w) (L : Layout w h (cells h bs)) (small : size < 256 ^ w)
    (answers : Answers w size h ((cells h bs).map Block.node)) : Fits w size h ((cells h bs).map Block.node) := by
  by_cases wraps : 256 ^ w ≤ size + bias w
  · have scan := @kalloc_scan w size h bs hw L
    rw [addWord_wrapped small wraps L.bias_le] at scan
    rcases scan with ⟨-, short⟩ | ⟨pre, a, b, post, split, -, room, found⟩
    · exact .inr ((L.full_iff (List.Sublist.refl _)).mpr short)
    · obtain ⟨h', r, returned, -, null⟩ := answers
      obtain ⟨rfl, -⟩ := Prod.mk.inj (Option.some.inj (found.symm.trans returned))
      have same := (null (full_wrapped wraps _)).2
      rw [split] at same L
      exact absurd same (wrapped_changes hw L wraps room)
  · exact .inl (by omega)

theorem answers_of_fits (hw : 0 < w) (L : Layout w h (cells h bs)) (small : size < 256 ^ w)
    (fits : Fits w size h ((cells h bs).map Block.node)) : Answers w size h ((cells h bs).map Block.node) := by
  by_cases wraps : 256 ^ w ≤ size + bias w
  · exact ⟨h, 0, kalloc_wrapped hw L small wraps fits, fun some => absurd rfl some,
      fun _ => ⟨rfl, rfl, rfl, fun _ _ => rfl⟩⟩
  · obtain ⟨h', r, found, first⟩ := kalloc_firstFit hw L (show size + bias w < 256 ^ w by omega)
    refine ⟨h', r, found, fun some => ?_, fun full => ?_⟩
    · obtain ⟨pre, a, b, post, -, placed⟩ := first.placed some
      have next :=
        (Linked.split.mp (show Linked _ _ ((pre ++ [a]) ++ _ :: b :: post) by simpa using placed.nodes.linked)).2.1.1
      have start := (placed.kept b (by simp)).1
      have room := placed.room
      rw [placed.ptr, Nat.add_sub_cancel, next, start]
      simp only [gap, bias] at room ⊢
      omega
    · have zero := first.null_iff.mpr full
      rw [first.unchanged zero]
      exact ⟨zero, rfl, rfl, fun _ _ => rfl⟩

/-- The calls of the allocator, and calls with a request that wraps and fits in no gap. -/
inductive RequestStep (w : Nat) : Heap × List Block → Op → Heap × List Block → Prop where
  | call {s t : Heap × List Block} {op : Op} (step : Step w s op t) : RequestStep w s op t
  | wrapped {h h' : Heap} {live : List Block} {size r : Nat} {ns : List Nat} (small : size < 256 ^ w)
      (listed : Nodes w h ns) (fits : Fits w size h ns) (returned : kalloc w h size = some (h', r)) :
      RequestStep w (h, live) (.kalloc size) (h', if r = 0 then live else ⟨r - bias w, size⟩ :: live)

/-- The allocator with requests of every size, as long as none wraps into a gap. -/
def requests (w pmStart pmEnd : Nat) : Machine (Heap × List Block) Op where
  Init s := ∃ m, s = (listInit w m pmStart pmEnd, [])
  Step := RequestStep w

theorem request_inv (hw : 0 < w) {s t : Heap × List Block} {op : Op} (I : Inv w pmStart pmEnd s.1 s.2)
    (step : RequestStep w s op t) : Inv w pmStart pmEnd t.1 t.2 := by
  cases step with
  | call step => exact step_inv hw I step
  | @wrapped h h' live size r ns small listed fits returned =>
    by_cases wraps : 256 ^ w ≤ size + bias w
    · obtain ⟨bs, -, L⟩ := I.layout
      rw [listed.unique (L.nodes hw)] at fits
      obtain ⟨rfl, rfl⟩ := Prod.mk.inj (Option.some.inj ((kalloc_wrapped hw L small wraps fits).symm.trans returned))
      exact I
    · exact step_inv hw I (.kalloc (by omega) returned)

theorem requests_inv (hw : 0 < w) (range : pmStart + 2 * bias w ≤ pmEnd) (word : pmEnd < 256 ^ w)
    {s : Heap × List Block} (run : (requests w pmStart pmEnd).Reachable s) : Inv w pmStart pmEnd s.1 s.2 := by
  refine run.induct (fun s => Inv w pmStart pmEnd s.1 s.2) ?_ fun s op t I step => request_inv hw I step
  rintro s ⟨m, rfl⟩
  exact listInit_inv range word

/-- After any run without a request that wraps into a gap, `kalloc` answers any such request and no other. -/
theorem requests_answers_iff (hw : 0 < w) (range : pmStart + 2 * bias w ≤ pmEnd) (word : pmEnd < 256 ^ w)
    (run : (requests w pmStart pmEnd).Reachable (h, live)) (small : size < 256 ^ w) :
    ∃ ns, Nodes w h ns ∧ (Answers w size h ns ↔ Fits w size h ns) := by
  obtain ⟨bs, -, L⟩ := (requests_inv hw range word run).layout
  exact ⟨_, L.nodes hw, fits_of_answers hw L small, answers_of_fits hw L small⟩

theorem requests_answers_iff_sample : ∃ ns, Nodes 4 sampleHeap ns ∧
    (Answers 4 (256 ^ 4 - 1) sampleHeap ns ↔ Fits 4 (256 ^ 4 - 1) sampleHeap ns) := by
  have run : (requests 4 256 4096).Reachable (sampleHeap, [⟨298, 7⟩]) := by
    refine sampleHeap_reachable.induct (requests 4 256 4096).Reachable ?_ ?_
    · exact fun _ init => .init init
    · exact fun _ _ _ run step => run.step (.call step)
  exact requests_answers_iff (by decide) (by decide) (by decide) run (by decide)

/-- On the empty heap `[256, 4096)` there is a pointer for 2^32 - 16 bytes. -/
theorem requests_answers_counterexample : (requests 4 256 4096).Reachable (listInit 4 (fun _ => 0) 256 4096, []) ∧
    ∃ ns, Nodes 4 (listInit 4 (fun _ => 0) 256 4096) ns ∧
      ¬Answers 4 (256 ^ 4 - 16) (listInit 4 (fun _ => 0) 256 4096) ns := by
  have I : Inv 4 256 4096 (listInit 4 (fun _ => 0) 256 4096) [] := listInit_inv (by decide) (by decide)
  obtain ⟨bs, -, L⟩ := I.layout
  refine ⟨.init ⟨_, rfl⟩, _, L.nodes (by decide), ?_⟩
  rintro ⟨h', r, found, -, null⟩
  have zero := (null (full_wrapped (by decide) _)).1
  have ptr : (kalloc 4 (listInit 4 (fun _ => 0) 256 4096) (256 ^ 4 - 16)).map Prod.snd = some 288 := by decide +kernel
  rw [found, zero] at ptr
  cases ptr

end OsLabs.Pmm

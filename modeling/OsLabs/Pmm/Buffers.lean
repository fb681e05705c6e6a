import OsLabs.Pmm.Runs

/-!
# The heap as separate buffers

What the callers of `kalloc` and `kfree` may think: every block is a buffer of its own,
which keeps what was written to it last, and a request is answered by the lowest address
at which it fits between the live blocks. The node list inside the managed memory, and
everything that was allocated and freed before, do not show.
-/

namespace OsLabs.Pmm
open Function

variable {w size pmStart pmEnd n x i : Nat} {m : Mem} {h : Heap} {bs l l' live : List Block} {a b c d : Block}

/-! ### Buffers -/

/-- The block stays inside the range and off the live ones. -/
def FitsAt (w pmStart pmEnd : Nat) (live : List Block) (b : Block) : Prop :=
  pmStart + bias w ≤ b.node ∧ b.stop w + bias w ≤ pmEnd ∧ ∀ c ∈ live, b.stop w ≤ c.node ∨ c.stop w ≤ b.node

inductive Call where
  | kalloc (size ret : Nat)
  | kfree (ptr : Nat)
  | write (addr : Nat) (v : Byte)
  | read (addr : Nat) (v : Byte)
  deriving DecidableEq

/-- The live blocks, each with its content. -/
structure Buffers where
  live : List Block
  content : Block → Nat → Byte

inductive Buffers.Step (w pmStart pmEnd : Nat) : Buffers → Call → Buffers → Prop where
  /-- The content of a new block is any. -/
  | kalloc {s : Buffers} {size node : Nat} {content : Block → Nat → Byte}
      (fits : FitsAt w pmStart pmEnd s.live ⟨node, size⟩)
      (least : ∀ n, n < node → ¬FitsAt w pmStart pmEnd s.live ⟨n, size⟩)
      (same : ∀ b ∈ s.live, content b = s.content b) :
      Step w pmStart pmEnd s (.kalloc size (node + bias w)) ⟨⟨node, size⟩ :: s.live, content⟩
  | full {s : Buffers} {size : Nat} (none : ∀ n, ¬FitsAt w pmStart pmEnd s.live ⟨n, size⟩) :
      Step w pmStart pmEnd s (.kalloc size 0) s
  | kfree {s : Buffers} {b : Block} (handedOut : b ∈ s.live) :
      Step w pmStart pmEnd s (.kfree (b.ptr w)) ⟨s.live.erase b, s.content⟩
  | write {s : Buffers} {b : Block} {i : Nat} {v : Byte} (handedOut : b ∈ s.live) (inside : i < b.size) :
      Step w pmStart pmEnd s (.write (b.ptr w + i) v) ⟨s.live, update s.content b (update (s.content b) i v)⟩
  | read {s : Buffers} {b : Block} {i : Nat} (handedOut : b ∈ s.live) (inside : i < b.size) :
      Step w pmStart pmEnd s (.read (b.ptr w + i) (s.content b i)) s

def buffers (w pmStart pmEnd : Nat) : Machine Buffers Call where
  Init s := s.live = []
  Step := Buffers.Step w pmStart pmEnd

/-! ### Clients of the allocator -/

/-- The clients write and read bytes of the blocks that they were handed out. -/
inductive Client (w : Nat) : Heap × List Block → Call → Heap × List Block → Prop where
  | kalloc {h h' : Heap} {live : List Block} {size r : Nat} (fits : size + bias w < 256 ^ w)
      (returned : kalloc w h size = some (h', r)) :
      Client w (h, live) (.kalloc size r) (h', if r = 0 then live else ⟨r - bias w, size⟩ :: live)
  | kfree {h : Heap} {live : List Block} {b : Block} (handedOut : b ∈ live) :
      Client w (h, live) (.kfree (b.ptr w)) (kfree w h (b.ptr w), live.erase b)
  | write {h : Heap} {live : List Block} {b : Block} {i : Nat} {v : Byte} (handedOut : b ∈ live) (inside : i < b.size) :
      Client w (h, live) (.write (b.ptr w + i) v) (⟨update h.mem (b.ptr w + i) v, h.head, h.tail⟩, live)
  | read {h : Heap} {live : List Block} {b : Block} {i : Nat} (handedOut : b ∈ live) (inside : i < b.size) :
      Client w (h, live) (.read (b.ptr w + i) (h.mem (b.ptr w + i))) (h, live)

def clients (w pmStart pmEnd : Nat) : Machine (Heap × List Block) Call where
  Init s := ∃ m, s = (listInit w m pmStart pmEnd, [])
  Step := Client w

/-! ### The bytes that the allocator writes -/

/-- The address is outside of the header at `p`. -/
def Off (w x p : Nat) : Prop := x < p ∨ p + bias w ≤ x

theorem store_off {p v : Nat} (off : x < p ∨ p + w ≤ x) : m.store w p v x = m x :=
  Mem.write_outside (by rwa [encodeLE_length])

/-- `addNode` writes to the new header and to those of its neighbours. -/
theorem addNode_off (hc : getEnd w h.mem n = x) {b y : Nat} (hb : getNext w h.mem n = b) (pc : Apart w n x)
    (yp : Off w y n) (yb : Off w y b) (yc : Off w y x) : (addNode w h n size).1.mem y = h.mem y := by
  obtain ⟨m, head, tail⟩ := h
  simp only [Apart, Off, bias] at *
  simp only [getEnd, getNext] at hc hb
  simp (disch := omega) only [addNode, getNext, getEnd, getStart, setNext, setPre, setStart, setEnd, hc, hb,
    Mem.load_store_of_disjoint, store_off]

/-- `deleteNode` writes to the headers of the neighbours. -/
theorem deleteNode_off {a b p y : Nat} (ha : getPre w h.mem p = a) (hb : getNext w h.mem p = b) (bp : Apart w b p)
    (ya : Off w y a) (yb : Off w y b) : (deleteNode w h p).mem y = h.mem y := by
  obtain ⟨m, head, tail⟩ := h
  simp only [Apart, Off, bias] at *
  simp only [getPre, getNext] at ha hb
  simp (disch := omega) only [deleteNode, getNext, getPre, setNext, setPre, ha, hb,
    Mem.load_store_of_disjoint, store_off]

/-- A byte of a block is outside of every header. -/
theorem Layout.payload_off (L : Layout w h bs) (hb : b ∈ bs) (ha : a ∈ bs) (inside : i < b.size) :
    Off w (b.ptr w + i) a.node := by
  unfold Off Block.ptr
  rcases L.apart hb ha with rfl | before | behind
  · omega
  · unfold Block.stop at before
    omega
  · unfold Block.stop at behind
    omega

/-! ### The lowest fit -/

/-- A block that fits lies behind every block that is followed by too small a gap. -/
theorem behind_tight (fits : FitsAt w pmStart pmEnd live d) (chain : l.IsChain (Tight w d.size))
    (first : ∀ x ∈ l.head?, x.stop w ≤ d.node) (rest : ∀ x ∈ l.tail, x ∈ live) : ∀ x ∈ l, x.stop w ≤ d.node := by
  induction l with
  | nil => simp
  | cons a l ih =>
    have here : a.stop w ≤ d.node := first a (by simp)
    refine List.forall_mem_cons.mpr ⟨here, ?_⟩
    cases l with
    | nil => simp
    | cons b l =>
      obtain ⟨tight, chain⟩ := List.isChain_cons_cons.mp chain
      refine ih chain (fun x hx => ?_) fun x hx => rest x (List.mem_of_mem_tail hx)
      obtain rfl : b = x := by simpa using hx
      have inside := fits.2.2 b (rest b (by simp))
      unfold Tight at tight
      unfold Block.stop at *
      omega

theorem FitsAt.perm {live' : List Block} (fits : FitsAt w pmStart pmEnd live d) (perm : live'.Perm live) :
    FitsAt w pmStart pmEnd live' d :=
  ⟨fits.1, fits.2.1, fun c hc => fits.2.2 c (perm.mem_iff.mp hc)⟩

/-- A list whose gaps are all too small has no room. -/
theorem full_of_tight (head : h.head = pmStart) (tail : h.tail + bias w = pmEnd)
    (chain : (cells h bs).IsChain (Tight w size)) :
    ¬FitsAt w pmStart pmEnd bs ⟨n, size⟩ := by
  intro fits
  have split : cells h bs = (⟨h.head, 0⟩ :: bs) ++ [⟨h.tail, 0⟩] := by simp [cells]
  rw [split, List.isChain_append] at chain
  obtain ⟨before, -, join⟩ := chain
  have start : (⟨h.head, 0⟩ : Block).stop w ≤ n := by
    have low := fits.1
    simp only [Block.stop] at low ⊢
    omega
  have behind := behind_tight fits before (by simpa using start) (by simp)
  have last := List.getLast?_eq_some_getLast (List.cons_ne_nil (⟨h.head, 0⟩ : Block) bs)
  have tight := join _ last ⟨h.tail, 0⟩ rfl
  have here := behind _ (List.getLast_mem (List.cons_ne_nil _ _))
  have room := fits.2.1
  unfold Tight at tight
  simp only [Block.stop] at *
  omega

/-- The first gap with room starts at the lowest address where the block fits. -/
theorem lowest_of_first {pre post : List Block} (L : Layout w h (cells h bs)) (head : h.head = pmStart)
    (tail : h.tail + bias w = pmEnd) (split : cells h bs = pre ++ a :: b :: post)
    (chain : (pre ++ [a]).IsChain (Tight w size)) (room : a.stop w + size + bias w ≤ b.node) :
    FitsAt w pmStart pmEnd bs ⟨a.stop w, size⟩ ∧ ∀ n, n < a.stop w → ¬FitsAt w pmStart pmEnd bs ⟨n, size⟩ := by
  obtain ⟨before, after, same, hl, hr⟩ := cells_gap split
  have order := L.order
  have whole : cells h bs = (pre ++ [a]) ++ (b :: post) := by simp [split]
  have sub (x : Block) (hx : x ∈ bs) : x ∈ pre ++ [a] ∨ x ∈ b :: post := by
    have mem : x ∈ cells h bs := by simp [cells, hx]
    rwa [whole, List.mem_append] at mem
  rw [whole] at order
  obtain ⟨orderL, orderR, -⟩ := List.pairwise_append.mp order
  have left (x : Block) (hx : x ∈ pre ++ [a]) : x.stop w ≤ a.stop w := by
    rcases List.mem_append.mp hx with hx | hx
    · have := (List.pairwise_append.mp orderL).2.2 x hx a (by simp)
      unfold Block.stop at *
      omega
    · rw [List.mem_singleton.mp hx]
  have right (x : Block) (hx : x ∈ b :: post) : b.node ≤ x.node := by
    rcases List.mem_cons.mp hx with rfl | hx
    · exact Nat.le_refl _
    · have := (List.pairwise_cons.mp orderR).1 x hx
      unfold Block.stop at this
      omega
  refine ⟨⟨?_, ?_, fun x hx => ?_⟩, fun n less fits => ?_⟩
  · have := left ⟨h.head, 0⟩ (by simp [hl])
    simp only [Block.stop] at this ⊢
    omega
  · have := right ⟨h.tail, 0⟩ (by simp [hr])
    simp only [Block.stop] at this room ⊢
    omega
  · rcases sub x hx with hx | hx
    · exact .inr (left x hx)
    · have := right x hx
      refine .inl ?_
      simp only [Block.stop] at this room ⊢
      omega
  · have behind : a.stop w ≤ n := by
      refine behind_tight fits chain (fun x hx => ?_) (fun x hx => ?_) a (by simp)
      · rw [hl] at hx
        obtain rfl : (⟨h.head, 0⟩ : Block) = x := by simpa using hx
        have low := fits.1
        simp only [Block.stop] at low ⊢
        omega
      · rw [hl, List.tail_cons] at hx
        rw [same]
        exact List.mem_append_left _ hx
    omega

/-- The new block starts the gap, and the bytes of the others are not touched. -/
theorem addNode_at {pre post : List Block} (hw : 0 < w) (L : Layout w h (cells h bs))
    (split : cells h bs = pre ++ a :: b :: post) (room : a.stop w + size + bias w ≤ b.node) :
    (addNode w h a.node size).2 = a.stop w + bias w ∧
      ∀ c ∈ bs, ∀ i < c.size, (addNode w h a.node size).1.mem (c.ptr w + i) = h.mem (c.ptr w + i) := by
  rw [split] at L
  have positive : 0 < bias w := by simp only [bias]; omega
  have fit : a.stop w + size + bias w < 256 ^ w := Nat.lt_of_le_of_lt room (L.node_lt (by simp))
  refine ⟨(addNode_block size (L.ends a (by simp)) L.next_eq (L.fresh room a (by simp)) (L.fresh room b (by simp))
    (Layout.neighbours_apart room) fit).2.2, fun c hc i inside => ?_⟩
  have mem : c ∈ pre ++ a :: b :: post := by rw [← split]; simp [cells, hc]
  refine addNode_off (L.ends a (by simp)) L.next_eq (L.fresh room a (by simp)) (L.payload_off mem (by simp) inside)
    (L.payload_off mem (by simp) inside) ?_
  have around := L.around room c mem
  unfold Off Block.ptr
  simp only [Block.stop] at *
  omega

theorem kalloc_lowest (hw : 0 < w) (I : Inv w pmStart pmEnd h live) (fits : size + bias w < 256 ^ w) :
    (kalloc w h size = some (h, 0) ∧ ∀ n, ¬FitsAt w pmStart pmEnd live ⟨n, size⟩) ∨
      ∃ h' node, kalloc w h size = some (h', node + bias w) ∧ Inv w pmStart pmEnd h' (⟨node, size⟩ :: live) ∧
        FitsAt w pmStart pmEnd live ⟨node, size⟩ ∧ (∀ n, n < node → ¬FitsAt w pmStart pmEnd live ⟨n, size⟩) ∧
        ∀ b ∈ live, ∀ i < b.size, h'.mem (b.ptr w + i) = h.mem (b.ptr w + i) := by
  obtain ⟨bs, perm, L⟩ := I.layout
  have positive : 0 < bias w := by simp only [bias]; omega
  rcases kalloc_fits hw L fits with ⟨found, tight⟩ | ⟨pre, a, b, post, split, tight, room, found⟩
  · exact .inl ⟨found, fun n fit => full_of_tight I.head I.tail tight (fit.perm perm)⟩
  · rcases kalloc_cases hw I fits with failed | ⟨h', node, found', I'⟩
    · have none : (addNode w h a.node size).2 = 0 := congrArg Prod.snd (Option.some.inj (found.symm.trans failed))
      have here := (addNode_at hw L split room).1
      omega
    · obtain ⟨lowFits, lowest⟩ := lowest_of_first L I.head I.tail split tight room
      obtain ⟨ptr, off⟩ := addNode_at hw L split room
      have pair : addNode w h a.node size = (h', node + bias w) := Option.some.inj (found.symm.trans found')
      obtain rfl : h' = (addNode w h a.node size).1 := (congrArg Prod.fst pair).symm
      have same : (addNode w h a.node size).2 = node + bias w := congrArg Prod.snd pair
      obtain rfl : node = a.stop w := by omega
      refine .inr ⟨(addNode w h a.node size).1, _, found', I', lowFits.perm perm.symm, fun n less fit =>
        lowest n less (fit.perm perm), fun c hc i inside => ?_⟩
      exact off c (perm.mem_iff.mpr hc) i inside

theorem kfree_off (hw : 0 < w) (I : Inv w pmStart pmEnd h live) (hc : c ∈ live) (hb : b ∈ live.erase c)
    (inside : i < b.size) : (kfree w h (c.ptr w)).mem (b.ptr w + i) = h.mem (b.ptr w + i) := by
  obtain ⟨bs, perm, L⟩ := I.layout
  have mem : b ∈ cells h bs := by simp [cells, perm.mem_iff.mpr (List.mem_of_mem_erase hb)]
  obtain ⟨before, after, rfl⟩ := List.append_of_mem (perm.mem_iff.mpr hc)
  obtain ⟨pre, x, y, post, whole, -, -, -⟩ := cells_around (h := h) (c := c) before after
  rw [whole] at L mem
  have here : subWord w (c.ptr w) (bias w) = c.node := by
    have := L.word c (by simp)
    unfold Block.stop at this
    rw [Block.ptr, subWord_eq (by omega) (by omega)]
    omega
  have L' : Layout w h ((pre ++ [x]) ++ c :: y :: post) := by simpa using L
  rw [kfree, here]
  exact deleteNode_off L.pre_eq L'.next_eq (L.removed_apart hw).1 (L.payload_off mem (by simp) inside)
    (L.payload_off mem (by simp) inside)

theorem write_inv (I : Inv w pmStart pmEnd h live) (hb : b ∈ live) (inside : i < b.size) (v : Byte) :
    Inv w pmStart pmEnd ⟨update h.mem (b.ptr w + i) v, h.head, h.tail⟩ live := by
  refine client_inv I fun c hc y low high => ?_
  obtain ⟨bs, perm, L⟩ := I.layout
  have mem {a : Block} (ha : a ∈ cells h live) : a ∈ cells h bs := by
    simpa [cells, perm.mem_iff] using ha
  have off := L.payload_off (mem (by simp [cells, hb])) (mem hc) inside
  rw [update_of_ne]
  unfold Off at off
  omega

/-- Different live blocks share no byte. -/
theorem payload_apart (I : Inv w pmStart pmEnd h live) (hb : b ∈ live) (hc : c ∈ live) (other : c ≠ b)
    (inside : i < b.size) {j : Nat} (inside' : j < c.size) : c.ptr w + j ≠ b.ptr w + i := by
  obtain ⟨bs, perm, L⟩ := I.layout
  have mem {a : Block} (ha : a ∈ live) : a ∈ cells h bs := by simp [cells, perm.mem_iff.mpr ha]
  rcases L.apart (mem hc) (mem hb) with same | before | behind
  · exact absurd same other
  · unfold Block.ptr Block.stop at *
    omega
  · unfold Block.ptr Block.stop at *
    omega

/-! ### The clients see buffers -/

/-- The heap stands for the buffers. -/
structure Holds (w pmStart pmEnd : Nat) (s : Heap × List Block) (t : Buffers) : Prop where
  live : t.live = s.2
  inv : Inv w pmStart pmEnd s.1 s.2
  content : ∀ b ∈ s.2, ∀ i < b.size, s.1.mem (b.ptr w + i) = t.content b i

def contentOf (w : Nat) (m : Mem) (b : Block) (i : Nat) : Byte := m (b.ptr w + i)

theorem step_buffers (hw : 0 < w) {s s' : Heap × List Block} {l : Call} {t : Buffers} (H : Holds w pmStart pmEnd s t)
    (step : Client w s l s') : ∃ t', Buffers.Step w pmStart pmEnd t l t' ∧ Holds w pmStart pmEnd s' t' := by
  obtain ⟨live, content⟩ := t
  obtain ⟨same, I, agree⟩ := H
  simp only at same
  subst same
  cases step with
  | kalloc fits returned =>
    rename_i h h' live size r
    rcases kalloc_lowest hw I fits with ⟨found, none⟩ | ⟨h'', node, found, I', low, least, off⟩
    · rw [found] at returned
      obtain ⟨rfl, rfl⟩ := Prod.mk.inj (Option.some.inj returned)
      exact ⟨_, .full none, rfl, I, agree⟩
    · rw [found] at returned
      obtain ⟨rfl, rfl⟩ := Prod.mk.inj (Option.some.inj returned)
      have positive : 0 < bias w := by simp only [bias]; omega
      rw [if_neg (by omega), Nat.add_sub_cancel]
      -- the new block starts with what memory holds there
      let content' := update content ⟨node, size⟩ (contentOf w h''.mem ⟨node, size⟩)
      have fresh (b : Block) (hb : b ∈ live) : b ≠ ⟨node, size⟩ := by
        rintro rfl
        have apart := low.2.2 _ hb
        simp only [Block.stop] at apart
        omega
      refine ⟨⟨⟨node, size⟩ :: live, content'⟩, .kalloc low least fun b hb => update_of_ne (fresh b hb) _ _, rfl, I',
        fun b hb i inside => ?_⟩
      rcases List.mem_cons.mp hb with rfl | hb
      · simp only [content', update_self, contentOf]
      · simp only [content', update_of_ne (fresh b hb), off b hb i inside]
        exact agree b hb i inside
  | kfree handedOut =>
    refine ⟨_, .kfree handedOut, rfl, kfree_inv hw I handedOut, fun b hb i inside => ?_⟩
    simp only [kfree_off hw I handedOut hb inside]
    exact agree b (List.mem_of_mem_erase hb) i inside
  | write handedOut inside =>
    rename_i h b i v
    refine ⟨_, .write handedOut inside, rfl, write_inv I handedOut inside v, fun c hc j inside' => ?_⟩
    by_cases here : c = b
    · subst here
      by_cases at_ : j = i
      · subst at_
        simp only [update_self]
      · simp only [update_self, update_of_ne at_, update_of_ne (show c.ptr w + j ≠ c.ptr w + i by omega)]
        exact agree c hc j inside'
    · simp only [update_of_ne here, update_of_ne (payload_apart I handedOut hc here inside inside')]
      exact agree c hc j inside'
  | read handedOut inside =>
    rename_i h b i
    simp only at agree
    rw [agree b handedOut i inside]
    exact ⟨_, .read handedOut inside, rfl, I, agree⟩

/-- What the clients of the allocator are answered is what separate buffers at the lowest addresses answer. -/
theorem clients_buffers (hw : 0 < w) (range : pmStart + 2 * bias w ≤ pmEnd) (word : pmEnd < 256 ^ w) {calls : List Call}
    {h : Heap} {live : List Block} (run : (clients w pmStart pmEnd).Trace calls (h, live)) :
    ∃ content, (buffers w pmStart pmEnd).Trace calls ⟨live, content⟩ ∧
      ∀ b ∈ live, ∀ i < b.size, h.mem (b.ptr w + i) = content b i := by
  have starts (s : Heap × List Block) (init : (clients w pmStart pmEnd).Init s) :
      ∃ t, (buffers w pmStart pmEnd).Init t ∧ Holds w pmStart pmEnd s t := by
    obtain ⟨m, rfl⟩ := init
    exact ⟨⟨[], fun _ _ => 0⟩, rfl, rfl, listInit_inv range word, by simp⟩
  obtain ⟨⟨live', content⟩, trace, H⟩ :=
    run.simulate (Holds w pmStart pmEnd) starts fun s l s' t H step => step_buffers hw H step
  obtain ⟨same, -, agree⟩ := H
  simp only at same
  subst same
  exact ⟨content, trace, agree⟩

/-- A byte is written to a new block, a second block is handed out, and the byte is read. -/
theorem clients_buffers_sample : ∃ content,
    (buffers 4 256 4096).Trace [.kalloc 10 288, .write 290 7, .kalloc 5 314, .read 290 7]
      ⟨[⟨298, 5⟩, ⟨272, 10⟩], content⟩ := by
  have init : (clients 4 256 4096).Trace [] (listInit 4 (fun _ => 0) 256 4096, []) := .init ⟨_, rfl⟩
  have first := init.step (Client.kalloc (by decide) (kalloc_eq _ 10 288 (by decide +kernel)))
  have mem : (⟨272, 10⟩ : Block) ∈ [(⟨272, 10⟩ : Block)] := by decide
  have written := first.step (@Client.write 4 _ _ ⟨272, 10⟩ 2 7 mem (by decide))
  have second := written.step (Client.kalloc (by decide) (kalloc_eq _ 5 314 (by decide +kernel)))
  have mem' : (⟨272, 10⟩ : Block) ∈ [(⟨298, 5⟩ : Block), ⟨272, 10⟩] := by decide
  have read := second.step (@Client.read 4 _ _ ⟨272, 10⟩ 2 mem' (by decide))
  obtain ⟨content, trace, -⟩ := clients_buffers (by decide) (by decide) (by decide) read
  refine ⟨content, ?_⟩
  convert trace using 1
  · decide +kernel
  · rfl

end OsLabs.Pmm

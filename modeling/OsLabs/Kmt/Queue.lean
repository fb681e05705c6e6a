import Mathlib.Logic.Function.Basic
import Mathlib.Data.List.Basic
import OsLabs.Data.Linked

/-!
# The queue of a semaphore

`sem_list_add` and `sem_list_delete` on the nodes in memory: a new node becomes
the head `pcb`, and the node taken out is the last one. Address 0 is `NULL`; it is memory
as well, and `none` is a failed assertion.
-/

namespace OsLabs.Kmt
open Function

variable {T : Type}

structure TaskNode (T : Type) where
  task : T
  nxt : Nat
  pre : Nat

/-- The links that `sem_list_add` sets: the node `n` goes before `head`. -/
def linkHead (node : Nat → TaskNode T) (head n : Nat) (task : T) : Option ((Nat → TaskNode T) × Nat) :=
  let node := update node n { node n with task := task }
  if head = 0 then some (update node n { node n with nxt := 0, pre := 0 }, n)
  else if (node head).pre ≠ 0 then none
  else if (node head).nxt ≠ 0 ∧ (node (node head).nxt).pre ≠ head then none
  else
    let node := update node n { node n with nxt := head, pre := (node head).pre }
    some (update node head { node head with pre := n }, n)

/-- The walk `while (ptr->nxt != NULL) ptr = ptr->nxt`. -/
def lastNode (node : Nat → TaskNode T) : Nat → Nat → Option Nat
  | 0, _ => none
  | fuel + 1, ptr => if (node ptr).nxt = 0 then some ptr else lastNode node fuel (node ptr).nxt

/-- The links that `sem_list_delete` sets to take `ptr` out. -/
def unlinkLast (node : Nat → TaskNode T) (head ptr : Nat) : Option ((Nat → TaskNode T) × Nat) :=
  let (node, head) :=
    if ptr = head then (node, (node head).nxt)
    else (update node (node ptr).pre { node (node ptr).pre with nxt := (node ptr).nxt }, head)
  if (node ptr).nxt ≠ 0 then
    if (node (node head).nxt).pre ≠ head then none
    else some (update node (node ptr).nxt { node (node ptr).nxt with pre := (node ptr).pre }, head)
  else some (node, head)

theorem linkHead_pcb {node : Nat → TaskNode T} {head n : Nat} {task : T} {p : (Nat → TaskNode T) × Nat}
    (linked : linkHead node head n task = some p) : p.2 = n := by
  unfold linkHead at linked
  simp only at linked
  split at linked
  · rw [← Option.some.inj linked]
  · split at linked
    · cases linked
    · split at linked
      · cases linked
      · rw [← Option.some.inj linked]

/-- The queue that starts at `pcb` has the nodes `l`, the newest first. -/
structure Queue (node : Nat → TaskNode T) (pcb : Nat) (l : List Nat) : Prop where
  nodup : l.Nodup
  nonnull : 0 ∉ l
  head : pcb = l.headD 0
  first : ∀ x ∈ l.head?, (node x).pre = 0
  last : ∀ x ∈ l.getLast?, (node x).nxt = 0
  linked : Linked (fun x => (node x).nxt) (fun x => (node x).pre) l

namespace Queue

variable {node node' : Nat → TaskNode T} {pcb n x : Nat} {l : List Nat} {task : T}

theorem nil (node : Nat → TaskNode T) : Queue node 0 [] :=
  ⟨.nil, by simp, rfl, by simp, by simp, .nil⟩

theorem congr (q : Queue node pcb l) (same : ∀ x ∈ l, node' x = node x) : Queue node' pcb l where
  nodup := q.nodup
  nonnull := q.nonnull
  head := q.head
  first x hx := by rw [same x (List.mem_of_mem_head? hx)]; exact q.first x hx
  last x hx := by rw [same x (List.mem_of_mem_getLast? hx)]; exact q.last x hx
  linked := q.linked.congr (fun x hx => by rw [same x ((List.dropLast_sublist l).subset hx)])
    (fun x hx => by rw [same x (List.mem_of_mem_tail hx)])

theorem pcb_eq_zero (q : Queue node pcb l) : pcb = 0 ↔ l = [] := by
  cases l with
  | nil => simp [q.head]
  | cons x l =>
    have := q.nonnull
    simp only [q.head, List.headD_cons, reduceCtorEq, iff_false]
    rintro rfl
    simp at this

theorem linkHead_eq (q : Queue node pcb l) (nonzero : n ≠ 0) (fresh : n ∉ l) :
    ∃ node', linkHead node pcb n task = some (node', n) ∧ Queue node' n (n :: l) ∧
      (node' n).task = task ∧ (∀ x ∈ l, (node' x).task = (node x).task) ∧
      ∀ x, x ≠ n → x ∉ l → node' x = node x := by
  cases l with
  | nil =>
    have empty : pcb = 0 := q.head
    refine ⟨_, by simp only [linkHead, empty, if_true]; rfl, ?_, by simp, by simp, ?_⟩
    · exact ⟨by simp, by simpa using nonzero.symm, rfl, by simp, by simp, .singleton n⟩
    · intro x other _
      simp [update_of_ne other]
  | cons y l =>
    have head : pcb = y := q.head
    subst head
    have notHead : pcb ≠ n := by rintro rfl; simp at fresh
    have pcbNonzero : pcb ≠ 0 := by rintro rfl; exact q.nonnull (by simp)
    have pre : (node pcb).pre = 0 := q.first pcb (by simp)
    have next : (node pcb).nxt ≠ 0 → (node (node pcb).nxt).pre = pcb ∧ (node pcb).nxt ≠ n := by
      intro more
      cases l with
      | nil => exact absurd (q.last pcb (by simp)) more
      | cons z l =>
        have ⟨⟨nxt, prv⟩, _⟩ := List.isChain_cons_cons.mp q.linked
        simp only at nxt prv
        rw [nxt]
        exact ⟨prv, by rintro rfl; simp at fresh⟩
    have asserted : ¬ ((node pcb).nxt ≠ 0 ∧
        (update node n { node n with task := task } (node pcb).nxt).pre ≠ pcb) := by
      rintro ⟨more, bad⟩
      rw [update_of_ne (next more).2] at bad
      exact bad (next more).1
    refine ⟨_, by
      simp only [linkHead, pcbNonzero, if_false, update_of_ne notHead, pre, ne_eq, not_true_eq_false]
      rw [if_neg asserted], ?_, by simp [update_of_ne notHead.symm], ?_, ?_⟩
    · have nodup := List.nodup_cons.mp q.nodup
      refine ⟨List.nodup_cons.mpr ⟨fresh, q.nodup⟩, ?_, rfl, ?_, ?_, ?_⟩
      · simp only [List.mem_cons, not_or]
        exact ⟨nonzero.symm, pcbNonzero.symm, fun h => q.nonnull (by simp [h])⟩
      · simp [update_of_ne notHead.symm]
      · intro x hx
        have hx : x ∈ (pcb :: l).getLast? := by simpa using hx
        have notN : x ≠ n := ne_of_mem_of_not_mem (List.mem_of_mem_getLast? hx) fresh
        have := q.last x hx
        by_cases xHead : x = pcb
        · subst xHead; simpa using this
        · simpa [update_of_ne notN, update_of_ne xHead] using this
      · refine List.isChain_cons_cons.mpr ⟨by simp [update_of_ne notHead.symm], ?_⟩
        refine Linked.congr_after q.linked (fun x hx => ?_) (fun x hx => ?_)
        · have notN : x ≠ n := ne_of_mem_of_not_mem hx fresh
          by_cases xHead : x = pcb
          · subst xHead; simp
          · simp [update_of_ne notN, update_of_ne xHead]
        · have notN : x ≠ n := ne_of_mem_of_not_mem (List.mem_cons_of_mem _ hx) fresh
          have xHead : x ≠ pcb := ne_of_mem_of_not_mem hx nodup.1
          simp [update_of_ne notN, update_of_ne xHead]
    · intro x hx
      have notN : x ≠ n := ne_of_mem_of_not_mem hx fresh
      by_cases xHead : x = pcb
      · subst xHead; simp
      · simp [update_of_ne notN, update_of_ne xHead]
    · intro x notN notMem
      have xHead : x ≠ pcb := by rintro rfl; simp at notMem
      simp [update_of_ne notN, update_of_ne xHead]

theorem lastNode_eq {fuel : Nat} (linked : Linked (fun x => (node x).nxt) (fun x => (node x).pre) (l ++ [x]))
    (last : (node x).nxt = 0) (nonnull : 0 ∉ l ++ [x]) (enough : l.length < fuel) :
    lastNode node fuel ((l ++ [x]).headD 0) = some x := by
  induction l generalizing fuel with
  | nil =>
    cases fuel with
    | zero => simp at enough
    | succ fuel => simp [lastNode, last]
  | cons y l ih =>
    cases fuel with
    | zero => simp at enough
    | succ fuel =>
      have ⟨link, rest⟩ := List.isChain_cons.mp linked
      have found : (node y).nxt = (l ++ [x]).headD 0 := by
        cases l with
        | nil => exact (link x (by simp)).1
        | cons z l => exact (link z (by simp)).1
      have more : (node y).nxt ≠ 0 := by
        intro zero
        rw [found] at zero
        apply nonnull
        cases l with
        | nil => simp_all
        | cons z l => simp_all
      rw [List.cons_append, List.headD_cons, lastNode, if_neg more, found]
      exact ih rest (fun h => nonnull (by simp [h])) (by simpa using enough)

theorem unlinkLast_eq (q : Queue node pcb (l ++ [x])) :
    ∃ node' pcb', unlinkLast node pcb x = some (node', pcb') ∧ Queue node' pcb' l ∧
      (∀ y, (node' y).task = (node y).task) ∧ ∀ y, y ∉ l → node' y = node y := by
  have last : (node x).nxt = 0 := q.last x (by simp)
  have nonnull : 0 ∉ l := fun h => q.nonnull (by simp [h])
  have nodup : l.Nodup := (List.nodup_append.mp q.nodup).1
  rcases List.eq_nil_or_concat' l with rfl | ⟨l, y, rfl⟩
  · have head : x = pcb := by simpa using q.head.symm
    subst head
    refine ⟨node, 0, by simp [unlinkLast, last], nil _, fun _ => rfl, fun _ _ => rfl⟩
  · have distinct : x ∉ l ++ [y] := by
      have := (List.nodup_append.mp q.nodup).2.2
      intro h; exact this x h x (by simp) rfl
    have notLast : x ≠ pcb := by
      intro same
      apply distinct
      rw [same, q.head]
      cases l <;> simp
    have linked := q.linked
    simp only [List.append_assoc, List.singleton_append] at linked
    obtain ⟨before, ⟨-, pre⟩, -⟩ := Linked.split.mp linked
    have xy : x ≠ y := by rintro rfl; simp at distinct
    refine ⟨update node y { node y with nxt := 0 }, pcb, by
      simp [unlinkLast, notLast, pre, last, update_of_ne xy], ?_, ?_, ?_⟩
    · refine ⟨nodup, nonnull, ?_, ?_, by simp, ?_⟩
      · have := q.head
        cases l with
        | nil => simpa using this
        | cons z l => simpa using this
      · intro z hz
        have first := q.first z (by cases l <;> simp_all)
        by_cases zy : z = y
        · subst zy; simpa using first
        · simpa [update_of_ne zy] using first
      · refine before.congr_before (fun z hz => ?_) (fun z _ => ?_)
        · have zy : z ≠ y := by
            rintro rfl
            exact (List.nodup_append.mp nodup).2.2 z hz z (by simp) rfl
          simp [update_of_ne zy]
        · by_cases zy : z = y
          · subst zy; simp
          · simp [update_of_ne zy]
    · intro z
      by_cases zy : z = y
      · subst zy; simp
      · simp [update_of_ne zy]
    · intro z hz
      have zy : z ≠ y := by rintro rfl; simp at hz
      simp [update_of_ne zy]

end Queue

end OsLabs.Kmt

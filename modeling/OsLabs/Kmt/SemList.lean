import Mathlib.Data.List.Perm.Subperm
import OsLabs.Kmt.Model

/-!
# The queue of one semaphore over its whole life

`sem_list_add` and `sem_list_delete` in any order, from an empty queue on. The tasks
leave it in the order in which they came.
-/

namespace OsLabs.Kmt.SemList
open Function

variable {Cpu Sem Ctx : Type} [DecidableEq Cpu] [DecidableEq Sem]

/-- Why a call does not return: a failed assertion, or a walk without an end. -/
inductive Fault where
  | assertion
  | diverges
  deriving DecidableEq

/-- `tasknode` is what `pmm->alloc` gave, also where that is `NULL`. -/
def semListAddCall (k : Kernel Cpu Sem Ctx) (s : Sem) (task : TaskPtr Cpu) (tasknode : Nat) :
    Except Fault (Kernel Cpu Sem Ctx) :=
  match semListAdd k s task tasknode with
  | some k => .ok k
  | none => .error .assertion

def semListDeleteCall (k : Kernel Cpu Sem Ctx) (s : Sem) : Except Fault (Kernel Cpu Sem Ctx) :=
  match lastNode k.node k.nodes.length (k.sem s).pcb with
  | none => .error .diverges
  | some _ =>
    match semListDelete k s with
    | some k => .ok k
    | none => .error .assertion

/-- The kernel, the nodes added with their tasks, in order, and how many were taken out. -/
structure State (Cpu Sem Ctx : Type) where
  kernel : Kernel Cpu Sem Ctx
  added : List (Nat × TaskPtr Cpu)
  deleted : Nat

def State.pending (st : State Cpu Sem Ctx) : List (Nat × TaskPtr Cpu) := st.added.drop st.deleted

inductive Label (Cpu : Type) where
  | add (task : TaskPtr Cpu)
  | delete
  | other

/-- The calls for the semaphore `s`, with a node for each task that is added, and whatever else happens that leaves its
record and its nodes alone. -/
inductive Step (s : Sem) : State Cpu Sem Ctx → Label Cpu → State Cpu Sem Ctx → Prop where
  | add {st : State Cpu Sem Ctx} {k : Kernel Cpu Sem Ctx} {task : TaskPtr Cpu} {tasknode : Nat}
      (given : tasknode ≠ 0) (alloc : tasknode ∉ st.kernel.nodes)
      (done : semListAddCall st.kernel s task tasknode = .ok k) :
      Step s st (.add task) { st with kernel := k, added := st.added ++ [(tasknode, task)] }
  | delete {st : State Cpu Sem Ctx} {k : Kernel Cpu Sem Ctx} (nonempty : (st.kernel.sem s).pcb ≠ 0)
      (done : semListDeleteCall st.kernel s = .ok k) :
      Step s st .delete { st with kernel := k, deleted := st.deleted + 1 }
  | other {st : State Cpu Sem Ctx} {k : Kernel Cpu Sem Ctx} (record : k.sem s = st.kernel.sem s)
      (nodes : ∀ e ∈ st.pending, k.node e.1 = st.kernel.node e.1 ∧ e.1 ∈ k.nodes) :
      Step s st .other { st with kernel := k }

def listRuns (s : Sem) : Machine (State Cpu Sem Ctx) (Label Cpu) where
  Init st := (st.kernel.sem s).pcb = 0 ∧ st.added = [] ∧ st.deleted = 0
  Step := Step s

/-- The queue has the nodes of `entries`, the last one first. -/
structure Holds (k : Kernel Cpu Sem Ctx) (s : Sem) (entries : List (Nat × TaskPtr Cpu)) : Prop where
  queue : Queue k.node (k.sem s).pcb (entries.map Prod.fst).reverse
  live : ∀ e ∈ entries, e.1 ∈ k.nodes
  tasks : ∀ e ∈ entries, (k.node e.1).task = e.2

variable {k k' : Kernel Cpu Sem Ctx} {s : Sem} {task : TaskPtr Cpu} {n : Nat} {entries rest : List (Nat × TaskPtr Cpu)}
  {st st' : State Cpu Sem Ctx} {label : Label Cpu}

omit [DecidableEq Cpu] [DecidableEq Sem] in
theorem Holds.pcb_eq_zero (h : Holds k s entries) : (k.sem s).pcb = 0 ↔ entries = [] := by
  rw [h.queue.pcb_eq_zero]
  simp

/-! ### One call -/

omit [DecidableEq Cpu] in
theorem semListAddCall_eq (done : semListAdd k s task n = some k') : semListAddCall k s task n = .ok k' := by
  unfold semListAddCall
  rw [done]

omit [DecidableEq Cpu] in
/-- Without a node the head becomes `NULL`, and the last assertion fails. -/
theorem semListAddCall_null (k : Kernel Cpu Sem Ctx) (s : Sem) (task : TaskPtr Cpu) :
    semListAddCall k s task 0 = .error .assertion := by
  have fails : semListAdd k s task 0 = none := by
    unfold semListAdd
    cases linked : linkHead k.node (k.sem s).pcb 0 task with
    | none => rfl
    | some p => exact if_pos (linkHead_pcb linked)
  unfold semListAddCall
  rw [fails]

theorem semListDeleteCall_eq {ptr : Nat} (found : lastNode k.node k.nodes.length (k.sem s).pcb = some ptr)
    (done : semListDelete k s = some k') : semListDeleteCall k s = .ok k' := by
  unfold semListDeleteCall
  rw [found]
  dsimp only
  rw [done]

omit [DecidableEq Cpu] in
theorem semListAddCall_ok (h : Holds k s entries) (task : TaskPtr Cpu) (alloc : n ∉ k.nodes) (nonnull : n ≠ 0) :
    ∃ k', semListAddCall k s task n = .ok k' ∧ Holds k' s (entries ++ [(n, task)]) ∧ k'.nodes = n :: k.nodes ∧
      k'.task = k.task := by
  have other : ∀ e ∈ entries, e.1 ∈ (entries.map Prod.fst).reverse := by
    intro e mem
    exact List.mem_reverse.mpr (List.mem_map_of_mem mem)
  have fresh : n ∉ (entries.map Prod.fst).reverse := by
    intro mem
    obtain ⟨e, mem, same⟩ := List.mem_map.mp (List.mem_reverse.mp mem)
    exact alloc (same ▸ h.live e mem)
  obtain ⟨node, linked, queue, own, kept, -⟩ : ∃ node, linkHead _ _ _ task = some (node, _) ∧ _ :=
    h.queue.linkHead_eq nonnull fresh
  have done : semListAdd k s task n = some { k.setSem s ({ · with pcb := n }) with
      node := node, nodes := n :: k.nodes } := by
    unfold semListAdd
    rw [linked]
    exact if_neg nonnull
  refine ⟨_, semListAddCall_eq done, ?_, rfl, rfl⟩
  constructor
  · rw [List.map_append, List.reverse_append]
    simpa [Kernel.setSem] using queue
  · intro e mem
    rcases List.mem_append.mp mem with mem | mem
    · exact List.mem_cons_of_mem _ (h.live e mem)
    · rw [List.mem_singleton.mp mem]
      exact List.mem_cons_self
  · intro e mem
    rcases List.mem_append.mp mem with mem | mem
    · exact (kept e.1 (other e mem)).trans (h.tasks e mem)
    · rw [List.mem_singleton.mp mem]
      exact own

omit [DecidableEq Cpu] [DecidableEq Sem] in
/-- The walk ends at the earliest node. -/
theorem Holds.lastNode_eq (h : Holds k s ((n, task) :: rest)) :
    lastNode k.node k.nodes.length (k.sem s).pcb = some n := by
  have queue := h.queue
  rw [List.map_cons, List.reverse_cons] at queue
  have enough : ((rest.map Prod.fst).reverse ++ [n]).length ≤ k.nodes.length := by
    refine (List.subperm_of_subset queue.nodup ?_).length_le
    intro x mem
    rw [← List.reverse_cons] at mem
    obtain ⟨e, here, rfl⟩ := List.mem_map.mp (List.mem_reverse.mp mem : x ∈ ((n, task) :: rest).map Prod.fst)
    exact h.live e here
  rw [queue.head]
  apply Queue.lastNode_eq queue.linked (queue.last n (by simp)) queue.nonnull
  rw [List.length_append, List.length_singleton] at enough
  omega

theorem semListDeleteCall_ok (h : Holds k s ((n, task) :: rest)) :
    ∃ k', semListDeleteCall k s = .ok k' ∧ Holds k' s rest ∧ k'.nodes = k.nodes.erase n ∧
      k'.task = update k.task task { k.task task with sleep := 0 } := by
  have queue := h.queue
  rw [List.map_cons, List.reverse_cons] at queue
  have own : (k.node n).task = task := h.tasks _ List.mem_cons_self
  have distinct : n ∉ (rest.map Prod.fst).reverse := by
    intro mem
    exact (List.nodup_append.mp queue.nodup).2.2 n mem n (List.mem_singleton_self n) rfl
  obtain ⟨node, pcb, unlinked, left, kept, -⟩ := queue.unlinkLast_eq
  have done : semListDelete k s = some { (k.setTask task ({ · with sleep := 0 })).setSem s ({ · with pcb := pcb }) with
      node := node, nodes := k.nodes.erase n } := by
    unfold semListDelete
    simp only [h.lastNode_eq, Option.bind_eq_bind, Option.bind_some, own]
    change (unlinkLast k.node (k.sem s).pcb n).bind _ = _
    rw [unlinked]
    rfl
  refine ⟨_, semListDeleteCall_eq h.lastNode_eq done, ?_, rfl, rfl⟩
  constructor
  · simpa [Kernel.setSem] using left
  · intro e mem
    have ne : e.1 ≠ n := by
      intro same
      apply distinct
      rw [← same]
      exact List.mem_reverse.mpr (List.mem_map_of_mem mem)
    exact (List.mem_erase_of_ne ne).mpr (h.live e (List.mem_cons_of_mem _ mem))
  · intro e mem
    exact (kept e.1).trans (h.tasks e (List.mem_cons_of_mem _ mem))

/-! ### Runs -/

/-- No more is taken out than was added. -/
structure Inv (s : Sem) (st : State Cpu Sem Ctx) : Prop where
  holds : Holds st.kernel s st.pending
  counted : st.deleted ≤ st.added.length

omit [DecidableEq Cpu] in
theorem inv_add (inv : Inv s st) (nonnull : n ≠ 0) (alloc : n ∉ st.kernel.nodes)
    (done : semListAddCall st.kernel s task n = .ok k) :
    Inv s { st with kernel := k, added := st.added ++ [(n, task)] } := by
  obtain ⟨k', done', holds, -⟩ := semListAddCall_ok inv.holds task alloc nonnull
  obtain rfl : k = k' := Except.ok.inj (done.symm.trans done')
  constructor
  · unfold State.pending
    rw [List.drop_append_of_le_length inv.counted]
    exact holds
  · rw [List.length_append]
    exact Nat.le_add_right_of_le inv.counted

theorem inv_delete (inv : Inv s st) (nonempty : (st.kernel.sem s).pcb ≠ 0)
    (done : semListDeleteCall st.kernel s = .ok k) :
    Inv s { st with kernel := k, deleted := st.deleted + 1 } := by
  rw [Ne, inv.holds.pcb_eq_zero] at nonempty
  obtain ⟨⟨n, task⟩, rest, pending⟩ := List.exists_cons_of_ne_nil nonempty
  have holds := inv.holds
  rw [pending] at holds
  obtain ⟨k', done', holds', -⟩ := semListDeleteCall_ok holds
  obtain rfl : k = k' := Except.ok.inj (done.symm.trans done')
  constructor
  · have left : st.added.drop (st.deleted + 1) = rest := by
      rw [← List.tail_drop]
      exact congrArg List.tail pending
    unfold State.pending
    rw [left]
    exact holds'
  · apply Nat.lt_of_not_le
    intro all
    exact nonempty (List.drop_eq_nil_of_le all)

theorem inv_step (inv : Inv s st) (step : Step s st label st') : Inv s st' := by
  cases step with
  | add given alloc done => exact inv_add inv given alloc done
  | delete nonempty done => exact inv_delete inv nonempty done
  | other record nodes =>
    refine ⟨?_, inv.counted⟩
    constructor
    · rw [record]
      apply inv.holds.queue.congr
      intro n mem
      obtain ⟨e, here, rfl⟩ := List.mem_map.mp (List.mem_reverse.mp mem)
      exact (nodes e here).1
    · intro e mem
      exact (nodes e mem).2
    · intro e mem
      rw [(nodes e mem).1]
      exact inv.holds.tasks e mem

theorem reachable_inv (h : (listRuns s).Reachable st) : Inv s st := by
  apply h.induct (Inv s)
  · intro st ⟨empty, added, deleted⟩
    have none : st.pending = [] := by simp [State.pending, added]
    constructor
    · rw [none]
      constructor
      · rw [empty]
        exact Queue.nil _
      · simp
      · simp
    · simp [deleted]
  · intro st label st' inv step
    exact inv_step inv step

/-- **First come, first served.** Where each task added got a node, the links are those of a well formed list, which
from its last node to its first has the tasks that are pending; `sem_list_add` puts its task behind them, and fails an
assertion exactly when it gets no node; `sem_list_delete` wakes the first of them and frees its node. -/
theorem semList_fifo (h : (listRuns s).Reachable st) :
    (∃ l, Queue st.kernel.node (st.kernel.sem s).pcb l ∧
      l.reverse.map (fun n => (n, (st.kernel.node n).task)) = st.pending ∧ ∀ n ∈ l, n ∈ st.kernel.nodes) ∧
    (∀ task n, n ∉ st.kernel.nodes → (semListAddCall st.kernel s task n ≠ .error .assertion ↔ n ≠ 0) ∧
      (n ≠ 0 → ∃ k, semListAddCall st.kernel s task n = .ok k ∧ k.task = st.kernel.task ∧
        k.nodes = n :: st.kernel.nodes ∧
        State.pending { st with kernel := k, added := st.added ++ [(n, task)] } = st.pending ++ [(n, task)])) ∧
    ((st.kernel.sem s).pcb ≠ 0 → ∃ n task rest k, st.pending = (n, task) :: rest ∧
      semListDeleteCall st.kernel s = .ok k ∧
      k.task = update st.kernel.task task { st.kernel.task task with sleep := 0 } ∧
      k.nodes = st.kernel.nodes.erase n ∧
      State.pending { st with kernel := k, deleted := st.deleted + 1 } = rest) := by
  have inv := reachable_inv h
  refine ⟨⟨_, inv.holds.queue, ?_, ?_⟩, ?_, ?_⟩
  · rw [List.reverse_reverse, List.map_map]
    refine (List.map_congr_left ?_).trans (List.map_id _)
    intro e mem
    exact Prod.ext rfl (inv.holds.tasks e mem)
  · intro n mem
    obtain ⟨e, here, rfl⟩ := List.mem_map.mp (List.mem_reverse.mp mem)
    exact inv.holds.live e here
  · intro task n alloc
    by_cases null : n = 0
    · rw [null, semListAddCall_null]
      exact ⟨iff_of_false (fun passes => passes rfl) (fun nonnull => nonnull rfl), fun nonnull => absurd rfl nonnull⟩
    · obtain ⟨k, done, -, nodes, tasks⟩ := semListAddCall_ok inv.holds task alloc null
      refine ⟨iff_of_true (by simp [done]) null, fun _ => ⟨k, done, tasks, nodes, ?_⟩⟩
      exact List.drop_append_of_le_length inv.counted
  · intro nonempty
    rw [Ne, inv.holds.pcb_eq_zero] at nonempty
    obtain ⟨⟨n, task⟩, rest, pending⟩ := List.exists_cons_of_ne_nil nonempty
    have holds := inv.holds
    rw [pending] at holds
    obtain ⟨k, done, -, nodes, tasks⟩ := semListDeleteCall_ok holds
    refine ⟨n, task, rest, k, pending, done, tasks, nodes, ?_⟩
    have left := congrArg List.tail pending
    unfold State.pending at left
    rwa [List.tail_drop] at left

def sleeping : Kernel Unit Unit Unit where
  task t := ⟨(), 0, 0, if t = .task 1 ∨ t = .task 2 then 1 else 0⟩
  tasks _ := none
  cntTasks := 0
  cputask _ := none
  cputaskLast _ := none
  notdefault _ := true
  sem _ := ⟨-2, 2, 0⟩
  node _ := ⟨.cpudefault (), 0, 0⟩
  nodes := []

/-- One task is in the queue, and there is no node for the second one. -/
theorem semList_fifo_counterexample : ∃ st : State Unit Unit Unit, (listRuns ()).Reachable st ∧
    st.pending = [(100, .task 1)] ∧ semListAddCall st.kernel () (.task 2) 0 = .error .assertion := by
  have start : (listRuns ()).Reachable ⟨sleeping, [], 0⟩ := .init ⟨rfl, rfl, rfl⟩
  have first := start.step (@Step.add _ _ _ _ _ () _ _ (.task 1) 100 (by decide) (by decide) rfl)
  exact ⟨_, first, rfl, rfl⟩

theorem semList_fifo_two : ∃ st : State Unit Unit Unit, st.pending = [(100, .task 1), (200, .task 2)] ∧
    ∃ k, semListDeleteCall st.kernel () = .ok k ∧ (k.task (.task 1)).sleep = 0 ∧ (k.task (.task 2)).sleep = 1 := by
  have start : (listRuns ()).Reachable ⟨sleeping, [], 0⟩ := .init ⟨rfl, rfl, rfl⟩
  have first := start.step (@Step.add _ _ _ _ _ () _ _ (.task 1) 100 (by decide) (by decide) rfl)
  have second := first.step (@Step.add _ _ _ _ _ () _ _ (.task 2) 200 (by decide) (by decide) rfl)
  obtain ⟨n, task, rest, k, pending, done, tasks, -⟩ := (semList_fifo second).2.2 (by decide)
  refine ⟨_, rfl, k, done, ?_⟩
  obtain ⟨-, rfl⟩ := Prod.mk.inj (List.cons.inj pending).1
  rw [tasks]
  exact ⟨rfl, rfl⟩

end OsLabs.Kmt.SemList

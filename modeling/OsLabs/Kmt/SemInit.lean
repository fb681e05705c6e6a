import OsLabs.Kmt.Semaphore

/-!
# A semaphore in memory that was used before

`sem_init` sets every field but `pcb`, so the queue starts with whatever the memory
held there. Where that is `NULL`, the signals take out the tasks that blocked, in
their order.
-/

namespace OsLabs.Kmt.SemInit
open Function

variable {Cpu Sem Ctx : Type} [DecidableEq Cpu] [DecidableEq Sem]

/-- `sem_init`; the fields that are left as they were keep their prior content. -/
def semInit (k : Kernel Cpu Sem Ctx) (s : Sem) (value : Int) : Kernel Cpu Sem Ctx :=
  k.setSem s fun sem => { sem with count := value, cntTasks := 0 }

/-- The kernel, the nodes that `sem_wait` on the semaphore took and `sem_signal` did not give back, the newest first,
and the tasks that blocked on it and those that were dequeued since `sem_init`, in order. -/
structure State (Cpu Sem Ctx : Type) where
  kernel : Kernel Cpu Sem Ctx
  own : List Nat
  blocks : List (TaskPtr Cpu)
  wakes : List (TaskPtr Cpu)

inductive Label (Cpu : Type) where
  | wait (c : Cpu)
  | signal
  | other

/-- The locked sections of the semaphore `s`, and whatever else happens that leaves its record and its nodes alone. -/
inductive Step (s : Sem) : State Cpu Sem Ctx → Label Cpu → State Cpu Sem Ctx → Prop where
  | pass {st : State Cpu Sem Ctx} {k : Kernel Cpu Sem Ctx} {c : Cpu} {tasknode : Nat}
      (locked : semWait st.kernel c s tasknode = some (k, false)) : Step s st (.wait c) { st with kernel := k }
  | block {st : State Cpu Sem Ctx} {k : Kernel Cpu Sem Ctx} {c : Cpu} {t : TaskPtr Cpu} {tasknode : Nat}
      (alloc : tasknode ≠ 0 ∧ tasknode ∉ st.kernel.nodes) (current : st.kernel.cputask c = some t)
      (locked : semWait st.kernel c s tasknode = some (k, true)) :
      Step s st (.wait c) { st with kernel := k, own := tasknode :: st.own, blocks := st.blocks ++ [t] }
  | signal {st : State Cpu Sem Ctx} {k : Kernel Cpu Sem Ctx} (locked : semSignal st.kernel s = some k) :
      Step s st .signal { st with
        kernel := k
        own := if 0 < (st.kernel.sem s).cntTasks then st.own.dropLast else st.own
        wakes := st.wakes ++ (woken st.kernel s).toList }
  | other {st : State Cpu Sem Ctx} {k : Kernel Cpu Sem Ctx} (record : k.sem s = st.kernel.sem s)
      (nodes : ∀ n ∈ st.own, k.node n = st.kernel.node n ∧ n ∈ k.nodes) : Step s st .other { st with kernel := k }

/-- From the `sem_init` of `s` on, in the memory of `k`. -/
def semRuns (k : Kernel Cpu Sem Ctx) (s : Sem) (value : Int) : Machine (State Cpu Sem Ctx) (Label Cpu) where
  Init st := st = ⟨semInit k s value, [], [], []⟩
  Step := Step s

/-- The queue has the nodes taken, whose tasks are those that blocked and were not dequeued yet. -/
structure Inv (s : Sem) (st : State Cpu Sem Ctx) : Prop where
  queue : Queue st.kernel.node (st.kernel.sem s).pcb st.own
  live : ∀ n ∈ st.own, n ∈ st.kernel.nodes
  counted : (st.kernel.sem s).cntTasks = st.own.length
  order : st.blocks = st.wakes ++ (st.own.map fun n => (st.kernel.node n).task).reverse

variable {k : Kernel Cpu Sem Ctx} {s : Sem} {st st' : State Cpu Sem Ctx} {value : Int} {label : Label Cpu}

omit [DecidableEq Cpu] in
theorem inv_init (empty : (k.sem s).pcb = 0) : Inv s ⟨semInit k s value, [], [], []⟩ where
  queue := by
    have same : ((semInit k s value).sem s).pcb = 0 := by simp [semInit, Kernel.setSem, empty]
    rw [same]
    exact Queue.nil _
  live := by simp
  counted := by simp [semInit, Kernel.setSem]
  order := rfl

/-- What `sem_wait` does to the queue when it blocks. -/
theorem inv_block {c : Cpu} {t : TaskPtr Cpu} {tasknode : Nat} (h : Inv s st)
    (alloc : tasknode ≠ 0 ∧ tasknode ∉ st.kernel.nodes) (current : st.kernel.cputask c = some t)
    (locked : semWait st.kernel c s tasknode = some (k, true)) :
    Inv s { st with kernel := k, own := tasknode :: st.own, blocks := st.blocks ++ [t] } := by
  rcases semWait_cases locked with ⟨pass, -⟩ | ⟨-, -, t', node, pcb, current', linked, rfl⟩
  · cases pass
  · obtain rfl : t = t' := Option.some.inj (current.symm.trans current')
    obtain ⟨node', linked', queue, task, same, -⟩ : ∃ node', linkHead _ _ _ t = some (node', _) ∧ _ :=
      h.queue.linkHead_eq alloc.1 fun mem => alloc.2 (h.live _ mem)
    obtain ⟨rfl, rfl⟩ : node = node' ∧ pcb = tasknode := by simpa [linked] using linked'
    constructor
    · simpa using queue
    · intro n mem
      rcases List.mem_cons.mp mem with rfl | mem
      · exact List.mem_cons_self
      · exact List.mem_cons_of_mem _ (h.live n mem)
    · simp [h.counted]
    · have kept : (st.own.map fun n => (node n).task) = st.own.map fun n => (st.kernel.node n).task :=
        List.map_congr_left same
      simp [h.order, task, kept]

/-- What `sem_signal` does when the queue is not empty: the oldest node is the one that goes. -/
theorem inv_signal_waiters {l : List Nat} {x : Nat} (h : Inv s st) (own : st.own = l ++ [x])
    (locked : semSignal st.kernel s = some k) :
    woken st.kernel s = some (st.kernel.node x).task ∧
      Inv s { st with kernel := k, own := l, wakes := st.wakes ++ [(st.kernel.node x).task] } := by
  have queue := h.queue
  rw [own] at queue
  have waiters : 0 < (st.kernel.sem s).cntTasks := by simp [h.counted, own]
  have enough : (l ++ [x]).length ≤ st.kernel.nodes.length :=
    (List.subperm_of_subset queue.nodup fun n mem => h.live n (own ▸ mem)).length_le
  have found : lastNode st.kernel.node st.kernel.nodes.length (st.kernel.sem s).pcb = some x := by
    rw [queue.head]
    exact Queue.lastNode_eq queue.linked (queue.last x (by simp)) queue.nonnull (by simp at enough; omega)
  refine ⟨by simp [woken, waiters, found], ?_⟩
  rcases semSignal_cases locked with ⟨none, -⟩ | ⟨-, ptr, node, pcb, found', unlinked, rfl⟩
  · omega
  · obtain rfl : x = ptr := Option.some.inj (found.symm.trans found')
    obtain ⟨node', pcb', unlinked', rest, same, -⟩ := queue.unlinkLast_eq
    obtain ⟨rfl, rfl⟩ : node = node' ∧ pcb = pcb' := by simpa [unlinked] using unlinked'
    constructor
    · simpa using rest
    · intro n mem
      have ne : n ≠ x := by
        rintro rfl
        exact (List.nodup_append.mp queue.nodup).2.2 n mem n (by simp) rfl
      exact (List.mem_erase_of_ne ne).mpr (h.live n (own ▸ List.mem_append_left _ mem))
    · simp [h.counted, own]
    · simp [h.order, own, same]

theorem inv_step (h : Inv s st) (step : Step s st label st') : Inv s st' := by
  cases step with
  | @pass k c tasknode locked =>
    rcases semWait_cases locked with ⟨-, -, rfl⟩ | ⟨blocked, -⟩
    · exact ⟨by simpa [Kernel.setSem] using h.queue, h.live, by simpa [Kernel.setSem] using h.counted, h.order⟩
    · cases blocked
  | @block k c t tasknode alloc current locked => exact inv_block h alloc current locked
  | @signal k locked =>
    rcases List.eq_nil_or_concat' st.own with empty | ⟨l, x, own⟩
    · have none : ¬ 0 < (st.kernel.sem s).cntTasks := by simp [h.counted, empty]
      rcases semSignal_cases locked with ⟨-, rfl⟩ | ⟨waiters, -⟩
      · simp only [woken, if_neg none, Option.toList_none, List.append_nil]
        exact ⟨by simpa [Kernel.setSem] using h.queue, h.live, by simpa [Kernel.setSem] using h.counted, h.order⟩
      · exact absurd waiters none
    · obtain ⟨wakes, inv⟩ := inv_signal_waiters h own locked
      have waiters : 0 < (st.kernel.sem s).cntTasks := by simp [h.counted, own]
      simpa [wakes, waiters, own] using inv
  | @other k record nodes =>
    constructor
    · simpa only [record] using h.queue.congr fun n mem => (nodes n mem).1
    · exact fun n mem => (nodes n mem).2
    · simpa only [record] using h.counted
    · have kept : (st.own.map fun n => (k.node n).task) = st.own.map fun n => (st.kernel.node n).task :=
        List.map_congr_left fun n mem => by rw [(nodes n mem).1]
      simp only [kept, h.order]

theorem reachable_inv (empty : (k.sem s).pcb = 0) (h : (semRuns k s value).Reachable st) : Inv s st :=
  h.induct (Inv s) (by rintro _ rfl; exact inv_init empty) fun _ _ _ inv step => inv_step inv step

/-- The tasks that blocked since `sem_init` and were not dequeued yet. -/
def State.pending (st : State Cpu Sem Ctx) : List (TaskPtr Cpu) :=
  st.blocks.drop st.wakes.length

/-- A task that a signal wakes blocked before and was not dequeued yet. -/
theorem semSignal_pending (h : Inv s st) (locked : semSignal st.kernel s = some k) {t : TaskPtr Cpu}
    (changed : (k.task t).sleep ≠ (st.kernel.task t).sleep) : t ∈ st.pending := by
  rcases semSignal_cases locked with ⟨-, rfl⟩ | ⟨waiters, ptr, node, pcb, found, -, rfl⟩
  · exact absurd rfl changed
  · have this : t = (st.kernel.node ptr).task := by
      by_contra other
      simp [other] at changed
    rcases List.eq_nil_or_concat' st.own with empty | ⟨l, x, own⟩
    · simp [h.counted, empty] at waiters
    · have queue := h.queue
      rw [own] at queue
      obtain ⟨wakes, -⟩ := inv_signal_waiters h own locked
      have same : (st.kernel.node ptr).task = (st.kernel.node x).task := by simpa [woken, waiters, found] using wakes
      rw [State.pending, h.order, List.drop_left, this, same, own]
      simp

/-- **Where the `pcb` word was `NULL`, the signals take out the tasks that blocked, in their order, and wake no
other.** -/
theorem semInit_wakesBlocked (empty : (k.sem s).pcb = 0) (h : (semRuns k s value).Reachable st) :
    st.wakes <+: st.blocks ∧
      ∀ k', semSignal st.kernel s = some k' →
        ∀ t, (k'.task t).sleep ≠ (st.kernel.task t).sleep → t ∈ st.pending :=
  have inv := reachable_inv empty h
  ⟨⟨_, inv.order.symm⟩, fun _ locked _ changed => semSignal_pending inv locked changed⟩

/-- The record of a semaphore in a recycled block, whose `pcb` word is the address `pcb`. Another semaphore has the
node 100 in its queue, for task 7. -/
def recycled (pcb : Nat) : Kernel Unit Bool Unit where
  task t := ⟨(), if t = .task 1 then 1 else 0, 0, if t = .task 7 then 1 else 0⟩
  tasks _ := none
  cntTasks := 0
  cputask _ := some (.task 1)
  cputaskLast _ := none
  notdefault _ := true
  sem s := if s then ⟨-1, 1, 100⟩ else ⟨5, 3, pcb⟩
  node _ := ⟨.task 7, 0, 0⟩
  nodes := [100]

/-- A task blocks, and the signal takes out the node of the other semaphore. -/
theorem semInit_wakesBlocked_counterexample : ∃ st, (semRuns (recycled 100) false 0).Reachable st ∧
    st.blocks = [.task 1] ∧ st.wakes = [.task 7] ∧ ¬ st.wakes <+: st.blocks := by
  have start : (semRuns (recycled 100) false 0).Reachable ⟨semInit (recycled 100) false 0, [], [], []⟩ := .init rfl
  have blocked := start.step (@Step.block _ _ _ _ _ false _ _ () (.task 1) 200 (by decide) rfl rfl)
  exact ⟨_, blocked.step (.signal rfl), rfl, rfl, show ¬ [(.task 7 : TaskPtr Unit)] <+: [.task 1] by decide⟩

theorem semInit_wakesBlocked_sample : ∃ st : State Unit Bool Unit, st.wakes = [.task 1] ∧ st.wakes <+: st.blocks := by
  have start : (semRuns (recycled 0) false 0).Reachable ⟨semInit (recycled 0) false 0, [], [], []⟩ := .init rfl
  have blocked := start.step (@Step.block _ _ _ _ _ false _ _ () (.task 1) 200 (by decide) rfl rfl)
  exact ⟨_, rfl, (semInit_wakesBlocked rfl (blocked.step (.signal rfl))).1⟩

end OsLabs.Kmt.SemInit

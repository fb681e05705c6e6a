import OsLabs.Data.Integer
import OsLabs.Data.Machine
import OsLabs.Kmt.Queue

/-!
# Threads and semaphores

The scheduler (`kmt_context_save`, `kmt_context_switch`), `kmt_create` and the
locked sections of `sem_wait` and `sem_signal`, for any number of CPUs, tasks and
semaphores. A task is named by its pointer: one made by `kmt_create`, or the idle
context `cpudefaulttask[c]` of a CPU. `none` is a failed assertion or an access
through `NULL`.
-/

namespace OsLabs.Kmt
open Function

def maxTask : Nat := 1024

inductive TaskPtr (Cpu : Type) where
  | task (n : Nat)
  | cpudefault (c : Cpu)
  deriving DecidableEq

/-- `struct task`, as far as the scheduler and the semaphores use it. -/
structure Task (Ctx : Type) where
  context : Ctx
  run : Nat
  id : Nat
  sleep : Nat

/-- `struct semaphore`. The count wraps. Each task that `cnt_tasks` counts has a node in the same memory of 2^32 bytes,
so that it stays far below 2^31. -/
structure Semaphore where
  count : Int
  cntTasks : Int
  pcb : Nat

/-- The globals of `kmt.c`, the task records, and the nodes of the semaphore queues
with the addresses of those that `pmm->alloc` gave and `pmm->free` did not get back. -/
structure Kernel (Cpu Sem Ctx : Type) where
  task : TaskPtr Cpu → Task Ctx
  tasks : Nat → Option (TaskPtr Cpu)
  cntTasks : Int
  cputask : Cpu → Option (TaskPtr Cpu)
  cputaskLast : Cpu → Option (TaskPtr Cpu)
  notdefault : Cpu → Bool
  sem : Sem → Semaphore
  node : Nat → TaskNode (TaskPtr Cpu)
  nodes : List Nat

variable {Cpu Sem Ctx : Type} [DecidableEq Cpu] [DecidableEq Sem]

namespace Kernel

def setTask (k : Kernel Cpu Sem Ctx) (t : TaskPtr Cpu) (f : Task Ctx → Task Ctx) : Kernel Cpu Sem Ctx :=
  { k with task := update k.task t (f (k.task t)) }

def setSem (k : Kernel Cpu Sem Ctx) (s : Sem) (f : Semaphore → Semaphore) : Kernel Cpu Sem Ctx :=
  { k with sem := update k.sem s (f (k.sem s)) }

omit [DecidableEq Sem] in
@[simp] theorem setTask_task (k : Kernel Cpu Sem Ctx) (t u : TaskPtr Cpu) (f : Task Ctx → Task Ctx) :
    (k.setTask t f).task u = if u = t then f (k.task t) else k.task u := by
  simp only [setTask, update_apply]

end Kernel

/-! ### Scheduler -/

/-- The task that was switched out at the trap before can be chosen again. -/
def releaseLast (k : Kernel Cpu Sem Ctx) (c : Cpu) : Kernel Cpu Sem Ctx :=
  match k.cputaskLast c with
  | some last => if k.cputask c = some last then k else k.setTask last ({ · with run := 0 })
  | none => k

/-- The context of the first trap is that of the idle loop. -/
def saveDefault (k : Kernel Cpu Sem Ctx) (c : Cpu) (context : Ctx) : Kernel Cpu Sem Ctx :=
  if k.notdefault c then k
  else { k.setTask (.cpudefault c) ({ · with context := context }) with
    notdefault := update k.notdefault c true }

def kmtContextSave (k : Kernel Cpu Sem Ctx) (c : Cpu) (context : Ctx) : Option (Kernel Cpu Sem Ctx) :=
  let k := saveDefault (releaseLast k c) c context
  match k.cputask c with
  | none => some { k with cputaskLast := update k.cputaskLast c none }
  | some t =>
    if (k.task t).sleep = 1 ∨ (k.task t).run = 1 then
      some { k.setTask t ({ · with context := context }) with
        cputaskLast := update k.cputaskLast c (some t) }
    else none

/-- The first task that the scan of the table from `seed + 1` finds runnable. -/
def runnable (k : Kernel Cpu Sem Ctx) (seed : Nat) : Option (TaskPtr Cpu) :=
  (List.range maxTask).findSome? fun i =>
    match k.tasks ((seed + i + 1) % maxTask) with
    | some nxt => if (k.task nxt).run = 0 ∧ (k.task nxt).sleep = 0 then some nxt else none
    | none => none

def Kernel.dispatch (k : Kernel Cpu Sem Ctx) (c : Cpu) (t : TaskPtr Cpu) : Kernel Cpu Sem Ctx :=
  { k.setTask t ({ · with run := 1 }) with cputask := update k.cputask c (some t) }

/-- The new state, the task that was chosen and the context handed back for it; `rand` is
what `rand()` gives. -/
def kmtContextSwitch (k : Kernel Cpu Sem Ctx) (c : Cpu) (rand : Nat) :
    Kernel Cpu Sem Ctx × TaskPtr Cpu × Ctx :=
  let seed := ((k.cputask c).map fun t => (k.task t).id).getD (rand % maxTask)
  let ret := (runnable k seed).getD (.cpudefault c)
  let k := k.dispatch c ret
  (k, ret, (k.task ret).context)

/-- `kmt_create` once the stack is allocated: `context` is what `_kcontext` made. The test of
`cnt_tasks` comes before the lock is taken, so that the table may be full by now. -/
def kmtCreate (k : Kernel Cpu Sem Ctx) (task : TaskPtr Cpu) (context : Ctx) (rand : Nat) :
    Kernel Cpu Sem Ctx :=
  let k := k.setTask task ({ · with run := 0, sleep := 0, context := context })
  let seed := rand % maxTask
  let i := ((List.range maxTask).find? fun i => (k.tasks ((seed + i) % maxTask)).isNone).getD maxTask
  let slot := (seed + i) % maxTask
  { k.setTask task ({ · with id := slot }) with
    cntTasks := k.cntTasks + 1
    tasks := update k.tasks slot (some task) }

/-! ### Semaphores -/

/-- `tasknode` is the node that `pmm->alloc` gave. -/
def semListAdd (k : Kernel Cpu Sem Ctx) (s : Sem) (task : TaskPtr Cpu) (tasknode : Nat) :
    Option (Kernel Cpu Sem Ctx) := do
  let (node, pcb) ← linkHead k.node (k.sem s).pcb tasknode task
  if pcb = 0 then none
  else some { k.setSem s ({ · with pcb := pcb }) with node := node, nodes := tasknode :: k.nodes }

def semListDelete (k : Kernel Cpu Sem Ctx) (s : Sem) : Option (Kernel Cpu Sem Ctx) := do
  let ptr ← lastNode k.node k.nodes.length (k.sem s).pcb
  let k := k.setTask (k.node ptr).task ({ · with sleep := 0 })
  let (node, pcb) ← unlinkLast k.node (k.sem s).pcb ptr
  some { k.setSem s ({ · with pcb := pcb }) with node := node, nodes := k.nodes.erase ptr }

/-- The locked section of `sem_wait`, and whether `_yield` follows it. -/
def semWait (k : Kernel Cpu Sem Ctx) (c : Cpu) (s : Sem) (tasknode : Nat) :
    Option (Kernel Cpu Sem Ctx × Bool) :=
  let k := k.setSem s fun sem => { sem with count := int (sem.count - 1) }
  if (k.sem s).count < 0 then do
    let k := k.setSem s fun sem => { sem with cntTasks := sem.cntTasks + 1 }
    let t ← k.cputask c
    let k ← semListAdd (k.setTask t ({ · with sleep := 1 })) s t tasknode
    if (k.sem s).pcb = 0 then none
    else if (k.task t).run ≠ 1 then none
    else some (k, true)
  else some (k, false)

def semSignal (k : Kernel Cpu Sem Ctx) (s : Sem) : Option (Kernel Cpu Sem Ctx) := do
  let k ←
    if 0 < (k.sem s).cntTasks then
      if (k.sem s).pcb = 0 then none
      else (semListDelete k s).map (·.setSem s fun sem => { sem with cntTasks := sem.cntTasks - 1 })
    else some k
  some (k.setSem s fun sem => { sem with count := int (sem.count + 1) })

/-! ### Runs -/

inductive Event where
  | error | yield | irq
  deriving DecidableEq

/-- Where a task is in a call of `sem_wait`: outside (`code`), past the locked section without
blocking, before the `_yield`, or after it. -/
inductive Phase (Sem : Type) where
  | code
  | passed (s : Sem)
  | waiting (s : Sem)
  | yielded (s : Sem)
  deriving DecidableEq

def Phase.yield : Phase Sem → Phase Sem
  | .waiting s => .yielded s
  | p => p

/-- The semaphore that a task is waiting for or has just passed. -/
def Phase.sem : Phase Sem → Option Sem
  | .code => none
  | .passed s | .waiting s | .yielded s => some s

/-- The kernel, the CPU that holds `lock_os`, and what happened so far: the tasks created, the
task whose context each CPU was last given, the context of each task at its last trap, the phase
of each task and whether a signal took it out of the queue since it blocked, and for each
semaphore the calls of `sem_wait` that have not returned, the number of calls that entered the
locked section and that returned, and the number of signals that entered theirs. -/
structure State (Cpu Sem Ctx : Type) where
  kernel : Kernel Cpu Sem Ctx
  lockOs : Option Cpu
  created : TaskPtr Cpu → Bool
  resumed : Cpu → TaskPtr Cpu
  lastTrap : TaskPtr Cpu → Ctx
  phase : TaskPtr Cpu → Phase Sem
  signalled : TaskPtr Cpu → Bool
  calls : Sem → List (TaskPtr Cpu)
  waits : Sem → Nat
  returns : Sem → Nat
  signals : Sem → Nat

inductive Label (Cpu Sem Ctx : Type) where
  | trap (c : Cpu) (ev : Event) (context : Ctx)
  | switch (c : Cpu) (chosen : TaskPtr Cpu) (context : Ctx)
  | create (n : Nat)
  | wait (c : Cpu) (s : Sem)
  | leave (c : Cpu) (s : Sem)
  | signal (s : Sem)

/-- The task that `sem_signal` is about to take out of the queue. -/
def woken (k : Kernel Cpu Sem Ctx) (s : Sem) : Option (TaskPtr Cpu) :=
  if 0 < (k.sem s).cntTasks then
    (lastNode k.node k.nodes.length (k.sem s).pcb).map fun ptr => (k.node ptr).task
  else none

/-- `os_trap` is the steps `save` and `switch` of one CPU, with `lock_os` held in between; the
handlers it calls there can only signal. A signal may come from anywhere at any time, a wait and
the return from it only from the code of a created task that a CPU is running. -/
inductive Step : State Cpu Sem Ctx → Label Cpu Sem Ctx → State Cpu Sem Ctx → Prop where
  | error {st : State Cpu Sem Ctx} {c : Cpu} {context : Ctx} : Step st (.trap c .error context) st
  | save {st : State Cpu Sem Ctx} {k : Kernel Cpu Sem Ctx} {c : Cpu} {ev : Event} {context : Ctx}
      (unlocked : st.lockOs = none) (proper : ev ≠ .error)
      (saved : kmtContextSave st.kernel c context = some k) :
      Step st (.trap c ev context) { st with
        kernel := k
        lockOs := some c
        lastTrap := update st.lastTrap (st.resumed c) context
        phase := if ev = .yield then update st.phase (st.resumed c) (st.phase (st.resumed c)).yield
          else st.phase }
  | switch {st : State Cpu Sem Ctx} {k : Kernel Cpu Sem Ctx} {c : Cpu} {rand : Nat} {t : TaskPtr Cpu}
      {context : Ctx} (held : st.lockOs = some c)
      (chosen : kmtContextSwitch st.kernel c rand = (k, t, context)) :
      Step st (.switch c t context) { st with
        kernel := k, lockOs := none, resumed := update st.resumed c t }
  | create {st : State Cpu Sem Ctx} {n rand : Nat} {context : Ctx} (fresh : st.created (.task n) = false) :
      Step st (.create n) { st with
        kernel := kmtCreate st.kernel (.task n) context rand
        created := update st.created (.task n) true
        lastTrap := update st.lastTrap (.task n) context }
  | wait {st : State Cpu Sem Ctx} {k : Kernel Cpu Sem Ctx} {c : Cpu} {s : Sem} {n tasknode : Nat}
      {blocked : Bool} (outside : st.lockOs ≠ some c) (scheduled : st.resumed c = .task n)
      (idle : st.phase (.task n) = .code) (alloc : tasknode ≠ 0 ∧ tasknode ∉ st.kernel.nodes)
      (locked : semWait st.kernel c s tasknode = some (k, blocked)) :
      Step st (.wait c s) { st with
        kernel := k
        phase := update st.phase (.task n) (if blocked then .waiting s else .passed s)
        signalled := update st.signalled (.task n) (!blocked)
        calls := update st.calls s (.task n :: st.calls s)
        waits := update st.waits s (st.waits s + 1) }
  | leave {st : State Cpu Sem Ctx} {c : Cpu} {s : Sem} (outside : st.lockOs ≠ some c)
      (done : st.phase (st.resumed c) = .passed s ∨ st.phase (st.resumed c) = .yielded s) :
      Step st (.leave c s) { st with
        phase := update st.phase (st.resumed c) .code
        calls := update st.calls s ((st.calls s).erase (st.resumed c))
        returns := update st.returns s (st.returns s + 1) }
  | signal {st : State Cpu Sem Ctx} {k : Kernel Cpu Sem Ctx} {s : Sem}
      (locked : semSignal st.kernel s = some k) :
      Step st (.signal s) { st with
        kernel := k
        signalled := match woken st.kernel s with
          | some t => update st.signalled t true
          | none => st.signalled
        signals := update st.signals s (st.signals s + 1) }

/-- After `kmt_init` and the `sem_init` of every semaphore with its value `v`. -/
structure Booted (v : Sem → Int) (st : State Cpu Sem Ctx) : Prop where
  tasks : st.kernel.tasks = fun _ => none
  cputask : st.kernel.cputask = fun _ => none
  cputaskLast : st.kernel.cputaskLast = fun _ => none
  notdefault : st.kernel.notdefault = fun _ => false
  awake : ∀ c, (st.kernel.task (.cpudefault c)).run = 0 ∧ (st.kernel.task (.cpudefault c)).sleep = 0
  sem : st.kernel.sem = fun s => ⟨v s, 0, 0⟩
  lockOs : st.lockOs = none
  created : st.created = fun _ => false
  resumed : st.resumed = .cpudefault
  lastTrap : ∀ t, st.lastTrap t = (st.kernel.task t).context
  phase : st.phase = fun _ => .code
  calls : st.calls = fun _ => []
  waits : st.waits = fun _ => 0
  returns : st.returns = fun _ => 0
  signals : st.signals = fun _ => 0

def kernelMachine (v : Sem → Int) : Machine (State Cpu Sem Ctx) (Label Cpu Sem Ctx) where
  Init := Booted v
  Step := Step

end OsLabs.Kmt

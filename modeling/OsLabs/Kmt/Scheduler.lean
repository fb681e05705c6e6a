import OsLabs.Kmt.Model

/-!
# The scheduler gives every running task one CPU

A task stays `run = 1` until the trap after the one that switched it out, so the
tasks that are `cputask` or `cputask_last` of a CPU are its own. The invariant
says so, whatever traps, creations, waits and signals come in between.
-/

namespace OsLabs.Kmt
open Function

variable {Cpu Sem Ctx : Type} [DecidableEq Cpu] [DecidableEq Sem]
  {k k' : Kernel Cpu Sem Ctx} {c : Cpu} {s : Sem} {t : TaskPtr Cpu} {context : Ctx} {tasknode : Nat}

/-! ### What one call does -/

structure Saved (k k' : Kernel Cpu Sem Ctx) (c : Cpu) (context : Ctx) : Prop where
  tasks : k'.tasks = k.tasks
  cputask : k'.cputask = k.cputask
  cputaskLast : k'.cputaskLast = update k.cputaskLast c (k.cputask c)
  notdefault : k'.notdefault = update k.notdefault c true
  sem : k'.sem = k.sem
  node : k'.node = k.node
  nodes : k'.nodes = k.nodes
  sleep : ∀ t, (k'.task t).sleep = (k.task t).sleep
  run : ∀ t, (k'.task t).run =
    if k.cputaskLast c = some t ∧ k.cputask c ≠ some t then 0 else (k.task t).run
  context : ∀ t, (k'.task t).context =
    if k.cputask c = some t ∨ (t = .cpudefault c ∧ k.notdefault c = false) then context
    else (k.task t).context

omit [DecidableEq Sem] in
theorem releaseLast_task (k : Kernel Cpu Sem Ctx) (c : Cpu) :
    ∃ task, releaseLast k c = { k with task := task } ∧
      ∀ t, task t = { k.task t with
        run := if k.cputaskLast c = some t ∧ k.cputask c ≠ some t then 0 else (k.task t).run } := by
  unfold releaseLast
  split
  · rename_i last eq
    split
    · rename_i same
      exact ⟨k.task, rfl, fun t => by rw [if_neg (by rw [eq, same]; tauto)]⟩
    · rename_i other
      refine ⟨_, rfl, fun t => ?_⟩
      by_cases tLast : t = last
      · subst tLast; simp [eq, other]
      · simp [eq, tLast, Ne.symm tLast]
  · rename_i eq
    exact ⟨k.task, rfl, fun t => by simp [eq]⟩

omit [DecidableEq Sem] in
theorem saveDefault_task (k : Kernel Cpu Sem Ctx) (c : Cpu) (context : Ctx) :
    ∃ task, saveDefault k c context = { k with task := task, notdefault := update k.notdefault c true } ∧
      ∀ t, task t = { k.task t with
        context := if t = .cpudefault c ∧ k.notdefault c = false then context else (k.task t).context } := by
  unfold saveDefault
  split
  · rename_i done
    exact ⟨k.task, by rw [← done, update_eq_self], fun t => by simp [done]⟩
  · rename_i first
    refine ⟨_, rfl, fun t => ?_⟩
    by_cases default : t = .cpudefault c
    · subst default; simp [first]
    · simp [default]

omit [DecidableEq Sem] in
theorem kmtContextSave_saved (h : kmtContextSave k c context = some k') : Saved k k' c context := by
  obtain ⟨task₁, eq₁, spec₁⟩ := releaseLast_task k c
  obtain ⟨task₂, eq₂, spec₂⟩ := saveDefault_task (releaseLast k c) c context
  simp only [eq₁] at eq₂ spec₂
  simp only [kmtContextSave, eq₁, eq₂] at h
  cases current : k.cputask c with
  | none =>
    simp only [current] at h
    obtain rfl := Option.some.inj h
    exact ⟨rfl, rfl, by simp [current], rfl, rfl, rfl, rfl, fun t => by simp [spec₁, spec₂],
      fun t => by simp [spec₁, spec₂], fun t => by simp [spec₁, spec₂, current]⟩
  | some t =>
    simp only [current] at h
    split at h
    · obtain rfl := Option.some.inj h
      refine ⟨rfl, rfl, by simp only [current], rfl, rfl, rfl, rfl, fun u => ?_, fun u => ?_, fun u => ?_⟩ <;>
        by_cases ut : u = t
      · simp [spec₁, spec₂, ut]
      · simp [spec₁, spec₂, ut]
      · simp [spec₁, spec₂, ut, current]
      · simp [spec₁, spec₂, ut]
      · simp [ut, current]
      · simp [spec₁, spec₂, ut, current, Ne.symm ut]
    · cases h

omit [DecidableEq Sem] in
theorem kmtContextSave_isSome (running : ∀ t, k.cputask c = some t → (k.task t).run = 1) :
    ∃ k', kmtContextSave k c context = some k' := by
  obtain ⟨task₁, eq₁, spec₁⟩ := releaseLast_task k c
  obtain ⟨task₂, eq₂, spec₂⟩ := saveDefault_task (releaseLast k c) c context
  simp only [eq₁] at eq₂ spec₂
  simp only [kmtContextSave, eq₁, eq₂]
  cases current : k.cputask c with
  | none => exact ⟨_, rfl⟩
  | some t =>
    refine ⟨_, if_pos (.inr ?_)⟩
    simp [spec₁, spec₂, current, running t current]

omit [DecidableEq Cpu] [DecidableEq Sem] in
theorem runnable_some {seed : Nat} (h : runnable k seed = some t) :
    (∃ i, k.tasks i = some t) ∧ (k.task t).run = 0 ∧ (k.task t).sleep = 0 := by
  obtain ⟨i, -, found⟩ := List.exists_of_findSome?_eq_some h
  split at found
  · rename_i nxt entry
    split at found
    · rename_i free
      obtain rfl := Option.some.inj found
      exact ⟨⟨_, entry⟩, free⟩
    · cases found
  · cases found

omit [DecidableEq Sem] in
/-- `kmt_context_switch` dispatches a runnable task of the table, or else the idle context. -/
theorem kmtContextSwitch_cases {rand : Nat} (h : kmtContextSwitch k c rand = (k', t, context)) :
    k' = k.dispatch c t ∧ context = (k.task t).context ∧
      (t = .cpudefault c ∨ (∃ i, k.tasks i = some t) ∧ (k.task t).run = 0 ∧ (k.task t).sleep = 0) := by
  unfold kmtContextSwitch at h
  generalize ((k.cputask c).map fun t => (k.task t).id).getD (rand % maxTask) = seed at h
  generalize ret : (runnable k seed).getD (.cpudefault c) = chosen at h
  simp only [Prod.mk.injEq] at h
  obtain ⟨rfl, rfl, rfl⟩ := h
  refine ⟨rfl, by simp [Kernel.dispatch], ?_⟩
  cases found : runnable k seed with
  | none => exact .inl rfl
  | some t =>
    obtain rfl : t = chosen := by rw [← ret, found]; rfl
    exact .inr (runnable_some found)

omit [DecidableEq Sem] in
theorem kmtContextSwitch_eq (k : Kernel Cpu Sem Ctx) (c : Cpu) (rand : Nat) (t : TaskPtr Cpu)
    (found : runnable k (((k.cputask c).map fun t => (k.task t).id).getD (rand % maxTask)) = some t) :
    kmtContextSwitch k c rand = (k.dispatch c t, t, (k.task t).context) := by
  simp [kmtContextSwitch, found, Kernel.dispatch]

/-- The locked section of `sem_wait` either only counts down, or puts `cputask[c]` to sleep in the
queue. -/
theorem semWait_cases {blocked : Bool} (h : semWait k c s tasknode = some (k', blocked)) :
    (blocked = false ∧ 0 ≤ int ((k.sem s).count - 1) ∧
      k' = k.setSem s fun sem => { sem with count := int (sem.count - 1) }) ∨
    (blocked = true ∧ int ((k.sem s).count - 1) < 0 ∧ ∃ t node pcb, k.cputask c = some t ∧
      linkHead k.node (k.sem s).pcb tasknode t = some (node, pcb) ∧
      k' = { k.setTask t ({ · with sleep := 1 }) with
        sem := update k.sem s ⟨int ((k.sem s).count - 1), (k.sem s).cntTasks + 1, pcb⟩
        node := node
        nodes := tasknode :: k.nodes }) := by
  unfold semWait at h
  simp only [Kernel.setSem, update_self] at h
  split at h
  · rename_i neg
    right
    cases current : k.cputask c with
    | none => simp [current] at h
    | some t =>
      simp only [current, semListAdd, Kernel.setTask, Kernel.setSem, update_self, Option.bind_eq_bind,
        Option.bind_some] at h
      cases linked : linkHead k.node (k.sem s).pcb tasknode t with
      | none => simp [linked] at h
      | some p =>
        simp only [linked, Option.bind_some] at h
        by_cases null : p.2 = 0
        · rw [if_pos null] at h
          cases h
        · simp only [if_neg null, Option.bind_some, update_self] at h
          split at h
          · cases h
          · simp only [Option.some.injEq, Prod.mk.injEq] at h
            obtain ⟨rfl, rfl⟩ := h
            exact ⟨rfl, neg, t, p.1, p.2, rfl, linked, by simp [Kernel.setTask]⟩
  · rename_i nonneg
    simp only [Option.some.injEq, Prod.mk.injEq] at h
    exact .inl ⟨h.2.symm, by omega, h.1.symm⟩

/-- The locked section of `sem_signal` either only counts up, or also wakes the oldest waiter. -/
theorem semSignal_cases (h : semSignal k s = some k') :
    ((k.sem s).cntTasks ≤ 0 ∧ k' = k.setSem s fun sem => { sem with count := int (sem.count + 1) }) ∨
    (0 < (k.sem s).cntTasks ∧ ∃ ptr node pcb, lastNode k.node k.nodes.length (k.sem s).pcb = some ptr ∧
      unlinkLast k.node (k.sem s).pcb ptr = some (node, pcb) ∧
      k' = { k.setTask (k.node ptr).task ({ · with sleep := 0 }) with
        sem := update k.sem s ⟨int ((k.sem s).count + 1), (k.sem s).cntTasks - 1, pcb⟩
        node := node
        nodes := k.nodes.erase ptr }) := by
  unfold semSignal at h
  simp only [Option.bind_eq_bind] at h
  split at h
  · rename_i waiters
    right
    refine ⟨waiters, ?_⟩
    split at h
    · cases h
    · unfold semListDelete at h
      cases found : lastNode k.node k.nodes.length (k.sem s).pcb with
      | none => simp [found] at h
      | some ptr =>
        cases unlinked : unlinkLast k.node (k.sem s).pcb ptr with
        | none => simp [found, unlinked, Kernel.setTask] at h
        | some p =>
          refine ⟨ptr, p.1, p.2, rfl, unlinked, ?_⟩
          simpa [found, unlinked, Kernel.setTask, Kernel.setSem] using h.symm
  · rename_i none
    exact .inl ⟨by omega, (Option.some.inj h).symm⟩

/-- What the semaphores and `kmt_create` leave alone. -/
structure SameCpus (k k' : Kernel Cpu Sem Ctx) : Prop where
  cputask : k'.cputask = k.cputask
  cputaskLast : k'.cputaskLast = k.cputaskLast
  notdefault : k'.notdefault = k.notdefault

structure SameTasks (k k' : Kernel Cpu Sem Ctx) : Prop extends SameCpus k k' where
  tasks : k'.tasks = k.tasks
  run : ∀ t, (k'.task t).run = (k.task t).run
  context : ∀ t, (k'.task t).context = (k.task t).context

omit [DecidableEq Sem] in
theorem sameTasks_setSleep (k : Kernel Cpu Sem Ctx) (t : TaskPtr Cpu) (n : Nat) (sem : Sem → Semaphore)
    (node : Nat → TaskNode (TaskPtr Cpu)) (nodes : List Nat) :
    SameTasks k { k.setTask t ({ · with sleep := n }) with sem := sem, node := node, nodes := nodes } := by
  refine ⟨⟨rfl, rfl, rfl⟩, rfl, fun u => ?_, fun u => ?_⟩ <;>
    by_cases ut : u = t <;> simp [ut]

theorem semWait_sameTasks {blocked : Bool} (h : semWait k c s tasknode = some (k', blocked)) :
    SameTasks k k' ∧ ∀ t, (k'.task t).sleep = (k.task t).sleep ∨ k.cputask c = some t := by
  rcases semWait_cases h with ⟨-, -, rfl⟩ | ⟨-, -, t, node, pcb, current, -, rfl⟩
  · exact ⟨⟨⟨rfl, rfl, rfl⟩, rfl, fun _ => rfl, fun _ => rfl⟩, fun _ => .inl rfl⟩
  · refine ⟨sameTasks_setSleep .., fun u => ?_⟩
    by_cases ut : u = t
    · exact .inr (ut ▸ current)
    · exact .inl (by simp [ut])

theorem semSignal_sameTasks (h : semSignal k s = some k') :
    SameTasks k k' ∧ ∀ t, (k'.task t).sleep = (k.task t).sleep ∨ (k'.task t).sleep = 0 := by
  rcases semSignal_cases h with ⟨-, rfl⟩ | ⟨-, ptr, node, pcb, -, -, rfl⟩
  · exact ⟨⟨⟨rfl, rfl, rfl⟩, rfl, fun _ => rfl, fun _ => rfl⟩, fun _ => .inl rfl⟩
  · refine ⟨sameTasks_setSleep .., fun u => ?_⟩
    by_cases ut : u = (k.node ptr).task
    · exact .inr (by simp [ut])
    · exact .inl (by simp [ut])

omit [DecidableEq Sem] in
theorem kmtCreate_task (k : Kernel Cpu Sem Ctx) (t : TaskPtr Cpu) (context : Ctx) (rand : Nat) (u : TaskPtr Cpu) :
    (((kmtCreate k t context rand).task u).run = if u = t then 0 else (k.task u).run) ∧
      (((kmtCreate k t context rand).task u).sleep = if u = t then 0 else (k.task u).sleep) ∧
      (((kmtCreate k t context rand).task u).context = if u = t then context else (k.task u).context) := by
  by_cases ut : u = t <;> simp [kmtCreate, ut]

omit [DecidableEq Sem] in
theorem kmtCreate_tasks (k : Kernel Cpu Sem Ctx) (t : TaskPtr Cpu) (context : Ctx) (rand i : Nat) (u : TaskPtr Cpu)
    (entry : (kmtCreate k t context rand).tasks i = some u) : u = t ∨ k.tasks i = some u := by
  unfold kmtCreate at entry
  simp only [update_apply] at entry
  split at entry
  · exact .inl (Option.some.inj entry).symm
  · exact .inr entry

/-! ### The invariant -/

/-- The task is the one that the CPU runs or that it switched out at its last trap. -/
def Owns (k : Kernel Cpu Sem Ctx) (c : Cpu) (t : TaskPtr Cpu) : Prop :=
  k.cputask c = some t ∨ k.cputaskLast c = some t

structure SchedInv (st : State Cpu Sem Ctx) : Prop where
  run : ∀ c t, Owns st.kernel c t → (st.kernel.task t).run = 1
  unique : ∀ c d t, Owns st.kernel c t → Owns st.kernel d t → c = d
  default : ∀ c d, Owns st.kernel c (.cpudefault d) → c = d
  created : ∀ c n, Owns st.kernel c (.task n) → st.created (.task n) = true
  table : ∀ i t, st.kernel.tasks i = some t → ∃ n, t = .task n ∧ st.created t = true
  resumed : ∀ c, st.resumed c = (st.kernel.cputask c).getD (.cpudefault c)
  context : ∀ t, (st.kernel.task t).context = st.lastTrap t
  started : ∀ c, st.kernel.notdefault c = false → st.kernel.cputask c = none
  first : ∀ c, st.kernel.notdefault c = true → st.kernel.cputask c = none → st.lockOs = some c
  begun : ∀ c, st.lockOs = some c → st.kernel.notdefault c = true
  awake : ∀ c, (st.kernel.task (.cpudefault c)).sleep = 0

omit [DecidableEq Cpu] [DecidableEq Sem] in
theorem booted_inv {v : Sem → Int} {st : State Cpu Sem Ctx} (h : Booted v st) : SchedInv st := by
  have free (c : Cpu) (t : TaskPtr Cpu) : ¬ Owns st.kernel c t := by
    rintro (current | last)
    · simp [h.cputask] at current
    · simp [h.cputaskLast] at last
  refine ⟨fun c t o => absurd o (free c t), fun c d t o => absurd o (free c t), fun c d o => absurd o (free _ _),
    fun c n o => absurd o (free _ _), ?_, ?_, fun t => (h.lastTrap t).symm, ?_, ?_, ?_, fun c => (h.awake c).2⟩
  · intro i t entry; simp [h.tasks] at entry
  · intro c; rw [h.resumed, h.cputask]; rfl
  · intro c _; rw [h.cputask]
  · intro c started; simp [h.notdefault] at started
  · intro c held; simp [h.lockOs] at held

omit [DecidableEq Cpu] [DecidableEq Sem] in
theorem SchedInv.sameTasks {st : State Cpu Sem Ctx} (I : SchedInv st) (same : SameTasks st.kernel k)
    (awake : ∀ c, (k.task (.cpudefault c)).sleep = 0) (phase : TaskPtr Cpu → Phase Sem)
    (signalled : TaskPtr Cpu → Bool) (calls : Sem → List (TaskPtr Cpu)) (waits returns signals : Sem → Nat) :
    SchedInv { st with
      kernel := k, phase := phase, signalled := signalled, calls := calls, waits := waits, returns := returns
      signals := signals } := by
  have owns (c : Cpu) (t : TaskPtr Cpu) : Owns k c t ↔ Owns st.kernel c t := by
    unfold Owns; rw [same.cputask, same.cputaskLast]
  refine ⟨?_, ?_, ?_, ?_, ?_, ?_, ?_, ?_, ?_, ?_, awake⟩
  · intro c t o; rw [same.run]; exact I.run c t ((owns c t).mp o)
  · intro c d t o o'; exact I.unique c d t ((owns c t).mp o) ((owns d t).mp o')
  · intro c d o; exact I.default c d ((owns _ _).mp o)
  · intro c n o; exact I.created c n ((owns _ _).mp o)
  · intro i t entry; rw [same.tasks] at entry; exact I.table i t entry
  · intro c; simp only [same.cputask]; exact I.resumed c
  · intro t; rw [same.context]; exact I.context t
  · intro c; simp only [same.cputask, same.notdefault]; exact I.started c
  · intro c; simp only [same.cputask, same.notdefault]; exact I.first c
  · intro c; simp only [same.notdefault]; exact I.begun c

omit [DecidableEq Sem] in
theorem SchedInv.save {st : State Cpu Sem Ctx} (I : SchedInv st) (unlocked : st.lockOs = none)
    (saved : Saved st.kernel k c context) (phase : TaskPtr Cpu → Phase Sem) :
    SchedInv { st with
      kernel := k, lockOs := some c, lastTrap := update st.lastTrap (st.resumed c) context, phase := phase } := by
  have owns {d : Cpu} {t : TaskPtr Cpu} (o : Owns k d t) : Owns st.kernel d t := by
    unfold Owns at o
    rw [saved.cputask, saved.cputaskLast, update_apply] at o
    rcases o with current | last
    · exact .inl current
    · split at last
      · rename_i dc; exact .inl (dc ▸ last)
      · exact .inr last
  have kept {d : Cpu} {t : TaskPtr Cpu} (o : Owns k d t) :
      ¬ (st.kernel.cputaskLast c = some t ∧ st.kernel.cputask c ≠ some t) := by
    rintro ⟨last, other⟩
    obtain rfl := I.unique c d t (.inr last) (owns o)
    unfold Owns at o
    rw [saved.cputask, saved.cputaskLast, update_self, or_self] at o
    exact other o
  refine ⟨?_, ?_, ?_, ?_, ?_, ?_, ?_, ?_, ?_, ?_, ?_⟩
  · intro d t o
    rw [saved.run, if_neg (kept o)]
    exact I.run d t (owns o)
  · intro d e t o o'; exact I.unique d e t (owns o) (owns o')
  · intro d e o; exact I.default d e (owns o)
  · intro d n o; exact I.created d n (owns o)
  · intro i t entry; rw [saved.tasks] at entry; exact I.table i t entry
  · intro d; simp only [saved.cputask]; exact I.resumed d
  · intro t
    -- the task that was running on the CPU is the one whose record takes the context
    have running : (st.kernel.cputask c = some t ∨ (t = .cpudefault c ∧ st.kernel.notdefault c = false)) ↔
        t = st.resumed c := by
      rw [I.resumed]
      cases current : st.kernel.cputask c with
      | none =>
        have notYet : st.kernel.notdefault c = false := by
          by_contra done
          have := I.first c (by simpa using done) current
          rw [unlocked] at this; cases this
        simp [notYet]
      | some u =>
        have done : st.kernel.notdefault c ≠ false := fun no => by
          rw [I.started c no] at current; cases current
        simp [done, eq_comm]
    simp only [saved.context, update_apply]
    by_cases h : t = st.resumed c
    · rw [if_pos (running.mpr h), if_pos h]
    · rw [if_neg (mt running.mp h), if_neg h]; exact I.context t
  · intro d no
    simp only [saved.notdefault, saved.cputask, update_apply] at no ⊢
    split at no
    · cases no
    · exact I.started d no
  · intro d yes none
    simp only [saved.notdefault, saved.cputask, update_apply] at yes none ⊢
    split at yes
    · rename_i dc; rw [dc]
    · have := I.first d yes none
      rw [unlocked] at this; cases this
  · intro d held
    obtain rfl := Option.some.inj held
    simp only [saved.notdefault, update_self]
  · intro d; rw [saved.sleep]; exact I.awake d

omit [DecidableEq Cpu] [DecidableEq Sem] in
/-- No other CPU owns the task that is dispatched. -/
theorem SchedInv.dispatch_free {st : State Cpu Sem Ctx} (I : SchedInv st)
    (free : t = .cpudefault c ∨ (∃ i, st.kernel.tasks i = some t) ∧ (st.kernel.task t).run = 0 ∧
      (st.kernel.task t).sleep = 0) {d : Cpu} (o : Owns st.kernel d t) : d = c := by
  rcases free with rfl | ⟨-, idle, -⟩
  · exact I.default d c o
  · rw [I.run d t o] at idle; cases idle

omit [DecidableEq Sem] in
theorem SchedInv.switch {st : State Cpu Sem Ctx} (I : SchedInv st) (held : st.lockOs = some c)
    (free : t = .cpudefault c ∨ (∃ i, st.kernel.tasks i = some t) ∧ (st.kernel.task t).run = 0 ∧
      (st.kernel.task t).sleep = 0) :
    SchedInv { st with
      kernel := st.kernel.dispatch c t, lockOs := none, resumed := update st.resumed c t } := by
  have owns {d : Cpu} {u : TaskPtr Cpu} (o : Owns (st.kernel.dispatch c t) d u) :
      Owns st.kernel d u ∨ (d = c ∧ u = t) := by
    rcases o with current | last
    · simp only [Kernel.dispatch, update_apply] at current
      split at current
      · rename_i dc; exact .inr ⟨dc, (Option.some.inj current).symm⟩
      · exact .inl (.inl current)
    · exact .inl (.inr last)
  have task (u : TaskPtr Cpu) : (((st.kernel.dispatch c t).task u).run = if u = t then 1 else (st.kernel.task u).run) ∧
      ((st.kernel.dispatch c t).task u).sleep = (st.kernel.task u).sleep ∧
      ((st.kernel.dispatch c t).task u).context = (st.kernel.task u).context := by
    by_cases ut : u = t <;> simp [Kernel.dispatch, ut]
  refine ⟨?_, ?_, ?_, ?_, I.table, ?_, ?_, ?_, ?_, ?_, ?_⟩
  · intro d u o
    rw [(task u).1]
    split
    · rfl
    · rename_i ut
      rcases owns o with o | ⟨-, rfl⟩
      · exact I.run d u o
      · exact absurd rfl ut
  · intro d e u o o'
    rcases owns o with old | ⟨rfl, rfl⟩ <;> rcases owns o' with old' | ⟨rfl, same⟩
    · exact I.unique d e u old old'
    · subst same; exact I.dispatch_free free old
    · exact (I.dispatch_free free old').symm
    · rfl
  · intro d e o
    rcases owns o with o | ⟨rfl, rfl⟩
    · exact I.default d e o
    · rcases free with same | ⟨⟨i, entry⟩, -⟩
      · exact (TaskPtr.cpudefault.inj same).symm
      · obtain ⟨n, same, -⟩ := I.table i _ entry; cases same
  · intro d n o
    rcases owns o with o | ⟨rfl, rfl⟩
    · exact I.created d n o
    · rcases free with same | ⟨⟨i, entry⟩, -⟩
      · cases same
      · obtain ⟨n, same, created⟩ := I.table i _ entry; exact created
  · intro d
    simp only [Kernel.dispatch, update_apply]
    split
    · rfl
    · exact I.resumed d
  · intro u; rw [(task u).2.2]; exact I.context u
  · intro d no
    change st.kernel.notdefault d = false at no
    have dc : d ≠ c := by rintro rfl; rw [I.begun d held] at no; cases no
    simp only [Kernel.dispatch, update_of_ne dc]
    exact I.started d no
  · intro d yes none
    simp only [Kernel.dispatch, update_apply] at none
    split at none
    · cases none
    · rename_i dc
      have := I.first d yes none
      rw [held] at this
      exact absurd (Option.some.inj this).symm dc
  · intro d held; cases held
  · intro d; rw [(task _).2.1]; exact I.awake d

omit [DecidableEq Sem] in
theorem SchedInv.create {st : State Cpu Sem Ctx} {n rand : Nat} (I : SchedInv st)
    (fresh : st.created (.task n) = false) :
    SchedInv { st with
      kernel := kmtCreate st.kernel (.task n) context rand
      created := update st.created (.task n) true
      lastTrap := update st.lastTrap (.task n) context } := by
  have task := kmtCreate_task st.kernel (.task n) context rand
  have owned {c : Cpu} {t : TaskPtr Cpu} (o : Owns st.kernel c t) : t ≠ .task n := by
    rintro rfl
    rw [I.created c n o] at fresh; cases fresh
  refine ⟨?_, I.unique, I.default, ?_, ?_, I.resumed, ?_, I.started, I.first, I.begun, ?_⟩
  · intro c t o
    rw [(task t).1, if_neg (owned o)]
    exact I.run c t o
  · intro c m o
    simp only [update_of_ne (owned o)]
    exact I.created c m o
  · intro i t entry
    rcases kmtCreate_tasks _ _ _ _ _ _ entry with rfl | old
    · exact ⟨n, rfl, update_self ..⟩
    · obtain ⟨m, rfl, created⟩ := I.table i t old
      refine ⟨m, rfl, ?_⟩
      simp only [update_apply]
      split
      · rfl
      · exact created
  · intro t
    simp only [(task t).2.2, update_apply]
    split
    · rfl
    · exact I.context t
  · intro c
    rw [(task _).2.1, if_neg (by simp)]
    exact I.awake c

omit [DecidableEq Cpu] [DecidableEq Sem] in
theorem SchedInv.cputask_of_resumed {st : State Cpu Sem Ctx} {n : Nat} (I : SchedInv st)
    (scheduled : st.resumed c = .task n) : st.kernel.cputask c = some (.task n) := by
  rw [I.resumed] at scheduled
  cases current : st.kernel.cputask c with
  | none => rw [current] at scheduled; cases scheduled
  | some t => rw [current] at scheduled; exact congrArg some scheduled

theorem step_sched {st st' : State Cpu Sem Ctx} {l : Label Cpu Sem Ctx} (I : SchedInv st) (step : Step st l st') :
    SchedInv st' := by
  cases step with
  | error => exact I
  | save unlocked proper saved => exact I.save unlocked (kmtContextSave_saved saved) _
  | switch held chosen =>
    obtain ⟨rfl, -, free⟩ := kmtContextSwitch_cases chosen
    exact I.switch held free
  | create fresh => exact I.create fresh
  | wait outside scheduled idle alloc locked =>
    obtain ⟨same, sleep⟩ := semWait_sameTasks locked
    refine I.sameTasks same (fun d => ?_) _ _ _ _ _ _
    rcases sleep (.cpudefault d) with kept | current
    · rw [kept]; exact I.awake d
    · rw [I.cputask_of_resumed scheduled] at current; cases current
  | leave outside done => exact I.sameTasks ⟨⟨rfl, rfl, rfl⟩, rfl, fun _ => rfl, fun _ => rfl⟩ I.awake _ _ _ _ _ _
  | signal locked =>
    obtain ⟨same, sleep⟩ := semSignal_sameTasks locked
    refine I.sameTasks same (fun d => ?_) _ _ _ _ _ _
    rcases sleep (.cpudefault d) with kept | awake
    · rw [kept]; exact I.awake d
    · exact awake

theorem reachable_sched {v : Sem → Int} {st : State Cpu Sem Ctx} (run : (kernelMachine v).Reachable st) :
    SchedInv st :=
  run.induct SchedInv (fun _ => booted_inv) fun _ _ _ => step_sched

/-- No task runs on two CPUs, and what a switch hands back was saved at the task's last trap, is
awake and is not in the hands of another CPU. -/
structure Exclusive (st : State Cpu Sem Ctx) : Prop where
  single : ∀ i t c d, st.kernel.tasks i = some t → st.kernel.cputask c = some t →
    st.kernel.cputask d = some t → c = d
  chosen : ∀ c t context st', Step st (.switch c t context) st' →
    (∀ d, d ≠ c → st.kernel.cputask d ≠ some t ∧ st.kernel.cputaskLast d ≠ some t) ∧
      (st.kernel.task t).sleep = 0 ∧ context = st.lastTrap t

theorem reachable_exclusive {v : Sem → Int} {st : State Cpu Sem Ctx} (run : (kernelMachine v).Reachable st) :
    Exclusive st := by
  have I := reachable_sched run
  refine ⟨fun i t c d _ hc hd => I.unique c d t (.inl hc) (.inl hd), fun c t context st' step => ?_⟩
  cases step with
  | switch held chosen =>
    obtain ⟨rfl, rfl, free⟩ := kmtContextSwitch_cases chosen
    refine ⟨fun d dc => ⟨fun current => dc ?_, fun last => dc ?_⟩, ?_, I.context t⟩
    · exact I.dispatch_free free (.inl current)
    · exact I.dispatch_free free (.inr last)
    · rcases free with rfl | ⟨-, -, awake⟩
      · exact I.awake c
      · exact awake

def sampleBoot (v : Int) : State Bool Unit Nat where
  kernel := {
    task := fun _ => ⟨0, 0, 0, 0⟩
    tasks := fun _ => none
    cntTasks := 0
    cputask := fun _ => none
    cputaskLast := fun _ => none
    notdefault := fun _ => false
    sem := fun _ => ⟨v, 0, 0⟩
    node := fun _ => ⟨.task 0, 0, 0⟩
    nodes := [] }
  lockOs := none
  created := fun _ => false
  resumed := .cpudefault
  lastTrap := fun _ => 0
  phase := fun _ => .code
  signalled := fun _ => false
  calls := fun _ => []
  waits := fun _ => 0
  returns := fun _ => 0
  signals := fun _ => 0

theorem sampleBoot_booted (v : Int) : Booted (fun _ => v) (sampleBoot v) :=
  ⟨rfl, rfl, rfl, rfl, fun _ => ⟨rfl, rfl⟩, rfl, rfl, rfl, rfl, fun _ => rfl, rfl, rfl, rfl, rfl, rfl⟩

/-- A task is created, and the first CPU switches to it at the end of its first trap. -/
theorem reachable_exclusive_sample : ∃ st : State Bool Unit Nat,
    st.kernel.cputask false = some (.task 0) ∧ st.lockOs = none ∧ Exclusive st := by
  have boot : (kernelMachine fun _ => 1).Reachable (sampleBoot 1) := .init (sampleBoot_booted 1)
  have created := boot.step (@Step.create Bool Unit Nat _ _ _ 0 3 5 rfl)
  have trapped := created.step (@Step.save Bool Unit Nat _ _ _ _ false .yield 7 rfl (by decide) rfl)
  have switched := trapped.step (@Step.switch Bool Unit Nat _ _ _ _ false 2 _ _ rfl rfl)
  exact ⟨_, by decide +kernel, rfl, reachable_exclusive switched⟩

end OsLabs.Kmt

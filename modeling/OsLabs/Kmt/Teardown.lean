import OsLabs.Kmt.Semaphore
import OsLabs.Kmt.Tasks

/-!
# Tasks that were torn down

The machine of the scheduler and the semaphores with `kmt_teardown` as a further
call. A task that neither runs nor sleeps when it leaves the table has no other
reference, and none can come back.
-/

namespace OsLabs.Kmt
open Function

variable {Cpu Sem Ctx : Type} [DecidableEq Cpu] [DecidableEq Sem]
  {k k' : Kernel Cpu Sem Ctx} {c : Cpu} {sem : Sem} {context : Ctx}

/-! ### Slots -/

omit [DecidableEq Sem] in
theorem kmtContextSave_id (h : kmtContextSave k c context = some k') (t : TaskPtr Cpu) :
    (k'.task t).id = (k.task t).id := by
  obtain ⟨task₁, eq₁, spec₁⟩ := releaseLast_task k c
  obtain ⟨task₂, eq₂, spec₂⟩ := saveDefault_task (releaseLast k c) c context
  simp only [eq₁] at eq₂ spec₂
  simp only [kmtContextSave, eq₁, eq₂] at h
  split at h
  · obtain rfl := Option.some.inj h
    simp [spec₁, spec₂]
  · rename_i u current
    split at h
    · obtain rfl := Option.some.inj h
      by_cases same : t = u <;> simp [spec₁, spec₂, same]
    · cases h

theorem semWait_id {s : Sem} {tasknode : Nat} {blocked : Bool} (h : semWait k c s tasknode = some (k', blocked))
    (t : TaskPtr Cpu) : (k'.task t).id = (k.task t).id := by
  rcases semWait_cases h with ⟨-, -, rfl⟩ | ⟨-, -, u, node, pcb, -, -, rfl⟩
  · rfl
  · by_cases same : t = u <;> simp [same]

theorem semSignal_id {s : Sem} (h : semSignal k s = some k') (t : TaskPtr Cpu) : (k'.task t).id = (k.task t).id := by
  rcases semSignal_cases h with ⟨-, rfl⟩ | ⟨-, ptr, node, pcb, -, -, rfl⟩
  · rfl
  · by_cases same : t = (k.node ptr).task <;> simp [same]

/-- Each task of the table stands in the slot of its id. -/
def Slotted (k : Kernel Cpu Sem Ctx) : Prop := ∀ i t, k.tasks i = some t → (k.task t).id = i

omit [DecidableEq Cpu] [DecidableEq Sem] in
theorem Slotted.congr (h : Slotted k) (tasks : k'.tasks = k.tasks) (id : ∀ t, (k'.task t).id = (k.task t).id) :
    Slotted k' := by
  intro i t entry
  rw [tasks] at entry
  rw [id]
  exact h i t entry

omit [DecidableEq Sem] in
theorem Slotted.createLocked {t : TaskPtr Cpu} {rand : Nat} (h : Slotted k) (new : ∀ i, k.tasks i ≠ some t) :
    Slotted (kmtCreateLocked k t rand) := by
  intro i u entry
  simp only [kmtCreateLocked, Kernel.setTask] at entry ⊢
  rw [update_apply] at entry ⊢
  split at entry
  · rename_i here
    rw [if_pos (Option.some.inj entry).symm, here]
  · have other : u ≠ t := by
      rintro rfl
      exact new i entry
    rw [if_neg other]
    exact h i u entry

omit [DecidableEq Sem] in
theorem Slotted.create {t : TaskPtr Cpu} {rand : Nat} (h : Slotted k) (new : ∀ i, k.tasks i ≠ some t) :
    Slotted (kmtCreate k t context rand) := by
  rw [kmtCreate_eq]
  refine Slotted.createLocked (h.congr rfl fun u => ?_) new
  by_cases same : u = t <;> simp [kmtCreateInit, same]

theorem step_slotted {st st' : State Cpu Sem Ctx} {l : Label Cpu Sem Ctx} (J : SchedInv st) (h : Slotted st.kernel)
    (step : Step st l st') : Slotted st'.kernel := by
  cases step with
  | error => exact h
  | save unlocked proper saved => exact h.congr (kmtContextSave_saved saved).tasks (kmtContextSave_id saved)
  | @switch k c rand t context held chosen =>
    obtain ⟨rfl, -, -⟩ := kmtContextSwitch_cases chosen
    refine h.congr rfl fun u => ?_
    by_cases same : u = t <;> simp [Kernel.dispatch, same]
  | create fresh =>
    apply h.create
    intro i entry
    obtain ⟨m, -, created⟩ := J.table i _ entry
    rw [fresh] at created
    cases created
  | wait outside scheduled idle alloc locked => exact h.congr (semWait_sameTasks locked).1.tasks (semWait_id locked)
  | leave outside done => exact h
  | signal locked => exact h.congr (semSignal_sameTasks locked).1.tasks (semSignal_id locked)

omit [DecidableEq Cpu] [DecidableEq Sem] in
theorem Slotted.teardown {t : TaskPtr Cpu} (h : Slotted k) :
    Slotted (kmtTeardown k t) ∧ ∀ i, (kmtTeardown k t).tasks i ≠ some t := by
  have entry {i : Nat} {u : TaskPtr Cpu} (there : (kmtTeardown k t).tasks i = some u) :
      k.tasks i = some u ∧ i ≠ (k.task t).id := by
    simp only [kmtTeardown, update_apply] at there
    split at there
    · cases there
    · rename_i other
      exact ⟨there, other⟩
  refine ⟨fun i u there => h i u (entry there).1, fun i there => ?_⟩
  obtain ⟨before, other⟩ := entry there
  exact other (h i t before).symm

/-! ### A task without references -/

/-- The task was created, is not in the table, and neither runs nor sleeps. -/
structure Gone (st : State Cpu Sem Ctx) (n : Nat) : Prop where
  created : st.created (.task n) = true
  table : ∀ i, st.kernel.tasks i ≠ some (.task n)
  run : (st.kernel.task (.task n)).run = 0
  sleep : (st.kernel.task (.task n)).sleep = 0

section Gone

variable {st st' : State Cpu Sem Ctx} {l : Label Cpu Sem Ctx} {n : Nat} {w : Sem → List (TaskPtr Cpu)}

omit [DecidableEq Cpu] [DecidableEq Sem] in
theorem Gone.free (G : Gone st n) (J : SchedInv st) (c : Cpu) : ¬Owns st.kernel c (.task n) := by
  intro owned
  have running := J.run c _ owned
  rw [G.run] at running
  cases running

omit [DecidableEq Cpu] [DecidableEq Sem] in
theorem Gone.unqueued (G : Gone st n) (I : SemInv st w) (sem : Sem) : TaskPtr.task n ∉ w sem := by
  intro queued
  have asleep := I.asleep sem _ queued
  rw [G.sleep] at asleep
  cases asleep

omit [DecidableEq Cpu] [DecidableEq Sem] in
theorem Task.eq_of {a b : Task Ctx} (context : a.context = b.context) (run : a.run = b.run) (id : a.id = b.id)
    (sleep : a.sleep = b.sleep) : a = b := by
  cases a
  cases b
  simp_all

omit [DecidableEq Sem] in
theorem Gone.unchosen {rand : Nat} {t : TaskPtr Cpu} (G : Gone st n)
    (chosen : kmtContextSwitch st.kernel c rand = (k, t, context)) : t ≠ .task n := by
  rintro rfl
  obtain ⟨-, -, idle | ⟨⟨i, entry⟩, -⟩⟩ := kmtContextSwitch_cases chosen
  · cases idle
  · exact G.table i entry

/-- No step uses the task's record. -/
theorem Gone.untouched (G : Gone st n) (J : SchedInv st) (step : Step st l st') :
    st'.kernel.task (.task n) = st.kernel.task (.task n) := by
  cases step with
  | error => rfl
  | @save k c ev context unlocked proper saved =>
    have S := kmtContextSave_saved saved
    have notCurrent : st.kernel.cputask c ≠ some (.task n) := fun current => G.free J c (.inl current)
    have notLast : st.kernel.cputaskLast c ≠ some (.task n) := fun last => G.free J c (.inr last)
    refine Task.eq_of ?_ ?_ (kmtContextSave_id saved _) (S.sleep _)
    · rw [S.context, if_neg]
      rintro (current | ⟨idle, -⟩)
      · exact notCurrent current
      · cases idle
    · rw [S.run, if_neg fun h => notLast h.1]
  | @switch k c rand t context held chosen =>
    have other := G.unchosen chosen
    obtain ⟨rfl, -, -⟩ := kmtContextSwitch_cases chosen
    simp only [Kernel.dispatch, Kernel.setTask_task]
    rw [if_neg other.symm]
  | @create m rand context fresh =>
    have other : TaskPtr.task n ≠ (.task m : TaskPtr Cpu) := by
      intro same
      rw [← same, G.created] at fresh
      cases fresh
    simp [kmtCreate, other]
  | @wait k c s m tasknode blocked outside scheduled idle alloc locked =>
    obtain ⟨same, sleep⟩ := semWait_sameTasks locked
    apply Task.eq_of (same.context _) (same.run _) (semWait_id locked _)
    exact (sleep _).resolve_right fun current => G.free J c (.inl current)
  | leave outside done => rfl
  | signal locked =>
    obtain ⟨same, sleep⟩ := semSignal_sameTasks locked
    apply Task.eq_of (same.context _) (same.run _) (semSignal_id locked _)
    exact (sleep _).elim id fun awake => awake.trans G.sleep.symm

theorem Gone.step (G : Gone st n) (J : SchedInv st) (step : Step st l st') : Gone st' n := by
  have same := G.untouched J step
  have stays : st'.created (.task n) = true ∧ ∀ i, st'.kernel.tasks i ≠ some (.task n) := by
    cases step with
    | error => exact ⟨G.created, G.table⟩
    | save unlocked proper saved => exact ⟨G.created, by rw [(kmtContextSave_saved saved).tasks]; exact G.table⟩
    | switch held chosen =>
      obtain ⟨rfl, -, -⟩ := kmtContextSwitch_cases chosen
      exact ⟨G.created, G.table⟩
    | @create m rand context fresh =>
      have other : TaskPtr.task n ≠ (.task m : TaskPtr Cpu) := by
        intro same
        rw [← same, G.created] at fresh
        cases fresh
      refine ⟨(update_of_ne other ..).trans G.created, fun i entry => ?_⟩
      rcases kmtCreate_tasks _ _ _ _ _ _ entry with new | old
      · exact other new
      · exact G.table i old
    | wait outside scheduled idle alloc locked =>
      exact ⟨G.created, by rw [(semWait_sameTasks locked).1.tasks]; exact G.table⟩
    | leave outside done => exact ⟨G.created, G.table⟩
    | signal locked => exact ⟨G.created, by rw [(semSignal_sameTasks locked).1.tasks]; exact G.table⟩
  exact ⟨stays.1, stays.2, by rw [same]; exact G.run, by rw [same]; exact G.sleep⟩

end Gone

/-! ### Runs -/

namespace Teardown

/-- The machine's state, the tasks whose stack `kmt_teardown` has freed, and those for which it has returned. -/
structure State (Cpu Sem Ctx : Type) where
  base : Kmt.State Cpu Sem Ctx
  freed : Nat → Bool
  torn : Nat → Bool

inductive Label (Cpu Sem Ctx : Type) where
  | base (l : Kmt.Label Cpu Sem Ctx)
  | free (n : Nat)
  | remove (n : Nat)

def withoutTask (st : Kmt.State Cpu Sem Ctx) (n : Nat) : Kmt.State Cpu Sem Ctx :=
  { st with kernel := kmtTeardown st.kernel (.task n) }

/-- `P` is what is asked of the state in which `kmt_teardown` enters its section. -/
inductive Step (P : Kernel Cpu Sem Ctx → TaskPtr Cpu → Prop) :
    State Cpu Sem Ctx → Label Cpu Sem Ctx → State Cpu Sem Ctx → Prop
  | base {s : State Cpu Sem Ctx} {l : Kmt.Label Cpu Sem Ctx} {st : Kmt.State Cpu Sem Ctx}
      (step : Kmt.Step s.base l st) :
      Step P s (.base l) { s with base := st }
  | free {s : State Cpu Sem Ctx} {n : Nat} (created : s.base.created (.task n) = true) (once : s.freed n = false) :
      Step P s (.free n) { s with freed := update s.freed n true }
  | remove {s : State Cpu Sem Ctx} {n : Nat} (created : s.base.created (.task n) = true) (called : s.freed n = true)
      (once : s.torn n = false) (allowed : P s.base.kernel (.task n)) :
      Step P s (.remove n) { s with base := withoutTask s.base n, torn := update s.torn n true }

/-- After `kmt_init` and the `sem_init` of every semaphore. -/
def machine (P : Kernel Cpu Sem Ctx → TaskPtr Cpu → Prop) (v : Sem → Nat) :
    Machine (State Cpu Sem Ctx) (Label Cpu Sem Ctx) where
  Init s := Booted (fun sem => v sem) s.base ∧ ∀ n, s.freed n = false ∧ s.torn n = false
  Step := Step P

def Idle (k : Kernel Cpu Sem Ctx) (t : TaskPtr Cpu) : Prop := (k.task t).run = 0 ∧ (k.task t).sleep = 0

/-- No CPU and no queue has the task, and no step uses it or its context. -/
structure Abandoned (P : Kernel Cpu Sem Ctx → TaskPtr Cpu → Prop) (s : State Cpu Sem Ctx) (n : Nat) : Prop where
  cpus : ∀ c, s.base.kernel.cputask c ≠ some (.task n) ∧ s.base.kernel.cputaskLast c ≠ some (.task n)
  queues : ∃ w, Queues s.base.kernel w ∧ ∀ sem, TaskPtr.task n ∉ w sem
  untouched : ∀ l s', Step P s l s' → s'.base.kernel.task (.task n) = s.base.kernel.task (.task n)
  unchosen : ∀ c context s', ¬Step P s (.base (.switch c (.task n) context)) s'

def Right (P : Kernel Cpu Sem Ctx → TaskPtr Cpu → Prop) (s : State Cpu Sem Ctx) : Prop :=
  ∀ n, s.torn n = true → Abandoned P s n

variable {P : Kernel Cpu Sem Ctx → TaskPtr Cpu → Prop} {v : Sem → Nat} {s s' : State Cpu Sem Ctx}
  {l : Label Cpu Sem Ctx}

structure Inv (s : State Cpu Sem Ctx) : Prop where
  sched : SchedInv s.base
  sems : ∃ w, SemInv s.base w
  slotted : Slotted s.base.kernel
  gone : ∀ n, s.torn n = true → Gone s.base n

omit [DecidableEq Cpu] [DecidableEq Sem] in
theorem sched_without {st : Kmt.State Cpu Sem Ctx} (J : SchedInv st) (n : Nat) : SchedInv (withoutTask st n) := by
  refine ⟨J.run, J.unique, J.default, J.created, ?_, J.resumed, J.context, J.started, J.first, J.begun, J.awake⟩
  intro i t entry
  simp only [withoutTask, kmtTeardown, update_apply] at entry
  split at entry
  · cases entry
  · exact J.table i t entry

omit [DecidableEq Cpu] [DecidableEq Sem] in
theorem sems_without {st : Kmt.State Cpu Sem Ctx} {w : Sem → List (TaskPtr Cpu)} (I : SemInv st w) (n : Nat) :
    SemInv (withoutTask st n) w :=
  ⟨I.queues.congr rfl rfl fun _ => rfl, I.counted, I.nodup, I.asleep, I.awake, I.blocked, I.running,
    I.created, I.called,
    I.inCall, I.returned⟩

omit [DecidableEq Cpu] [DecidableEq Sem] in
theorem inv_init (booted : Booted (fun sem => (v sem : Int)) s.base) (none_torn : ∀ n, s.torn n = false) : Inv s := by
  refine ⟨booted_inv booted, ⟨_, SemInv.booted booted⟩, ?_, ?_⟩
  · intro i t entry
    rw [booted.tasks] at entry
    cases entry
  · intro n torn
    rw [none_torn] at torn
    cases torn

theorem inv_step (inv : Inv s) (step : Step Idle s l s') : Inv s' := by
  obtain ⟨J, sems, slotted, gone⟩ := inv
  cases step with
  | base step =>
    exact ⟨step_sched J step, step_sem J sems step, step_slotted J slotted step,
      fun n torn => (gone n torn).step J step⟩
  | free created once => exact ⟨J, sems, slotted, gone⟩
  | @remove n created called once idle =>
    obtain ⟨w, I⟩ := sems
    obtain ⟨slotted', out⟩ := slotted.teardown (t := .task n)
    refine ⟨sched_without J n, ⟨w, sems_without I n⟩, slotted', fun m torn => ?_⟩
    simp only [update_apply] at torn
    split at torn
    · rename_i same
      subst same
      exact ⟨created, out, idle.1, idle.2⟩
    · obtain ⟨created', table, run, sleep⟩ := gone m torn
      refine ⟨created', fun i entry => ?_, run, sleep⟩
      simp only [withoutTask, kmtTeardown, update_apply] at entry
      split at entry
      · cases entry
      · exact table i entry

/-- While `kmt_teardown` enters its section only with tasks that neither run nor sleep, a task for which it has
returned is out of every hand. -/
theorem reachable_abandoned (run : (machine Idle v : Machine (State Cpu Sem Ctx) _).Reachable s) : Right Idle s := by
  have inv : Inv s := by
    refine run.induct Inv ?_ fun _ _ _ => inv_step
    rintro s ⟨booted, fresh⟩
    exact inv_init booted fun n => (fresh n).2
  obtain ⟨J, ⟨w, I⟩, slotted, gone⟩ := inv
  intro n torn
  have G := gone n torn
  refine ⟨fun c => ⟨fun current => G.free J c (.inl current), fun last => G.free J c (.inr last)⟩,
    ⟨w, I.queues, G.unqueued I⟩, ?_, ?_⟩
  · intro l s' step
    cases step with
    | base step => exact G.untouched J step
    | free => rfl
    | remove => rfl
  · intro c context s' step
    cases step with
    | base step =>
      cases step with
      | switch held chosen => exact G.unchosen chosen rfl

/-- A task that no CPU has picked up yet is torn down. -/
theorem reachable_abandoned_sample : ∃ s : State Bool Unit Nat, s.torn 0 = true ∧ Right Idle s := by
  have boot : (machine Idle fun _ => 0 : Machine (State Bool Unit Nat) _).Reachable
      ⟨sampleBoot 0, fun _ => false, fun _ => false⟩ := .init ⟨sampleBoot_booted 0, fun _ => ⟨rfl, rfl⟩⟩
  have created := boot.step (.base (@Kmt.Step.create Bool Unit Nat _ _ _ 0 3 5 rfl))
  have freed := created.step (.free (n := 0) rfl rfl)
  have removed := freed.step (.remove (n := 0) rfl rfl rfl ⟨rfl, rfl⟩)
  exact ⟨_, rfl, reachable_abandoned removed⟩

/-- A task is torn down while a CPU runs it. -/
theorem reachable_abandoned_counterexample : ∃ s : State Bool Unit Nat,
    (machine (fun _ _ => True) fun _ => 0).Reachable s ∧ ¬Right (fun _ _ => True) s := by
  have boot : (machine (fun _ _ => True) fun _ => 0 : Machine (State Bool Unit Nat) _).Reachable
      ⟨sampleBoot 0, fun _ => false, fun _ => false⟩ := .init ⟨sampleBoot_booted 0, fun _ => ⟨rfl, rfl⟩⟩
  have created := boot.step (.base (@Kmt.Step.create Bool Unit Nat _ _ _ 0 3 5 rfl))
  have trapped := created.step (.base (@Kmt.Step.save Bool Unit Nat _ _ _ _ false .yield 7 rfl (by decide) rfl))
  have running := trapped.step (.base (@Kmt.Step.switch Bool Unit Nat _ _ _ _ _ 2 _ _ rfl
    (kmtContextSwitch_eq _ _ _ (.task 0) (by decide +kernel))))
  have freed := running.step (.free (n := 0) rfl rfl)
  have removed := freed.step (.remove (n := 0) rfl rfl rfl trivial)
  refine ⟨_, removed, fun right => ?_⟩
  exact ((right 0 rfl).cpus false).1 rfl

end Teardown

end OsLabs.Kmt

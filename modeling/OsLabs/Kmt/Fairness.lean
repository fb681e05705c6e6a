import OsLabs.Kmt.Teardown

/-!
# Tasks that wait for a CPU

The scan of `kmt_context_switch` starts after the id of the task that the CPU chose
last. A task that stays runnable comes nearer with each choice, whatever becomes of
the others, and the idle context is chosen only when no task is runnable.
-/

namespace OsLabs.Kmt
open Function

variable {Cpu Sem Ctx : Type} [DecidableEq Cpu] {k k' : Kernel Cpu Sem Ctx} {c : Cpu}
  {t u : TaskPtr Cpu} {context : Ctx}
  {seed rand n p : Nat}

/-! ### The scan -/

/-- What the scan asks of an entry. -/
def Ready (k : Kernel Cpu Sem Ctx) (t : TaskPtr Cpu) : Prop := (k.task t).run = 0 ∧ (k.task t).sleep = 0

theorem findSome?_range {α : Type} {f : Nat → Option α} {a : α} (found : (List.range n).findSome? f = some a) :
    ∃ i < n, f i = some a ∧ ∀ j < i, f j = none := by
  obtain ⟨l₁, i, l₂, split, here, before⟩ := List.findSome?_eq_some_iff.mp found
  have small : i < n := List.mem_range.mp (split ▸ by simp)
  have order : (l₁ ++ i :: l₂).Pairwise (· < ·) := split ▸ List.pairwise_lt_range
  refine ⟨i, small, here, fun j less => before j ?_⟩
  have mem : j ∈ l₁ ++ i :: l₂ := split ▸ List.mem_range.mpr (Nat.lt_trans less small)
  rcases List.mem_append.mp mem with first | later
  · exact first
  · rcases List.mem_cons.mp later with rfl | behind
    · exact absurd less (Nat.lt_irrefl j)
    · exact absurd ((List.pairwise_cons.mp (List.pairwise_append.mp order).2.1).1 j behind) (by omega)

omit [DecidableEq Cpu] in
/-- The scan stops at the first entry that is ready. -/
theorem runnable_first (found : runnable k seed = some u) : ∃ i < maxTask,
    k.tasks ((seed + i + 1) % maxTask) = some u ∧
      ∀ j < i, ∀ t, k.tasks ((seed + j + 1) % maxTask) = some t → ¬Ready k t := by
  obtain ⟨i, small, here, before⟩ := findSome?_range found
  refine ⟨i, small, ?_, fun j less t entry ready => ?_⟩
  · split at here
    · rename_i nxt entry
      split at here
      · rw [entry, Option.some.inj here]
      · cases here
    · cases here
  · have skipped := before j less
    simp only [entry] at skipped
    rw [if_pos (show _ ∧ _ from ready)] at skipped
    cases skipped

/-- The scan from `seed` comes to slot `p` after this many entries. -/
def ahead (seed p : Nat) : Nat := (p + (maxTask - (seed + 1) % maxTask)) % maxTask

theorem ahead_lt (seed p : Nat) : ahead seed p < maxTask := Nat.mod_lt _ (by decide)

theorem ahead_slot (small : p < maxTask) : (seed + ahead seed p + 1) % maxTask = p := by
  rw [Nat.add_right_comm]
  exact Tasks.add_mod_back (seed + 1) small

/-- From a slot that the scan passed before `p` it is not as far any more. -/
theorem ahead_next {i : Nat} (less : i < ahead seed p) :
    ahead ((seed + i + 1) % maxTask) p < ahead seed p := by
  simp only [ahead, maxTask] at *
  omega

omit [DecidableEq Cpu] in
theorem runnable_none (found : runnable k seed = none) (small : p < maxTask) (entry : k.tasks p = some t) :
    ¬Ready k t := by
  intro ready
  have skipped := List.findSome?_eq_none_iff.mp found (ahead seed p) (List.mem_range.mpr (ahead_lt seed p))
  simp only [ahead_slot small, entry] at skipped
  rw [if_pos (show _ ∧ _ from ready)] at skipped
  cases skipped

omit [DecidableEq Cpu] in
/-- A ready entry is chosen, or one that stands before it. -/
theorem runnable_near (small : p < maxTask) (entry : k.tasks p = some t) (ready : Ready k t) :
    runnable k seed = some t ∨ ∃ i < ahead seed p, ∃ u, runnable k seed = some u ∧
      k.tasks ((seed + i + 1) % maxTask) = some u := by
  cases found : runnable k seed with
  | none => exact absurd ready (runnable_none found small entry)
  | some u =>
    obtain ⟨i, -, here, before⟩ := runnable_first found
    rcases Nat.lt_trichotomy i (ahead seed p) with less | rfl | more
    · exact .inr ⟨i, less, u, rfl, here⟩
    · rw [ahead_slot small, entry] at here
      rw [Option.some.inj here]
      exact .inl rfl
    · exact absurd ready (before _ more t (by rw [ahead_slot small, entry]))

/-! ### Runs -/

/-- What happens between two calls on CPU `c`; the id of its current task stays. -/
inductive Between (c : Cpu) : Kernel Cpu Sem Ctx → Kernel Cpu Sem Ctx → Prop
  | others {k k' : Kernel Cpu Sem Ctx} (tasks : k'.tasks = k.tasks) (ids : ∀ t, (k'.task t).id = (k.task t).id)
      (current : k'.cputask c = k.cputask c) : Between c k k'
  | create {k : Kernel Cpu Sem Ctx} {m : Nat} (rand : Nat) (new : ∀ i, k.tasks i ≠ some (.task m))
      (kept : ∀ u, k.cputask c = some u → ((kmtCreateLocked k (.task m) rand).task u).id = (k.task u).id) :
      Between c k (kmtCreateLocked k (.task m) rand)
  | teardown {k : Kernel Cpu Sem Ctx} (t : TaskPtr Cpu) : Between c k (kmtTeardown k t)

inductive SwitchLabel (Cpu : Type) where
  | switch (t : TaskPtr Cpu)
  | between

inductive SwitchStep (c : Cpu) : Kernel Cpu Sem Ctx → SwitchLabel Cpu → Kernel Cpu Sem Ctx → Prop
  | switch {k k' : Kernel Cpu Sem Ctx} {rand : Nat} {t : TaskPtr Cpu} {context : Ctx}
      (chosen : kmtContextSwitch k c rand = (k', t, context)) : SwitchStep c k (.switch t) k'
  | between {k k' : Kernel Cpu Sem Ctx} (change : Between c k k') : SwitchStep c k .between k'

/-- The calls on one CPU, from `kmt_init` on. -/
def switches (c : Cpu) : Machine (Kernel Cpu Sem Ctx) (SwitchLabel Cpu) where
  Init k := k.tasks = fun _ => none
  Step := SwitchStep c

def InTable (k : Kernel Cpu Sem Ctx) (t : TaskPtr Cpu) : Prop := ∃ i < maxTask, k.tasks i = some t

/-- A part of a run with `n` calls: `t` stays in the table, is ready at each call and never chosen. -/
inductive PassedOver (c : Cpu) (t : TaskPtr Cpu) (k : Kernel Cpu Sem Ctx) : Nat → Kernel Cpu Sem Ctx → Prop
  | refl (stays : InTable k t) : PassedOver c t k 0 k
  | between {n : Nat} {k' k'' : Kernel Cpu Sem Ctx} (run : PassedOver c t k n k') (change : Between c k' k'')
      (stays : InTable k'' t) : PassedOver c t k n k''
  | switch {n rand : Nat} {k' k'' : Kernel Cpu Sem Ctx} {u : TaskPtr Cpu} {context : Ctx} (run : PassedOver c t k n k')
      (ready : Ready k' t) (chosen : kmtContextSwitch k' c rand = (k'', u, context)) (other : u ≠ t)
      (stays : InTable k'' t) : PassedOver c t k (n + 1) k''

/-- The entries are created tasks, each in the slot of its id. -/
structure Tabled (k : Kernel Cpu Sem Ctx) : Prop where
  slotted : Slotted k
  created : ∀ i t, k.tasks i = some t → ∃ m, t = .task m

theorem Tabled.switch (T : Tabled k) (chosen : kmtContextSwitch k c rand = (k', t, context)) :
    Tabled k' ∧ k'.tasks = k.tasks ∧ ∀ u, (k'.task u).id = (k.task u).id := by
  obtain ⟨rfl, -, -⟩ := kmtContextSwitch_cases chosen
  have ids (u : TaskPtr Cpu) : ((k.dispatch c t).task u).id = (k.task u).id := by
    by_cases same : u = t <;> simp [Kernel.dispatch, same]
  exact ⟨⟨T.slotted.congr rfl ids, T.created⟩, rfl, ids⟩

theorem Tabled.between (T : Tabled k) (change : Between c k k') : Tabled k' := by
  cases change with
  | others tasks ids current => exact ⟨T.slotted.congr tasks ids, by rw [tasks]; exact T.created⟩
  | create rand new kept =>
    refine ⟨T.slotted.createLocked new, fun i u entry => ?_⟩
    simp only [kmtCreateLocked, Kernel.setTask, update_apply] at entry
    split at entry
    · exact ⟨_, (Option.some.inj entry).symm⟩
    · exact T.created i u entry
  | teardown t =>
    refine ⟨T.slotted.teardown.1, fun i u entry => ?_⟩
    simp only [kmtTeardown, update_apply] at entry
    split at entry
    · cases entry
    · exact T.created i u entry

theorem switches_tabled (run : (switches c : Machine (Kernel Cpu Sem Ctx) _).Reachable k) : Tabled k := by
  refine run.induct Tabled ?_ fun k l k' T step => ?_
  · intro k empty
    have none (i : Nat) (t : TaskPtr Cpu) : k.tasks i ≠ some t := by
      rw [show k.tasks = fun _ => Option.none from empty]
      exact nofun
    exact ⟨fun i t entry => absurd entry (none i t), fun i t entry => absurd entry (none i t)⟩
  · cases step with
    | switch chosen => exact (T.switch chosen).1
    | between change => exact T.between change

/-- What happens in between leaves the ids of the current task and of the tasks of the table. -/
theorem Between.kept (change : Between c k k') : k'.cputask c = k.cputask c ∧
    (∀ u, k.cputask c = some u → (k'.task u).id = (k.task u).id) ∧ (InTable k t → (k'.task t).id = (k.task t).id) := by
  cases change with
  | others tasks ids current => exact ⟨current, fun u _ => ids u, fun _ => ids t⟩
  | @create m rand new kept =>
    refine ⟨rfl, kept, fun ⟨i, _, entry⟩ => ?_⟩
    have other : t ≠ .task m := by
      rintro rfl
      exact new i entry
    simp [kmtCreateLocked, other]
  | teardown u => exact ⟨rfl, fun _ _ => rfl, fun _ => rfl⟩

theorem switch_near {i : Nat} (T : Tabled k) (stays : InTable k t) (ready : Ready k t)
    (chosen : kmtContextSwitch k c rand = (k', u, context)) (other : u ≠ t)
    (start : ((k.cputask c).map fun t => (k.task t).id).getD (rand % maxTask) = i) :
    k'.cputask c = some u ∧ ahead (k'.task u).id (k'.task t).id < ahead i (k.task t).id := by
  obtain ⟨p, small, entry⟩ := stays
  have ids := (T.switch chosen).2.2
  rw [ids, ids, T.slotted p t entry]
  have scan := @runnable_near _ _ _ k t i p small entry ready
  simp only [kmtContextSwitch, start, Prod.mk.injEq] at chosen
  obtain ⟨rfl, found, -⟩ := chosen
  rcases scan with itself | ⟨j, less, v, near, there⟩
  · rw [itself] at found
    exact absurd found.symm other
  · rw [near] at found
    obtain rfl : v = u := found
    refine ⟨by simp [Kernel.dispatch, near], ?_⟩
    rw [T.slotted _ v there]
    exact ahead_next less

/-- With each call that passes `t` over, the scan starts nearer to it. -/
theorem passed_near (T : Tabled k) (passed : PassedOver c t k n k') : Tabled k' ∧ InTable k' t ∧
    (n = 0 ∨ ∃ u, k'.cputask c = some u ∧ n + ahead (k'.task u).id (k'.task t).id < maxTask) := by
  induction passed with
  | refl stays => exact ⟨T, stays, .inl rfl⟩
  | between run change stays ih =>
    obtain ⟨T', stays', near⟩ := ih
    obtain ⟨current, ids, id⟩ := @Between.kept _ _ _ _ _ _ _ t change
    refine ⟨T'.between change, stays, near.imp_right fun ⟨u, here, bound⟩ => ⟨u, current.trans here, ?_⟩⟩
    rw [ids u here, id stays']
    exact bound
  | @switch n rand k' k'' u context run ready chosen other stays ih =>
    obtain ⟨T', stays', near⟩ := ih
    obtain ⟨current, less⟩ := switch_near T' stays' ready chosen other rfl
    refine ⟨(T'.switch chosen).1, stays, .inr ⟨u, current, ?_⟩⟩
    rcases near with rfl | ⟨v, here, bound⟩
    · have := ahead_lt (((k'.cputask c).map fun t => (k'.task t).id).getD (rand % maxTask)) (k'.task t).id
      omega
    · simp only [here, Option.map_some, Option.getD_some] at less
      omega

/-- On each CPU a ready task is passed over fewer than `MAXTASK` times, and the idle context is chosen only when no
entry is ready. -/
theorem switches_fair (run : (switches c : Machine (Kernel Cpu Sem Ctx) _).Reachable k) :
    (∀ t n k', PassedOver c t k n k' → n < maxTask) ∧
      ∀ rand k' context, kmtContextSwitch k c rand = (k', .cpudefault c, context) →
        ∀ i < maxTask, ∀ t, k.tasks i = some t → ¬Ready k t := by
  have T := switches_tabled run
  refine ⟨fun t n k' passed => ?_, fun rand k' context chosen i small t entry => ?_⟩
  · rcases (passed_near T passed).2.2 with rfl | ⟨u, -, bound⟩
    · decide
    · omega
  · simp only [kmtContextSwitch, Prod.mk.injEq] at chosen
    obtain ⟨-, idle, -⟩ := chosen
    generalize ((k.cputask c).map fun t => (k.task t).id).getD (rand % maxTask) = seed at idle
    cases found : runnable k seed with
    | none => exact runnable_none found small entry
    | some u =>
      obtain ⟨j, -, here, -⟩ := runnable_first found
      obtain ⟨m, created⟩ := T.created _ u here
      rw [found, created] at idle
      cases idle

def oneReady : Kernel Bool Unit Nat := kmtCreateLocked (sampleBoot 0).kernel (.task 0) 5

theorem switches_fair_sample : (∀ t n k', PassedOver false t oneReady n k' → n < maxTask) ∧
    ∀ rand k' context, kmtContextSwitch oneReady false rand = (k', .cpudefault false, context) →
      ∀ i < maxTask, ∀ t, oneReady.tasks i = some t → ¬Ready oneReady t := by
  have boot : (switches false : Machine (Kernel Bool Unit Nat) _).Reachable (sampleBoot 0).kernel := .init rfl
  have created := boot.step (.between (.create (m := 0) 5 (fun _ => nofun) fun _ => nofun))
  exact switches_fair created

end OsLabs.Kmt
